/-
  Foundation/AtomicObject.lean --- objects whose operations take effect at one point.

  An object says what an operation may answer in a state and which state it leaves.
  The atomic system of an object lets any number of threads call operations; each
  call is performed in one step, at some point between its call and its return.  An
  implementation whose traces are traces of that system is linearizable, and
  `exists_history` gives the sequential order of its operations.  A contended object also
  says which answers an operation may give in the midst of the others.
-/
import Mathlib.Data.List.Induction
import Mathlib.Logic.Function.Basic
import HosBoot.Foundation.Transition

set_option autoImplicit false

namespace HosBoot.Foundation

/-- The sequential behaviour of an object. -/
structure SeqObject (obj op res : Type) where
  init : obj
  effect : obj → op → res → obj → Prop

/-- What can be seen of an operation from outside. -/
inductive CallEvent (ι op res : Type)
  | call (thread : ι) (operation : op)
  | ret (thread : ι) (answer : res)

/-- Where a thread stands: between operations, before or after its own takes effect. -/
inductive CallPhase (op res : Type)
  | idle
  | called (operation : op)
  | performed (operation : op) (answer : res)

section

variable {op res : Type}

/-- What a phase says about the thread's operation under way. -/
def CallPhase.pending : CallPhase op res → Option op
  | .idle => none
  | .called o => some o
  | .performed o _ => some o

/-- An operation that took effect and was not answered yet. -/
def CallPhase.unanswered : CallPhase op res → List (op × res)
  | .idle => []
  | .called _ => []
  | .performed o r => [(o, r)]

end

/-- A value that several threads work on. -/
structure AtomicState (ι obj op res : Type) where
  value : obj
  phase : ι → CallPhase op res

namespace SeqObject

variable {ι obj op res : Type} [DecidableEq ι]

/-- The three things a thread does with an operation. -/
inductive AtomicStep (O : SeqObject obj op res) :
    AtomicState ι obj op res → Option (CallEvent ι op res) → AtomicState ι obj op res → Prop
  | call {s : AtomicState ι obj op res} {i : ι} {o : op} :
      s.phase i = .idle →
      AtomicStep O s (some (.call i o))
        { s with phase := Function.update s.phase i (.called o) }
  | perform {s : AtomicState ι obj op res} {i : ι} {o : op} {r : res} {v : obj} :
      s.phase i = .called o → O.effect s.value o r v →
      AtomicStep O s none
        { value := v, phase := Function.update s.phase i (.performed o r) }
  | ret {s : AtomicState ι obj op res} {i : ι} {o : op} {r : res} :
      s.phase i = .performed o r →
      AtomicStep O s (some (.ret i r))
        { s with phase := Function.update s.phase i .idle }

/-- All threads share one object and each operation takes effect in one step. -/
def atomic (ι : Type) [DecidableEq ι] (O : SeqObject obj op res) :
    TransitionSystem (AtomicState ι obj op res) (CallEvent ι op res) where
  init s := s.value = O.init ∧ ∀ i, s.phase i = .idle
  step := O.AtomicStep

/-! ## Sequential histories -/

/-- An operation of a sequential history: who did it, what it was and its answer. -/
structure Performed (ι op res : Type) where
  thread : ι
  operation : op
  answer : res

/-- The operations of a history, one after the other. -/
inductive Replay (O : SeqObject obj op res) : obj → List (Performed ι op res) → obj → Prop
  | nil (v : obj) : Replay O v [] v
  | snoc {u v w : obj} {history : List (Performed ι op res)} {p : Performed ι op res} :
      Replay O u history v → O.effect v p.operation p.answer w →
      Replay O u (history ++ [p]) w

/-- What the threads have called and not got back, and what they have got back. -/
structure CallLog (ι op res : Type) where
  pending : ι → Option op
  finished : List (Performed ι op res)

/-- Reading one event. -/
def CallLog.note (log : CallLog ι op res) : CallEvent ι op res → CallLog ι op res
  | .call i o => { log with pending := Function.update log.pending i (some o) }
  | .ret i r =>
    match log.pending i with
    | some o =>
      { pending := Function.update log.pending i none
        finished := log.finished ++ [⟨i, o, r⟩] }
    | none => log

/-- Reading a trace that starts with the operations `pending` under way. -/
def callLog (pending : ι → Option op) (trace : List (CallEvent ι op res)) :
    CallLog ι op res :=
  trace.foldl CallLog.note { pending := pending, finished := [] }

/-- The operations that a trace shows from call to return. -/
def completed (trace : List (CallEvent ι op res)) : List (Performed ι op res) :=
  (callLog (fun _ => none) trace).finished

/-- The operations of one thread in a history. -/
def doneBy (i : ι) (history : List (Performed ι op res)) : List (op × res) :=
  (history.filter fun p => p.thread = i).map fun p => (p.operation, p.answer)

@[simp] theorem doneBy_nil (i : ι) : doneBy i ([] : List (Performed ι op res)) = [] := rfl

theorem doneBy_append (i : ι) (history more : List (Performed ι op res)) :
    doneBy i (history ++ more) = doneBy i history ++ doneBy i more := by
  simp [doneBy, List.filter_append]

theorem doneBy_self (i : ι) (o : op) (r : res) :
    doneBy i [(⟨i, o, r⟩ : Performed ι op res)] = [(o, r)] := by
  simp [doneBy]

theorem doneBy_other {i j : ι} (hne : i ≠ j) (o : op) (r : res) :
    doneBy j [(⟨i, o, r⟩ : Performed ι op res)] = [] := by
  simp [doneBy, hne]

/-- Histories that agree thread by thread hold the same operations. -/
theorem perm_of_doneBy {first second : List (Performed ι op res)}
    (h : ∀ i, doneBy i first = doneBy i second) : first.Perm second := by
  classical
  have hcount : ∀ (l : List (Performed ι op res)) (p : Performed ι op res),
      l.count p = (doneBy p.thread l).count (p.operation, p.answer) := by
    intro l p
    induction l with
    | nil => rfl
    | cons q rest ih =>
      obtain ⟨i, o, r⟩ := q
      rw [← List.singleton_append, List.count_append, doneBy_append, List.count_append, ih]
      congr 1
      by_cases hthread : i = p.thread
      · subst hthread
        rw [doneBy_self]
        obtain ⟨j, o', r'⟩ := p
        simp [List.count_singleton]
      · rw [doneBy_other hthread, List.count_nil, List.count_singleton, if_neg]
        simp only [beq_iff_eq]
        intro heq
        exact hthread (congrArg Performed.thread heq)
  rw [List.perm_iff_count]
  intro p
  rw [hcount, hcount, h]

/-- What a history has to say about thread `i` to explain a trace from `s` to `t`. -/
structure Explains (i : ι) (s t : AtomicState ι obj op res)
    (trace : List (CallEvent ι op res)) (history : List (Performed ι op res)) : Prop where
  pending : (callLog (fun j => (s.phase j).pending) trace).pending i = (t.phase i).pending
  finished : (s.phase i).unanswered ++ doneBy i history =
    doneBy i (callLog (fun j => (s.phase j).pending) trace).finished ++ (t.phase i).unanswered

theorem Explains.refl (i : ι) (s : AtomicState ι obj op res) :
    Explains i s s [] ([] : List (Performed ι op res)) := by
  refine ⟨rfl, ?_⟩
  simp [callLog]

/-- One more step of a run, for a thread: what it does to the thread's log, phase and
part of the history. -/
theorem Explains.snoc {i : ι} {s t u : AtomicState ι obj op res}
    {trace rest : List (CallEvent ι op res)} {history more : List (Performed ι op res)}
    (h : Explains i s t trace history)
    (hpending : ∀ log : CallLog ι op res, log.pending i = (t.phase i).pending →
      (rest.foldl CallLog.note log).pending i = (u.phase i).pending)
    (hfinished : ∀ log : CallLog ι op res, log.pending i = (t.phase i).pending →
      doneBy i log.finished ++ (t.phase i).unanswered ++ doneBy i more =
        doneBy i (rest.foldl CallLog.note log).finished ++ (u.phase i).unanswered) :
    Explains i s u (trace ++ rest) (history ++ more) := by
  refine ⟨?_, ?_⟩
  · rw [callLog, List.foldl_append]
    exact hpending _ h.pending
  · rw [callLog, List.foldl_append, doneBy_append, ← List.append_assoc, h.finished]
    exact hfinished _ h.pending

/-- A step of another thread. -/
theorem Explains.frame {i : ι} {s t u : AtomicState ι obj op res}
    {trace rest : List (CallEvent ι op res)} {history more : List (Performed ι op res)}
    (h : Explains i s t trace history) (hphase : u.phase i = t.phase i)
    (hdone : doneBy i more = [])
    (hpending : ∀ log : CallLog ι op res,
      (rest.foldl CallLog.note log).pending i = log.pending i)
    (hfinished : ∀ log : CallLog ι op res,
      doneBy i (rest.foldl CallLog.note log).finished = doneBy i log.finished) :
    Explains i s u (trace ++ rest) (history ++ more) := by
  refine h.snoc (fun log hp => ?_) (fun log _ => ?_)
  · rw [hpending, hp, hphase]
  · rw [hfinished, hphase, hdone, List.append_nil]

/-- A return of thread `i` says nothing about the others. -/
theorem CallLog.note_ret_other {i j : ι} (hne : i ≠ j) (log : CallLog ι op res) (r : res) :
    (log.note (.ret i r)).pending j = log.pending j ∧
      doneBy j (log.note (.ret i r)).finished = doneBy j log.finished := by
  cases hpending : log.pending i with
  | none => simp [CallLog.note, hpending]
  | some o =>
    simp [CallLog.note, hpending, doneBy_append, doneBy_other hne,
      Function.update_of_ne (Ne.symm hne)]

/-- Each run of the atomic system has a sequential history: the operations in the order
in which they took effect, the same for every thread as its calls and returns. -/
theorem exists_history {O : SeqObject obj op res} {s t : AtomicState ι obj op res}
    {trace : List (CallEvent ι op res)} (hrun : (O.atomic ι).Run s trace t) :
    ∃ history, O.Replay s.value history t.value ∧ ∀ i, Explains i s t trace history := by
  induction hrun with
  | refl => exact ⟨[], Replay.nil _, fun i => Explains.refl i _⟩
  | snoc _ hstep ih =>
    obtain ⟨history, hreplay, hexplains⟩ := ih
    cases hstep with
    | @call i o hidle =>
      refine ⟨history ++ [], by rwa [List.append_nil], fun j => ?_⟩
      by_cases hij : i = j
      · subst hij
        refine (hexplains i).snoc (fun log _ => ?_) (fun log hp => ?_)
        · simp [CallLog.note, CallPhase.pending]
        · simp [CallLog.note, CallPhase.unanswered, hidle]
      · refine (hexplains j).frame ?_ rfl (fun log => ?_) (fun log => rfl)
        · exact Function.update_of_ne (Ne.symm hij) _ _
        · exact Function.update_of_ne (Ne.symm hij) _ _
    | @perform i o r v hcalled heffect =>
      refine ⟨history ++ [⟨i, o, r⟩], Replay.snoc hreplay heffect, fun j => ?_⟩
      by_cases hij : i = j
      · subst hij
        refine (hexplains i).snoc (fun log hp => ?_) (fun log hp => ?_)
        · simpa [hcalled, CallPhase.pending] using hp
        · simp [CallPhase.unanswered, hcalled, doneBy_self]
      · refine (hexplains j).frame ?_ (doneBy_other hij o r) (fun log => rfl) (fun log => rfl)
        exact Function.update_of_ne (Ne.symm hij) _ _
    | @ret i o r hperformed =>
      refine ⟨history ++ [], by rwa [List.append_nil], fun j => ?_⟩
      by_cases hij : i = j
      · subst hij
        refine (hexplains i).snoc (fun log hp => ?_) (fun log hp => ?_)
        · rw [hperformed] at hp
          simp [CallLog.note, CallPhase.pending, hp]
        · rw [hperformed] at hp
          simp [CallLog.note, CallPhase.unanswered, CallPhase.pending, hp, hperformed,
            doneBy_append, doneBy_self]
      · refine (hexplains j).frame ?_ rfl (fun log => ?_) (fun log => ?_)
        · exact Function.update_of_ne (Ne.symm hij) _ _
        · exact (log.note_ret_other hij r).1
        · exact (log.note_ret_other hij r).2

/-- Between two moments with nothing under way, the history holds exactly the operations
that the trace shows. -/
theorem exists_history_perm {O : SeqObject obj op res} {s t : AtomicState ι obj op res}
    {trace : List (CallEvent ι op res)} (hrun : (O.atomic ι).Run s trace t)
    (hs : ∀ i, s.phase i = .idle) (ht : ∀ i, t.phase i = .idle) :
    ∃ history, O.Replay s.value history t.value ∧ history.Perm (completed trace) := by
  obtain ⟨history, hreplay, hexplains⟩ := exists_history hrun
  refine ⟨history, hreplay, perm_of_doneBy fun i => ?_⟩
  have hstart : (fun j => (s.phase j).pending) = fun _ => (none : Option op) := by
    funext j
    rw [hs j]
    rfl
  have hfinished := (hexplains i).finished
  rw [hs i, ht i, hstart] at hfinished
  simpa [CallPhase.unanswered, completed] using hfinished

/-- Whatever returned was called. -/
theorem call_mem_of_completed {trace : List (CallEvent ι op res)} {p : Performed ι op res}
    (hp : p ∈ completed trace) : CallEvent.call p.thread p.operation ∈ trace := by
  have hlog : (∀ i o, (callLog (fun _ => none) trace).pending i = some o →
        CallEvent.call i o ∈ trace) ∧
      ∀ q ∈ (callLog (fun _ => none) trace).finished,
        CallEvent.call q.thread q.operation ∈ trace := by
    clear hp p
    induction trace using List.reverseRecOn with
    | nil =>
      refine ⟨fun i o h => ?_, fun q hq => ?_⟩
      · cases h
      · cases hq
    | append_singleton trace event ih =>
      obtain ⟨hpending, hfinished⟩ := ih
      rw [callLog, List.foldl_append, List.foldl_cons, List.foldl_nil, ← callLog]
      generalize callLog (fun _ => none) trace = log at hpending hfinished ⊢
      cases event with
      | call j o' =>
        refine ⟨fun i o h => ?_, fun q hq => List.mem_append_left _ (hfinished q hq)⟩
        by_cases hij : i = j
        · subst hij
          have ho : o' = o := by simpa [CallLog.note] using h
          rw [ho]
          exact List.mem_append_right _ List.mem_cons_self
        · refine List.mem_append_left _ (hpending i o ?_)
          simpa [CallLog.note, Function.update_of_ne hij] using h
      | ret j r =>
        cases hj : log.pending j with
        | none =>
          simp only [CallLog.note, hj]
          exact ⟨fun i o h => List.mem_append_left _ (hpending i o h),
            fun q hq => List.mem_append_left _ (hfinished q hq)⟩
        | some o' =>
          simp only [CallLog.note, hj]
          refine ⟨fun i o h => List.mem_append_left _ (hpending i o ?_), fun q hq => ?_⟩
          · by_cases hij : i = j
            · subst hij
              rw [Function.update_self] at h
              cases h
            · rwa [Function.update_of_ne hij] at h
          · rcases List.mem_append.mp hq with hq | hq
            · exact List.mem_append_left _ (hfinished q hq)
            · rw [List.mem_singleton.mp hq]
              exact List.mem_append_left _ (hpending j o' hj)
  exact hlog.2 p hp

end SeqObject

/-! ## Objects under contention -/

open SeqObject

/-- An object that excuses some answers only by what goes on around an operation: the value
it meets, what the other threads are doing, and what took effect since its call. -/
structure ContendedObject (ι obj op res : Type) extends SeqObject obj op res where
  allows : obj → (ι → CallPhase op res) → List (Performed ι op res) → op → res → Prop

/-- A shared value, with what took effect since each thread's last call. -/
structure ContendedState (ι obj op res : Type) extends AtomicState ι obj op res where
  since : ι → List (Performed ι op res)

namespace ContendedObject

variable {ι obj op res : Type} [DecidableEq ι]

/-- The steps of `AtomicStep`, where an operation takes effect only with an answer that the
object allows at that moment. -/
inductive ContendedStep (O : ContendedObject ι obj op res) :
    ContendedState ι obj op res → Option (CallEvent ι op res) →
      ContendedState ι obj op res → Prop
  | call {s : ContendedState ι obj op res} {i : ι} {o : op} :
      s.phase i = .idle →
      ContendedStep O s (some (.call i o))
        { s with
          phase := Function.update s.phase i (.called o)
          since := Function.update s.since i [] }
  | perform {s : ContendedState ι obj op res} {i : ι} {o : op} {r : res} {v : obj} :
      s.phase i = .called o → O.effect s.value o r v →
      O.allows s.value s.phase (s.since i) o r →
      ContendedStep O s none
        { value := v
          phase := Function.update s.phase i (.performed o r)
          since := fun j => s.since j ++ [⟨i, o, r⟩] }
  | ret {s : ContendedState ι obj op res} {i : ι} {o : op} {r : res} :
      s.phase i = .performed o r →
      ContendedStep O s (some (.ret i r))
        { s with phase := Function.update s.phase i .idle }

/-- All threads share one object, and its answers are those that it allows. -/
def contended (O : ContendedObject ι obj op res) :
    TransitionSystem (ContendedState ι obj op res) (CallEvent ι op res) where
  init s := s.value = O.init ∧ ∀ i, s.phase i = .idle
  step := O.ContendedStep

/-- A contended object is the object: forgetting what was done since, a step is a step. -/
theorem atomicStep_of_contendedStep {O : ContendedObject ι obj op res}
    {s t : ContendedState ι obj op res} {label : Option (CallEvent ι op res)}
    (h : O.ContendedStep s label t) :
    O.AtomicStep s.toAtomicState label t.toAtomicState := by
  cases h with
  | call hidle => exact .call hidle
  | perform hcalled heffect _ => exact .perform hcalled heffect
  | ret hperformed => exact .ret hperformed

theorem atomic_of_contended {O : ContendedObject ι obj op res}
    {s t : ContendedState ι obj op res} {trace : List (CallEvent ι op res)}
    (hrun : O.contended.Run s trace t) :
    (O.atomic ι).Run s.toAtomicState trace t.toAtomicState := by
  induction hrun with
  | refl => exact .refl _
  | snoc _ hstep ih => exact .snoc ih (atomicStep_of_contendedStep hstep)

end ContendedObject

end HosBoot.Foundation
