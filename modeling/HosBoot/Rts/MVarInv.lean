/-
  Rts/MVarInv.lean --- the invariant of MVars, threads and capabilities.

  Every queue is well formed; its live entries are the threads that wait, each at one place,
  with a frame that fits the MVar.  A blocked thread that does not wait any more has had its
  operation performed and is about to be woken up.
-/
import Mathlib.Data.List.Perm.Subperm
import HosBoot.Rts.MVarStages

set_option autoImplicit false

namespace HosBoot.Rts

open HosBoot.Foundation LinkedQueue

variable {V : Type}

/-! ## Frames -/

/-- The value that a blocked putter offers. -/
def offer : Option (Frame V) → Option V
  | some (.blockPutMVar _ value) => some value
  | _ => none

/-- The value that a woken taker will return. -/
def answer : Option (Frame V) → Option V
  | some (.unptR1 value) => some value
  | _ => none

/-- No operation is pending. -/
def quiet : Option (Frame V) → Bool
  | some (.blockTakeMVar _) => false
  | some (.blockPutMVar _ _) => false
  | _ => true

/-- The operation that a thread waits with on an MVar that holds `value`: a take when it is
empty, a put when it is full. -/
def Pends (frame : Option (Frame V)) (m : Nat) : Option V → Prop
  | none => frame = some (.blockTakeMVar m)
  | some _ => ∃ v, frame = some (.blockPutMVar m v)

theorem Pends.answer {frame : Option (Frame V)} {m : Nat} {value : Option V}
    (h : Pends frame m value) : answer frame = none := by
  cases value with
  | none =>
    rw [show frame = _ from h]
    rfl
  | some v =>
    obtain ⟨w, hw⟩ := h
    rw [hw]
    rfl

/-- Only whether the MVar is empty matters. -/
theorem Pends.congr {frame : Option (Frame V)} {m : Nat} {value value' : Option V}
    (h : Pends frame m value) (hsame : value'.isSome = value.isSome) : Pends frame m value' := by
  cases value with
  | none =>
    cases value' with
    | none => exact h
    | some v => cases hsame
  | some v =>
    cases value' with
    | none => cases hsame
    | some v' => exact h

/-! ## The invariant -/

variable {s s' : MVarState V} {chain chain' : Nat → List Nat} {woken : Nat → Prop}

/-- A thread waits on an MVar, in entry `q`. -/
structure Waits (s : MVarState V) (t m q : Nat) : Prop where
  why : (s.tso t).whyBlocked = .blockedOnMVar
  info : (s.tso t).blockInfo = some m
  link : (s.tso t).link = some q
  frame : Pends (s.tso t).frame m (s.mvar m).value

theorem Waits.link_ne_none {t m q : Nat} (h : Waits s t m q) : (s.tso t).link ≠ none := by
  rw [h.link]
  exact Option.some_ne_none q

/-- The queues of the MVars, for their chains of entries. -/
structure QueuesOk (s : MVarState V) (chain : Nat → List Nat) : Prop where
  queue : ∀ m, IsQueue s.node (s.mvar m).toEnds (chain m)
  fresh : ∀ m, ∀ q ∈ chain m, q < s.hp
  apart : ∀ m m' q, q ∈ chain m → q ∈ chain m' → m = m'

/-- The threads: those in `woken` are about to get a wake-up. -/
structure ThreadsOk (s : MVarState V) (chain : Nat → List Nat) (woken : Nat → Prop) : Prop where
  entry : ∀ m, ∀ q ∈ live s.node (chain m), Waits s (s.node q).item m q
  blocked : ∀ t, (s.tso t).whyBlocked = .blockedOnMVar →
    (∃ m, ∃ q ∈ live s.node (chain m), (s.node q).item = t) ∨
      ((s.tso t).link = none ∧ quiet (s.tso t).frame = true ∧
        (s.tso t).blockInfo.isSome = true ∧ (t ∈ s.inbox (s.tso t).cap ∨ woken t))
  runnable : ∀ t, (s.tso t).whyBlocked = .notBlocked →
    (s.tso t).link = none ∧ quiet (s.tso t).frame = true

/-- The capabilities: a thread that can run is in one place at most. -/
structure CapsOk (s : MVarState V) : Prop where
  queued : ∀ cap, ∀ t ∈ s.runQueue cap,
    (s.tso t).cap = cap ∧ (s.tso t).whyBlocked = .notBlocked
  once : ∀ cap, (s.runQueue cap).Nodup
  running : ∀ cap t, s.current cap = some t → (s.tso t).cap = cap ∧
    (s.tso t).whyBlocked = .notBlocked ∧ t ∉ s.runQueue cap ∧ (s.tso t).frame = none

structure MVarInv (s : MVarState V) (chain : Nat → List Nat) (woken : Nat → Prop) : Prop where
  queues : QueuesOk s chain
  threads : ThreadsOk s chain woken
  caps : CapsOk s

/-- No thread is about to get a wake-up. -/
abbrev nobody : Nat → Prop := fun _ => False

/-- The buffers that a state stands for. -/
def view (s : MVarState V) (chain : Nat → List Nat) : Channels V where
  channel m := ⟨(s.mvar m).value, (live s.node (chain m)).map fun q =>
    ((s.node q).item, offer (s.tso (s.node q).item).frame)⟩
  answer t := answer (s.tso t).frame

/-! ## Consequences -/

theorem MVarInv.blocked_of_link (h : MVarInv s chain woken) {t q : Nat}
    (hlink : (s.tso t).link = some q) :
    ∃ m, q ∈ live s.node (chain m) ∧ (s.node q).item = t ∧ Waits s t m q := by
  cases hwhy : (s.tso t).whyBlocked with
  | notBlocked =>
    rw [(h.threads.runnable t hwhy).1] at hlink
    cases hlink
  | blockedOnMVar =>
    rcases h.threads.blocked t hwhy with ⟨m, q', hq', rfl⟩ | ⟨hnone, -⟩
    · have hwaits := h.threads.entry m q' hq'
      rw [hwaits.link] at hlink
      cases hlink
      exact ⟨m, hq', rfl, hwaits⟩
    · rw [hnone] at hlink
      cases hlink

/-- A thread waits at one place only. -/
theorem MVarInv.entry_inj (h : MVarInv s chain woken) {m m' q q' : Nat}
    (hq : q ∈ live s.node (chain m)) (hq' : q' ∈ live s.node (chain m'))
    (hitem : (s.node q).item = (s.node q').item) : q = q' ∧ m = m' := by
  have hwaits := h.threads.entry m q hq
  have hwaits' := h.threads.entry m' q' hq'
  rw [hitem] at hwaits
  exact ⟨Option.some.inj (hwaits.link.symm.trans hwaits'.link),
    Option.some.inj (hwaits.info.symm.trans hwaits'.info)⟩

/-- A thread that is not blocked waits nowhere. -/
theorem MVarInv.item_ne (h : MVarInv s chain woken) {t m q : Nat}
    (hwhy : (s.tso t).whyBlocked = .notBlocked) (hq : q ∈ live s.node (chain m)) :
    (s.node q).item ≠ t := by
  intro heq
  have hwaits := (h.threads.entry m q hq).why
  rw [heq, hwhy] at hwaits
  cases hwaits

/-- The current thread of a capability may start an operation. -/
theorem MVarInv.ready (h : MVarInv s chain woken) {cap t : Nat} (hcurrent : s.current cap = some t) :
    (view s chain).Ready t := by
  obtain ⟨-, hwhy, -, hframe⟩ := h.caps.running cap t hcurrent
  refine ⟨fun m w hw => ?_, ?_⟩
  · obtain ⟨q, hq, rfl⟩ := List.mem_map.mp hw
    exact h.item_ne hwhy hq
  · show answer (s.tso t).frame = none
    rw [hframe]
    rfl

/-- A chain has no more entries than there are. -/
theorem MVarInv.chain_length (h : MVarInv s chain woken) (m : Nat) : (chain m).length ≤ s.hp := by
  have hsub : chain m ⊆ List.range s.hp := fun q hq => List.mem_range.mpr (h.queues.fresh m q hq)
  have hle := (List.subperm_of_subset (h.queues.queue m).nodup hsub).length_le
  rwa [List.length_range] at hle

/-- The search of an operation ends. -/
theorem MVarInv.firstLive (h : MVarInv s chain woken) (m : Nat) :
    (live s.node (chain m) = [] ∧ firstLive s.node s.hp (s.mvar m).head = some none) ∨
      ∃ front q rest, chain m = front ++ q :: rest ∧ live s.node front = [] ∧
        (s.node q).status = .live ∧ firstLive s.node s.hp (s.mvar m).head = some (some q) :=
  (h.queues.queue m).walk.firstLive (h.chain_length m)

/-- The state is looked at through queues, values and frames only. -/
theorem view_congr (hnode : s'.node = s.node) (hvalue : ∀ m, (s'.mvar m).value = (s.mvar m).value)
    (hframe : ∀ t, (s'.tso t).frame = (s.tso t).frame) : view s' chain = view s chain := by
  unfold view
  simp only [hnode, hvalue, hframe]

/-! ## What a function owes -/

/-- A state satisfies the invariant and stands for buffers. -/
def Stands (s : MVarState V) (a : Channels V) : Prop :=
  ∃ chain, MVarInv s chain nobody ∧ view s chain = a

/-- A function succeeds, in a state that stands for `a`. -/
def EndsIn (run : Except String (MVarState V)) (a : Channels V) : Prop :=
  ∃ s', run = .ok s' ∧ Stands s' a

/-- The events are those of thread `t` and of threads that wait. -/
def About (a : Channels V) (t : Nat) (done : List (Done V)) : Prop :=
  ∀ e ∈ done, e.Own ∧ (e.tso = t ∨ ¬ a.Away e.tso)

/-- An operation of thread `t` succeeds, and the buffers answer what it shows. -/
def Performs (t : Nat) (a : Channels V) (run : Except String (MVarState V × List (Done V))) :
    Prop :=
  ∃ s' done b, run = .ok (s', done) ∧ Stands s' b ∧ Answers a (shown done) b ∧ About a t done

theorem EndsIn.stands {run : Except String (MVarState V)} {a : Channels V} (h : EndsIn run a)
    (hrun : run = .ok s') : Stands s' a := by
  obtain ⟨s₁, hrun₁, hstands⟩ := h
  rw [hrun₁] at hrun
  cases hrun
  exact hstands

theorem EndsIn.succeeds {run : Except String (MVarState V)} {a : Channels V} (h : EndsIn run a) :
    ∃ r, run = .ok r := by
  obtain ⟨s₁, hrun, -⟩ := h
  exact ⟨s₁, hrun⟩

namespace Performs

variable {run : Except String (MVarState V × List (Done V))} {a b : Channels V} {t u m : Nat}
  {e f : Done V} {done : List (Done V)}

/-- Nothing shows. -/
theorem silent (hrun : run = .ok (s', [])) (hstands : Stands s' a) : Performs t a run :=
  ⟨s', [], a, hrun, hstands, .silent, fun _ he => absurd he List.not_mem_nil⟩

/-- The thread's own event shows. -/
theorem single (hrun : run = .ok (s', [e])) (hstands : Stands s' b)
    (hstep : ChannelStep a (some [e]) b) (he : e.tso = t) (hown : e.Own) :
    Performs t a run := by
  refine ⟨s', [e], b, hrun, hstands, .step hstep, fun x hx => ?_⟩
  rw [List.mem_singleton.mp hx]
  exact ⟨hown, .inl he⟩

/-- The thread's own event shows, and that of a thread that waits. -/
theorem pair (hrun : run = .ok (s', [e, f])) (hstands : Stands s' b)
    (hstep : ChannelStep a (some [e, f]) b) (he : e.tso = t) (hown : e.Own) (hown' : f.Own)
    {offer : Option V} (hwaits : (f.tso, offer) ∈ (a.channel m).waiting) : Performs t a run := by
  refine ⟨s', [e, f], b, hrun, hstands, .step hstep, fun x hx => ?_⟩
  rcases List.mem_cons.mp hx with rfl | hx
  · exact ⟨hown, .inl he⟩
  · obtain rfl := List.mem_singleton.mp hx
    exact ⟨hown', .inr fun haway => haway m _ hwaits rfl⟩

theorem answered (h : Performs t a run) (hrun : run = .ok (s', done)) :
    ∃ b, Answers a (shown done) b ∧ Stands s' b ∧ About a t done := by
  obtain ⟨s₁, done₁, b, hrun₁, hstands, hanswers, habout⟩ := h
  rw [hrun₁] at hrun
  cases hrun
  exact ⟨b, hanswers, hstands, habout⟩

theorem succeeds (h : Performs t a run) : ∃ r, run = .ok r := by
  obtain ⟨s₁, done, b, hrun, -⟩ := h
  exact ⟨_, hrun⟩

end Performs

end HosBoot.Rts
