/-
  Rts/MVarStages.lean --- what one thread sees of the buffers.

  A thread is idle, waits on one buffer, has had its put performed while it waited, or is
  owed the value that was taken for it.  The events of a run that are about one thread follow
  this order: a wait ends with the thread's own operation, on the buffer and with the value
  that it waited with, and a value that is owed is the next thing returned to the thread,
  unless an exception ends either.
-/
import HosBoot.Rts.MVarSpec

set_option autoImplicit false

namespace HosBoot.Rts

open HosBoot.Foundation

variable {V : Type}

/-! ## The stages of a thread -/

/-- Where a thread is with its operations. -/
inductive Stage (V : Type)
  | idle
  | waiting (mvar : Nat) (offer : Option V)
  | stored
  | owed (value : V)

/-- The thread that an event is about. -/
def Done.tso : Done V → Nat
  | .took t _ _ => t
  | .put t _ _ => t
  | .waits t _ _ => t
  | .refused t _ => t
  | .isEmpty t _ _ => t
  | .returned t _ => t
  | .revoked t => t

/-- The event is the thread's own, no exception. -/
def Done.Own : Done V → Prop
  | .revoked _ => False
  | _ => True

namespace Stage

/-- The thread may start an operation. -/
def Free : Stage V → Prop
  | .idle => True
  | .stored => True
  | _ => False

/-- The thread's places in the queue of a buffer. -/
def entries (t m : Nat) : Stage V → List (Nat × Option V)
  | .waiting n offer => if n = m then [(t, offer)] else []
  | _ => []

/-- What the thread will return. -/
def answer : Stage V → Option V
  | .owed value => some value
  | _ => none

theorem Free.entries {stage : Stage V} (h : stage.Free) (t m : Nat) : stage.entries t m = [] := by
  cases stage with
  | waiting n offer => cases h
  | idle => rfl
  | stored => rfl
  | owed value => rfl

theorem Free.answer {stage : Stage V} (h : stage.Free) : stage.answer = none := by
  cases stage with
  | owed value => cases h
  | idle => rfl
  | stored => rfl
  | waiting n offer => rfl

theorem free_of {stage : Stage V} {t : Nat} (hentries : ∀ m, stage.entries t m = [])
    (hanswer : stage.answer = none) : stage.Free := by
  cases stage with
  | idle => trivial
  | stored => trivial
  | waiting n offer =>
    have hn := hentries n
    rw [Stage.entries, if_pos rfl] at hn
    cases hn
  | owed value => cases hanswer

end Stage

/-- The events of thread `t`, and those of other threads. -/
inductive StageStep (t : Nat) : Stage V → Done V → Stage V → Prop
  | other {stage : Stage V} {event : Done V} : event.tso ≠ t → StageStep t stage event stage
  | take {stage : Stage V} {m : Nat} {v : V} :
      stage.Free → StageStep t stage (.took t m v) .idle
  | put {stage : Stage V} {m : Nat} {v : V} :
      stage.Free → StageStep t stage (.put t m v) .idle
  | refused {stage : Stage V} {m : Nat} : stage.Free → StageStep t stage (.refused t m) .idle
  | isEmpty {stage : Stage V} {m : Nat} {empty : Bool} :
      stage.Free → StageStep t stage (.isEmpty t m empty) .idle
  | waits {stage : Stage V} {m : Nat} {offer : Option V} :
      stage.Free → StageStep t stage (.waits t m offer) (.waiting m offer)
  | taken {m : Nat} {v : V} : StageStep t (.waiting m none) (.took t m v) (.owed v)
  | stored {m : Nat} {v : V} : StageStep t (.waiting m (some v)) (.put t m v) .stored
  | returned {v : V} : StageStep t (.owed v) (.returned t v) .idle
  | revoked {stage : Stage V} : StageStep t stage (.revoked t) .idle

/-- The thread waits nowhere. -/
def Channels.Away (a : Channels V) (t : Nat) : Prop :=
  ∀ m, ∀ w ∈ (a.channel m).waiting, w.1 ≠ t

/-- The events of a run, one after the other. -/
inductive StageRun (t : Nat) : Stage V → List (Done V) → Stage V → Prop
  | nil (stage : Stage V) : StageRun t stage [] stage
  | cons {stage mid stage' : Stage V} {event : Done V} {events : List (Done V)} :
      StageStep t stage event mid → StageRun t mid events stage' →
      StageRun t stage (event :: events) stage'

namespace StageRun

variable {t : Nat} {stage mid stage' : Stage V} {first second : List (Done V)}

theorem append (h : StageRun t stage first mid) (h' : StageRun t mid second stage') :
    StageRun t stage (first ++ second) stage' := by
  induction h with
  | nil => exact h'
  | cons hstep _ ih => exact .cons hstep (ih h')

theorem single {event : Done V} (h : StageStep t stage event stage') :
    StageRun t stage [event] stage' := .cons h (.nil stage')

theorem pair {event event' : Done V} (h : StageStep t stage event mid)
    (h' : StageStep t mid event' stage') : StageRun t stage [event, event'] stage' :=
  .cons h (.single h')

/-- A thread that begins to wait is not idle. -/
theorem ne_idle_of_waits {m : Nat} {offer : Option V}
    (h : StageRun t stage [.waits t m offer] stage') : stage' ≠ .idle := by
  cases h with
  | cons hstep hrest =>
    cases hrest
    cases hstep with
    | other hne => exact absurd rfl hne
    | waits => exact fun heq => by cases heq

end StageRun

/-! ## The stages in the buffers -/

/-- The buffers agree with the stage of a thread. -/
structure AtStage (a : Channels V) (t : Nat) (stage : Stage V) : Prop where
  waits : ∀ m, (a.channel m).waiting.filter (fun w => w.1 = t) = stage.entries t m
  answer : a.answer t = stage.answer

namespace AtStage

variable {a b : Channels V} {t u m : Nat} {stage stage' : Stage V}

theorem free_of_ready (h : AtStage a t stage) (hready : a.Ready t) : stage.Free := by
  refine Stage.free_of (t := t) (fun m => ?_) (h.answer ▸ hready.answered)
  rw [← h.waits m, List.filter_eq_nil_iff]
  intro w hw heq
  exact hready.idle m w hw (of_decide_eq_true heq)

/-- Nothing changes for the thread. -/
theorem congr (h : AtStage a t stage)
    (hwaits : ∀ m, (b.channel m).waiting.filter (fun w => w.1 = t) =
      (a.channel m).waiting.filter fun w => w.1 = t)
    (hanswer : b.answer t = a.answer t) : AtStage b t stage :=
  ⟨fun m => (hwaits m).trans (h.waits m), hanswer.trans h.answer⟩

/-- A free thread is as good as idle. -/
theorem of_free (h : AtStage a t stage) (hfree : stage.Free) (hfree' : stage'.Free) :
    AtStage a t stage' :=
  ⟨fun m => by rw [h.waits m, hfree.entries, hfree'.entries],
    by rw [h.answer, hfree.answer, hfree'.answer]⟩

/-- The thread that waits first waits nowhere else. -/
theorem first {value offer : Option V} {rest : List (Nat × Option V)} (h : AtStage a u stage)
    (hchannel : a.channel m = ⟨value, (u, offer) :: rest⟩) :
    stage = .waiting m offer ∧ rest.filter (fun w => w.1 = u) = [] := by
  have hwaits := h.waits m
  rw [hchannel, List.filter_cons_of_pos (by simp)] at hwaits
  cases stage with
  | idle => cases hwaits
  | stored => cases hwaits
  | owed v => cases hwaits
  | waiting n offer' =>
    by_cases hn : n = m
    · rw [Stage.entries, if_pos hn] at hwaits
      obtain ⟨hpair, hrest⟩ := List.cons.inj hwaits
      cases hpair
      exact ⟨by rw [hn], hrest⟩
    · rw [Stage.entries, if_neg hn] at hwaits
      cases hwaits

/-- A thread that is owed a value waits nowhere. -/
theorem owed {v : V} (h : AtStage a t stage) (hanswer : a.answer t = some v) :
    stage = .owed v ∧ a.Away t := by
  have hstill := h.answer
  rw [hanswer] at hstill
  cases stage with
  | idle => cases hstill
  | stored => cases hstill
  | waiting n offer => cases hstill
  | owed w =>
    obtain rfl := Option.some.inj hstill
    refine ⟨rfl, fun m w hw heq => ?_⟩
    have hnone := List.filter_eq_nil_iff.mp (h.waits m) w hw
    exact hnone (decide_eq_true heq)

/-- The buffer changes, and with it the thread's place in its queue. -/
theorem set (h : AtStage a t stage) {c : Channel V}
    (hwaits : c.waiting.filter (fun w => w.1 = t) = stage'.entries t m)
    (hother : ∀ n, n ≠ m → stage'.entries t n = stage.entries t n)
    (hanswer : stage'.answer = stage.answer) : AtStage (a.set m c) t stage' := by
  refine ⟨fun n => ?_, h.answer.trans hanswer.symm⟩
  rw [Channels.set_channel]
  by_cases hn : n = m
  · rw [if_pos hn, hn]
    exact hwaits
  · rw [if_neg hn, h.waits n, hother n hn]

/-- The place of the thread in the queue stays. -/
theorem set_same (h : AtStage a t stage) {c : Channel V}
    (hwaits : c.waiting.filter (fun w => w.1 = t) =
      (a.channel m).waiting.filter fun w => w.1 = t) : AtStage (a.set m c) t stage :=
  h.set (hwaits.trans (h.waits m)) (fun _ _ => rfl) rfl

/-- The thread that waits first leaves the queue. -/
theorem set_first {value value' offer : Option V} {rest : List (Nat × Option V)}
    (h : AtStage a u stage) (hchannel : a.channel m = ⟨value, (u, offer) :: rest⟩) :
    AtStage (a.set m ⟨value', rest⟩) u .stored := by
  obtain ⟨rfl, hrest⟩ := h.first hchannel
  refine h.set hrest (fun n hn => ?_) rfl
  rw [Stage.entries, if_neg (Ne.symm hn)]
  rfl

/-- Another thread leaves the queue. -/
theorem set_rest {value value' offer : Option V} {rest : List (Nat × Option V)}
    (h : AtStage a t stage) (hchannel : a.channel m = ⟨value, (u, offer) :: rest⟩)
    (hne : u ≠ t) : AtStage (a.set m ⟨value', rest⟩) t stage := by
  refine h.set_same ?_
  rw [hchannel, List.filter_cons_of_neg (by simpa using hne)]

/-- A thread joins the queue. -/
theorem set_joins {value : Option V} {waiting : List (Nat × Option V)} (h : AtStage a t stage)
    (hfree : stage.Free) (hchannel : a.channel m = ⟨value, waiting⟩) (offer : Option V) :
    AtStage (a.set m ⟨value, waiting ++ [(t, offer)]⟩) t (.waiting m offer) := by
  have hnone := h.waits m
  rw [hchannel, hfree.entries] at hnone
  refine h.set ?_ (fun n hn => ?_) hfree.answer.symm
  · rw [List.filter_append, hnone, Stage.entries, if_pos rfl]
    simp
  · rw [Stage.entries, if_neg (Ne.symm hn), hfree.entries]

/-- Another thread joins the queue. -/
theorem set_other {value : Option V} {waiting : List (Nat × Option V)} (h : AtStage a t stage)
    (hchannel : a.channel m = ⟨value, waiting⟩) (hne : u ≠ t) (offer : Option V) :
    AtStage (a.set m ⟨value, waiting ++ [(u, offer)]⟩) t stage := by
  refine h.set_same ?_
  rw [hchannel, List.filter_append]
  simp [hne]

/-- The thread gets a value, or has returned it. -/
theorem setAnswer (h : AtStage a t stage) {value : Option V}
    (hentries : ∀ m, stage'.entries t m = stage.entries t m) (hanswer : stage'.answer = value) :
    AtStage (a.setAnswer t value) t stage' := by
  refine ⟨fun m => (h.waits m).trans (hentries m).symm, ?_⟩
  rw [Channels.setAnswer_answer, if_pos rfl, hanswer]

theorem setAnswer_other (h : AtStage a t stage) (hne : u ≠ t) (value : Option V) :
    AtStage (a.setAnswer u value) t stage := by
  refine h.congr (fun _ => rfl) ?_
  rw [Channels.setAnswer_answer, if_neg (Ne.symm hne)]

theorem revoked (a : Channels V) (t : Nat) : AtStage (a.revoke t) t .idle := by
  refine ⟨fun m => ?_, ?_⟩
  · show ((a.channel m).waiting.filter _).filter _ = []
    rw [List.filter_filter, List.filter_eq_nil_iff]
    simp
  · rw [Channels.revoke_answer, if_pos rfl]
    rfl

theorem revoke_other (h : AtStage a t stage) (hne : u ≠ t) : AtStage (a.revoke u) t stage := by
  refine h.congr (fun m => ?_) ?_
  · show ((a.channel m).waiting.filter _).filter _ = _
    rw [List.filter_filter]
    refine List.filter_congr fun w _ => ?_
    by_cases hw : w.1 = t
    · simp [hw, Ne.symm hne]
    · simp [hw]
  · rw [Channels.revoke_answer, if_neg (Ne.symm hne)]

end AtStage

/-! ## Runs -/

/-- A thread that has waited first is not the one that acts. -/
theorem Channels.Ready.ne_first {a : Channels V} {t u m : Nat} {value offer : Option V}
    {rest : List (Nat × Option V)} (h : a.Ready t)
    (hchannel : a.channel m = ⟨value, (u, offer) :: rest⟩) : u ≠ t := by
  refine h.idle m (u, offer) ?_
  rw [hchannel]
  exact List.mem_cons_self

/-- How a thread may become idle: an exception, or an event that it did not wait for. -/
def BecomesIdle (a : Channels V) (t : Nat) (events : List (Done V)) : Prop :=
  .revoked t ∈ events ∨ a.Away t ∧ ∃ e ∈ events, e.tso = t

/-- What one thread sees of some events. -/
structure Sees (a b : Channels V) (t : Nat) (stage : Stage V) (events : List (Done V))
    (stage' : Stage V) : Prop where
  run : StageRun t stage events stage'
  stands : AtStage b t stage'
  idle : stage' = .idle → stage = .idle ∨ BecomesIdle a t events

namespace Sees

variable {a b : Channels V} {t u w m : Nat} {stage : Stage V} {e f : Done V}

/-- The events of other threads. -/
theorem others (h : AtStage b t stage) {events : List (Done V)}
    (hrun : StageRun t stage events stage) : Sees a b t stage events stage :=
  ⟨hrun, h, .inl⟩

/-- The thread has a stage to be in. -/
theorem active {events : List (Done V)} {stage' : Stage V} (h : AtStage b t stage')
    (hrun : StageRun t stage events stage') (hne : stage' ≠ .idle) :
    Sees a b t stage events stage' :=
  ⟨hrun, h, fun heq => absurd heq hne⟩

/-- The thread is done. -/
theorem rests {events : List (Done V)} (h : AtStage b t .idle)
    (hrun : StageRun t stage events .idle) (haway : a.Away t) (he : e ∈ events)
    (htso : e.tso = t) : Sees a b t stage events .idle :=
  ⟨hrun, h, fun _ => .inr (.inr ⟨haway, e, he, htso⟩)⟩

/-- A thread performs an operation of its own at once. -/
theorem acts (hstage : AtStage a t stage) (hafter : AtStage b t stage) (hready : a.Ready u)
    (htso : e.tso = u) (hstep : ∀ {start : Stage V}, start.Free → StageStep u start e .idle) :
    ∃ stage', Sees a b t stage [e] stage' := by
  by_cases hu : u = t
  · subst hu
    have hfree := hstage.free_of_ready hready
    exact ⟨.idle, .rests (hafter.of_free hfree trivial) (.single (hstep hfree)) hready.idle
      List.mem_cons_self htso⟩
  · exact ⟨stage, .others hafter (.single (.other (htso ▸ hu)))⟩

/-- A thread begins to wait. -/
theorem waits (hstage : AtStage a t stage) (hready : a.Ready u) {value offer : Option V}
    {waiting : List (Nat × Option V)} (hchannel : a.channel m = ⟨value, waiting⟩) :
    ∃ stage', Sees a (a.set m ⟨value, waiting ++ [(u, offer)]⟩) t stage [.waits u m offer]
      stage' := by
  by_cases hu : u = t
  · subst hu
    have hfree := hstage.free_of_ready hready
    exact ⟨_, .active (hstage.set_joins hfree hchannel offer) (.single (.waits hfree))
      fun heq => by cases heq⟩
  · exact ⟨stage, .others (hstage.set_other hchannel hu offer) (.single (.other hu))⟩

/-- A thread performs its operation, and with it that of the thread that waits first. -/
theorem hands (hstage : AtStage a t stage) (hready : a.Ready u) {value offer : Option V}
    {rest : List (Nat × Option V)} (hchannel : a.channel m = ⟨value, (w, offer) :: rest⟩)
    (htso : e.tso = u) (hstep : ∀ {start : Stage V}, start.Free → StageStep u start e .idle)
    (htso' : f.tso = w) {stage' : Stage V} (hne : stage' ≠ .idle)
    (hfirst : w = t → AtStage b t stage' ∧ StageStep t (.waiting m offer) f stage')
    (hrest : w ≠ t → AtStage b t stage) : ∃ stage', Sees a b t stage [e, f] stage' := by
  have huw := hready.ne_first hchannel
  by_cases hw : w = t
  · obtain ⟨hafter, hdone⟩ := hfirst hw
    subst hw
    obtain ⟨rfl, -⟩ := hstage.first hchannel
    exact ⟨stage', .active hafter (.pair (.other (htso ▸ Ne.symm huw)) hdone) hne⟩
  · have hother : StageStep t stage f stage := .other (htso' ▸ hw)
    by_cases hu : u = t
    · subst hu
      have hfree := hstage.free_of_ready hready
      exact ⟨.idle, .rests ((hrest hw).of_free hfree trivial)
        (.pair (hstep hfree) (.other (htso' ▸ hw))) hready.idle List.mem_cons_self htso⟩
    · exact ⟨stage, .others (hrest hw) (.pair (.other (htso ▸ hu)) hother)⟩

end Sees

/-- One step of the buffers, as one thread sees it. -/
theorem channelStep_stage {a b : Channels V} {events : List (Done V)} {t : Nat}
    {stage : Stage V} (h : ChannelStep a (some events) b) (hstage : AtStage a t stage) :
    ∃ stage', Sees a b t stage events stage' := by
  cases h with
  | takeNow hready hchannel =>
    exact Sees.acts hstage (hstage.set_same (by rw [hchannel])) hready rfl .take
  | takeFrom hready hchannel =>
    refine Sees.hands hstage hready hchannel rfl .take rfl
      (fun heq : Stage.stored = .idle => by cases heq) (fun hw => ?_) (hstage.set_rest hchannel)
    subst hw
    exact ⟨hstage.set_first hchannel, .stored⟩
  | takeWait hready hchannel => exact Sees.waits hstage hready hchannel
  | putNow hready hchannel =>
    exact Sees.acts hstage (hstage.set_same (by rw [hchannel])) hready rfl .put
  | @putTo u w m v rest hready hchannel =>
    refine Sees.hands hstage hready hchannel rfl .put rfl
      (fun heq : Stage.owed v = .idle => by cases heq) (fun hw => ?_)
      fun hw => (hstage.set_rest hchannel hw).setAnswer_other hw (some v)
    subst hw
    exact ⟨(hstage.set_first hchannel).setAnswer (fun _ => rfl) rfl, .taken⟩
  | putWait hready hchannel => exact Sees.waits hstage hready hchannel
  | refuseTake hready _ => exact Sees.acts hstage hstage hready rfl .refused
  | refusePut hready _ => exact Sees.acts hstage hstage hready rfl .refused
  | isEmpty hready => exact Sees.acts hstage hstage hready rfl .isEmpty
  | @answer u v hanswer =>
    by_cases hu : u = t
    · subst hu
      obtain ⟨rfl, haway⟩ := hstage.owed hanswer
      exact ⟨.idle, .rests (hstage.setAnswer (fun _ => rfl) rfl) (.single .returned) haway
        List.mem_cons_self rfl⟩
    · exact ⟨stage, .others (hstage.setAnswer_other hu none) (.single (.other hu))⟩
  | @revoke u =>
    by_cases hu : u = t
    · subst hu
      exact ⟨.idle, .single .revoked, .revoked a u, fun _ => .inr (.inl List.mem_cons_self)⟩
    · exact ⟨stage, .others (hstage.revoke_other hu) (.single (.other hu))⟩

/-- Every thread starts idle. -/
theorem AtStage.empty (t : Nat) : AtStage (Channels.empty : Channels V) t .idle :=
  ⟨fun _ => rfl, rfl⟩

end HosBoot.Rts
