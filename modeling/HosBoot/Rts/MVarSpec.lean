/-
  Rts/MVarSpec.lean --- what an MVar is for.

  An MVar is a one-place buffer with a queue of waiting threads.  When the buffer changes, the
  thread that has waited longest has its operation performed in the same step; the value a
  waiting taker gets is kept until the thread runs again.  An exception takes a thread off
  its queue.
-/
import HosBoot.Foundation.Transition
import HosBoot.Rts.MVar

set_option autoImplicit false

namespace HosBoot.Rts

open HosBoot.Foundation

variable {V : Type}

/-- A buffer and who waits for it, with the value to put or `none` for a taker. -/
structure Channel (V : Type) where
  value : Option V
  waiting : List (Nat × Option V)

/-- All buffers, and the values that woken takers have not returned yet. -/
structure Channels (V : Type) where
  channel : Nat → Channel V
  answer : Nat → Option V

namespace Channels

/-- One buffer changes. -/
def set (a : Channels V) (m : Nat) (c : Channel V) : Channels V :=
  { a with channel := Function.update a.channel m c }

/-- A thread gets a value, or has returned it. -/
def setAnswer (a : Channels V) (t : Nat) (value : Option V) : Channels V :=
  { a with answer := Function.update a.answer t value }

/-- A thread stops waiting. -/
def revoke (a : Channels V) (t : Nat) : Channels V where
  channel m := ⟨(a.channel m).value, (a.channel m).waiting.filter fun w => w.1 ≠ t⟩
  answer := Function.update a.answer t none

/-- A thread that may start an operation: it waits nowhere and has nothing to return. -/
structure Ready (a : Channels V) (t : Nat) : Prop where
  idle : ∀ m, ∀ w ∈ (a.channel m).waiting, w.1 ≠ t
  answered : a.answer t = none

end Channels

/-- A step that completes nothing is silent. -/
def shown : List (Done V) → Option (List (Done V))
  | [] => none
  | done :: rest => some (done :: rest)

/-- The steps of the buffers. -/
inductive ChannelStep : Channels V → Option (List (Done V)) → Channels V → Prop
  | takeNow {a : Channels V} {t m : Nat} {v : V} :
      a.Ready t → a.channel m = ⟨some v, []⟩ →
      ChannelStep a (some [.took t m v]) (a.set m ⟨none, []⟩)
  | takeFrom {a : Channels V} {t u m : Nat} {v w : V} {rest : List (Nat × Option V)} :
      a.Ready t → a.channel m = ⟨some v, (u, some w) :: rest⟩ →
      ChannelStep a (some [.took t m v, .put u m w]) (a.set m ⟨some w, rest⟩)
  | takeWait {a : Channels V} {t m : Nat} {waiting : List (Nat × Option V)} :
      a.Ready t → a.channel m = ⟨none, waiting⟩ →
      ChannelStep a (some [.waits t m none]) (a.set m ⟨none, waiting ++ [(t, none)]⟩)
  | putNow {a : Channels V} {t m : Nat} {v : V} :
      a.Ready t → a.channel m = ⟨none, []⟩ →
      ChannelStep a (some [.put t m v]) (a.set m ⟨some v, []⟩)
  | putTo {a : Channels V} {t u m : Nat} {v : V} {rest : List (Nat × Option V)} :
      a.Ready t → a.channel m = ⟨none, (u, none) :: rest⟩ →
      ChannelStep a (some [.put t m v, .took u m v]) ((a.set m ⟨none, rest⟩).setAnswer u (some v))
  | putWait {a : Channels V} {t m : Nat} {v w : V} {waiting : List (Nat × Option V)} :
      a.Ready t → a.channel m = ⟨some w, waiting⟩ →
      ChannelStep a (some [.waits t m (some v)]) (a.set m ⟨some w, waiting ++ [(t, some v)]⟩)
  | refuseTake {a : Channels V} {t m : Nat} :
      a.Ready t → (a.channel m).value = none → ChannelStep a (some [.refused t m]) a
  | refusePut {a : Channels V} {t m : Nat} {v : V} :
      a.Ready t → (a.channel m).value = some v → ChannelStep a (some [.refused t m]) a
  | isEmpty {a : Channels V} {t m : Nat} :
      a.Ready t → ChannelStep a (some [.isEmpty t m (a.channel m).value.isNone]) a
  | answer {a : Channels V} {t : Nat} {v : V} :
      a.answer t = some v → ChannelStep a (some [.returned t v]) (a.setAnswer t none)
  | revoke {a : Channels V} {t : Nat} : ChannelStep a (some [.revoked t]) (a.revoke t)

/-- A step that shows something is one step of the buffers, any other one does not touch
them. -/
inductive Answers (a : Channels V) : Option (List (Done V)) → Channels V → Prop
  | silent : Answers a none a
  | step {b : Channels V} {done : List (Done V)} :
      ChannelStep a (some done) b → Answers a (some done) b

/-- New MVars, and no thread that waits. -/
def Channels.empty : Channels V := ⟨fun _ => ⟨none, []⟩, fun _ => none⟩

/-- The buffers from the start on. -/
def channels (V : Type) : TransitionSystem (Channels V) (List (Done V)) where
  init a := a = .empty
  step := ChannelStep

theorem Answers.run {a b : Channels V} {label : Option (List (Done V))} (h : Answers a label b) :
    (channels V).Run a label.toList b := by
  cases h with
  | silent => exact .refl a
  | step hstep => exact .single hstep

/-! ## Values go through a buffer in order -/

/-- The values put into a buffer. -/
def putsOf (m : Nat) (done : List (Done V)) : List V :=
  done.filterMap fun
    | .put _ m' v => if m' = m then some v else none
    | _ => none

/-- The values taken out of a buffer. -/
def takesOf (m : Nat) (done : List (Done V)) : List V :=
  done.filterMap fun
    | .took _ m' v => if m' = m then some v else none
    | _ => none

theorem putsOf_append (m : Nat) (first second : List (Done V)) :
    putsOf m (first ++ second) = putsOf m first ++ putsOf m second :=
  List.filterMap_append

theorem takesOf_append (m : Nat) (first second : List (Done V)) :
    takesOf m (first ++ second) = takesOf m first ++ takesOf m second :=
  List.filterMap_append

theorem Channels.set_channel (a : Channels V) (m n : Nat) (c : Channel V) :
    (a.set m c).channel n = if n = m then c else a.channel n := by
  rw [Channels.set]
  exact Function.update_apply _ _ _ _

theorem Channels.setAnswer_answer (a : Channels V) (t u : Nat) (value : Option V) :
    (a.setAnswer t value).answer u = if u = t then value else a.answer u := by
  rw [Channels.setAnswer]
  exact Function.update_apply _ _ _ _

theorem Channels.revoke_answer (a : Channels V) (t u : Nat) :
    (a.revoke t).answer u = if u = t then none else a.answer u := by
  rw [Channels.revoke]
  exact Function.update_apply _ _ _ _

/-- One step keeps the order: what was in the buffer and what is put in is what is taken out
and what stays. -/
theorem channelStep_inOrder {a b : Channels V} {label : Option (List (Done V))}
    (h : ChannelStep a label b) (m : Nat) :
    (a.channel m).value.toList ++ putsOf m label.toList.flatten =
      takesOf m label.toList.flatten ++ (b.channel m).value.toList := by
  cases h with
  | @takeNow t n v hready hchannel =>
    rw [Channels.set_channel]
    by_cases hm : m = n
    · simp [hm, hchannel, putsOf, takesOf]
    · simp [hm, Ne.symm hm, putsOf, takesOf]
  | @takeFrom t u n v w rest hready hchannel =>
    rw [Channels.set_channel]
    by_cases hm : m = n
    · simp [hm, hchannel, putsOf, takesOf]
    · simp [hm, Ne.symm hm, putsOf, takesOf]
  | @takeWait t n waiting hready hchannel =>
    rw [Channels.set_channel]
    by_cases hm : m = n
    · simp [hm, hchannel, putsOf, takesOf]
    · simp [hm, putsOf, takesOf]
  | @putNow t n v hready hchannel =>
    rw [Channels.set_channel]
    by_cases hm : m = n
    · simp [hm, hchannel, putsOf, takesOf]
    · simp [hm, Ne.symm hm, putsOf, takesOf]
  | @putTo t u n v rest hready hchannel =>
    rw [Channels.setAnswer, Channels.set_channel]
    by_cases hm : m = n
    · simp [hm, hchannel, putsOf, takesOf]
    · simp [hm, Ne.symm hm, putsOf, takesOf]
  | @putWait t n v w waiting hready hchannel =>
    rw [Channels.set_channel]
    by_cases hm : m = n
    · simp [hm, hchannel, putsOf, takesOf]
    · simp [hm, putsOf, takesOf]
  | refuseTake => simp [putsOf, takesOf]
  | refusePut => simp [putsOf, takesOf]
  | isEmpty => simp [putsOf, takesOf]
  | answer => simp [putsOf, takesOf, Channels.setAnswer]
  | revoke => simp [putsOf, takesOf, Channels.revoke]

/-- In a whole run the values come out in the order in which they went in. -/
theorem channels_inOrder {a b : Channels V} {trace : List (List (Done V))}
    (h : (channels V).Run a trace b) (m : Nat) :
    (a.channel m).value.toList ++ putsOf m trace.flatten =
      takesOf m trace.flatten ++ (b.channel m).value.toList := by
  induction h with
  | refl => simp [putsOf, takesOf]
  | @snoc mid b trace label hrun hstep ih =>
    have hlast := channelStep_inOrder hstep m
    rw [List.flatten_append, putsOf_append, takesOf_append, ← List.append_assoc, ih,
      List.append_assoc, hlast, List.append_assoc]

end HosBoot.Rts
