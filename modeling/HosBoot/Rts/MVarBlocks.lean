/-
  Rts/MVarBlocks.lean --- which steps block a thread.

  Only an operation that has to wait blocks its thread, and it shows; an exception unblocks
  its target.
-/
import HosBoot.Foundation.Fallible
import HosBoot.Rts.MVarThreads

set_option autoImplicit false

namespace HosBoot.Rts

open HosBoot.Foundation LinkedQueue

variable {V : Type} {s s' s₁ : MVarState V} {cap t m q : Nat} {v : V}

/-- No thread becomes blocked. -/
def BlocksNone (s s' : MVarState V) : Prop :=
  ∀ u, (s'.tso u).whyBlocked = .blockedOnMVar → (s.tso u).whyBlocked = .blockedOnMVar

/-- A thread becomes blocked only by a wait that shows. -/
def BlocksShown (s s' : MVarState V) (done : List (Done V)) : Prop :=
  ∀ u, (s'.tso u).whyBlocked = .blockedOnMVar →
    (s.tso u).whyBlocked = .blockedOnMVar ∨ ∃ n offer, done = [.waits u n offer]

theorem BlocksNone.shown (h : BlocksNone s s') (done : List (Done V)) :
    BlocksShown s s' done := fun u hu => .inl (h u hu)

theorem BlocksNone.trans (h : BlocksNone s s₁) (h' : BlocksNone s₁ s') : BlocksNone s s' :=
  fun u hu => h u (h' u hu)

theorem BlocksNone.of_tso_eq (h : s'.tso = s.tso) : BlocksNone s s' := by
  intro u hu
  rwa [h] at hu

/-- One thread changes, and is not blocked by that. -/
theorem setTSO_blocksNone {f : TSO V → TSO V}
    (hf : (f (s.tso t)).whyBlocked = .blockedOnMVar →
      (s.tso t).whyBlocked = .blockedOnMVar) : BlocksNone s (s.setTSO t f) := by
  intro u hu
  by_cases hut : u = t
  · rw [hut, setTSO_self] at hu
    rw [hut]
    exact hf hu
  · rwa [setTSO_other s f hut] at hu

/-! ## Waking up -/

theorem appendToRunQueue_tso : Yields (s.appendToRunQueue cap t) fun s' => s'.tso = s.tso :=
  Yields.ite (fun _ => Yields.ok rfl) fun _ => Yields.error _

/-- A thread that is unblocked on the way to the run queue. -/
theorem unblocked_yields {f : TSO V → TSO V} (hf : (f (s.tso t)).whyBlocked = .notBlocked) :
    Yields ((s.setTSO t f).appendToRunQueue cap t) fun s' =>
      BlocksNone s s' ∧ (s'.tso t).whyBlocked = .notBlocked := by
  refine appendToRunQueue_tso.mono fun s' htso => ⟨?_, ?_⟩
  · refine (setTSO_blocksNone fun hblocked => ?_).trans (.of_tso_eq htso)
    rw [hf] at hblocked
    cases hblocked
  · rw [htso, setTSO_self]
    exact hf

theorem tryWakeupThread_blocks : Yields (s.tryWakeupThread cap t) (BlocksNone s) := by
  refine Yields.ite (fun _ => Yields.ok (.of_tso_eq rfl)) fun _ => ?_
  cases (s.tso t).whyBlocked with
  | notBlocked => exact Yields.ok (.of_tso_eq rfl)
  | blockedOnMVar =>
    refine Yields.ite (fun _ => ?_) fun _ => Yields.ok (.of_tso_eq rfl)
    exact (unblocked_yields rfl).mono fun _ h => h.1

/-! ## Operations -/

theorem dequeue_blocks : Yields (s.dequeue m q) fun r => BlocksNone s r.1 :=
  Yields.ite (fun _ => Yields.ite (fun _ => Yields.ok (.of_tso_eq rfl)) fun _ => Yields.error _)
    fun _ => Yields.error _

theorem performTake_blocks : Yields (s.performTake t v) (BlocksNone s) := by
  unfold MVarState.performTake
  split
  · exact Yields.ok (setTSO_blocksNone id)
  · exact Yields.error _

theorem performPut_blocks : Yields (s.performPut t) fun r => BlocksNone s r.1 := by
  have hpopped : BlocksNone s (s.setTSO t fun tso => { tso with frame := none }) :=
    setTSO_blocksNone id
  unfold MVarState.performPut
  split
  · exact Yields.ok hpopped
  · exact Yields.error _

theorem takeValue_blocks : Yields (s.takeValue cap t m v) fun r => BlocksNone s r.1 := by
  unfold MVarState.takeValue
  split
  · exact Yields.error _
  · exact Yields.ok (.of_tso_eq rfl)
  · refine dequeue_blocks.bind fun ⟨s₁, u⟩ h₁ => ?_
    refine performPut_blocks.bind fun ⟨s₂, w⟩ h₂ => ?_
    have h₃ : BlocksNone s₂ ((s₂.setValue m (some w)).setTSO u fun tso =>
        { tso with link := none }) := (BlocksNone.of_tso_eq rfl).trans (setTSO_blocksNone id)
    refine tryWakeupThread_blocks.bind fun s₄ h₄ => Yields.ok ?_
    exact h₁.trans (h₂.trans (h₃.trans h₄))

theorem putValue_blocks : Yields (s.putValue cap t m v) fun r => BlocksNone s r.1 := by
  unfold MVarState.putValue
  split
  · exact Yields.error _
  · exact Yields.ok (.of_tso_eq rfl)
  · refine dequeue_blocks.bind fun ⟨s₁, u⟩ h₁ => ?_
    refine performTake_blocks.bind fun s₂ h₂ => ?_
    have h₃ : BlocksNone s₂ (s₂.setTSO u fun tso => { tso with link := none }) :=
      setTSO_blocksNone id
    refine tryWakeupThread_blocks.bind fun s₄ h₄ => Yields.ok ?_
    exact h₁.trans (h₂.trans (h₃.trans h₄))

/-- The thread that waits is the only one that becomes blocked. -/
theorem blockOn_blocks {frame : Frame V} (offer : Option V) :
    Yields (s.blockOn cap t m frame) fun s' => BlocksShown s s' [.waits t m offer] := by
  unfold MVarState.blockOn
  split
  · exact Yields.error _
  · refine Yields.ok fun u hu => ?_
    by_cases hut : u = t
    · exact .inr ⟨m, offer, by rw [hut]⟩
    · rw [setTSO_other _ _ hut] at hu
      exact .inl hu

theorem takeMVar_blocks : Yields (s.takeMVar cap t m) fun r => BlocksShown s r.1 r.2 := by
  unfold MVarState.takeMVar
  split
  · exact (blockOn_blocks none).bind fun s' h => Yields.ok h
  · exact takeValue_blocks.mono fun r h => h.shown r.2

theorem tryTakeMVar_blocks : Yields (s.tryTakeMVar cap t m) fun r => BlocksShown s r.1 r.2 := by
  unfold MVarState.tryTakeMVar
  split
  · exact Yields.ok ((BlocksNone.of_tso_eq rfl).shown _)
  · exact takeValue_blocks.mono fun r h => h.shown r.2

theorem putMVar_blocks : Yields (s.putMVar cap t m v) fun r => BlocksShown s r.1 r.2 := by
  unfold MVarState.putMVar
  split
  · exact (blockOn_blocks (some v)).bind fun s' h => Yields.ok h
  · exact putValue_blocks.mono fun r h => h.shown r.2

theorem tryPutMVar_blocks : Yields (s.tryPutMVar cap t m v) fun r => BlocksShown s r.1 r.2 := by
  unfold MVarState.tryPutMVar
  split
  · exact Yields.ok ((BlocksNone.of_tso_eq rfl).shown _)
  · exact putValue_blocks.mono fun r h => h.shown r.2

theorem BlocksNone.trans_shown {done : List (Done V)} (h : BlocksNone s s₁)
    (h' : BlocksShown s₁ s' done) : BlocksShown s s' done :=
  fun u hu => (h' u hu).imp_left (h u)

theorem schedule_blocks : Yields (s.schedule cap) fun r => BlocksShown s r.1 r.2 := by
  unfold MVarState.schedule
  split
  · exact Yields.error _
  · rename_i t rest hqueue
    have hpopped : BlocksNone s (({ s with
        runQueue := Function.update s.runQueue cap rest
        current := Function.update s.current cap (some t) } : MVarState V).setTSO t
          fun tso => { tso with frame := none }) :=
      (BlocksNone.of_tso_eq rfl).trans (setTSO_blocksNone id)
    dsimp only
    split
    · exact Yields.ok ((BlocksNone.of_tso_eq rfl).shown _)
    · exact Yields.ok (hpopped.shown _)
    · exact takeMVar_blocks.mono fun r h => hpopped.trans_shown h
    · exact putMVar_blocks.mono fun r h => hpopped.trans_shown h

/-! ## Exceptions -/

theorem raiseAsync_blocks : Yields (s.raiseAsync cap t) fun s' =>
    BlocksNone s s' ∧ (s'.tso t).whyBlocked = .notBlocked := by
  unfold MVarState.raiseAsync
  have hdropped : BlocksNone s (s.setTSO t fun tso => { tso with frame := none }) :=
    setTSO_blocksNone id
  dsimp only
  split
  · rename_i hwhy
    exact Yields.ok ⟨hdropped, hwhy⟩
  · exact (unblocked_yields rfl).mono fun s' h => ⟨hdropped.trans h.1, h.2⟩

theorem removeFromMVarBlockedQueue_blocks : BlocksNone s (s.removeFromMVarBlockedQueue t) := by
  unfold MVarState.removeFromMVarBlockedQueue
  split
  · exact (BlocksNone.of_tso_eq rfl).trans (setTSO_blocksNone id)
  · exact .of_tso_eq rfl

theorem removeFromQueues_blocks : Yields (s.removeFromQueues cap t) (BlocksNone s) := by
  unfold MVarState.removeFromQueues
  split
  · exact Yields.ok (.of_tso_eq rfl)
  · exact (unblocked_yields rfl).mono fun s' h => removeFromMVarBlockedQueue_blocks.trans h.1

theorem throwToSingleThreaded_blocks : Yields (s.throwToSingleThreaded cap t) fun s' =>
    BlocksNone s s' ∧ (s'.tso t).whyBlocked = .notBlocked :=
  removeFromQueues_blocks.bind fun _ h₁ =>
    raiseAsync_blocks.mono fun _ h₂ => ⟨h₁.trans h₂.1, h₂.2⟩

theorem throwToMsg_blocks : ∀ (turns : List LockTurn) (s : MVarState V),
    Yields (s.throwToMsg cap t turns) fun s' =>
      BlocksNone s s' ∧ (s'.tso t).whyBlocked = .notBlocked
  | [], _ => Yields.error _
  | turn :: turns, s => by
    unfold MVarState.throwToMsg
    split
    · exact raiseAsync_blocks
    · exact throwToMsg_blocks turns s
    · refine Yields.ite (fun _ => throwToMsg_blocks turns s) fun _ =>
        Yields.ite (fun _ => ?_) fun _ => ?_
      · exact tryWakeupThread_blocks.bind fun s₁ h₁ =>
          (throwToMsg_blocks turns s₁).mono fun _ h₂ => ⟨h₁.trans h₂.1, h₂.2⟩
      · exact raiseAsync_blocks.mono fun s' h =>
          ⟨removeFromMVarBlockedQueue_blocks.trans h.1, h.2⟩

end HosBoot.Rts
