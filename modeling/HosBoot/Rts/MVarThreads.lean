/-
  Rts/MVarThreads.lean --- what else happens to the threads that use MVars.

  Scheduling, wake-up messages and collections do not show in the buffers; an exception takes
  a thread off the queue it waits in, or drops the value it has not returned yet.
-/
import HosBoot.Rts.MVarOps

set_option autoImplicit false

namespace HosBoot.Rts

open HosBoot.Foundation LinkedQueue

variable {V : Type} {s s' : MVarState V} {chain : Nat → List Nat} {woken : Nat → Prop}
  {cap t m q : Nat}

/-! ## Scheduling -/

theorem MVarInv.mono {more : Nat → Prop} (h : MVarInv s chain woken) (hmore : ∀ u, woken u → more u) :
    MVarInv s chain more :=
  ⟨h.queues, ⟨h.threads.entry, fun u hu => (h.threads.blocked u hu).imp_right
    fun ⟨hlink, hquiet, hinfo, hwake⟩ => ⟨hlink, hquiet, hinfo, hwake.imp_right (hmore u)⟩, h.threads.runnable⟩,
    h.caps⟩

/-- Threads move between the capabilities' queues. -/
theorem MVarInv.reschedule (h : MVarInv s chain woken) {runQueue : Nat → List Nat}
    {current : Nat → Option Nat}
    (hcaps : CapsOk { s with runQueue := runQueue, current := current }) :
    MVarInv { s with runQueue := runQueue, current := current } chain woken :=
  ⟨⟨h.queues.queue, h.queues.fresh, h.queues.apart⟩,
    ⟨fun m q hq => ⟨(h.threads.entry m q hq).why, (h.threads.entry m q hq).info,
      (h.threads.entry m q hq).link, (h.threads.entry m q hq).frame⟩, h.threads.blocked,
      h.threads.runnable⟩, hcaps⟩

/-- The current thread of a capability stops running. -/
theorem MVarInv.stop (h : MVarInv s chain woken) (cap : Nat) :
    MVarInv { s with current := Function.update s.current cap none } chain woken := by
  exact h.reschedule (h.caps.stop rfl rfl fun u hu => rfl)

/-- A runnable thread that is nowhere joins its run queue. -/
theorem appendToRunQueue_spec (h : MVarInv s chain nobody)
    (hwhy : (s.tso t).whyBlocked = .notBlocked) (hcap : (s.tso t).cap = cap)
    (hqueue : ∀ c, t ∉ s.runQueue c) (hcurrent : ∀ c, s.current c ≠ some t) :
    EndsIn (s.appendToRunQueue cap t) (view s chain) := by
  refine ⟨_, if_pos (h.threads.runnable t hwhy).1, chain, h.reschedule ?_, rfl⟩
  exact h.caps.enqueue rfl rfl (fun u hu => rfl) hcap hwhy hqueue hcurrent

/-- The current thread yields. -/
theorem yield_spec (h : MVarInv s chain nobody) (hcurrent : s.current cap = some t) :
    EndsIn (({ s with current := Function.update s.current cap none } :
      MVarState V).appendToRunQueue cap t) (view s chain) := by
  obtain ⟨hcap, hwhy, -, -⟩ := h.caps.running cap t hcurrent
  have hstopped : ∀ c, Function.update s.current cap none c ≠ some t := by
    intro c hc
    by_cases hcc : c = cap
    · rw [hcc, Function.update_self] at hc
      cases hc
    · rw [Function.update_of_ne hcc] at hc
      exact hcc ((h.caps.running c t hc).1.symm.trans hcap)
  exact appendToRunQueue_spec (h.stop cap) hwhy hcap (fun c => h.caps.not_queued hcurrent) hstopped

/-- The first thread of a run queue runs, if it has nothing to return. -/
theorem MVarInv.pop (h : MVarInv s chain woken) {rest : List Nat}
    (hqueue : s.runQueue cap = t :: rest) (hframe : (s.tso t).frame = none) :
    MVarInv { s with
      runQueue := Function.update s.runQueue cap rest
      current := Function.update s.current cap (some t) } chain woken := by
  have hmem : t ∈ s.runQueue cap := hqueue ▸ List.mem_cons_self
  obtain ⟨hcap, hwhy⟩ := h.caps.queued cap t hmem
  have honce := h.caps.once cap
  rw [hqueue] at honce
  refine h.reschedule ⟨fun c u hu => ?_, fun c => ?_, fun c u hu => ?_⟩
  · have hold : u ∈ s.runQueue c := by
      have hu : u ∈ Function.update s.runQueue cap rest c := hu
      by_cases hc : c = cap
      · rw [hc, Function.update_self] at hu
        rw [hc, hqueue]
        exact List.mem_cons_of_mem t hu
      · rwa [Function.update_of_ne hc] at hu
    exact h.caps.queued c u hold
  · show (Function.update s.runQueue cap rest c).Nodup
    by_cases hc : c = cap
    · rw [hc, Function.update_self]
      exact honce.of_cons
    · rw [Function.update_of_ne hc]
      exact h.caps.once c
  · have hu : Function.update s.current cap (some t) c = some u := hu
    show _ ∧ _ ∧ u ∉ Function.update s.runQueue cap rest c ∧ _
    by_cases hc : c = cap
    · rw [hc, Function.update_self] at hu
      cases hu
      rw [hc, Function.update_self]
      exact ⟨hcap, hwhy, (List.nodup_cons.mp honce).1, hframe⟩
    · rw [Function.update_of_ne hc] at hu
      rw [Function.update_of_ne hc]
      exact h.caps.running c u hu

/-- A thread that is run continues, or returns the value that it has got. -/
theorem schedule_spec (h : MVarInv s chain nobody) {rest : List Nat}
    (hqueue : s.runQueue cap = t :: rest) :
    Performs t (view s chain) (s.schedule cap) := by
  have hmem : t ∈ s.runQueue cap := hqueue ▸ List.mem_cons_self
  obtain ⟨hlink, hquiet⟩ := h.threads.runnable t (h.caps.queued cap t hmem).2
  rw [MVarState.schedule, hqueue]
  cases hframe : (s.tso t).frame with
  | none =>
    refine .silent ?_ ⟨chain, h.pop hqueue hframe, rfl⟩
    simp only [hframe]
  | some frame =>
    cases frame with
    | blockTakeMVar m =>
      rw [hframe] at hquiet
      cases hquiet
    | blockPutMVar m v =>
      rw [hframe] at hquiet
      cases hquiet
    | unptR1 v =>
      obtain ⟨hdropped, hview⟩ := h.dropFrame hlink rfl
      have hgone : ((s.setTSO t fun tso => { tso with frame := none }).tso t).frame = none :=
        congrArg TSO.frame (setTSO_self s t _)
      have hanswer : (view s chain).answer t = some v := by
        show answer (s.tso t).frame = some v
        rw [hframe]
        rfl
      refine .single (e := .returned t v) ?_ ⟨chain, hdropped.pop hqueue hgone, hview⟩
        (.answer hanswer) rfl trivial
      simp only [hframe]
      rfl

/-- A wake-up message is executed. -/
theorem deliver_spec (h : MVarInv s chain nobody) (cap t : Nat) :
    EndsIn (({ s with inbox := Function.update s.inbox cap ((s.inbox cap).erase t) } :
      MVarState V).tryWakeupThread cap t) (view s chain) := by
  have hinv : MVarInv { s with inbox := Function.update s.inbox cap ((s.inbox cap).erase t) }
      chain (· = t) := by
    refine ⟨⟨h.queues.queue, h.queues.fresh, h.queues.apart⟩, ⟨fun m q hq => ?_, fun u hu => ?_,
      h.threads.runnable⟩, ⟨h.caps.queued, h.caps.once, h.caps.running⟩⟩
    · have hwaits := h.threads.entry m q hq
      exact ⟨hwaits.why, hwaits.info, hwaits.link, hwaits.frame⟩
    · refine (h.threads.blocked u hu).imp_right fun ⟨hnone, hquiet, hinfo, hwake⟩ =>
        ⟨hnone, hquiet, hinfo, ?_⟩
      have hwake := hwake.resolve_right id
      by_cases hut : u = t
      · exact .inr hut
      · left
        show u ∈ Function.update s.inbox cap ((s.inbox cap).erase t) (s.tso u).cap
        by_cases hc : (s.tso u).cap = cap
        · rw [hc, Function.update_self]
          rw [hc] at hwake
          exact (List.mem_erase_of_ne hut).mpr hwake
        · rw [Function.update_of_ne hc]
          exact hwake
  exact tryWakeupThread_spec hinv cap

/-! ## Exceptions -/

/-- A thread that waits nowhere only loses what it has to return. -/
theorem MVarInv.revoke_idle (h : MVarInv s chain woken) (hlink : (s.tso t).link = none) :
    (view s chain).revoke t = (view s chain).setAnswer t none := by
  refine congrArg₂ Channels.mk (funext fun m => ?_) rfl
  show Channel.mk _ _ = Channel.mk _ _
  congr 1
  refine List.filter_eq_self.mpr fun w hw => ?_
  obtain ⟨q, hq, rfl⟩ := List.mem_map.mp hw
  have hne := h.item_ne_of_link hlink hq
  simp [hne]

/-- A thread that is not blocked loses its frame. -/
theorem raiseAsync_runnable (cap : Nat) (h : MVarInv s chain nobody)
    (hwhy : (s.tso t).whyBlocked = .notBlocked) :
    EndsIn (s.raiseAsync cap t) ((view s chain).revoke t) := by
  have hlink := (h.threads.runnable t hwhy).1
  obtain ⟨hinv, hview⟩ := h.dropFrame hlink rfl
  refine ⟨s.setTSO t fun tso => { tso with frame := none }, ?_, chain, hinv, ?_⟩
  · have hself : ((s.setTSO t fun tso => { tso with frame := none }).tso t).whyBlocked =
        .notBlocked := by
      rw [setTSO_self]
      exact hwhy
    rw [MVarState.raiseAsync]
    simp only [hself]
  · rw [hview, h.revoke_idle hlink]

/-- The state after a waiting thread has had an exception raised. -/
theorem MVarInv.revoke (h : MVarInv s chain nobody) (hwaits : Waits s t m q)
    (hq : q ∈ live s.node (chain m)) (hitem : (s.node q).item = t)
    (hcap : (s.tso t).cap = cap) (hs' : s' = unblocked (Rts.leave s m t
      (delete s.node (s.mvar m).toEnds q).1 (delete s.node (s.mvar m).toEnds q).2
      (s.mvar m).value none) cap t (some m)) :
    Stands s' ((view s chain).revoke t) := by
  obtain ⟨rest, hqueue, hsub, hlive⟩ := (h.queues.queue m).delete (mem_live.mp hq).1
  have hnode : ∀ x, x ≠ q → (delete s.node (s.mvar m).toEnds q).1 x = s.node x :=
    fun x => (delete_node s.node (s.mvar m).toEnds q x).2.1
  have hquiet : quiet (none : Option (Frame V)) = true := rfl
  obtain ⟨hleft, hview⟩ :=
    Leaves.leave ⟨hq, hitem, hqueue, hsub, hlive, hnode⟩ h rfl hquiet
  have hself : (Rts.leave s m t (delete s.node (s.mvar m).toEnds q).1
      (delete s.node (s.mvar m).toEnds q).2 (s.mvar m).value none).tso t =
      { s.tso t with link := none, frame := none } := Function.update_self _ _ _
  have hwhy' := (congrArg TSO.whyBlocked hself).trans hwaits.why
  have hcap' := (congrArg TSO.cap hself).trans hcap
  obtain ⟨hinv, hsame⟩ := hleft.unblock hwhy' (congrArg TSO.link hself) hcap' (some m)
  rw [hs']
  refine ⟨_, hinv, hsame.trans (hview.trans ?_)⟩
  refine congrArg₂ Channels.mk (funext fun n => ?_) rfl
  show ((view s chain).set m _).channel n = _
  rw [Channels.set_channel]
  by_cases hn : n = m
  · rw [if_pos hn, hn]
    rfl
  · rw [if_neg hn]
    show Channel.mk _ _ = Channel.mk _ _
    congr 1
    refine (List.filter_eq_self.mpr fun w hw => ?_).symm
    obtain ⟨x, hx, rfl⟩ := List.mem_map.mp hw
    have hne : (s.node x).item ≠ t := fun heq => hn (h.entry_inj hx hq (heq.trans hitem.symm)).2
    simp [hne]

theorem removeFromMVarBlockedQueue_eq (hwaits : Waits s t m q) :
    s.removeFromMVarBlockedQueue t =
      (({ s with node := (delete s.node (s.mvar m).toEnds q).1 } : MVarState V).setEnds m
        (delete s.node (s.mvar m).toEnds q).2).setTSO t fun tso => { tso with link := none } := by
  rw [MVarState.removeFromMVarBlockedQueue, hwaits.info, hwaits.link]

/-- An exception for a waiting thread revokes its operation. -/
theorem raiseAsync_waiting (h : MVarInv s chain nobody) (hwaits : Waits s t m q)
    (hq : q ∈ live s.node (chain m)) (hitem : (s.node q).item = t)
    (hcap : (s.tso t).cap = cap) :
    EndsIn ((s.removeFromMVarBlockedQueue t).raiseAsync cap t) ((view s chain).revoke t) := by
  refine ⟨_, ?_, h.revoke hwaits hq hitem hcap rfl⟩
  rw [removeFromMVarBlockedQueue_eq hwaits]
  simp [MVarState.raiseAsync, MVarState.appendToRunQueue, MVarState.setTSO, MVarState.setEnds,
    hwaits.why, hwaits.info, unblocked, leave]

/-- An exception for a blocked thread whose operation is over only drops the frame. -/
theorem MVarInv.unblock_performed (h : MVarInv s chain nobody)
    (hwhy : (s.tso t).whyBlocked = .blockedOnMVar) (hlink : (s.tso t).link = none)
    (hcap : (s.tso t).cap = cap) (info : Option Nat) :
    Stands (unblocked (s.setTSO t fun tso => { tso with frame := none }) cap t info)
      ((view s chain).revoke t) := by
  have hself := setTSO_self s t fun tso => { tso with frame := none }
  obtain ⟨hdropped, hview⟩ := (h.mono fun u hu => hu.elim).dropFrame hlink rfl
  have hwhy' := (congrArg TSO.whyBlocked hself).trans hwhy
  have hlink' := (congrArg TSO.link hself).trans hlink
  have hcap' := (congrArg TSO.cap hself).trans hcap
  obtain ⟨hinv, hsame⟩ := hdropped.unblock hwhy' hlink' hcap' info
  exact ⟨chain, hinv, hsame.trans (hview.trans (h.revoke_idle hlink).symm)⟩

/-- `throwToSingleThreaded`, whatever the thread is doing. -/
theorem throwToSingleThreaded_spec (h : MVarInv s chain nobody) (hcap : (s.tso t).cap = cap) :
    EndsIn (s.throwToSingleThreaded cap t) ((view s chain).revoke t) := by
  cases hwhy : (s.tso t).whyBlocked with
  | notBlocked =>
    rw [MVarState.throwToSingleThreaded, MVarState.removeFromQueues, hwhy]
    exact raiseAsync_runnable cap h hwhy
  | blockedOnMVar =>
    cases hlink : (s.tso t).link with
    | none =>
      refine ⟨_, ?_, h.unblock_performed hwhy hlink hcap (s.tso t).blockInfo⟩
      have hsame : s.removeFromMVarBlockedQueue t = s := by
        rw [MVarState.removeFromMVarBlockedQueue, hlink]
        cases (s.tso t).blockInfo <;> rfl
      rw [MVarState.throwToSingleThreaded, MVarState.removeFromQueues, hwhy, hsame]
      simp [MVarState.raiseAsync, MVarState.appendToRunQueue, MVarState.setTSO, hlink, unblocked,
        bind, Except.bind]
    | some q =>
      obtain ⟨m, hq, hitem, hwaits⟩ := h.blocked_of_link hlink
      refine ⟨_, ?_, h.revoke hwaits hq hitem hcap rfl⟩
      rw [MVarState.throwToSingleThreaded, MVarState.removeFromQueues, hwhy,
        removeFromMVarBlockedQueue_eq hwaits]
      simp [MVarState.raiseAsync, MVarState.appendToRunQueue, MVarState.setTSO,
        MVarState.setEnds, hwaits.info, unblocked, leave, bind, Except.bind]

/-- The state in which `throwToMsg` has woken its target up. -/
theorem throwToMsg_wakes (h : MVarInv s chain nobody) (hcap : (s.tso t).cap = cap)
    (hwhy : (s.tso t).whyBlocked = .blockedOnMVar) (hlink : (s.tso t).link = none) :
    s.tryWakeupThread cap t = .ok (unblocked s cap t none) ∧
      MVarInv (unblocked s cap t none) chain nobody ∧
      view (unblocked s cap t none) chain = view s chain ∧
      ((unblocked s cap t none).tso t).whyBlocked = .notBlocked := by
  have hlocal : ¬ (s.tso t).cap ≠ cap := fun hne => hne hcap
  obtain ⟨hinv, hview⟩ := (h.mono fun u hu => hu.elim).unblock hwhy hlink hcap none
  have hself := setTSO_self s t fun tso =>
    { tso with blockInfo := none, whyBlocked := .notBlocked }
  refine ⟨?_, hinv, hview, congrArg TSO.whyBlocked hself⟩
  rw [MVarState.tryWakeupThread, if_neg hlocal, hwhy]
  exact (if_pos hlink).trans (appendToRunQueue_unblocked hlink none)

theorem throwToMsg_runnable (hwhy : (s.tso t).whyBlocked = .notBlocked) (turn : LockTurn)
    (turns : List LockTurn) : s.throwToMsg cap t (turn :: turns) = s.raiseAsync cap t := by
  simp only [MVarState.throwToMsg, hwhy]

theorem throwToMsg_held (hwhy : (s.tso t).whyBlocked = .blockedOnMVar) (turns : List LockTurn) :
    s.throwToMsg cap t (.held :: turns) = s.throwToMsg cap t turns := by
  simp only [MVarState.throwToMsg, hwhy]

theorem throwToMsg_other (hwhy : (s.tso t).whyBlocked = .blockedOnMVar) {mvar : Nat}
    (hinfo : (s.tso t).blockInfo ≠ some mvar) (turns : List LockTurn) :
    s.throwToMsg cap t (.locked mvar :: turns) = s.throwToMsg cap t turns := by
  simp only [MVarState.throwToMsg, hwhy]
  exact if_pos hinfo

/-- With the lock a performed operation needs one more turn. -/
theorem throwToMsg_performed (hwhy : (s.tso t).whyBlocked = .blockedOnMVar) {mvar : Nat}
    (hinfo : (s.tso t).blockInfo = some mvar) (hlink : (s.tso t).link = none)
    (hwake : s.tryWakeupThread cap t = .ok (unblocked s cap t none)) (turns : List LockTurn) :
    s.throwToMsg cap t (.locked mvar :: turns) =
      (unblocked s cap t none).throwToMsg cap t turns := by
  simp only [MVarState.throwToMsg, hwhy]
  rw [if_neg (fun hne => hne hinfo), if_pos hlink, hwake]
  rfl

/-- With the lock a pending operation is revoked. -/
theorem throwToMsg_pending (hwhy : (s.tso t).whyBlocked = .blockedOnMVar) {mvar : Nat}
    (hinfo : (s.tso t).blockInfo = some mvar) (hlink : (s.tso t).link ≠ none)
    (turns : List LockTurn) :
    s.throwToMsg cap t (.locked mvar :: turns) =
      (s.removeFromMVarBlockedQueue t).raiseAsync cap t := by
  simp only [MVarState.throwToMsg, hwhy]
  rw [if_neg (fun hne => hne hinfo), if_neg hlink]

/-- `throwToMsg` revokes the operation, whatever its turns meet. -/
theorem throwToMsg_stands (h : MVarInv s chain nobody) (hcap : (s.tso t).cap = cap) :
    ∀ turns : List LockTurn, s.throwToMsg cap t turns = .ok s' →
      Stands s' ((view s chain).revoke t)
  | [], hrun => by cases hrun
  | turn :: turns, hrun => by
    cases hwhy : (s.tso t).whyBlocked with
    | notBlocked =>
      rw [throwToMsg_runnable hwhy] at hrun
      exact (raiseAsync_runnable cap h hwhy).stands hrun
    | blockedOnMVar =>
      cases turn with
      | held =>
        rw [throwToMsg_held hwhy] at hrun
        exact throwToMsg_stands h hcap turns hrun
      | locked mvar =>
        by_cases hinfo : (s.tso t).blockInfo = some mvar
        · cases hlink : (s.tso t).link with
          | none =>
            -- the thread is woken up, and the next turn raises the exception
            obtain ⟨hwake, hinv, hview, hrunnable⟩ := throwToMsg_wakes h hcap hwhy hlink
            rw [throwToMsg_performed hwhy hinfo hlink hwake] at hrun
            cases turns with
            | nil => cases hrun
            | cons turn turns =>
              rw [throwToMsg_runnable hrunnable] at hrun
              rw [← hview]
              exact (raiseAsync_runnable cap hinv hrunnable).stands hrun
          | some q =>
            obtain ⟨m, hq, hitem, hwaits⟩ := h.blocked_of_link hlink
            rw [throwToMsg_pending hwhy hinfo hwaits.link_ne_none] at hrun
            exact (raiseAsync_waiting h hwaits hq hitem hcap).stands hrun
        · rw [throwToMsg_other hwhy hinfo] at hrun
          exact throwToMsg_stands h hcap turns hrun

/-- A blocked thread is blocked on some MVar. -/
theorem MVarInv.blockInfo (h : MVarInv s chain woken)
    (hwhy : (s.tso t).whyBlocked = .blockedOnMVar) : ∃ m, (s.tso t).blockInfo = some m := by
  rcases h.threads.blocked t hwhy with ⟨m, q, hq, rfl⟩ | ⟨-, -, hinfo, -⟩
  · exact ⟨m, (h.threads.entry m q hq).info⟩
  · exact Option.isSome_iff_exists.mp hinfo

/-- With the right lock, and a turn left, `throwToMsg` succeeds. -/
theorem throwToMsg_locked (h : MVarInv s chain nobody) (hcap : (s.tso t).cap = cap) {mvar : Nat}
    (hinfo : (s.tso t).whyBlocked = .blockedOnMVar → (s.tso t).blockInfo = some mvar)
    (turn : LockTurn) (turns : List LockTurn) :
    ∃ r, s.throwToMsg cap t (.locked mvar :: turn :: turns) = .ok r := by
  cases hwhy : (s.tso t).whyBlocked with
  | notBlocked =>
    rw [throwToMsg_runnable hwhy]
    exact (raiseAsync_runnable cap h hwhy).succeeds
  | blockedOnMVar =>
    cases hlink : (s.tso t).link with
    | none =>
      obtain ⟨hwake, hinv, -, hrunnable⟩ := throwToMsg_wakes h hcap hwhy hlink
      rw [throwToMsg_performed hwhy (hinfo hwhy) hlink hwake, throwToMsg_runnable hrunnable]
      exact (raiseAsync_runnable cap hinv hrunnable).succeeds
    | some q =>
      obtain ⟨m, hq, hitem, hwaits⟩ := h.blocked_of_link hlink
      rw [throwToMsg_pending hwhy (hinfo hwhy) hwaits.link_ne_none]
      exact (raiseAsync_waiting h hwaits hq hitem hcap).succeeds

/-- However many turns of `throwToMsg` do not get the right lock, it succeeds when one does and
a turn is left. -/
theorem throwToMsg_succeeds (h : MVarInv s chain nobody) (hcap : (s.tso t).cap = cap) {mvar : Nat}
    (hinfo : (s.tso t).whyBlocked = .blockedOnMVar → (s.tso t).blockInfo = some mvar)
    (last : LockTurn) : ∀ turns : List LockTurn,
      ∃ r, s.throwToMsg cap t (turns ++ [.locked mvar, last]) = .ok r
  | [] => throwToMsg_locked h hcap hinfo last []
  | turn :: turns => by
    rw [List.cons_append]
    cases hwhy : (s.tso t).whyBlocked with
    | notBlocked =>
      rw [throwToMsg_runnable hwhy]
      exact (raiseAsync_runnable cap h hwhy).succeeds
    | blockedOnMVar =>
      have hrest := throwToMsg_succeeds h hcap hinfo last turns
      cases turn with
      | held =>
        rw [throwToMsg_held hwhy]
        exact hrest
      | locked other =>
        by_cases hother : (s.tso t).blockInfo = some other
        · obtain ⟨next, later, hnext⟩ : ∃ next later, turns ++ [LockTurn.locked mvar, last] =
              next :: later := List.exists_cons_of_ne_nil (by simp)
          rw [hnext]
          exact throwToMsg_locked h hcap (fun _ => hother) next later
        · rw [throwToMsg_other hwhy hother]
          exact hrest

/-! ## Collections -/

/-- A collection does not show. -/
theorem collect_spec (h : MVarInv s chain nobody) : Stands s.collect (view s chain) := by
  have hlength : ∀ m, (chain m).length ≤ s.hp := h.chain_length
  have hcollect := fun m => (h.queues.queue m).collect (hlength m)
  have hlives : ∀ m, live s.collect.node (kept s.node (chain m)) = live s.node (chain m) :=
    fun m => (hcollect m).2
  have hsub : ∀ m, ∀ q ∈ kept s.node (chain m), q ∈ chain m := fun m q hq => List.mem_of_mem_filter hq
  -- a thread's entry is live, so its pointer stays
  have hlink : ∀ t, (s.collect.tso t).link = (s.tso t).link := by
    intro t
    show resolve s.node s.hp (s.tso t).link = _
    cases hq : (s.tso t).link with
    | none => cases s.hp <;> rfl
    | some q =>
      obtain ⟨m, hlive, -, -⟩ := h.blocked_of_link hq
      obtain ⟨hmem, hstatus⟩ := mem_live.mp hlive
      have hpos := h.queues.fresh m q hmem
      obtain ⟨k, hk⟩ : ∃ k, s.hp = k + 1 := Nat.exists_eq_add_one_of_ne_zero (by omega)
      rw [hk, LinkedQueue.resolve, if_neg (by rw [hstatus]; exact fun hs => (by cases hs))]
  refine ⟨fun m => kept s.node (chain m), ⟨⟨fun m => (hcollect m).1, fun m q hq => h.queues.fresh m q (hsub m q hq),
    fun m m' q hq hq' => h.queues.apart m m' q (hsub m q hq) (hsub m' q hq')⟩,
    ⟨fun m q hq => ?_, fun t ht => ?_, fun t ht => ?_⟩,
    ⟨h.caps.queued, h.caps.once, h.caps.running⟩⟩, ?_⟩
  · rw [hlives] at hq
    have hwaits := h.threads.entry m q hq
    exact ⟨hwaits.why, hwaits.info, (hlink _).trans hwaits.link, hwaits.frame⟩
  · rcases h.threads.blocked t ht with ⟨m, q, hq, hitem⟩ | ⟨hnone, hquiet, hinfo, hwake⟩
    · refine .inl ⟨m, q, ?_, hitem⟩
      rw [hlives]
      exact hq
    · exact .inr ⟨(hlink t).trans hnone, hquiet, hinfo, hwake⟩
  · obtain ⟨hnone, hquiet⟩ := h.threads.runnable t ht
    exact ⟨(hlink t).trans hnone, hquiet⟩
  · refine view_eq (fun m => ?_) fun t => rfl
    show Channel.mk _ _ = Channel.mk _ _
    rw [hlives]
    rfl

end HosBoot.Rts
