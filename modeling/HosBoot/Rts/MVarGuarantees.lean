/-
  Rts/MVarGuarantees.lean --- what threads can rely on when they use MVars.

  Every run is one of the buffers, with the same waits in the same order; what is put is what
  is taken, and each thread gets the result of its own operation; no operation fails, and no
  wake-up is lost.  After each result stands a run of two threads on two capabilities.
-/
import HosBoot.Rts.MVarRuns

set_option autoImplicit false

namespace HosBoot.Rts

open HosBoot.Foundation LinkedQueue

variable {V : Type} {s s' : MVarState V} {cap t m : Nat}

/-! ## A run of two threads -/

/-- No thread has been started; thread `t` belongs to capability `t`. -/
def freshState : MVarState Nat where
  node _ := ⟨.live, none, 0⟩
  hp := 0
  mvar _ := newMVar
  tso t := ⟨t, .notBlocked, none, none, none⟩
  runQueue _ := []
  current _ := none
  inbox _ := []

theorem freshState_start : MVarStart freshState :=
  ⟨fun _ => rfl, fun _ => ⟨rfl, rfl, rfl⟩, fun _ => rfl, fun _ => rfl⟩

/-- Thread `t` has been forked and is run. -/
def started (s : MVarState Nat) (t : Nat) : MVarState Nat :=
  let queued := { s with runQueue := Function.update s.runQueue t (s.runQueue t ++ [t]) }
  { queued with
    runQueue := Function.update queued.runQueue t []
    current := Function.update queued.current t (some t) }

/-- The state that an operation ends in. -/
def after (s : MVarState Nat) : Except String (MVarState Nat × List (Done Nat)) → MVarState Nat
  | .ok (s', _) => s'
  | .error _ => s

/-- Thread 0 waits to take from MVar 0. -/
def blockedState : MVarState Nat :=
  let s := started freshState 0
  after s (s.takeMVar 0 0 0)

/-- Thread 1 has put 7 there: the value is thread 0's, and a wake-up is on its way. -/
def handedState : MVarState Nat :=
  let s := started blockedState 1
  after s (s.putMVar 1 1 0 7)

/-- The wake-up has arrived. -/
def wokenState : MVarState Nat :=
  unblocked { handedState with inbox := Function.update handedState.inbox 0 [] } 0 0 none

/-- Thread 0 has returned 7. -/
def returnedState : MVarState Nat := after wokenState (wokenState.schedule 0)

theorem started_run {s : MVarState Nat} {t : Nat} (hcap : (s.tso t).cap = t)
    (hwhy : (s.tso t).whyBlocked = .notBlocked) (hlink : (s.tso t).link = none)
    (hframe : (s.tso t).frame = none) (hqueue : ∀ c, s.runQueue c = [])
    (hcurrent : ∀ c, s.current c ≠ some t) (hidle : s.current t = none) :
    (mvars Nat).Run s [] (started s t) := by
  obtain ⟨queued, hqueued⟩ : ∃ queued : MVarState Nat, queued =
      { s with runQueue := Function.update s.runQueue t (s.runQueue t ++ [t]) } := ⟨_, rfl⟩
  have hfork : MVarStep s none queued := by
    refine .fork hwhy (fun c => ?_) hcurrent ?_
    · rw [hqueue c]
      exact List.not_mem_nil
    · rw [MVarState.appendToRunQueue, if_pos hlink, hcap, hqueued]
  have hready : queued.runQueue t = [t] := by
    rw [hqueued]
    show Function.update s.runQueue t (s.runQueue t ++ [t]) t = [t]
    rw [Function.update_self, hqueue t]
    rfl
  have hschedule : MVarStep queued (shown []) (started s t) := by
    refine @MVarStep.schedule _ _ _ t _ (by rw [hqueued]; exact hidle) ?_
    rw [MVarState.schedule, hready]
    simp only [hframe, started, hqueued]
  exact (TransitionSystem.Run.single (S := mvars Nat) hfork).append
    (TransitionSystem.Run.single (S := mvars Nat) hschedule)

theorem blockedState_run : (mvars Nat).Run freshState [[.waits 0 0 none]] blockedState := by
  have htake : MVarStep (started freshState 0) (shown [.waits 0 0 none]) blockedState :=
    @MVarStep.take _ _ _ 0 0 0 _ rfl rfl
  exact (started_run rfl rfl rfl rfl (fun _ => rfl) (fun _ h => by cases h) rfl).append
    (TransitionSystem.Run.single (S := mvars Nat) htake)

/-- Both capabilities are idle again. -/
theorem blockedState_idle (c : Nat) :
    blockedState.runQueue c = [] ∧ blockedState.current c = none := by
  have hqueue : blockedState.runQueue =
      Function.update (Function.update freshState.runQueue 0 [0]) 0 [] := rfl
  have hcurrent : blockedState.current =
      Function.update (Function.update freshState.current 0 (some 0)) 0 none := rfl
  rw [hqueue, hcurrent, Function.update_idem, Function.update_idem]
  by_cases hc : c = 0
  · rw [hc, Function.update_self, Function.update_self]
    exact ⟨rfl, rfl⟩
  · rw [Function.update_of_ne hc, Function.update_of_ne hc]
    exact ⟨rfl, rfl⟩

theorem handedState_run : (mvars Nat).Run freshState
    [[.waits 0 0 none], [.put 1 0 7, .took 0 0 7]] handedState := by
  have hput : MVarStep (started blockedState 1) (shown [.put 1 0 7, .took 0 0 7]) handedState :=
    @MVarStep.put _ _ _ 1 1 0 7 _ rfl rfl
  have hstarted : (mvars Nat).Run blockedState [] (started blockedState 1) := by
    refine started_run rfl rfl rfl rfl (fun c => (blockedState_idle c).1) (fun c hc => ?_) rfl
    rw [(blockedState_idle c).2] at hc
    cases hc
  exact blockedState_run.append (hstarted.append
    (TransitionSystem.Run.single (S := mvars Nat) hput))

theorem wokenState_run : (mvars Nat).Run freshState
    [[.waits 0 0 none], [.put 1 0 7, .took 0 0 7]] wokenState := by
  have hdeliver : MVarStep handedState none wokenState :=
    @MVarStep.deliver _ _ _ 0 0 (by decide) rfl
  exact handedState_run.append (TransitionSystem.Run.single (S := mvars Nat) hdeliver)

theorem returnedState_run : (mvars Nat).Run freshState
    [[.waits 0 0 none], [.put 1 0 7, .took 0 0 7], [.returned 0 7]] returnedState := by
  have hschedule : MVarStep wokenState (shown [.returned 0 7]) returnedState :=
    @MVarStep.schedule _ _ _ 0 _ rfl rfl
  exact wokenState_run.append (TransitionSystem.Run.single (S := mvars Nat) hschedule)

/-! ## Results -/

/-- Every run of threads and MVars is a run of one-place buffers with first-come-first-served
waiting: the same operations wait and complete and the same ones are revoked, with the same
values, in the same order, and the threads that wait stand in the queue in memory in the
order in which they wait for the buffer. -/
theorem mvars_refine {start : MVarState V} {trace : List (List (Done V))} (hstart : MVarStart start)
    (hrun : (mvars V).Run start trace s) :
    ∃ a, (channels V).Run Channels.empty trace a ∧
      (∀ m, (a.channel m).value = (s.mvar m).value) ∧
      (∀ m, ∃ chain, IsQueue s.node (s.mvar m).toEnds chain ∧
        (a.channel m).waiting = (live s.node chain).map fun q =>
          ((s.node q).item, offer (s.tso (s.node q).item).frame)) ∧
      (∀ m t, (∃ w ∈ (a.channel m).waiting, w.1 = t) ↔
        (s.tso t).link ≠ none ∧ (s.tso t).blockInfo = some m ∧
          (s.tso t).whyBlocked = .blockedOnMVar) ∧
      ∀ t, a.answer t = answer (s.tso t).frame := by
  obtain ⟨a, hchannels, chain, hinv, rfl⟩ := mvars_simulation.run hstart.stands hrun
  refine ⟨view s chain, hchannels, fun m => rfl, fun m => ⟨chain m, hinv.queues.queue m, rfl⟩,
    fun m t => ⟨?_, ?_⟩, fun t => rfl⟩
  · rintro ⟨w, hw, rfl⟩
    obtain ⟨q, hq, rfl⟩ := List.mem_map.mp hw
    have hwaits := hinv.threads.entry m q hq
    exact ⟨hwaits.link_ne_none, hwaits.info, hwaits.why⟩
  · rintro ⟨hlink, hinfo, -⟩
    obtain ⟨q, hq⟩ := Option.ne_none_iff_exists'.mp hlink
    obtain ⟨n, hlive, rfl, hwaits⟩ := hinv.blocked_of_link hq
    have hn : n = m := Option.some.inj (hwaits.info.symm.trans hinfo)
    exact ⟨_, List.mem_map.mpr ⟨q, hn ▸ hlive, rfl⟩, rfl⟩

/-- Thread 0 gets its value from thread 1, as from a buffer. -/
theorem mvars_refine_handed :
    ∃ a, (channels Nat).Run Channels.empty
      [[.waits 0 0 none], [.put 1 0 7, .took 0 0 7]] a ∧ a.answer 0 = some 7 := by
  obtain ⟨a, hrun, -, -, -, hanswer⟩ := mvars_refine freshState_start handedState_run
  exact ⟨a, hrun, hanswer 0⟩

/-- In every run the values put into an MVar are, in order, those taken out of it and the one
it holds: none is lost, doubled or overtaken.  What is taken for a thread that waits is in
its frame, and is the next value that the thread returns; what is put for one is the value it
waited with. -/
theorem mvars_inOrder {start : MVarState V} {trace : List (List (Done V))} (hstart : MVarStart start)
    (hrun : (mvars V).Run start trace s) :
    (∀ m, putsOf m trace.flatten = takesOf m trace.flatten ++ (s.mvar m).value.toList) ∧
      ∀ t, ∃ stage, StageRun t .idle trace.flatten stage ∧ InStage s t stage := by
  refine ⟨fun m => ?_, fun t => ?_⟩
  · obtain ⟨a, hchannels, chain, -, rfl⟩ := mvars_simulation.run hstart.stands hrun
    exact channels_inOrder hchannels m
  · obtain ⟨a, stage, h⟩ := mvars_runsTo hstart hrun t
    obtain ⟨chain, hinv, rfl⟩ := h.stands
    exact ⟨stage, h.run, hinv.inStage h.atStage⟩

/-- The value that thread 1 puts is the one that thread 0 takes, and returns. -/
theorem mvars_inOrder_returned :
    putsOf 0 [[.waits 0 0 none], [.put 1 0 7, .took 0 0 7], [Done.returned 0 7]].flatten = [7] ∧
      ∃ stage, StageRun 0 .idle
        [[.waits 0 0 none], [.put 1 0 7, .took 0 0 7], [Done.returned 0 7]].flatten stage ∧
        InStage returnedState 0 stage := by
  obtain ⟨horder, hstages⟩ := mvars_inOrder freshState_start returnedState_run
  exact ⟨horder 0, hstages 0⟩

/-- In every reachable state each operation of a running thread, each exception, each wake-up
and each turn of the scheduler succeeds: no assertion of the code fails, no loop over a queue
runs on, and no frame of another kind is overwritten.  `throwTo` succeeds however often it
does not get the lock of the right MVar, as soon as it does. -/
theorem mvars_succeed (h : (mvars V).Reachable s) :
    (∀ cap t m, s.current cap = some t →
      (∃ r, s.takeMVar cap t m = .ok r) ∧ (∃ r, s.tryTakeMVar cap t m = .ok r) ∧
        ∀ v, (∃ r, s.putMVar cap t m v = .ok r) ∧ ∃ r, s.tryPutMVar cap t m v = .ok r) ∧
      (∀ cap, s.runQueue cap ≠ [] → ∃ r, s.schedule cap = .ok r) ∧
      (∀ t, (∃ r, s.throwToSingleThreaded (s.tso t).cap t = .ok r) ∧
        ∃ mvar, ∀ turns last, ∃ r,
          s.throwToMsg (s.tso t).cap t (turns ++ [.locked mvar, last]) = .ok r) ∧
      ∀ cap t, ∃ r, s.tryWakeupThread cap t = .ok r := by
  obtain ⟨chain, hinv⟩ := mvars_stands h
  refine ⟨fun cap t m hcurrent => ⟨?_, ?_, fun v => ⟨?_, ?_⟩⟩, fun cap hne => ?_,
    fun t => ⟨?_, ?_⟩, fun cap t => ?_⟩
  · exact (takeMVar_spec hinv hcurrent m).succeeds
  · exact (tryTakeMVar_spec hinv hcurrent m).succeeds
  · exact (putMVar_spec hinv hcurrent m v).succeeds
  · exact (tryPutMVar_spec hinv hcurrent m v).succeeds
  · obtain ⟨t, rest, hqueue⟩ := List.exists_cons_of_ne_nil hne
    exact (schedule_spec hinv hqueue).succeeds
  · exact (throwToSingleThreaded_spec hinv rfl).succeeds
  · cases hwhy : (s.tso t).whyBlocked with
    | notBlocked =>
      refine ⟨0, fun turns last => throwToMsg_succeeds hinv rfl (fun hblocked => ?_) last turns⟩
      cases hwhy.symm.trans hblocked
    | blockedOnMVar =>
      obtain ⟨mvar, hinfo⟩ := hinv.blockInfo hwhy
      exact ⟨mvar, fun turns last => throwToMsg_succeeds hinv rfl (fun _ => hinfo) last turns⟩
  · exact (tryWakeupThread_spec (hinv.mono fun u hu => hu.elim) cap).succeeds

/-- Thread 0 can have an exception raised although its wake-up is still on its way. -/
theorem mvars_succeed_handed :
    ∃ mvar, ∀ turns last, ∃ r, handedState.throwToMsg 0 0 (turns ++ [.locked mvar, last]) = .ok r :=
  ((mvars_succeed ⟨_, _, freshState_start, handedState_run⟩).2.2.1 0).2

/-- In every run a blocked thread waits on one MVar, to take if it is empty and to put if it
is full, or its operation has been performed, with the value that was taken for it in its
frame, and a wake-up is on its way, which will make it runnable. -/
theorem mvars_blocked {start : MVarState V} {trace : List (List (Done V))}
    (hstart : MVarStart start) (hrun : (mvars V).Run start trace s)
    (hwhy : (s.tso t).whyBlocked = .blockedOnMVar) :
    ∃ stage, StageRun t .idle trace.flatten stage ∧
      ((∃ m offer, stage = .waiting m offer ∧ (s.tso t).blockInfo = some m ∧
          (s.tso t).link ≠ none ∧ Pends (s.tso t).frame m (s.mvar m).value) ∨
        ((stage = .stored ∧ (s.tso t).frame = none ∨
            ∃ v, stage = .owed v ∧ (s.tso t).frame = some (.unptR1 v)) ∧
          (s.tso t).link = none ∧ t ∈ s.inbox (s.tso t).cap ∧
          ∃ s', s.tryWakeupThread (s.tso t).cap t = .ok s' ∧
            (s'.tso t).whyBlocked = .notBlocked ∧ t ∈ s'.runQueue (s.tso t).cap ∧
            (s'.tso t).frame = (s.tso t).frame)) := by
  obtain ⟨a, stage, h⟩ := mvars_runsTo hstart hrun t
  obtain ⟨chain, hinv, rfl⟩ := h.stands
  have hin := hinv.inStage h.atStage
  have hne := h.active hwhy
  refine ⟨stage, h.run, ?_⟩
  rcases hinv.threads.blocked t hwhy with ⟨m, q, hq, rfl⟩ | ⟨hlink, -, -, hwake⟩
  · have hwaits := hinv.threads.entry m q hq
    have hlinked := hwaits.link_ne_none
    cases stage with
    | idle => exact absurd hin.1 hlinked
    | stored => exact absurd hin.1 hlinked
    | owed v => exact absurd hin.1 hlinked
    | waiting n offer =>
      have hn : n = m := by
        have hinfo : (s.tso (s.node q).item).blockInfo = some n := by
          cases offer with
          | none => exact hin.2.1
          | some v => exact hin.2.1
        exact Option.some.inj (hinfo.symm.trans hwaits.info)
      rw [hn]
      exact .inl ⟨m, offer, rfl, hwaits.info, hlinked, hwaits.frame⟩
  · have hperformed : stage = .stored ∧ (s.tso t).frame = none ∨
        ∃ v, stage = .owed v ∧ (s.tso t).frame = some (.unptR1 v) := by
      cases stage with
      | idle => exact absurd rfl hne
      | stored => exact .inl ⟨rfl, hin.2⟩
      | owed v => exact .inr ⟨v, rfl, hin.2⟩
      | waiting n offer =>
        cases offer with
        | none => exact absurd hlink hin.1
        | some v => exact absurd hlink hin.1
    have hself : (unblocked s (s.tso t).cap t none).tso t =
        { s.tso t with blockInfo := none, whyBlocked := .notBlocked } :=
      setTSO_self s t fun tso => { tso with blockInfo := none, whyBlocked := .notBlocked }
    refine .inr ⟨hperformed, hlink, hwake.resolve_right id,
      unblocked s (s.tso t).cap t none, ?_, ?_, ?_, ?_⟩
    · have hlocal : ¬ (s.tso t).cap ≠ (s.tso t).cap := fun hne => hne rfl
      rw [MVarState.tryWakeupThread, if_neg hlocal, hwhy]
      exact (if_pos hlink).trans (appendToRunQueue_unblocked hlink none)
    · rw [hself]
    · show t ∈ Function.update s.runQueue (s.tso t).cap (s.runQueue (s.tso t).cap ++ [t]) _
      rw [Function.update_self]
      exact List.mem_append_right _ List.mem_cons_self
    · rw [hself]

/-- Thread 0 is still blocked, but has its value. -/
theorem mvars_blocked_handed :
    ∃ stage, StageRun 0 .idle [.waits 0 0 none, .put 1 0 7, Done.took 0 0 7] stage ∧
      ∃ v, stage = .owed v ∧ (handedState.tso 0).frame = some (.unptR1 v) := by
  obtain ⟨stage, hrun, hcases⟩ :=
    mvars_blocked (t := 0) freshState_start handedState_run rfl
  have hlink : (handedState.tso 0).link = none := rfl
  have hframe : (handedState.tso 0).frame = some (.unptR1 7) := rfl
  refine ⟨stage, hrun, ?_⟩
  rcases hcases with ⟨m, offer, -, -, hlinked, -⟩ | ⟨⟨-, hnone⟩ | howed, -⟩
  · exact absurd hlink hlinked
  · cases hframe.symm.trans hnone
  · exact howed

/-- In every reachable state a thread that can run is in one place: it is current on its own
capability, or once on that capability's run queue; a blocked one is on none. -/
theorem mvars_placed (h : (mvars V).Reachable s) :
    (∀ cap, (s.runQueue cap).Nodup) ∧
      (∀ cap t, t ∈ s.runQueue cap → (s.tso t).cap = cap ∧ (s.tso t).whyBlocked = .notBlocked) ∧
      ∀ cap t, s.current cap = some t → (s.tso t).cap = cap ∧
        (s.tso t).whyBlocked = .notBlocked ∧ (∀ c, t ∉ s.runQueue c) ∧
          ∀ c, s.current c = some t → c = cap := by
  obtain ⟨chain, hinv⟩ := mvars_stands h
  refine ⟨hinv.caps.once, fun cap t ht => hinv.caps.queued cap t ht, fun cap t ht => ?_⟩
  obtain ⟨hcap, hwhy, -, -⟩ := hinv.caps.running cap t ht
  refine ⟨hcap, hwhy, fun c => hinv.caps.not_queued ht, fun c hc => ?_⟩
  exact (hinv.caps.running c t hc).1.symm.trans hcap

/-- Thread 0 has been blocked and woken up: it is queued once, and then runs. -/
theorem mvars_placed_woken :
    (wokenState.runQueue 0).Nodup ∧ 0 ∈ wokenState.runQueue 0 ∧
      (wokenState.tso 0).whyBlocked = .notBlocked ∧ ∀ c, 0 ∉ returnedState.runQueue c := by
  obtain ⟨honce, hqueued, -⟩ := mvars_placed ⟨_, _, freshState_start, wokenState_run⟩
  obtain ⟨-, -, hrunning⟩ := mvars_placed ⟨_, _, freshState_start, returnedState_run⟩
  have hmem : 0 ∈ wokenState.runQueue 0 := by decide
  exact ⟨honce 0, hmem, (hqueued 0 0 hmem).2, (hrunning 0 0 rfl).2.2.1⟩

end HosBoot.Rts
