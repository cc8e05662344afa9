/-
  Rts/MVarRuns.lean --- every run of threads that use MVars.

  Any number of threads on any number of capabilities use any number of MVars; wake-up
  messages are executed in any order, exceptions and collections come at any time.  Every run
  is one of the buffers, so values go through an MVar in order and none is lost or doubled;
  no operation fails, and no wake-up is lost.
-/
import HosBoot.Rts.MVarBlocks

set_option autoImplicit false

namespace HosBoot.Rts

open HosBoot.Foundation LinkedQueue

variable {V : Type} {s s' : MVarState V} {chain : Nat → List Nat} {cap t m : Nat}

/-! ## The system -/

/-- The steps of threads and capabilities. -/
inductive MVarStep : MVarState V → Option (List (Done V)) → MVarState V → Prop
  | take {s s' : MVarState V} {cap t m : Nat} {done : List (Done V)} :
      s.current cap = some t → s.takeMVar cap t m = .ok (s', done) → MVarStep s (shown done) s'
  | tryTake {s s' : MVarState V} {cap t m : Nat} {done : List (Done V)} :
      s.current cap = some t → s.tryTakeMVar cap t m = .ok (s', done) → MVarStep s (shown done) s'
  | put {s s' : MVarState V} {cap t m : Nat} {v : V} {done : List (Done V)} :
      s.current cap = some t → s.putMVar cap t m v = .ok (s', done) → MVarStep s (shown done) s'
  | tryPut {s s' : MVarState V} {cap t m : Nat} {v : V} {done : List (Done V)} :
      s.current cap = some t → s.tryPutMVar cap t m v = .ok (s', done) →
      MVarStep s (shown done) s'
  | isEmpty {s : MVarState V} {cap t m : Nat} :
      s.current cap = some t → MVarStep s (some [.isEmpty t m (s.isEmptyMVar m)]) s
  | schedule {s s' : MVarState V} {cap : Nat} {done : List (Done V)} :
      s.current cap = none → s.schedule cap = .ok (s', done) → MVarStep s (shown done) s'
  | yield {s s' : MVarState V} {cap t : Nat} :
      s.current cap = some t →
      ({ s with current := Function.update s.current cap none } : MVarState V).appendToRunQueue
        cap t = .ok s' → MVarStep s none s'
  | exit {s : MVarState V} {cap t : Nat} :
      s.current cap = some t →
      MVarStep s none { s with current := Function.update s.current cap none }
  | fork {s s' : MVarState V} {t : Nat} :
      (s.tso t).whyBlocked = .notBlocked → (∀ c, t ∉ s.runQueue c) →
      (∀ c, s.current c ≠ some t) → s.appendToRunQueue (s.tso t).cap t = .ok s' →
      MVarStep s none s'
  | deliver {s s' : MVarState V} {cap t : Nat} :
      t ∈ s.inbox cap →
      ({ s with inbox := Function.update s.inbox cap ((s.inbox cap).erase t) } :
        MVarState V).tryWakeupThread cap t = .ok s' → MVarStep s none s'
  | throwSingle {s s' : MVarState V} {t : Nat} :
      s.throwToSingleThreaded (s.tso t).cap t = .ok s' → MVarStep s (some [.revoked t]) s'
  | throwMsg {s s' : MVarState V} {t : Nat} {turns : List LockTurn} :
      s.throwToMsg (s.tso t).cap t turns = .ok s' → MVarStep s (some [.revoked t]) s'
  | collect {s : MVarState V} : MVarStep s none s.collect

/-- New MVars, no thread that runs yet, and no message. -/
structure MVarStart (s : MVarState V) : Prop where
  mvar : ∀ m, s.mvar m = newMVar
  tso : ∀ t, (s.tso t).whyBlocked = .notBlocked ∧ (s.tso t).link = none ∧ (s.tso t).frame = none
  runQueue : ∀ cap, s.runQueue cap = []
  current : ∀ cap, s.current cap = none

/-- Threads and MVars, from the start on. -/
def mvars (V : Type) : TransitionSystem (MVarState V) (List (Done V)) where
  init := MVarStart
  step := MVarStep

/-! ## Refinement -/

theorem MVarStart.stands (h : MVarStart s) : Stands s Channels.empty := by
  refine ⟨fun _ => [], ⟨⟨fun m => ?_, fun m q hq => (by cases hq), fun m m' q hq => (by cases hq)⟩,
    ⟨fun m q hq => (by cases hq), fun t ht => ?_, fun t _ => ?_⟩,
    ⟨fun cap t ht => ?_, fun cap => ?_, fun cap t ht => ?_⟩⟩, ?_⟩
  · rw [h.mvar m]
    exact .empty
  · rw [(h.tso t).1] at ht
    cases ht
  · rw [(h.tso t).2.2]
    exact ⟨(h.tso t).2.1, rfl⟩
  · rw [h.runQueue cap] at ht
    cases ht
  · rw [h.runQueue cap]
    exact .nil
  · rw [h.current cap] at ht
    cases ht
  · refine view_eq (fun m => ?_) fun t => ?_
    · show Channel.mk _ _ = Channel.mk _ _
      rw [h.mvar m]
      rfl
    · rw [(h.tso t).2.2]
      rfl

theorem shown_flatten (done : List (Done V)) : (shown done).toList.flatten = done := by
  cases done with
  | nil => rfl
  | cons e rest => exact List.append_nil _

/-- The events are those of threads that can run and of threads that wait, or an exception,
which unblocks its target. -/
def Apt (s s' : MVarState V) (a : Channels V) (events : List (Done V)) : Prop :=
  ∀ e ∈ events, (e = .revoked e.tso ∧ (s'.tso e.tso).whyBlocked = .notBlocked) ∨
    e.Own ∧ ((s.tso e.tso).whyBlocked = .notBlocked ∨ ¬ a.Away e.tso)

theorem About.apt {a : Channels V} {done : List (Done V)} (h : About a t done)
    (hwhy : (s.tso t).whyBlocked = .notBlocked) :
    Apt s s' a (shown done).toList.flatten := by
  rw [shown_flatten]
  intro e he
  obtain ⟨hown, htso⟩ := h e he
  refine .inr ⟨hown, htso.imp_left fun heq => ?_⟩
  rw [heq]
  exact hwhy

/-- Every step is answered by the buffers. -/
theorem mvarStep_stands {a : Channels V} {label : Option (List (Done V))} (h : Stands s a)
    (hstep : MVarStep s label s') :
    ∃ b, Answers a label b ∧ Stands s' b ∧ Apt s s' a label.toList.flatten := by
  obtain ⟨chain, hinv, rfl⟩ := h
  have hruns : ∀ {cap t : Nat}, s.current cap = some t → (s.tso t).whyBlocked = .notBlocked :=
    fun hcurrent => (hinv.caps.running _ _ hcurrent).2.1
  -- an operation of a thread that can run
  have hperforms : ∀ {run : Except String (MVarState V × List (Done V))} {t : Nat}
      {done : List (Done V)}, Performs t (view s chain) run → run = .ok (s', done) →
      (s.tso t).whyBlocked = .notBlocked → ∃ b, Answers (view s chain) (shown done) b ∧
        Stands s' b ∧ Apt s s' (view s chain) (shown done).toList.flatten := by
    intro run t done hperforms hrun hwhy
    obtain ⟨b, hanswers, hstands, habout⟩ := hperforms.answered hrun
    exact ⟨b, hanswers, hstands, habout.apt hwhy⟩
  -- a step that the buffers do not notice, and one that revokes
  have hsilent : Stands s' (view s chain) → ∃ b, Answers (view s chain) none b ∧ Stands s' b ∧
      Apt s s' (view s chain) (none : Option (List (Done V))).toList.flatten :=
    fun hstands => ⟨_, .silent, hstands, fun _ he => absurd he List.not_mem_nil⟩
  have hrevoked : ∀ {t : Nat}, Stands s' ((view s chain).revoke t) →
      (s'.tso t).whyBlocked = .notBlocked →
      ∃ b, Answers (view s chain) (some [.revoked t]) b ∧ Stands s' b ∧
        Apt s s' (view s chain) (some [Done.revoked t]).toList.flatten := by
    intro t hstands hwhy
    refine ⟨_, .step .revoke, hstands, fun e he => ?_⟩
    obtain rfl := List.mem_singleton.mp he
    exact .inl ⟨rfl, hwhy⟩
  cases hstep with
  | take hcurrent hrun => exact hperforms (takeMVar_spec hinv hcurrent _) hrun (hruns hcurrent)
  | tryTake hcurrent hrun =>
    exact hperforms (tryTakeMVar_spec hinv hcurrent _) hrun (hruns hcurrent)
  | put hcurrent hrun =>
    exact hperforms (putMVar_spec hinv hcurrent _ _) hrun (hruns hcurrent)
  | tryPut hcurrent hrun =>
    exact hperforms (tryPutMVar_spec hinv hcurrent _ _) hrun (hruns hcurrent)
  | isEmpty hcurrent =>
    refine ⟨_, .step (.isEmpty (hinv.ready hcurrent)), ⟨chain, hinv, rfl⟩, fun e he => ?_⟩
    obtain rfl := List.mem_singleton.mp he
    exact .inr ⟨trivial, .inl (hruns hcurrent)⟩
  | schedule hnone hrun =>
    rename_i cap done
    cases hqueue : s.runQueue cap with
    | nil =>
      rw [MVarState.schedule, hqueue] at hrun
      cases hrun
    | cons t rest =>
      have hmem : t ∈ s.runQueue cap := hqueue ▸ List.mem_cons_self
      exact hperforms (schedule_spec hinv hqueue) hrun (hinv.caps.queued cap t hmem).2
  | yield hcurrent hrun => exact hsilent ((yield_spec hinv hcurrent).stands hrun)
  | exit hcurrent => exact hsilent ⟨chain, hinv.stop _, rfl⟩
  | fork hwhy hqueue hcurrent hrun =>
    exact hsilent ((appendToRunQueue_spec hinv hwhy rfl hqueue hcurrent).stands hrun)
  | deliver hmem hrun => exact hsilent ((deliver_spec hinv _ _).stands hrun)
  | throwSingle hrun =>
    exact hrevoked ((throwToSingleThreaded_spec hinv rfl).stands hrun)
      (throwToSingleThreaded_blocks _ hrun).2
  | throwMsg hrun =>
    exact hrevoked (throwToMsg_stands hinv rfl _ hrun) (throwToMsg_blocks _ _ _ hrun).2
  | collect => exact hsilent (collect_spec hinv)

/-- Threads and MVars simulate nothing but the buffers. -/
theorem mvars_simulation : (mvars V).Simulation (channels V) Stands :=
  ⟨fun _ hstart => ⟨Channels.empty, rfl, MVarStart.stands hstart⟩, fun _ _ _ _ h hstep => by
    obtain ⟨b, hanswers, hstands, -⟩ := mvarStep_stands h hstep
    exact ⟨b, hanswers.run, hstands⟩⟩

/-- A state that a run reaches satisfies the invariant. -/
theorem mvars_stands (h : (mvars V).Reachable s) : ∃ chain, MVarInv s chain nobody := by
  obtain ⟨start, trace, hinit, hrun⟩ := h
  obtain ⟨a, b, -, -, chain, hinv, -⟩ := mvars_simulation.of_init hinit hrun
  exact ⟨chain, hinv⟩

/-! ## What one thread sees -/

/-- A thread becomes blocked only by a wait that shows. -/
theorem mvarStep_blocks {label : Option (List (Done V))} (hstep : MVarStep s label s') :
    BlocksShown s s' label.toList.flatten := by
  have hshown : ∀ {run : Except String (MVarState V × List (Done V))} {done : List (Done V)},
      Yields run (fun r => BlocksShown s r.1 r.2) → run = .ok (s', done) →
      BlocksShown s s' (shown done).toList.flatten := by
    intro run done hyields hrun
    rw [shown_flatten]
    exact hyields _ hrun
  cases hstep with
  | take _ hrun => exact hshown takeMVar_blocks hrun
  | tryTake _ hrun => exact hshown tryTakeMVar_blocks hrun
  | put _ hrun => exact hshown putMVar_blocks hrun
  | tryPut _ hrun => exact hshown tryPutMVar_blocks hrun
  | isEmpty => exact (BlocksNone.of_tso_eq rfl).shown _
  | schedule _ hrun => exact hshown schedule_blocks hrun
  | yield _ hrun => exact (BlocksNone.of_tso_eq (appendToRunQueue_tso _ hrun)).shown _
  | exit => exact (BlocksNone.of_tso_eq rfl).shown _
  | fork _ _ _ hrun => exact (BlocksNone.of_tso_eq (appendToRunQueue_tso _ hrun)).shown _
  | deliver _ hrun =>
    exact (BlocksNone.trans (.of_tso_eq rfl) (tryWakeupThread_blocks _ hrun)).shown _
  | throwSingle hrun => exact (throwToSingleThreaded_blocks _ hrun).1.shown _
  | throwMsg hrun => exact (throwToMsg_blocks _ _ _ hrun).1.shown _
  | collect => exact BlocksNone.shown (fun u hu => hu) _

/-- The stage of a thread in a run: the buffers and the thread agree, and a blocked thread is
not idle. -/
structure RunsTo (s : MVarState V) (t : Nat) (trace : List (List (Done V))) (a : Channels V)
    (stage : Stage V) : Prop where
  stands : Stands s a
  buffers : (channels V).Run Channels.empty trace a
  run : StageRun t .idle trace.flatten stage
  atStage : AtStage a t stage
  active : (s.tso t).whyBlocked = .blockedOnMVar → stage ≠ .idle

/-- One more step. -/
theorem RunsTo.step {trace : List (List (Done V))} {a : Channels V} {stage : Stage V}
    (h : RunsTo s t trace a stage) {label : Option (List (Done V))}
    (hstep : MVarStep s label s') :
    ∃ b stage', RunsTo s' t (trace ++ label.toList) b stage' := by
  obtain ⟨b, hanswers, hstands, hapt⟩ := mvarStep_stands h.stands hstep
  have hblocks := mvarStep_blocks hstep t
  have hbuffers := h.buffers.append hanswers.run
  cases hanswers with
  | silent =>
    refine ⟨a, stage, hstands, hbuffers, ?_, h.atStage, fun hwhy => ?_⟩
    · rw [Option.toList_none, List.append_nil]
      exact h.run
    · rcases hblocks hwhy with hold | ⟨m, offer, hnone⟩
      · exact h.active hold
      · cases hnone
  | @step _ events hchannel =>
    have hevents : (some events).toList.flatten = events := List.append_nil _
    rw [hevents] at hblocks hapt
    obtain ⟨stage', hsees⟩ := channelStep_stage hchannel h.atStage
    refine ⟨b, stage', hstands, hbuffers, ?_, hsees.stands, fun hwhy hidle => ?_⟩
    · rw [List.flatten_append, hevents]
      exact h.run.append hsees.run
    · -- an event that makes the thread idle is not that of a blocked thread
      rcases hblocks hwhy with hold | ⟨m, offer, rfl⟩
      · rcases hsees.idle hidle with hwas | hrevoked | ⟨haway, e, he, rfl⟩
        · exact h.active hold hwas
        · rcases hapt _ hrevoked with ⟨-, hwoken⟩ | ⟨hown, -⟩
          · cases hwhy.symm.trans hwoken
          · exact hown
        · rcases hapt e he with ⟨-, hwoken⟩ | ⟨-, hrunnable | hwaits⟩
          · cases hwhy.symm.trans hwoken
          · cases hold.symm.trans hrunnable
          · exact hwaits haway
      · exact hsees.run.ne_idle_of_waits hidle

/-- Every run, as one thread sees it. -/
theorem mvars_runsTo {start : MVarState V} {trace : List (List (Done V))}
    (hstart : MVarStart start) (hrun : (mvars V).Run start trace s) (t : Nat) :
    ∃ a stage, RunsTo s t trace a stage := by
  induction hrun with
  | refl =>
    refine ⟨Channels.empty, .idle, hstart.stands, .refl _, .nil _, .empty t, fun hwhy => ?_⟩
    rw [(hstart.tso t).1] at hwhy
    cases hwhy
  | snoc hrun hstep ih =>
    obtain ⟨a, stage, h⟩ := ih
    exact h.step hstep

/-- What the stage of a thread says about the thread. -/
def InStage (s : MVarState V) (t : Nat) : Stage V → Prop
  | .idle => (s.tso t).link = none ∧ (s.tso t).frame = none
  | .stored => (s.tso t).link = none ∧ (s.tso t).frame = none
  | .owed v => (s.tso t).link = none ∧ (s.tso t).frame = some (.unptR1 v)
  | .waiting m none => (s.tso t).link ≠ none ∧ (s.tso t).blockInfo = some m ∧
      (s.tso t).whyBlocked = .blockedOnMVar ∧ (s.mvar m).value = none ∧
      (s.tso t).frame = some (.blockTakeMVar m)
  | .waiting m (some v) => (s.tso t).link ≠ none ∧ (s.tso t).blockInfo = some m ∧
      (s.tso t).whyBlocked = .blockedOnMVar ∧ (s.mvar m).value.isSome = true ∧
      (s.tso t).frame = some (.blockPutMVar m v)

/-- A thread that waits nowhere has no pending operation. -/
theorem MVarInv.idle (h : MVarInv s chain nobody) {stage : Stage V}
    (hstage : AtStage (view s chain) t stage) (hentries : ∀ m, stage.entries t m = []) :
    (s.tso t).link = none ∧
      (s.tso t).frame = stage.answer.map Frame.unptR1 := by
  have hlink : (s.tso t).link = none := by
    cases hq : (s.tso t).link with
    | none => rfl
    | some q =>
      obtain ⟨m, hlive, hitem, -⟩ := h.blocked_of_link hq
      have hnone := (hstage.waits m).trans (hentries m)
      rw [List.filter_eq_nil_iff] at hnone
      exact absurd (decide_eq_true hitem) (hnone _ (List.mem_map.mpr ⟨q, hlive, rfl⟩))
  have hquiet : quiet (s.tso t).frame = true := by
    cases hwhy : (s.tso t).whyBlocked with
    | notBlocked => exact (h.threads.runnable t hwhy).2
    | blockedOnMVar =>
      rcases h.threads.blocked t hwhy with ⟨m, q, hq, hitem⟩ | ⟨-, hquiet, -⟩
      · exact absurd hitem (h.item_ne_of_link hlink hq)
      · exact hquiet
  have hanswer : answer (s.tso t).frame = stage.answer := hstage.answer
  refine ⟨hlink, ?_⟩
  rw [← hanswer]
  cases hframe : (s.tso t).frame with
  | none => rfl
  | some frame =>
    rw [hframe] at hquiet
    cases frame with
    | unptR1 v => rfl
    | blockTakeMVar m => cases hquiet
    | blockPutMVar m v => cases hquiet

/-- The buffers and the thread agree on its stage. -/
theorem MVarInv.inStage (h : MVarInv s chain nobody) {stage : Stage V}
    (hstage : AtStage (view s chain) t stage) : InStage s t stage := by
  cases stage with
  | idle => exact h.idle hstage fun _ => rfl
  | stored => exact h.idle hstage fun _ => rfl
  | owed v => exact h.idle hstage fun _ => rfl
  | waiting m offer =>
    have hentries := hstage.waits m
    rw [Stage.entries, if_pos rfl] at hentries
    have hmem : (t, offer) ∈ ((view s chain).channel m).waiting := by
      have hin : (t, offer) ∈ [(t, offer)] := List.mem_cons_self
      rw [← hentries] at hin
      exact List.mem_of_mem_filter hin
    obtain ⟨q, hq, hpair⟩ := List.mem_map.mp hmem
    obtain ⟨rfl, hoffer⟩ := Prod.mk.inj hpair
    have hwaits := h.threads.entry m q hq
    have hpends := hwaits.frame
    cases hvalue : (s.mvar m).value with
    | none =>
      rw [hvalue] at hpends
      have hframe : (s.tso (s.node q).item).frame = some (.blockTakeMVar m) := hpends
      rw [hframe] at hoffer
      obtain rfl := hoffer
      exact ⟨hwaits.link_ne_none, hwaits.info, hwaits.why, hvalue, hframe⟩
    | some v =>
      rw [hvalue] at hpends
      obtain ⟨w, hframe⟩ := hpends
      rw [hframe] at hoffer
      obtain rfl := hoffer
      exact ⟨hwaits.link_ne_none, hwaits.info, hwaits.why, by rw [hvalue]; rfl, hframe⟩

end HosBoot.Rts
