/-
  Rts/MVarOps.lean --- each operation on an MVar is one step of its buffer.

  From a state that satisfies the invariant no operation fails: no assertion, no search that
  does not end, no frame of the wrong kind.
-/
import HosBoot.Rts.MVarQueues

set_option autoImplicit false

namespace HosBoot.Rts

open HosBoot.Foundation LinkedQueue

variable {V : Type} {s s' : MVarState V} {chain : Nat → List Nat} {woken : Nat → Prop}
  {cap t u m n q : Nat} {front rest : List Nat} {v : V}

/-! ## An MVar that nobody waits on -/

theorem view_nobody (h : live s.node (chain m) = []) :
    (view s chain).channel m = ⟨(s.mvar m).value, []⟩ := by
  show Channel.mk _ _ = _
  rw [h]
  rfl

/-- The value of an MVar that nobody waits on changes. -/
theorem setValue_spec (h : MVarInv s chain woken) (hnone : live s.node (chain m) = [])
    (value : Option V) :
    MVarInv (s.setValue m value) chain woken ∧
      view (s.setValue m value) chain = (view s chain).set m ⟨value, []⟩ := by
  have hmvar : ∀ n, n ≠ m → (s.setValue m value).mvar n = s.mvar n :=
    fun n hn => Function.update_of_ne hn _ _
  have hself : (s.setValue m value).mvar m = { s.mvar m with value := value } :=
    Function.update_self _ _ _
  refine ⟨⟨⟨fun n => ?_, h.queues.fresh, h.queues.apart⟩, ⟨fun n q hq => ?_, h.threads.blocked,
    h.threads.runnable⟩, ⟨h.caps.queued, h.caps.once, h.caps.running⟩⟩, ?_⟩
  · by_cases hn : n = m
    · rw [hn, hself]
      exact h.queues.queue m
    · rw [hmvar n hn]
      exact h.queues.queue n
  · have hwaits := h.threads.entry n q hq
    have hn : n ≠ m := by
      rintro rfl
      have hempty : q ∈ live s.node (chain n) := hq
      rw [hnone] at hempty
      cases hempty
    exact ⟨hwaits.why, hwaits.info, hwaits.link, by rw [hmvar n hn]; exact hwaits.frame⟩
  · refine view_eq (fun n => ?_) fun u => rfl
    rw [Channels.set_channel]
    by_cases hn : n = m
    · have hempty : live (s.setValue m value).node (chain m) = [] := hnone
      rw [if_pos hn, hn, view_nobody hempty, hself]
    · rw [if_neg hn]
      show Channel.mk _ _ = Channel.mk _ _
      rw [hmvar n hn]
      rfl

/-! ## An MVar that a thread waits on -/

theorem live_split (hdead : live s.node front = []) (hq : (s.node q).status = .live) :
    live s.node (front ++ q :: rest) = q :: live s.node rest := by
  have hfront : live s.node (front ++ q :: rest) =
      live s.node front ++ live s.node (q :: rest) := List.filter_append _ _
  rw [hfront, hdead, List.nil_append, live, List.filter_cons_of_pos (by simpa using hq)]
  rfl

/-- The thread that waits first, and the others. -/
theorem MVarInv.first_waiting (h : MVarInv s chain woken) (hsplit : chain m = front ++ q :: rest)
    (hdead : live s.node front = []) (hq : (s.node q).status = .live) :
    q ∈ live s.node (chain m) ∧ live s.node rest = (live s.node (chain m)).erase q ∧
      ((view s chain).channel m).waiting =
        ((s.node q).item, offer (s.tso (s.node q).item).frame) ::
          ((view s chain).channel m).waiting.filter fun w => w.1 ≠ (s.node q).item := by
  have hlive : live s.node (chain m) = q :: live s.node rest := by
    rw [hsplit]
    exact live_split hdead hq
  have hmem : q ∈ live s.node (chain m) := by
    rw [hlive]
    exact List.mem_cons_self
  have herase : live s.node rest = (live s.node (chain m)).erase q := by
    rw [hlive, List.erase_cons_head]
  refine ⟨hmem, herase, ?_⟩
  have hrest : live s.node rest =
      if m = m then (live s.node (chain m)).erase q else live s.node (chain m) := by
    rw [if_pos rfl, herase]
  rw [← h.erase_waiting hmem m hrest]
  show (live s.node (chain m)).map _ = _
  rw [hlive]
  rfl

/-- The first entry leaves the queue. -/
theorem dequeue_spec (h : MVarInv s chain woken) (hq : q ∈ live s.node (chain m)) :
    s.dequeue m q = .ok (s.setEnds m (behind s.node (s.mvar m).toEnds q), (s.node q).item) := by
  have hwaits := h.threads.entry m q hq
  rw [MVarState.dequeue, if_pos hwaits.why, if_pos hwaits.info]

/-- The thread that waits first leaves the queue, its operation performed, and is woken up. -/
theorem MVarInv.perform (h : MVarInv s chain nobody) (hsplit : chain m = front ++ q :: rest)
    (hdead : live s.node front = []) (hq : (s.node q).status = .live) (ht : (s.node q).item = t)
    {value : Option V} (hvalue : value.isSome = (s.mvar m).value.isSome)
    {frame : Option (Frame V)} (hquiet : quiet frame = true) (cap : Nat) :
    EndsIn ((Rts.leave s m t s.node (behind s.node (s.mvar m).toEnds q) value
        frame).tryWakeupThread cap t)
      (((view s chain).set m ⟨value, ((view s chain).channel m).waiting.filter
        fun w => w.1 ≠ t⟩).setAnswer t (answer frame)) := by
  obtain ⟨hmem, herase, -⟩ := h.first_waiting hsplit hdead hq
  have hqueue : IsQueue s.node (behind s.node (s.mvar m).toEnds q) rest := by
    have hwhole := h.queues.queue m
    rw [hsplit] at hwhole
    exact hwhole.behind
  have hsub : ∀ x ∈ rest, x ∈ chain m := by
    intro x hx
    rw [hsplit]
    exact List.mem_append_right _ (List.mem_cons_of_mem q hx)
  obtain ⟨hleft, hview⟩ :=
    Leaves.leave ⟨hmem, ht, hqueue, hsub, herase, fun _ _ => rfl⟩ h hvalue hquiet
  rw [← hview]
  exact tryWakeupThread_spec hleft cap

/-- `takeMVar` and `tryTakeMVar` of a full MVar. -/
theorem takeValue_spec (h : MVarInv s chain nobody) (hready : (view s chain).Ready t)
    (hvalue : (s.mvar m).value = some v) :
    Performs t (view s chain) (s.takeValue cap t m v) := by
  rcases h.firstLive m with ⟨hnone, hfirst⟩ | ⟨front, q, rest, hsplit, hdead, hq, hfirst⟩
  · obtain ⟨hinv, hview⟩ := setValue_spec h hnone none
    refine .single (e := .took t m v) ?_ ⟨chain, hinv, hview⟩ ?_ rfl trivial
    · rw [MVarState.takeValue, hfirst]
      rfl
    · refine .takeNow hready ?_
      rw [view_nobody hnone, hvalue]
  · obtain ⟨hmem, -, hwaiting⟩ := h.first_waiting hsplit hdead hq
    obtain ⟨u, hu⟩ : ∃ u, (s.node q).item = u := ⟨_, rfl⟩
    have hpends := (h.threads.entry m q hmem).frame
    rw [hvalue, hu] at hpends
    obtain ⟨w, hw⟩ := hpends
    rw [hu, hw] at hwaiting
    have hfull : (some w).isSome = (s.mvar m).value.isSome := by
      rw [hvalue]
      rfl
    have hquiet : quiet (none : Option (Frame V)) = true := rfl
    obtain ⟨s', hwake, hstands⟩ := h.perform hsplit hdead hq hu hfull hquiet cap
    have hwaits : (u, some w) ∈ ((view s chain).channel m).waiting := by
      rw [hwaiting]
      exact List.mem_cons_self
    refine Performs.pair (e := .took t m v) (f := .put u m w) ?_ hstands ?_ rfl trivial trivial
      hwaits
    · have hstate : ((((s.setEnds m (behind s.node (s.mvar m).toEnds q)).setTSO u
          fun tso => { tso with frame := none }).setValue m (some w)).setTSO u
            fun tso => { tso with link := none }) =
          leave s m u s.node (behind s.node (s.mvar m).toEnds q) (some w) none := by
        simp [MVarState.setTSO, MVarState.setEnds, MVarState.setValue, leave]
      have hframe : ((s.setEnds m (behind s.node (s.mvar m).toEnds q)).tso u).frame =
          some (.blockPutMVar m w) := hw
      have hput : (s.setEnds m (behind s.node (s.mvar m).toEnds q)).performPut u = .ok
          ((s.setEnds m (behind s.node (s.mvar m).toEnds q)).setTSO u
            fun tso => { tso with frame := none }, w) := by
        rw [MVarState.performPut, hframe]
      rw [MVarState.takeValue, hfirst]
      show (s.dequeue m q >>= _) = _
      rw [dequeue_spec h hmem, hu]
      show (MVarState.performPut _ u >>= _) = _
      rw [hput]
      show (MVarState.tryWakeupThread _ cap u >>= _) = _
      rw [hstate, hwake]
      rfl
    · -- a putter that is woken up has nothing to return
      have hanswer : (view s chain).answer u = answer (none : Option (Frame V)) := by
        show answer (s.tso u).frame = none
        rw [hw]
        rfl
      have hkept : ((view s chain).set m ⟨some w, ((view s chain).channel m).waiting.filter
          fun x => x.1 ≠ u⟩).setAnswer u (answer (none : Option (Frame V))) =
          (view s chain).set m ⟨some w, ((view s chain).channel m).waiting.filter
            fun x => x.1 ≠ u⟩ := Channels.setAnswer_self hanswer
      rw [hkept]
      exact .takeFrom hready (congrArg₂ Channel.mk hvalue hwaiting)

/-- `putMVar` and `tryPutMVar` to an empty MVar. -/
theorem putValue_spec (h : MVarInv s chain nobody) (hready : (view s chain).Ready t)
    (hvalue : (s.mvar m).value = none) :
    Performs t (view s chain) (s.putValue cap t m v) := by
  rcases h.firstLive m with ⟨hnone, hfirst⟩ | ⟨front, q, rest, hsplit, hdead, hq, hfirst⟩
  · obtain ⟨hinv, hview⟩ := setValue_spec h hnone (some v)
    refine .single (e := .put t m v) ?_ ⟨chain, hinv, hview⟩ ?_ rfl trivial
    · rw [MVarState.putValue, hfirst]
      rfl
    · refine .putNow hready ?_
      rw [view_nobody hnone, hvalue]
  · obtain ⟨hmem, -, hwaiting⟩ := h.first_waiting hsplit hdead hq
    obtain ⟨u, hu⟩ : ∃ u, (s.node q).item = u := ⟨_, rfl⟩
    have hframe := (h.threads.entry m q hmem).frame
    rw [hvalue, hu] at hframe
    have hframe : (s.tso u).frame = some (.blockTakeMVar m) := hframe
    rw [hu, hframe] at hwaiting
    have hempty : (none : Option V).isSome = (s.mvar m).value.isSome := by
      rw [hvalue]
    have hquiet : quiet (some (.unptR1 v)) = true := rfl
    obtain ⟨s', hwake, hstands⟩ := h.perform hsplit hdead hq hu hempty hquiet cap
    have hwaits : (u, none) ∈ ((view s chain).channel m).waiting := by
      rw [hwaiting]
      exact List.mem_cons_self
    refine Performs.pair (e := .put t m v) (f := .took u m v) ?_ hstands ?_ rfl trivial trivial
      hwaits
    · have hstate : (((s.setEnds m (behind s.node (s.mvar m).toEnds q)).setTSO u
          fun tso => { tso with frame := some (.unptR1 v) }).setTSO u
            fun tso => { tso with link := none }) =
          leave s m u s.node (behind s.node (s.mvar m).toEnds q) none (some (.unptR1 v)) := by
        simp [MVarState.setTSO, MVarState.setEnds, leave, hvalue]
      have hstill : ((s.setEnds m (behind s.node (s.mvar m).toEnds q)).tso u).frame =
          some (.blockTakeMVar m) := hframe
      have htake : (s.setEnds m (behind s.node (s.mvar m).toEnds q)).performTake u v = .ok
          ((s.setEnds m (behind s.node (s.mvar m).toEnds q)).setTSO u
            fun tso => { tso with frame := some (.unptR1 v) }) := by
        rw [MVarState.performTake, hstill]
      rw [MVarState.putValue, hfirst]
      show (s.dequeue m q >>= _) = _
      rw [dequeue_spec h hmem, hu]
      show (MVarState.performTake _ u v >>= _) = _
      rw [htake]
      show (MVarState.tryWakeupThread _ cap u >>= _) = _
      rw [hstate, hwake]
      rfl
    · exact .putTo hready (congrArg₂ Channel.mk hvalue hwaiting)

/-! ## The primitive operations -/

/-- `takeMVar` by the current thread. -/
theorem takeMVar_spec (h : MVarInv s chain nobody) (hcurrent : s.current cap = some t) (m : Nat) :
    Performs t (view s chain) (s.takeMVar cap t m) := by
  have hready := h.ready hcurrent
  cases hvalue : (s.mvar m).value with
  | some v =>
    rw [MVarState.takeMVar, hvalue]
    exact takeValue_spec h hready hvalue
  | none =>
    have hpends : Pends (some (.blockTakeMVar m)) m (s.mvar m).value := by
      rw [hvalue]
      rfl
    obtain ⟨s', chain', hrun, hinv, hview⟩ := blockOn_spec h hcurrent hpends
    refine .single (e := .waits t m none) ?_ ⟨chain', hinv, hview⟩ ?_ rfl trivial
    · rw [MVarState.takeMVar, hvalue]
      show (s.blockOn cap t m _ >>= _) = _
      rw [hrun]
      rfl
    · rw [hvalue]
      exact .takeWait hready (congrArg₂ Channel.mk hvalue rfl)

/-- `putMVar` by the current thread. -/
theorem putMVar_spec (h : MVarInv s chain nobody) (hcurrent : s.current cap = some t) (m : Nat)
    (v : V) :
    Performs t (view s chain) (s.putMVar cap t m v) := by
  have hready := h.ready hcurrent
  cases hvalue : (s.mvar m).value with
  | none =>
    rw [MVarState.putMVar, hvalue]
    exact putValue_spec h hready hvalue
  | some w =>
    have hpends : Pends (some (.blockPutMVar m v)) m (s.mvar m).value := by
      rw [hvalue]
      exact ⟨v, rfl⟩
    obtain ⟨s', chain', hrun, hinv, hview⟩ := blockOn_spec h hcurrent hpends
    refine .single (e := .waits t m (some v)) ?_ ⟨chain', hinv, hview⟩ ?_ rfl trivial
    · rw [MVarState.putMVar, hvalue]
      show (s.blockOn cap t m _ >>= _) = _
      rw [hrun]
      rfl
    · rw [hvalue]
      exact .putWait hready (congrArg₂ Channel.mk hvalue rfl)

/-- `tryTakeMVar`. -/
theorem tryTakeMVar_spec (h : MVarInv s chain nobody) (hcurrent : s.current cap = some t)
    (m : Nat) :
    Performs t (view s chain) (s.tryTakeMVar cap t m) := by
  have hready := h.ready hcurrent
  cases hvalue : (s.mvar m).value with
  | some v =>
    rw [MVarState.tryTakeMVar, hvalue]
    exact takeValue_spec h hready hvalue
  | none =>
    rw [MVarState.tryTakeMVar, hvalue]
    exact .single rfl ⟨chain, h, rfl⟩ (.refuseTake hready hvalue) rfl trivial

/-- `tryPutMVar`. -/
theorem tryPutMVar_spec (h : MVarInv s chain nobody) (hcurrent : s.current cap = some t)
    (m : Nat) (v : V) :
    Performs t (view s chain) (s.tryPutMVar cap t m v) := by
  have hready := h.ready hcurrent
  cases hvalue : (s.mvar m).value with
  | none =>
    rw [MVarState.tryPutMVar, hvalue]
    exact putValue_spec h hready hvalue
  | some w =>
    rw [MVarState.tryPutMVar, hvalue]
    exact .single rfl ⟨chain, h, rfl⟩ (.refusePut hready hvalue) rfl trivial

end HosBoot.Rts
