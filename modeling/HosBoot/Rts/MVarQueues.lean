/-
  Rts/MVarQueues.lean --- threads join and leave the queues of MVars.
-/
import HosBoot.Rts.MVarMoves

set_option autoImplicit false

namespace HosBoot.Rts

open HosBoot.Foundation LinkedQueue

variable {V : Type} {s s' : MVarState V} {chain : Nat → List Nat} {woken : Nat → Prop}
  {cap t u m n q : Nat} {node : Nat → MVarTSOQueue} {rest : List Nat} {ends : Ends}
  {value : Option V}

/-! ## Joining -/

/-- The state after the current thread `t` of `cap` has joined the queue of MVar `m`. -/
def joined (s : MVarState V) (cap m t : Nat) (node : Nat → MVarTSOQueue) (ends : Ends)
    (frame : Frame V) : MVarState V :=
  (({ s with
      node := node
      hp := s.hp + 1
      current := Function.update s.current cap none } : MVarState V).setEnds m ends).setTSO t
    fun tso => { tso with
      link := some s.hp
      blockInfo := some m
      whyBlocked := .blockedOnMVar
      frame := some frame }

/-- The queue of MVar `m` has a new entry for thread `t` at its end. -/
structure Joins (s : MVarState V) (chain : Nat → List Nat) (m t : Nat)
    (node : Nat → MVarTSOQueue) (ends : Ends) : Prop where
  queue : IsQueue node ends (chain m ++ [s.hp])
  item : (node s.hp).item = t
  /-- The live entries are those from before, and the new one. -/
  entries : ∀ n, live node (Function.update chain m (chain m ++ [s.hp]) n) =
    live s.node (chain n) ++ if n = m then [s.hp] else []
  kept : ∀ n, ∀ x ∈ live s.node (chain n),
    (node x).item = (s.node x).item ∧ (s.node x).item ≠ t
  same : ∀ n, n ≠ m → ∀ x ∈ chain n, node x = s.node x

/-- A thread that runs can join. -/
theorem MVarInv.joins (h : MVarInv s chain woken) (hwhy : (s.tso t).whyBlocked = .notBlocked)
    (m : Nat) :
    ∃ node ends, append s.node (s.mvar m).toEnds s.hp t = some (node, ends) ∧
      Joins s chain m t node ends := by
  obtain ⟨node, ends, happend, hqueue, hlive, hitem, -, hstat, hsame⟩ :=
    (h.queues.queue m).append (h.queues.fresh m) t
  have hold : ∀ n, ∀ q ∈ chain n, q ≠ s.hp := fun n q hq => Nat.ne_of_lt (h.queues.fresh n q hq)
  refine ⟨node, ends, happend, hqueue, hitem, fun n => ?_, fun n q hq => ?_, fun n hn x hx => ?_⟩
  · by_cases hn : n = m
    · rw [hn, Function.update_self, hlive, if_pos rfl]
    · rw [Function.update_of_ne hn, if_neg hn, List.append_nil]
      exact live_congr fun x hx => (hstat x (hold n x hx)).2
  · exact ⟨(hstat q (hold n q (mem_live.mp hq).1)).1, h.item_ne hwhy hq⟩
  · exact hsame x (hold n x hx) fun hxm => hn (h.queues.apart n m x hx hxm)

theorem joined_self (frame : Frame V) :
    (joined s cap m t node ends frame).tso t = { s.tso t with
      link := some s.hp, blockInfo := some m, whyBlocked := .blockedOnMVar, frame := some frame } :=
  Function.update_self _ _ _

theorem joined_other {frame : Frame V} (hne : u ≠ t) :
    (joined s cap m t node ends frame).tso u = s.tso u := Function.update_of_ne hne _ _

theorem joined_value (frame : Frame V) (n : Nat) :
    ((joined s cap m t node ends frame).mvar n).value = (s.mvar n).value := by
  show (Function.update s.mvar m ⟨ends, (s.mvar m).value⟩ n).value = _
  by_cases hn : n = m
  · rw [hn, Function.update_self]
  · rw [Function.update_of_ne hn]

theorem Joins.queues (hjoins : Joins s chain m t node ends) (h : MVarInv s chain woken)
    (frame : Frame V) :
    QueuesOk (joined s cap m t node ends frame)
      (Function.update chain m (chain m ++ [s.hp])) := by
  refine h.queues.update hjoins.queue rfl (Nat.le_succ s.hp) (fun x hx => ?_) hjoins.same
  rcases List.mem_append.mp hx with hx | hx
  · exact ⟨Nat.lt_succ_of_lt (h.queues.fresh m x hx), .inl hx⟩
  · rw [List.mem_singleton.mp hx]
    exact ⟨Nat.lt_succ_self _, .inr (Nat.le_refl _)⟩

theorem Joins.threads (hjoins : Joins s chain m t node ends) (h : MVarInv s chain nobody)
    {frame : Frame V} (hpends : Pends (some frame) m (s.mvar m).value) :
    ThreadsOk (joined s cap m t node ends frame)
      (Function.update chain m (chain m ++ [s.hp])) nobody := by
  refine h.threads.change (fun u hu => joined_other hu) rfl (fun _ _ => id)
    (fun n => by rw [joined_value]) (fun n x hx _ => ?_) (fun n x hx => ?_)
    (fun _ => .inl ⟨m, s.hp, ?_, hjoins.item⟩) fun hrunnable => ?_
  · refine ⟨?_, (hjoins.kept n x hx).1⟩
    show x ∈ live node _
    rw [hjoins.entries]
    exact List.mem_append_left _ hx
  · have hx' : x ∈ live node _ := hx
    rw [hjoins.entries, List.mem_append] at hx'
    rcases hx' with hx' | hx'
    · exact .inl ⟨hx', (hjoins.kept n x hx').2⟩
    · by_cases hn : n = m
      · rw [if_pos hn, List.mem_singleton] at hx'
        rw [hx', hn]
        refine .inr ⟨hjoins.item, ?_, ?_, ?_, ?_⟩
        · rw [joined_self]
        · rw [joined_self]
        · rw [joined_self]
        · rw [joined_self, joined_value]
          exact hpends
      · rw [if_neg hn] at hx'
        cases hx'
  · show s.hp ∈ live node _
    rw [hjoins.entries, if_pos rfl]
    simp
  · rw [joined_self] at hrunnable
    cases hrunnable

/-- What the others offer stays, and the new thread waits last. -/
theorem Joins.channel (hjoins : Joins s chain m t node ends) (cap : Nat) (frame : Frame V) :
    (view (joined s cap m t node ends frame)
      (Function.update chain m (chain m ++ [s.hp]))).channel m =
      ⟨(s.mvar m).value, ((view s chain).channel m).waiting ++ [(t, offer (some frame))]⟩ := by
  have hkept : ((live s.node (chain m)).map fun q => ((node q).item,
      offer ((joined s cap m t node ends frame).tso (node q).item).frame)) =
      ((view s chain).channel m).waiting := by
    refine List.map_congr_left fun q hq => ?_
    obtain ⟨hitem, hne⟩ := hjoins.kept m q hq
    rw [hitem, joined_other hne]
  have hnew : offer ((joined s cap m t node ends frame).tso (node s.hp).item).frame =
      offer (some frame) := by
    rw [hjoins.item, joined_self]
  show Channel.mk _ ((live node _).map fun q => ((node q).item,
    offer ((joined s cap m t node ends frame).tso (node q).item).frame)) = _
  rw [joined_value, hjoins.entries, if_pos rfl, List.map_append, hkept, List.map_singleton, hnew,
    hjoins.item]

/-- The current thread joins the queue of an MVar. -/
theorem blockOn_spec (h : MVarInv s chain nobody) (hcurrent : s.current cap = some t)
    {frame : Frame V} (hpends : Pends (some frame) m (s.mvar m).value) :
    ∃ s' chain', s.blockOn cap t m frame = .ok s' ∧ MVarInv s' chain' nobody ∧
      view s' chain' = (view s chain).set m
        ⟨(s.mvar m).value, ((view s chain).channel m).waiting ++ [(t, offer (some frame))]⟩ := by
  obtain ⟨-, hwhy, -, hframe⟩ := h.caps.running cap t hcurrent
  obtain ⟨node, ends, happend, hjoins⟩ := h.joins hwhy m
  have hcaps : CapsOk (joined s cap m t node ends frame) := by
    refine h.caps.stop rfl rfl fun u hu => joined_other ?_
    rintro rfl
    exact hu hcurrent
  have hview := view_change (fun u hu => joined_other hu) (fun n hn => ⟨joined_value frame n, by
    refine (hjoins.entries n).trans ?_
    rw [if_neg hn, List.append_nil], hjoins.kept n⟩) (hjoins.channel cap frame)
  refine ⟨joined s cap m t node ends frame, _, ?_,
    ⟨hjoins.queues h frame, hjoins.threads h hpends, hcaps⟩, hview.trans ?_⟩
  · rw [MVarState.blockOn, happend]
    rfl
  · refine Channels.setAnswer_self ?_
    show answer (s.tso t).frame = _
    rw [hframe, joined_self]
    exact hpends.answer.symm

/-! ## Leaving -/

/-- The state after thread `t` has left the queue of MVar `m`. -/
def leave (s : MVarState V) (m t : Nat) (node : Nat → MVarTSOQueue) (ends : Ends)
    (value : Option V) (frame : Option (Frame V)) : MVarState V :=
  { s with
    node := node
    mvar := Function.update s.mvar m ⟨ends, value⟩
    tso := Function.update s.tso t { s.tso t with link := none, frame := frame } }

/-- The entries of the other threads. -/
theorem MVarInv.erase_waiting (h : MVarInv s chain woken) (hq : q ∈ live s.node (chain m)) (n : Nat)
    (hrest : rest = if n = m then (live s.node (chain m)).erase q else live s.node (chain n)) :
    (rest.map fun x => ((s.node x).item, offer (s.tso (s.node x).item).frame)) =
      ((view s chain).channel n).waiting.filter fun w => w.1 ≠ (s.node q).item := by
  show _ = ((live s.node (chain n)).map _).filter _
  rw [List.filter_map]
  congr 1
  rw [hrest]
  by_cases hn : n = m
  · have hnodup : (live s.node (chain m)).Nodup := (h.queues.queue m).nodup.filter _
    rw [if_pos hn, hn, hnodup.erase_eq_filter]
    refine List.filter_congr fun x hx => ?_
    by_cases hxq : x = q
    · simp [hxq]
    · have hne : (s.node x).item ≠ (s.node q).item := fun heq => hxq (h.entry_inj hx hq heq).1
      simp [hxq, hne]
  · rw [if_neg hn]
    refine (List.filter_eq_self.mpr fun x hx => ?_).symm
    have hne : (s.node x).item ≠ (s.node q).item := fun heq => hn (h.entry_inj hx hq heq).2
    simp [hne]

/-- Entry `q` of thread `t` goes: `node`, `ends` and `rest` are the queue of MVar `m` without
it. -/
structure Leaves (s : MVarState V) (chain : Nat → List Nat) (m t q : Nat)
    (node : Nat → MVarTSOQueue) (ends : Ends) (rest : List Nat) : Prop where
  mem : q ∈ live s.node (chain m)
  item : (s.node q).item = t
  queue : IsQueue node ends rest
  sub : ∀ x ∈ rest, x ∈ chain m
  erase : live node rest = (live s.node (chain m)).erase q
  same : ∀ x, x ≠ q → node x = s.node x

section

variable {frame : Option (Frame V)} (hleaves : Leaves s chain m t q node ends rest)

theorem leave_self : (leave s m t node ends value frame).tso t =
    { s.tso t with link := none, frame := frame } := Function.update_self _ _ _

theorem leave_other (hne : u ≠ t) : (leave s m t node ends value frame).tso u = s.tso u :=
  Function.update_of_ne hne _ _

theorem leave_whyBlocked (u : Nat) :
    ((leave s m t node ends value frame).tso u).cap = (s.tso u).cap ∧
      ((leave s m t node ends value frame).tso u).whyBlocked = (s.tso u).whyBlocked := by
  by_cases hu : u = t
  · rw [hu, leave_self]
    exact ⟨rfl, rfl⟩
  · rw [leave_other hu]
    exact ⟨rfl, rfl⟩

include hleaves

/-- The other queues do not have the entry. -/
theorem Leaves.ne (h : MVarInv s chain woken) (hn : n ≠ m) {x : Nat} (hx : x ∈ chain n) :
    x ≠ q := by
  rintro rfl
  exact hn (h.queues.apart n m x hx (mem_live.mp hleaves.mem).1)

/-- The live entries: all but the one that left. -/
theorem Leaves.entries (h : MVarInv s chain woken) (n : Nat) :
    live node (Function.update chain m rest n) =
      if n = m then (live s.node (chain m)).erase q else live s.node (chain n) := by
  by_cases hn : n = m
  · rw [hn, Function.update_self, if_pos rfl, hleaves.erase]
  · rw [Function.update_of_ne hn, if_neg hn]
    exact live_congr fun x hx => by rw [hleaves.same x (hleaves.ne h hn hx)]

theorem Leaves.mem_entries (h : MVarInv s chain woken) {x : Nat} :
    x ∈ live node (Function.update chain m rest n) ↔
      x ∈ live s.node (chain n) ∧ x ≠ q := by
  have hnodup : (live s.node (chain m)).Nodup := (h.queues.queue m).nodup.filter _
  rw [hleaves.entries h]
  by_cases hn : n = m
  · rw [if_pos hn, hn, hnodup.mem_erase_iff, and_comm]
  · rw [if_neg hn]
    exact ⟨fun hx => ⟨hx, hleaves.ne h hn (mem_live.mp hx).1⟩, And.left⟩

/-- The other entries are those of other threads. -/
theorem Leaves.item_ne (h : MVarInv s chain woken) {x : Nat}
    (hx : x ∈ live s.node (chain n)) (hne : x ≠ q) : (s.node x).item ≠ t := by
  intro heq
  exact hne (h.entry_inj hx hleaves.mem (heq.trans hleaves.item.symm)).1

theorem Leaves.ne_of_runnable (h : MVarInv s chain woken)
    (hu : (s.tso u).whyBlocked = .notBlocked) : u ≠ t := by
  rintro rfl
  have hwaits := h.threads.entry m q hleaves.mem
  rw [hleaves.item] at hwaits
  rw [hwaits.why] at hu
  cases hu

theorem Leaves.queues (h : MVarInv s chain woken) :
    QueuesOk (leave s m t node ends value frame) (Function.update chain m rest) :=
  h.queues.update hleaves.queue rfl (Nat.le_refl _)
    (fun x hx => ⟨h.queues.fresh m x (hleaves.sub x hx), .inl (hleaves.sub x hx)⟩)
    fun _ hn x hx => hleaves.same x (hleaves.ne h hn hx)

theorem Leaves.caps (h : MVarInv s chain woken) :
    CapsOk (leave s m t node ends value frame) := by
  refine h.caps.congr rfl rfl leave_whyBlocked fun c u hu => ?_
  have hrunning := h.caps.running c u hu
  rw [leave_other (hleaves.ne_of_runnable h hrunning.2.1)]
  exact hrunning.2.2.2

/-- The thread that left has to be woken up. -/
theorem Leaves.threads (h : MVarInv s chain nobody)
    (hvalue : value.isSome = (s.mvar m).value.isSome) (hquiet : quiet frame = true) :
    ThreadsOk (leave s m t node ends value frame) (Function.update chain m rest) (· = t) := by
  have hwaits := h.threads.entry m q hleaves.mem
  rw [hleaves.item] at hwaits
  refine h.threads.change (fun u hu => leave_other hu) rfl (fun u _ => False.elim) (fun n => ?_)
    (fun n x hx hne => ?_) (fun n x hx => .inl ?_) (fun _ => .inr ?_) fun hrun => ?_
  · show (Function.update s.mvar m ⟨ends, value⟩ n).value.isSome = _
    by_cases hn : n = m
    · rw [hn, Function.update_self]
      exact hvalue
    · rw [Function.update_of_ne hn]
  · have hxq : x ≠ q := by
      rintro rfl
      exact hne hleaves.item
    exact ⟨(hleaves.mem_entries h).mpr ⟨hx, hxq⟩, congrArg _ (hleaves.same x hxq)⟩
  · obtain ⟨hxlive, hxq⟩ := (hleaves.mem_entries h).mp hx
    exact ⟨hxlive, hleaves.item_ne h hxlive hxq⟩
  · rw [leave_self]
    exact ⟨rfl, hquiet, by rw [hwaits.info]; rfl, .inr rfl⟩
  · rw [(leave_whyBlocked t).2] at hrun
    exact absurd rfl (hleaves.ne_of_runnable h hrun)

/-- Of the waiting threads only the one that left is gone. -/
theorem Leaves.channel (h : MVarInv s chain woken) :
    (view (leave s m t node ends value frame) (Function.update chain m rest)).channel m =
      ⟨value, ((view s chain).channel m).waiting.filter fun w => w.1 ≠ t⟩ := by
  have hwaiting := h.erase_waiting hleaves.mem m (hleaves.entries h m)
  rw [hleaves.item] at hwaiting
  rw [← hwaiting]
  have hvalue : ((leave s m t node ends value frame).mvar m).value = value :=
    congrArg MVar.value (Function.update_self m _ s.mvar)
  show Channel.mk _ _ = _
  rw [hvalue]
  congr 1
  refine List.map_congr_left fun x hx => ?_
  obtain ⟨hxlive, hxq⟩ := (hleaves.mem_entries h).mp hx
  show ((node x).item, offer ((leave s m t node ends value frame).tso (node x).item).frame) = _
  rw [hleaves.same x hxq, leave_other (hleaves.item_ne h hxlive hxq)]

/-- A thread leaves a queue with its operation performed or revoked; it has to be woken up. -/
theorem Leaves.leave (h : MVarInv s chain nobody)
    (hvalue : value.isSome = (s.mvar m).value.isSome) (hquiet : quiet frame = true) :
    MVarInv (leave s m t node ends value frame) (Function.update chain m rest) (· = t) ∧
      view (Rts.leave s m t node ends value frame) (Function.update chain m rest) =
        ((view s chain).set m ⟨value,
          ((view s chain).channel m).waiting.filter fun w => w.1 ≠ t⟩).setAnswer t
            (answer frame) := by
  have hrest : ∀ n, n ≠ m → ((Rts.leave s m t node ends value frame).mvar n).value =
      (s.mvar n).value ∧ live node (Function.update chain m rest n) = live s.node (chain n) ∧
      ∀ x ∈ live s.node (chain n), (node x).item = (s.node x).item ∧ (s.node x).item ≠ t := by
    intro n hn
    refine ⟨congrArg MVar.value (Function.update_of_ne hn _ s.mvar), ?_, fun x hx => ?_⟩
    · rw [hleaves.entries h, if_neg hn]
    · have hxq := hleaves.ne h hn (mem_live.mp hx).1
      exact ⟨congrArg _ (hleaves.same x hxq), hleaves.item_ne h hx hxq⟩
  have hview := view_change (fun u hu => leave_other hu) hrest (hleaves.channel h)
  rw [leave_self] at hview
  exact ⟨⟨hleaves.queues h, hleaves.threads h hvalue hquiet, hleaves.caps h⟩, hview⟩

end

end HosBoot.Rts
