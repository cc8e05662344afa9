/-
  Rts/MVarMoves.lean --- the small steps of the MVar operations.

  A blocked thread is unblocked, a thread joins a queue, the first one leaves it with its
  operation performed, a deleted one leaves it: each keeps the invariant, and each is a small
  change of the buffers that the state stands for.
-/
import HosBoot.Rts.MVarInv

set_option autoImplicit false

namespace HosBoot.Rts

open HosBoot.Foundation LinkedQueue

variable {V : Type} {s s' : MVarState V} {chain chain' : Nat → List Nat} {woken : Nat → Prop}
  {cap t u m n q : Nat}

/-! ## Queues and capabilities -/

theorem mem_update_append {fresh : Nat} :
    q ∈ Function.update chain m (chain m ++ [fresh]) n ↔ q ∈ chain n ∨ (n = m ∧ q = fresh) := by
  by_cases hn : n = m
  · rw [hn, Function.update_self, List.mem_append, List.mem_singleton]
    simp
  · rw [Function.update_of_ne hn]
    simp [hn]

/-- The queue of one MVar changes: its entries are old ones of its own, or new. -/
theorem QueuesOk.update (h : QueuesOk s chain) {ends : Ends} {value : Option V} {rest : List Nat}
    (hqueue : IsQueue s'.node ends rest)
    (hmvar : s'.mvar = Function.update s.mvar m ⟨ends, value⟩) (hhp : s.hp ≤ s'.hp)
    (hrest : ∀ x ∈ rest, x < s'.hp ∧ (x ∈ chain m ∨ s.hp ≤ x))
    (hkeep : ∀ n, n ≠ m → ∀ x ∈ chain n, s'.node x = s.node x) :
    QueuesOk s' (Function.update chain m rest) := by
  have hmem : ∀ n, ∀ x ∈ Function.update chain m rest n,
      x < s'.hp ∧ (x ∈ chain n ∨ (n = m ∧ s.hp ≤ x)) := by
    intro n x hx
    by_cases hn : n = m
    · rw [hn, Function.update_self] at hx
      obtain ⟨hlt, hold⟩ := hrest x hx
      rw [hn]
      exact ⟨hlt, hold.imp_right fun hnew => ⟨rfl, hnew⟩⟩
    · rw [Function.update_of_ne hn] at hx
      exact ⟨Nat.lt_of_lt_of_le (h.fresh n x hx) hhp, .inl hx⟩
  refine ⟨fun n => ?_, fun n x hx => (hmem n x hx).1, fun n n' x hx hx' => ?_⟩
  · rw [hmvar]
    by_cases hn : n = m
    · rw [hn, Function.update_self, Function.update_self]
      exact hqueue
    · rw [Function.update_of_ne hn, Function.update_of_ne hn]
      exact (h.queue n).congr (hkeep n hn)
  · rcases (hmem n x hx).2 with hold | ⟨hn, hnew⟩
    · rcases (hmem n' x hx').2 with hold' | ⟨-, hnew⟩
      · exact h.apart n n' x hold hold'
      · exact absurd (h.fresh n x hold) (Nat.not_lt.mpr hnew)
    · rcases (hmem n' x hx').2 with hold' | ⟨hn', -⟩
      · exact absurd (h.fresh n' x hold') (Nat.not_lt.mpr hnew)
      · exact hn.trans hn'.symm

/-- A thread that runs is in no run queue. -/
theorem CapsOk.not_queued (h : CapsOk s) (hcurrent : s.current cap = some t) {c : Nat} :
    t ∉ s.runQueue c := by
  obtain ⟨hcap, -, hout, -⟩ := h.running cap t hcurrent
  intro hin
  obtain ⟨hc, -⟩ := h.queued c t hin
  exact hout (hcap.symm.trans hc ▸ hin)

/-- Every thread stays where it was and as runnable as it was. -/
theorem CapsOk.congr (h : CapsOk s) (hqueue : s'.runQueue = s.runQueue)
    (hcurrent : s'.current = s.current)
    (hsame : ∀ u, (s'.tso u).cap = (s.tso u).cap ∧ (s'.tso u).whyBlocked = (s.tso u).whyBlocked)
    (hframe : ∀ c u, s.current c = some u → (s'.tso u).frame = none) : CapsOk s' := by
  refine ⟨fun c u hu => ?_, fun c => ?_, fun c u hu => ?_⟩
  · rw [hqueue] at hu
    rw [(hsame u).1, (hsame u).2]
    exact h.queued c u hu
  · rw [hqueue]
    exact h.once c
  · rw [hcurrent] at hu
    rw [hqueue, (hsame u).1, (hsame u).2]
    obtain ⟨hcap, hwhy, hout, -⟩ := h.running c u hu
    exact ⟨hcap, hwhy, hout, hframe c u hu⟩

/-- The current thread of a capability stops, and no other thread changes. -/
theorem CapsOk.stop (h : CapsOk s) (hqueue : s'.runQueue = s.runQueue)
    (hcurrent : s'.current = Function.update s.current cap none)
    (hother : ∀ u, s.current cap ≠ some u → s'.tso u = s.tso u) : CapsOk s' := by
  refine ⟨fun c u hu => ?_, fun c => ?_, fun c u hu => ?_⟩
  · rw [hqueue] at hu
    rw [hother u fun hrun => h.not_queued hrun hu]
    exact h.queued c u hu
  · rw [hqueue]
    exact h.once c
  · rw [hcurrent] at hu
    by_cases hc : c = cap
    · rw [hc, Function.update_self] at hu
      cases hu
    · rw [Function.update_of_ne hc] at hu
      have hrunning := h.running c u hu
      rw [hqueue, hother u fun hrun => hc (hrunning.1.symm.trans (h.running cap u hrun).1)]
      exact hrunning

/-- A runnable thread that is nowhere joins a run queue, and no other thread changes. -/
theorem CapsOk.enqueue (h : CapsOk s)
    (hqueue : s'.runQueue = Function.update s.runQueue cap (s.runQueue cap ++ [t]))
    (hcurrent : s'.current = s.current) (hother : ∀ u, u ≠ t → s'.tso u = s.tso u)
    (hcap : (s'.tso t).cap = cap) (hwhy : (s'.tso t).whyBlocked = .notBlocked)
    (hout : ∀ c, t ∉ s.runQueue c) (hstopped : ∀ c, s.current c ≠ some t) : CapsOk s' := by
  have hne : ∀ c, ∀ u ∈ s.runQueue c, u ≠ t := by
    rintro c u hu rfl
    exact hout c hu
  refine ⟨fun c u hu => ?_, fun c => ?_, fun c u hu => ?_⟩
  · rw [hqueue] at hu
    rcases mem_update_append.mp hu with hu | ⟨rfl, rfl⟩
    · rw [hother u (hne c u hu)]
      exact h.queued c u hu
    · exact ⟨hcap, hwhy⟩
  · rw [hqueue]
    by_cases hc : c = cap
    · rw [hc, Function.update_self, List.nodup_append]
      refine ⟨h.once cap, List.pairwise_singleton _ t, fun u hu v hv huv => ?_⟩
      rw [List.mem_singleton.mp hv] at huv
      exact hne cap u hu huv
    · rw [Function.update_of_ne hc]
      exact h.once c
  · rw [hcurrent] at hu
    have hut : u ≠ t := by
      rintro rfl
      exact hstopped c hu
    obtain ⟨huc, hun, hin, hframe⟩ := h.running c u hu
    rw [hother u hut, hqueue]
    refine ⟨huc, hun, fun hmem => ?_, hframe⟩
    rcases mem_update_append.mp hmem with hmem | ⟨-, heq⟩
    · exact hin hmem
    · exact hut heq

/-! ## Threads -/

theorem setTSO_self (s : MVarState V) (t : Nat) (f : TSO V → TSO V) :
    (s.setTSO t f).tso t = f (s.tso t) := Function.update_self _ _ _

theorem setTSO_other (s : MVarState V) (f : TSO V → TSO V) (hne : u ≠ t) :
    (s.setTSO t f).tso u = s.tso u := Function.update_of_ne hne _ _

/-- A thread outside the queues is in no entry. -/
theorem MVarInv.item_ne_of_link (h : MVarInv s chain woken) (hlink : (s.tso t).link = none)
    (hq : q ∈ live s.node (chain m)) : (s.node q).item ≠ t := by
  intro heq
  have hwaits := (h.threads.entry m q hq).link
  rw [heq, hlink] at hwaits
  cases hwaits

/-- Only thread `t` changes: the entries of the others stay, and so does what holds of them. -/
theorem ThreadsOk.change (h : ThreadsOk s chain woken) {more : Nat → Prop}
    (hother : ∀ u, u ≠ t → s'.tso u = s.tso u) (hinbox : s'.inbox = s.inbox)
    (hwoken : ∀ u, u ≠ t → woken u → more u)
    (hvalue : ∀ n, (s'.mvar n).value.isSome = (s.mvar n).value.isSome)
    (hkept : ∀ n, ∀ x ∈ live s.node (chain n), (s.node x).item ≠ t →
      x ∈ live s'.node (chain' n) ∧ (s'.node x).item = (s.node x).item)
    (hentry : ∀ n, ∀ x ∈ live s'.node (chain' n),
      (x ∈ live s.node (chain n) ∧ (s.node x).item ≠ t) ∨ ((s'.node x).item = t ∧ Waits s' t n x))
    (hblocked : (s'.tso t).whyBlocked = .blockedOnMVar →
      (∃ n, ∃ x ∈ live s'.node (chain' n), (s'.node x).item = t) ∨
        ((s'.tso t).link = none ∧ quiet (s'.tso t).frame = true ∧
          (s'.tso t).blockInfo.isSome = true ∧ (t ∈ s'.inbox (s'.tso t).cap ∨ more t)))
    (hrunnable : (s'.tso t).whyBlocked = .notBlocked →
      (s'.tso t).link = none ∧ quiet (s'.tso t).frame = true) :
    ThreadsOk s' chain' more := by
  refine ⟨fun n x hx => ?_, fun u hu => ?_, fun u hu => ?_⟩
  · rcases hentry n x hx with ⟨hold, hne⟩ | ⟨hitem, hwaits⟩
    · have hwaits := h.entry n x hold
      have hsame := hother _ hne
      rw [(hkept n x hold hne).2]
      exact ⟨by rw [hsame, hwaits.why], by rw [hsame, hwaits.info], by rw [hsame, hwaits.link], by
        rw [hsame]
        exact hwaits.frame.congr (hvalue n)⟩
    · rw [hitem]
      exact hwaits
  · by_cases hut : u = t
    · rw [hut] at hu ⊢
      exact hblocked hu
    · rw [hother u hut] at hu ⊢
      rw [hinbox]
      rcases h.blocked u hu with ⟨n, x, hx, hxu⟩ | ⟨hnone, hquiet, hinfo, hwake⟩
      · obtain ⟨hmem, hitem⟩ := hkept n x hx (by rw [hxu]; exact hut)
        exact .inl ⟨n, x, hmem, hitem.trans hxu⟩
      · exact .inr ⟨hnone, hquiet, hinfo, hwake.imp_right (hwoken u hut)⟩
  · by_cases hut : u = t
    · rw [hut] at hu ⊢
      exact hrunnable hu
    · rw [hother u hut] at hu ⊢
      exact h.runnable u hu

/-- Two ways of looking at the buffers agree. -/
theorem view_eq {a : Channels V} (hchannel : ∀ m, (view s chain).channel m = a.channel m)
    (hanswer : ∀ t, answer (s.tso t).frame = a.answer t) : view s chain = a := by
  cases a with
  | mk channel answer =>
    exact congrArg₂ Channels.mk (funext hchannel) (funext hanswer)

theorem Channels.setAnswer_self {a : Channels V} {value : Option V} (h : a.answer t = value) :
    a.setAnswer t value = a := by
  cases a with
  | mk channel answer =>
    show Channels.mk channel (Function.update answer t value) = _
    rw [← h]
    exact congrArg _ (Function.update_eq_self _ _)

/-- Only thread `t` and the queue of MVar `m` change. -/
theorem view_change {c : Channel V} (hother : ∀ u, u ≠ t → s'.tso u = s.tso u)
    (hrest : ∀ n, n ≠ m → (s'.mvar n).value = (s.mvar n).value ∧
      live s'.node (chain' n) = live s.node (chain n) ∧
      ∀ x ∈ live s.node (chain n), (s'.node x).item = (s.node x).item ∧ (s.node x).item ≠ t)
    (hchannel : (view s' chain').channel m = c) :
    view s' chain' = ((view s chain).set m c).setAnswer t (answer (s'.tso t).frame) := by
  refine view_eq (fun n => ?_) fun u => ?_
  · show _ = ((view s chain).set m c).channel n
    rw [Channels.set_channel]
    by_cases hn : n = m
    · rw [if_pos hn, hn]
      exact hchannel
    · obtain ⟨hvalue, hlive, hitem⟩ := hrest n hn
      rw [if_neg hn]
      show Channel.mk _ _ = Channel.mk _ _
      rw [hvalue, hlive]
      congr 1
      refine List.map_congr_left fun x hx => ?_
      rw [(hitem x hx).1, hother _ (hitem x hx).2]
  · show _ = Function.update (view s chain).answer t _ u
    by_cases hut : u = t
    · rw [hut, Function.update_self]
    · rw [hother u hut, Function.update_of_ne hut]
      rfl

/-- The frame of a thread outside the queues is dropped. -/
theorem MVarInv.dropFrame (h : MVarInv s chain woken) (hlink : (s.tso t).link = none)
    (hs' : s' = s.setTSO t fun tso => { tso with frame := none }) :
    MVarInv s' chain woken ∧ view s' chain = (view s chain).setAnswer t none := by
  have hother : ∀ u, u ≠ t → s'.tso u = s.tso u := fun u hu => by
    rw [hs', setTSO_other s _ hu]
  have hself : s'.tso t = { s.tso t with frame := none } := by
    rw [hs', setTSO_self]
  have hstate : s'.node = s.node ∧ s'.mvar = s.mvar ∧ s'.hp = s.hp ∧ s'.inbox = s.inbox ∧
      s'.runQueue = s.runQueue ∧ s'.current = s.current := by
    rw [hs']
    exact ⟨rfl, rfl, rfl, rfl, rfl, rfl⟩
  obtain ⟨hnode, hmvar, hhp, hinbox, hqueue, hcurrent⟩ := hstate
  -- but for its frame the thread is the same
  have hrest : ∀ u, (s'.tso u).cap = (s.tso u).cap ∧
      (s'.tso u).whyBlocked = (s.tso u).whyBlocked ∧ (s'.tso u).link = (s.tso u).link ∧
      (s'.tso u).blockInfo = (s.tso u).blockInfo ∧
      (quiet (s.tso u).frame = true → quiet (s'.tso u).frame = true) ∧
      ((s.tso u).frame = none → (s'.tso u).frame = none) := by
    intro u
    by_cases hu : u = t
    · rw [hu, hself]
      exact ⟨rfl, rfl, rfl, rfl, fun _ => rfl, fun _ => rfl⟩
    · rw [hother u hu]
      exact ⟨rfl, rfl, rfl, rfl, id, id⟩
  have hthreads : ThreadsOk s' chain woken := by
    refine h.threads.change hother hinbox (fun _ _ => id) (fun n => by rw [hmvar])
      (fun n x hx hne => ?_) (fun n x hx => .inl ?_) (fun hwhy => ?_) fun hwhy => ?_
    · rw [hnode]
      exact ⟨hx, rfl⟩
    · rw [hnode] at hx
      exact ⟨hx, h.item_ne_of_link hlink hx⟩
    · rw [(hrest t).2.1] at hwhy
      rw [hnode, hinbox, (hrest t).2.2.1, (hrest t).1, (hrest t).2.2.2.1]
      exact (h.threads.blocked t hwhy).imp_right fun ⟨hnone, hquiet, hinfo, hwake⟩ =>
        ⟨hnone, (hrest t).2.2.2.2.1 hquiet, hinfo, hwake⟩
    · rw [(hrest t).2.1] at hwhy
      rw [(hrest t).2.2.1]
      exact ⟨hlink, (hrest t).2.2.2.2.1 (h.threads.runnable t hwhy).2⟩
  refine ⟨⟨?_, hthreads, h.caps.congr hqueue hcurrent (fun u => ⟨(hrest u).1, (hrest u).2.1⟩)
      fun c u hu => (hrest u).2.2.2.2.2 (h.caps.running c u hu).2.2.2⟩, ?_⟩
  · refine ⟨?_, ?_, h.queues.apart⟩
    · rw [hnode, hmvar]
      exact h.queues.queue
    · rw [hhp]
      exact h.queues.fresh
  · refine view_eq (fun m => ?_) fun u => ?_
    · show Channel.mk _ _ = Channel.mk _ _
      rw [hmvar, hnode]
      congr 1
      refine List.map_congr_left fun q hq => ?_
      rw [hother _ (h.item_ne_of_link hlink hq)]
    · show _ = Function.update (view s chain).answer t none u
      by_cases hu : u = t
      · rw [hu, hself, Function.update_self]
        rfl
      · rw [hother u hu, Function.update_of_ne hu]
        rfl

/-- The state after a thread has become runnable. -/
def unblocked (s : MVarState V) (cap t : Nat) (info : Option Nat) : MVarState V :=
  { s.setTSO t fun tso => { tso with blockInfo := info, whyBlocked := .notBlocked } with
    runQueue := Function.update s.runQueue cap (s.runQueue cap ++ [t]) }

/-- A thread whose operation is over becomes runnable. -/
theorem MVarInv.unblock (h : MVarInv s chain (· = t))
    (hwhy : (s.tso t).whyBlocked = .blockedOnMVar) (hlink : (s.tso t).link = none)
    (hcap : (s.tso t).cap = cap) (info : Option Nat) :
    MVarInv (unblocked s cap t info) chain nobody ∧
      view (unblocked s cap t info) chain = view s chain := by
  obtain ⟨s', hs'⟩ : ∃ s', s' = unblocked s cap t info := ⟨_, rfl⟩
  have htso : s'.tso = (s.setTSO t fun tso =>
      { tso with blockInfo := info, whyBlocked := .notBlocked }).tso := by
    rw [hs']
    rfl
  have hother : ∀ u, u ≠ t → s'.tso u = s.tso u := fun u hu => by
    rw [htso, setTSO_other s _ hu]
  have hself : s'.tso t = { s.tso t with blockInfo := info, whyBlocked := .notBlocked } := by
    rw [htso, setTSO_self]
  have hquiet : quiet (s.tso t).frame = true := by
    rcases h.threads.blocked t hwhy with ⟨m, q, hq, hitem⟩ | ⟨-, hquiet, -⟩
    · exact absurd hitem (h.item_ne_of_link hlink hq)
    · exact hquiet
  have hrunnable : ∀ u, (s.tso u).whyBlocked = .notBlocked → u ≠ t := by
    rintro u hu rfl
    rw [hwhy] at hu
    cases hu
  have hcaps : CapsOk s' := by
    refine h.caps.enqueue (by rw [hs']; rfl) (by rw [hs']; rfl) hother (by rw [hself]; exact hcap)
      (by rw [hself]) (fun c hin => ?_) fun c hrun => ?_
    · exact hrunnable t (h.caps.queued c t hin).2 rfl
    · exact hrunnable t (h.caps.running c t hrun).2.1 rfl
  have hthreads : ThreadsOk s' chain nobody := by
    have hnode : s'.node = s.node := by rw [hs']; rfl
    refine h.threads.change hother (by rw [hs']; rfl) (fun u hne heq => absurd heq hne)
      (fun n => by rw [hs']; rfl) (fun n x hx hne => ?_) (fun n x hx => .inl ?_) (fun hblocked => ?_)
      fun _ => ?_
    · rw [hnode]
      exact ⟨hx, rfl⟩
    · rw [hnode] at hx
      exact ⟨hx, h.item_ne_of_link hlink hx⟩
    · rw [hself] at hblocked
      cases hblocked
    · rw [hself]
      exact ⟨hlink, hquiet⟩
  rw [← hs']
  refine ⟨⟨?_, hthreads, hcaps⟩, ?_⟩
  · rw [hs']
    exact ⟨h.queues.queue, h.queues.fresh, h.queues.apart⟩
  · refine view_congr (by rw [hs']; rfl) (fun m => by rw [hs']; rfl) fun u => ?_
    by_cases hut : u = t
    · rw [hut, hself]
    · rw [hother u hut]

theorem appendToRunQueue_unblocked (hlink : (s.tso t).link = none) (info : Option Nat) :
    (s.setTSO t fun tso => { tso with blockInfo := info, whyBlocked := .notBlocked }).appendToRunQueue
      cap t = .ok (unblocked s cap t info) := by
  refine if_pos ?_
  rw [setTSO_self]
  exact hlink

/-- A wake-up for a thread that does not need one changes nothing. -/
theorem MVarInv.settled (h : MVarInv s chain (· = t))
    (hneeds : (s.tso t).whyBlocked = .blockedOnMVar → (s.tso t).link ≠ none) :
    MVarInv s chain nobody := by
  refine ⟨h.queues, ⟨h.threads.entry, fun u hu => ?_, h.threads.runnable⟩, h.caps⟩
  refine (h.threads.blocked u hu).imp_right fun ⟨hnone, hquiet, hinfo, hwake⟩ =>
    ⟨hnone, hquiet, hinfo, ?_⟩
  refine .inl (hwake.resolve_right ?_)
  rintro rfl
  exact hneeds hu hnone

/-- `tryWakeupThread` wakes a thread up whose operation is over, or sends the wake-up on, and
leaves any other thread alone. -/
theorem tryWakeupThread_spec (h : MVarInv s chain (· = t)) (cap : Nat) :
    EndsIn (s.tryWakeupThread cap t) (view s chain) := by
  by_cases hcap : (s.tso t).cap = cap
  · have hlocal : ¬ (s.tso t).cap ≠ cap := fun hne => hne hcap
    rw [MVarState.tryWakeupThread, if_neg hlocal]
    cases hwhy : (s.tso t).whyBlocked with
    | notBlocked =>
      refine ⟨s, rfl, chain, h.settled fun hblocked => ?_, rfl⟩
      rw [hwhy] at hblocked
      cases hblocked
    | blockedOnMVar =>
      cases hlink : (s.tso t).link with
      | none =>
        obtain ⟨hinv, hview⟩ := h.unblock hwhy hlink hcap none
        refine ⟨unblocked s cap t none, ?_, chain, hinv, hview⟩
        exact appendToRunQueue_unblocked hlink none
      | some q =>
        refine ⟨s, rfl, chain, h.settled fun _ => ?_, rfl⟩
        rw [hlink]
        exact Option.some_ne_none q
  · refine ⟨s.sendWakeup (s.tso t).cap t, if_pos hcap, chain,
      ⟨⟨h.queues.queue, h.queues.fresh, h.queues.apart⟩, ⟨?_, fun u hu => ?_, h.threads.runnable⟩,
        ⟨h.caps.queued, h.caps.once, h.caps.running⟩⟩, rfl⟩
    · intro m q hq
      have hwaits := h.threads.entry m q hq
      exact ⟨hwaits.why, hwaits.info, hwaits.link, hwaits.frame⟩
    · refine (h.threads.blocked u hu).imp_right fun ⟨hnone, hq, hinfo, hwake⟩ =>
        ⟨hnone, hq, hinfo, .inl ?_⟩
      show u ∈ Function.update s.inbox (s.tso t).cap (t :: s.inbox (s.tso t).cap) (s.tso u).cap
      by_cases hsame : (s.tso u).cap = (s.tso t).cap
      · rw [hsame, Function.update_self, List.mem_cons]
        rcases hwake with hwake | heq
        · exact .inr (hsame ▸ hwake)
        · exact .inl heq
      · rw [Function.update_of_ne hsame]
        exact hwake.resolve_right fun heq => hsame (by rw [heq])

end HosBoot.Rts
