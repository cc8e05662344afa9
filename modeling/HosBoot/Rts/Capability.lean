/-
  Rts/Capability.lean --- the sparks of all capabilities.

  Each capability creates sparks in its own pool and looks for work in every pool.  Its
  counters are its own and lag behind the pools, so no equation between them holds at
  every moment; but when no capability is in the middle of `newSpark` or `findSpark`,
  every spark created was converted, has fizzled, was collected or is still in a pool.
-/
import Mathlib.Data.Fintype.Basic
import HosBoot.Rts.SparkCount

set_option autoImplicit false

namespace HosBoot.Rts

open HosBoot.Foundation
open TransitionSystem SeqObject

variable {ι α : Type}

/-! ## The capabilities and their steps -/

/-- Where a capability stands in `newSpark` or in `findSpark`.  The loop of `findSpark` over
the capabilities has `rest` still to visit. -/
inductive SparkPc (ι α : Type)
  | idle
  | newSpark (p : α)
  | pushing
  | pushed (ok : Bool)
  | rob (victim : ι) (rest : List ι) (retry : Bool)
  | stealing (victim : ι) (rest : List ι) (retry : Bool)
  | stolen (victim : ι) (rest : List ι) (retry : Bool) (spark : Option α)
  | visit (rest : List ι) (retry : Bool)

/-- The capabilities: their pools with their counters, and what each is doing. -/
structure CapState (ι α : Type) where
  pools : ι → PoolState ι α
  pc : ι → SparkPc ι α
  collecting : Bool

section

variable [DecidableEq ι]

/-- `newSpark` counts what became of its push. -/
def countPush (stats : SparkCounters) (ok : Bool) : SparkCounters :=
  if ok then { stats with created := stats.created + 1 }
  else { stats with overflowed := stats.overflowed + 1 }

/-- After a steal that brought nothing: the own pool first, then the others in turn.
`left` is what `emptySparkPoolCap` says against it. -/
def afterMiss (caps : List ι) (cap victim : ι) (rest : List ι) (retry left : Bool) :
    SparkPc ι α :=
  if victim = cap then
    if caps.length = 1 then .idle else .visit caps left
  else .visit rest (retry || left)

/-- The head of the loop over the capabilities; `empty` is `emptySparkPoolCap`. -/
def nextVictim (cap : ι) (retry empty : Bool) : List ι → SparkPc ι α
  | [] => if retry then .rob cap [] false else .idle
  | robbed :: rest =>
    if cap = robbed then .visit rest retry
    else if empty then .visit rest retry
    else .rob robbed rest retry

/-- A pool whose capability counted something. -/
def PoolState.withStats (s : PoolState ι α) (stats : SparkCounters) : PoolState ι α :=
  { s with stats := stats }

/-- The counters of a capability change. -/
def setStats (pools : ι → PoolState ι α) (cap : ι) (stats : SparkCounters) :
    ι → PoolState ι α :=
  Function.update pools cap ((pools cap).withStats stats)

/-- The steps of the capabilities in `caps`.  Whether a spark has fizzled and whether a pool
looks empty is not decided here: closures and pools change all the time. -/
inductive CapStep (caps : List ι) : CapState ι α → CapState ι α → Prop
  | newSpark {s : CapState ι α} {cap : ι} (p : α) :
      s.pc cap = .idle → s.collecting = false →
      CapStep caps s { s with pc := Function.update s.pc cap (.newSpark p) }
  | dud {s : CapState ι α} {cap : ι} {p : α} {stats : SparkCounters} :
      s.pc cap = .newSpark p →
      stats = { (s.pools cap).stats with dud := (s.pools cap).stats.dud + 1 } →
      CapStep caps s
        { s with
          pools := setStats s.pools cap stats
          pc := Function.update s.pc cap .idle }
  | push {s : CapState ι α} {cap : ι} {p : α} {pool : PoolState ι α} :
      s.pc cap = .newSpark p →
      PoolStep (s.pools cap) (some (.call .owner (.push p))) pool →
      CapStep caps s
        { s with
          pools := Function.update s.pools cap pool
          pc := Function.update s.pc cap .pushing }
  | pushReturns {s : CapState ι α} {cap : ι} {ok : Bool} {pool : PoolState ι α} :
      s.pc cap = .pushing →
      PoolStep (s.pools cap) (some (.ret .owner (.pushed ok))) pool →
      CapStep caps s
        { s with
          pools := Function.update s.pools cap pool
          pc := Function.update s.pc cap (.pushed ok) }
  | counted {s : CapState ι α} {cap : ι} {ok : Bool} :
      s.pc cap = .pushed ok →
      CapStep caps s
        { s with
          pools := setStats s.pools cap (countPush (s.pools cap).stats ok)
          pc := Function.update s.pc cap .idle }
  | findSpark {s : CapState ι α} {cap : ι} :
      s.pc cap = .idle → s.collecting = false →
      CapStep caps s { s with pc := Function.update s.pc cap (.rob cap [] false) }
  | steal {s : CapState ι α} {cap victim : ι} {rest : List ι} {retry : Bool}
      {pool : PoolState ι α} :
      s.pc cap = .rob victim rest retry →
      PoolStep (s.pools victim) (some (.call (.thief cap) (.steal false))) pool →
      CapStep caps s
        { s with
          pools := Function.update s.pools victim pool
          pc := Function.update s.pc cap (.stealing victim rest retry) }
  | stealReturns {s : CapState ι α} {cap victim : ι} {rest : List ι} {retry : Bool}
      {spark : Option α} {pool : PoolState ι α} :
      s.pc cap = .stealing victim rest retry →
      PoolStep (s.pools victim) (some (.ret (.thief cap) (.taken spark))) pool →
      CapStep caps s
        { s with
          pools := Function.update s.pools victim pool
          pc := Function.update s.pc cap (.stolen victim rest retry spark) }
  | fizzled {s : CapState ι α} {cap victim : ι} {rest : List ι} {retry : Bool} {spark : α}
      {stats : SparkCounters} :
      s.pc cap = .stolen victim rest retry (some spark) →
      stats = { (s.pools cap).stats with fizzled := (s.pools cap).stats.fizzled + 1 } →
      CapStep caps s
        { s with
          pools := setStats s.pools cap stats
          pc := Function.update s.pc cap (.rob victim rest retry) }
  | converted {s : CapState ι α} {cap victim : ι} {rest : List ι} {retry : Bool} {spark : α}
      {stats : SparkCounters} :
      s.pc cap = .stolen victim rest retry (some spark) →
      stats = { (s.pools cap).stats with converted := (s.pools cap).stats.converted + 1 } →
      CapStep caps s
        { s with
          pools := setStats s.pools cap stats
          pc := Function.update s.pc cap .idle }
  | missed {s : CapState ι α} {cap victim : ι} {rest : List ι} {retry : Bool} (left : Bool) :
      s.pc cap = .stolen victim rest retry none →
      CapStep caps s
        { s with pc := Function.update s.pc cap (afterMiss caps cap victim rest retry left) }
  | visit {s : CapState ι α} {cap : ι} {rest : List ι} {retry : Bool} (empty : Bool) :
      s.pc cap = .visit rest retry →
      CapStep caps s { s with pc := Function.update s.pc cap (nextVictim cap retry empty rest) }
  | poolMove {s : CapState ι α} {d : ι} {pool : PoolState ι α} :
      PoolStep (s.pools d) none pool →
      CapStep caps s { s with pools := Function.update s.pools d pool }
  | stopWorld {s : CapState ι α} :
      (∀ cap, s.pc cap = .idle) → s.collecting = false →
      CapStep caps s { s with collecting := true }
  | collect {s : CapState ι α} {d : ι} {o : PoolOp α} {pool : PoolState ι α} :
      s.collecting = true →
      PoolStep (s.pools d) (some (.call .collector o)) pool →
      CapStep caps s { s with pools := Function.update s.pools d pool }
  | collected {s : CapState ι α} {d : ι} {pool : PoolState ι α} :
      PoolStep (s.pools d) (some (.ret .collector .collected)) pool →
      CapStep caps s { s with pools := Function.update s.pools d pool }
  | restartWorld {s : CapState ι α} :
      s.collecting = true → (∀ d, (s.pools d).collector = .idle) →
      CapStep caps s { s with collecting := false }

/-- All capabilities start with empty pools of `size` sparks and zero counters. -/
def capabilities (caps : List ι) (size : Nat) (dataspace : ι → Nat → α) :
    TransitionSystem (CapState ι α) Empty where
  init s := (∀ d, (sparkPool ι size (dataspace d)).init (s.pools d) ∧
      (s.pools d).stats = ⟨0, 0, 0, 0, 0, 0⟩) ∧
    (∀ cap, s.pc cap = .idle) ∧ s.collecting = false
  step s label t := label = none ∧ CapStep caps s t

end

/-- `checkSparkCountInvariant`. -/
def checkSparkCountInvariant [Fintype ι] (s : CapState ι α) : Prop :=
  (∑ i, ((s.pools i).stats.created : Int)) =
    (∑ i, ((s.pools i).stats.converted : Int)) + (∑ i, (s.pools i).pool.dequeElements) +
      (∑ i, ((s.pools i).stats.gcd : Int)) + ∑ i, ((s.pools i).stats.fizzled : Int)

/-! ## Who is busy where -/

/-- A thread of a pool is at work only if its capability is in the call. -/
structure Busy (pools : ι → PoolState ι α) (pc : ι → SparkPc ι α) : Prop where
  owner : ∀ cap, (pools cap).owner ≠ .idle → pc cap = .pushing
  thief : ∀ d cap, (pools d).thief cap ≠ .idle →
    ∃ rest retry, pc cap = .stealing d rest retry

/-- The capability is between two calls of a pool. -/
def SparkPc.Between : SparkPc ι α → Prop
  | .pushing => False
  | .stealing _ _ _ => False
  | _ => True

section

variable [DecidableEq ι] {pools : ι → PoolState ι α} {pc : ι → SparkPc ι α}

omit [DecidableEq ι] in
/-- A capability between two calls uses no pool. -/
theorem Busy.idle_of (h : Busy pools pc) {cap : ι} (hpc : (pc cap).Between) :
    (pools cap).owner = .idle ∧ ∀ d, (pools d).thief cap = .idle := by
  refine ⟨?_, fun d => ?_⟩
  · by_contra hne
    rw [h.owner cap hne] at hpc
    exact hpc
  · by_contra hne
    obtain ⟨rest, retry, hsteal⟩ := h.thief d cap hne
    rw [hsteal] at hpc
    exact hpc

omit [DecidableEq ι] in
/-- A capability that pushes steals nowhere. -/
theorem Busy.thief_of_pushing (h : Busy pools pc) {cap : ι} (hpc : pc cap = .pushing) (d : ι) :
    (pools d).thief cap = .idle := by
  by_contra hne
  obtain ⟨rest, retry, hsteal⟩ := h.thief d cap hne
  rw [hpc] at hsteal
  cases hsteal

omit [DecidableEq ι] in
/-- A capability that steals does not push, and it steals from one pool only. -/
theorem Busy.of_stealing (h : Busy pools pc) {cap victim : ι} {rest : List ι} {retry : Bool}
    (hpc : pc cap = .stealing victim rest retry) :
    (pools cap).owner = .idle ∧ ∀ d, d ≠ victim → (pools d).thief cap = .idle := by
  refine ⟨?_, fun d hd => ?_⟩
  · by_contra hne
    have hpush := h.owner cap hne
    rw [hpc] at hpush
    cases hpush
  · by_contra hne
    obtain ⟨rest', retry', hsteal⟩ := h.thief d cap hne
    rw [hpc] at hsteal
    cases hsteal
    exact hd rfl

/-- A capability that uses no pool moves on. -/
theorem Busy.setPc (h : Busy pools pc) {cap : ι}
    (hidle : (pools cap).owner = .idle ∧ ∀ d, (pools d).thief cap = .idle)
    (next : SparkPc ι α) : Busy pools (Function.update pc cap next) := by
  refine ⟨fun c hc => ?_, fun d c hc => ?_⟩
  · by_cases hcap : c = cap
    · rw [hcap] at hc
      exact absurd hidle.1 hc
    · rw [Function.update_of_ne hcap]
      exact h.owner c hc
  · by_cases hcap : c = cap
    · rw [hcap] at hc
      exact absurd (hidle.2 d) hc
    · rw [Function.update_of_ne hcap]
      exact h.thief d c hc

/-- A pool changes; whoever is at work in it is in a call. -/
theorem Busy.setPool (h : Busy pools pc) {d : ι} {pool : PoolState ι α}
    (howner : pool.owner ≠ .idle → pc d = .pushing)
    (hthief : ∀ i, pool.thief i ≠ .idle → ∃ rest retry, pc i = .stealing d rest retry) :
    Busy (Function.update pools d pool) pc := by
  refine ⟨fun c hc => ?_, fun e c hc => ?_⟩
  · by_cases hd : c = d
    · subst hd
      rw [Function.update_self] at hc
      exact howner hc
    · rw [Function.update_of_ne hd] at hc
      exact h.owner c hc
  · by_cases hd : e = d
    · subst hd
      rw [Function.update_self] at hc
      exact hthief c hc
    · rw [Function.update_of_ne hd] at hc
      exact h.thief e c hc

/-- No step sets a thread to work except the call it makes. -/
theorem PoolStep.busy {s t : PoolState ι α}
    {label : Option (CallEvent (PoolThread ι) (PoolOp α) (Answer α))}
    (hstep : PoolStep s label t) :
    (t.owner ≠ .idle → s.owner ≠ .idle ∨ ∃ o, label = some (.call .owner o)) ∧
      ∀ i, t.thief i ≠ .idle → s.thief i ≠ .idle ∨ ∃ o, label = some (.call (.thief i) o) := by
  have hupdate : ∀ {i j : ι} {next : ThiefPc α},
      Function.update s.thief i next j ≠ .idle → j = i ∨ s.thief j ≠ .idle := by
    intro i j next hne
    by_cases hij : j = i
    · exact .inl hij
    · rw [Function.update_of_ne hij] at hne
      exact .inr hne
  cases hstep with
  | push elem _ _ => exact ⟨fun _ => .inr ⟨_, rfl⟩, fun _ h => .inl h⟩
  | pop _ _ => exact ⟨fun _ => .inr ⟨_, rfl⟩, fun _ h => .inl h⟩
  | ownerMove hmove =>
    refine ⟨fun _ => .inl fun hidle => ?_, fun _ h => .inl h⟩
    rw [hidle] at hmove
    cases hmove
  | ownerRet _ => exact ⟨fun h => absurd rfl h, fun _ h => .inl h⟩
  | @steal i retries _ _ =>
    refine ⟨fun h => .inl h, fun j hj => ?_⟩
    rcases hupdate hj with rfl | hne
    · exact .inr ⟨_, rfl⟩
    · exact .inl hne
  | @thiefMove i pool next hmove =>
    refine ⟨fun h => .inl h, fun j hj => .inl ?_⟩
    rcases hupdate hj with rfl | hne
    · intro hidle
      rw [hidle] at hmove
      cases hmove
    · exact hne
  | @thiefRet i removed hdone =>
    refine ⟨fun h => .inl h, fun j hj => .inl ?_⟩
    rcases hupdate hj with rfl | hne
    · rw [hdone]
      exact fun hc => by cases hc
    · exact hne
  | stopWorld heap _ _ _ => exact ⟨fun h => .inl h, fun _ h => .inl h⟩
  | interrupt _ _ _ => exact ⟨fun h => .inl h, fun _ h => .inl h⟩
  | prune _ _ => exact ⟨fun h => .inl h, fun _ h => .inl h⟩
  | discard _ => exact ⟨fun h => .inl h, fun _ h => .inl h⟩
  | restartWorld _ => exact ⟨fun h => .inl h, fun _ h => .inl h⟩

/-- A return puts its thread to rest. -/
theorem PoolStep.rest {s t : PoolState ι α} {j : PoolThread ι} {answer : Answer α}
    (hstep : PoolStep s (some (.ret j answer)) t) :
    (j = .owner → t.owner = .idle) ∧ ∀ i, j = .thief i → t.thief i = .idle := by
  cases hstep with
  | ownerRet _ => exact ⟨fun _ => rfl, fun _ h => (by cases h)⟩
  | thiefRet _ =>
    refine ⟨fun h => (by cases h), fun i h => ?_⟩
    cases h
    exact Function.update_self _ _ _
  | restartWorld _ => exact ⟨fun h => (by cases h), fun _ h => (by cases h)⟩

end

/-! ## The account of a pool -/

section

variable [Fintype ι]

/-- What the counters of a capability say it put into the pools and did not see again. -/
def sparkCredit (stats : SparkCounters) : Int :=
  stats.created - stats.converted - stats.gcd - stats.fizzled

/-- What a pool holds beyond what the counters say. -/
def sparkAccount (s : PoolState ι α) : Int := sparkDebt s - sparkCredit s.stats

/-- A push or a steal that returned and was not counted yet. -/
def pcCredit : SparkPc ι α → Int
  | .pushed ok => answerCredit (.pushed ok : Answer α)
  | .stolen _ _ _ spark => answerCredit (.taken spark)
  | _ => 0

theorem sparkAccount_step [DecidableEq ι] {capacity : Nat} {s t : PoolState ι α}
    {a : QueueState ι α} {label : Option (CallEvent (PoolThread ι) (PoolOp α) (Answer α))}
    (h : PoolAgrees capacity s a) (hstep : PoolStep s label t) :
    sparkAccount t = sparkAccount s + labelCredit label := by
  obtain ⟨hdebt, hcreated, -, -, hconverted⟩ := sparkDebt_step h hstep
  simp only [sparkAccount, sparkCredit, hcreated, hconverted]
  omega

theorem sparkAccount_stats (s : PoolState ι α) (stats : SparkCounters) :
    sparkAccount (s.withStats stats) =
      sparkAccount s + sparkCredit s.stats - sparkCredit stats := by
  have hdebt : sparkDebt (s.withStats stats) = sparkDebt s := rfl
  have hstats : (s.withStats stats).stats = stats := rfl
  simp only [sparkAccount, hdebt, hstats]
  omega

end

/-! ## Every run of the capabilities -/

section

variable [Fintype ι] [DecidableEq ι] {capacity : Nat} {s : CapState ι α}

/-- What holds between any two steps of the capabilities. -/
structure CapInv (capacity : Nat) (s : CapState ι α) : Prop where
  pools : ∀ d, ∃ a, PoolAgrees capacity (s.pools d) a
  busy : Busy s.pools s.pc
  balance : ∑ d, sparkAccount (s.pools d) = ∑ cap, pcCredit (s.pc cap)

omit [Fintype ι] in
theorem poolAgrees_update {pools : ι → PoolState ι α}
    (h : ∀ d, ∃ a, PoolAgrees capacity (pools d) a) {d : ι} {pool : PoolState ι α}
    (hpool : ∃ a, PoolAgrees capacity pool a) (e : ι) :
    ∃ a, PoolAgrees capacity (Function.update pools d pool e) a := by
  by_cases he : e = d
  · subst he
    rw [Function.update_self]
    exact hpool
  · rw [Function.update_of_ne he]
    exact h e

/-- Only a program counter changes, by nothing that counts. -/
theorem CapInv.local (h : CapInv capacity s) {cap : ι} {next : SparkPc ι α}
    (hbetween : (s.pc cap).Between) (hcredit : pcCredit next = pcCredit (s.pc cap)) :
    CapInv capacity { s with pc := Function.update s.pc cap next } := by
  refine ⟨h.pools, h.busy.setPc (h.busy.idle_of hbetween) next, ?_⟩
  have hpc := sum_update (fun _ => pcCredit) s.pc cap next
  have hbalance := h.balance
  show ∑ d, sparkAccount (s.pools d) = ∑ c, pcCredit (Function.update s.pc cap next c)
  rw [hpc]
  omega

/-- A capability counts: its counters and its program counter change together. -/
theorem CapInv.count (h : CapInv capacity s) {cap : ι} {next : SparkPc ι α}
    {stats : SparkCounters} (hbetween : (s.pc cap).Between)
    (hcredit : sparkCredit stats + pcCredit next =
      sparkCredit (s.pools cap).stats + pcCredit (s.pc cap)) :
    CapInv capacity
      { s with
        pools := setStats s.pools cap stats
        pc := Function.update s.pc cap next } := by
  obtain ⟨a, ha⟩ := h.pools cap
  have hidle := h.busy.idle_of hbetween
  have hbusy : Busy (setStats s.pools cap stats) s.pc :=
    h.busy.setPool (fun hne => absurd hidle.1 hne) (fun i hne => h.busy.thief cap i hne)
  have hidle' : (setStats s.pools cap stats cap).owner = .idle ∧
      ∀ d, (setStats s.pools cap stats d).thief cap = .idle := by
    refine ⟨?_, fun d => ?_⟩
    · rw [setStats, Function.update_self]
      exact hidle.1
    · by_cases hd : d = cap
      · rw [setStats, hd, Function.update_self]
        exact hidle.2 cap
      · rw [setStats, Function.update_of_ne hd]
        exact hidle.2 d
  refine ⟨?_, hbusy.setPc hidle' next, ?_⟩
  · exact poolAgrees_update h.pools
      ⟨a, ha.owner, ha.thief, ha.stopped, ha.capacity, ha.value, ha.ownerPhase, ha.thiefPhase,
        ha.collectorPhase, ha.raced⟩
  · have hpools := sum_update (fun _ => sparkAccount) s.pools cap
      ((s.pools cap).withStats stats)
    have hpc := sum_update (fun _ => pcCredit) s.pc cap next
    have hstats := sparkAccount_stats (s.pools cap) stats
    have hbalance := h.balance
    show ∑ d, sparkAccount (setStats s.pools cap stats d) =
      ∑ c, pcCredit (Function.update s.pc cap next c)
    rw [setStats, hpools, hpc]
    omega

/-- A pool moves on its own, or for the collector. -/
theorem CapInv.pool (h : CapInv capacity s) {d : ι} {pool : PoolState ι α}
    {label : Option (CallEvent (PoolThread ι) (PoolOp α) (Answer α))}
    (hstep : PoolStep (s.pools d) label pool) (hcredit : labelCredit label = 0)
    (howner : ∀ o, label ≠ some (.call .owner o))
    (hthief : ∀ i o, label ≠ some (.call (.thief i) o)) :
    CapInv capacity { s with pools := Function.update s.pools d pool } := by
  obtain ⟨a, ha⟩ := h.pools d
  obtain ⟨b, -, hb⟩ := ha.step hstep
  obtain ⟨hbusyOwner, hbusyThief⟩ := hstep.busy
  refine ⟨poolAgrees_update h.pools ⟨b, hb⟩, h.busy.setPool (fun hne => ?_) (fun i hne => ?_), ?_⟩
  · rcases hbusyOwner hne with hold | ⟨o, ho⟩
    · exact h.busy.owner d hold
    · exact absurd ho (howner o)
  · rcases hbusyThief i hne with hold | ⟨o, ho⟩
    · exact h.busy.thief d i hold
    · exact absurd ho (hthief i o)
  · have hpools := sum_update (fun _ => sparkAccount) s.pools d pool
    have haccount := sparkAccount_step ha hstep
    have hbalance := h.balance
    show ∑ e, sparkAccount (Function.update s.pools d pool e) = _
    rw [hpools]
    show _ = ∑ c, pcCredit (s.pc c)
    omega

/-- A capability calls an operation on a pool. -/
theorem CapInv.call (h : CapInv capacity s) {cap d : ι} {next : SparkPc ι α}
    {pool : PoolState ι α} {j : PoolThread ι} {o : PoolOp α}
    (hstep : PoolStep (s.pools d) (some (.call j o)) pool)
    (hbetween : (s.pc cap).Between) (hcredit : pcCredit next = pcCredit (s.pc cap))
    (howner : j = .owner → d = cap ∧ next = .pushing)
    (hthief : ∀ i, j = .thief i → i = cap ∧ ∃ rest retry, next = .stealing d rest retry) :
    CapInv capacity
      { s with
        pools := Function.update s.pools d pool
        pc := Function.update s.pc cap next } := by
  obtain ⟨a, ha⟩ := h.pools d
  obtain ⟨b, -, hb⟩ := ha.step hstep
  obtain ⟨hbusyOwner, hbusyThief⟩ := hstep.busy
  have hbusy := h.busy.setPc (h.busy.idle_of hbetween) next
  refine ⟨poolAgrees_update h.pools ⟨b, hb⟩, hbusy.setPool (fun hne => ?_) (fun i hne => ?_), ?_⟩
  · rcases hbusyOwner hne with hold | ⟨o', ho⟩
    · exact hbusy.owner d hold
    · cases ho
      obtain ⟨rfl, rfl⟩ := howner rfl
      exact Function.update_self _ _ _
  · rcases hbusyThief i hne with hold | ⟨o', ho⟩
    · exact hbusy.thief d i hold
    · cases ho
      obtain ⟨rfl, rest, retry, rfl⟩ := hthief i rfl
      exact ⟨rest, retry, Function.update_self _ _ _⟩
  · have hpools := sum_update (fun _ => sparkAccount) s.pools d pool
    have hpc := sum_update (fun _ => pcCredit) s.pc cap next
    have haccount := sparkAccount_step ha hstep
    have hbalance := h.balance
    simp only [labelCredit] at haccount
    show ∑ e, sparkAccount (Function.update s.pools d pool e) =
      ∑ c, pcCredit (Function.update s.pc cap next c)
    rw [hpools, hpc]
    omega

/-- The call returns, and what it brought is not counted yet. -/
theorem CapInv.ret (h : CapInv capacity s) {cap d : ι} {next : SparkPc ι α}
    {pool : PoolState ι α} {j : PoolThread ι} {answer : Answer α}
    (hstep : PoolStep (s.pools d) (some (.ret j answer)) pool)
    (hold : pcCredit (s.pc cap) = 0) (hcredit : pcCredit next = answerCredit answer)
    (howner : pool.owner ≠ .idle → d ≠ cap) (hthief : pool.thief cap = .idle)
    (hother : (∀ e, e ≠ d → (s.pools e).thief cap = .idle) ∧
      (cap ≠ d → (s.pools cap).owner = .idle)) :
    CapInv capacity
      { s with
        pools := Function.update s.pools d pool
        pc := Function.update s.pc cap next } := by
  obtain ⟨a, ha⟩ := h.pools d
  obtain ⟨b, -, hb⟩ := ha.step hstep
  obtain ⟨hbusyOwner, hbusyThief⟩ := hstep.busy
  have hbusy : Busy (Function.update s.pools d pool) s.pc := by
    refine h.busy.setPool (fun hne => ?_) (fun i hne => ?_)
    · rcases hbusyOwner hne with hold | ⟨o, ho⟩
      · exact h.busy.owner d hold
      · cases ho
    · rcases hbusyThief i hne with hold | ⟨o, ho⟩
      · exact h.busy.thief d i hold
      · cases ho
  refine ⟨poolAgrees_update h.pools ⟨b, hb⟩, hbusy.setPc ⟨?_, fun e => ?_⟩ next, ?_⟩
  · by_cases hd : cap = d
    · subst hd
      rw [Function.update_self]
      by_contra hne
      exact howner hne rfl
    · rw [Function.update_of_ne hd]
      exact hother.2 hd
  · by_cases he : e = d
    · subst he
      rw [Function.update_self]
      exact hthief
    · rw [Function.update_of_ne he]
      exact hother.1 e he
  · have hpools := sum_update (fun _ => sparkAccount) s.pools d pool
    have hpc := sum_update (fun _ => pcCredit) s.pc cap next
    have haccount := sparkAccount_step ha hstep
    have hbalance := h.balance
    simp only [labelCredit] at haccount
    show ∑ e, sparkAccount (Function.update s.pools d pool e) =
      ∑ c, pcCredit (Function.update s.pc cap next c)
    rw [hpools, hpc]
    omega

/-- The push of a capability returns. -/
theorem CapInv.pushReturns (h : CapInv capacity s) {cap : ι} {ok : Bool} {pool : PoolState ι α}
    (hpc : s.pc cap = .pushing)
    (hret : PoolStep (s.pools cap) (some (.ret .owner (.pushed ok))) pool) :
    CapInv capacity
      { s with
        pools := Function.update s.pools cap pool
        pc := Function.update s.pc cap (.pushed ok) } := by
  have hnosteal := h.busy.thief_of_pushing hpc
  refine h.ret hret (by rw [hpc]; rfl) rfl ?_ ?_ ⟨fun e _ => hnosteal e, fun hne => ?_⟩
  · intro hne
    exact absurd (hret.rest.1 rfl) hne
  · by_contra hne
    rcases hret.busy.2 cap hne with hold | ⟨o, ho⟩
    · exact hold (hnosteal cap)
    · cases ho
  · exact absurd rfl hne

/-- The steal of a capability returns. -/
theorem CapInv.stealReturns (h : CapInv capacity s) {cap victim : ι} {rest : List ι}
    {retry : Bool} {spark : Option α} {pool : PoolState ι α}
    (hpc : s.pc cap = .stealing victim rest retry)
    (hret : PoolStep (s.pools victim) (some (.ret (.thief cap) (.taken spark))) pool) :
    CapInv capacity
      { s with
        pools := Function.update s.pools victim pool
        pc := Function.update s.pc cap (.stolen victim rest retry spark) } := by
  obtain ⟨hnopush, helsewhere⟩ := h.busy.of_stealing hpc
  refine h.ret hret (by rw [hpc]; rfl) rfl ?_ (hret.rest.2 cap rfl)
    ⟨helsewhere, fun _ => hnopush⟩
  rintro hne rfl
  rcases hret.busy.1 hne with hold | ⟨o, ho⟩
  · exact hold hnopush
  · cases ho

/-- A push that succeeded is counted once. -/
theorem sparkCredit_countPush (stats : SparkCounters) (ok : Bool) :
    sparkCredit (countPush stats ok) = sparkCredit stats + answerCredit (.pushed ok : Answer α) := by
  cases ok with
  | true =>
    simp only [countPush, answerCredit, sparkCredit, if_true]
    push_cast
    omega
  | false => simp [countPush, answerCredit, sparkCredit]

omit [Fintype ι] in
/-- Where `findSpark` goes after a miss there is nothing to count. -/
theorem pcCredit_afterMiss (caps : List ι) (cap victim : ι) (rest : List ι) (retry left : Bool) :
    pcCredit (afterMiss caps cap victim rest retry left : SparkPc ι α) = 0 := by
  unfold afterMiss
  split
  · split <;> rfl
  · rfl

omit [Fintype ι] in
/-- Nor in the loop over the capabilities. -/
theorem pcCredit_nextVictim (cap : ι) (retry empty : Bool) (rest : List ι) :
    pcCredit (nextVictim cap retry empty rest : SparkPc ι α) = 0 := by
  unfold nextVictim
  split
  · split <;> rfl
  · split
    · rfl
    · split <;> rfl

/-- Every step of a capability, of a pool or of the collector. -/
theorem CapInv.step (h : CapInv capacity s) {caps : List ι} {t : CapState ι α}
    (hstep : CapStep caps s t) : CapInv capacity t := by
  cases hstep with
  | newSpark p hpc _ => exact h.local (by rw [hpc]; trivial) (by rw [hpc]; rfl)
  | dud hpc hstats =>
    refine h.count (by rw [hpc]; trivial) ?_
    rw [hpc, hstats]
    rfl
  | push hpc hcall =>
    exact h.call hcall (by rw [hpc]; trivial) (by rw [hpc]; rfl) (fun _ => ⟨rfl, rfl⟩)
      (fun _ hj => by cases hj)
  | pushReturns hpc hret => exact h.pushReturns hpc hret
  | @counted cap ok hpc =>
    have hcount := @sparkCredit_countPush α (s.pools cap).stats ok
    refine h.count (by rw [hpc]; trivial) ?_
    rw [hpc, hcount]
    exact Int.add_zero _
  | findSpark hpc _ => exact h.local (by rw [hpc]; trivial) (by rw [hpc]; rfl)
  | @steal cap victim rest retry pool hpc hcall =>
    exact h.call hcall (by rw [hpc]; trivial) (by rw [hpc]; rfl) (fun hj => by cases hj)
      (fun i hj => ⟨by cases hj; rfl, rest, retry, rfl⟩)
  | stealReturns hpc hret => exact h.stealReturns hpc hret
  | fizzled hpc hstats | converted hpc hstats =>
    refine h.count (by rw [hpc]; trivial) ?_
    rw [hpc, hstats]
    simp only [pcCredit, answerCredit, sparkCredit]
    push_cast
    omega
  | missed left hpc =>
    refine h.local (by rw [hpc]; trivial) ?_
    rw [hpc, pcCredit_afterMiss]
    rfl
  | visit empty hpc =>
    refine h.local (by rw [hpc]; trivial) ?_
    rw [hpc, pcCredit_nextVictim]
    rfl
  | poolMove hmove =>
    exact h.pool hmove rfl (fun _ hc => by cases hc) (fun _ _ hc => by cases hc)
  | stopWorld _ _ => exact ⟨h.pools, h.busy, h.balance⟩
  | collect _ hcall =>
    exact h.pool hcall rfl (fun _ hc => by cases hcall <;> cases hc)
      (fun _ _ hc => by cases hcall <;> cases hc)
  | collected hret =>
    exact h.pool hret rfl (fun _ hc => by cases hc) (fun _ _ hc => by cases hc)
  | restartWorld _ _ => exact ⟨h.pools, h.busy, h.balance⟩

/-- The invariant holds in every state that the capabilities reach. -/
theorem capInv_invariant (caps : List ι) (size : Nat) (dataspace : ι → Nat → α) :
    (capabilities caps size dataspace).Invariant (CapInv (poolCapacity size)) where
  init s hinit := by
    obtain ⟨hpools, hpc, -⟩ := hinit
    have hagrees : ∀ d, ∃ a, PoolAgrees (poolCapacity size) (s.pools d) a := fun d => by
      obtain ⟨a, -, ha⟩ := (sparkPool_simulation size (dataspace d)).init _ (hpools d).1
      exact ⟨a, ha⟩
    refine ⟨hagrees, ⟨fun cap hne => ?_, fun d cap hne => ?_⟩, ?_⟩
    · exact absurd (hpools cap).1.2.1 hne
    · exact absurd ((hpools d).1.2.2.1 cap) hne
    · have haccount : ∀ d, sparkAccount (s.pools d) = 0 := fun d => by
        obtain ⟨⟨hnew, howner, hthief, -⟩, hstats⟩ := hpools d
        obtain ⟨-, htop, hbottom, -⟩ := newWSDeque_spec hnew
        have hthieves : ∑ i, thiefCredit ((s.pools d).thief i) = 0 :=
          Finset.sum_eq_zero fun i _ => by rw [hthief i]; rfl
        simp only [sparkAccount, sparkDebt, hstats, howner, limit, hthieves]
        rw [WSDeque.contents_of_le (by omega)]
        rfl
      have hcredit : ∀ cap, pcCredit (s.pc cap) = 0 := fun cap => by
        rw [hpc cap]
        rfl
      rw [Finset.sum_eq_zero fun d _ => haccount d, Finset.sum_eq_zero fun c _ => hcredit c]
  step _ _ _ h hstep := h.step hstep.2

/-- The spark count invariant of the source: in every state of every run of the
capabilities in which none of them is in the middle of creating or finding a spark, also
while the world is stopped,
`created = converted + remaining + gcd + fizzled` over all of them. -/
theorem checkSparkCountInvariant_of_reachable (caps : List ι) (size : Nat)
    (dataspace : ι → Nat → α) {t : CapState ι α}
    (ht : (capabilities caps size dataspace).Reachable t) (hidle : ∀ cap, t.pc cap = .idle) :
    checkSparkCountInvariant t := by
  have h := (capInv_invariant caps size dataspace).of_reachable ht
  have hbalance := h.balance
  have hcredit : ∑ cap, pcCredit (t.pc cap) = 0 :=
    Finset.sum_eq_zero fun c _ => by rw [hidle c]; rfl
  have haccount : ∀ d, sparkAccount (t.pools d) =
      (t.pools d).pool.dequeElements - sparkCredit (t.pools d).stats := fun d => by
    obtain ⟨a, ha⟩ := h.pools d
    have hfree : ∀ cap, (t.pools cap).owner = .idle ∧ ∀ e, (t.pools e).thief cap = .idle :=
      fun cap => h.busy.idle_of (by rw [hidle]; trivial)
    have howner := (hfree d).1
    have hthieves : ∑ i, thiefCredit ((t.pools d).thief i) = 0 :=
      Finset.sum_eq_zero fun i _ => by rw [(hfree i).2 d]; rfl
    have hle := (ha.quiet howner).top_le
    simp only [sparkAccount, sparkDebt, howner, limit, hthieves]
    rw [WSDeque.contents_length, WSDeque.dequeElements]
    simp only [ownerCredit]
    omega
  rw [hcredit, Finset.sum_congr rfl fun d _ => haccount d] at hbalance
  simp only [sparkCredit, Finset.sum_sub_distrib] at hbalance
  unfold checkSparkCountInvariant
  omega

end

/-- Two capabilities, about to start. -/
def freshCapabilities : CapState Bool Nat where
  pools _ := idlePool
  pc _ := .idle
  collecting := false

/-- One capability makes a spark; the other finds its own pool empty and steals it. -/
theorem checkSparkCountInvariant_stolen :
    ∃ t : CapState Bool Nat, (t.pools true).stats.created = 1 ∧
      (t.pools false).stats.converted = 1 ∧ checkSparkCountInvariant t := by
  have hnew := Run.single (S := capabilities [true, false] 2 fun _ _ => 0)
    ⟨rfl, @CapStep.newSpark _ _ _ _ freshCapabilities true 7 rfl rfl⟩
  have hcall := Run.snoc hnew ⟨rfl, @CapStep.push _ _ _ _ _ true _ _ rfl (PoolStep.push 7 rfl rfl)⟩
  have htest := Run.snoc hcall ⟨rfl, CapStep.poolMove (d := true) (PoolStep.ownerMove rfl)⟩
  have hwrite := Run.snoc htest ⟨rfl, CapStep.poolMove (d := true) (PoolStep.ownerMove rfl)⟩
  have hpublish := Run.snoc hwrite ⟨rfl, CapStep.poolMove (d := true) (PoolStep.ownerMove rfl)⟩
  have hret := Run.snoc hpublish
    ⟨rfl, @CapStep.pushReturns _ _ _ _ _ true _ _ rfl (PoolStep.ownerRet rfl)⟩
  have hcounted := Run.snoc hret ⟨rfl, @CapStep.counted _ _ _ _ _ true _ rfl⟩
  -- the other capability looks into its own pool first
  have hfind := Run.snoc hcounted ⟨rfl, @CapStep.findSpark _ _ _ _ _ false rfl rfl⟩
  have hown := Run.snoc hfind
    ⟨rfl, @CapStep.steal _ _ _ _ _ false _ _ _ _ rfl (PoolStep.steal false rfl rfl)⟩
  have hownTop := Run.snoc hown
    ⟨rfl, CapStep.poolMove (d := false) (PoolStep.thiefMove (i := false) rfl)⟩
  have hownBottom := Run.snoc hownTop
    ⟨rfl, CapStep.poolMove (d := false) (PoolStep.thiefMove (i := false) rfl)⟩
  have hnothing := Run.snoc hownBottom
    ⟨rfl, @CapStep.stealReturns _ _ _ _ _ false _ _ _ _ _ rfl (PoolStep.thiefRet rfl)⟩
  have hmissed := Run.snoc hnothing ⟨rfl, @CapStep.missed _ _ _ _ _ false _ _ _ false rfl⟩
  have hvisit := Run.snoc hmissed ⟨rfl, @CapStep.visit _ _ _ _ _ false _ _ false rfl⟩
  -- and then robs the first
  have hrob := Run.snoc hvisit
    ⟨rfl, @CapStep.steal _ _ _ _ _ false _ _ _ _ rfl (PoolStep.steal false rfl rfl)⟩
  have htop := Run.snoc hrob
    ⟨rfl, CapStep.poolMove (d := true) (PoolStep.thiefMove (i := false) rfl)⟩
  have hbottom := Run.snoc htop
    ⟨rfl, CapStep.poolMove (d := true) (PoolStep.thiefMove (i := false) rfl)⟩
  have hread := Run.snoc hbottom
    ⟨rfl, CapStep.poolMove (d := true) (PoolStep.thiefMove (i := false) rfl)⟩
  have hcas := Run.snoc hread
    ⟨rfl, CapStep.poolMove (d := true) (PoolStep.thiefMove (i := false) rfl)⟩
  have hstolen := Run.snoc hcas
    ⟨rfl, @CapStep.stealReturns _ _ _ _ _ false _ _ _ _ _ rfl (PoolStep.thiefRet rfl)⟩
  have hend := Run.snoc hstolen ⟨rfl, @CapStep.converted _ _ _ _ _ false _ _ _ _ _ rfl rfl⟩
  have hinit : (capabilities [true, false] 2 fun _ _ => 0).init freshCapabilities :=
    ⟨fun _ => ⟨idlePool_init, rfl⟩, fun _ => rfl, rfl⟩
  refine ⟨_, ?_, ?_, checkSparkCountInvariant_of_reachable [true, false] 2 (fun _ _ => 0)
    ⟨_, _, hinit, hend⟩ fun cap => by cases cap <;> rfl⟩
  · rfl
  · rfl

end HosBoot.Rts
