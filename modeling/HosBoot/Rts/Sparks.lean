/-
  Rts/Sparks.lean --- pruning a spark pool after a collection.

  `pruneSparkQueue` compacts the circular array in place: one pass reads the pool from
  `top` to `bottom` and writes the sparks worth keeping from `bottom` on.  The free cell
  between the two ends is what makes it safe.
-/
import HosBoot.Rts.WSDeque

set_option autoImplicit false

namespace HosBoot.Rts

open HosBoot.Foundation

variable {α : Type}

/-- What the collector leaves of a closure: the tests `pruneSparkQueue` makes. -/
structure SparkHeap (α : Type) where
  tagged : α → Bool
  forwardedTo : α → Option α
  shouldSpark : α → Bool
  heapAlloced : α → Bool
  evacuated : α → Bool
  thunkStatic : α → Bool
  staticLinked : α → Bool

/-- What becomes of a spark: it stays, at its new address, or is pruned. -/
inductive SparkFate (α : Type)
  | keep (spark : α)
  | fizzled
  | gcd

/-- The decision the loop of `pruneSparkQueue` takes for one spark. -/
def sparkFate (heap : SparkHeap α) (spark : α) : SparkFate α :=
  if heap.tagged spark then .fizzled
  else
    match heap.forwardedTo spark with
    | some tmp => if heap.shouldSpark tmp then .keep tmp else .fizzled
    | none =>
      if heap.heapAlloced spark then
        if heap.evacuated spark then
          if heap.shouldSpark spark then .keep spark else .fizzled
        else .gcd
      else if heap.thunkStatic spark then
        if heap.staticLinked spark then .keep spark else .gcd
      else .fizzled

/-- The spark that stays, if it does. -/
def SparkFate.kept : SparkFate α → Option α
  | .keep spark => some spark
  | .fizzled => none
  | .gcd => none

/-- `SparkCounters`. -/
structure SparkCounters where
  created : Nat
  dud : Nat
  overflowed : Nat
  converted : Nat
  gcd : Nat
  fizzled : Nat

/-- Counting one spark's fate. -/
def SparkCounters.count (stats : SparkCounters) : SparkFate α → SparkCounters
  | .keep _ => stats
  | .fizzled => { stats with fizzled := stats.fizzled + 1 }
  | .gcd => { stats with gcd := stats.gcd + 1 }

/-! ## The loop -/

/-- The variables of the loop. -/
structure PruneState (α : Type) where
  elements : Nat → α
  currInd : Nat
  botInd : Nat
  stats : SparkCounters

/-- `currInd` and `botInd` at the end of the body: back to zero at the array's end. -/
def wrapInd (size ind : Nat) : Nat := if ind = size then 0 else ind

/-- One turn of the loop. -/
def pruneBody (heap : SparkHeap α) (size : Nat) (s : PruneState α) : PruneState α :=
  let fate := sparkFate heap (s.elements s.currInd)
  let s' : PruneState α :=
    match fate with
    | .keep tmp =>
      { s with
        elements := Function.update s.elements s.botInd tmp
        botInd := s.botInd + 1 }
    | .fizzled => s
    | .gcd => s
  { s' with
    currInd := wrapInd size (s.currInd + 1)
    botInd := wrapInd size s'.botInd
    stats := s.stats.count fate }

/-- `while (currInd != oldBotInd)`; `none` when the turns allowed are used up. -/
def pruneLoop (heap : SparkHeap α) (size oldBotInd : Nat) :
    Nat → PruneState α → Option (PruneState α)
  | 0, s => if s.currInd = oldBotInd then some s else none
  | fuel + 1, s =>
    if s.currInd = oldBotInd then some s
    else pruneLoop heap size oldBotInd fuel (pruneBody heap size s)

/-- The start of `pruneSparkQueue`: the counters are brought back into the array, the bits
of `top` outside the mask are taken off both. -/
def resetCounters (pool : WSDeque α) : WSDeque α :=
  let pool := if pool.top > pool.bottom then pool.setTop pool.bottom else pool
  let masked : Int := pool.slot pool.top
  let pool := pool.setBottom (pool.bottom - (pool.top - masked))
  (pool.setTop masked).setTopBound masked

/-- `pruneSparkQueue`. -/
def pruneSparkQueue (heap : SparkHeap α) (pool : WSDeque α) (stats : SparkCounters) :
    Option (WSDeque α × SparkCounters) :=
  let pool := resetCounters pool
  let oldBotInd := pool.slot pool.bottom
  let start : PruneState α :=
    { elements := pool.elements
      currInd := pool.slot pool.top
      botInd := oldBotInd
      stats := stats }
  match pruneLoop heap pool.size oldBotInd pool.size start with
  | none => none
  | some s =>
    let pool := { pool with elements := s.elements }
    let pool := (pool.setTop oldBotInd).setTopBound oldBotInd
    let bottom := if oldBotInd ≤ s.botInd then s.botInd else s.botInd + pool.size
    some (pool.setBottom bottom, s.stats)

/-! ## What the loop leaves -/

/-- The sparks that survive, at their new addresses. -/
def survivors (heap : SparkHeap α) (sparks : List α) : List α :=
  sparks.filterMap fun spark => (sparkFate heap spark).kept

theorem survivors_cons (heap : SparkHeap α) (spark : α) (rest : List α) :
    survivors heap (spark :: rest) =
      ((sparkFate heap spark).kept).toList ++ survivors heap rest := by
  cases hkept : (sparkFate heap spark).kept with
  | none => simp [survivors, hkept]
  | some tmp => simp [survivors, hkept]

/-- The counters after each of the sparks was counted. -/
def SparkCounters.countAll (stats : SparkCounters) (heap : SparkHeap α) (sparks : List α) :
    SparkCounters :=
  sparks.foldl (fun stats spark => stats.count (sparkFate heap spark)) stats

/-- The loop in the middle of its pass: `rest` is still to be read, at the positions from
`position` on, and `kept` was written behind the old bottom. -/
structure Pruning (size position : Nat) (rest kept : List α) (s : PruneState α) : Prop where
  room : rest.length + kept.length < size
  currInd : s.currInd = position % size
  botInd : s.botInd = (position + rest.length + kept.length) % size
  unread : slice size s.elements position rest.length = rest
  written : slice size s.elements (position + rest.length) kept.length = kept

theorem Pruning.size_pos {size position : Nat} {rest kept : List α} {s : PruneState α}
    (h : Pruning size position rest kept s) : 0 < size := by
  have := h.room
  omega

/-- The loop is over exactly when nothing is left to read. -/
theorem Pruning.currInd_eq_iff {size position : Nat} {rest kept : List α} {s : PruneState α}
    (h : Pruning size position rest kept s) :
    s.currInd = (position + rest.length) % size ↔ rest = [] := by
  rw [h.currInd]
  constructor
  · intro heq
    by_contra hne
    have hlen : 0 < rest.length := List.length_pos_iff.mpr hne
    have hroom := h.room
    exact mod_ne_mod (by omega) (by omega) heq
  · intro hnil
    rw [hnil, List.length_nil, Nat.add_zero]

/-- One turn reads the next spark and keeps or drops it. -/
theorem Pruning.body (heap : SparkHeap α) {size position : Nat} {x : α} {rest kept : List α}
    {s : PruneState α} (h : Pruning size position (x :: rest) kept s) :
    Pruning size (position + 1) rest (kept ++ ((sparkFate heap x).kept).toList)
        (pruneBody heap size s) ∧
      (pruneBody heap size s).stats = s.stats.count (sparkFate heap x) := by
  have hsize := h.size_pos
  have hroom := h.room
  rw [List.length_cons] at hroom
  have hunread := h.unread
  rw [List.length_cons, slice_cons] at hunread
  obtain ⟨hx, hrest⟩ := List.cons.inj hunread
  rw [← h.currInd] at hx
  have hwritten := h.written
  have hshift : position + (x :: rest).length = position + 1 + rest.length := by
    rw [List.length_cons]
    omega
  have hbot := h.botInd
  rw [hshift] at hwritten hbot
  have hcurr : wrapInd size (s.currInd + 1) = (position + 1) % size := by
    rw [h.currInd]
    exact succ_mod_wrap hsize position
  have hkeepBot : wrapInd size s.botInd = (position + 1 + rest.length + kept.length) % size := by
    rw [wrapInd, hbot, if_neg (Nat.mod_lt _ hsize).ne]
  unfold pruneBody
  rw [hx]
  cases hfate : sparkFate heap x with
  | keep tmp =>
    refine ⟨⟨?_, hcurr, ?_, ?_, ?_⟩, rfl⟩
    · simp [SparkFate.kept]
      omega
    · simp only [SparkFate.kept, Option.toList_some, List.length_append, List.length_singleton]
      rw [hbot]
      exact succ_mod_wrap hsize _
    · show slice size (Function.update s.elements s.botInd tmp) _ _ = rest
      rw [hbot, slice_update _ _ (by omega) (by omega)]
      exact hrest
    · show slice size (Function.update s.elements s.botInd tmp) _ _ = _
      simp only [SparkFate.kept, Option.toList_some, List.length_append, List.length_singleton]
      rw [slice_snoc, hbot, slice_update _ _ (le_refl _) (by omega), hwritten,
        Function.update_self]
  | fizzled =>
    refine ⟨⟨?_, hcurr, ?_, hrest, ?_⟩, rfl⟩
    · simp [SparkFate.kept]
      omega
    · simpa [SparkFate.kept] using hkeepBot
    · simpa [SparkFate.kept] using hwritten
  | gcd =>
    refine ⟨⟨?_, hcurr, ?_, hrest, ?_⟩, rfl⟩
    · simp [SparkFate.kept]
      omega
    · simpa [SparkFate.kept] using hkeepBot
    · simpa [SparkFate.kept] using hwritten

/-- The whole pass. -/
theorem pruneLoop_spec (heap : SparkHeap α) {size : Nat} (rest : List α) :
    ∀ {position fuel : Nat} {kept : List α} {s : PruneState α},
      Pruning size position rest kept s → rest.length ≤ fuel →
      ∃ s', pruneLoop heap size ((position + rest.length) % size) fuel s = some s' ∧
        Pruning size (position + rest.length) [] (kept ++ survivors heap rest) s' ∧
        s'.stats = s.stats.countAll heap rest := by
  induction rest with
  | nil =>
    intro position fuel kept s h _
    have hend : s.currInd = (position + ([] : List α).length) % size :=
      h.currInd_eq_iff.mpr rfl
    refine ⟨s, ?_, ?_, rfl⟩
    · cases fuel with
      | zero => rw [pruneLoop, if_pos hend]
      | succ fuel => rw [pruneLoop, if_pos hend]
    · simpa [survivors] using h
  | cons x rest ih =>
    intro position fuel kept s h hfuel
    obtain ⟨fuel, rfl⟩ : ∃ n, fuel = n + 1 :=
      ⟨fuel - 1, by rw [List.length_cons] at hfuel; omega⟩
    have hgo : s.currInd ≠ (position + (x :: rest).length) % size := fun heq => by
      cases h.currInd_eq_iff.mp heq
    obtain ⟨hnext, hstats⟩ := h.body heap
    have hshift : position + (x :: rest).length = position + 1 + rest.length := by
      rw [List.length_cons]
      omega
    obtain ⟨s', hloop, hdone, hcount⟩ :=
      ih hnext (by rw [List.length_cons] at hfuel; omega : rest.length ≤ fuel)
    refine ⟨s', ?_, ?_, ?_⟩
    · rw [pruneLoop, if_neg hgo, hshift]
      exact hloop
    · rw [hshift]
      rw [survivors_cons, ← List.append_assoc]
      exact hdone
    · rw [hcount, hstats]
      rfl

/-! ## The pool as a whole -/

/-- A pool that no thread is working on. -/
structure Quiet (pool : WSDeque α) : Prop where
  top_nonneg : 0 ≤ pool.top
  topBound_le : pool.topBound ≤ pool.top
  top_le : pool.top ≤ pool.bottom
  room : pool.bottom - pool.top < pool.size

theorem resetCounters_quiet {pool : WSDeque α} (h : Quiet pool) :
    resetCounters pool =
      ((pool.setBottom (pool.bottom - (pool.top - (pool.top.toNat % pool.size : Nat)))).setTop
        (pool.top.toNat % pool.size : Nat)).setTopBound (pool.top.toNat % pool.size : Nat) := by
  have hle := h.top_le
  rw [resetCounters, if_neg (by omega), WSDeque.slot_eq_mod]

/-- Resetting the counters changes no element. -/
theorem resetCounters_spec {pool : WSDeque α} (h : Quiet pool) :
    Quiet (resetCounters pool) ∧ (resetCounters pool).size = pool.size ∧
      (resetCounters pool).contents (resetCounters pool).bottom =
        pool.contents pool.bottom := by
  have htop := h.top_nonneg
  have hle := h.top_le
  have hroom := h.room
  have hmod : pool.top.toNat % pool.size ≤ pool.top.toNat := Nat.mod_le _ _
  rw [resetCounters_quiet h]
  refine ⟨⟨?_, ?_, ?_, ?_⟩, rfl, ?_⟩
  · exact Int.natCast_nonneg _
  · simp
  · simp
    omega
  · simp
    omega
  · show slice pool.size pool.elements (Int.toNat ((pool.top.toNat % pool.size : Nat) : Int))
        (pool.bottom - (pool.top - ((pool.top.toNat % pool.size : Nat) : Int)) -
          ((pool.top.toNat % pool.size : Nat) : Int)).toNat = _
    rw [Int.toNat_natCast, slice_mod, WSDeque.contents]
    congr 1
    omega

/-- The loop starts with the whole pool unread. -/
theorem pruning_start {pool : WSDeque α} (h : Quiet pool) (stats : SparkCounters) :
    Pruning pool.size pool.top.toNat (pool.contents pool.bottom) []
      { elements := pool.elements
        currInd := pool.slot pool.top
        botInd := pool.slot pool.bottom
        stats := stats } := by
  have htop := h.top_nonneg
  have hle := h.top_le
  have hroom := h.room
  have hbottom : pool.bottom.toNat = pool.top.toNat + (pool.bottom - pool.top).toNat := by omega
  refine ⟨?_, WSDeque.slot_eq_mod _ _, ?_, ?_, rfl⟩
  · rw [WSDeque.contents_length, List.length_nil]
    omega
  · rw [WSDeque.contents_length, List.length_nil, Nat.add_zero, ← hbottom]
    exact WSDeque.slot_eq_mod _ _
  · rw [WSDeque.contents_length]
    rfl

/-- The index after the last spark kept, turned back into a position. -/
theorem bottom_of_botInd {size old kept : Nat} (hold : old < size) (hkept : kept < size) :
    (if old ≤ (old + kept) % size then (old + kept) % size else (old + kept) % size + size) =
      old + kept := by
  by_cases hwrap : old + kept < size
  · rw [Nat.mod_eq_of_lt hwrap, if_pos (by omega)]
  · have hmod : (old + kept) % size = old + kept - size := by
      rw [Nat.mod_eq_sub_mod (by omega), Nat.mod_eq_of_lt (by omega)]
    rw [hmod, if_neg (by omega)]
    omega

/-- `pruneSparkQueue` ends and leaves exactly the sparks worth keeping, in their order, in
a pool that threads may use again; each of the others is counted once. -/
theorem pruneSparkQueue_spec (heap : SparkHeap α) {pool : WSDeque α} (h : Quiet pool)
    (stats : SparkCounters) :
    ∃ pool', pruneSparkQueue heap pool stats =
        some (pool', stats.countAll heap (pool.contents pool.bottom)) ∧
      Quiet pool' ∧ pool'.size = pool.size ∧
      pool'.contents pool'.bottom = survivors heap (pool.contents pool.bottom) := by
  obtain ⟨hquiet, hsize, hcontents⟩ := resetCounters_spec h
  generalize hq : resetCounters pool = q at hquiet hsize hcontents
  have hstart := pruning_start hquiet stats
  have hlen : (q.contents q.bottom).length ≤ q.size := by
    have hroom := hstart.room
    omega
  obtain ⟨s, hloop, hdone, hstats⟩ := pruneLoop_spec heap _ hstart hlen
  have hold : q.slot q.bottom = (q.top.toNat + (q.contents q.bottom).length) % q.size :=
    hstart.botInd
  rw [← hold] at hloop
  have hroom := hdone.room
  have hwritten := hdone.written
  have hbotInd := hdone.botInd
  simp only [List.nil_append, List.length_nil, Nat.add_zero, Nat.zero_add] at hroom hwritten hbotInd
  rw [← slice_mod, ← hold] at hwritten
  rw [← Nat.mod_add_mod, ← hold] at hbotInd
  have hlt : q.slot q.bottom < q.size := q.slot_lt _
  have hbottom := bottom_of_botInd hlt hroom
  rw [← hbotInd] at hbottom
  rw [hcontents] at hroom hwritten hbottom
  rw [pruneSparkQueue, hq]
  simp only [hloop, WSDeque.setTopBound_size, WSDeque.setTop_size]
  rw [hbottom, hstats, hcontents]
  refine ⟨_, rfl, ⟨?_, ?_, ?_, ?_⟩, hsize, ?_⟩
  · exact Int.natCast_nonneg _
  · exact le_refl _
  · show ((q.slot q.bottom : Nat) : Int) ≤ ((q.slot q.bottom + _ : Nat) : Int)
    omega
  · show ((q.slot q.bottom + _ : Nat) : Int) - ((q.slot q.bottom : Nat) : Int) < (q.size : Int)
    omega
  · show slice q.size s.elements (Int.toNat ((q.slot q.bottom : Nat) : Int)) (Int.toNat
        (((q.slot q.bottom + _ : Nat) : Int) - ((q.slot q.bottom : Nat) : Int))) = _
    rw [Int.toNat_natCast, Int.natCast_add, add_sub_cancel_left, Int.toNat_natCast]
    exact hwritten

/-- A spark is kept or counted, and no other counter moves. -/
theorem count_spec (stats : SparkCounters) (fate : SparkFate α) :
    (stats.count fate).gcd + (stats.count fate).fizzled + fate.kept.toList.length =
        stats.gcd + stats.fizzled + 1 ∧
      (stats.count fate).created = stats.created ∧ (stats.count fate).dud = stats.dud ∧
      (stats.count fate).overflowed = stats.overflowed ∧
      (stats.count fate).converted = stats.converted := by
  cases fate with
  | keep spark => exact ⟨rfl, rfl, rfl, rfl, rfl⟩
  | fizzled => exact ⟨(Nat.add_assoc _ _ _).symm, rfl, rfl, rfl, rfl⟩
  | gcd => exact ⟨Nat.add_right_comm stats.gcd 1 stats.fizzled, rfl, rfl, rfl, rfl⟩

theorem countAll_spec (heap : SparkHeap α) (sparks : List α) (stats : SparkCounters) :
    (stats.countAll heap sparks).gcd + (stats.countAll heap sparks).fizzled +
        (survivors heap sparks).length = stats.gcd + stats.fizzled + sparks.length ∧
      (stats.countAll heap sparks).created = stats.created ∧
      (stats.countAll heap sparks).dud = stats.dud ∧
      (stats.countAll heap sparks).overflowed = stats.overflowed ∧
      (stats.countAll heap sparks).converted = stats.converted := by
  induction sparks generalizing stats with
  | nil => exact ⟨rfl, rfl, rfl, rfl, rfl⟩
  | cons spark rest ih =>
    have hcons : stats.countAll heap (spark :: rest) =
        (stats.count (sparkFate heap spark)).countAll heap rest := rfl
    obtain ⟨hsum, hcreated, hdud, hoverflowed, hconverted⟩ :=
      ih (stats.count (sparkFate heap spark))
    obtain ⟨hone, hcreated', hdud', hoverflowed', hconverted'⟩ :=
      count_spec stats (sparkFate heap spark)
    rw [hcons, survivors_cons, List.length_append, List.length_cons]
    exact ⟨by omega, hcreated.trans hcreated', hdud.trans hdud',
      hoverflowed.trans hoverflowed', hconverted.trans hconverted'⟩

/-- A pool as `pruneSparkQueue` may find it: `top` may stand above `bottom`, "indicating an
empty pool". -/
structure Stopped (pool : WSDeque α) : Prop where
  top_nonneg : 0 ≤ pool.top
  bottom_nonneg : 0 ≤ pool.bottom
  room : pool.bottom - pool.top < pool.size

theorem Quiet.stopped {pool : WSDeque α} (h : Quiet pool) : Stopped pool :=
  ⟨h.top_nonneg, le_trans h.top_nonneg h.top_le, h.room⟩

/-- `pruneSparkQueue` takes a pool whose `top` stands above `bottom` for an empty one. -/
theorem pruneSparkQueue_of_above (heap : SparkHeap α) {pool : WSDeque α}
    (h : pool.bottom < pool.top) (stats : SparkCounters) :
    pruneSparkQueue heap pool stats =
      pruneSparkQueue heap ((pool.setTop pool.bottom).setTopBound pool.bottom) stats := by
  have hreset : resetCounters pool =
      resetCounters ((pool.setTop pool.bottom).setTopBound pool.bottom) := by
    rw [resetCounters, resetCounters, if_pos h, if_neg (by simp)]
    rfl
  rw [pruneSparkQueue, pruneSparkQueue, hreset]

/-- The pool that `pruneSparkQueue` works on in either case. -/
theorem Stopped.exists_quiet {pool : WSDeque α} (h : Stopped pool) (heap : SparkHeap α)
    (stats : SparkCounters) :
    ∃ q : WSDeque α, Quiet q ∧ pruneSparkQueue heap pool stats = pruneSparkQueue heap q stats ∧
      q.contents q.bottom = pool.contents pool.bottom ∧
      q.dequeElements = max pool.dequeElements 0 := by
  obtain ⟨htop, hbottom, hroom⟩ := h
  have hsize := pool.size_pos
  rcases le_or_gt pool.top pool.bottom with hle | habove
  · let q := pool.setTopBound pool.top
    have hreset : resetCounters q = resetCounters pool := by
      rw [resetCounters, resetCounters, if_neg (by simpa [q] using hle), if_neg (by omega)]
      rfl
    refine ⟨q, ⟨htop, le_refl _, hle, hroom⟩, ?_, rfl, ?_⟩
    · rw [pruneSparkQueue, pruneSparkQueue, hreset]
    · show pool.bottom - pool.top = max (pool.bottom - pool.top) 0
      omega
  · refine ⟨_, ⟨hbottom, le_refl _, le_refl _, ?_⟩, pruneSparkQueue_of_above heap habove stats, ?_, ?_⟩
    · show pool.bottom - pool.bottom < (pool.size : Int)
      omega
    · rw [WSDeque.contents_of_le habove.le, WSDeque.contents_of_le (le_refl pool.bottom)]
    · show pool.bottom - pool.bottom = max (pool.bottom - pool.top) 0
      omega

/-- Pruning a stopped pool, wherever it wraps around: the survivors stay in order, the pool
is ready for use, and `remaining + gcd + fizzled` does not change. -/
theorem pruneSparkQueue_accounts (heap : SparkHeap α) {pool : WSDeque α} (h : Stopped pool)
    (stats : SparkCounters) :
    ∃ pool' stats', pruneSparkQueue heap pool stats = some (pool', stats') ∧ Quiet pool' ∧
      pool'.contents pool'.bottom = survivors heap (pool.contents pool.bottom) ∧
      pool'.dequeElements + stats'.gcd + stats'.fizzled =
        max pool.dequeElements 0 + stats.gcd + stats.fizzled ∧
      stats'.created = stats.created ∧ stats'.dud = stats.dud ∧
      stats'.overflowed = stats.overflowed ∧ stats'.converted = stats.converted := by
  obtain ⟨q, hq, hsame, hkeeps, helements⟩ := h.exists_quiet heap stats
  obtain ⟨pool', hprune, hquiet, hsize, hcontents⟩ := pruneSparkQueue_spec heap hq stats
  obtain ⟨hsum, hrest⟩ := countAll_spec heap (q.contents q.bottom) stats
  have hlen : (survivors heap (q.contents q.bottom)).length =
      (pool'.bottom - pool'.top).toNat := by
    rw [← hcontents, WSDeque.contents_length]
  rw [hlen, WSDeque.contents_length] at hsum
  have hle := hq.top_le
  have hle' := hquiet.top_le
  refine ⟨pool', _, hsame.trans hprune, hquiet, by rw [hcontents, hkeeps], ?_, hrest⟩
  rw [← helements]
  simp only [WSDeque.dequeElements]
  omega

/-- A pool of three sparks that wraps around. -/
def wrappedPool : WSDeque Nat where
  size := 8
  moduloSize := 7
  top := 15
  bottom := 18
  topBound := 5
  elements i := 10 + i
  size_pow := ⟨3, rfl⟩
  moduloSize_eq := rfl

/-- A heap that moved every spark by 100 and found one of them evaluated. -/
def movedHeap : SparkHeap Nat where
  tagged spark := spark = 10
  forwardedTo spark := some (spark + 100)
  shouldSpark _ := true
  heapAlloced _ := true
  evacuated _ := true
  thunkStatic _ := false
  staticLinked _ := false

theorem pruneSparkQueue_accounts_wrapped :
    ∃ pool' stats', pruneSparkQueue movedHeap wrappedPool ⟨3, 0, 0, 0, 0, 0⟩ =
        some (pool', stats') ∧
      Quiet pool' ∧ pool'.contents pool'.bottom = [117, 111] ∧
      pool'.dequeElements + stats'.gcd + stats'.fizzled = 3 + 0 + 0 ∧
      stats'.created = 3 ∧ stats'.dud = 0 ∧ stats'.overflowed = 0 ∧ stats'.converted = 0 :=
  pruneSparkQueue_accounts movedHeap ⟨by decide, by decide, by decide⟩ ⟨3, 0, 0, 0, 0, 0⟩

end HosBoot.Rts
