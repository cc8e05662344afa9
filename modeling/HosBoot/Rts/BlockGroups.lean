/-
  Rts/BlockGroups.lean --- how the block groups lie in memory.

  The megablocks the allocator has are tiled by groups: live ones, which a client holds, free
  ones, which are on a list, and those in hand while a function runs.  `Placed` says what the
  descriptors and the lists look like for a tiling, `SmallApart` and `MegaApart` that free
  neighbours have been coalesced.
-/
import Mathlib.Data.Nat.Log
import HosBoot.Foundation.Tiling
import HosBoot.Rts.BlockModel

set_option autoImplicit false

namespace HosBoot.Rts

open HosBoot.Foundation

/-! ## Logarithms -/

theorem log2Loop_eq {k x : Nat} (i : Nat) (hpos : 0 < x) (hlt : x < 2 ^ k) :
    log2Loop k i x = i + Nat.log2 x := by
  induction k generalizing i x with
  | zero => omega
  | succ k ih =>
    rw [log2Loop, Nat.shiftRight_one]
    by_cases hone : x / 2 = 0
    · have hx : x = 1 := by omega
      rw [if_pos hone, hx]
      rfl
    · rw [if_neg hone, ih (i + 1) (Nat.pos_of_ne_zero hone) (by omega), Nat.log2_def x,
        if_pos (by omega)]
      omega

/-- Free list `log_2(n)` is the one for groups of `n` blocks. -/
theorem log2_spec {n : Nat} (hpos : 0 < n) (hlt : n < 2 ^ maxFreeList) :
    log2 n < maxFreeList ∧ 2 ^ log2 n ≤ n ∧ n < 2 ^ (log2 n + 1) := by
  have heq : log2 n = Nat.log2 n := by
    rw [log2, log2Loop_eq 0 hpos hlt, Nat.zero_add]
  rw [heq]
  exact ⟨(Nat.log2_lt (Nat.ne_of_gt hpos)).mpr hlt, Nat.log2_self_le (Nat.ne_of_gt hpos),
    Nat.lt_log2_self⟩

theorem log2CeilLoop_spec (n k i : Nat) :
    log2CeilLoop n k i (2 ^ i) ≤ i + k ∧
      (log2CeilLoop n k i (2 ^ i) < i + k → n ≤ 2 ^ log2CeilLoop n k i (2 ^ i)) := by
  induction k generalizing i with
  | zero => exact ⟨Nat.le_refl _, fun h => absurd h (Nat.lt_irrefl _)⟩
  | succ k ih =>
    rw [log2CeilLoop]
    by_cases hlarge : 2 ^ i ≥ n
    · rw [if_pos hlarge]
      exact ⟨Nat.le_add_right _ _, fun _ => hlarge⟩
    · have hnext := ih (i + 1)
      rw [if_neg hlarge, Nat.shiftLeft_eq, Nat.pow_one, ← Nat.pow_succ]
      rw [show i + (k + 1) = i + 1 + k by omega]
      exact hnext

/-- Every group on free list `log_2_ceil(n)` or a later one has at least `n` blocks. -/
theorem log2Ceil_spec (n : Nat) :
    log2Ceil n ≤ maxFreeList ∧ (log2Ceil n < maxFreeList → n ≤ 2 ^ log2Ceil n) := by
  have hloop := log2CeilLoop_spec n maxFreeList 0
  rw [Nat.zero_add, Nat.pow_zero] at hloop
  exact hloop

theorem log2CeilLoop_mono {n m : Nat} (h : n ≤ m) (k i x : Nat) :
    i ≤ log2CeilLoop m k i x ∧ log2CeilLoop n k i x ≤ log2CeilLoop m k i x := by
  induction k generalizing i x with
  | zero => exact ⟨Nat.le_refl _, Nat.le_refl _⟩
  | succ k ih =>
    obtain ⟨hge, hmono⟩ := ih (i + 1) (x <<< 1)
    rw [log2CeilLoop, log2CeilLoop]
    by_cases hm : x ≥ m
    · rw [if_pos hm, if_pos (Nat.le_trans h hm)]
      exact ⟨Nat.le_refl _, Nat.le_refl _⟩
    · rw [if_neg hm]
      by_cases hn : x ≥ n
      · rw [if_pos hn]
        exact ⟨Nat.le_of_succ_le hge, Nat.le_of_succ_le hge⟩
      · rw [if_neg hn]
        exact ⟨Nat.le_of_succ_le hge, hmono⟩

theorem log2Ceil_mono {n m : Nat} (h : n ≤ m) : log2Ceil n ≤ log2Ceil m :=
  (log2CeilLoop_mono h maxFreeList 0 1).2

/-! ## Groups -/

/-- Who has a group. -/
inductive Holder
  | live
  | free
  | hand
deriving DecidableEq

/-- A block group: its first descriptor, its extent and its holder. -/
abbrev Group := Tile Holder

variable (L : BlockSizes)

/-- A group inside one megablock. -/
structure Small (g : Group) : Prop where
  lt : g.size < L.blocksPerMBlock
  within : g.start % L.blocksPerMBlock + g.size ≤ L.blocksPerMBlock

/-- A group of whole megablocks. -/
structure Mega (g : Group) : Prop where
  first : g.start % L.blocksPerMBlock = 0
  ge : L.blocksPerMBlock ≤ g.size
  whole : g.size % L.blocksPerMBlock = 0

/-- The `blocks` field of a group's head. -/
def blocksOf (size : Nat) : Nat :=
  if size < L.blocksPerMBlock then size else L.mblockGroupBlocks (size / L.blocksPerMBlock)

/-- What a descriptor behind the head says. -/
structure PointsTo (d : ModelDescr) (head : Nat) : Prop where
  blocks : d.blocks = 0
  link : d.link = some head

/-- What `initGroup` and `setup_tail` store behind the head. -/
structure IsTail (d : ModelDescr) (head : Nat) : Prop extends PointsTo d head where
  free : d.free = .zero

/-- The descriptors of a group: those of its first megablock are set up; a live group points
to its head everywhere, a free one at least from its last descriptor. -/
structure GroupOk (bdescr : Nat → ModelDescr) (g : Group) : Prop where
  shape : Small L g ∨ Mega L g
  blocks : (bdescr g.start).blocks = blocksOf L g.size
  starts : ∀ a, g.Has a → a / L.blocksPerMBlock = g.start / L.blocksPerMBlock →
    (bdescr a).start = L.blockAt a
  live : g.label = .live → (bdescr g.start).free ≠ .minusOne ∧
    ∀ a, g.Has a → a ≠ g.start → a / L.blocksPerMBlock = g.start / L.blocksPerMBlock →
      PointsTo (bdescr a) g.start
  free : g.label = .free → (bdescr g.start).free = .minusOne ∧
    (g.size < L.blocksPerMBlock → g.stop - 1 ≠ g.start →
      IsTail (bdescr (g.stop - 1)) g.start)

/-- The free lists hold the free groups, each where its size belongs. -/
structure ListsOk (s : BlockModel) (F : Finset Group) : Prop where
  mem_free : ∀ ln bd, bd ∈ s.freeList ln ↔
    ∃ g ∈ F, g.size < L.blocksPerMBlock ∧ log2 g.size = ln ∧ g.start = bd
  nodup : ∀ ln, (s.freeList ln).Nodup
  mem_mblock : ∀ bd, bd ∈ s.freeMBlockList ↔ ∃ g ∈ F, L.blocksPerMBlock ≤ g.size ∧ g.start = bd
  sorted : s.freeMBlockList.Pairwise (· < ·)

/-- The groups of one holder. -/
def held (label : Holder) (T : Finset Group) : Finset Group := T.filter fun g => g.label = label

/-- The blocks of the megablocks that the allocator has. -/
def Owned (s : BlockModel) (a : Nat) : Prop := s.heapAlloced (a / L.blocksPerMBlock) = true

/-- The state lays out the groups of a tiling. -/
structure Placed (s : BlockModel) (T : Finset Group) : Prop where
  tiles : Tiles T (Owned L s)
  groups : ∀ g ∈ T, GroupOk L s.bdescr g
  lists : ListsOk L s (held .free T)

/-- Free groups of one megablock are never neighbours. -/
def SmallApart (T : Finset Group) : Prop :=
  ∀ g ∈ held .free T, ∀ u ∈ held .free T, u.start = g.stop →
    g.size < L.blocksPerMBlock → u.size < L.blocksPerMBlock → u.start % L.blocksPerMBlock = 0

/-- Free groups of whole megablocks are never neighbours. -/
def MegaApart (T : Finset Group) : Prop :=
  ∀ g ∈ held .free T, ∀ u ∈ held .free T, u.start = g.stop →
    L.blocksPerMBlock ≤ g.size → L.blocksPerMBlock ≤ u.size → False

/-! ## Groups by holder -/

theorem mem_held {label : Holder} {T : Finset Group} {g : Group} :
    g ∈ held label T ↔ g ∈ T ∧ g.label = label := by
  rw [held, Finset.mem_filter]

/-- A group with another holder. -/
def Group.to (g : Group) (label : Holder) : Group := { g with label := label }

@[simp] theorem Group.to_start (g : Group) (label : Holder) : (g.to label).start = g.start := rfl
@[simp] theorem Group.to_size (g : Group) (label : Holder) : (g.to label).size = g.size := rfl
@[simp] theorem Group.to_label (g : Group) (label : Holder) : (g.to label).label = label := rfl
@[simp] theorem Group.to_stop (g : Group) (label : Holder) : (g.to label).stop = g.stop := rfl
@[simp] theorem Group.to_has (g : Group) (label : Holder) (a : Nat) :
    (g.to label).Has a ↔ g.Has a := Iff.rfl

/-- Two neighbours in hand as one group. -/
def Group.join (g u : Group) : Group := ⟨g.start, g.size + u.size, .hand⟩

@[simp] theorem Group.join_start (g u : Group) : (g.join u).start = g.start := rfl
@[simp] theorem Group.join_size (g u : Group) : (g.join u).size = g.size + u.size := rfl
@[simp] theorem Group.join_label (g u : Group) : (g.join u).label = .hand := rfl

/-- The neighbours lie where the joined group lies. -/
theorem Group.join_has {g u : Group} (hnext : u.start = g.stop) (a : Nat) :
    (g.join u).Has a ↔ g.Has a ∨ u.Has a := by
  unfold Tile.Has Tile.stop at *
  rw [Group.join_start, Group.join_size]
  omega

theorem Group.join_stop {g u : Group} (hnext : u.start = g.stop) : (g.join u).stop = u.stop := by
  unfold Tile.stop at *
  rw [Group.join_start, Group.join_size]
  omega

/-- Nothing changes for a holder that has none of the groups exchanged. -/
theorem held_exchange_other {label : Holder} {T R A : Finset Group}
    (hR : ∀ g ∈ R, g.label ≠ label) (hA : ∀ g ∈ A, g.label ≠ label) :
    held label (exchange T R A) = held label T := by
  ext g
  simp only [mem_held, mem_exchange]
  constructor
  · rintro ⟨⟨hg, -⟩ | hg, hlabel⟩
    · exact ⟨hg, hlabel⟩
    · exact absurd hlabel (hA g hg)
  · rintro ⟨hg, hlabel⟩
    exact ⟨.inl ⟨hg, fun hgR => hR g hgR hlabel⟩, hlabel⟩

/-- A holder gives a group away. -/
theorem held_exchange_erase {label : Holder} {T A : Finset Group} {g : Group}
    (hA : ∀ u ∈ A, u.label ≠ label) :
    held label (exchange T {g} A) = (held label T).erase g := by
  ext u
  simp only [mem_held, mem_exchange, Finset.mem_erase, Finset.mem_singleton]
  constructor
  · rintro ⟨⟨hu, hne⟩ | hu, hlabel⟩
    · exact ⟨hne, hu, hlabel⟩
    · exact absurd hlabel (hA u hu)
  · rintro ⟨hne, hu, hlabel⟩
    exact ⟨.inl ⟨hu, hne⟩, hlabel⟩

/-- A holder gets a group. -/
theorem held_exchange_insert {label : Holder} {T R : Finset Group} {g : Group}
    (hlabel : g.label = label) (hR : ∀ u ∈ R, u.label ≠ label) :
    held label (exchange T R {g}) = insert g (held label T) := by
  ext u
  simp only [mem_held, mem_exchange, Finset.mem_insert, Finset.mem_singleton]
  constructor
  · rintro ⟨⟨hu, -⟩ | rfl, hul⟩
    · exact .inr ⟨hu, hul⟩
    · exact .inl rfl
  · rintro (rfl | ⟨hu, hul⟩)
    · exact ⟨.inr rfl, hlabel⟩
    · exact ⟨.inl ⟨hu, fun huR => hR u huR hul⟩, hul⟩

/-! ## Arithmetic of groups -/

variable {L}

theorem mul_div_perMBlock (n : Nat) : n * L.blocksPerMBlock / L.blocksPerMBlock = n :=
  Nat.mul_div_cancel n L.perMBlock_pos

/-- A whole number of megablocks. -/
theorem Mega.size_eq {g : Group} (h : Mega L g) :
    g.size = g.size / L.blocksPerMBlock * L.blocksPerMBlock :=
  (Nat.div_mul_cancel (Nat.dvd_of_mod_eq_zero h.whole)).symm

theorem Mega.start_eq {g : Group} (h : Mega L g) :
    g.start = g.start / L.blocksPerMBlock * L.blocksPerMBlock :=
  (Nat.div_mul_cancel (Nat.dvd_of_mod_eq_zero h.first)).symm

theorem Mega.mblocks_pos {g : Group} (h : Mega L g) : 0 < g.size / L.blocksPerMBlock :=
  Nat.div_pos h.ge L.perMBlock_pos

/-- The megablocks of a group. -/
theorem Mega.has_iff {g : Group} (h : Mega L g) (a : Nat) :
    g.Has a ↔ g.start / L.blocksPerMBlock ≤ a / L.blocksPerMBlock ∧
      a / L.blocksPerMBlock < g.start / L.blocksPerMBlock + g.size / L.blocksPerMBlock := by
  rw [Nat.le_div_iff_mul_le L.perMBlock_pos, Nat.div_lt_iff_lt_mul L.perMBlock_pos, Nat.add_mul,
    ← h.start_eq, ← h.size_eq]
  rfl

/-- Small groups stay in their megablock. -/
theorem Small.div_eq {g : Group} (h : Small L g) {a : Nat} (ha : g.Has a) :
    a / L.blocksPerMBlock = g.start / L.blocksPerMBlock := by
  obtain ⟨hle, hlt⟩ := ha
  have hwithin := h.within
  have hdiv := Nat.div_add_mod g.start L.blocksPerMBlock
  unfold Tile.stop at hlt
  rw [Nat.div_eq_iff L.perMBlock_pos]
  rw [Nat.mul_comm] at hdiv
  omega

theorem blocksOf_small {n : Nat} (h : n < L.blocksPerMBlock) : blocksOf L n = n := if_pos h

theorem blocksOf_mega {n : Nat} (h : L.blocksPerMBlock ≤ n) :
    blocksOf L n = L.mblockGroupBlocks (n / L.blocksPerMBlock) := if_neg (Nat.not_lt.mpr h)

/-- The groups of one megablock are exactly as large as their first megablock. -/
theorem perMBlock_le_group {k : Nat} (h : 0 < k) : L.blocksPerMBlock ≤ L.mblockGroupBlocks k := by
  rcases Nat.lt_or_ge 1 k with hlt | hle
  · have hgroup := L.group_lt 1 k (by decide) hlt
    rw [L.group_one] at hgroup
    exact Nat.le_of_lt hgroup
  · rw [show k = 1 by omega, L.group_one]

theorem group_inj {k l : Nat} (hk : 0 < k) (hl : 0 < l)
    (h : L.mblockGroupBlocks k = L.mblockGroupBlocks l) : k = l := by
  rw [← L.toMBlocks_group k hk, h, L.toMBlocks_group l hl]

theorem blocksOf_pos {n : Nat} (h : 0 < n) : 0 < blocksOf L n := by
  rcases Nat.lt_or_ge n L.blocksPerMBlock with hlt | hge
  · rw [blocksOf_small hlt]
    exact h
  · rw [blocksOf_mega hge]
    exact Nat.lt_of_lt_of_le L.perMBlock_pos
      (perMBlock_le_group (Nat.div_pos hge L.perMBlock_pos))

theorem blocksOf_lt_iff {n : Nat} :
    blocksOf L n < L.blocksPerMBlock ↔ n < L.blocksPerMBlock := by
  rcases Nat.lt_or_ge n L.blocksPerMBlock with hlt | hge
  · rw [blocksOf_small hlt]
  · rw [blocksOf_mega hge]
    have hle := perMBlock_le_group (L := L) (Nat.div_pos hge L.perMBlock_pos)
    omega

theorem GroupOk.small_or {bdescr : Nat → ModelDescr} {g : Group} (h : GroupOk L bdescr g) :
    (g.size < L.blocksPerMBlock → Small L g) ∧ (L.blocksPerMBlock ≤ g.size → Mega L g) := by
  rcases h.shape with hsmall | hmega
  · exact ⟨fun _ => hsmall, fun hge => absurd hsmall.lt (Nat.not_lt.mpr hge)⟩
  · exact ⟨fun hlt => absurd hmega.ge (Nat.not_le.mpr hlt), fun _ => hmega⟩

end HosBoot.Rts
