/-
  Rts/BlockSafety.lean --- what a client of the block allocator can rely on.

  In every state that a run reaches, allocating succeeds and returns memory that nobody else
  has, freeing what one holds succeeds, and neither changes a descriptor of another group.
-/
import HosBoot.Rts.BlockHeader
import HosBoot.Rts.BlockRuns

set_option autoImplicit false

namespace HosBoot.Rts

open HosBoot.Foundation HosBoot.Foundation.LinkedList

variable {H : BlockHeader} {L : BlockSizes} {c c' : BlockAlloc} {C : Finset Group} {g u : Group}

/-! ## Allocating -/

/-- The blocks of the groups for `n` blocks. -/
theorem blocksOf_extentOf {n : Nat} :
    (n < L.blocksPerMBlock → blocksOf L (extentOf L n) = n) ∧
      (L.blocksPerMBlock ≤ n →
        blocksOf L (extentOf L n) = L.mblockGroupBlocks (L.blocksToMBlocks n)) := by
  constructor
  · intro hlt
    rw [extentOf, if_pos hlt, blocksOf_small hlt]
  · intro hge
    have hpos := L.toMBlocks_pos n hge
    have hextent : L.blocksPerMBlock ≤ L.blocksToMBlocks n * L.blocksPerMBlock :=
      Nat.le_mul_of_pos_left _ hpos
    rw [extentOf, if_neg (Nat.not_lt.mpr hge), blocksOf_mega hextent,
      Nat.mul_div_cancel _ L.perMBlock_pos]

/-- A group for `n` blocks has at least `n` blocks. -/
theorem le_blocksOf_extentOf (n : Nat) : n ≤ blocksOf L (extentOf L n) := by
  rcases Nat.lt_or_ge n L.blocksPerMBlock with hlt | hge
  · rw [blocksOf_extentOf.1 hlt]
  · rw [blocksOf_extentOf.2 hge]
    exact L.le_group n hge

/-- In every run `allocGroup` succeeds; the group has the size asked for, rounded up to whole
megablocks, and is the client's alone. -/
theorem allocGroup_reachable (h : (blockAllocator H).Reachable (c, C)) {n : UInt64} {fresh : Nat}
    (hpos : 0 < n) (hfresh : Unused H.toBlockSizes c (mblocksFor H.toBlockSizes n.toNat) fresh) :
    ∃ c' g, c.allocGroup H n fresh = .ok (c', H.bdescrAt g.start) ∧
      Given H.toBlockSizes c C c' g ∧ g.size = extentOf H.toBlockSizes n.toNat ∧
      n.toNat ≤ c'.blocks (H.bdescrAt g.start) ∧
      (n.toNat < H.blocksPerMBlock → c'.blocks (H.bdescrAt g.start) = n.toNat) := by
  obtain ⟨c', g, hrun, hsize, hgiven, -, -⟩ :=
    (blockAllocator_invariant.of_reachable h).allocGroup hpos hfresh
  refine ⟨c', g, hrun, hgiven, hsize, ?_, fun hlt => ?_⟩
  · rw [hgiven.blocks, hsize]
    exact le_blocksOf_extentOf _
  · rw [hgiven.blocks, hsize, blocksOf_extentOf.1 hlt]

/-! ## A nursery -/

/-- Memory that holds no descriptors. -/
def noBdescr : Nat → BDescr := fun _ => ⟨0, .zero, none, none, 0⟩

/-- The blocks of the first megablock. -/
def nursery : Group := ⟨0, 252, .live⟩

/-- Memory after `allocNursery` for 252 blocks. -/
theorem nursery_allocated : ∃ c, (BlockAlloc.initBlockAllocator noBdescr).allocGroup blockHeader64
      252 0 = .ok (c, blockHeader64.bdescrAt 0) ∧ returned blockHeader64.toBlockSizes c 0 = nursery ∧
    c.mblocksAllocated = 1 ∧ ∀ m, c.heapAlloced m = if 0 ≤ m ∧ m < 1 then true else false :=
  ⟨_, rfl, rfl, rfl, fun _ => rfl⟩

/-- A client has divided its first group, of a whole megablock, into a nursery. -/
theorem blockAllocator_nursery : ∃ c, (blockAllocator blockHeader64).Reachable (c, singles nursery) ∧
    c.mblocksAllocated = 1 ∧ (∀ m, 0 < m → c.heapAlloced m = false) ∧
    ∀ i, i < 252 → (c.bdescr (i + 4)).link = if i + 5 < 256 then some (i + 5) else none := by
  obtain ⟨c, hrun, hreturned, hcount, hmap⟩ := nursery_allocated
  have halloc := BlockStep.alloc (H := blockHeader64) (C := ∅) (show 0 < (252 : UInt64) by decide)
    ⟨fun _ _ => rfl, by decide⟩ hrun
  rw [hreturned] at halloc
  have hdivides := allocNurseryLoop_divides (L := blockHeader64.toBlockSizes) (g := nursery)
    (.inr ⟨rfl, Nat.le_refl 252, rfl⟩) (Nat.le_refl 252) c.bdescr none
  have hdivide := BlockStep.divide (H := blockHeader64) (c := c) (C := {nursery})
    (Finset.mem_singleton_self _) (Nat.le_refl 252) hdivides
  rw [Finset.erase_singleton, Finset.empty_union] at hdivide
  refine ⟨_, ⟨_, _, ⟨⟨noBdescr, rfl⟩, rfl⟩, .snoc (.snoc (.refl _) halloc) hdivide⟩, hcount,
    fun m hm => ?_, fun i hi => ?_⟩
  · refine (hmap m).trans (if_neg ?_)
    omega
  · refine (congrArg BDescr.link (if_pos ?_)).trans ?_
    · show 4 ≤ i + 4 ∧ i + 4 < 4 + 252
      omega
    · rfl

/-- A single block. -/
def block (i : Nat) : Group := ⟨i, 1, .live⟩

theorem block_mem {i : Nat} (hi : i < 252) : block i ∈ singles nursery :=
  mem_singles.mpr ⟨⟨Nat.zero_le i, Nat.lt_of_lt_of_eq hi (Nat.zero_add 252).symm⟩, rfl, rfl⟩

theorem block_ne {i j : Nat} (h : i ≠ j) : block i ≠ block j := fun heq =>
  h (congrArg Tile.start heq)

theorem reachable_free (h : (blockAllocator H).Reachable (c, C)) (hg : g ∈ C) :
    ∃ c', (blockAllocator H).Reachable (c', C.erase g) ∧ Freed H c C {g} c' := by
  obtain ⟨c', hrun, hfreed⟩ := (blockAllocator_invariant.of_reachable h).freeGroup hg
  obtain ⟨start, trace, hinit, hpath⟩ := h
  exact ⟨c', ⟨start, _, hinit, .snoc hpath (.free hg hrun)⟩, hfreed⟩

/-- The blocks of the nursery but the fourth and the sixth. -/
def gaps : Finset Group := ((singles nursery).erase (block 3)).erase (block 5)

theorem block_mem_gaps {i : Nat} (hi : i < 252) (h3 : i ≠ 3) (h5 : i ≠ 5) : block i ∈ gaps :=
  Finset.mem_erase.mpr ⟨block_ne h5, Finset.mem_erase.mpr ⟨block_ne h3, block_mem hi⟩⟩

theorem sum_erase_two {S : Finset Group} (hg : g ∈ S) (hu : u ∈ S.erase g) {n : Nat}
    (hsum : ∑ x ∈ S, x.size = g.size + (u.size + n)) : ∑ x ∈ (S.erase g).erase u, x.size = n := by
  rw [← Finset.add_sum_erase S _ hg, ← Finset.add_sum_erase (S.erase g) _ hu] at hsum
  exact Nat.add_left_cancel (Nat.add_left_cancel hsum)

theorem gaps_sum : ∑ g ∈ gaps, g.size = 250 :=
  sum_erase_two (block_mem (by decide))
    (Finset.mem_erase.mpr ⟨block_ne (by decide), block_mem (by decide)⟩) (singles_sum nursery)

/-- The client has freed two blocks of the nursery, between blocks that it has. -/
theorem blockAllocator_gaps : ∃ c, (blockAllocator blockHeader64).Reachable (c, gaps) ∧
    c.mblocksAllocated = 1 ∧ (∀ m, 0 < m → c.heapAlloced m = false) ∧
    ∀ i, i < 252 → i ≠ 3 → i ≠ 5 →
      (c.bdescr (blockHeader64.bdescrAt i)).link = if i + 5 < 256 then some (i + 5) else none := by
  obtain ⟨c, h, hcount, hmap, hlink⟩ := blockAllocator_nursery
  obtain ⟨c₁, h₁, hfreed₁⟩ := reachable_free h (block_mem (i := 3) (by decide))
  obtain ⟨c₂, h₂, hfreed₂⟩ := reachable_free h₁ (g := block 5)
    (Finset.mem_erase.mpr ⟨block_ne (by decide), block_mem (by decide)⟩)
  refine ⟨c₂, h₂, hfreed₂.mblocks.trans (hfreed₁.mblocks.trans hcount), fun m hm => ?_,
    fun i hi h3 h5 => ?_⟩
  · rw [hfreed₂.map, hfreed₁.map, hmap m hm]
  · have hhas : (block i).Has i := ⟨Nat.le_refl i, Nat.lt_succ_self i⟩
    have hmem := block_mem hi
    have hmem₁ : block i ∈ singles nursery \ {block 3} :=
      Finset.mem_sdiff.mpr ⟨hmem, fun heq => block_ne h3 (Finset.mem_singleton.mp heq)⟩
    have hmem₂ : block i ∈ (singles nursery).erase (block 3) \ {block 5} := by
      rw [← Finset.sdiff_singleton_eq_erase]
      exact Finset.mem_sdiff.mpr ⟨hmem₁, fun heq => block_ne h5 (Finset.mem_singleton.mp heq)⟩
    have haddr : blockHeader64.bdescrAt i = i + 4 := by
      show 16384 * (i / 252) + 4 + i % 252 = i + 4
      rw [Nat.div_eq_of_lt hi, Nat.mod_eq_of_lt hi]
      omega
    rw [hfreed₂.frame _ hmem₂ i hhas, hfreed₁.frame _ hmem₁ i hhas, haddr]
    exact hlink i hi

/-- A group of several megablocks beside the nursery. -/
theorem allocGroup_reachable_large : ∃ c c' g, (blockAllocator blockHeader64).Reachable (c, gaps) ∧
    c.allocGroup blockHeader64 300 1 = .ok (c', blockHeader64.bdescrAt g.start) ∧
    Given blockHeader64.toBlockSizes c gaps c' g ∧ g.size = 504 := by
  obtain ⟨c, h, hcount, hmap, -⟩ := blockAllocator_gaps
  have hfresh : Unused blockHeader64.toBlockSizes c
      (mblocksFor blockHeader64.toBlockSizes (300 : UInt64).toNat) 1 :=
    ⟨fun i _ => hmap _ (by omega), by rw [hcount]; decide⟩
  obtain ⟨c', g, hrun, hgiven, hsize, -⟩ := allocGroup_reachable h (by decide) hfresh
  exact ⟨c, c', g, h, hrun, hgiven, hsize⟩

/-- In every run `allocLargeChunk` succeeds: a chunk between the bounds, or a group for the
larger one. -/
theorem allocLargeChunk_reachable (h : (blockAllocator H).Reachable (c, C)) {least most : UInt32}
    {fresh : Nat} (hpos : 0 < least) (hle : least ≤ most)
    (hfresh : Unused H.toBlockSizes c (mblocksFor H.toBlockSizes most.toNat) fresh) :
    ∃ c' g, c.allocLargeChunk H least most fresh = .ok (c', H.bdescrAt g.start) ∧
      Given H.toBlockSizes c C c' g ∧ least.toNat ≤ c'.blocks (H.bdescrAt g.start) ∧
      (c'.blocks (H.bdescrAt g.start) ≤ most.toNat ∨
        g.size = extentOf H.toBlockSizes most.toNat) := by
  obtain ⟨c', g, hrun, hsize, hgiven, -, -⟩ :=
    (blockAllocator_invariant.of_reachable h).allocLargeChunk hpos hle hfresh
  refine ⟨c', g, hrun, hgiven, ?_⟩
  rw [hgiven.blocks]
  rcases hsize with hsize | ⟨hsmall, hleast, hmost⟩
  · rw [hsize]
    exact ⟨Nat.le_trans (UInt32.le_iff_toNat_le.mp hle) (le_blocksOf_extentOf _), .inr rfl⟩
  · rw [blocksOf_small hsmall]
    exact ⟨hleast, .inl hmost⟩

theorem allocLargeChunk_reachable_first : ∃ c c' g,
    (blockAllocator blockHeader64).Reachable (c, gaps) ∧
    c.allocLargeChunk blockHeader64 1 40 1 = .ok (c', blockHeader64.bdescrAt g.start) ∧
    Given blockHeader64.toBlockSizes c gaps c' g := by
  obtain ⟨c, h, hcount, hmap, -⟩ := blockAllocator_gaps
  have hfresh : Unused blockHeader64.toBlockSizes c
      (mblocksFor blockHeader64.toBlockSizes (40 : UInt32).toNat) 1 :=
    ⟨fun i _ => hmap _ (by omega), by rw [hcount]; decide⟩
  obtain ⟨c', g, hrun, hgiven, -⟩ := allocLargeChunk_reachable h (show 0 < (1 : UInt32) by decide)
    (by decide) hfresh
  exact ⟨c, c', g, h, hrun, hgiven⟩

/-! ## Freeing -/

/-- In every run the groups that a client holds do not overlap, lie in the allocator's
megablocks, and are what their heads say; `n_alloc_blocks` counts their blocks. -/
theorem blockAllocator_exclusive (h : (blockAllocator H).Reachable (c, C)) :
    (∀ g ∈ C, ∀ u ∈ C, ∀ a, g.Has a → u.Has a → g = u) ∧
      (∀ g ∈ C, ∀ a, g.Has a → c.heapAlloced (a / H.blocksPerMBlock) = true) ∧
      (∀ g ∈ C, (Small H.toBlockSizes g ∨ Mega H.toBlockSizes g) ∧
        c.blocks (H.bdescrAt g.start) = blocksOf H.toBlockSizes g.size ∧
        extentAt H.toBlockSizes c (H.bdescrAt g.start) = g.size) ∧
      c.nAllocBlocks.toNat = ∑ g ∈ C, g.size ∧ c.nAllocBlocks ≤ c.hwAllocBlocks := by
  obtain ⟨s, T, h⟩ := blockAllocator_invariant.of_reachable h
  have hplaced := h.settled.placed
  refine ⟨h.tiles.apart, fun g hg a ha => ?_, fun g hg => ?_, h.nAlloc_toNat, ?_⟩
  · rw [← h.owned_iff]
    exact (hplaced.tiles.cover a).mpr ⟨g, (h.mem hg).1, ha⟩
  · have hok := hplaced.groups g (h.mem hg).1
    exact ⟨hok.shape, (h.represents.blocks_eq _).trans hok.blocks, h.extentAt_eq (h.mem hg).1⟩
  · rw [UInt64.le_iff_toNat_le, h.represents.nAlloc, h.represents.hwAlloc]
    exact h.hwAlloc

theorem blockAllocator_exclusive_one : ∃ c, (blockAllocator blockHeader64).Reachable (c, gaps) ∧
    c.nAllocBlocks.toNat = 250 ∧ ∀ g ∈ gaps, ∀ u ∈ gaps, ∀ a, g.Has a → u.Has a → g = u := by
  obtain ⟨c, h, -⟩ := blockAllocator_gaps
  obtain ⟨hapart, -, -, hcount, -⟩ := blockAllocator_exclusive h
  exact ⟨c, h, hcount.trans gaps_sum, hapart⟩

/-- The free lists as the links have them: no descriptor twice or on two of them, and all of
them marked free. -/
structure FreeLists (c : BlockAlloc) (lists : Nat → List Nat) (mblocks : List Nat) : Prop where
  linked : ∀ ln, FreeListAt c.bdescr (c.freeList ln) (lists ln)
  linkedMBlocks : Linked (fun x => (c.bdescr x).link) c.freeMBlockList mblocks
  nodup : ∀ ln, (lists ln).Nodup
  nodupMBlocks : mblocks.Nodup
  apart : ∀ ln ln' bd, bd ∈ lists ln → bd ∈ lists ln' → ln = ln'
  apartMBlocks : ∀ ln bd, bd ∈ lists ln → bd ∉ mblocks
  marked : ∀ bd, (∃ ln, bd ∈ lists ln) ∨ bd ∈ mblocks → (c.bdescr bd).free = .minusOne

theorem BlockInv.freeLists (h : BlockInv H (c, C)) :
    ∃ lists mblocks, FreeLists c lists mblocks := by
  obtain ⟨s, T, h⟩ := h
  have hplaced := h.settled.placed
  have htidy := hplaced.tidy (C := C) (h.lives ▸ Finset.Subset.refl _)
  have hmark : ∀ bd, Listed s bd → (c.bdescr (H.bdescrAt bd)).free = .minusOne := by
    intro bd hbd
    obtain ⟨u, hu, hfree, rfl⟩ := hplaced.listed hbd
    rw [h.represents.free_eq]
    exact ((hplaced.groups u hu).free hfree).1
  refine ⟨fun ln => (s.freeList ln).map H.bdescrAt, s.freeMBlockList.map H.bdescrAt,
    h.represents.lists, h.represents.mblocks, fun ln => H.map_bdescrAt_nodup (htidy.nodup ln),
    H.map_bdescrAt_nodup htidy.megaNodup, fun ln ln' x hx hx' => ?_, fun ln x hx hx' => ?_,
    fun x hx => ?_⟩
  · obtain ⟨bd, hbd, rfl⟩ := List.mem_map.mp hx
    exact htidy.unique ln ln' bd hbd (H.mem_map_bdescrAt.mp hx')
  · obtain ⟨bd, hbd, rfl⟩ := List.mem_map.mp hx
    exact htidy.notMega ln bd hbd (H.mem_map_bdescrAt.mp hx')
  · rcases hx with ⟨ln, hx⟩ | hx
    · obtain ⟨bd, hbd, rfl⟩ := List.mem_map.mp hx
      exact hmark bd (.inl ⟨ln, hbd⟩)
    · obtain ⟨bd, hbd, rfl⟩ := List.mem_map.mp hx
      exact hmark bd (.inr hbd)

/-- What a client sees of a call that frees its groups `R`. -/
structure Released (L : BlockSizes) (c : BlockAlloc) (C R : Finset Group) (c' : BlockAlloc) :
    Prop where
  frame : ∀ u ∈ C \ R, ∀ a, u.Has a → c'.bdescr (L.bdescrAt a) = c.bdescr (L.bdescrAt a)
  nAlloc : c'.nAllocBlocks.toNat + ∑ u ∈ R, u.size = c.nAllocBlocks.toNat
  map : c'.heapAlloced = c.heapAlloced
  lists : ∃ lists mblocks, FreeLists c' lists mblocks

theorem BlockInv.released (h : BlockInv H (c, C)) {R : Finset Group} (hR : R ⊆ C)
    (hfreed : Freed H c C R c') : Released H.toBlockSizes c C R c' := by
  refine ⟨hfreed.frame, ?_, hfreed.map, hfreed.inv.freeLists⟩
  obtain ⟨s, T, h⟩ := h
  obtain ⟨s', T', h'⟩ := hfreed.inv
  rw [h.nAlloc_toNat, h'.nAlloc_toNat]
  exact Finset.sum_sdiff hR

/-- In every run a client can free a group it holds, or a chain of them in any order; the other
groups keep their descriptors. -/
theorem freeing_reachable (h : (blockAllocator H).Reachable (c, C)) :
    (∀ g ∈ C, ∃ c', c.freeGroup H (H.bdescrAt g.start) = .ok c' ∧
      Released H.toBlockSizes c C {g} c') ∧
    ∀ p chain, Chain H.toBlockSizes c p chain → chain.Nodup → (∀ g ∈ chain, g ∈ C) →
      ∃ c', c.freeChain H p = .ok c' ∧ Released H.toBlockSizes c C chain.toFinset c' := by
  have hinv := blockAllocator_invariant.of_reachable h
  refine ⟨fun g hg => ?_, fun p chain hchain hnodup hsub => ?_⟩
  · obtain ⟨c', hrun, hfreed⟩ := hinv.freeGroup hg
    exact ⟨c', hrun, hinv.released (Finset.singleton_subset_iff.mpr hg) hfreed⟩
  · obtain ⟨c', hrun, hfreed⟩ := hinv.freeChain hchain hnodup hsub
    exact ⟨c', hrun, hinv.released (fun g hg => hsub g (List.mem_toFinset.mp hg)) hfreed⟩

/-- The last two blocks of the nursery, which `allocNursery` has linked. -/
theorem freeing_reachable_one : ∃ c c', (blockAllocator blockHeader64).Reachable (c, gaps) ∧
    c.freeChain blockHeader64 (some (blockHeader64.bdescrAt 250)) = .ok c' ∧
    Released blockHeader64.toBlockSizes c gaps [block 250, block 251].toFinset c' := by
  obtain ⟨c, h, -, -, hlink⟩ := blockAllocator_gaps
  have hchain : Chain blockHeader64.toBlockSizes c (some (blockHeader64.bdescrAt 250))
      [block 250, block 251] :=
    ⟨rfl, hlink 250 (by decide) (by decide) (by decide),
      hlink 251 (by decide) (by decide) (by decide)⟩
  obtain ⟨c', hrun, hreleased⟩ := (freeing_reachable h).2 _ _ hchain (by decide) fun g hg => by
    simp only [List.mem_cons, List.not_mem_nil, or_false] at hg
    rcases hg with rfl | rfl
    · exact block_mem_gaps (by decide) (by decide) (by decide)
    · exact block_mem_gaps (by decide) (by decide) (by decide)
  exact ⟨c, c', h, hrun, hreleased⟩

end HosBoot.Rts
