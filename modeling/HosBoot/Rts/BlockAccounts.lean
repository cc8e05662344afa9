/-
  Rts/BlockAccounts.lean --- every block is accounted for, in every run.

  Free blocks and the client's blocks add up to the megablocks that the allocator has, which
  is the leak check of sm/Sanity.c.  A megablock that no client uses is on the list of free
  megablock groups; `returnMemoryToOS` stops early only when there is none left.
-/
import HosBoot.Rts.BlockSanity

set_option autoImplicit false

namespace HosBoot.Rts

open HosBoot.Foundation HosBoot.Foundation.LinkedList

variable {H : BlockHeader} {L : BlockSizes} {c : BlockAlloc} {s : BlockModel}
  {T C F : Finset Group} {g u : Group}

/-! ## Counting lists -/

/-- A list that holds the heads of some groups, each once. -/
theorem sum_heads {list : List Nat} (hnodup : list.Nodup)
    (hmem : ∀ bd, bd ∈ list ↔ ∃ g ∈ F, g.start = bd)
    (hinj : ∀ g ∈ F, ∀ u ∈ F, g.start = u.start → g = u) {f : Nat → Nat}
    (hf : ∀ g ∈ F, f g.start = g.size) : (list.map f).sum = ∑ g ∈ F, g.size := by
  have himage : list.toFinset = F.image Tile.start := by
    ext bd
    rw [List.mem_toFinset, hmem, Finset.mem_image]
  rw [← List.sum_toFinset f hnodup, himage, Finset.sum_image fun g hg u hu => hinj g hg u hu]
  exact Finset.sum_congr rfl hf

/-- The sizes on the free lists are those of the free groups. -/
theorem Settled.sum_free (h : Settled L s T) :
    (((List.range maxFreeList).map fun ln =>
        ((s.freeList ln).map fun bd => (s.bdescr bd).blocks).sum).sum +
      (s.freeMBlockList.map fun bd =>
        L.blocksPerMBlock * L.blocksToMBlocks (s.bdescr bd).blocks).sum) =
      ∑ g ∈ held .free T, g.size := by
  have hplaced := h.placed
  have hlists := hplaced.lists
  have hinj := hplaced.free_inj
  have hsmall : ∀ ln, ((s.freeList ln).map fun bd => (s.bdescr bd).blocks).sum =
      ∑ g ∈ (held .free T).filter (fun g => g.size < L.blocksPerMBlock) with log2 g.size = ln,
        g.size := by
    intro ln
    refine sum_heads (hlists.nodup ln) (fun bd => ?_) (fun g hg u hu => ?_) fun g hg => ?_
    · rw [hlists.mem_free]
      simp only [Finset.mem_filter, and_assoc]
    · exact hinj g (Finset.mem_of_mem_filter g (Finset.mem_of_mem_filter g hg)) u
        (Finset.mem_of_mem_filter u (Finset.mem_of_mem_filter u hu))
    · obtain ⟨hg, -⟩ := Finset.mem_filter.mp hg
      obtain ⟨hg, hlt⟩ := Finset.mem_filter.mp hg
      exact ((hplaced.groups g (mem_held.mp hg).1).blocks).trans (blocksOf_small hlt)
  have hmega : (s.freeMBlockList.map fun bd =>
      L.blocksPerMBlock * L.blocksToMBlocks (s.bdescr bd).blocks).sum =
      ∑ g ∈ held .free T with ¬ g.size < L.blocksPerMBlock, g.size := by
    refine sum_heads (hlists.sorted.imp Nat.ne_of_lt) (fun bd => ?_) (fun g hg u hu => ?_)
      fun g hg => ?_
    · rw [hlists.mem_mblock]
      simp only [Finset.mem_filter, Nat.not_lt, and_assoc]
    · exact hinj g (Finset.mem_of_mem_filter g hg) u (Finset.mem_of_mem_filter u hu)
    · obtain ⟨hg, hge⟩ := Finset.mem_filter.mp hg
      have hgT := (mem_held.mp hg).1
      have hG := hplaced.mega hgT (Nat.not_lt.mp hge)
      rw [(hplaced.groups g hgT).blocks, blocksOf_mega hG.ge, L.toMBlocks_group _ hG.mblocks_pos,
        Nat.mul_comm, ← hG.size_eq]
  have hmaps : ∀ g ∈ (held .free T).filter (fun g => g.size < L.blocksPerMBlock),
      log2 g.size ∈ Finset.range maxFreeList := by
    intro g hg
    obtain ⟨hg, hlt⟩ := Finset.mem_filter.mp hg
    rw [Finset.mem_range]
    exact (log2_spec (hplaced.tiles.pos g (mem_held.mp hg).1)
      (Nat.lt_trans hlt L.perMBlock_lt)).1
  rw [hmega, List.map_congr_left fun ln _ => hsmall ln,
    ← List.sum_toFinset _ List.nodup_range, List.toFinset_range,
    Finset.sum_fiberwise_of_maps_to hmaps, Finset.sum_filter_add_sum_filter_not]

/-- A loop of `countFreeList` adds up a list, as long as the total fits in a `W_`. -/
theorem countList_eq {w : UInt32 → UInt64} {f : Nat → Nat} {list : List Nat} {p : Option Nat}
    {k n : Nat} {total : UInt64}
    (hlinked : Linked (fun x => (c.bdescr x).link) p (list.map H.bdescrAt))
    (hsize : ∀ bd ∈ list, (w (c.bdescr (H.bdescrAt bd)).blocks).toNat = f bd)
    (htotal : total.toNat = n) (hfits : n + (list.map f).sum < 2 ^ 64) (hk : list.length ≤ k) :
    ∃ total', c.countList w k total p = .ok total' ∧ total'.toNat = n + (list.map f).sum := by
  induction list generalizing p k n total with
  | nil =>
    have hp : p = none := hlinked
    subst hp
    exact ⟨total, by cases k <;> rfl, htotal⟩
  | cons bd rest ih =>
    obtain ⟨hp, hrest⟩ := hlinked
    subst hp
    rw [List.map_cons, List.sum_cons, ← Nat.add_assoc] at hfits
    cases k with
    | zero => exact absurd hk (Nat.not_succ_le_zero _)
    | succ k =>
      have hadd := Represents.toNat_add_of_lt_size htotal (hsize bd List.mem_cons_self)
        (Nat.lt_of_le_of_lt (Nat.le_add_right _ _) hfits)
      rw [List.map_cons, List.sum_cons, ← Nat.add_assoc, BlockAlloc.countList]
      exact ih hrest (fun x hx => hsize x (List.mem_cons_of_mem bd hx)) hadd hfits
        (Nat.le_of_succ_le_succ hk)

/-- The loop over the free lists, by induction on their numbers. -/
theorem Between.countLists (h : Between H c C s T) {lns : List Nat} {n : Nat} {total : UInt64}
    (htotal : total.toNat = n)
    (hfits : n + (lns.map fun ln => ((s.freeList ln).map fun bd => (s.bdescr bd).blocks).sum).sum <
      2 ^ 64) :
    ∃ total', lns.foldlM (fun total ln =>
        c.countList UInt32.toUInt64 (c.turns H) total (c.freeList ln)) total = .ok total' ∧
      total'.toNat = n +
        (lns.map fun ln => ((s.freeList ln).map fun bd => (s.bdescr bd).blocks).sum).sum := by
  induction lns generalizing n total with
  | nil => exact ⟨total, rfl, htotal⟩
  | cons ln rest ih =>
    rw [List.map_cons, List.sum_cons, ← Nat.add_assoc] at hfits ⊢
    have hsize : ∀ bd ∈ s.freeList ln,
        (c.bdescr (H.bdescrAt bd)).blocks.toUInt64.toNat = (s.bdescr bd).blocks := fun bd _ =>
      (UInt32.toNat_toUInt64 _).trans (h.represents.blocks_eq bd)
    obtain ⟨total₁, hrun₁, htotal₁⟩ := countList_eq (w := UInt32.toUInt64)
      (f := fun bd => (s.bdescr bd).blocks) (h.represents.lists ln).linked hsize htotal (Nat.lt_of_le_of_lt (Nat.le_add_right _ _) hfits)
      (h.list_length_le ln)
    obtain ⟨total', hrun, htotal'⟩ := ih htotal₁ hfits
    refine ⟨total', ?_, htotal'⟩
    rw [List.foldlM_cons, hrun₁]
    exact hrun

/-- The free groups lie in at most `maxMBlocks` megablocks. -/
theorem Between.free_fits (h : Between H c C s T) : ∑ g ∈ held .free T, g.size < 2 ^ 64 := by
  have hle := h.settled.placed.sum_le (R := held .free T) h.represents.counted
    (Finset.filter_subset _ T)
  have hper : H.blocksPerMBlock < 2 ^ 9 := H.perMBlock_lt
  have hmax := H.maxMBlocks_lt
  have hbound := h.represents.bound
  calc ∑ g ∈ held .free T, g.size ≤ s.mblocksAllocated * H.blocksPerMBlock := hle
    _ ≤ 2 ^ 32 * 2 ^ 9 := Nat.mul_le_mul (by omega) (Nat.le_of_lt hper)
    _ < 2 ^ 64 := by decide

/-- `countFreeList` counts the blocks of the free groups. -/
theorem Between.countFreeList (h : Between H c C s T) :
    ∃ total, c.countFreeList H = .ok total ∧ total.toNat = ∑ g ∈ held .free T, g.size := by
  have hsum := h.settled.sum_free
  have hfits := h.free_fits
  rw [← hsum] at hfits ⊢
  have hzero : (0 : UInt64).toNat = 0 := rfl
  obtain ⟨total₁, hrun₁, htotal₁⟩ := h.countLists hzero
    (show 0 + ((List.range maxFreeList).map _).sum < 2 ^ 64 by
      rw [Nat.zero_add]
      exact Nat.lt_of_le_of_lt (Nat.le_add_right _ _) hfits)
  rw [Nat.zero_add] at htotal₁
  have hsize : ∀ bd ∈ s.freeMBlockList,
      (UInt64.ofNat (H.blocksPerMBlock *
        H.blocksToMBlocks (c.bdescr (H.bdescrAt bd)).blocks.toNat)).toNat =
      H.blocksPerMBlock * H.blocksToMBlocks (s.bdescr bd).blocks := by
    intro bd hbd
    rw [show (c.bdescr (H.bdescrAt bd)).blocks.toNat = _ from h.represents.blocks_eq bd]
    refine UInt64.toNat_ofNat_of_lt' (Nat.lt_of_le_of_lt ?_ hfits)
    exact Nat.le_trans (List.le_sum_of_mem (List.mem_map.mpr ⟨bd, hbd, rfl⟩)) (Nat.le_add_left _ _)
  obtain ⟨total, hrun, htotal⟩ := countList_eq
    (w := fun blocks => UInt64.ofNat (H.blocksPerMBlock * H.blocksToMBlocks blocks.toNat))
    (f := fun bd => H.blocksPerMBlock * H.blocksToMBlocks (s.bdescr bd).blocks)
    h.represents.mblocks hsize htotal₁ hfits (h.represents.mega_length_le h.settled.placed)
  refine ⟨total, ?_, htotal⟩
  rw [BlockAlloc.countFreeList, hrun₁]
  exact hrun

/-- No block is lost: the check for leaks in `memInventory`. -/
theorem blockAllocator_noLeak (h : (blockAllocator H).Reachable (c, C)) :
    ∃ total, c.countFreeList H = .ok total ∧
      ∑ g ∈ C, g.size + total.toNat = c.mblocksAllocated.toNat * H.blocksPerMBlock := by
  obtain ⟨s, T, h⟩ := blockAllocator_invariant.of_reachable h
  have hlives : held .live T = C := h.lives
  obtain ⟨total, hrun, htotal⟩ := h.countFreeList
  have hrest : held .free T = T.filter fun g => ¬ g.label = .live := by
    ext g
    rw [mem_held, Finset.mem_filter]
    refine and_congr_right fun hg => ⟨fun hfree hlive => ?_, fun hlive => ?_⟩
    · rw [hfree] at hlive
      cases hlive
    · exact (h.settled.live_or_free hg).resolve_left hlive
  refine ⟨total, hrun, ?_⟩
  rw [htotal, h.represents.count, ← h.settled.placed.total h.represents.counted, ← hlives, hrest,
    held, Finset.sum_filter_add_sum_filter_not]

/-- Two blocks of the nursery are free. -/
theorem blockAllocator_noLeak_one : ∃ c total, (blockAllocator blockHeader64).Reachable (c, gaps) ∧
    c.countFreeList blockHeader64 = .ok total ∧ total.toNat = 2 := by
  obtain ⟨c, h, hcount, -⟩ := blockAllocator_gaps
  obtain ⟨total, hrun, hsum⟩ := blockAllocator_noLeak h
  rw [gaps_sum, hcount] at hsum
  exact ⟨c, total, h, hrun, Nat.add_left_cancel (show 250 + total.toNat = 250 + 2 from hsum)⟩

/-! ## Coalescing -/

/-- A megablock of the allocator's that a client has nothing in is free as a whole. -/
theorem Settled.unused_mblock (h : Settled L s T) {m : Nat} (hm : s.heapAlloced m = true)
    (hunused : ∀ g ∈ held .live T, ∀ a, g.Has a → a / L.blocksPerMBlock ≠ m) :
    ∃ g ∈ held .free T, L.blocksPerMBlock ≤ g.size ∧ g.start / L.blocksPerMBlock ≤ m ∧
      m < g.start / L.blocksPerMBlock + g.size / L.blocksPerMBlock := by
  have hplaced := h.placed
  have howned : Owned L s (m * L.blocksPerMBlock) := by
    unfold Owned
    rw [mul_div_perMBlock]
    exact hm
  obtain ⟨g, hg, hhas⟩ := (hplaced.tiles.cover _).mp howned
  have hfree : g.label = .free := by
    refine (h.live_or_free hg).resolve_left fun hlive => ?_
    exact hunused g (mem_held.mpr ⟨hg, hlive⟩) _ hhas (mul_div_perMBlock m)
  rcases Nat.lt_or_ge g.size L.blocksPerMBlock with hlt | hge
  · -- a small group at the start of the megablock has a neighbour in it, which is free too
    exfalso
    have hsmall := (hplaced.groups g hg).small_or.1 hlt
    have hdiv := hsmall.div_eq hhas
    rw [mul_div_perMBlock] at hdiv
    have hstart : g.start = m * L.blocksPerMBlock := by
      refine Nat.le_antisymm hhas.1 ?_
      rw [hdiv]
      exact Nat.div_mul_le_self _ _
    have hinside : g.start % L.blocksPerMBlock + g.size < L.blocksPerMBlock := by
      rw [hstart, Nat.mul_mod_left, Nat.zero_add]
      exact hlt
    obtain ⟨u, hu, hnext, hlive⟩ := h.next_live hg hfree hlt hinside
    refine hunused u (mem_held.mpr ⟨hu, hlive⟩) u.start
      (Tile.has_start (hplaced.tiles.pos u hu)) ?_
    rw [hnext, Tile.stop, hstart, Nat.add_comm, Nat.add_mul_div_right _ _ L.perMBlock_pos,
      Nat.div_eq_of_lt hlt, Nat.zero_add]
  · have hspan := ((hplaced.mega hg hge).has_iff _).mp hhas
    rw [mul_div_perMBlock] at hspan
    exact ⟨g, mem_held.mpr ⟨hg, hfree⟩, hge, hspan.1, hspan.2⟩

/-- In every run a megablock without a block of a client's is on the list of free megablock
groups. -/
theorem unused_mblock_listed (h : (blockAllocator H).Reachable (c, C)) {m : Nat}
    (hm : c.heapAlloced m = true)
    (hunused : ∀ g ∈ C, ∀ a, g.Has a → a / H.blocksPerMBlock ≠ m) :
    ∃ list, Linked (fun x => (c.bdescr x).link) c.freeMBlockList list ∧
      ∃ bd ∈ list, H.mblockOfBdescr bd ≤ m ∧
        m < H.mblockOfBdescr bd + H.blocksToMBlocks (c.blocks bd) := by
  obtain ⟨s, T, h⟩ := blockAllocator_invariant.of_reachable h
  have hlives : held .live T = C := h.lives
  have hplaced := h.settled.placed
  rw [h.represents.map] at hm
  obtain ⟨g, hg, hge, hlow, hhigh⟩ := h.settled.unused_mblock hm (hlives ▸ hunused)
  have hgT := (mem_held.mp hg).1
  have hG := hplaced.mega hgT hge
  refine ⟨_, h.represents.mblocks, H.bdescrAt g.start, List.mem_map.mpr ⟨g.start,
    (hplaced.lists.mem_mblock _).mpr ⟨g, hg, hge, rfl⟩, rfl⟩, ?_⟩
  rw [H.mblockOfBdescr_bdescrAt, h.represents.blocks_eq, (hplaced.groups g hgT).blocks,
    blocksOf_mega hge, H.toMBlocks_group _ hG.mblocks_pos]
  exact ⟨hlow, hhigh⟩

/-- The two megablocks behind the first. -/
def behindFirst : Group := ⟨252, 504, .live⟩

/-- The first megablock, and then two. -/
theorem two_allocated : ∃ c c', (BlockAlloc.initBlockAllocator noBdescr).allocGroup blockHeader64
      252 0 = .ok (c, blockHeader64.bdescrAt 0) ∧
    returned blockHeader64.toBlockSizes c 0 = nursery ∧
    Unused blockHeader64.toBlockSizes c 2 1 ∧
    c.allocGroup blockHeader64 300 1 = .ok (c', blockHeader64.bdescrAt 252) ∧
    returned blockHeader64.toBlockSizes c' 252 = behindFirst ∧ c'.heapAlloced 0 = true := by
  refine ⟨_, _, rfl, rfl, ⟨fun i _ => ?_, by decide⟩, rfl, rfl, rfl⟩
  show (if 0 ≤ 1 + i ∧ 1 + i < 0 + 1 then true else false) = false
  exact if_neg (by omega)

/-- A client that has allocated three megablocks and freed the first. -/
theorem blockAllocator_freed : ∃ c,
    (blockAllocator blockHeader64).Reachable (c, {behindFirst}) ∧ c.heapAlloced 0 = true := by
  obtain ⟨c, c', hrun, hreturned, hunused, hrun', hreturned', hmap⟩ := two_allocated
  have hfirst := BlockStep.alloc (H := blockHeader64) (C := ∅) (show 0 < (252 : UInt64) by decide)
    ⟨fun _ _ => rfl, by decide⟩ hrun
  rw [hreturned] at hfirst
  have hsecond := BlockStep.alloc (H := blockHeader64) (C := {nursery})
    (show 0 < (300 : UInt64) by decide) hunused hrun'
  rw [hreturned'] at hsecond
  have hreach : (blockAllocator blockHeader64).Reachable (c', {behindFirst, nursery}) :=
    ⟨_, _, ⟨⟨noBdescr, rfl⟩, rfl⟩, .snoc (.snoc (.refl _) hfirst) hsecond⟩
  obtain ⟨c₁, h₁, hfreed⟩ := reachable_free hreach (g := nursery) (by decide)
  refine ⟨c₁, ?_, (congrFun hfreed.map 0).trans hmap⟩
  rw [show ({behindFirst, nursery} : Finset Group).erase nursery = {behindFirst} by decide] at h₁
  exact h₁

theorem unused_mblock_listed_freed : ∃ c list,
    (blockAllocator blockHeader64).Reachable (c, {behindFirst}) ∧
    Linked (fun x => (c.bdescr x).link) c.freeMBlockList list ∧
    ∃ bd ∈ list, blockHeader64.mblockOfBdescr bd ≤ 0 := by
  obtain ⟨c, h, hm⟩ := blockAllocator_freed
  obtain ⟨list, hlist, bd, hbd, hle, -⟩ := unused_mblock_listed h hm fun g hg a ha heq => by
    rw [Finset.mem_singleton.mp hg] at ha
    have hle : 252 ≤ a := ha.1
    have hzero : a / 252 = 0 := heq
    omega
  exact ⟨c, list, h, hlist, bd, hbd, hle⟩

/-- In every run `returnMemoryToOS` gives back exactly `k ≤ n` megablocks, all of them free; `k`
is `n`, or else the client has a block in every megablock that is left.  The client's groups
stay as they are. -/
theorem returnMemoryToOS_reachable (h : (blockAllocator H).Reachable (c, C)) (n : UInt32) :
    ∃ (c' : BlockAlloc) (R : Finset Nat), c.returnMemoryToOS H n = .ok c' ∧ R.card ≤ n.toNat ∧
      (∀ m, m ∈ R ↔ c.heapAlloced m = true ∧ c'.heapAlloced m = false) ∧
      (∀ m, c'.heapAlloced m = true → c.heapAlloced m = true) ∧
      c'.mblocksAllocated.toNat + R.card = c.mblocksAllocated.toNat ∧
      (R.card = n.toNat ∨ ∀ m, c'.heapAlloced m = true →
        ∃ g ∈ C, ∃ a, g.Has a ∧ a / H.blocksPerMBlock = m) ∧
      (∀ g ∈ C, ∀ a, g.Has a → a / H.blocksPerMBlock ∉ R ∧
        c'.bdescr (H.bdescrAt a) = c.bdescr (H.bdescrAt a)) := by
  obtain ⟨s, T, h⟩ := blockAllocator_invariant.of_reachable h
  obtain ⟨c', T', hrun, hreturns, hrep, h'⟩ := h.returnMemoryToOS n
  have hlives' : held .live T' = C := h'.lives
  obtain ⟨s', hs'⟩ : ∃ s', s' = s.returnMemoryToOS H.toBlockSizes n.toNat := ⟨_, rfl⟩
  rw [← hs'] at hreturns hrep h'
  obtain ⟨M, hM, hMcount⟩ := h.represents.counted
  obtain ⟨M', hM', hMcount'⟩ := h'.represents.counted
  obtain ⟨k, hk, hcount, hend⟩ := hreturns.count h.represents.counted
  have hleave : ∀ m, s'.heapAlloced m = true → s.heapAlloced m = true := fun m hm => by
    rw [hs'] at hm
    exact returnLoop_heapAlloced _ hm
  have hsub : M' ⊆ M := fun m hm => (hM m).mp (hleave m ((hM' m).mpr hm))
  have hcard : (M \ M').card = k := by
    rw [Finset.card_sdiff_of_subset hsub]
    omega
  refine ⟨c', M \ M', hrun, hcard ▸ hk, fun m => ?_, fun m hm => ?_, ?_, ?_, fun g hg a ha => ?_⟩
  · rw [Finset.mem_sdiff, ← hM, ← hM', h.represents.map, hrep.map, Bool.not_eq_true]
  · rw [hrep.map] at hm
    rw [h.represents.map]
    exact hleave m hm
  · rw [hcard, hrep.count, h.represents.count]
    exact hcount
  · rw [hcard]
    refine hend.imp_right fun hempty m hm => ?_
    by_contra hunused
    rw [hrep.map] at hm
    obtain ⟨g, hg, hge, -⟩ := h'.settled.unused_mblock hm fun g hg a ha heq =>
      hunused ⟨g, hlives' ▸ hg, a, ha, heq⟩
    have hlisted := (h'.settled.placed.lists.mem_mblock g.start).mpr ⟨g, hg, hge, rfl⟩
    rw [hempty] at hlisted
    exact List.not_mem_nil hlisted
  · refine ⟨fun hmem => ?_, hrep.kept g hg a ha⟩
    have howned : Owned H.toBlockSizes s' a :=
      (h'.settled.placed.tiles.cover a).mpr ⟨g, (h'.mem hg).1, ha⟩
    exact (Finset.mem_sdiff.mp hmem).2 ((hM' _).mp howned)

/-- One of three megablocks is free, and goes back. -/
theorem returnMemoryToOS_reachable_first : ∃ c c',
    (blockAllocator blockHeader64).Reachable (c, {behindFirst}) ∧
    c.returnMemoryToOS blockHeader64 1 = .ok c' ∧
    c'.mblocksAllocated.toNat + 1 = c.mblocksAllocated.toNat := by
  obtain ⟨c, h, hm⟩ := blockAllocator_freed
  obtain ⟨c', R, hrun, hle, hR, -, hcount, hend, -⟩ := returnMemoryToOS_reachable h 1
  have hcard : R.card = 1 := by
    rcases hend with hone | hused
    · exact hone
    · have hgone : c'.heapAlloced 0 = false := by
        by_contra hkept
        obtain ⟨g, hg, a, ha, hzero⟩ := hused 0 (Bool.not_eq_false _ ▸ hkept)
        rw [Finset.mem_singleton.mp hg] at ha
        have hlow : 252 ≤ a := ha.1
        have hzero : a / 252 = 0 := hzero
        omega
      exact Nat.le_antisymm hle (Finset.card_pos.mpr ⟨0, (hR 0).mpr ⟨hm, hgone⟩⟩)
  exact ⟨c, c', h, hrun, hcard ▸ hcount⟩

end HosBoot.Rts
