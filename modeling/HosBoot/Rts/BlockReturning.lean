/-
  Rts/BlockReturning.lean --- `returnMemoryToOS` in memory does what the model does.
-/
import HosBoot.Rts.BlockAllocating

set_option autoImplicit false

namespace HosBoot.Rts

open HosBoot.Foundation HosBoot.Foundation.LinkedList

variable {H : BlockHeader} {C : Finset Group} {before : Nat → BDescr} {c : BlockAlloc}
  {s s' : BlockModel} {T : Finset Group} {g u : Group}

namespace Represents

/-- `freeMBlocks` of megablocks that the allocator has. -/
theorem freeMBlocks (h : Represents H C before c s) {k : UInt32} {m : Nat}
    (howned : ∀ i, i < k.toNat → s.heapAlloced (m + i) = true) :
    Represents H C before (c.freeMBlocks m k) (s.freeMBlocks m k.toNat) := by
  have hcount : (c.mblocksAllocated - k.toUInt64).toNat = s.mblocksAllocated - k.toNat :=
    toNat_sub_of_le_size h.count (UInt32.toNat_toUInt64 k) (h.counted.le_count howned)
  refine ⟨h.view, h.lists, h.mblocks, h.kept, h.nAlloc, h.hwAlloc, ?_, hcount,
    h.counted.freeMBlocks howned, Nat.le_trans (Nat.sub_le _ _) h.bound⟩
  unfold BlockAlloc.freeMBlocks BlockModel.freeMBlocks
  rw [h.map]

/-- The pointer to the first group has been read, and not yet stored. -/
theorem behind (h : Represents H C before c s) {bd : Nat} {rest : List Nat}
    (hlist : s.freeMBlockList = bd :: rest) :
    Represents H C before { c with freeMBlockList := (c.bdescr (H.bdescrAt bd)).link }
      { s with freeMBlockList := rest } := by
  have hmblocks := h.mblocks
  rw [hlist, List.map_cons] at hmblocks
  exact ⟨h.view, h.lists, hmblocks.2, h.kept, h.nAlloc, h.hwAlloc, h.map, h.count, h.counted,
    h.bound⟩

/-- What the loop computes from the head of a group, with its 32-bit numbers. -/
theorem returnLoop_reads (h : Represents H C before c s) (hplaced : Placed H.toBlockSizes s T)
    (hg : g ∈ T) (hmega : H.blocksPerMBlock ≤ g.size) :
    (UInt32.ofNat (H.blocksToMBlocks (c.blocks (H.bdescrAt g.start)))).toNat =
        g.size / H.blocksPerMBlock ∧
      H.mblockOfBlock (c.bdescr (H.bdescrAt g.start)).start = g.start / H.blocksPerMBlock := by
  obtain ⟨hsize, hmblock⟩ := hplaced.mega_reads hg hmega
  have hle := Nat.le_trans (hplaced.mblocks_le h.counted hg) h.bound
  refine ⟨?_, ?_⟩
  · rw [h.blocks_eq]
    exact (congrArg (fun k => (UInt32.ofNat k).toNat) hsize).trans (H.mblocks_toNat hle)
  · rw [h.start_eq]
    exact hmblock

/-- The end of the first group goes. -/
theorem returnEnd (h : Represents H C before c s) (hplaced : Placed H.toBlockSizes s T)
    (hC : C ⊆ held .live T) (hg : g ∈ T) (hfree : g.label = .free)
    (hmega : H.blocksPerMBlock ≤ g.size) {n : UInt32}
    (hlarge : n.toNat < g.size / H.blocksPerMBlock) :
    Represents H C before
      ((c.setBlocks (H.bdescrAt g.start) (H.mblockGroupBlocks
        (g.size / H.blocksPerMBlock - n.toNat))).freeMBlocks
          (g.start / H.blocksPerMBlock + (g.size / H.blocksPerMBlock - n.toNat)) n)
      ((s.setBlocks g.start (H.mblockGroupBlocks
        (g.size / H.blocksPerMBlock - n.toNat))).freeMBlocks
          (g.start / H.blocksPerMBlock + (g.size / H.blocksPerMBlock - n.toNat)) n.toNat) := by
  have hle := Nat.le_trans (hplaced.mblocks_le h.counted hg) h.bound
  have hpos : 0 < g.size / H.blocksPerMBlock - n.toNat := Nat.sub_pos_of_lt hlarge
  have h₁ := h.setBlocks (p := g.start)
    (Nat.lt_of_lt_of_le H.perMBlock_pos (perMBlock_le_group hpos))
    (H.group_fits_of_le hpos (by omega))
    (hplaced.not_kept hC hg (by rw [hfree]; decide) (Tile.has_start (hplaced.tiles.pos g hg)))
  refine h₁.freeMBlocks fun i hi => ?_
  rw [Nat.add_assoc]
  exact hplaced.mblock_owned hg hmega (by omega)

/-- The loop of `returnMemoryToOS`; `free_mblock_list` is only stored at its end. -/
theorem returnLoop (rest : List Nat) {c : BlockAlloc} {s : BlockModel} {T : Finset Group}
    {p : Option Nat} {n : UInt32} {k : Nat}
    (h : Represents H C before { c with freeMBlockList := p } { s with freeMBlockList := rest })
    (hsettled : Settled H.toBlockSizes { s with freeMBlockList := rest } T)
    (hC : C ⊆ held .live T) (hk : rest.length ≤ k) :
    ∃ c', c.returnLoop H k n p = .ok c' ∧
      Represents H C before c' (s.returnLoop H.toBlockSizes n.toNat rest) := by
  induction rest generalizing c s T p n k with
  | nil =>
    have hp : p = none := h.mblocks
    subst hp
    exact ⟨_, by cases k <;> rfl, h⟩
  | cons bd rest ih =>
    have hp : p = some (H.bdescrAt bd) := h.mblocks.head
    subst hp
    cases k with
    | zero => exact absurd hk (Nat.not_succ_le_zero _)
    | succ k =>
      rw [BlockAlloc.returnLoop]
      by_cases hdone : n = 0
      · have hdone' : n.toNat = 0 := congrArg UInt32.toNat hdone
        rw [if_pos hdone, BlockModel.returnLoop, if_pos hdone']
        exact ⟨_, rfl, h⟩
      have hdone' : n.toNat ≠ 0 := fun heq => hdone (UInt32.toNat_inj.mp heq)
      obtain ⟨g, hg, hmega, rfl⟩ := (hsettled.placed.lists.mem_mblock bd).mp List.mem_cons_self
      obtain ⟨hgT, hgfree⟩ := mem_held.mp hg
      obtain ⟨hsize, hmblock⟩ := hsettled.placed.mega_reads hgT hmega
      obtain ⟨hcsize, hcmblock⟩ := h.returnLoop_reads hsettled.placed hgT hmega
      have hcsize : (UInt32.ofNat (H.blocksToMBlocks (c.blocks (H.bdescrAt g.start)))).toNat =
        g.size / H.blocksPerMBlock := hcsize
      simp only [if_neg hdone, hcmblock, gt_iff_lt, UInt32.lt_iff_toNat_lt, hcsize]
      by_cases hlarge : n.toNat < g.size / H.blocksPerMBlock
      · -- the end of this group is enough
        have h₁ := h.returnEnd hsettled.placed hC hgT hgfree hmega hlarge
        rw [if_pos hlarge, BlockModel.returnLoop_end _ (s := s) hdone' hsize hmblock hlarge,
          UInt32.toNat_sub_of_le _ _ (UInt32.le_iff_toNat_le.mpr (by rw [hcsize]; omega)), hcsize]
        exact ⟨_, rfl, h₁⟩
      · -- the whole group goes
        have hle := Nat.not_lt.mp hlarge
        rw [if_neg hlarge, BlockModel.returnLoop_whole _ (s := s) hdone' hsize hmblock hle]
        obtain ⟨size, hsizeDef⟩ : ∃ size : UInt32, size =
          UInt32.ofNat (H.blocksToMBlocks (c.blocks (H.bdescrAt g.start))) := ⟨_, rfl⟩
        rw [← hsizeDef] at hcsize ⊢
        have h₁ := (h.behind rfl).freeMBlocks (k := size) (m := g.start / H.blocksPerMBlock)
          fun i hi => hsettled.placed.mblock_owned hgT hmega (by rw [← hcsize]; exact hi)
        obtain ⟨T', hsettled', hevolves⟩ := drop_spec hsettled hgT hgfree hmega rfl rfl
        rw [← hcsize] at hsettled' hevolves ⊢
        have hnext := ih (c := c.freeMBlocks (g.start / H.blocksPerMBlock) size)
          (s := s.freeMBlocks (g.start / H.blocksPerMBlock) size.toNat) (n := n - size) h₁
          hsettled' (by rw [hevolves.lives]; exact hC) (Nat.le_of_succ_le_succ hk)
        rw [UInt32.toNat_sub_of_le _ _ (UInt32.le_iff_toNat_le.mpr (by rw [hcsize]; exact hle))]
          at hnext
        exact hnext

/-- `returnMemoryToOS`. -/
theorem returnMemoryToOS (h : Represents H C before c s) (hsettled : Settled H.toBlockSizes s T)
    (hC : C ⊆ held .live T) (n : UInt32) :
    ∃ c', c.returnMemoryToOS H n = .ok c' ∧
      Represents H C before c' (s.returnMemoryToOS H.toBlockSizes n.toNat) :=
  returnLoop s.freeMBlockList h hsettled hC (h.mega_length_le hsettled.placed)

end Represents

end HosBoot.Rts
