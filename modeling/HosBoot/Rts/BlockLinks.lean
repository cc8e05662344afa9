/-
  Rts/BlockLinks.lean --- the small functions of the block allocator in memory.

  One lemma for each function that stores links or descriptors: it represents what the model
  does.  The lists do not meet, and their heads are neither behind another head nor the
  client's, so that no store reaches a list or a descriptor that it should not.
-/
import Mathlib.Algebra.Order.BigOperators.Group.Finset
import HosBoot.Rts.BlockRefines

set_option autoImplicit false

namespace HosBoot.Rts

open HosBoot.Foundation HosBoot.Foundation.LinkedList

variable {H : BlockHeader} {C : Finset Group} {before : Nat → BDescr} {c : BlockAlloc}
  {s : BlockModel} {T : Finset Group} {g u : Group}

/-- `initGroup` clears the link of the head. -/
theorem initGroup_link (c : BlockAlloc) (bd : Nat) : ((c.initGroup bd).bdescr bd).link = none := by
  rw [BlockAlloc.initGroup, BlockAlloc.initRest]
  simp only [Nat.lt_irrefl, false_and, if_false]
  rw [c.setDescr_same]

/-! ## Lists that do not meet -/

/-- The lists do not meet each other or the groups `C`, and hold heads. -/
structure Tidy (C : Finset Group) (s : BlockModel) : Prop where
  nodup : ∀ ln, (s.freeList ln).Nodup
  unique : ∀ ln ln' bd, bd ∈ s.freeList ln → bd ∈ s.freeList ln' → ln = ln'
  notMega : ∀ ln bd, bd ∈ s.freeList ln → bd ∉ s.freeMBlockList
  megaNodup : s.freeMBlockList.Nodup
  head : ∀ bd, Listed s bd → (s.bdescr bd).blocks ≠ 0
  notKept : ∀ bd, Listed s bd → ∀ u ∈ C, ¬ u.Has bd

theorem Tidy.setBlocks (h : Tidy C s) {p n : Nat} (hpos : 0 < n) : Tidy C (s.setBlocks p n) := by
  refine ⟨h.nodup, h.unique, h.notMega, h.megaNodup, fun bd hbd => ?_, h.notKept⟩
  by_cases heq : bd = p
  · rw [heq, BlockModel.setBlocks, setDescr_self]
    exact Nat.ne_of_gt hpos
  · rw [BlockModel.setBlocks, setDescr_other _ heq]
    exact h.head bd hbd

/-- The lists hold the heads of free groups. -/
theorem Placed.listed {L : BlockSizes} (h : Placed L s T) {bd : Nat} (hbd : Listed s bd) :
    ∃ u ∈ T, u.label = .free ∧ u.start = bd := by
  rcases hbd with ⟨ln, hbd⟩ | hbd
  · obtain ⟨u, hu, -, -, hstart⟩ := (h.lists.mem_free ln bd).mp hbd
    exact ⟨u, (mem_held.mp hu).1, (mem_held.mp hu).2, hstart⟩
  · obtain ⟨u, hu, -, hstart⟩ := (h.lists.mem_mblock bd).mp hbd
    exact ⟨u, (mem_held.mp hu).1, (mem_held.mp hu).2, hstart⟩

/-- A group that is not free has nothing on a list. -/
theorem Placed.not_listed {L : BlockSizes} (h : Placed L s T) (hg : g ∈ T)
    (hne : g.label ≠ .free) {a : Nat} (ha : g.Has a) : ¬ Listed s a := by
  intro hlisted
  obtain ⟨u, hu, hfree, rfl⟩ := h.listed hlisted
  have heq := h.tiles.apart u hu g hg u.start (Tile.has_start (h.tiles.pos u hu)) ha
  exact hne (heq ▸ hfree)

/-- A group that is not live has nothing of the groups that are kept. -/
theorem Placed.not_kept {L : BlockSizes} (h : Placed L s T) (hC : C ⊆ held .live T) (hg : g ∈ T)
    (hne : g.label ≠ .live) {a : Nat} (ha : g.Has a) : ∀ u ∈ C, ¬ u.Has a := by
  intro u hu hua
  obtain ⟨huT, hlive⟩ := mem_held.mp (hC hu)
  exact hne (h.tiles.apart u huT g hg a hua ha ▸ hlive)

theorem Placed.tidy {L : BlockSizes} (h : Placed L s T) (hC : C ⊆ held .live T) : Tidy C s := by
  have hinj := h.free_inj
  refine ⟨h.lists.nodup, fun ln ln' bd hln hln' => ?_, fun ln bd hln hmega => ?_,
    h.lists.sorted.imp Nat.ne_of_lt, fun bd hbd => ?_, fun bd hbd => ?_⟩
  · obtain ⟨x, hx, -, hxlog, hxstart⟩ := (h.lists.mem_free ln bd).mp hln
    obtain ⟨y, hy, -, hylog, hystart⟩ := (h.lists.mem_free ln' bd).mp hln'
    rw [← hxlog, ← hylog, hinj x hx y hy (hxstart.trans hystart.symm)]
  · obtain ⟨x, hx, hlt, -, hxstart⟩ := (h.lists.mem_free ln bd).mp hln
    obtain ⟨y, hy, hge, hystart⟩ := (h.lists.mem_mblock bd).mp hmega
    rw [hinj x hx y hy (hxstart.trans hystart.symm)] at hlt
    exact absurd hge (Nat.not_le.mpr hlt)
  · obtain ⟨x, hx, -, rfl⟩ := h.listed hbd
    rw [(h.groups x hx).blocks]
    exact Nat.ne_of_gt (blocksOf_pos (h.tiles.pos x hx))
  · obtain ⟨x, hx, hfree, rfl⟩ := h.listed hbd
    exact h.not_kept hC hx (by rw [hfree]; decide) (Tile.has_start (h.tiles.pos x hx))

/-! ## Room -/

/-- The blocks of the allocator's megablocks, counted group by group. -/
theorem Placed.total {L : BlockSizes} (h : Placed L s T) (hmap : MapCounted s) :
    ∑ u ∈ T, u.size = s.mblocksAllocated * L.blocksPerMBlock := by
  obtain ⟨M, hM, hcount⟩ := hmap
  let addresses := M.biUnion fun m =>
    Finset.Ico (m * L.blocksPerMBlock) (m * L.blocksPerMBlock + L.blocksPerMBlock)
  have hmem : ∀ m a, a ∈ Finset.Ico (m * L.blocksPerMBlock)
      (m * L.blocksPerMBlock + L.blocksPerMBlock) ↔ a / L.blocksPerMBlock = m := by
    intro m a
    have hper := L.perMBlock_pos
    rw [Finset.mem_Ico, Nat.div_eq_iff hper]
    omega
  have hregion : ∀ a, Owned L s a ↔ a ∈ addresses := by
    intro a
    simp only [addresses, Finset.mem_biUnion, hmem]
    unfold Owned
    rw [hM]
    exact ⟨fun ha => ⟨_, ha, rfl⟩, fun ⟨m, hm, ha⟩ => ha ▸ hm⟩
  have hdisjoint : ∀ m ∈ M, ∀ k ∈ M, m ≠ k →
      Disjoint (Finset.Ico (m * L.blocksPerMBlock) (m * L.blocksPerMBlock + L.blocksPerMBlock))
        (Finset.Ico (k * L.blocksPerMBlock) (k * L.blocksPerMBlock + L.blocksPerMBlock)) := by
    intro m _ k _ hne
    rw [Finset.disjoint_left]
    intro a hma hka
    exact hne (((hmem m a).mp hma).symm.trans ((hmem k a).mp hka))
  rw [h.tiles.sum_size hregion, Finset.card_biUnion hdisjoint, hcount]
  simp

/-- The megablocks of some groups are megablocks that the allocator has. -/
theorem Placed.sum_le {L : BlockSizes} (h : Placed L s T) (hmap : MapCounted s)
    {R : Finset Group} (hR : R ⊆ T) : ∑ u ∈ R, u.size ≤ s.mblocksAllocated * L.blocksPerMBlock := by
  rw [← h.total hmap]
  exact Finset.sum_le_sum_of_subset hR

theorem Placed.mblocks_le {L : BlockSizes} (h : Placed L s T) (hmap : MapCounted s) (hg : g ∈ T) :
    g.size / L.blocksPerMBlock ≤ s.mblocksAllocated := by
  have hle := h.sum_le hmap (Finset.singleton_subset_iff.mpr hg)
  rw [Finset.sum_singleton] at hle
  exact Nat.div_le_of_le_mul (Nat.mul_comm _ _ ▸ hle)

/-- A list of different groups is no longer than there are blocks. -/
theorem Placed.length_le {L : BlockSizes} (h : Placed L s T) (hmap : MapCounted s) {l : List Nat}
    (hnodup : l.Nodup) (hmem : ∀ x ∈ l, ∃ u ∈ T, u.start = x) :
    l.length ≤ s.mblocksAllocated * L.blocksPerMBlock := by
  have hsub : l.toFinset ⊆ T.image Tile.start := by
    intro x hx
    obtain ⟨u, hu, rfl⟩ := hmem x (List.mem_toFinset.mp hx)
    exact Finset.mem_image_of_mem _ hu
  calc l.length = l.toFinset.card := (List.toFinset_card_of_nodup hnodup).symm
    _ ≤ (T.image Tile.start).card := Finset.card_le_card hsub
    _ ≤ T.card := Finset.card_image_le
    _ = ∑ _u ∈ T, 1 := Finset.card_eq_sum_ones T
    _ ≤ ∑ u ∈ T, u.size := Finset.sum_le_sum fun u hu => h.tiles.pos u hu
    _ = s.mblocksAllocated * L.blocksPerMBlock := h.total hmap

/-- Groups of at most `maxMBlocks` megablocks have a size that fits in 32 bits. -/
theorem BlockSizes.group_fits_of_le (L : BlockSizes) {k : Nat} (hpos : 0 < k)
    (hk : k ≤ L.maxMBlocks) : L.mblockGroupBlocks k < 2 ^ 32 := by
  refine Nat.lt_of_le_of_lt ?_ L.group_fits
  rcases Nat.eq_or_lt_of_le hk with heq | hlt
  · rw [heq]
  · exact Nat.le_of_lt (L.group_lt _ _ hpos hlt)

/-- A group of `k` megablocks has at least `k` blocks. -/
theorem BlockSizes.le_mblockGroupBlocks (L : BlockSizes) {k : Nat} (hpos : 0 < k) :
    k ≤ L.mblockGroupBlocks k := by
  induction k with
  | zero => exact absurd hpos (Nat.lt_irrefl 0)
  | succ k ih =>
    rcases Nat.eq_zero_or_pos k with rfl | hk
    · rw [L.group_one]
      exact L.perMBlock_pos
    · exact Nat.lt_of_le_of_lt (ih hk) (L.group_lt k (k + 1) hk (Nat.lt_succ_self k))

theorem BlockSizes.maxMBlocks_lt (L : BlockSizes) : L.maxMBlocks < 2 ^ 32 := by
  rcases Nat.eq_zero_or_pos L.maxMBlocks with hzero | hpos
  · rw [hzero]
    decide
  · exact Nat.lt_of_le_of_lt (L.le_mblockGroupBlocks hpos) L.group_fits

/-- A number of megablocks fits in a `nat`. -/
theorem BlockSizes.mblocks_toNat (L : BlockSizes) {k : Nat} (hk : k ≤ L.maxMBlocks) :
    (UInt32.ofNat k).toNat = k :=
  UInt32.toNat_ofNat_of_lt' (Nat.lt_of_le_of_lt hk L.maxMBlocks_lt)

/-- The blocks of some megablocks fit in a `W_`. -/
theorem BlockSizes.mblocks_blocks (L : BlockSizes) {k : Nat} (hk : k ≤ L.maxMBlocks) :
    ((UInt32.ofNat k).toUInt64 * UInt64.ofNat L.blocksPerMBlock).toNat = k * L.blocksPerMBlock := by
  have hper : L.blocksPerMBlock < 2 ^ 9 := L.perMBlock_lt
  have hlt := Nat.lt_of_le_of_lt hk L.maxMBlocks_lt
  have hmul : k * L.blocksPerMBlock < 2 ^ 32 * 2 ^ 9 :=
    Nat.mul_lt_mul'' hlt hper
  rw [UInt64.toNat_mul, UInt32.toNat_toUInt64, L.mblocks_toNat hk,
    UInt64.toNat_ofNat_of_lt' (show L.blocksPerMBlock < 2 ^ 64 by omega)]
  exact Nat.mod_eq_of_lt (by omega)

namespace Represents

/-- The loops over lists have enough turns. -/
theorem turns_eq (h : Represents H C before c s) :
    c.turns H = s.mblocksAllocated * H.blocksPerMBlock := by
  rw [BlockAlloc.turns, h.count]

/-! ## Free lists -/

/-- `dbl_link_remove` takes a group off its list. -/
theorem dblLinkRemove (h : Represents H C before c s) (htidy : Tidy C s) {bd ln : Nat}
    (hln : ln < maxFreeList) (hmem : bd ∈ s.freeList ln) :
    ∃ c', c.dblLinkRemove H (H.bdescrAt bd) ln = .ok c' ∧ Represents H C before c'
      { s with freeList := Function.update s.freeList ln ((s.freeList ln).erase bd) } := by
  have hlist := h.lists ln
  have hmem' := H.mem_map_bdescrAt.mpr hmem
  have hnodup := H.map_bdescrAt_nodup (htidy.nodup ln)
  have hrelinks := H.remove_relinks c.bdescr _ _ _ hlist hmem'
  have hremoved := H.remove_list c.bdescr _ _ _ hlist hnodup hmem'
  rw [← H.map_bdescrAt_erase] at hremoved
  refine ⟨_, if_pos hln, h.relink hrelinks (fun a ha => htidy.head a (.inl ⟨ln, ha⟩))
    (fun a ha => htidy.notKept a (.inl ⟨ln, ha⟩)) (fun i => ?_) ?_⟩
  · by_cases hi : i = ln
    · rw [hi, Function.update_self, Function.update_self]
      exact hremoved
    · rw [Function.update_of_ne hi, Function.update_of_ne hi]
      exact h.list_congr hrelinks fun a ha hchanged => hi (htidy.unique i ln a ha hchanged)
  · exact h.mblocks_congr hrelinks fun a ha hchanged => htidy.notMega ln a hchanged ha

/-- `dbl_link_onto` puts a group on a list. -/
theorem dblLinkOnto (h : Represents H C before c s) (htidy : Tidy C s) {bd ln : Nat}
    (hln : ln < maxFreeList) (hnew : ¬ Listed s bd) (hhead : (s.bdescr bd).blocks ≠ 0)
    (hkept : ∀ u ∈ C, ¬ u.Has bd) :
    ∃ c', c.dblLinkOnto H (H.bdescrAt bd) ln = .ok c' ∧ Represents H C before c'
      { s with freeList := Function.update s.freeList ln (bd :: s.freeList ln) } := by
  have hlist := h.lists ln
  have hnot : H.bdescrAt bd ∉ (s.freeList ln).map H.bdescrAt := fun hmem =>
    hnew (.inl ⟨ln, H.mem_map_bdescrAt.mp hmem⟩)
  have hnodup := H.map_bdescrAt_nodup (htidy.nodup ln)
  have hrelinks : Relinks ((bd :: s.freeList ln).map H.bdescrAt) c.bdescr
      (H.dblLinkOnto c.bdescr (c.freeList ln) (H.bdescrAt bd)).1 :=
    H.onto_relinks c.bdescr _ _ _ hlist
  have hpushed := H.onto_list c.bdescr _ _ _ hlist hnodup hnot
  have hcases : ∀ a ∈ bd :: s.freeList ln, a = bd ∨ Listed s a := by
    intro a ha
    rcases List.mem_cons.mp ha with rfl | ha
    · exact .inl rfl
    · exact .inr (.inl ⟨ln, ha⟩)
  refine ⟨_, if_pos hln, h.relink hrelinks (fun a ha => ?_) (fun a ha => ?_) (fun i => ?_) ?_⟩
  · rcases hcases a ha with rfl | hlisted
    · exact hhead
    · exact htidy.head a hlisted
  · rcases hcases a ha with rfl | hlisted
    · exact hkept
    · exact htidy.notKept a hlisted
  · by_cases hi : i = ln
    · rw [hi, Function.update_self, Function.update_self]
      exact hpushed
    · rw [Function.update_of_ne hi, Function.update_of_ne hi]
      refine h.list_congr hrelinks fun a ha hchanged => ?_
      rcases List.mem_cons.mp hchanged with rfl | hchanged
      · exact hnew (.inl ⟨i, ha⟩)
      · exact hi (htidy.unique i ln a ha hchanged)
  · refine h.mblocks_congr hrelinks fun a ha hchanged => ?_
    rcases List.mem_cons.mp hchanged with rfl | hchanged
    · exact hnew (.inr ha)
    · exact htidy.notMega ln a hchanged ha

/-- `while (ln < lnmax && free_list[ln] == NULL) ln++`. -/
theorem skipEmpty (h : Represents H C before c s) (k ln : Nat) :
    c.skipEmpty k ln = s.skipEmpty k ln := by
  induction k generalizing ln with
  | zero => rfl
  | succ k ih =>
    have hiff : c.freeList ln = none ↔ s.freeList ln = [] := by
      rw [(h.lists ln).linked.head, List.head?_eq_none_iff, List.map_eq_nil_iff]
    rw [BlockAlloc.skipEmpty, BlockModel.skipEmpty, ih]
    by_cases hempty : s.freeList ln = []
    · rw [if_pos hempty, if_pos (hiff.mpr hempty)]
    · rw [if_neg hempty, if_neg fun hnone => hempty (hiff.mp hnone)]

/-- The first group of a free list. -/
theorem first (h : Represents H C before c s) {ln bd : Nat} {rest : List Nat}
    (hlist : s.freeList ln = bd :: rest) : c.freeList ln = some (H.bdescrAt bd) := by
  rw [(h.lists ln).linked.head, hlist]
  rfl

/-! ## Tails and heads -/

/-- `setup_tail` of a group that ends inside its megablock. -/
theorem setupTail (h : Represents H C before c s) {bd : Nat} (hpos : 0 < (s.bdescr bd).blocks)
    (hin : bd % H.blocksPerMBlock + (s.bdescr bd).blocks ≤ H.blocksPerMBlock)
    (hlisted : ¬ Listed s (bd + (s.bdescr bd).blocks - 1))
    (hkept : ∀ u ∈ C, ¬ u.Has (bd + (s.bdescr bd).blocks - 1)) :
    Represents H C before (c.setupTail (H.bdescrAt bd)) (s.setupTail bd) := by
  have htail : c.tailOf (H.bdescrAt bd) = H.bdescrAt (s.tailOf bd) := by
    have hadd := H.bdescrAt_add (a := bd) (i := (s.bdescr bd).blocks - 1) (by omega)
    rw [BlockAlloc.tailOf, h.blocks_eq, BlockModel.tailOf, Nat.add_sub_assoc hpos,
      Nat.add_sub_assoc hpos, hadd]
  rw [BlockAlloc.setupTail, BlockModel.setupTail, htail]
  by_cases hone : s.tailOf bd = bd
  · rw [if_neg (fun hne => hne (congrArg H.bdescrAt hone)), if_neg (fun hne => hne hone)]
    exact h
  · rw [if_pos (fun heq => hone (H.bdescrAt_inj heq)), if_pos hone]
    refine h.setDescr ?_ (fun hmem => absurd hmem hlisted) hkept
    rw [h.view]
    simp [BlockSizes.view, H.numberAt_bdescrAt]

/-- From the last descriptor of a group to its head. -/
theorem findHead (h : Represents H C before c s) {bd head : Nat} (hhead : s.findHead bd = .ok head) :
    c.findHead (H.bdescrAt bd) = .ok (H.bdescrAt head) := by
  rw [BlockModel.findHead] at hhead
  rw [BlockAlloc.findHead, h.blocks_eq]
  by_cases hzero : (s.bdescr bd).blocks = 0
  · rw [if_pos hzero] at hhead ⊢
    cases hlink : (s.bdescr bd).link with
    | none =>
      rw [hlink] at hhead
      cases hhead
    | some x =>
      rw [hlink] at hhead
      cases hhead
      rw [h.link_eq hlink]
  · rw [if_neg hzero] at hhead ⊢
    cases hhead
    rfl

/-- `initGroup` of a group that has nothing on a list and nothing of the client's. -/
theorem initGroup_loose (h : Represents H C before c s)
    (hshape : Small H.toBlockSizes g ∨ Mega H.toBlockSizes g) (hpos : 0 < g.size)
    (hsize : (s.bdescr g.start).blocks = blocksOf H.toBlockSizes g.size)
    (hlisted : ∀ a, g.Has a → ¬ Listed s a) (hkept : ∀ a, g.Has a → ∀ u ∈ C, ¬ u.Has a) :
    Represents H C before (c.initGroup (H.bdescrAt g.start)) (s.initGroup H.toBlockSizes g.start) := by
  have hhas := Tile.has_start hpos
  have hset : Represents H C before
      (c.setDescr (H.bdescrAt g.start) fun d => { d with free := .within d.start, link := none })
      (s.setDescr g.start fun d => { d with free := .within d.start, link := none }) := by
    refine h.setDescr ?_ (fun hmem => absurd hmem (hlisted _ hhas)) (hkept _ hhas)
    rw [h.view]
    simp [BlockSizes.view]
  have hblocks : ((s.setDescr g.start fun d =>
      { d with free := .within d.start, link := none }).bdescr g.start).blocks =
        blocksOf H.toBlockSizes g.size := by
    rw [setDescr_self]
    exact hsize
  have hcblocks := hset.blocks_eq g.start
  rw [hblocks] at hcblocks
  refine hset.store (fun a => ?_) (fun a ha => ?_) fun u hu a ha => ?_
  · simp only [hblocks, hcblocks]
    by_cases hrest : H.bdescrAt g.start < H.bdescrAt a ∧
        H.bdescrAt a < H.bdescrAt g.start + blocksOf H.toBlockSizes g.size
    · rw [if_pos hrest, if_pos hrest, hset.view]
      simp [BlockSizes.view, H.numberAt_bdescrAt]
    · rw [if_neg hrest, if_neg hrest, hset.view]
  · rw [hcblocks, if_neg fun hrest => hlisted a (has_of_initRest hshape hrest.1 hrest.2) ha]
    exact ⟨rfl, rfl⟩
  · rw [hcblocks, if_neg fun hrest =>
      hkept a (has_of_initRest hshape hrest.1 hrest.2) u hu ha]

/-- `initGroup` of a group in hand. -/
theorem initGroup (h : Represents H C before c s) (hplaced : Placed H.toBlockSizes s T)
    (hC : C ⊆ held .live T) (hg : g ∈ T) (hhand : g.label = .hand) :
    Represents H C before (c.initGroup (H.bdescrAt g.start))
      (s.initGroup H.toBlockSizes g.start) := by
  have hok := hplaced.groups g hg
  exact h.initGroup_loose hok.shape (hplaced.tiles.pos g hg) hok.blocks
    (fun a => hplaced.not_listed hg (by rw [hhand]; decide))
    (fun a => hplaced.not_kept hC hg (by rw [hhand]; decide))

/-! ## Megablocks -/

/-- `initMBlock` of a megablock without a group that is kept. -/
theorem initMBlock (h : Represents H C before c s) {m : Nat}
    (hkept : ∀ u ∈ C, ∀ a, u.Has a → a / H.blocksPerMBlock ≠ m) :
    Represents H C before (c.initMBlock H m) (s.initMBlock H.toBlockSizes m) := by
  refine h.store (fun a => ?_) (fun a ha => ?_) fun u hu a ha => ?_
  · unfold BlockModel.mblockOf
    by_cases hm : a / H.blocksPerMBlock = m
    · have hblock : H.firstBlock m + (H.bdescrAt a - H.firstBdescr m) = H.blockAt a := by
        rw [← hm, BlockSizes.bdescrAt, Nat.add_sub_cancel_left]
        rfl
      rw [if_pos hm, if_pos (H.bdescrAt_in_mblock.mpr hm), h.view, hblock]
      rfl
    · rw [if_neg hm, if_neg fun hin => hm (H.bdescrAt_in_mblock.mp hin), h.view]
  · split <;> exact ⟨rfl, rfl⟩
  · exact if_neg fun hin => hkept u hu a ha (H.bdescrAt_in_mblock.mp hin)

/-- A counter of 64 bits that does not wrap. -/
theorem toNat_add_of_lt_size {x y : UInt64} {m n : Nat} (hx : x.toNat = m) (hy : y.toNat = n)
    (hlt : m + n < 2 ^ 64) : (x + y).toNat = m + n := by
  rw [UInt64.toNat_add, hx, hy]
  exact Nat.mod_eq_of_lt hlt

/-- A counter of 64 bits that is large enough. -/
theorem toNat_sub_of_le_size {x y : UInt64} {m n : Nat} (hx : x.toNat = m) (hy : y.toNat = n)
    (hle : n ≤ m) : (x - y).toNat = m - n := by
  rw [UInt64.toNat_sub_of_le _ _ (UInt64.le_iff_toNat_le.mpr (by rw [hx, hy]; exact hle)), hx, hy]

theorem countAlloc (h : Represents H C before c s) {n : UInt64} {k : Nat} (hn : n.toNat = k)
    (hlt : s.nAllocBlocks + k < 2 ^ 64) : Represents H C before (c.countAlloc n) (s.countAlloc k) := by
  have hsum := toNat_add_of_lt_size h.nAlloc hn hlt
  refine ⟨h.view, h.lists, h.mblocks, h.kept, hsum, ?_, h.map, h.count, h.counted, h.bound⟩
  show (if c.nAllocBlocks + n > c.hwAllocBlocks then _ else _ : UInt64).toNat =
    max s.hwAllocBlocks (s.nAllocBlocks + k)
  by_cases hgt : c.nAllocBlocks + n > c.hwAllocBlocks
  · have hlt := UInt64.lt_iff_toNat_lt.mp hgt
    rw [hsum, h.hwAlloc] at hlt
    rw [if_pos hgt, hsum, Nat.max_eq_right (Nat.le_of_lt hlt)]
  · have hle := UInt64.not_lt.mp hgt
    have hle := UInt64.le_iff_toNat_le.mp hle
    rw [hsum, h.hwAlloc] at hle
    rw [if_neg hgt, h.hwAlloc, Nat.max_eq_left hle]

/-- The other counters do not matter to a number of allocated blocks that is set. -/
theorem setAlloc (h : Represents H C before c s) {n : UInt64} {k : Nat} (hn : n.toNat = k) :
    Represents H C before { c with nAllocBlocks := n } { s with nAllocBlocks := k } :=
  ⟨h.view, h.lists, h.mblocks, h.kept, hn, h.hwAlloc, h.map, h.count, h.counted, h.bound⟩

end Represents

end HosBoot.Rts
