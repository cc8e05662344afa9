/-
  Rts/BlockSanity.lean --- the free lists in every run of the block allocator.

  They pass `checkFreeListSanity`, the allocator's own check: the groups on a list have its
  sizes, are marked and linked both ways, and have been coalesced with their neighbours.
-/
import HosBoot.Rts.BlockSafety

set_option autoImplicit false

namespace HosBoot.Rts

open HosBoot.Foundation HosBoot.Foundation.LinkedList

variable {H : BlockHeader} {L : BlockSizes} {c : BlockAlloc} {s : BlockModel}
  {T C : Finset Group} {g u : Group}

/-! ## Free groups -/

/-- A group is live or free between two calls. -/
theorem Settled.live_or_free (h : Settled L s T) (hg : g ∈ T) :
    g.label = .live ∨ g.label = .free := by
  have hhand := h.noHand g hg
  cases hlabel : g.label with
  | live => exact .inl rfl
  | free => exact .inr rfl
  | hand => exact absurd hlabel hhand

/-- A group that is not at the start of a megablock is small. -/
theorem Placed.small_of_mod (h : Placed L s T) (hg : g ∈ T)
    (hmod : g.start % L.blocksPerMBlock ≠ 0) : g.size < L.blocksPerMBlock := by
  rcases Nat.lt_or_ge g.size L.blocksPerMBlock with hlt | hge
  · exact hlt
  · exact absurd (h.mega hg hge).first hmod

/-- Behind a small free group that ends inside its megablock comes a live one. -/
theorem Settled.next_live (h : Settled L s T) (hg : g ∈ T) (hfree : g.label = .free)
    (hsmall : g.size < L.blocksPerMBlock)
    (hinside : g.start % L.blocksPerMBlock + g.size < L.blocksPerMBlock) :
    ∃ u ∈ T, u.start = g.stop ∧ u.label = .live := by
  have hplaced := h.placed
  have hpos := hplaced.tiles.pos g hg
  have hdiv := Nat.div_add_mod g.start L.blocksPerMBlock
  have hsame : g.stop / L.blocksPerMBlock = g.start / L.blocksPerMBlock ∧
      g.stop % L.blocksPerMBlock = g.start % L.blocksPerMBlock + g.size := by
    have hstop : g.stop = g.start % L.blocksPerMBlock + g.size +
        L.blocksPerMBlock * (g.start / L.blocksPerMBlock) := by
      unfold Tile.stop
      omega
    rw [hstop, Nat.add_mul_div_left _ _ L.perMBlock_pos, Nat.add_mul_mod_self_left,
      Nat.div_eq_of_lt hinside, Nat.mod_eq_of_lt hinside, Nat.zero_add]
    exact ⟨rfl, rfl⟩
  have howned : Owned L s g.stop := by
    have hstart : Owned L s g.start := (hplaced.tiles.cover _).mpr ⟨g, hg, Tile.has_start hpos⟩
    unfold Owned at *
    rw [hsame.1]
    exact hstart
  obtain ⟨u, hu, hnext⟩ := hplaced.tiles.next hg howned
  refine ⟨u, hu, hnext, ?_⟩
  have hmod : u.start % L.blocksPerMBlock ≠ 0 := by
    rw [hnext, hsame.2]
    omega
  rcases h.live_or_free hu with hlive | hufree
  · exact hlive
  · exact absurd (h.small g (mem_held.mpr ⟨hg, hfree⟩) u (mem_held.mpr ⟨hu, hufree⟩) hnext hsmall
      (hplaced.small_of_mod hu hmod)) hmod

/-! ## The sanity check -/

namespace Between

/-- What a group on a free list has to say of itself. -/
theorem small_free (h : Between H c C s T) {ln bd : Nat} (hbd : bd ∈ s.freeList ln) :
    ∃ g ∈ T, g.start = bd ∧ g.label = .free ∧ Small H.toBlockSizes g ∧ log2 g.size = ln ∧
      c.blocks (H.bdescrAt bd) = g.size ∧ (c.bdescr (H.bdescrAt bd)).free = .minusOne := by
  have hplaced := h.settled.placed
  obtain ⟨g, hg, hlt, hlog, rfl⟩ := (hplaced.lists.mem_free ln bd).mp hbd
  obtain ⟨hgT, hfree⟩ := mem_held.mp hg
  have hok := hplaced.groups g hgT
  refine ⟨g, hgT, rfl, hfree, hok.small_or.1 hlt, hlog, ?_, ?_⟩
  · rw [h.represents.blocks_eq, hok.blocks, blocksOf_small hlt]
  · rw [h.represents.free_eq]
    exact (hok.free hfree).1

/-- `check_tail`. -/
theorem checkTail (h : Between H c C s T) (hg : g ∈ T) (hfree : g.label = .free)
    (hsmall : Small H.toBlockSizes g) (hblocks : c.blocks (H.bdescrAt g.start) = g.size) :
    c.checkTail (H.bdescrAt g.start) = true := by
  have hplaced := h.settled.placed
  have hpos := hplaced.tiles.pos g hg
  have hwithin := hsmall.within
  obtain ⟨-, htail⟩ := (hplaced.groups g hg).free hfree
  have htailOf : c.tailOf (H.bdescrAt g.start) = H.bdescrAt (g.stop - 1) := by
    have haddr := H.bdescrAt_add (a := g.start) (i := g.size - 1) (by omega)
    have hlast : g.stop - 1 = g.start + (g.size - 1) := by
      unfold Tile.stop
      omega
    rw [BlockAlloc.tailOf, hblocks, hlast, haddr]
    omega
  rw [BlockAlloc.checkTail, htailOf]
  by_cases hone : g.stop - 1 = g.start
  · rw [hone]
    simp
  · have hpoints := htail hsmall.lt hone
    have hzero := (h.represents.blocks_zero _).mpr hpoints.blocks
    have hmark := (h.represents.free_eq _).trans hpoints.free
    have hlink := h.represents.link_eq hpoints.link
    simp [hzero, hmark, hlink]

/-- Behind a free group comes another megablock or a group that is not free. -/
theorem behind_free (h : Between H c C s T) (hg : g ∈ T) (hfree : g.label = .free)
    (hsmall : Small H.toBlockSizes g) :
    H.lastBdescr (H.mblockOfBdescr (H.bdescrAt g.start)) < H.bdescrAt g.start + g.size ∨
      (c.bdescr (H.bdescrAt g.start + g.size)).free ≠ .minusOne := by
  rcases Nat.lt_or_ge (g.start % H.blocksPerMBlock + g.size) H.blocksPerMBlock with hin | hout
  · obtain ⟨u, hu, hnext, hlive⟩ := h.settled.next_live hg hfree hsmall.lt hin
    right
    rw [← H.bdescrAt_add hin, h.represents.free_eq, show g.start + g.size = u.start from hnext.symm]
    exact ((h.settled.placed.groups u hu).live hlive).1
  · left
    rw [← Nat.not_le, Represents.next_le_lastBdescr]
    omega

/-- The assertions about a group on a free list. -/
theorem checkGroup (h : Between H c C s T) {ln bd : Nat} (hbd : bd ∈ s.freeList ln)
    {prev : Option Nat} (hback : (c.bdescr (H.bdescrAt bd)).back = prev)
    (hlink : (c.bdescr (H.bdescrAt bd)).link ≠ some (H.bdescrAt bd)) :
    c.checkGroup H ln prev (H.bdescrAt bd) = true := by
  obtain ⟨g, hg, rfl, hfree, hsmall, rfl, hblocks, hmark⟩ := h.small_free hbd
  have hpos := h.settled.placed.tiles.pos g hg
  have hlt := hsmall.lt
  obtain ⟨-, hlow, hhigh⟩ := log2_spec hpos (Nat.lt_trans hlt H.perMBlock_lt)
  have htail := h.checkTail hg hfree hsmall hblocks
  have hbehind := h.behind_free hg hfree hsmall
  have hshift : 1 <<< log2 g.size = 2 ^ log2 g.size := by rw [Nat.shiftLeft_eq, Nat.one_mul]
  have hupper : g.size ≤ 2 ^ log2 g.size * 2 - 1 := by
    rw [Nat.pow_succ] at hhigh
    omega
  simp only [BlockAlloc.checkGroup, hblocks, hmark, htail, hback, hshift]
  simp [hpos, hlt, hlow, hupper, hlink, hbehind]

/-- The loop over a free list, by induction on the list. -/
theorem checkFreeList (h : Between H c C s T) {ln : Nat} {list : List Nat} {p prev : Option Nat}
    {k : Nat} (hsub : ∀ bd ∈ list, bd ∈ s.freeList ln)
    (hlinked : Linked (fun x => (c.bdescr x).link) p (list.map H.bdescrAt))
    (hbacked : Backed (fun x => (c.bdescr x).back) prev (list.map H.bdescrAt))
    (hnodup : list.Nodup) (hk : list.length ≤ k) :
    c.checkFreeList H ln k prev p = true := by
  induction list generalizing p prev k with
  | nil =>
    have hp : p = none := hlinked
    subst hp
    cases k <;> rfl
  | cons bd rest ih =>
    obtain ⟨hp, hrest⟩ := hlinked
    obtain ⟨hback, hbackedRest⟩ := hbacked
    obtain ⟨hbdRest, hnodup⟩ := List.nodup_cons.mp hnodup
    subst hp
    cases k with
    | zero => exact absurd hk (Nat.not_succ_le_zero _)
    | succ k =>
      have hlink : (c.bdescr (H.bdescrAt bd)).link ≠ some (H.bdescrAt bd) := by
        have hhead : (c.bdescr (H.bdescrAt bd)).link = (rest.map H.bdescrAt).head? :=
          Linked.head hrest
        rw [hhead]
        exact fun heq => hbdRest (H.mem_map_bdescrAt.mp (List.mem_of_mem_head? heq))
      rw [BlockAlloc.checkFreeList, h.checkGroup (hsub bd List.mem_cons_self) hback hlink,
        Bool.true_and]
      exact ih (fun x hx => hsub x (List.mem_cons_of_mem bd hx)) hrest hbackedRest hnodup
        (Nat.le_of_succ_le_succ hk)

/-- What a group on the list of free megablock groups has to say of itself. -/
theorem mega_free (h : Between H c C s T) {bd : Nat} (hbd : bd ∈ s.freeMBlockList) :
    ∃ g ∈ held .free T, g.start = bd ∧ Mega H.toBlockSizes g ∧
      c.blocks (H.bdescrAt bd) = H.mblockGroupBlocks (g.size / H.blocksPerMBlock) ∧
      (c.bdescr (H.bdescrAt bd)).start = H.blockAt bd := by
  have hplaced := h.settled.placed
  obtain ⟨g, hg, hge, rfl⟩ := (hplaced.lists.mem_mblock bd).mp hbd
  have hgT := (mem_held.mp hg).1
  have hok := hplaced.groups g hgT
  refine ⟨g, hg, rfl, hplaced.mega hgT hge, ?_, ?_⟩
  · rw [h.represents.blocks_eq, hok.blocks, blocksOf_mega hge]
  · rw [h.represents.start_eq]
    exact hok.starts _ (Tile.has_start (hplaced.tiles.pos g hgT)) rfl

/-- The assertions about a group on the list of free megablock groups, in front of `rest`. -/
theorem checkMegaGroup (h : Between H c C s T) {bd : Nat} {rest : List Nat}
    (hbd : bd ∈ s.freeMBlockList) (hrest : ∀ x ∈ rest, x ∈ s.freeMBlockList)
    (hsorted : (bd :: rest).Pairwise (· < ·))
    (hlink : (c.bdescr (H.bdescrAt bd)).link = (rest.map H.bdescrAt).head?) :
    c.checkMegaGroup H (H.bdescrAt bd) = true := by
  obtain ⟨g, hg, rfl, hG, hblocks, hstart⟩ := h.mega_free hbd
  have hcount := H.toMBlocks_group _ hG.mblocks_pos
  have hle := perMBlock_le_group (L := H.toBlockSizes) hG.mblocks_pos
  cases rest with
  | nil =>
    have hnone : (c.bdescr (H.bdescrAt g.start)).link = none := hlink
    simp [BlockAlloc.checkMegaGroup, hnone, hblocks, hcount, hle]
  | cons next tail =>
    have hsome : (c.bdescr (H.bdescrAt g.start)).link = some (H.bdescrAt next) := hlink
    obtain ⟨u, hu, rfl, hU, -, hustart⟩ := h.mega_free (hrest next List.mem_cons_self)
    have hlt : g.start < u.start := (List.pairwise_cons.mp hsorted).1 _ List.mem_cons_self
    have hloop : H.bdescrAt u.start ≠ H.bdescrAt g.start := fun heq =>
      Nat.ne_of_gt hlt (H.bdescrAt_inj heq)
    have hapart : u.start / H.blocksPerMBlock ≠
        g.start / H.blocksPerMBlock + g.size / H.blocksPerMBlock := by
      intro hnext
      refine h.settled.mega g hg u hu ?_ hG.ge hU.ge
      rw [hU.start_eq, hnext, Nat.add_mul, ← hG.start_eq, ← hG.size_eq]
      rfl
    simp only [BlockAlloc.checkMegaGroup, hsome, hblocks, hcount, hstart, hustart,
      H.mblockOfBdescr_bdescrAt, H.blockAt_lt]
    simp [hloop, hle, hlt, hapart]

/-- The loop over the free megablock groups, by induction on the list. -/
theorem checkMegaGroups (h : Between H c C s T) {list : List Nat} {p : Option Nat} {k : Nat}
    (hsub : ∀ bd ∈ list, bd ∈ s.freeMBlockList)
    (hlinked : Linked (fun x => (c.bdescr x).link) p (list.map H.bdescrAt))
    (hsorted : list.Pairwise (· < ·)) (hk : list.length ≤ k) :
    c.checkMegaGroups H k p = true := by
  induction list generalizing p k with
  | nil =>
    have hp : p = none := hlinked
    subst hp
    cases k <;> rfl
  | cons bd rest ih =>
    obtain ⟨hp, hrest⟩ := hlinked
    subst hp
    cases k with
    | zero => exact absurd hk (Nat.not_succ_le_zero _)
    | succ k =>
      have hsubRest : ∀ x ∈ rest, x ∈ s.freeMBlockList := fun x hx =>
        hsub x (List.mem_cons_of_mem bd hx)
      rw [BlockAlloc.checkMegaGroups, h.checkMegaGroup (hsub bd List.mem_cons_self) hsubRest hsorted
        (Linked.head hrest), Bool.true_and]
      exact ih hsubRest hrest hsorted.of_cons (Nat.le_of_succ_le_succ hk)

/-- No free list is longer than the loops have turns. -/
theorem list_length_le (h : Between H c C s T) (ln : Nat) :
    (s.freeList ln).length ≤ c.turns H := by
  have hplaced := h.settled.placed
  rw [h.represents.turns_eq]
  refine hplaced.length_le h.represents.counted (hplaced.lists.nodup ln) fun x hx => ?_
  obtain ⟨g, hg, -, -, hstart⟩ := (hplaced.lists.mem_free ln x).mp hx
  exact ⟨g, (mem_held.mp hg).1, hstart⟩

end Between

/-- `checkFreeListSanity` never fails an assertion. -/
theorem checkFreeListSanity_reachable (h : (blockAllocator H).Reachable (c, C)) :
    c.checkFreeListSanity H = true := by
  obtain ⟨s, T, h⟩ := blockAllocator_invariant.of_reachable h
  have hlists := h.settled.placed.lists
  rw [BlockAlloc.checkFreeListSanity, Bool.and_eq_true, List.all_eq_true]
  refine ⟨fun ln _ => ?_, ?_⟩
  · exact h.checkFreeList (fun _ hbd => hbd) (h.represents.lists ln).linked
      (h.represents.lists ln).backed (hlists.nodup ln) (h.list_length_le ln)
  · exact h.checkMegaGroups (fun _ hbd => hbd) h.represents.mblocks hlists.sorted
      (h.represents.mega_length_le h.settled.placed)

theorem checkFreeListSanity_reachable_one : ∃ c, (blockAllocator blockHeader64).Reachable (c, gaps) ∧
    c.checkFreeListSanity blockHeader64 = true := by
  obtain ⟨c, h, -⟩ := blockAllocator_gaps
  exact ⟨c, h, checkFreeListSanity_reachable h⟩

end HosBoot.Rts
