/-
  Rts/BlockAllocating.lean --- `allocGroup` in memory does what the model does.

  A request for at most `maxMBlocks` megablocks keeps every number of blocks below 2^32, so
  that no store to `blocks` and no `nat` loses bits.
-/
import HosBoot.Rts.BlockFreeing

set_option autoImplicit false

namespace HosBoot.Rts

open HosBoot.Foundation HosBoot.Foundation.LinkedList

variable {H : BlockHeader} {C : Finset Group} {before : Nat → BDescr} {c : BlockAlloc}
  {s s' : BlockModel} {T : Finset Group} {g u : Group}

/-! ## Splitting a free group -/

/-- Sizes of small groups fit in 32 bits. -/
theorem BlockSizes.small_fits (L : BlockSizes) {n : Nat} (h : n < L.blocksPerMBlock) :
    n < 2 ^ 32 := by
  have hper : L.blocksPerMBlock < 2 ^ 9 := L.perMBlock_lt
  omega

theorem BlockAlloc.setupTail_head (c : BlockAlloc) (bd : Nat) :
    (c.setupTail bd).bdescr bd = c.bdescr bd := by
  unfold BlockAlloc.setupTail
  by_cases hone : c.tailOf bd = bd
  · rw [if_neg (fun hne => hne hone)]
  · rw [if_pos hone]
    exact c.setDescr_ne _ (Ne.symm hone)

/-- The steps of `split_free_block` once the group has left its list. -/
theorem splitFreeBlock_stores {c₁ : BlockAlloc} {bd size n ln : Nat} (hblocks : c.blocks bd = size)
    (hn : n < size) (hlt : size < 2 ^ 32) (hremove : c.dblLinkRemove H bd ln = .ok c₁)
    (hblocks₁ : c₁.blocks bd = size) :
    c.splitFreeBlock H bd n ln =
      ((((c₁.setBlocks (bd + (size - n)) n).setBlocks bd (size - n)).setupTail bd).dblLinkOnto H bd
        (log2 (size - n))).map fun c => (c, bd + (size - n)) := by
  have hassert : assert (decide (size > n)) "bd->blocks > n" = .ok () :=
    if_pos (decide_eq_true hn)
  have hfg : bd + size - n = bd + (size - n) := by omega
  have hne : bd ≠ bd + (size - n) := by omega
  have hread : (c₁.setBlocks (bd + (size - n)) n).blocks bd = size := by
    rw [BlockAlloc.blocks, BlockAlloc.setBlocks, BlockAlloc.setDescr_ne _ _ hne]
    exact hblocks₁
  have hfront : (((c₁.setBlocks (bd + (size - n)) n).setBlocks bd (size - n)).setupTail
      bd).blocks bd = size - n := by
    rw [BlockAlloc.blocks, BlockAlloc.setupTail_head, BlockAlloc.setBlocks,
      BlockAlloc.setDescr_same]
    exact UInt32.toNat_ofNat_of_lt' (show size - n < 2 ^ 32 by omega)
  simp only [BlockAlloc.splitFreeBlock, hblocks, hassert]
  show (c.dblLinkRemove H bd ln >>= _) = _
  rw [hremove]
  show ((((c₁.setBlocks (bd + c₁.blocks bd - n) n).setBlocks bd
    ((c₁.setBlocks (bd + c₁.blocks bd - n) n).blocks bd - n)).setupTail bd).dblLinkOnto H bd _ >>=
      fun s => .ok (s, bd + c₁.blocks bd - n)) = _
  rw [hblocks₁, hfg, hread, hfront]
  cases BlockAlloc.dblLinkOnto H
    (((c₁.setBlocks (bd + (size - n)) n).setBlocks bd (size - n)).setupTail bd) bd
    (log2 (size - n)) <;> rfl

/-! ## The paths of the calls -/

namespace BlockAlloc

section

variable {c₁ : BlockAlloc} {n : UInt64} {fresh ln bd fg : Nat}

theorem allocGroup_megablocks (hpos : 0 < n.toNat) (hlarge : H.blocksPerMBlock ≤ n.toNat)
    {mblocks : UInt32} (hmblocks : UInt32.ofNat (H.blocksToMBlocks n.toNat) = mblocks)
    (hmega : (c.countAlloc (mblocks.toUInt64 * UInt64.ofNat H.blocksPerMBlock)).allocMegaGroup H
      mblocks fresh = .ok (c₁, bd)) :
    c.allocGroup H n fresh = .ok (c₁.initGroup bd, bd) := by
  have hne : n ≠ 0 := fun heq => Nat.ne_of_gt hpos (congrArg UInt64.toNat heq)
  simp only [allocGroup, if_neg hne, if_pos (show n.toNat ≥ H.blocksPerMBlock from hlarge), hmblocks,
    hmega]
  rfl

theorem allocGroup_fresh (hpos : 0 < n.toNat) (hn : n.toNat < H.blocksPerMBlock)
    (hln : (c.countAlloc n).skipEmpty (maxFreeList - log2Ceil n.toNat) (log2Ceil n.toNat) =
      maxFreeList) : c.allocGroup H n fresh = (c.countAlloc n).allocFromMBlock H n fresh := by
  have hne : n ≠ 0 := fun heq => Nat.ne_of_gt hpos (congrArg UInt64.toNat heq)
  simp only [allocGroup, if_neg hne, if_neg (Nat.not_le.mpr hn), hln, if_true]

theorem allocGroup_whole (hpos : 0 < n.toNat) (hn : n.toNat < H.blocksPerMBlock)
    (hln : (c.countAlloc n).skipEmpty (maxFreeList - log2Ceil n.toNat) (log2Ceil n.toNat) = ln)
    (hfound : ln ≠ maxFreeList) (hfirst : (c.countAlloc n).freeList ln = some bd)
    (hblocks : (c.countAlloc n).blocks bd = n.toNat)
    (hremove : (c.countAlloc n).dblLinkRemove H bd ln = .ok c₁) :
    c.allocGroup H n fresh = .ok (c₁.initGroup bd, bd) := by
  have hne : n ≠ 0 := fun heq => Nat.ne_of_gt hpos (congrArg UInt64.toNat heq)
  simp only [allocGroup, if_neg hne, if_neg (Nat.not_le.mpr hn), hln, if_neg hfound, hfirst,
    if_pos hblocks, hremove]
  rfl

theorem allocGroup_end (hpos : 0 < n.toNat) (hn : n.toNat < H.blocksPerMBlock)
    (hln : (c.countAlloc n).skipEmpty (maxFreeList - log2Ceil n.toNat) (log2Ceil n.toNat) = ln)
    (hfound : ln ≠ maxFreeList) (hfirst : (c.countAlloc n).freeList ln = some bd)
    (hblocks : n.toNat < (c.countAlloc n).blocks bd)
    (hsplit : (c.countAlloc n).splitFreeBlock H bd n.toNat ln = .ok (c₁, fg))
    (hend : c₁.blocks fg = n.toNat) : c.allocGroup H n fresh = .ok (c₁.initGroup fg, fg) := by
  have hne : n ≠ 0 := fun heq => Nat.ne_of_gt hpos (congrArg UInt64.toNat heq)
  have hassert : assert (decide (n.toNat = n.toNat)) "bd->blocks == n" = .ok () :=
    if_pos (decide_eq_true rfl)
  simp only [allocGroup, if_neg hne, if_neg (Nat.not_le.mpr hn), hln, if_neg hfound, hfirst,
    if_neg (Nat.ne_of_gt hblocks), gt_iff_lt, if_pos hblocks, hsplit]
  show (assert (decide (c₁.blocks fg = n.toNat)) _ >>= _) = _
  rw [hend, hassert]
  rfl

variable {least most : UInt32}

theorem allocLargeChunk_group (h : H.blocksPerMBlock ≤ least.toNat ∨
      c.skipEmpty (log2Ceil most.toNat - log2Ceil least.toNat) (log2Ceil least.toNat) =
        log2Ceil most.toNat) :
    c.allocLargeChunk H least most fresh = c.allocGroup H most.toUInt64 fresh := by
  unfold allocLargeChunk
  by_cases hlarge : least.toNat ≥ H.blocksPerMBlock
  · rw [if_pos hlarge]
  · rw [if_neg hlarge, if_pos (h.resolve_left hlarge)]

theorem allocLargeChunk_whole (hsmall : least.toNat < H.blocksPerMBlock)
    (hln : c.skipEmpty (log2Ceil most.toNat - log2Ceil least.toNat) (log2Ceil least.toNat) = ln)
    (hfound : ln ≠ log2Ceil most.toNat) (hfirst : c.freeList ln = some bd)
    (hblocks : c.blocks bd ≤ most.toNat) (hremove : c.dblLinkRemove H bd ln = .ok c₁) :
    c.allocLargeChunk H least most fresh =
      .ok ((c₁.initGroup bd).countAlloc ((c₁.initGroup bd).bdescr bd).blocks.toUInt64, bd) := by
  simp only [allocLargeChunk, if_neg (Nat.not_le.mpr hsmall), hln, if_neg hfound, hfirst,
    if_pos hblocks, hremove]
  rfl

theorem allocLargeChunk_end (hsmall : least.toNat < H.blocksPerMBlock)
    (hln : c.skipEmpty (log2Ceil most.toNat - log2Ceil least.toNat) (log2Ceil least.toNat) = ln)
    (hfound : ln ≠ log2Ceil most.toNat) (hfirst : c.freeList ln = some bd)
    (hblocks : most.toNat < c.blocks bd)
    (hsplit : c.splitFreeBlock H bd most.toNat ln = .ok (c₁, fg))
    (hend : c₁.blocks fg = most.toNat) :
    c.allocLargeChunk H least most fresh =
      .ok ((c₁.initGroup fg).countAlloc ((c₁.initGroup fg).bdescr fg).blocks.toUInt64, fg) := by
  have hassert : assert (decide (most.toNat = most.toNat)) "bd->blocks == max" = .ok () :=
    if_pos (decide_eq_true rfl)
  simp only [allocLargeChunk, if_neg (Nat.not_le.mpr hsmall), hln, if_neg hfound, hfirst,
    if_neg (Nat.not_le.mpr hblocks), hsplit]
  show (assert (decide (c₁.blocks fg = most.toNat)) _ >>= _) = _
  rw [hend, hassert]
  rfl

end

end BlockAlloc

namespace Represents

/-- `split_free_block`. -/
theorem splitFreeBlock (h : Represents H C before c s) (hsettled : Settled H.toBlockSizes s T)
    (hC : C ⊆ held .live T) (hg : g ∈ T) (hfree : g.label = .free)
    (hsmall : Small H.toBlockSizes g) {n : Nat} (hpos : 0 < n) (hn : n < g.size) {fg : Nat}
    (hrun : s.splitFreeBlock g.start n (log2 g.size) = .ok (s', fg)) :
    ∃ c', c.splitFreeBlock H (H.bdescrAt g.start) n (log2 g.size) = .ok (c', H.bdescrAt fg) ∧
      Represents H C before c' s' := by
  have hblocks := hsettled.placed.small_blocks hg hsmall
  obtain ⟨s₁, hremove, hbdescr, hhand, hreaches⟩ := takeSmall_spec hsettled hg hfree hsmall.lt
  rw [splitFreeBlock_eq hblocks hn hremove hbdescr] at hrun
  obtain ⟨⟨hln, hmem⟩, hs₁⟩ := dblLinkRemove_eq hremove
  obtain ⟨c₁, hc₁, h₁⟩ := h.dblLinkRemove (hsettled.placed.tidy hC) hln hmem
  rw [← hs₁] at h₁
  have hC₁ : C ⊆ held .live (taken T g) := by
    rw [hreaches.evolves.lives]
    exact hC
  have hhsmall := hsmall.to .hand
  have hwithin := hsmall.within
  have hfgHas : (g.to .hand).Has (g.start + (g.size - n)) := by
    unfold Tile.Has Tile.stop
    simp only [Group.to_start, Group.to_size]
    omega
  have h₂ := h₁.setBlocks hpos (H.small_fits (Nat.lt_trans hn hsmall.lt))
    (hhand.placed.not_kept hC₁ hhand.mem (by simp) hfgHas)
  have h₃ := h₂.setBlocks (p := g.start) (Nat.sub_pos_of_lt hn)
    (H.small_fits (Nat.lt_of_le_of_lt (Nat.sub_le _ n) hsmall.lt)) (hhand.loose hC₁).notKept
  obtain ⟨hcut, hcutReaches, -⟩ := cut_spec hhand.placed hhand.mem rfl hhsmall hpos hn rfl
  have hfrontMem : frontOf g n .hand ∈ exchange (taken T g) {g.to .hand}
      {frontOf (g.to .hand) n .hand, endOf (g.to .hand) n} :=
    mem_exchange.mpr (.inr (Finset.mem_insert_self _ _))
  have hfrontSmall := hsmall.front n .hand
  have hC₂ := hC₁
  rw [← hcutReaches.evolves.lives] at hC₂
  have h₄ := h₃.setupTail_hand hcut hC₂ hfrontMem rfl hfrontSmall
  obtain ⟨htail, -⟩ := setupTail_spec hcut hfrontMem rfl hfrontSmall.lt
  obtain ⟨hhead, hkept, hlisted⟩ := htail.loose hC₂ hfrontMem rfl
  have hlog := log2_spec (Nat.sub_pos_of_lt hn)
    (Nat.lt_trans (show g.size - n < H.blocksPerMBlock from hfrontSmall.lt) H.perMBlock_lt)
  obtain ⟨c', hc', h₅⟩ := h₄.dblLinkOnto (htail.tidy hC₂) hlog.1 hlisted hhead hkept
  have hfg : H.bdescrAt g.start + (g.size - n) = H.bdescrAt (g.start + (g.size - n)) :=
    (H.bdescrAt_add (by omega)).symm
  have hrun' : ((if log2 (g.size - n) < maxFreeList then _ else _ : Except String _).map
      fun s => (s, g.start + (g.size - n))) = Except.ok (s', fg) := hrun
  rw [if_pos hlog.1] at hrun'
  cases hrun'
  refine ⟨c', ?_, h₅⟩
  rw [splitFreeBlock_stores ((h.blocks_eq _).trans hblocks) hn (H.small_fits hsmall.lt) hc₁
    ((h₁.blocks_eq _).trans (by rw [hbdescr]; exact hblocks)), hfg]
  have hc' : BlockAlloc.dblLinkOnto H
      (((c₁.setBlocks (H.bdescrAt (g.start + (g.size - n))) n).setBlocks (H.bdescrAt g.start)
        (g.size - n)).setupTail (H.bdescrAt g.start)) (H.bdescrAt g.start)
      (log2 (g.size - n)) = .ok c' := hc'
  rw [hc']
  rfl

/-! ## Groups of megablocks -/

/-- What the search of the model finds is what the code finds. -/
def SameFit (H : BlockHeader) (l : List Nat) (prev : Option Nat) (found : BlockAlloc.MegaFit) :
    BlockModel.MegaFit → Prop
  | .exact bd => ∃ front rest, l = front ++ bd :: rest ∧
      found = .exact (lastOr prev (front.map H.bdescrAt)) (H.bdescrAt bd)
  | .best bd => found = .best (H.bdescrAt bd)
  | .nothing => found = .nothing

/-- One turn further in the list. -/
theorem SameFit.cons {l : List Nat} {prev : Option Nat} {found : BlockAlloc.MegaFit} {bd : Nat}
    {fit : BlockModel.MegaFit} (h : SameFit H l (some (H.bdescrAt bd)) found fit) :
    SameFit H (bd :: l) prev found fit := by
  cases fit with
  | exact x =>
    obtain ⟨front, rest, rfl, hfound⟩ := h
    refine ⟨bd :: front, rest, rfl, ?_⟩
    rw [hfound, List.map_cons, lastOr_cons]
  | best x => exact h
  | nothing => exact h

/-- One turn of the search. -/
theorem megaFit_turn (c : BlockAlloc) (n : UInt32) (k bd : Nat) (prev best : Option Nat) :
    c.megaFit n (k + 1) prev (some bd) best =
      if (c.bdescr bd).blocks = n then .ok (.exact prev bd)
      else c.megaFit n k (some bd) (c.bdescr bd).link
        (if (c.bdescr bd).blocks > n then
          match best with
          | none => some bd
          | some b => if (c.bdescr bd).blocks < (c.bdescr b).blocks then some bd else some b
        else best) := by
  cases best <;> rfl

/-- The search of `alloc_mega_group`. -/
theorem megaFit (h : Represents H C before c s) (n : UInt32) {p : Option Nat} {l : List Nat}
    (hlinked : Linked (fun x => (c.bdescr x).link) p (l.map H.bdescrAt)) {k : Nat}
    (hk : l.length ≤ k) (prev best : Option Nat) :
    ∃ found, c.megaFit n k prev p (best.map H.bdescrAt) = .ok found ∧
      SameFit H l prev found (BlockModel.megaFit s.bdescr n.toNat l best) := by
  induction l generalizing p k prev best with
  | nil =>
    have hp : p = none := hlinked
    rw [hp]
    cases best with
    | none => exact ⟨.nothing, by cases k <;> rfl, rfl⟩
    | some b => exact ⟨.best (H.bdescrAt b), by cases k <;> rfl, rfl⟩
  | cons bd rest ih =>
    obtain ⟨rfl, hrest⟩ := hlinked
    cases k with
    | zero => exact absurd hk (Nat.not_succ_le_zero _)
    | succ k =>
      have hk := Nat.le_of_succ_le_succ hk
      have hblocks : ∀ a, (s.bdescr a).blocks = (c.bdescr (H.bdescrAt a)).blocks.toNat := fun a =>
        (h.blocks_eq a).symm
      rw [megaFit_cons, megaFit_turn]
      by_cases hexact : (s.bdescr bd).blocks = n.toNat
      · have hexact' : (c.bdescr (H.bdescrAt bd)).blocks = n := by
          rw [hblocks] at hexact
          exact UInt32.toNat_inj.mp hexact
        rw [if_pos hexact, if_pos hexact']
        exact ⟨_, rfl, [], rest, rfl, rfl⟩
      have hexact' : ¬ (c.bdescr (H.bdescrAt bd)).blocks = n := by
        rw [hblocks] at hexact
        exact fun heq => hexact (congrArg UInt32.toNat heq)
      rw [if_neg hexact, if_neg hexact']
      have hlt : ∀ {a b : UInt32}, (a > b) = (a.toNat > b.toNat) := fun {a b} =>
        propext UInt32.lt_iff_toNat_lt
      simp only [hlt, ← hblocks]
      by_cases hlarge : (s.bdescr bd).blocks > n.toNat
      · rw [if_pos hlarge, if_pos hlarge]
        cases best with
        | none =>
          obtain ⟨found, hfound, hsame⟩ := ih hrest hk (some (H.bdescrAt bd)) (some bd)
          exact ⟨found, hfound, hsame.cons⟩
        | some b =>
          simp only [Option.map_some, ← hblocks]
          by_cases hless : (s.bdescr bd).blocks < (s.bdescr b).blocks
          · simp only [if_pos hless]
            obtain ⟨found, hfound, hsame⟩ := ih hrest hk (some (H.bdescrAt bd)) (some bd)
            exact ⟨found, hfound, hsame.cons⟩
          · simp only [if_neg hless]
            obtain ⟨found, hfound, hsame⟩ := ih hrest hk (some (H.bdescrAt bd)) (some b)
            exact ⟨found, hfound, hsame.cons⟩
      · rw [if_neg hlarge, if_neg hlarge]
        obtain ⟨found, hfound, hsame⟩ := ih hrest hk (some (H.bdescrAt bd)) best
        exact ⟨found, hfound, hsame.cons⟩

/-- The stores that take a group off `free_mblock_list`. -/
theorem unlinkMega (h : Represents H C before c s) (htidy : Tidy C s) {front rest : List Nat}
    {bd : Nat} (hlist : s.freeMBlockList = front ++ bd :: rest) :
    Represents H C before
      (c.unlinkMega (lastOr none (front.map H.bdescrAt)) (H.bdescrAt bd))
      { s with freeMBlockList := s.freeMBlockList.erase bd } := by
  have hnodup := htidy.megaNodup
  have hmblocks := h.mblocks
  rw [hlist] at hnodup hmblocks
  obtain ⟨hfront, hrest, hapart⟩ := List.nodup_append.mp hnodup
  have hbdFront : bd ∉ front := fun hmem => hapart bd hmem bd List.mem_cons_self rfl
  have herase : s.freeMBlockList.erase bd = front ++ rest := by
    rw [hlist, List.erase_append_right _ hbdFront, List.erase_cons_head]
  have hsplit := hmblocks
  rw [List.map_append, List.map_cons] at hsplit
  have hbehind := hsplit.behind
  rw [herase]
  rcases List.eq_nil_or_concat front with rfl | ⟨init, last, hconcat⟩
  · exact ⟨h.view, h.lists, hbehind, h.kept, h.nAlloc, h.hwAlloc, h.map, h.count, h.counted,
      h.bound⟩
  · rw [List.concat_eq_append] at hconcat
    subst hconcat
    have hprev : lastOr none ((init ++ [last]).map H.bdescrAt) = some (H.bdescrAt last) := by
      rw [List.map_append, List.map_singleton, lastOr, List.getLast?_concat]
      rfl
    have hlastMem : last ∈ s.freeMBlockList := by
      rw [hlist]
      simp
    rw [hprev]
    have hlastInit : last ∉ init := fun hmem =>
      (List.nodup_append.mp hfront).2.2 last hmem last (List.mem_singleton_self _) rfl
    have hlastRest : last ∉ rest := fun hmem =>
      hapart last (by simp) last (List.mem_cons_of_mem bd hmem) rfl
    rw [List.append_assoc, List.singleton_append] at hmblocks ⊢
    exact h.setLink (htidy.head last (.inr hlastMem)) (htidy.notKept last (.inr hlastMem))
      (fun ln hmem => htidy.notMega ln last hmem hlastMem)
      (setLink_relinked hmblocks hlastInit hlastRest hbehind)

/-- The end of a larger group is cut off. -/
theorem bestFit (h : Represents H C before c s) (hplaced : Placed H.toBlockSizes s T)
    (hC : C ⊆ held .live T) (hg : g ∈ T) (hfree : g.label = .free)
    (hmega : H.blocksPerMBlock ≤ g.size) {k : Nat} (hk : 0 < k)
    (hlt : k < g.size / H.blocksPerMBlock) :
    Represents H C before
      (((c.setBlocks (H.bdescrAt g.start) (H.mblockGroupBlocks
        (g.size / H.blocksPerMBlock - k))).initMBlock H
          (g.start / H.blocksPerMBlock + (g.size / H.blocksPerMBlock - k))).setBlocks
            (H.bdescrAt (g.start + (g.size - k * H.blocksPerMBlock))) (H.mblockGroupBlocks k))
      (((s.setBlocks g.start (H.mblockGroupBlocks
        (g.size / H.blocksPerMBlock - k))).initMBlock H.toBlockSizes
          (g.start / H.blocksPerMBlock + (g.size / H.blocksPerMBlock - k))).setBlocks
            (g.start + (g.size - k * H.blocksPerMBlock)) (H.mblockGroupBlocks k)) := by
  have hG := hplaced.mega hg hmega
  have hle := Nat.le_trans (hplaced.mblocks_le h.counted hg) h.bound
  have hne : g.label ≠ .live := by
    rw [hfree]
    decide
  have hgroup : ∀ {j}, 0 < j → 0 < H.mblockGroupBlocks j := fun hj =>
    Nat.lt_of_lt_of_le H.perMBlock_pos (perMBlock_le_group hj)
  have hstart := Tile.has_start (hplaced.tiles.pos g hg)
  have hend : g.Has (g.start + (g.size - k * H.blocksPerMBlock)) := by
    have hpos := Nat.mul_pos hk H.perMBlock_pos
    have hle := Nat.div_mul_le_self g.size H.blocksPerMBlock
    have hlt' := Nat.mul_lt_mul_of_pos_right hlt H.perMBlock_pos
    unfold Tile.Has Tile.stop
    omega
  have h₁ := h.setBlocks (p := g.start) (hgroup (Nat.sub_pos_of_lt hlt))
    (H.group_fits_of_le (Nat.sub_pos_of_lt hlt) (by omega)) (hplaced.not_kept hC hg hne hstart)
  have h₂ := h₁.initMBlock (m := g.start / H.blocksPerMBlock + (g.size / H.blocksPerMBlock - k))
    fun u hu a ha hm => hplaced.not_kept hC hg hne ((hG.has_iff a).mpr (by omega)) u hu ha
  exact h₂.setBlocks (hgroup hk) (H.group_fits_of_le hk (by omega))
    (hplaced.not_kept hC hg hne hend)

/-- New megablocks from the operating system. -/
theorem newMBlocks (h : Represents H C before c s) (hplaced : Placed H.toBlockSizes s T)
    (hC : C ⊆ held .live T) {k : UInt32} (hk : 0 < k.toNat) {fresh : Nat}
    (hfresh : ∀ i, i < k.toNat → s.heapAlloced (fresh + i) = false)
    (hroom : s.mblocksAllocated + k.toNat ≤ H.maxMBlocks) :
    Represents H C before
      (((c.getMBlocks k fresh).initMBlock H fresh).setBlocks
        (H.bdescrAt (fresh * H.blocksPerMBlock)) (H.mblockGroupBlocks k.toNat))
      (((s.getMBlocks k.toNat fresh).initMBlock H.toBlockSizes fresh).setBlocks
        (fresh * H.blocksPerMBlock) (H.mblockGroupBlocks k.toNat)) := by
  have hmax := H.maxMBlocks_lt
  have hcount : (c.mblocksAllocated + k.toUInt64).toNat = s.mblocksAllocated + k.toNat :=
    toNat_add_of_lt_size h.count (UInt32.toNat_toUInt64 k) (by omega)
  have h₁ : Represents H C before (c.getMBlocks k fresh) (s.getMBlocks k.toNat fresh) := by
    refine ⟨h.view, h.lists, h.mblocks, h.kept, h.nAlloc, h.hwAlloc, ?_, hcount,
      h.counted.getMBlocks hfresh, hroom⟩
    unfold BlockAlloc.getMBlocks BlockModel.getMBlocks
    rw [h.map]
  -- what the client holds is in megablocks that the allocator has
  have hkept : ∀ u ∈ C, ∀ a, u.Has a → a / H.blocksPerMBlock ≠ fresh := by
    intro u hu a ha heq
    have howned : Owned H.toBlockSizes s a :=
      (hplaced.tiles.cover a).mpr ⟨u, (mem_held.mp (hC hu)).1, ha⟩
    have hfalse := hfresh 0 hk
    unfold Owned at howned
    rw [heq] at howned
    rw [Nat.add_zero, howned] at hfalse
    cases hfalse
  have h₂ := h₁.initMBlock hkept
  refine h₂.setBlocks (Nat.lt_of_lt_of_le H.perMBlock_pos (perMBlock_le_group hk))
    (H.group_fits_of_le hk (by omega)) fun u hu ha => hkept u hu _ ha (mul_div_perMBlock fresh)

/-- The first descriptor of a megablock. -/
theorem bdescrAt_first (m : Nat) : H.bdescrAt (m * H.blocksPerMBlock) = H.firstBdescr m := by
  rw [BlockSizes.bdescrAt, Nat.mul_div_cancel _ H.perMBlock_pos, Nat.mul_mod_left, Nat.add_zero]

/-- `alloc_mega_group` finds a group of the size asked for. -/
theorem allocMegaGroup_exact (h : Represents H C before c s) (hsettled : Settled H.toBlockSizes s T)
    (hC : C ⊆ held .live T) {front rest : List Nat} {bd : Nat}
    (hlist : s.freeMBlockList = front ++ bd :: rest) :
    Represents H C before
      ((c.unlinkMega (lastOr none (front.map H.bdescrAt)) (H.bdescrAt bd)).initGroup
        (H.bdescrAt bd))
      (({ s with freeMBlockList := s.freeMBlockList.erase bd } : BlockModel).initGroup
        H.toBlockSizes bd) := by
  have hbd : bd ∈ s.freeMBlockList := by
    rw [hlist]
    simp
  obtain ⟨g, hg, hfree, hmega, rfl, -⟩ := hsettled.placed.of_mem_mblock hbd
  obtain ⟨hhand, hreaches⟩ := takeMega_spec hsettled hg hfree hmega
  have hC' := hC
  rw [← hreaches.evolves.lives] at hC'
  have h₁ := h.unlinkMega (hsettled.placed.tidy hC) hlist
  have h₂ := h₁.initGroup hhand.placed hC' hhand.mem rfl
  exact h₂

/-- The numbers that `alloc_mega_group` computes from the group that fits best. -/
theorem bestFit_reads (h : Represents H C before c s) (hplaced : Placed H.toBlockSizes s T)
    (hg : g ∈ T) (hmega : H.blocksPerMBlock ≤ g.size) {k : UInt32}
    (hlt : k.toNat < g.size / H.blocksPerMBlock) :
    (UInt64.ofNat (H.blocksToMBlocks (c.blocks (H.bdescrAt g.start))) - k.toUInt64).toNat =
        g.size / H.blocksPerMBlock - k.toNat ∧
      H.firstBdescr (H.mblockOfBdescr (H.bdescrAt g.start) +
        (g.size / H.blocksPerMBlock - k.toNat)) =
          H.bdescrAt (g.start + (g.size - k.toNat * H.blocksPerMBlock)) ∧
      H.mblockOfBdescr (H.bdescrAt (g.start + (g.size - k.toNat * H.blocksPerMBlock))) =
        g.start / H.blocksPerMBlock + (g.size / H.blocksPerMBlock - k.toNat) := by
  obtain ⟨hfirst, hround⟩ := (hplaced.mega hg hmega).end_first k.toNat
  have hle := Nat.le_trans (hplaced.mblocks_le h.counted hg) h.bound
  have hmax := H.maxMBlocks_lt
  have hto : H.blocksToMBlocks (c.blocks (H.bdescrAt g.start)) = g.size / H.blocksPerMBlock := by
    rw [h.blocks_eq]
    exact hplaced.toMBlocks hg hmega
  have hwide : (UInt64.ofNat (g.size / H.blocksPerMBlock)).toNat = g.size / H.blocksPerMBlock :=
    UInt64.toNat_ofNat_of_lt' (show g.size / H.blocksPerMBlock < 2 ^ 64 by omega)
  refine ⟨?_, ?_, ?_⟩
  · rw [hto]
    exact toNat_sub_of_le_size hwide (UInt32.toNat_toUInt64 k) (Nat.le_of_lt hlt)
  · rw [H.mblockOfBdescr_bdescrAt, ← bdescrAt_first]
    exact congrArg H.bdescrAt hfirst
  · rw [H.mblockOfBdescr_bdescrAt]
    exact hround

/-- `alloc_mega_group`. -/
theorem allocMegaGroup (h : Represents H C before c s) (hsettled : Settled H.toBlockSizes s T)
    (hC : C ⊆ held .live T) {k : UInt32} (hk : 0 < k.toNat) {fresh : Nat}
    (hfresh : ∀ i, i < k.toNat → s.heapAlloced (fresh + i) = false)
    (hroom : s.mblocksAllocated + k.toNat ≤ H.maxMBlocks) :
    ∃ c', c.allocMegaGroup H k fresh =
        .ok (c', H.bdescrAt (s.allocMegaGroup H.toBlockSizes k.toNat fresh).2) ∧
      Represents H C before c' (s.allocMegaGroup H.toBlockSizes k.toNat fresh).1 := by
  have hplaced := hsettled.placed
  have hn : (UInt32.ofNat (H.mblockGroupBlocks k.toNat)).toNat = H.mblockGroupBlocks k.toNat :=
    UInt32.toNat_ofNat_of_lt' (H.group_fits_of_le hk (by omega))
  obtain ⟨found, hfound, hsame⟩ := h.megaFit (UInt32.ofNat (H.mblockGroupBlocks k.toNat))
    h.mblocks (h.mega_length_le hplaced) none none
  rw [hn] at hsame
  have hfit := megaFit_list s (H.mblockGroupBlocks k.toNat)
  have hfound : c.megaFit (UInt32.ofNat (H.mblockGroupBlocks k.toNat)) (c.turns H) none
    c.freeMBlockList none = .ok found := hfound
  simp only [BlockAlloc.allocMegaGroup, hfound]
  cases hcase : BlockModel.megaFit s.bdescr (H.mblockGroupBlocks k.toNat) s.freeMBlockList none with
  | exact bd =>
    rw [hcase] at hsame
    obtain ⟨front, rest, hlist, rfl⟩ := hsame
    have hmodel : s.allocMegaGroup H.toBlockSizes k.toNat fresh =
        (({ s with freeMBlockList := s.freeMBlockList.erase bd } : BlockModel).initGroup
          H.toBlockSizes bd, bd) := by
      simp only [BlockModel.allocMegaGroup, hcase]
    rw [hmodel]
    exact ⟨_, rfl, h.allocMegaGroup_exact hsettled hC hlist⟩
  | best bd =>
    rw [hcase] at hsame hfit
    obtain rfl : found = .best (H.bdescrAt bd) := hsame
    obtain ⟨g, hg, hfree, hmega, rfl, hgblocks⟩ := hplaced.of_mem_mblock hfit.1
    have hlt : k.toNat < g.size / H.blocksPerMBlock := by
      have hblocks := hfit.2.1
      rw [hgblocks] at hblocks
      exact lt_of_group_lt (hplaced.mega hg hmega).mblocks_pos hblocks
    obtain ⟨hleft, hbd, hmblock⟩ := h.bestFit_reads hplaced hg hmega hlt
    rw [allocMegaGroup_best hplaced hg hmega fresh hcase]
    refine ⟨_, ?_, h.bestFit hplaced hC hg hfree hmega hk hlt⟩
    show Except.ok (_, _) = _
    simp only [hleft, hbd, hmblock]
  | nothing =>
    rw [hcase] at hsame
    obtain rfl : found = .nothing := hsame
    have h₁ := h.newMBlocks hplaced hC hk hfresh hroom
    have hmodel : s.allocMegaGroup H.toBlockSizes k.toNat fresh =
        (((s.getMBlocks k.toNat fresh).initMBlock H.toBlockSizes fresh).setBlocks
          (fresh * H.blocksPerMBlock) (H.mblockGroupBlocks k.toNat), fresh * H.blocksPerMBlock) := by
      simp only [BlockModel.allocMegaGroup, hcase]
      rfl
    rw [hmodel]
    rw [bdescrAt_first] at h₁ ⊢
    exact ⟨_, rfl, h₁⟩

/-! ## A new megablock for a small group -/

/-- What is kept from a state on is kept from the beginning. -/
theorem of_rebased {C' : Finset Group} {c' : BlockAlloc} (h : Represents H C before c s)
    (h' : Represents H C' c.bdescr c' s') (hC : C ⊆ C') : Represents H C before c' s' :=
  ⟨h'.view, h'.lists, h'.mblocks, fun u hu a ha => (h'.kept u (hC hu) a ha).trans (h.kept u hu a ha),
    h'.nAlloc, h'.hwAlloc, h'.map, h'.count, h'.counted, h'.bound⟩

/-- A small piece that is on no list and not the client's is set up as a group. -/
theorem initPiece (h : Represents H C before c s) (hsmall : Small H.toBlockSizes u)
    (hpos : 0 < u.size) (hlisted : ∀ a, u.Has a → ¬ Listed s a)
    (hkept : ∀ a, u.Has a → ∀ v ∈ C, ¬ v.Has a) :
    Represents H C before
      ((c.setBlocks (H.bdescrAt u.start) u.size).initGroup (H.bdescrAt u.start))
      ((s.setBlocks u.start u.size).initGroup H.toBlockSizes u.start) := by
  have h₁ := h.setBlocks hpos (H.small_fits hsmall.lt) (hkept _ (Tile.has_start hpos))
  refine h₁.initGroup_loose (.inl hsmall) hpos ?_ hlisted hkept
  rw [BlockModel.setBlocks, setDescr_self, blocksOf_small hsmall.lt]

/-- A new megablock is cut in two; the front is kept from then on. -/
theorem cutMBlock (h : Represents H C before c s) (hg : InHand H.toBlockSizes s T g)
    (hC : C ⊆ held .live T) (hsize : g.size = H.blocksPerMBlock) {n : Nat} (hpos : 0 < n)
    (hn : n < H.blocksPerMBlock) {c₁ c₂ : BlockAlloc}
    (hc₁ : c₁ = (c.setBlocks (H.bdescrAt g.start) n).initGroup (H.bdescrAt g.start))
    (hc₂ : c₂ = (c₁.setBlocks (H.bdescrAt (g.start + n)) (H.blocksPerMBlock - n)).initGroup
      (H.bdescrAt (g.start + n))) :
    Represents H C before c₁ ((s.setBlocks g.start n).initGroup H.toBlockSizes g.start) ∧
      Represents H (insert (frontPiece g n) C) c₁.bdescr c₂
        ((((s.setBlocks g.start n).initGroup H.toBlockSizes g.start).setBlocks (g.start + n)
          (H.blocksPerMBlock - n)).initGroup H.toBlockSizes (g.start + n)) := by
  have hG := hg.placed.mega hg.mem (Nat.le_of_eq hsize.symm)
  obtain ⟨hfrontSmall, hslopSmall, hfrontHas, hslopHas⟩ := pieces_shape hG hsize hn hpos
  -- nothing of the new megablock is on a list or the client's
  have hlisted : ∀ a, g.Has a → ¬ Listed s a := fun a =>
    hg.placed.not_listed hg.mem (by rw [hg.label]; decide)
  have hkept : ∀ a, g.Has a → ∀ u ∈ C, ¬ u.Has a := fun a =>
    hg.placed.not_kept hC hg.mem (by rw [hg.label]; decide)
  have h₁ := h.initPiece hfrontSmall hpos (fun a ha => hlisted a (hfrontHas a ha).1)
    fun a ha => hkept a (hfrontHas a ha).1
  have h₁ : Represents H C before c₁ ((s.setBlocks g.start n).initGroup H.toBlockSizes g.start) :=
    hc₁ ▸ h₁
  refine ⟨h₁, ?_⟩
  rw [hc₂]
  refine (h₁.rebase (insert (frontPiece g n) C)).initPiece hslopSmall (Nat.sub_pos_of_lt hn)
    (fun a ha => hlisted a (hslopHas a ha).1) fun a ha u hu => ?_
  rcases Finset.mem_insert.mp hu with rfl | hu
  · exact (hslopHas a ha).2
  · exact hkept a (hslopHas a ha).1 u hu

/-- The slop of a new megablock is freed; the group that was asked for stays as it is. -/
theorem freeSlop (h : Represents H C before c s) (hg : InHand H.toBlockSizes s T g)
    (hC : C ⊆ held .live T) (hsize : g.size = H.blocksPerMBlock) {n : Nat} (hpos : 0 < n)
    (hn : n < H.blocksPerMBlock) (hcount : s.nAllocBlocks + H.blocksPerMBlock < 2 ^ 64)
    {c₁ c₂ : BlockAlloc} {s₂ : BlockModel}
    (hc₁ : c₁ = (c.setBlocks (H.bdescrAt g.start) n).initGroup (H.bdescrAt g.start))
    (hc₂ : c₂ = (c₁.setBlocks (H.bdescrAt (g.start + n)) (H.blocksPerMBlock - n)).initGroup
      (H.bdescrAt (g.start + n)))
    (hs₂ : s₂ = (((s.setBlocks g.start n).initGroup H.toBlockSizes g.start).setBlocks (g.start + n)
      (H.blocksPerMBlock - n)).initGroup H.toBlockSizes (g.start + n))
    (hrun : ({ s₂ with nAllocBlocks := s₂.nAllocBlocks +
      (s₂.bdescr (g.start + n)).blocks } : BlockModel).freeGroup H.toBlockSizes (g.start + n) =
        .ok s') :
    ∃ c', ({ c₂ with nAllocBlocks := c₂.nAllocBlocks +
          (c₂.bdescr (H.bdescrAt (g.start + n))).blocks.toUInt64 } : BlockAlloc).freeGroup H
            (H.bdescrAt (g.start + n)) = .ok c' ∧
      Represents H C before c' s' ∧ (c'.bdescr (H.bdescrAt g.start)).link = none := by
  obtain ⟨h₁, h₂⟩ := h.cutMBlock hg hC hsize hpos hn hc₁ hc₂
  rw [← hs₂] at h₂
  obtain ⟨hsettled, htouches, -, hslopBlocks, -⟩ := slop_spec hg hsize hpos hn hs₂
  have hslop : (c₂.bdescr (H.bdescrAt (g.start + n))).blocks.toUInt64.toNat =
      H.blocksPerMBlock - n := by
    rw [UInt32.toNat_toUInt64, ← hslopBlocks]
    exact h₂.blocks_eq _
  have h₃ := h₂.setAlloc (toNat_add_of_lt_size h₂.nAlloc hslop (by
    rw [htouches.nAlloc]
    omega))
  have hcounted : Settled H.toBlockSizes
      { s₂ with nAllocBlocks := s₂.nAllocBlocks + (H.blocksPerMBlock - n) } _ :=
    hsettled.congr rfl rfl rfl rfl
  have hkept : insert (frontPiece g n) C ⊆ (held .live (exchange T {g}
      {frontPiece g n, slopPiece H.toBlockSizes g n})).erase (slopPiece H.toBlockSizes g n) := by
    have hlives : insert (frontPiece g n) (held .live T) = _ := slop_lives hg hsize hpos hn
    exact hlives ▸ Finset.insert_subset_insert _ hC
  rw [hslopBlocks] at hrun
  obtain ⟨c', hc', h₄⟩ := h₃.freeGroup hcounted
    (mem_exchange.mpr (.inr (Finset.mem_insert_of_mem (Finset.mem_singleton_self _)))) rfl hkept
    (Nat.le_add_left _ _) hrun
  refine ⟨c', hc', h₁.of_rebased h₄ (Finset.subset_insert _ _), ?_⟩
  have hhead : (frontPiece g n).Has g.start := Tile.has_start hpos
  rw [h₄.kept _ (Finset.mem_insert_self _ _) _ hhead, hc₁]
  exact initGroup_link _ _

/-- `allocGroup` cuts a new megablock and frees the slop. -/
theorem allocFromMBlock (h : Represents H C before c s) (hsettled : Settled H.toBlockSizes s T)
    (hC : C ⊆ held .live T) {n : UInt64} (hpos : 0 < n.toNat) (hn : n.toNat < H.blocksPerMBlock)
    {fresh : Nat} (hfresh : s.heapAlloced fresh = false)
    (hroom : s.mblocksAllocated + 1 ≤ H.maxMBlocks)
    (hcount : s.nAllocBlocks + H.blocksPerMBlock < 2 ^ 64) {bd : Nat}
    (hrun : s.allocFromMBlock H.toBlockSizes n.toNat fresh = .ok (s', bd)) :
    ∃ c', c.allocFromMBlock H n fresh = .ok (c', H.bdescrAt bd) ∧
      Represents H C before c' s' ∧ (c'.bdescr (H.bdescrAt bd)).link = none := by
  have hone : ∀ i, i < 1 → s.heapAlloced (fresh + i) = false := by
    intro i hi
    rw [show i = 0 by omega]
    exact hfresh
  obtain ⟨T₁, g, hhand, hstart, hsize, hevolves, -⟩ := allocMegaGroup_spec hsettled Nat.one_pos hone
  obtain ⟨c₁, hc₁, h₁⟩ := h.allocMegaGroup hsettled hC (k := 1) Nat.one_pos hone hroom
  have hmodel : s.allocMegaGroup H.toBlockSizes 1 fresh =
      ((s.allocMegaGroup H.toBlockSizes 1 fresh).1, g.start) := by rw [hstart]
  have hc₁ : c.allocMegaGroup H 1 fresh =
    .ok (c₁, H.bdescrAt (s.allocMegaGroup H.toBlockSizes 1 fresh).2) := hc₁
  rw [← hstart] at hc₁
  rw [Nat.one_mul] at hsize
  have hG := hhand.placed.mega hhand.mem (Nat.le_of_eq hsize.symm)
  have haddr : H.bdescrAt g.start + n.toNat = H.bdescrAt (g.start + n.toNat) := by
    rw [H.bdescrAt_add]
    rw [hG.first]
    omega
  rw [BlockModel.allocFromMBlock, hmodel] at hrun
  obtain ⟨s₂, hfree, hrun⟩ := bind_eq_ok.mp hrun
  rw [← hevolves.nAlloc] at hcount
  obtain ⟨c', hc', h₂, hlink⟩ :=
    freeSlop h₁ hhand (hevolves.lives ▸ hC) hsize hpos hn hcount rfl rfl rfl hfree
  cases hrun
  refine ⟨c', ?_, h₂, hlink⟩
  simp only [BlockAlloc.allocFromMBlock, hc₁]
  show (BlockAlloc.freeGroup H _ _ >>= _) = _
  rw [haddr, hc']
  rfl

/-! ## The calls -/

/-- `initGroup` hands a group out. -/
theorem handOut (h : Represents H C before c s) (hg : InHand H.toBlockSizes s T g)
    (hC : C ⊆ held .live T) :
    Represents H C before (c.initGroup (H.bdescrAt g.start))
        (s.initGroup H.toBlockSizes g.start) ∧
      ((c.initGroup (H.bdescrAt g.start)).bdescr (H.bdescrAt g.start)).link = none :=
  ⟨h.initGroup hg.placed hC hg.mem hg.label, initGroup_link _ _⟩

/-- A whole group of a free list is handed out. -/
theorem takeWhole (h : Represents H C before c s) (hsettled : Settled H.toBlockSizes s T)
    (hC : C ⊆ held .live T) (hg : g ∈ T) (hfree : g.label = .free)
    (hsmall : Small H.toBlockSizes g)
    (hrun : s.dblLinkRemove g.start (log2 g.size) = .ok s') :
    ∃ c', c.dblLinkRemove H (H.bdescrAt g.start) (log2 g.size) = .ok c' ∧
      Represents H C before (c'.initGroup (H.bdescrAt g.start))
        (s'.initGroup H.toBlockSizes g.start) ∧
      ((c'.initGroup (H.bdescrAt g.start)).bdescr (H.bdescrAt g.start)).link = none := by
  obtain ⟨s₁, hremove, -, hhand, hreaches⟩ := takeSmall_spec hsettled hg hfree hsmall.lt
  rw [hremove] at hrun
  obtain rfl := Except.ok.inj hrun
  obtain ⟨⟨hln, hmem⟩, hs'⟩ := dblLinkRemove_eq hremove
  obtain ⟨c', hc', h₁⟩ := h.dblLinkRemove (hsettled.placed.tidy hC) hln hmem
  rw [← hs'] at h₁
  have hdone := h₁.handOut hhand (by rw [hreaches.evolves.lives]; exact hC)
  exact ⟨c', hc', hdone⟩

/-- The end of a group of a free list is handed out. -/
theorem takeEnd (h : Represents H C before c s) (hsettled : Settled H.toBlockSizes s T)
    (hC : C ⊆ held .live T) (hg : g ∈ T) (hfree : g.label = .free)
    (hsmall : Small H.toBlockSizes g) {n : Nat} (hpos : 0 < n) (hn : n < g.size)
    (hrun : s.splitFreeBlock g.start n (log2 g.size) = .ok (s', (endOf g n).start)) :
    ∃ c', c.splitFreeBlock H (H.bdescrAt g.start) n (log2 g.size) =
        .ok (c', H.bdescrAt (endOf g n).start) ∧
      c'.blocks (H.bdescrAt (endOf g n).start) = n ∧
      Represents H C before (c'.initGroup (H.bdescrAt (endOf g n).start))
        (s'.initGroup H.toBlockSizes (endOf g n).start) ∧
      ((c'.initGroup (H.bdescrAt (endOf g n).start)).bdescr
        (H.bdescrAt (endOf g n).start)).link = none := by
  obtain ⟨s₁, T₁, hsplit, hhand, hreaches⟩ :=
    splitFreeBlock_spec hsettled hg hfree hsmall hpos hn
  have hsplit : s.splitFreeBlock g.start n (log2 g.size) = .ok (s₁, (endOf g n).start) := hsplit
  rw [hsplit] at hrun
  obtain rfl : s₁ = s' := (Prod.mk.inj (Except.ok.inj hrun)).1
  obtain ⟨c', hc', h₁⟩ := h.splitFreeBlock hsettled hC hg hfree hsmall hpos hn hsplit
  refine ⟨c', hc', ?_, h₁.handOut hhand (by rw [hreaches.evolves.lives]; exact hC)⟩
  rw [h₁.blocks_eq, (hhand.placed.groups _ hhand.mem).blocks]
  exact blocksOf_small (Nat.lt_trans hn hsmall.lt)

/-- `allocGroup` on whole megablocks. -/
theorem allocGroup_mega (h : Represents H C before c s) (hsettled : Settled H.toBlockSizes s T)
    (hC : C ⊆ held .live T) {n : UInt64} (hpos : 0 < n.toNat) (hlarge : H.blocksPerMBlock ≤ n.toNat)
    {fresh : Nat}
    (hfresh : ∀ i, i < H.blocksToMBlocks n.toNat → s.heapAlloced (fresh + i) = false)
    (hroom : s.mblocksAllocated + H.blocksToMBlocks n.toNat ≤ H.maxMBlocks)
    (hcount : s.nAllocBlocks + H.blocksToMBlocks n.toNat * H.blocksPerMBlock < 2 ^ 64) {bd : Nat}
    (hrun : s.allocGroup H.toBlockSizes n.toNat fresh = .ok (s', bd)) :
    ∃ c', c.allocGroup H n fresh = .ok (c', H.bdescrAt bd) ∧
      Represents H C before c' s' ∧ (c'.bdescr (H.bdescrAt bd)).link = none := by
  have hk := H.toMBlocks_pos n.toNat hlarge
  obtain ⟨k, hkdef⟩ : ∃ k, k = H.blocksToMBlocks n.toNat := ⟨_, rfl⟩
  rw [← hkdef] at hfresh hroom hcount hk
  have hkfits := H.mblocks_toNat (k := k) (by omega)
  have hcounted : Settled H.toBlockSizes (s.countAlloc (k * H.blocksPerMBlock)) T :=
    hsettled.congr rfl rfl rfl rfl
  have h₁ := h.countAlloc (H.mblocks_blocks (k := k) (by omega)) hcount
  obtain ⟨T₁, g, hhand, hstart, -, hevolves, -⟩ := allocMegaGroup_spec hcounted hk hfresh
  obtain ⟨c₁, hc₁, h₂⟩ := h₁.allocMegaGroup hcounted hC (k := UInt32.ofNat k)
    (by rw [hkfits]; exact hk) (by rw [hkfits]; exact hfresh) (by rw [hkfits]; exact hroom)
  rw [hkfits] at hc₁ h₂
  obtain ⟨s₁, hs₁⟩ : ∃ s₁, s₁ = ((s.countAlloc (k * H.blocksPerMBlock)).allocMegaGroup
    H.toBlockSizes k fresh).1 := ⟨_, rfl⟩
  have hmodel : (s.countAlloc (k * H.blocksPerMBlock)).allocMegaGroup H.toBlockSizes k fresh =
      (s₁, g.start) := by rw [hs₁, hstart]
  rw [hmodel] at hc₁ h₂ hhand hevolves
  rw [hkdef] at hmodel
  rw [BlockModel.allocGroup_megablocks H.toBlockSizes hpos hlarge hmodel] at hrun
  cases hrun
  have hdone := h₂.handOut hhand (by rw [hevolves.lives]; exact hC)
  exact ⟨_, BlockAlloc.allocGroup_megablocks hpos hlarge (by rw [hkdef]) hc₁, hdone⟩

/-- `allocGroup` of a small group: the head of the new group has no link. -/
theorem allocGroup_small (h : Represents H C before c s) (hsettled : Settled H.toBlockSizes s T)
    (hC : C ⊆ held .live T) {n : UInt64} (hpos : 0 < n.toNat) (hn : n.toNat < H.blocksPerMBlock)
    {fresh : Nat} (hfresh : s.heapAlloced fresh = false)
    (hroom : s.mblocksAllocated + 1 ≤ H.maxMBlocks)
    (hcount : s.nAllocBlocks + n.toNat + H.blocksPerMBlock < 2 ^ 64) {bd : Nat}
    (hrun : s.allocGroup H.toBlockSizes n.toNat fresh = .ok (s', bd)) :
    ∃ c', c.allocGroup H n fresh = .ok (c', H.bdescrAt bd) ∧
      Represents H C before c' s' ∧ (c'.bdescr (H.bdescrAt bd)).link = none := by
  have hcounted : Settled H.toBlockSizes (s.countAlloc n.toNat) T := hsettled.congr rfl rfl rfl rfl
  have h₁ := h.countAlloc (n := n) rfl (by omega)
  have hskip := h₁.skipEmpty (maxFreeList - log2Ceil n.toNat) (log2Ceil n.toNat)
  rcases hcounted.skipEmpty (log2Ceil_spec n.toNat).1 (Nat.le_refl _) with
    hnone | ⟨ln, g, rest, hln, hfound, hfit⟩
  · rw [BlockModel.allocGroup_fresh _ hpos hn hnone] at hrun
    rw [BlockAlloc.allocGroup_fresh hpos hn (hskip.trans hnone)]
    exact h₁.allocFromMBlock hcounted hC hpos hn hfresh hroom hcount hrun
  have hfirst := h₁.first hfit.list
  have hcblocks : (c.countAlloc n).blocks (H.bdescrAt g.start) = g.size :=
    (h₁.blocks_eq _).trans hfit.blocks
  rcases Nat.eq_or_lt_of_le hfit.large with hexact | hgt
  · obtain ⟨s₁, hremove, -⟩ := takeSmall_spec hcounted hfit.mem hfit.free hfit.small.lt
    obtain ⟨c₁, hc₁, hdone⟩ := h₁.takeWhole hcounted hC hfit.mem hfit.free hfit.small hremove
    rw [hfit.log] at hremove hc₁
    rw [BlockModel.allocGroup_whole _ hpos hn hln hfound hfit.list
      (hfit.blocks.trans hexact.symm) hremove] at hrun
    cases hrun
    exact ⟨_, BlockAlloc.allocGroup_whole hpos hn (hskip.trans hln) hfound hfirst
      (hcblocks.trans hexact.symm) hc₁, hdone⟩
  · obtain ⟨s₁, T₁, hsplit, hhand, -⟩ :=
      splitFreeBlock_spec hcounted hfit.mem hfit.free hfit.small hpos hgt
    have hsplit : (s.countAlloc n.toNat).splitFreeBlock g.start n.toNat (log2 g.size) =
      .ok (s₁, (endOf g n.toNat).start) := hsplit
    obtain ⟨c₁, hc₁, hend, hdone⟩ :=
      h₁.takeEnd hcounted hC hfit.mem hfit.free hfit.small hpos hgt hsplit
    have hsize : (s₁.bdescr (endOf g n.toNat).start).blocks = n.toNat := by
      rw [(hhand.placed.groups _ hhand.mem).blocks]
      exact blocksOf_small (Nat.lt_trans hgt hfit.small.lt)
    rw [hfit.log] at hsplit hc₁
    rw [BlockModel.allocGroup_end _ hpos hn hln hfound hfit.list (hfit.blocks ▸ hgt) hsplit
      hsize] at hrun
    cases hrun
    exact ⟨_, BlockAlloc.allocGroup_end hpos hn (hskip.trans hln) hfound hfirst (hcblocks ▸ hgt)
      hc₁ hend, hdone⟩

/-- `allocGroup`: the head of the new group has no link. -/
theorem allocGroup (h : Represents H C before c s) (hsettled : Settled H.toBlockSizes s T)
    (hC : C ⊆ held .live T) {n : UInt64} (hpos : 0 < n.toNat) {fresh : Nat}
    (hfresh : ∀ i, i < mblocksFor H.toBlockSizes n.toNat → s.heapAlloced (fresh + i) = false)
    (hroom : s.mblocksAllocated + mblocksFor H.toBlockSizes n.toNat ≤ H.maxMBlocks)
    (hcount : s.nAllocBlocks + extentOf H.toBlockSizes n.toNat + H.blocksPerMBlock < 2 ^ 64)
    {bd : Nat} (hrun : s.allocGroup H.toBlockSizes n.toNat fresh = .ok (s', bd)) :
    ∃ c', c.allocGroup H n fresh = .ok (c', H.bdescrAt bd) ∧
      Represents H C before c' s' ∧ (c'.bdescr (H.bdescrAt bd)).link = none := by
  by_cases hlarge : H.blocksPerMBlock ≤ n.toNat
  · have hextent : extentOf H.toBlockSizes n.toNat = H.blocksToMBlocks n.toNat * H.blocksPerMBlock :=
      if_neg (Nat.not_lt.mpr hlarge)
    have hmblocks : mblocksFor H.toBlockSizes n.toNat = H.blocksToMBlocks n.toNat :=
      if_neg (Nat.not_lt.mpr hlarge)
    rw [hmblocks] at hfresh hroom
    exact h.allocGroup_mega hsettled hC hpos hlarge hfresh hroom (by omega) hrun
  · have hn : n.toNat < H.blocksPerMBlock := Nat.not_le.mp hlarge
    rw [show extentOf H.toBlockSizes n.toNat = n.toNat from if_pos hn] at hcount
    rw [show mblocksFor H.toBlockSizes n.toNat = 1 from if_pos hn] at hfresh hroom
    exact h.allocGroup_small hsettled hC hpos hn (hfresh 0 Nat.one_pos) hroom hcount hrun

/-- After `allocLargeChunk` has taken a group, the counters go up by what its head says. -/
theorem countTaken (h : Represents H C before c s') {bd n : Nat}
    (hlink : (c.bdescr (H.bdescrAt bd)).link = none) (hn : (s'.bdescr bd).blocks = n)
    (hsame : s'.nAllocBlocks = s.nAllocBlocks) (hlt : s.nAllocBlocks + n < 2 ^ 64) :
    Represents H C before (c.countAlloc (c.bdescr (H.bdescrAt bd)).blocks.toUInt64)
        (s'.countAlloc (s'.bdescr bd).blocks) ∧
      ((c.countAlloc (c.bdescr (H.bdescrAt bd)).blocks.toUInt64).bdescr
        (H.bdescrAt bd)).link = none := by
  refine ⟨h.countAlloc ?_ (by omega), hlink⟩
  rw [UInt32.toNat_toUInt64]
  exact h.blocks_eq bd

/-- `allocLargeChunk` with a group that a free list has. -/
theorem allocLargeChunk_fit (h : Represents H C before c s) (hsettled : Settled H.toBlockSizes s T)
    (hC : C ⊆ held .live T) {least most : UInt32} (hsmall : least.toNat < H.blocksPerMBlock)
    (hmost : 0 < most.toNat) {fresh ln : Nat} {rest : List Nat}
    (hln : s.skipEmpty (log2Ceil most.toNat - log2Ceil least.toNat) (log2Ceil least.toNat) = ln)
    (hfound : ln ≠ log2Ceil most.toNat)
    (hfit : FirstFit H.toBlockSizes s T least.toNat ln g rest)
    (hcount : s.nAllocBlocks + H.blocksPerMBlock < 2 ^ 64) {bd : Nat}
    (hrun : s.allocLargeChunk H.toBlockSizes least.toNat most.toNat fresh = .ok (s', bd)) :
    ∃ c', c.allocLargeChunk H least most fresh = .ok (c', H.bdescrAt bd) ∧
      Represents H C before c' s' ∧ (c'.bdescr (H.bdescrAt bd)).link = none := by
  have hskip := (h.skipEmpty _ _).trans hln
  have hfirst := h.first hfit.list
  have hcblocks : c.blocks (H.bdescrAt g.start) = g.size := (h.blocks_eq _).trans hfit.blocks
  have hlt := hfit.small.lt
  have hlt : g.size < H.blocksPerMBlock := hlt
  by_cases hwhole : g.size ≤ most.toNat
  · obtain ⟨s₁, hremove, hbdescr, hhand, hreaches⟩ :=
      takeSmall_spec hsettled hfit.mem hfit.free hfit.small.lt
    obtain ⟨c₁, hc₁, hrep, hlink⟩ := h.takeWhole hsettled hC hfit.mem hfit.free hfit.small hremove
    have hsize : ((s₁.initGroup H.toBlockSizes g.start).bdescr g.start).blocks = g.size := by
      rw [initGroup_head, hbdescr]
      exact hfit.blocks
    have hdone := hrep.countTaken (s := s) hlink hsize hreaches.evolves.nAlloc (by omega)
    rw [hfit.log] at hremove hc₁
    rw [BlockModel.allocLargeChunk_whole _ hsmall hln hfound hfit.list (hfit.blocks ▸ hwhole)
      hremove] at hrun
    cases hrun
    exact ⟨_, BlockAlloc.allocLargeChunk_whole hsmall hskip hfound hfirst (hcblocks ▸ hwhole) hc₁,
      hdone⟩
  · have hgt : most.toNat < g.size := Nat.not_le.mp hwhole
    obtain ⟨s₁, T₁, hsplit, hhand, hreaches⟩ :=
      splitFreeBlock_spec hsettled hfit.mem hfit.free hfit.small hmost hgt
    have hsplit : s.splitFreeBlock g.start most.toNat (log2 g.size) =
      .ok (s₁, (endOf g most.toNat).start) := hsplit
    obtain ⟨c₁, hc₁, hend, hrep, hlink⟩ :=
      h.takeEnd hsettled hC hfit.mem hfit.free hfit.small hmost hgt hsplit
    have hsize : (s₁.bdescr (endOf g most.toNat).start).blocks = most.toNat := by
      rw [(hhand.placed.groups _ hhand.mem).blocks]
      exact blocksOf_small (Nat.lt_trans hgt hfit.small.lt)
    have hdone := hrep.countTaken (s := s) (n := most.toNat) hlink (by
      rw [initGroup_head]
      exact hsize) hreaches.evolves.nAlloc (by omega)
    rw [hfit.log] at hsplit hc₁
    rw [BlockModel.allocLargeChunk_end _ hsmall hln hfound hfit.list (hfit.blocks ▸ hgt) hsplit
      hsize] at hrun
    cases hrun
    exact ⟨_, BlockAlloc.allocLargeChunk_end hsmall hskip hfound hfirst (hcblocks ▸ hgt) hc₁ hend,
      hdone⟩

/-- `allocLargeChunk`: the head of the new group has no link. -/
theorem allocLargeChunk (h : Represents H C before c s) (hsettled : Settled H.toBlockSizes s T)
    (hC : C ⊆ held .live T) {least most : UInt32} (hpos : 0 < least.toNat)
    (hle : least.toNat ≤ most.toNat) {fresh : Nat}
    (hfresh : ∀ i, i < mblocksFor H.toBlockSizes most.toNat → s.heapAlloced (fresh + i) = false)
    (hroom : s.mblocksAllocated + mblocksFor H.toBlockSizes most.toNat ≤ H.maxMBlocks)
    (hcount : s.nAllocBlocks + extentOf H.toBlockSizes most.toNat + H.blocksPerMBlock < 2 ^ 64)
    {bd : Nat}
    (hrun : s.allocLargeChunk H.toBlockSizes least.toNat most.toNat fresh = .ok (s', bd)) :
    ∃ c', c.allocLargeChunk H least most fresh = .ok (c', H.bdescrAt bd) ∧
      Represents H C before c' s' ∧ (c'.bdescr (H.bdescrAt bd)).link = none := by
  have hmost : 0 < most.toNat := Nat.lt_of_lt_of_le hpos hle
  have hwide : most.toUInt64.toNat = most.toNat := UInt32.toNat_toUInt64 most
  have hgroup : ∀ {s' bd}, s.allocGroup H.toBlockSizes most.toNat fresh = .ok (s', bd) →
      ∃ c', c.allocGroup H most.toUInt64 fresh = .ok (c', H.bdescrAt bd) ∧
        Represents H C before c' s' ∧ (c'.bdescr (H.bdescrAt bd)).link = none := by
    intro s' bd hrun
    rw [← hwide] at hrun hfresh hroom hcount hmost
    exact h.allocGroup hsettled hC hmost hfresh hroom hcount hrun
  by_cases hlarge : H.blocksPerMBlock ≤ least.toNat
  · rw [BlockModel.allocLargeChunk_group _ (.inl hlarge)] at hrun
    rw [BlockAlloc.allocLargeChunk_group (.inl hlarge)]
    exact hgroup hrun
  rcases hsettled.skipEmpty (log2Ceil_mono hle) (log2Ceil_spec most.toNat).1 with
    hnone | ⟨ln, g, rest, hln, hfound, hfit⟩
  · rw [BlockModel.allocLargeChunk_group _ (.inr hnone)] at hrun
    rw [BlockAlloc.allocLargeChunk_group (.inr ((h.skipEmpty _ _).trans hnone))]
    exact hgroup hrun
  · exact h.allocLargeChunk_fit hsettled hC (Nat.not_le.mp hlarge) hmost hln hfound hfit (by omega)
      hrun

end Represents

end HosBoot.Rts
