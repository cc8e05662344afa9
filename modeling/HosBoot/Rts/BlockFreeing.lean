/-
  Rts/BlockFreeing.lean --- `freeGroup` in memory does what the model does.

  Each function is followed from a state of the model in which the group is in hand: the
  links that the code stores lead over the list that the model has afterwards, and the
  numbers of blocks stay below 2^32, since the megablocks of two groups are at most all that
  are in use.
-/
import HosBoot.Foundation.Fallible
import HosBoot.Rts.BlockLinks

set_option autoImplicit false

namespace HosBoot.Rts

open HosBoot.Foundation HosBoot.Foundation.LinkedList

variable {H : BlockHeader} {C : Finset Group} {before : Nat → BDescr} {c : BlockAlloc}
  {s s' : BlockModel} {T : Finset Group} {g u : Group}

/-! ## Links of megablock groups -/

/-- Two groups of megablocks are at most all the megablocks. -/
theorem Placed.two_mblocks_le {L : BlockSizes} (h : Placed L s T) (hmap : MapCounted s)
    (hg : g ∈ T) (hu : u ∈ T) (hne : g ≠ u) :
    g.size / L.blocksPerMBlock + u.size / L.blocksPerMBlock ≤ s.mblocksAllocated := by
  have hsub : {g, u} ⊆ T := by
    intro x hx
    rcases Finset.mem_insert.mp hx with rfl | hx
    · exact hg
    · rw [Finset.mem_singleton.mp hx]
      exact hu
  have hle := h.sum_le hmap hsub
  rw [Finset.sum_pair hne] at hle
  have hpos := L.perMBlock_pos
  have hgle := Nat.div_mul_le_self g.size L.blocksPerMBlock
  have hule := Nat.div_mul_le_self u.size L.blocksPerMBlock
  refine Nat.le_of_mul_le_mul_right ?_ hpos
  rw [Nat.add_mul]
  omega

/-- A head that is on no list and not the client's. -/
structure Loose (C : Finset Group) (s : BlockModel) (bd : Nat) : Prop where
  head : (s.bdescr bd).blocks ≠ 0
  notKept : ∀ u ∈ C, ¬ u.Has bd
  notListed : ¬ Listed s bd

theorem Placed.loose {L : BlockSizes} (h : Placed L s T) (hC : C ⊆ held .live T) (hg : g ∈ T)
    (hhand : g.label = .hand) : Loose C s g.start := by
  have hpos := h.tiles.pos g hg
  refine ⟨?_, h.not_kept hC hg (by rw [hhand]; decide) (Tile.has_start hpos),
    h.not_listed hg (by rw [hhand]; decide) (Tile.has_start hpos)⟩
  rw [(h.groups g hg).blocks]
  exact Nat.ne_of_gt (blocksOf_pos hpos)

theorem InHand.loose {L : BlockSizes} (h : InHand L s T g) (hC : C ⊆ held .live T) :
    Loose C s g.start :=
  h.placed.loose hC h.mem h.label

/-- `free_mega_group` at the front of the list. -/
theorem freeMegaGroup_first {c' : BlockAlloc} {mg : Nat} {r : Option Nat}
    (hplace : c.findPlace mg (c.turns H) none c.freeMBlockList = .ok none)
    (hcoalesce : ({ c.setLink mg c.freeMBlockList with
      freeMBlockList := some mg } : BlockAlloc).coalesceMBlocks H mg = (c', r)) :
    c.freeMegaGroup H mg = .ok c' := by
  unfold BlockAlloc.freeMegaGroup
  rw [hplace]
  exact congrArg (fun r => Except.ok (Prod.fst r)) hcoalesce

/-- `free_mega_group` behind another group. -/
theorem freeMegaGroup_behind {c' c'' : BlockAlloc} {mg prev next : Nat} {r : Option Nat}
    (hplace : c.findPlace mg (c.turns H) none c.freeMBlockList = .ok (some prev))
    (hfirst : ((c.setLink mg (c.bdescr prev).link).setLink prev (some mg)).coalesceMBlocks H prev =
      (c', some next))
    (hsecond : c'.coalesceMBlocks H next = (c'', r)) : c.freeMegaGroup H mg = .ok c'' := by
  unfold BlockAlloc.freeMegaGroup
  rw [hplace]
  dsimp only [bind, Except.bind]
  rw [hfirst]
  exact congrArg (fun r => Except.ok (Prod.fst r)) hsecond

namespace Represents

/-- The link of a group on `free_mblock_list`. -/
theorem link_mega (h : Represents H C before c s) {front rest : List Nat} {p : Nat}
    (hlist : s.freeMBlockList = front ++ p :: rest) :
    (c.bdescr (H.bdescrAt p)).link = rest.head?.map H.bdescrAt := by
  have hlinked := h.mblocks
  rw [hlist, List.map_append, List.map_cons] at hlinked
  rw [← List.head?_map]
  exact hlinked.link_eq

/-- A store to the link of a head that is on no free list. -/
theorem setLink (h : Represents H C before c s) {bd : Nat} {q p : Option Nat} {l : List Nat}
    (hhead : (s.bdescr bd).blocks ≠ 0) (hkept : ∀ u ∈ C, ¬ u.Has bd)
    (hother : ∀ ln, bd ∉ s.freeList ln)
    (hmblocks : Linked (fun x => ((c.setLink (H.bdescrAt bd) q).bdescr x).link) p
      (l.map H.bdescrAt)) :
    Represents H C before { c.setLink (H.bdescrAt bd) q with freeMBlockList := p }
      { s with freeMBlockList := l } := by
  have hrelinks : Relinks ([bd].map H.bdescrAt) c.bdescr
      (c.setLink (H.bdescrAt bd) q).bdescr := by
    refine ⟨fun x => ?_, fun x hx => ?_⟩
    · by_cases hxbd : x = H.bdescrAt bd
      · rw [hxbd, BlockAlloc.setLink, BlockAlloc.setDescr_same]
      · rw [BlockAlloc.setLink, BlockAlloc.setDescr_ne _ _ hxbd]
    · exact Function.update_of_ne (fun heq => hx (List.mem_singleton.mpr heq)) _ _
  refine h.relink hrelinks (fun a ha => ?_) (fun a ha => ?_) (fun ln => ?_)
    hmblocks
  · rw [List.mem_singleton.mp ha]
    exact hhead
  · rw [List.mem_singleton.mp ha]
    exact hkept
  · refine h.list_congr hrelinks fun a ha hchanged => hother ln ?_
    rw [← List.mem_singleton.mp hchanged]
    exact ha

/-- The link of a descriptor after a store to another's. -/
theorem setLink_link (q : Option Nat) {bd a : Nat} (hne : a ≠ bd) :
    ((c.setLink (H.bdescrAt bd) q).bdescr (H.bdescrAt a)).link =
      (c.bdescr (H.bdescrAt a)).link :=
  congrArg BDescr.link (BlockAlloc.setDescr_ne c _ fun heq => hne (H.bdescrAt_inj heq))

theorem setLink_self (q : Option Nat) (x : Nat) : ((c.setLink x q).bdescr x).link = q :=
  congrArg BDescr.link (c.setDescr_same x _)

/-- A list without a descriptor whose link changes. -/
theorem setLink_linked {q p : Option Nat} {bd : Nat} {l : List Nat}
    (h : Linked (fun x => (c.bdescr x).link) p (l.map H.bdescrAt)) (hbd : bd ∉ l) :
    Linked (fun x => ((c.setLink (H.bdescrAt bd) q).bdescr x).link) p (l.map H.bdescrAt) := by
  refine h.congr fun x hx => ?_
  obtain ⟨a, ha, rfl⟩ := List.mem_map.mp hx
  exact setLink_link q fun heq => hbd (heq ▸ ha)

/-- A descriptor is linked in front of a list. -/
theorem setLink_head {p : Option Nat} {a : Nat} {l : List Nat}
    (h : Linked (fun x => (c.bdescr x).link) p (l.map H.bdescrAt)) (ha : a ∉ l) :
    Linked (fun x => ((c.setLink (H.bdescrAt a) p).bdescr x).link) (some (H.bdescrAt a))
      ((a :: l).map H.bdescrAt) := by
  refine ⟨rfl, ?_⟩
  show Linked _ ((c.setLink (H.bdescrAt a) p).bdescr (H.bdescrAt a)).link _
  rw [setLink_self]
  exact setLink_linked h ha

/-- Another list behind a descriptor whose link changes. -/
theorem setLink_relinked {q p : Option Nat} {bd : Nat} {front rest rest' : List Nat}
    (h : Linked (fun x => (c.bdescr x).link) p ((front ++ bd :: rest).map H.bdescrAt))
    (hfront : bd ∉ front) (hrest' : bd ∉ rest')
    (hq : Linked (fun x => (c.bdescr x).link) q (rest'.map H.bdescrAt)) :
    Linked (fun x => ((c.setLink (H.bdescrAt bd) q).bdescr x).link) p
      ((front ++ bd :: rest').map H.bdescrAt) := by
  rw [List.map_append, List.map_cons] at h ⊢
  refine h.relink (fun y hy => ?_) ?_
  · obtain ⟨a, ha, rfl⟩ := List.mem_map.mp hy
    exact setLink_link q fun heq => hfront (heq ▸ ha)
  · rw [setLink_self]
    exact setLink_linked hq hrest'

/-- `coalesce_mblocks` of a group on the list. -/
theorem coalesceMBlocks (h : Represents H C before c s) (hplaced : Placed H.toBlockSizes s T)
    (hC : C ⊆ held .live T) (hg : g ∈ T) (hfree : g.label = .free)
    (hmega : H.blocksPerMBlock ≤ g.size) :
    ∃ c', c.coalesceMBlocks H (H.bdescrAt g.start) =
        (c', (s.coalesceMBlocks H.toBlockSizes g.start).2.map H.bdescrAt) ∧
      Represents H C before c' (s.coalesceMBlocks H.toBlockSizes g.start).1 := by
  have htidy := hplaced.tidy hC
  have hgmem := hplaced.mem_mblock hg hfree hmega
  obtain ⟨front, rest, hlist⟩ := List.append_of_mem hgmem
  have hnodup := htidy.megaNodup
  rw [hlist] at hnodup
  obtain ⟨-, hgrest, hapart⟩ := List.nodup_append.mp hnodup
  obtain ⟨hgrest, -⟩ := List.nodup_cons.mp hgrest
  have hgfront : g.start ∉ front := fun hmem =>
    hapart g.start hmem g.start List.mem_cons_self rfl
  have hlink := h.link_mega hlist
  have hlinkOf : BlockModel.linkOf s.freeMBlockList g.start = rest.head? := by
    rw [hlist]
    exact linkOf_split hgfront
  cases rest with
  | nil =>
    refine ⟨c, ?_, ?_⟩
    · simp only [BlockAlloc.coalesceMBlocks, hlink, BlockModel.coalesceMBlocks, hlinkOf,
        List.head?_nil, Option.map_none]
    · simp only [BlockModel.coalesceMBlocks, hlinkOf, List.head?_nil]
      exact h
  | cons q rest =>
    have hqmem : q ∈ s.freeMBlockList := by
      rw [hlist]
      simp
    obtain ⟨v, hv, hvmega, rfl⟩ := (hplaced.lists.mem_mblock q).mp hqmem
    obtain ⟨hvT, hvfree⟩ := mem_held.mp hv
    have hgv : g ≠ v := by
      rintro rfl
      exact hgrest List.mem_cons_self
    have hround : ∀ a, H.mblockOfBdescr (H.bdescrAt a) = BlockModel.mblockOf H.toBlockSizes a :=
      fun a => H.mblockOfBdescr_bdescrAt a
    simp only [BlockAlloc.coalesceMBlocks, hlink, BlockModel.coalesceMBlocks, hlinkOf,
      List.head?_cons, Option.map_some, hround, h.blocks_eq]
    by_cases hnext : BlockModel.mblockOf H.toBlockSizes v.start =
        BlockModel.mblockOf H.toBlockSizes g.start + H.blocksToMBlocks (s.bdescr g.start).blocks
    · rw [if_pos hnext, if_pos hnext]
      have hsum := hplaced.two_mblocks_le h.counted hg hvT hgv
      have hgpos := (hplaced.mega hg hmega).mblocks_pos
      have hfits : 0 < H.mblockGroupBlocks (H.blocksToMBlocks (s.bdescr g.start).blocks +
            H.blocksToMBlocks (s.bdescr v.start).blocks) ∧
          H.mblockGroupBlocks (H.blocksToMBlocks (s.bdescr g.start).blocks +
            H.blocksToMBlocks (s.bdescr v.start).blocks) < 2 ^ 32 := by
        rw [hplaced.toMBlocks hg hmega, hplaced.toMBlocks hvT hvmega]
        have hpos := Nat.add_pos_left hgpos (v.size / H.blocksPerMBlock)
        exact ⟨Nat.lt_of_lt_of_le H.perMBlock_pos (perMBlock_le_group hpos),
          H.group_fits_of_le hpos (Nat.le_trans hsum h.bound)⟩
      have hblocks := h.setBlocks (p := g.start) hfits.1 hfits.2 (htidy.notKept _ (.inr hgmem))
      have hgvstart : g.start ≠ v.start := fun heq => hgrest (heq ▸ List.mem_cons_self)
      have herase : s.freeMBlockList.erase v.start = front ++ g.start :: rest := by
        have hvfront : v.start ∉ front := fun hmem =>
          hapart v.start hmem v.start (by simp) rfl
        rw [hlist, List.erase_append_right _ hvfront, List.erase_cons_tail (by simpa using hgvstart),
          List.erase_cons_head]
      refine ⟨_, rfl, ?_⟩
      rw [herase]
      have hmblocks := hblocks.mblocks
      have hmblocks : Linked _ _ (List.map H.bdescrAt s.freeMBlockList) := hmblocks
      rw [hlist] at hmblocks
      have hbehind := hmblocks
      rw [List.map_append, List.map_cons, List.map_cons] at hbehind
      exact hblocks.setLink ((htidy.setBlocks hfits.1).head _ (.inr hgmem))
        (htidy.notKept _ (.inr hgmem)) (fun ln hmem => htidy.notMega ln _ hmem hgmem)
        (setLink_relinked hmblocks hgfront (fun hmem => hgrest (List.mem_cons_of_mem _ hmem))
          hbehind.behind.2)
    · rw [if_neg hnext, if_neg hnext]
      exact ⟨c, rfl, h⟩

/-- The loop of `free_mega_group` ends behind the groups at lower addresses. -/
theorem findPlace (h : Represents H C before c s) (mg : Nat) {p : Option Nat} {l : List Nat}
    (hlinked : Linked (fun x => (c.bdescr x).link) p (l.map H.bdescrAt)) {k : Nat}
    (hk : l.length ≤ k) (prev : Option Nat) :
    c.findPlace (H.bdescrAt mg) k prev p =
      .ok (lastOr prev ((l.takeWhile (s.below mg)).map H.bdescrAt)) := by
  induction l generalizing p k prev with
  | nil =>
    have hp : p = none := hlinked
    rw [hp]
    cases k <;> rfl
  | cons bd rest ih =>
    obtain ⟨rfl, hrest⟩ := hlinked
    cases k with
    | zero => exact absurd hk (Nat.not_succ_le_zero _)
    | succ k =>
      rw [BlockAlloc.findPlace, h.start_eq, h.start_eq]
      by_cases hlt : (s.bdescr bd).start < (s.bdescr mg).start
      · rw [if_pos hlt, ih hrest (Nat.le_of_succ_le_succ hk),
          List.takeWhile_cons_of_pos (show s.below mg bd = true from decide_eq_true hlt),
          List.map_cons, lastOr_cons]
      · rw [if_neg hlt, List.takeWhile_cons_of_neg (by simpa [BlockModel.below] using hlt)]
        rfl

/-- The loops over `free_mblock_list` have enough turns. -/
theorem mega_length_le (h : Represents H C before c s) (hplaced : Placed H.toBlockSizes s T) :
    s.freeMBlockList.length ≤ c.turns H := by
  rw [h.turns_eq]
  refine hplaced.length_le h.counted (hplaced.lists.sorted.imp Nat.ne_of_lt) fun x hx => ?_
  obtain ⟨u, hu, -, hstart⟩ := hplaced.listed (.inr hx)
  exact ⟨u, hu, hstart⟩

/-- A group is linked in at the front of `free_mblock_list`. -/
theorem linkFirst (h : Represents H C before c s) (hg : InHand H.toBlockSizes s T g)
    (hC : C ⊆ held .live T) (hempty : s.freeMBlockList.takeWhile (s.below g.start) = []) :
    Represents H C before
      { c.setLink (H.bdescrAt g.start) c.freeMBlockList with
        freeMBlockList := some (H.bdescrAt g.start) }
      { s with freeMBlockList := s.linkedIn g.start } := by
  obtain ⟨hhead, hkept, hlisted⟩ := hg.loose hC
  have hsplit := List.takeWhile_append_dropWhile (p := s.below g.start) (l := s.freeMBlockList)
  rw [hempty, List.nil_append] at hsplit
  have hlist : s.linkedIn g.start = g.start :: s.freeMBlockList := by
    rw [BlockModel.linkedIn, hempty, hsplit]
    rfl
  refine h.setLink hhead hkept (fun ln hmem => hlisted (.inl ⟨ln, hmem⟩)) ?_
  rw [hlist]
  exact setLink_head h.mblocks fun hmem => hlisted (.inr hmem)

/-- A group is linked in behind another one. -/
theorem linkBehind (h : Represents H C before c s) (hg : InHand H.toBlockSizes s T g)
    (hC : C ⊆ held .live T) {prev : Nat}
    (hlast : (s.freeMBlockList.takeWhile (s.below g.start)).getLast? = some prev) :
    Represents H C before
      ((c.setLink (H.bdescrAt g.start) (c.bdescr (H.bdescrAt prev)).link).setLink (H.bdescrAt prev)
        (some (H.bdescrAt g.start)))
      { s with freeMBlockList := s.linkedIn g.start } := by
  have htidy := hg.placed.tidy hC
  obtain ⟨hhead, hkept, hlisted⟩ := hg.loose hC
  obtain ⟨hsorted, -, -, -⟩ := hg.linkedIn
  obtain ⟨init, hinit⟩ := List.getLast?_eq_some_iff.mp hlast
  obtain ⟨-, hprevMem, -⟩ := hg.last_below hlast
  have hold : s.freeMBlockList = init ++ prev :: s.freeMBlockList.dropWhile (s.below g.start) := by
    have hsplit := List.takeWhile_append_dropWhile (p := s.below g.start) (l := s.freeMBlockList)
    rw [hinit, List.append_assoc] at hsplit
    exact hsplit.symm
  have hlist : s.linkedIn g.start =
      init ++ prev :: g.start :: s.freeMBlockList.dropWhile (s.below g.start) := by
    rw [BlockModel.linkedIn, hinit, List.append_assoc]
    rfl
  have hnodup : (init ++ prev :: g.start :: s.freeMBlockList.dropWhile (s.below g.start)).Nodup := by
    rw [← hlist]
    exact hsorted.imp Nat.ne_of_lt
  obtain ⟨-, hbehind, hapart⟩ := List.nodup_append.mp hnodup
  obtain ⟨hprevRest, hrest⟩ := List.nodup_cons.mp hbehind
  have hprevInit : prev ∉ init := fun hmem => hapart prev hmem prev List.mem_cons_self rfl
  have hfirst := h.setLink (q := (c.bdescr (H.bdescrAt prev)).link) hhead hkept
    (fun ln hmem => hlisted (.inl ⟨ln, hmem⟩))
    (setLink_linked h.mblocks fun hmem => hlisted (.inr hmem))
  have hmblocks : Linked _ _ (s.freeMBlockList.map H.bdescrAt) := hfirst.mblocks
  have hlinked := h.mblocks
  rw [hold, List.map_append, List.map_cons] at hlinked
  have hafter := setLink_head (a := g.start) hlinked.behind (List.nodup_cons.mp hrest).1
  rw [hold] at hmblocks
  refine hfirst.setLink (htidy.head prev (.inr hprevMem)) (htidy.notKept prev (.inr hprevMem))
    (fun ln hmem => htidy.notMega ln prev hmem hprevMem) ?_
  rw [hlist]
  exact setLink_relinked hmblocks hprevInit hprevRest hafter

/-- `free_mega_group`. -/
theorem freeMegaGroup (h : Represents H C before c s) (hg : InHand H.toBlockSizes s T g)
    (hC : C ⊆ held .live T) (hmega : H.blocksPerMBlock ≤ g.size)
    (hmark : (s.bdescr g.start).free = .minusOne) :
    ∃ c', c.freeMegaGroup H (H.bdescrAt g.start) = .ok c' ∧
      Represents H C before c' (s.freeMegaGroup H.toBlockSizes g.start) := by
  have hplaced := hg.placed
  obtain ⟨hsorted, hmem, -, -⟩ := hg.linkedIn
  obtain ⟨hlinked, -⟩ := linkMega_spec hg hmega hmark hmem hsorted
  have hC' : C ⊆ held .live (exchange T {g} {g.to .free}) := by
    rw [held_exchange_other (by simp [hg.label]) (by simp)]
    exact hC
  have hmemG : g.to .free ∈ exchange T {g} {g.to .free} :=
    mem_exchange.mpr (.inr (Finset.mem_singleton_self _))
  have hplace := h.findPlace g.start h.mblocks (h.mega_length_le hplaced) none
  unfold BlockModel.freeMegaGroup
  cases hlast : (s.freeMBlockList.takeWhile (s.below g.start)).getLast? with
  | none =>
    have hempty := List.getLast?_eq_none_iff.mp hlast
    obtain ⟨c', hc', hfinal⟩ :=
      (h.linkFirst hg hC hempty).coalesceMBlocks hlinked hC' hmemG rfl hmega
    rw [hempty] at hplace
    exact ⟨c', freeMegaGroup_first hplace hc', hfinal⟩
  | some prev =>
    obtain ⟨hprevLt, hprevMem, -⟩ := hg.last_below hlast
    have hstored := h.linkBehind hg hC hlast
    obtain ⟨w, hw, hwmega, rfl⟩ := (hplaced.lists.mem_mblock prev).mp hprevMem
    obtain ⟨hwT, hwfree⟩ := mem_held.mp hw
    have hwg : w ≠ g := by
      rintro rfl
      omega
    have hwmem : w ∈ exchange T {g} {g.to .free} :=
      mem_exchange.mpr (.inl ⟨hwT, fun hmem => hwg (Finset.mem_singleton.mp hmem)⟩)
    obtain ⟨c', hc', hjoined⟩ := hstored.coalesceMBlocks hlinked hC' hwmem hwfree hwmega
    obtain ⟨init, hinit⟩ := List.getLast?_eq_some_iff.mp hlast
    rw [hinit, List.map_append, List.map_singleton, lastOr, List.getLast?_concat] at hplace
    rcases coalesceMBlocks_spec hlinked hwmem hwfree hwmega with
      ⟨u, hu, hufree, humega, hunext, s', hs', hplaced', hreaches⟩ | ⟨-, hsame⟩
    · -- the group before it takes it in
      rw [hs'] at hc' hjoined
      have hmemW : (w.join u).to .free ∈
          exchange (exchange T {g} {g.to .free}) {w, u} {(w.join u).to .free} :=
        mem_exchange.mpr (.inr (Finset.mem_singleton_self _))
      obtain ⟨c'', hc'', hfinal⟩ := hjoined.coalesceMBlocks hplaced'
        (by rw [hreaches.evolves.lives]; exact hC') hmemW rfl
        (Nat.le_trans hwmega (Nat.le_add_right _ _))
      simp only [hs']
      exact ⟨c'', freeMegaGroup_behind hplace hc' hc'', hfinal⟩
    · rw [hg.linkOf_linkedIn hlast] at hsame
      rw [hsame] at hc' hjoined
      obtain ⟨c'', hc'', hfinal⟩ := hjoined.coalesceMBlocks hlinked hC' hmemG rfl hmega
      simp only [hsame]
      exact ⟨c'', freeMegaGroup_behind hplace hc' hc'', hfinal⟩

/-! ## The two looks around -/

/-- `setup_tail` of a small group in hand. -/
theorem setupTail_hand (h : Represents H C before c s) (hplaced : Placed H.toBlockSizes s T)
    (hC : C ⊆ held .live T) (hg : g ∈ T) (hhand : g.label = .hand)
    (hsmall : Small H.toBlockSizes g) :
    Represents H C before (c.setupTail (H.bdescrAt g.start)) (s.setupTail g.start) := by
  have hpos := hplaced.tiles.pos g hg
  have hlast := Tile.has_last hpos
  have htail : g.start + (s.bdescr g.start).blocks - 1 = g.stop - 1 := by
    rw [hplaced.small_blocks hg hsmall]
    rfl
  refine h.setupTail ?_ ?_ ?_ ?_
  · rw [hplaced.small_blocks hg hsmall]
    exact hpos
  · rw [hplaced.small_blocks hg hsmall]
    exact hsmall.within
  · rw [htail]
    exact hplaced.not_listed hg (by rw [hhand]; decide) hlast
  · rw [htail]
    exact hplaced.not_kept hC hg (by rw [hhand]; decide) hlast

/-- The end of a group and the last descriptor of its megablock. -/
theorem next_le_lastBdescr (p n : Nat) :
    H.bdescrAt p + n ≤ H.lastBdescr (H.mblockOfBdescr (H.bdescrAt p)) ↔
      p % H.blocksPerMBlock + n < H.blocksPerMBlock := by
  have hpos := H.perMBlock_pos
  rw [H.mblockOfBdescr_bdescrAt, H.lastBdescr_eq]
  unfold BlockSizes.bdescrAt
  omega

/-- A free group behind `p` is absorbed. -/
theorem coalesceForwards_absorb {c₁ : BlockAlloc} {p next : Nat} (hnext : p + c.blocks p = next)
    (hne : next ≠ p) (hin : next ≤ H.lastBdescr (H.mblockOfBdescr p))
    (hfree : (c.bdescr next).free = .minusOne)
    (hremove : (c.setBlocks p (c.blocks p + c.blocks next)).dblLinkRemove H next
      (log2 (c.blocks next)) = .ok c₁) :
    c.coalesceForwards H p =
      if c₁.blocks p = H.blocksPerMBlock then (c₁.freeMegaGroup H p).map fun s => (s, none)
      else .ok (c₁.setupTail p, some p) := by
  have hsame : (c.setBlocks p (c.blocks p + c.blocks next)).blocks next = c.blocks next :=
    congrArg (fun d : BDescr => d.blocks.toNat) (c.setDescr_ne _ hne)
  simp only [BlockAlloc.coalesceForwards, hnext]
  rw [if_pos ⟨hin, hfree⟩, hsame, hremove]
  show (if c₁.blocks p = _ then _ else _) = _
  cases c₁.freeMegaGroup H p <;> rfl

/-- The code counts its way to the group behind. -/
theorem next_eq (h : Represents H C before c s) (hblocks : (s.bdescr g.start).blocks = g.size)
    (hin : g.start % H.blocksPerMBlock + g.size < H.blocksPerMBlock) :
    H.bdescrAt g.start + c.blocks (H.bdescrAt g.start) = H.bdescrAt g.stop := by
  rw [h.blocks_eq, hblocks]
  exact (H.bdescrAt_add hin).symm

/-- Nothing behind the group can be absorbed. -/
theorem coalesceForwards_kept (h : Represents H C before c s)
    (hblocks : (s.bdescr g.start).blocks = g.size)
    (hcond : ¬ (g.stop ≤ BlockModel.lastOf H.toBlockSizes
      (BlockModel.mblockOf H.toBlockSizes g.start) ∧ (s.bdescr g.stop).free = .minusOne)) :
    c.coalesceForwards H (H.bdescrAt g.start) = .ok (c, some (H.bdescrAt g.start)) := by
  have hcblocks : c.blocks (H.bdescrAt g.start) = g.size := (h.blocks_eq _).trans hblocks
  simp only [BlockAlloc.coalesceForwards, hcblocks]
  rw [if_neg]
  · rfl
  · rintro ⟨hle, hfree⟩
    have hin := (next_le_lastBdescr _ _).mp hle
    rw [← H.bdescrAt_add hin, h.free_eq] at hfree
    exact hcond ⟨(Group.stop_le_iff _ g).mpr hin, hfree⟩

/-- The group behind is free: the code unlinks it and looks at the sum. -/
theorem coalesceForwards_next (h : Represents H C before c s) {c₁ : BlockAlloc}
    (hpos : 0 < g.size) (hblocks : (s.bdescr g.start).blocks = g.size)
    (hublocks : (s.bdescr u.start).blocks = u.size) (hustart : u.start = g.stop)
    (hin : g.start % H.blocksPerMBlock + g.size < H.blocksPerMBlock)
    (hfree : (s.bdescr g.stop).free = .minusOne)
    (hremove : (c.setBlocks (H.bdescrAt g.start) (g.size + u.size)).dblLinkRemove H
      (H.bdescrAt u.start) (log2 u.size) = .ok c₁)
    (hsum : c₁.blocks (H.bdescrAt g.start) = g.size + u.size) :
    c.coalesceForwards H (H.bdescrAt g.start) =
      if g.size + u.size = H.blocksPerMBlock then
        (c₁.freeMegaGroup H (H.bdescrAt g.start)).map fun s => (s, none)
      else .ok (c₁.setupTail (H.bdescrAt g.start), some (H.bdescrAt g.start)) := by
  have hcblocks : c.blocks (H.bdescrAt g.start) = g.size := (h.blocks_eq _).trans hblocks
  have hnext := h.next_eq hblocks hin
  rw [← hustart] at hnext
  rw [← hsum]
  refine coalesceForwards_absorb hnext (fun heq => ?_) ?_ ?_ ?_
  · have hstart := H.bdescrAt_inj heq
    rw [hustart] at hstart
    unfold Tile.stop at hstart
    omega
  · rw [← hnext, hcblocks]
    exact (next_le_lastBdescr _ _).mpr hin
  · rw [h.free_eq, hustart]
    exact hfree
  · rw [hcblocks, h.blocks_eq, hublocks]
    exact hremove

/-- Two small groups together have few blocks. -/
theorem small_sum_lt (hg : Small H.toBlockSizes g) (hu : Small H.toBlockSizes u) :
    g.size + u.size < 2 ^ 32 := by
  have hper := H.perMBlock_lt
  have hglt := hg.lt
  have hult := hu.lt
  unfold maxFreeList at hper
  omega

/-- What `freeGroup` does with the group behind. -/
theorem coalesceForwards (h : Represents H C before c s) (hg : InHand H.toBlockSizes s T g)
    (hC : C ⊆ held .live T) (hsmall : Small H.toBlockSizes g)
    (hmark : (s.bdescr g.start).free = .minusOne) {r : Option Nat}
    (hrun : s.coalesceForwards H.toBlockSizes g.start = .ok (s', r)) :
    ∃ c', c.coalesceForwards H (H.bdescrAt g.start) = .ok (c', r.map H.bdescrAt) ∧
      Represents H C before c' s' := by
  have hblocks := hg.placed.small_blocks hg.mem hsmall
  have hpos := hg.placed.tiles.pos g hg.mem
  by_cases hcond : g.stop ≤ BlockModel.lastOf H.toBlockSizes
      (BlockModel.mblockOf H.toBlockSizes g.start) ∧ (s.bdescr g.stop).free = .minusOne
  · have hin := (Group.stop_le_iff _ g).mp hcond.1
    obtain ⟨u, hu, hustart, husmall, huin⟩ := hg.placed.next_small hg.mem hin
    have hufree := (hg.placed.mark_iff hu (hg.next_not_hand hu hustart)).mp (hustart ▸ hcond.2)
    have hublocks := hg.placed.small_blocks hu husmall
    obtain ⟨s₁, hremove, hbdescr, hhand, hreaches, -⟩ :=
      absorb_spec (x := g) (y := u.to .hand) hg hu hufree (.inl ⟨rfl, rfl⟩) hsmall husmall hustart
        huin
    have hmodel := coalesceForwards_absorbs hg hsmall hu husmall hufree hustart hin hremove
    obtain ⟨⟨hln, hmem⟩, rfl⟩ := dblLinkRemove_eq hremove
    -- the code counts the blocks first and unlinks then
    have h₁ := h.setBlocks (n := g.size + u.size) (Nat.add_pos_left hpos _)
      (small_sum_lt hsmall husmall) (hg.loose hC).notKept
    have htidy := (hg.placed.tidy hC).setBlocks (p := g.start) (Nat.add_pos_left hpos u.size)
    obtain ⟨c₁, hc₁, h₂⟩ := h₁.dblLinkRemove htidy hln hmem
    have h₂ : Represents H C before c₁ (({ s with
      freeList := Function.update s.freeList (log2 u.size)
        ((s.freeList (log2 u.size)).erase u.start) } : BlockModel).setBlocks g.start
          (g.size + u.size)) := h₂
    have hC' : C ⊆ held .live (absorbed T u g (u.to .hand)) := by
      rw [hreaches.evolves.lives]
      exact hC
    have hjoined : c₁.blocks (H.bdescrAt g.start) = g.size + u.size := by
      rw [h₂.blocks_eq, BlockModel.setBlocks, setDescr_self]
    have hcode := h.coalesceForwards_next hpos hblocks hublocks hustart hin hcond.2 hc₁ hjoined
    by_cases hfull : g.size + u.size = H.blocksPerMBlock
    · rw [hmodel, if_pos hfull] at hrun
      cases hrun
      obtain ⟨c', hc', hfreed⟩ := h₂.freeMegaGroup hhand hC' (Nat.le_of_eq hfull.symm) (by
        show ((BlockModel.setBlocks _ g.start _).bdescr g.start).free = _
        rw [BlockModel.setBlocks, setDescr_self]
        exact hmark)
      have hc' : c₁.freeMegaGroup H (H.bdescrAt g.start) = .ok c' := hc'
      refine ⟨c', ?_, hfreed⟩
      rw [hcode, if_pos hfull, hc']
      rfl
    · rw [hmodel, if_neg hfull] at hrun
      cases hrun
      have hjsmall := hsmall.join (husmall.to .hand) hustart huin hfull
      have htail := h₂.setupTail_hand hhand.placed hC' hhand.mem rfl hjsmall
      refine ⟨c₁.setupTail (H.bdescrAt g.start), ?_, htail⟩
      rw [hcode, if_neg hfull]
      rfl
  · rw [coalesceForwards_stays hg hsmall hcond] at hrun
    cases hrun
    exact ⟨c, h.coalesceForwards_kept hblocks hcond, h⟩

/-- A free group before `p` absorbs it. -/
theorem coalesceBackwards_absorb {c₁ : BlockAlloc} {p prev : Nat}
    (hfirst : p ≠ H.firstBdescr (H.mblockOfBdescr p)) (hhead : c.findHead (p - 1) = .ok prev)
    (hfree : (c.bdescr prev).free = .minusOne)
    (hremove : c.dblLinkRemove H prev (log2 (c.blocks prev)) = .ok c₁) :
    c.coalesceBackwards H p =
      if (c₁.setBlocks prev (c₁.blocks prev + c₁.blocks p)).blocks prev ≥ H.blocksPerMBlock then
        ((c₁.setBlocks prev (c₁.blocks prev + c₁.blocks p)).freeMegaGroup H prev).map
          fun s => (s, none)
      else .ok (c₁.setBlocks prev (c₁.blocks prev + c₁.blocks p), some prev) := by
  simp only [BlockAlloc.coalesceBackwards]
  rw [if_pos hfirst, hhead]
  show (if (c.bdescr prev).free = .minusOne then _ else _) = _
  rw [if_pos hfree, hremove]
  show (if (c₁.setBlocks prev _).blocks prev ≥ _ then _ else _) = _
  cases (c₁.setBlocks prev (c₁.blocks prev + c₁.blocks p)).freeMegaGroup H prev <;> rfl

theorem first_iff (a : Nat) :
    H.bdescrAt a ≠ H.firstBdescr (H.mblockOfBdescr (H.bdescrAt a)) ↔
      a % H.blocksPerMBlock ≠ 0 := by
  rw [H.mblockOfBdescr_bdescrAt]
  unfold BlockSizes.bdescrAt
  omega

/-- The descriptor before one that does not start its megablock. -/
theorem bdescrAt_sub_one {a : Nat} (h : a % H.blocksPerMBlock ≠ 0) :
    H.bdescrAt a - 1 = H.bdescrAt (a - 1) := by
  have hmod := Nat.mod_lt a H.perMBlock_pos
  have hle := Nat.mod_le a H.blocksPerMBlock
  have hpred : (a - 1) % H.blocksPerMBlock + 1 = a % H.blocksPerMBlock := by
    have hsplit := Nat.div_add_mod' a H.blocksPerMBlock
    have heq : a - 1 = H.blocksPerMBlock * (a / H.blocksPerMBlock) +
        (a % H.blocksPerMBlock - 1) := by
      rw [Nat.mul_comm]
      omega
    rw [heq, Nat.mul_add_mod, Nat.mod_eq_of_lt (by omega)]
    omega
  have hadd := H.bdescrAt_add (a := a - 1) (i := 1) (by omega)
  rw [Nat.sub_add_cancel (by omega)] at hadd
  omega

/-- The code finds the head of the group before. -/
theorem findHead_prev (h : Represents H C before c s) (hg : InHand H.toBlockSizes s T g)
    (hin : g.start % H.blocksPerMBlock ≠ 0) (hu : u ∈ T) (husmall : Small H.toBlockSizes u)
    (hustop : u.stop = g.start) :
    c.findHead (H.bdescrAt g.start - 1) = .ok (H.bdescrAt u.start) := by
  rw [bdescrAt_sub_one hin]
  exact h.findHead (hg.findHead hu husmall hustop)

/-- The group before is not free. -/
theorem coalesceBackwards_kept {p prev : Nat} (hfirst : p ≠ H.firstBdescr (H.mblockOfBdescr p))
    (hhead : c.findHead (p - 1) = .ok prev) (hfree : (c.bdescr prev).free ≠ .minusOne) :
    c.coalesceBackwards H p = .ok (c, some p) := by
  simp only [BlockAlloc.coalesceBackwards]
  rw [if_pos hfirst, hhead]
  show (if (c.bdescr prev).free = .minusOne then _ else _) = _
  rw [if_neg hfree]
  rfl

/-- What `freeGroup` does with a free group before. -/
theorem coalesceBackwards_prev (h : Represents H C before c s) (hg : InHand H.toBlockSizes s T g)
    (hC : C ⊆ held .live T) (hsmall : Small H.toBlockSizes g)
    (hin : g.start % H.blocksPerMBlock ≠ 0) (hu : u ∈ T) (husmall : Small H.toBlockSizes u)
    (hustop : u.stop = g.start) (hufree : u.label = .free) {r : Option Nat}
    (hrun : s.coalesceBackwards H.toBlockSizes g.start = .ok (s', r)) :
    ∃ c', c.coalesceBackwards H (H.bdescrAt g.start) = .ok (c', r.map H.bdescrAt) ∧
      Represents H C before c' s' := by
  have hublocks := hg.placed.small_blocks hu husmall
  have hmark := (hg.placed.mark_iff hu (hg.prev_not_hand hu hustop)).mpr hufree
  obtain ⟨s₁, hremove, hbdescr, hhand, hreaches, -⟩ :=
    absorb_spec (x := u.to .hand) (y := g) hg hu hufree (.inr ⟨rfl, rfl⟩) hsmall husmall
      hustop.symm hin
  have hmodel := coalesceBackwards_absorbs hg hsmall hin hu husmall hufree hustop hremove hbdescr
  obtain ⟨⟨hln, hmem⟩, rfl⟩ := dblLinkRemove_eq hremove
  have htidy := hg.placed.tidy hC
  obtain ⟨c₁, hc₁, h₁⟩ := h.dblLinkRemove htidy hln hmem
  have hC' : C ⊆ held .live (absorbed T u (u.to .hand) g) := by
    rw [hreaches.evolves.lives]
    exact hC
  have hcu : c₁.blocks (H.bdescrAt u.start) = u.size := (h₁.blocks_eq _).trans hublocks
  have hcg : c₁.blocks (H.bdescrAt g.start) = g.size :=
    (h₁.blocks_eq _).trans (hg.placed.small_blocks hg.mem hsmall)
  have h₂ := h₁.setBlocks (p := u.start) (Nat.add_pos_left (hg.placed.tiles.pos u hu) g.size)
    (small_sum_lt husmall hsmall) (htidy.notKept _ (.inl ⟨_, hmem⟩))
  have hjoined : (c₁.setBlocks (H.bdescrAt u.start) (u.size + g.size)).blocks
      (H.bdescrAt u.start) = u.size + g.size := by
    rw [h₂.blocks_eq, BlockModel.setBlocks, setDescr_self]
  have hcode := coalesceBackwards_absorb ((first_iff _).mpr hin)
    (h.findHead_prev hg hin hu husmall hustop) (by rw [h.free_eq]; exact hmark) (by
      rw [h.blocks_eq, hublocks]
      exact hc₁)
  rw [hcu, hcg, hjoined] at hcode
  by_cases hfull : u.size + g.size ≥ H.blocksPerMBlock
  · rw [hmodel, if_pos hfull] at hrun
    cases hrun
    obtain ⟨c', hc', hfreed⟩ := h₂.freeMegaGroup hhand hC' hfull (by
      show ((BlockModel.setBlocks _ u.start _).bdescr u.start).free = _
      rw [BlockModel.setBlocks, setDescr_self]
      exact hmark)
    have hc' : BlockAlloc.freeMegaGroup H _ (H.bdescrAt u.start) = .ok c' := hc'
    refine ⟨c', ?_, hfreed⟩
    rw [hcode, if_pos hfull, hc']
    rfl
  · rw [hmodel, if_neg hfull] at hrun
    cases hrun
    refine ⟨_, ?_, h₂⟩
    rw [hcode, if_neg hfull]
    rfl

/-- What `freeGroup` does with the group before. -/
theorem coalesceBackwards (h : Represents H C before c s) (hg : InHand H.toBlockSizes s T g)
    (hC : C ⊆ held .live T) (hsmall : Small H.toBlockSizes g) {r : Option Nat}
    (hrun : s.coalesceBackwards H.toBlockSizes g.start = .ok (s', r)) :
    ∃ c', c.coalesceBackwards H (H.bdescrAt g.start) = .ok (c', r.map H.bdescrAt) ∧
      Represents H C before c' s' := by
  by_cases hin : g.start % H.blocksPerMBlock = 0
  · rw [coalesceBackwards_first hin] at hrun
    cases hrun
    refine ⟨c, ?_, h⟩
    simp only [BlockAlloc.coalesceBackwards]
    rw [if_neg fun hne => (first_iff _).mp hne hin]
    rfl
  obtain ⟨u, hu, hustop, husmall⟩ := hg.placed.prev_small hg.mem hin
  by_cases hufree : u.label = .free
  · exact h.coalesceBackwards_prev hg hC hsmall hin hu husmall hustop hufree hrun
  · rw [coalesceBackwards_stays hg hin hu husmall hufree hustop] at hrun
    cases hrun
    have hmark := fun hmark =>
      hufree ((hg.placed.mark_iff hu (hg.prev_not_hand hu hustop)).mp hmark)
    refine ⟨c, ?_, h⟩
    exact coalesceBackwards_kept ((first_iff _).mpr hin)
      (h.findHead_prev hg hin hu husmall hustop) (by rw [h.free_eq]; exact hmark)

/-! ## `freeGroup` -/

/-- A group with no free neighbours goes on its free list. -/
theorem freeListInsert (h : Represents H C before c s) (hg : InHand H.toBlockSizes s T g)
    (hC : C ⊆ held .live T) (hsmall : Small H.toBlockSizes g)
    (hrun : (s.setupTail g.start).freeListInsert H.toBlockSizes g.start = .ok s') :
    ∃ c', (c.setupTail (H.bdescrAt g.start)).freeListInsert H (H.bdescrAt g.start) = .ok c' ∧
      Represents H C before c' s' := by
  have hpos := hg.placed.tiles.pos g hg.mem
  obtain ⟨hplaced, -⟩ := setupTail_spec hg.placed hg.mem hg.label hsmall.lt
  have h₁ := h.setupTail_hand hg.placed hC hg.mem hg.label hsmall
  have hblocks := hplaced.small_blocks hg.mem hsmall
  have hcblocks : (c.setupTail (H.bdescrAt g.start)).blocks (H.bdescrAt g.start) = g.size :=
    (h₁.blocks_eq _).trans hblocks
  have hlog := log2_spec hpos (Nat.lt_trans hsmall.lt H.perMBlock_lt)
  have hassert : ∀ {text}, assert (decide (g.size < H.blocksPerMBlock)) text = .ok () := by
    intro text
    exact if_pos (decide_eq_true hsmall.lt)
  obtain ⟨hhead, hkept, hlisted⟩ := hplaced.loose hC hg.mem hg.label
  obtain ⟨c', hc', hlinked⟩ := h₁.dblLinkOnto (hplaced.tidy hC) hlog.1 hlisted hhead hkept
  rw [BlockModel.freeListInsert, hblocks, hassert] at hrun
  have hrun : (if log2 g.size < maxFreeList then _ else _) = Except.ok s' := hrun
  rw [if_pos hlog.1] at hrun
  cases hrun
  refine ⟨c', ?_, hlinked⟩
  rw [BlockAlloc.freeListInsert, hcblocks, hassert]
  exact hc'

/-- `freeGroup` of a small group whose checks pass. -/
theorem freeGroup_small {p : Nat} (hmark : (c.bdescr p).free ≠ .minusOne) (hpos : 0 < c.blocks p)
    (hlt : c.blocks p < H.blocksPerMBlock) (hcount : c.blocks p ≤ c.nAllocBlocks.toNat) :
    c.freeGroup H p = (do
      match ← BlockAlloc.coalesceForwards H
        { c.setDescr p fun d => { d with free := .minusOne } with
          nAllocBlocks := c.nAllocBlocks - (c.bdescr p).blocks.toUInt64 } p with
      | (c, none) => return c
      | (c, some p) =>
        match ← c.coalesceBackwards H p with
        | (c, none) => return c
        | (c, some p) => (c.setupTail p).freeListInsert H p) := by
  have hsame : (c.setDescr p fun d => { d with free := .minusOne }).bdescr p =
      { c.bdescr p with free := .minusOne } := c.setDescr_same p _
  have hblocks : (c.setDescr p fun d => { d with free := .minusOne }).blocks p = c.blocks p := by
    rw [BlockAlloc.blocks, hsame]
    rfl
  have hmarked : assert (decide ((c.bdescr p).free ≠ .minusOne)) "p->free != (P_)-1" = .ok () :=
    if_pos (decide_eq_true hmark)
  have henough : assert (decide (c.nAllocBlocks ≥ (c.bdescr p).blocks.toUInt64))
      "n_alloc_blocks >= p->blocks" = .ok () := by
    refine if_pos (decide_eq_true (UInt64.le_iff_toNat_le.mpr ?_))
    rw [UInt32.toNat_toUInt64]
    exact hcount
  unfold BlockAlloc.freeGroup
  rw [hmarked]
  simp only [hblocks, hsame, if_neg (Nat.ne_of_gt hpos), if_neg (Nat.not_le.mpr hlt)]
  show (assert (decide (c.nAllocBlocks ≥ _)) _ >>= _) = _
  rw [henough]
  rfl

/-- `freeGroup` of whole megablocks whose checks pass. -/
theorem freeGroup_mega {p : Nat} {mblocks : UInt32} (hmark : (c.bdescr p).free ≠ .minusOne)
    (hpos : 0 < c.blocks p) (hge : H.blocksPerMBlock ≤ c.blocks p)
    (hmblocks : UInt32.ofNat (H.blocksToMBlocks (c.blocks p)) = mblocks)
    (hwhole : c.blocks p = H.mblockGroupBlocks mblocks.toNat) :
    c.freeGroup H p = BlockAlloc.freeMegaGroup H
      { c.setDescr p fun d => { d with free := .minusOne } with
        nAllocBlocks := c.nAllocBlocks - mblocks.toUInt64 * UInt64.ofNat H.blocksPerMBlock } p := by
  have hblocks : (c.setDescr p fun d => { d with free := .minusOne }).blocks p = c.blocks p := by
    rw [BlockAlloc.blocks, c.setDescr_same]
    rfl
  have hmarked : assert (decide ((c.bdescr p).free ≠ .minusOne)) "p->free != (P_)-1" = .ok () :=
    if_pos (decide_eq_true hmark)
  have hassert : assert (decide (c.blocks p = H.mblockGroupBlocks mblocks.toNat))
      "p->blocks == MBLOCK_GROUP_BLOCKS(mblocks)" = .ok () :=
    if_pos (decide_eq_true hwhole)
  unfold BlockAlloc.freeGroup
  rw [hmarked]
  simp only [hblocks, hmblocks, if_neg (Nat.ne_of_gt hpos), if_pos (show c.blocks p ≥ _ from hge)]
  show (assert (decide (c.blocks p = H.mblockGroupBlocks mblocks.toNat)) _ >>= _) = _
  rw [hassert]
  rfl

/-- A group that is given back is marked and no longer counted. -/
theorem markFreed (h : Represents H C before c s) (hkept : ∀ u ∈ C, ¬ u.Has g.start) {n : UInt64}
    {k : Nat} (hn : n.toNat = k) (hle : k ≤ s.nAllocBlocks) :
    Represents H C before
      { c.setDescr (H.bdescrAt g.start) fun d => { d with free := .minusOne } with
        nAllocBlocks := c.nAllocBlocks - n }
      { s.setDescr g.start fun d => { d with free := .minusOne } with
        nAllocBlocks := s.nAllocBlocks - k } :=
  (h.mark hkept).setAlloc (toNat_sub_of_le_size h.nAlloc hn hle)

/-- A small group in hand is joined with its free neighbours and given back. -/
theorem coalesceInsert (h : Represents H C before c s) (hg : InHand H.toBlockSizes s T g)
    (hC : C ⊆ held .live T) (hsmall : Small H.toBlockSizes g)
    (hmark : (s.bdescr g.start).free = .minusOne)
    (hrun : (do
      match ← s.coalesceForwards H.toBlockSizes g.start with
      | (s, none) => return s
      | (s, some p) =>
        match ← s.coalesceBackwards H.toBlockSizes p with
        | (s, none) => return s
        | (s, some p) => (s.setupTail p).freeListInsert H.toBlockSizes p) = .ok s') :
    ∃ c', (do
      match ← c.coalesceForwards H (H.bdescrAt g.start) with
      | (c, none) => return c
      | (c, some p) =>
        match ← c.coalesceBackwards H p with
        | (c, none) => return c
        | (c, some p) => (c.setupTail p).freeListInsert H p) = .ok c' ∧
      Represents H C before c' s' := by
  obtain ⟨⟨s₁, r₁⟩, hforwards, hrun⟩ := bind_eq_ok.mp hrun
  obtain ⟨c₁, hc₁, h₁⟩ := h.coalesceForwards hg hC hsmall hmark hforwards
  rw [hc₁]
  obtain ⟨s₁', T₁, hreaches₁, ⟨hforwards', -⟩ | ⟨g₁, hforwards', hhand₁, hsmall₁, hmark₁,
    hafter⟩⟩ := coalesceForwards_spec hg hsmall hmark
  · rw [hforwards'] at hforwards
    cases hforwards
    cases hrun
    exact ⟨c₁, rfl, h₁⟩
  rw [hforwards'] at hforwards
  cases hforwards
  rw [← hreaches₁.evolves.lives] at hC
  obtain ⟨⟨s₂, r₂⟩, hbackwards, hrun⟩ := bind_eq_ok.mp hrun
  obtain ⟨c₂, hc₂, h₂⟩ := h₁.coalesceBackwards hhand₁ hC hsmall₁ hbackwards
  obtain ⟨s₂', T₂, hreaches₂, ⟨hbackwards', -⟩ | ⟨g₂, hbackwards', hhand₂, hsmall₂, -⟩⟩ :=
    coalesceBackwards_spec hhand₁ hsmall₁ hmark₁ hafter
  · rw [hbackwards'] at hbackwards
    cases hbackwards
    cases hrun
    refine ⟨c₂, ?_, h₂⟩
    show (c₁.coalesceBackwards H (H.bdescrAt g₁.start) >>= _) = _
    rw [hc₂]
    rfl
  rw [hbackwards'] at hbackwards
  cases hbackwards
  rw [← hreaches₂.evolves.lives] at hC
  obtain ⟨c', hc', h₃⟩ := h₂.freeListInsert hhand₂ hC hsmall₂ hrun
  refine ⟨c', ?_, h₃⟩
  show (c₁.coalesceBackwards H (H.bdescrAt g₁.start) >>= _) = _
  rw [hc₂]
  exact hc'

/-- `freeGroup` of whole megablocks that the client holds. -/
theorem freeGroup_ofMega (h : Represents H C before c s) (hsettled : Settled H.toBlockSizes s T)
    (hg : g ∈ T) (hlive : g.label = .live) (hkept : ∀ u ∈ C, ¬ u.Has g.start)
    (hC : C ⊆ held .live (exchange T {g} {g.to .hand})) (hcount : g.size ≤ s.nAllocBlocks)
    (hmega : H.blocksPerMBlock ≤ g.size)
    (hrun : s.freeGroup H.toBlockSizes g.start = .ok s') :
    ∃ c', c.freeGroup H (H.bdescrAt g.start) = .ok c' ∧ Represents H C before c' s' := by
  have hplaced := hsettled.placed
  have hok := hplaced.groups g hg
  have hG := hplaced.mega hg hmega
  have hle := Nat.le_trans (hplaced.mblocks_le h.counted hg) h.bound
  have hcblocks : c.blocks (H.bdescrAt g.start) = blocksOf H.toBlockSizes g.size :=
    (h.blocks_eq _).trans hok.blocks
  have hto : H.blocksToMBlocks (c.blocks (H.bdescrAt g.start)) = g.size / H.blocksPerMBlock := by
    rw [h.blocks_eq]
    exact hplaced.toMBlocks hg hmega
  have hge : H.blocksPerMBlock ≤ blocksOf H.toBlockSizes g.size :=
    Nat.not_lt.mp fun hlt => absurd (blocksOf_lt_iff.mp hlt) (Nat.not_lt.mpr hmega)
  have hsize := H.mblocks_blocks hle
  rw [← hG.size_eq] at hsize
  obtain ⟨hhand, -, -⟩ := mark_spec hsettled hg hlive (s.nAllocBlocks - g.size) rfl
  obtain ⟨c', hc', hfreed⟩ := (h.markFreed hkept hsize hcount).freeMegaGroup hhand hC hmega
    (congrArg ModelDescr.free (setDescr_self s g.start fun d => { d with free := .minusOne }))
  rw [BlockModel.freeGroup_mega _ (hok.live hlive).1 hok.blocks hge
    (hok.blocks ▸ hplaced.toMBlocks hg hmega) (blocksOf_mega hmega)] at hrun
  cases hrun
  refine ⟨c', ?_, ?_⟩
  · rw [freeGroup_mega (by rw [h.free_eq]; exact (hok.live hlive).1)
      (by rw [hcblocks]; exact Nat.lt_of_lt_of_le H.perMBlock_pos hge)
      (by rw [hcblocks]; exact hge) (by rw [hto]) (by
        rw [hcblocks, H.mblocks_toNat hle]
        exact blocksOf_mega hmega)]
    exact hc'
  · rw [← hG.size_eq]
    exact hfreed

/-- `freeGroup` of a small group that the client holds. -/
theorem freeGroup_ofSmall (h : Represents H C before c s) (hsettled : Settled H.toBlockSizes s T)
    (hg : g ∈ T) (hlive : g.label = .live) (hkept : ∀ u ∈ C, ¬ u.Has g.start)
    (hC : C ⊆ held .live (exchange T {g} {g.to .hand})) (hcount : g.size ≤ s.nAllocBlocks)
    (hsmall : Small H.toBlockSizes g)
    (hrun : s.freeGroup H.toBlockSizes g.start = .ok s') :
    ∃ c', c.freeGroup H (H.bdescrAt g.start) = .ok c' ∧ Represents H C before c' s' := by
  have hplaced := hsettled.placed
  have hmark := ((hplaced.groups g hg).live hlive).1
  have hpos := hplaced.tiles.pos g hg
  have hblocks := hplaced.small_blocks hg hsmall
  have hcblocks : c.blocks (H.bdescrAt g.start) = g.size := (h.blocks_eq _).trans hblocks
  obtain ⟨hhand, -, -⟩ := mark_spec hsettled hg hlive (s.nAllocBlocks - g.size) rfl
  have h₁ := h.markFreed (g := g) hkept (n := (c.bdescr (H.bdescrAt g.start)).blocks.toUInt64)
    (by
      rw [UInt32.toNat_toUInt64]
      exact hcblocks) hcount
  have hcode := freeGroup_small (H := H) (by rw [h.free_eq]; exact hmark)
    (by rw [hcblocks]; exact hpos) (by rw [hcblocks]; exact hsmall.lt)
    (by rw [hcblocks, h.nAlloc]; exact hcount)
  rw [BlockModel.freeGroup_eq _ hmark hblocks hpos hsmall.lt hcount rfl] at hrun
  obtain ⟨c', hc', hfreed⟩ := h₁.coalesceInsert hhand hC (hsmall.to .hand)
    (congrArg ModelDescr.free (setDescr_self s g.start fun d => { d with free := .minusOne })) hrun
  exact ⟨c', hcode.trans hc', hfreed⟩

/-- `freeGroup` of a group that the client holds. -/
theorem freeGroup (h : Represents H C before c s) (hsettled : Settled H.toBlockSizes s T)
    (hg : g ∈ T) (hlive : g.label = .live) (hC : C ⊆ (held .live T).erase g)
    (hcount : g.size ≤ s.nAllocBlocks) (hrun : s.freeGroup H.toBlockSizes g.start = .ok s') :
    ∃ c', c.freeGroup H (H.bdescrAt g.start) = .ok c' ∧ Represents H C before c' s' := by
  have hplaced := hsettled.placed
  have hkept : ∀ u ∈ C, ¬ u.Has g.start := by
    intro u hu hua
    obtain ⟨hne, hu⟩ := Finset.mem_erase.mp (hC hu)
    exact hne (hplaced.tiles.apart u (mem_held.mp hu).1 g hg _ hua
      (Tile.has_start (hplaced.tiles.pos g hg)))
  obtain ⟨-, hlives, -⟩ := mark_spec hsettled hg hlive (s.nAllocBlocks - g.size) rfl
  rw [← hlives] at hC
  by_cases hmega : H.blocksPerMBlock ≤ g.size
  · exact h.freeGroup_ofMega hsettled hg hlive hkept hC hcount hmega hrun
  · exact h.freeGroup_ofSmall hsettled hg hlive hkept hC hcount
      ((hplaced.groups g hg).small_or.1 (Nat.not_le.mp hmega)) hrun

end Represents

end HosBoot.Rts
