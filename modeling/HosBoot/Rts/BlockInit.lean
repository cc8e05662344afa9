/-
  Rts/BlockInit.lean --- handing out groups: `initGroup`, splits and megablock groups.

  `initGroup` makes a group in hand a live one.  A group in hand comes off a free list, off
  the end of a larger free group, or from the operating system.
-/
import HosBoot.Rts.BlockFree

set_option autoImplicit false

namespace HosBoot.Rts

open HosBoot.Foundation

variable {L : BlockSizes} {s s' : BlockModel} {T T' : Finset Group} {g t u : Group}

/-! ## `initGroup` -/

/-- The descriptors of a group's first megablock follow its head. -/
theorem bdescrAt_inside (hshape : Small L g ∨ Mega L g) {a : Nat} (ha : g.Has a)
    (hfirst : a / L.blocksPerMBlock = g.start / L.blocksPerMBlock) :
    L.bdescrAt a = L.bdescrAt g.start + (a - g.start) ∧ a - g.start < blocksOf L g.size := by
  obtain ⟨hle, hlt⟩ := ha
  have hmod := Nat.mod_lt a L.perMBlock_pos
  have hsplit := Nat.div_add_mod' a L.blocksPerMBlock
  have hsplit' := Nat.div_add_mod' g.start L.blocksPerMBlock
  rw [hfirst] at hsplit
  constructor
  · have hadd := L.bdescrAt_add (a := g.start) (i := a - g.start) (by omega)
    rwa [Nat.add_sub_cancel' hle] at hadd
  · rcases hshape with hsmall | hmega
    · rw [blocksOf_small hsmall.lt]
      unfold Tile.stop at hlt
      omega
    · have hge : L.blocksPerMBlock ≤ blocksOf L g.size := by
        rw [blocksOf_mega hmega.ge]
        exact perMBlock_le_group hmega.mblocks_pos
      omega

/-- The loop of `initGroup` does not leave the group. -/
theorem has_of_initRest (hshape : Small L g ∨ Mega L g) {a : Nat}
    (hlow : L.bdescrAt g.start < L.bdescrAt a)
    (hhigh : L.bdescrAt a < L.bdescrAt g.start + blocksOf L g.size) : g.Has a := by
  obtain ⟨i, hi⟩ : ∃ i, L.bdescrAt a = L.bdescrAt g.start + i :=
    ⟨_, (Nat.add_sub_cancel' (Nat.le_of_lt hlow)).symm⟩
  have hilt : i < blocksOf L g.size := by omega
  rcases hshape with hsmall | hmega
  · rw [blocksOf_small hsmall.lt] at hilt
    have hwithin := hsmall.within
    have hadd := L.bdescrAt_add (a := g.start) (i := i) (by omega)
    have ha : a = g.start + i := L.bdescrAt_inj (hi.trans hadd.symm)
    rw [ha]
    exact ⟨Nat.le_add_right _ _, Nat.add_lt_add_left hilt _⟩
  · rw [blocksOf_mega hmega.ge] at hilt
    have hstart : L.bdescrAt g.start = L.firstBdescr (g.start / L.blocksPerMBlock) := by
      rw [BlockSizes.bdescrAt, hmega.first, Nat.add_zero]
    have hinside := L.group_inside (g.start / L.blocksPerMBlock) _ i hmega.mblocks_pos hilt
    rw [← hstart, ← hi, L.mblockOfBdescr_bdescrAt] at hinside
    exact (hmega.has_iff a).mpr hinside

theorem initGroup_head (s : BlockModel) (head : Nat) :
    (s.initGroup L head).bdescr head =
      { s.bdescr head with free := .within (s.bdescr head).start, link := none } := by
  rw [BlockModel.initGroup, BlockModel.initRest]
  simp only [Nat.lt_irrefl, false_and, if_false]
  exact setDescr_self _ _ _

/-- `initGroup` sets the descriptors of the group's first megablock. -/
theorem initGroup_rest (hshape : Small L g ∨ Mega L g)
    (hblocks : (s.bdescr g.start).blocks = blocksOf L g.size) {a : Nat} (hne : a ≠ g.start)
    (ha : g.Has a) (hfirst : a / L.blocksPerMBlock = g.start / L.blocksPerMBlock) :
    (s.initGroup L g.start).bdescr a =
      { s.bdescr a with free := .zero, blocks := 0, link := some g.start } := by
  have hhead : ((s.setDescr g.start fun d =>
      { d with free := .within d.start, link := none }).bdescr g.start).blocks =
        blocksOf L g.size := by
    rw [setDescr_self]
    exact hblocks
  obtain ⟨haddr, hlt⟩ := bdescrAt_inside hshape ha hfirst
  have hle := ha.1
  rw [BlockModel.initGroup, BlockModel.initRest]
  simp only [hhead, setDescr_other _ hne]
  rw [if_pos (by omega)]

/-- `initGroup` leaves other groups alone. -/
theorem initGroup_other (hshape : Small L g ∨ Mega L g) (hpos : 0 < g.size)
    (hblocks : (s.bdescr g.start).blocks = blocksOf L g.size) (a : Nat) (ha : ¬ g.Has a) :
    (s.initGroup L g.start).bdescr a = s.bdescr a := by
  have hne : a ≠ g.start := by
    rintro rfl
    exact ha (Tile.has_start hpos)
  have hhead : ((s.setDescr g.start fun d =>
      { d with free := .within d.start, link := none }).bdescr g.start).blocks =
        blocksOf L g.size := by
    rw [setDescr_self]
    exact hblocks
  rw [BlockModel.initGroup, BlockModel.initRest]
  simp only [hhead, setDescr_other _ hne]
  exact if_neg fun hrest => ha (has_of_initRest hshape hrest.1 hrest.2)

/-- After `initGroup` the descriptors are those of a live group. -/
theorem initGroup_ok (hshape : Small L g ∨ Mega L g)
    (hblocks : (s.bdescr g.start).blocks = blocksOf L g.size)
    (hstarts : ∀ a, g.Has a → a / L.blocksPerMBlock = g.start / L.blocksPerMBlock →
      (s.bdescr a).start = L.blockAt a) (label : Holder) (hlabel : label ≠ .free) :
    GroupOk L (s.initGroup L g.start).bdescr (g.to label) := by
  refine ⟨?_, ?_, fun a ha hfirst => ?_, fun _ => ⟨?_, fun a ha hne hfirst => ?_⟩,
    fun hfree => absurd hfree hlabel⟩
  · rcases hshape with hsmall | hmega
    · exact .inl ⟨hsmall.lt, hsmall.within⟩
    · exact .inr ⟨hmega.first, hmega.ge, hmega.whole⟩
  · rw [Group.to_start, initGroup_head]
    exact hblocks
  · have hstart := hstarts a ha hfirst
    by_cases hhead : a = g.start
    · rw [hhead] at hstart ⊢
      rw [initGroup_head]
      exact hstart
    · rw [initGroup_rest hshape hblocks hhead ha hfirst]
      exact hstart
  · rw [Group.to_start, initGroup_head]
    intro hfree
    cases hfree
  · rw [Group.to_start] at hne hfirst
    rw [initGroup_rest hshape hblocks hne ha hfirst]
    exact ⟨rfl, rfl⟩

/-- The `free` fields of a group after `initGroup`. -/
structure SetUp (L : BlockSizes) (bdescr : Nat → ModelDescr) (g : Group) : Prop where
  head : (bdescr g.start).free = .within (L.blockAt g.start)
  behind : ∀ a, g.Has a → a ≠ g.start → a / L.blocksPerMBlock = g.start / L.blocksPerMBlock →
    (bdescr a).free = .zero

theorem SetUp.congr {bdescr bdescr' : Nat → ModelDescr} (h : SetUp L bdescr g) (hpos : 0 < g.size)
    (heq : ∀ a, g.Has a → bdescr' a = bdescr a) : SetUp L bdescr' g := by
  refine ⟨?_, fun a ha hne hfirst => ?_⟩
  · rw [heq _ (Tile.has_start hpos)]
    exact h.head
  · rw [heq a ha]
    exact h.behind a ha hne hfirst

theorem initGroup_setUp (hshape : Small L g ∨ Mega L g)
    (hblocks : (s.bdescr g.start).blocks = blocksOf L g.size)
    (hstart : (s.bdescr g.start).start = L.blockAt g.start) (label : Holder) :
    SetUp L (s.initGroup L g.start).bdescr (g.to label) := by
  refine ⟨?_, fun a ha hne hfirst => ?_⟩
  · rw [Group.to_start, initGroup_head, hstart]
  · rw [initGroup_rest hshape hblocks hne ha hfirst]

theorem initGroup_touches (hg : g ∈ T) (h : Placed L s T) :
    Touches L s (s.initGroup L g.start) {g} := by
  have hok := h.groups g hg
  exact ⟨fun a _ hnone => initGroup_other hok.shape (h.tiles.pos g hg) hok.blocks a
    (hnone g (Finset.mem_singleton_self g)), rfl, rfl⟩

/-- What a client sees of an allocation: a new group beside those it has. -/
structure Allocs (L : BlockSizes) (s : BlockModel) (T : Finset Group) (g : Group)
    (s' : BlockModel) (T' : Finset Group) : Prop where
  settled : Settled L s' T'
  lives : held .live T' = insert g (held .live T)
  new : ∀ u ∈ held .live T, ∀ a, g.Has a → ¬ u.Has a
  frame : ∀ u ∈ held .live T, ∀ a, u.Has a → s'.bdescr a = s.bdescr a
  setUp : SetUp L s'.bdescr g

/-- `initGroup` hands the group out. -/
theorem handOut_spec (h : InHand L s T g) :
    Allocs L s T (g.to .live) (s.initGroup L g.start) (exchange T {g} {g.to .live}) := by
  have hplaced := h.placed
  have hok := hplaced.groups g h.mem
  have hpos := hplaced.tiles.pos g h.mem
  have htouches := initGroup_touches h.mem hplaced
  have hfrees : held .free (exchange T {g} {g.to .live}) = held .free T :=
    held_exchange_other (by simp [h.label]) (by simp)
  have hstart : (s.bdescr g.start).start = L.blockAt g.start :=
    hok.starts _ (Tile.has_start hpos) rfl
  refine ⟨⟨?_, fun u hu hhand => ?_, h.small.mono fun u hu _ => hfrees ▸ hu,
    h.mega.mono fun u hu _ => hfrees ▸ hu⟩,
    held_exchange_insert (Group.to_label g .live) (by simp [h.label]), fun u hu a ha hua => ?_,
    fun u hu a ha => ?_, initGroup_setUp hok.shape hok.blocks hstart .live⟩
  · refine hplaced.relabel h.mem ⟨rfl, rfl⟩ htouches
      (initGroup_ok hok.shape hok.blocks hok.starts .live (by decide)) ?_
    rw [hfrees]
    exact hplaced.lists.congr rfl rfl
  · rcases mem_exchange.mp hu with ⟨huT, hug⟩ | huA
    · exact hug (Finset.mem_singleton.mpr (h.only u huT hhand))
    · rw [Finset.mem_singleton.mp huA] at hhand
      cases hhand
  · obtain ⟨huT, hulive⟩ := mem_held.mp hu
    rw [hplaced.tiles.apart u huT g h.mem a hua ha, h.label] at hulive
    cases hulive
  · obtain ⟨huT, hulive⟩ := mem_held.mp hu
    refine initGroup_other hok.shape hpos hok.blocks a fun hga => ?_
    rw [hplaced.tiles.apart u huT g h.mem a ha hga, h.label] at hulive
    cases hulive

/-! ## Splitting -/

/-- A group gives way to two that lie in its place. -/
theorem Placed.split (h : Placed L s T) (hg : g ∈ T) (ht : 0 < t.size) (hu : 0 < u.size)
    (hstart : t.start = g.start) (hnext : u.start = t.stop) (hstop : u.stop = g.stop)
    (hmblocks : SameMBlocks s s') (htouches : Touches L s s' {g})
    (htok : GroupOk L s'.bdescr t) (huok : GroupOk L s'.bdescr u)
    (hlists : ListsOk L s' (held .free (Foundation.exchange T {g} {t, u}))) :
    Placed L s' (Foundation.exchange T {g} {t, u}) := by
  refine h.rearrange (Finset.singleton_subset_iff.mpr hg) (Tiles.pair ht hu hnext)
    (fun a => ?_) hmblocks htouches (fun x hx => ?_) hlists
  · simp only [Finset.mem_singleton, exists_eq_left]
    unfold Tile.Has
    have htstop : t.start ≤ t.stop := Nat.le_add_right _ _
    have hustop : u.start ≤ u.stop := Nat.le_add_right _ _
    omega
  · rcases Finset.mem_insert.mp hx with rfl | hx
    · exact htok
    · rw [Finset.mem_singleton.mp hx]
      exact huok

end HosBoot.Rts
