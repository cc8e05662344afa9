/-
  Rts/BlockFree.lean --- `freeGroup` keeps the block allocator's invariants.

  A group in hand absorbs its free neighbours of the same megablock, first the one behind
  it, then the one before it.  What is left has no free neighbour there, so it may go on a
  free list; a whole megablock goes to the list of free megablock groups.
-/
import HosBoot.Rts.BlockMega

set_option autoImplicit false

namespace HosBoot.Rts

open HosBoot.Foundation

variable {L : BlockSizes} {s s' s₁ : BlockModel} {T T' : Finset Group} {g u x y : Group}

/-! ## Neighbours -/

/-- The mark of a head tells whether its group is free. -/
theorem Placed.mark_iff (h : Placed L s T) (hu : u ∈ T) (hne : u.label ≠ .hand) :
    (s.bdescr u.start).free = .minusOne ↔ u.label = .free := by
  have hok := h.groups u hu
  cases hlabel : u.label with
  | live => exact ⟨fun hmark => absurd hmark (hok.live hlabel).1, fun hfree => (by cases hfree)⟩
  | free => exact ⟨fun _ => rfl, fun _ => (hok.free hlabel).1⟩
  | hand => exact absurd hlabel hne

/-- Where a group ends, seen from its megablock. -/
theorem Group.stop_eq (L : BlockSizes) (g : Group) :
    g.stop = g.start / L.blocksPerMBlock * L.blocksPerMBlock +
      (g.start % L.blocksPerMBlock + g.size) := by
  rw [← Nat.add_assoc, Nat.div_add_mod']
  rfl

theorem Group.stop_le_iff (L : BlockSizes) (g : Group) :
    g.stop ≤ BlockModel.lastOf L (BlockModel.mblockOf L g.start) ↔
      g.start % L.blocksPerMBlock + g.size < L.blocksPerMBlock := by
  have hpos := L.perMBlock_pos
  rw [Group.stop_eq L]
  unfold BlockModel.lastOf BlockModel.mblockOf
  omega

/-- The block behind a group that ends inside its megablock. -/
theorem Group.stop_mod
    (hin : g.start % L.blocksPerMBlock + g.size < L.blocksPerMBlock) :
    g.stop % L.blocksPerMBlock = g.start % L.blocksPerMBlock + g.size ∧
      g.stop / L.blocksPerMBlock = g.start / L.blocksPerMBlock := by
  rw [Group.stop_eq L, Nat.mul_comm]
  constructor
  · rw [Nat.mul_add_mod, Nat.mod_eq_of_lt hin]
  · rw [Nat.mul_add_div L.perMBlock_pos, Nat.div_eq_of_lt hin, Nat.add_zero]

theorem Small.stop_mod_of_full (h : Small L g)
    (hin : ¬ g.start % L.blocksPerMBlock + g.size < L.blocksPerMBlock) :
    g.stop % L.blocksPerMBlock = 0 := by
  have hfull : g.start % L.blocksPerMBlock + g.size = L.blocksPerMBlock :=
    Nat.le_antisymm h.within (Nat.not_lt.mp hin)
  rw [Group.stop_eq L, hfull, ← Nat.succ_mul, Nat.mul_mod_left]

theorem Small.to (h : Small L g) (label : Holder) : Small L (g.to label) := ⟨h.lt, h.within⟩

/-- Two small groups of one megablock, one behind the other. -/
theorem Small.join_within {x y : Group} (hx : Small L x) (hy : Small L y)
    (hnext : y.start = x.stop) (hin : y.start % L.blocksPerMBlock ≠ 0) :
    x.start % L.blocksPerMBlock + (x.size + y.size) ≤ L.blocksPerMBlock := by
  have hxin : x.start % L.blocksPerMBlock + x.size < L.blocksPerMBlock := by
    by_contra hfull
    exact hin (hnext ▸ hx.stop_mod_of_full hfull)
  have hwithin := hy.within
  rw [hnext, (Group.stop_mod hxin).1] at hwithin
  omega

/-- Joined they are small again, unless they fill the megablock. -/
theorem Small.join {x y : Group} (hx : Small L x) (hy : Small L y) (hnext : y.start = x.stop)
    (hin : y.start % L.blocksPerMBlock ≠ 0) (hsum : x.size + y.size ≠ L.blocksPerMBlock) :
    Small L (x.join y) := by
  have hwithin := hx.join_within hy hnext hin
  refine ⟨?_, hwithin⟩
  show x.size + y.size < L.blocksPerMBlock
  omega

/-- The group behind a group that ends inside its megablock. -/
theorem Placed.next_small (h : Placed L s T) (hg : g ∈ T)
    (hin : g.start % L.blocksPerMBlock + g.size < L.blocksPerMBlock) :
    ∃ u ∈ T, u.start = g.stop ∧ Small L u ∧ u.start % L.blocksPerMBlock ≠ 0 := by
  have hpos := h.tiles.pos g hg
  obtain ⟨hmod, hdiv⟩ := Group.stop_mod hin
  have hstart : Owned L s g.start := (h.tiles.cover _).mpr ⟨g, hg, Tile.has_start hpos⟩
  have howned : Owned L s g.stop := by
    unfold Owned at *
    rw [hdiv]
    exact hstart
  obtain ⟨u, hu, hustart⟩ := h.tiles.next hg howned
  have hne : u.start % L.blocksPerMBlock ≠ 0 := by
    rw [hustart, hmod]
    omega
  refine ⟨u, hu, hustart, ?_, hne⟩
  rcases (h.groups u hu).shape with husmall | humega
  · exact husmall
  · exact absurd humega.first hne

/-- The group before a group that does not start its megablock. -/
theorem Placed.prev_small (h : Placed L s T) (hg : g ∈ T)
    (hin : g.start % L.blocksPerMBlock ≠ 0) : ∃ u ∈ T, u.stop = g.start ∧ Small L u := by
  have hpos := h.tiles.pos g hg
  have hgpos : 0 < g.start := by
    rcases Nat.eq_zero_or_pos g.start with hzero | hpos
    · rw [hzero, Nat.zero_mod] at hin
      exact absurd rfl hin
    · exact hpos
  have hdiv : (g.start - 1) / L.blocksPerMBlock = g.start / L.blocksPerMBlock := by
    have hsplit := Nat.div_add_mod' g.start L.blocksPerMBlock
    have hlt := Nat.mod_lt g.start L.perMBlock_pos
    rw [Nat.div_eq_iff L.perMBlock_pos]
    omega
  have hstart : Owned L s g.start := (h.tiles.cover _).mpr ⟨g, hg, Tile.has_start hpos⟩
  have howned : Owned L s (g.start - 1) := by
    unfold Owned at *
    rw [hdiv]
    exact hstart
  obtain ⟨u, hu, hustop⟩ := h.tiles.prev hg hgpos howned
  refine ⟨u, hu, hustop, ?_⟩
  rcases (h.groups u hu).shape with husmall | humega
  · exact husmall
  · refine absurd ?_ hin
    rw [← hustop, Tile.stop, Nat.add_mod, humega.first, humega.whole, Nat.add_zero, Nat.zero_mod]

/-- `freeGroup` finds the head of the group before from its last descriptor. -/
theorem Placed.findHead (h : Placed L s T) (hu : u ∈ T) (hsmall : Small L u)
    (hne : u.label ≠ .hand) : s.findHead (u.stop - 1) = .ok u.start := by
  have hok := h.groups u hu
  have hpos := h.tiles.pos u hu
  by_cases hone : u.stop - 1 = u.start
  · have hblocks : (s.bdescr u.start).blocks ≠ 0 := by
      rw [hok.blocks]
      exact Nat.ne_of_gt (blocksOf_pos hpos)
    rw [hone, BlockModel.findHead, if_neg hblocks]
  · have hpoints : PointsTo (s.bdescr (u.stop - 1)) u.start := by
      cases hlabel : u.label with
      | live =>
        exact (hok.live hlabel).2 _ (Tile.has_last hpos) hone
          (hsmall.div_eq (Tile.has_last hpos))
      | free => exact ((hok.free hlabel).2 hsmall.lt hone).toPointsTo
      | hand => exact absurd hlabel hne
    rw [BlockModel.findHead, if_pos hpoints.blocks, hpoints.link]

/-- No free group of the same megablock starts where the group ends. -/
def ClearAfter (L : BlockSizes) (T : Finset Group) (g : Group) : Prop :=
  ∀ u ∈ held .free T, u.start = g.stop → u.size < L.blocksPerMBlock →
    u.start % L.blocksPerMBlock = 0

/-- No free group of the same megablock ends where the group starts. -/
def ClearBefore (L : BlockSizes) (T : Finset Group) (g : Group) : Prop :=
  ∀ u ∈ held .free T, u.stop = g.start → u.size < L.blocksPerMBlock →
    g.start % L.blocksPerMBlock = 0

/-! ## Absorbing a neighbour -/

/-- The tiling after a free group has left its list. -/
def taken (T : Finset Group) (u : Group) : Finset Group := exchange T {u} {u.to .hand}

/-- The tiling after the group in hand has absorbed a free one. -/
def absorbed (T : Finset Group) (u x y : Group) : Finset Group :=
  exchange (taken T u) {x, y} {x.join y}

/-- The group in hand and a free neighbour, in either order, become one group in hand. -/
theorem absorb_spec (h : InHand L s T g) (hu : u ∈ T) (hufree : u.label = .free)
    (hxy : (x = g ∧ y = u.to .hand) ∨ (x = u.to .hand ∧ y = g)) (hgsmall : Small L g)
    (husmall : Small L u) (hnext : y.start = x.stop) (hin : y.start % L.blocksPerMBlock ≠ 0) :
    ∃ s₁, s.dblLinkRemove u.start (log2 u.size) = .ok s₁ ∧ s₁.bdescr = s.bdescr ∧
      InHand L (s₁.setBlocks x.start (x.size + y.size)) (absorbed T u x y) (x.join y) ∧
      Reaches s T (s₁.setBlocks x.start (x.size + y.size)) (absorbed T u x y) ∧
      held .free (absorbed T u x y) ⊆ (held .free T).erase u := by
  obtain ⟨s₁, hremove, hbdescr, hplaced, hreaches⟩ :=
    dblLinkRemove_spec h.placed hu hufree husmall.lt
  have hug : u ≠ g := by
    rintro rfl
    rw [h.label] at hufree
    cases hufree
  have hgT : g ∈ taken T u :=
    mem_exchange.mpr (.inl ⟨h.mem, fun hmem => hug (Finset.mem_singleton.mp hmem).symm⟩)
  have huT : u.to .hand ∈ taken T u := mem_exchange.mpr (.inr (Finset.mem_singleton_self _))
  have hpair : x ∈ taken T u ∧ y ∈ taken T u ∧ x.label = .hand ∧ y.label = .hand ∧
      Small L x ∧ Small L y := by
    have huhand := husmall.to .hand
    rcases hxy with ⟨rfl, rfl⟩ | ⟨rfl, rfl⟩
    · exact ⟨hgT, huT, h.label, rfl, hgsmall, huhand⟩
    · exact ⟨huT, hgT, rfl, h.label, huhand, hgsmall⟩
  obtain ⟨hxT, hyT, hxhand, hyhand, hxsmall, hysmall⟩ := hpair
  have hwithin := hxsmall.join_within hysmall hnext hin
  obtain ⟨hmerged, hmergeReaches⟩ := merge_spec hplaced hxT hyT hxhand hyhand hnext hwithin
  -- a free group afterwards was free and is not `u`
  have hfrees : held .free (absorbed T u x y) ⊆ (held .free T).erase u := by
    intro z hz
    obtain ⟨hzT, hzfree⟩ := mem_held.mp hz
    rcases mem_exchange.mp hzT with ⟨hzT, -⟩ | hzA
    · rcases mem_exchange.mp hzT with ⟨hzT, hzu⟩ | hzA
      · exact Finset.mem_erase.mpr ⟨fun heq => hzu (Finset.mem_singleton.mpr heq),
          mem_held.mpr ⟨hzT, hzfree⟩⟩
      · rw [Finset.mem_singleton.mp hzA] at hzfree
        cases hzfree
    · rw [Finset.mem_singleton.mp hzA] at hzfree
      cases hzfree
  have hsub : ∀ z ∈ held .free (absorbed T u x y), z ∈ held .free T := fun z hz =>
    Finset.mem_of_mem_erase (hfrees hz)
  refine ⟨s₁, hremove, hbdescr, ⟨hmerged, mem_exchange.mpr (.inr (Finset.mem_singleton_self _)),
    rfl, fun z hz hzhand => ?_, h.small.mono fun z hz _ => hsub z hz,
    h.mega.mono fun z hz _ => hsub z hz⟩, hreaches.trans hmergeReaches, hfrees⟩
  rcases mem_exchange.mp hz with ⟨hzT, hzxy⟩ | hzA
  · exfalso
    simp only [Finset.mem_insert, Finset.mem_singleton, not_or] at hzxy
    rcases mem_exchange.mp hzT with ⟨hzT, -⟩ | hzA
    · have hzg := h.only z hzT hzhand
      rcases hxy with ⟨rfl, rfl⟩ | ⟨rfl, rfl⟩
      · exact hzxy.1 hzg
      · exact hzxy.2 hzg
    · have hzu := Finset.mem_singleton.mp hzA
      rcases hxy with ⟨rfl, rfl⟩ | ⟨rfl, rfl⟩
      · exact hzxy.2 hzu
      · exact hzxy.1 hzu
  · exact Finset.mem_singleton.mp hzA

/-! ## The two looks around -/

/-- Unlinking a group does not read descriptors. -/
theorem dblLinkRemove_setBlocks (s : BlockModel) (p n bd ln : Nat) :
    (s.setBlocks p n).dblLinkRemove bd ln = (s.dblLinkRemove bd ln).map (·.setBlocks p n) := by
  unfold BlockModel.dblLinkRemove
  show (if ln < maxFreeList ∧ bd ∈ s.freeList ln then _ else _) = _
  split <;> rfl

/-- The number of blocks in the head of a small group. -/
theorem Placed.small_blocks (h : Placed L s T) (hg : g ∈ T) (hsmall : Small L g) :
    (s.bdescr g.start).blocks = g.size := by
  rw [(h.groups g hg).blocks, blocksOf_small hsmall.lt]

/-- The group in hand is no neighbour of itself. -/
theorem InHand.next_not_hand (h : InHand L s T g) (hu : u ∈ T) (hnext : u.start = g.stop) :
    u.label ≠ .hand := by
  intro hhand
  have hpos := h.placed.tiles.pos g h.mem
  rw [h.only u hu hhand] at hnext
  unfold Tile.stop at hnext
  omega

/-- A free group behind the group in hand is absorbed. -/
theorem coalesceForwards_absorbs (h : InHand L s T g) (hsmall : Small L g) (hu : u ∈ T)
    (husmall : Small L u) (hufree : u.label = .free) (hnext : u.start = g.stop)
    (hin : g.start % L.blocksPerMBlock + g.size < L.blocksPerMBlock)
    (hremove : s.dblLinkRemove u.start (log2 u.size) = .ok s₁) :
    s.coalesceForwards L g.start =
      if g.size + u.size = L.blocksPerMBlock
      then .ok ((s₁.setBlocks g.start (g.size + u.size)).freeMegaGroup L g.start, none)
      else .ok ((s₁.setBlocks g.start (g.size + u.size)).setupTail g.start, some g.start) := by
  have hblocks := h.placed.small_blocks h.mem hsmall
  have hublocks := h.placed.small_blocks hu husmall
  have hpos := h.placed.tiles.pos g h.mem
  have hne : u.start ≠ g.start := by
    rw [hnext]
    unfold Tile.stop
    omega
  have hnextEq : g.start + (s.bdescr g.start).blocks = u.start := by
    rw [hblocks, hnext]
    rfl
  have hcond : u.start ≤ BlockModel.lastOf L (BlockModel.mblockOf L g.start) ∧
      (s.bdescr u.start).free = .minusOne := by
    refine ⟨?_, (h.placed.mark_iff hu (h.next_not_hand hu hnext)).mpr hufree⟩
    rw [hnext]
    exact (Group.stop_le_iff L g).mpr hin
  have hjblocks : ((s₁.setBlocks g.start (g.size + u.size)).bdescr g.start).blocks =
      g.size + u.size := by
    rw [BlockModel.setBlocks, setDescr_self]
  simp only [BlockModel.coalesceForwards, hnextEq]
  rw [if_pos hcond, hblocks, hublocks, BlockModel.setBlocks, setDescr_other _ hne, hublocks,
    ← BlockModel.setBlocks, dblLinkRemove_setBlocks, hremove]
  show (if ((s₁.setBlocks g.start _).bdescr g.start).blocks = _ then _ else _) = _
  rw [hjblocks]
  rfl

/-- Without a free group behind the group in hand nothing changes. -/
theorem coalesceForwards_stays (h : InHand L s T g) (hsmall : Small L g)
    (hcond : ¬ (g.stop ≤ BlockModel.lastOf L (BlockModel.mblockOf L g.start) ∧
      (s.bdescr g.stop).free = .minusOne)) :
    s.coalesceForwards L g.start = .ok (s, some g.start) := by
  have hnextEq : g.start + (s.bdescr g.start).blocks = g.stop := by
    rw [h.placed.small_blocks h.mem hsmall]
    rfl
  simp only [BlockModel.coalesceForwards, hnextEq]
  rw [if_neg hcond]
  rfl

/-- What one look around leaves: a free megablock, or a group in hand that has become no
smaller and has no free neighbour on that side. -/
theorem coalesceForwards_spec (h : InHand L s T g) (hsmall : Small L g)
    (hmark : (s.bdescr g.start).free = .minusOne) :
    ∃ s' T', Reaches s T s' T' ∧
      ((s.coalesceForwards L g.start = .ok (s', none) ∧ Settled L s' T') ∨
        ∃ g', s.coalesceForwards L g.start = .ok (s', some g'.start) ∧ InHand L s' T' g' ∧
          Small L g' ∧ (s'.bdescr g'.start).free = .minusOne ∧ ClearAfter L T' g') := by
  by_cases hin : g.start % L.blocksPerMBlock + g.size < L.blocksPerMBlock
  · obtain ⟨u, hu, hustart, husmall, huin⟩ := h.placed.next_small h.mem hin
    have hunhand := h.next_not_hand hu hustart
    by_cases hufree : u.label = .free
    · -- absorb the group behind
      obtain ⟨s₁, hremove, hbdescr, hhand, hreaches, hfrees⟩ :=
        absorb_spec (x := g) (y := u.to .hand) h hu hufree (.inl ⟨rfl, rfl⟩) hsmall husmall hustart
          huin
      have hrun := coalesceForwards_absorbs h hsmall hu husmall hufree hustart hin hremove
      have hmark' : ((s₁.setBlocks g.start (g.size + u.size)).bdescr g.start).free =
          .minusOne := by
        rw [BlockModel.setBlocks, setDescr_self, hbdescr]
        exact hmark
      by_cases hfull : g.size + u.size = L.blocksPerMBlock
      · obtain ⟨T', hsettled, hdone⟩ := freeMegaGroup_spec hhand (Nat.le_of_eq hfull.symm) hmark'
        refine ⟨_, T', hreaches.trans hdone, .inl ⟨?_, hsettled⟩⟩
        rw [hrun, if_pos hfull]
        rfl
      · have hjsmall := hsmall.join (husmall.to .hand) hustart huin hfull
        obtain ⟨hplaced, htail, hhead, -⟩ :=
          setupTail_spec hhand.placed hhand.mem rfl hjsmall.lt
        refine ⟨_, _, hreaches.trans htail, .inr ⟨g.join (u.to .hand), ?_,
          ⟨hplaced, hhand.mem, rfl, hhand.only, hhand.small, hhand.mega⟩, hjsmall, ?_, ?_⟩⟩
        · rw [hrun, if_neg hfull]
          rfl
        · rw [hhead]
          exact hmark'
        · intro w hw hwstart hwsmall
          rw [Group.join_stop (u := u.to .hand) hustart, Group.to_stop] at hwstart
          have hwheld := Finset.mem_of_mem_erase (hfrees hw)
          exact h.small u (mem_held.mpr ⟨hu, hufree⟩) w hwheld hwstart husmall.lt hwsmall
    · -- the group behind is the client's
      refine ⟨s, T, Reaches.refl s T, .inr ⟨g, coalesceForwards_stays h hsmall ?_, h, hsmall,
        hmark, ?_⟩⟩
      · rintro ⟨-, hfree⟩
        rw [← hustart] at hfree
        exact hufree ((h.placed.mark_iff hu hunhand).mp hfree)
      · intro w hw hwstart _
        obtain ⟨hwT, hwfree⟩ := mem_held.mp hw
        rw [h.placed.tiles.eq_of_start hwT hu (hwstart.trans hustart.symm)] at hwfree
        exact absurd hwfree hufree
  · -- the group ends with its megablock
    refine ⟨s, T, Reaches.refl s T, .inr ⟨g, coalesceForwards_stays h hsmall fun hc =>
      hin ((Group.stop_le_iff L g).mp hc.1), h, hsmall, hmark, ?_⟩⟩
    intro w _ hwstart _
    rw [hwstart]
    exact hsmall.stop_mod_of_full hin

theorem Group.first_iff (L : BlockSizes) (a : Nat) :
    a ≠ BlockModel.firstOf L (BlockModel.mblockOf L a) ↔ a % L.blocksPerMBlock ≠ 0 := by
  have hsplit := Nat.div_add_mod' a L.blocksPerMBlock
  unfold BlockModel.firstOf BlockModel.mblockOf
  omega

/-- The group in hand is no neighbour of itself. -/
theorem InHand.prev_not_hand (h : InHand L s T g) (hu : u ∈ T) (hprev : u.stop = g.start) :
    u.label ≠ .hand := by
  intro hhand
  have hpos := h.placed.tiles.pos g h.mem
  rw [h.only u hu hhand] at hprev
  unfold Tile.stop at hprev
  omega

/-- The head of the group before the group in hand. -/
theorem InHand.findHead (h : InHand L s T g) (hu : u ∈ T) (husmall : Small L u)
    (hprev : u.stop = g.start) : s.findHead (g.start - 1) = .ok u.start := by
  rw [← hprev]
  exact h.placed.findHead hu husmall (h.prev_not_hand hu hprev)

/-- A free group before the group in hand absorbs it. -/
theorem coalesceBackwards_absorbs (h : InHand L s T g) (hsmall : Small L g)
    (hin : g.start % L.blocksPerMBlock ≠ 0) (hu : u ∈ T) (husmall : Small L u)
    (hufree : u.label = .free) (hprev : u.stop = g.start)
    (hremove : s.dblLinkRemove u.start (log2 u.size) = .ok s₁) (hbdescr : s₁.bdescr = s.bdescr) :
    s.coalesceBackwards L g.start =
      if u.size + g.size ≥ L.blocksPerMBlock
      then .ok ((s₁.setBlocks u.start (u.size + g.size)).freeMegaGroup L u.start, none)
      else .ok (s₁.setBlocks u.start (u.size + g.size), some u.start) := by
  have hjblocks : ((s₁.setBlocks u.start (u.size + g.size)).bdescr u.start).blocks =
      u.size + g.size := by
    rw [BlockModel.setBlocks, setDescr_self]
  simp only [BlockModel.coalesceBackwards]
  rw [if_pos ((Group.first_iff L _).mpr hin), h.findHead hu husmall hprev]
  show (if (s.bdescr u.start).free = .minusOne then _ else _) = _
  rw [if_pos ((h.placed.mark_iff hu (h.prev_not_hand hu hprev)).mpr hufree),
    h.placed.small_blocks hu husmall, hremove]
  show (if ((s₁.setBlocks u.start _).bdescr u.start).blocks ≥ _ then _ else _) = _
  rw [hbdescr, h.placed.small_blocks hu husmall, h.placed.small_blocks h.mem hsmall, hjblocks]
  rfl

/-- Without a free group before the group in hand nothing changes. -/
theorem coalesceBackwards_stays (h : InHand L s T g) (hin : g.start % L.blocksPerMBlock ≠ 0)
    (hu : u ∈ T) (husmall : Small L u) (hufree : u.label ≠ .free) (hprev : u.stop = g.start) :
    s.coalesceBackwards L g.start = .ok (s, some g.start) := by
  simp only [BlockModel.coalesceBackwards]
  rw [if_pos ((Group.first_iff L _).mpr hin), h.findHead hu husmall hprev]
  show (if (s.bdescr u.start).free = .minusOne then _ else _) = _
  rw [if_neg fun hfree => hufree ((h.placed.mark_iff hu (h.prev_not_hand hu hprev)).mp hfree)]
  rfl

/-- A group that starts its megablock has none before it. -/
theorem coalesceBackwards_first (hin : g.start % L.blocksPerMBlock = 0) :
    s.coalesceBackwards L g.start = .ok (s, some g.start) := by
  simp only [BlockModel.coalesceBackwards]
  rw [if_neg fun hne => (Group.first_iff L _).mp hne hin]
  rfl

theorem coalesceBackwards_spec (h : InHand L s T g) (hsmall : Small L g)
    (hmark : (s.bdescr g.start).free = .minusOne) (hclear : ClearAfter L T g) :
    ∃ s' T', Reaches s T s' T' ∧
      ((s.coalesceBackwards L g.start = .ok (s', none) ∧ Settled L s' T') ∨
        ∃ g', s.coalesceBackwards L g.start = .ok (s', some g'.start) ∧ InHand L s' T' g' ∧
          Small L g' ∧ (s'.bdescr g'.start).free = .minusOne ∧ ClearAfter L T' g' ∧
          ClearBefore L T' g') := by
  by_cases hin : g.start % L.blocksPerMBlock = 0
  · exact ⟨s, T, Reaches.refl s T, .inr ⟨g, coalesceBackwards_first hin, h, hsmall, hmark, hclear,
      fun _ _ _ _ => hin⟩⟩
  obtain ⟨u, hu, hustop, husmall⟩ := h.placed.prev_small h.mem hin
  by_cases hufree : u.label = .free
  · -- absorb the group before
    obtain ⟨s₁, hremove, hbdescr, hhand, hreaches, hfrees⟩ :=
      absorb_spec (x := u.to .hand) (y := g) h hu hufree (.inr ⟨rfl, rfl⟩) hsmall husmall
        hustop.symm hin
    have hrun := coalesceBackwards_absorbs h hsmall hin hu husmall hufree hustop hremove hbdescr
    have hmark' : ((s₁.setBlocks u.start (u.size + g.size)).bdescr u.start).free = .minusOne := by
      rw [BlockModel.setBlocks, setDescr_self, hbdescr]
      exact (h.placed.mark_iff hu (h.prev_not_hand hu hustop)).mpr hufree
    by_cases hfull : u.size + g.size ≥ L.blocksPerMBlock
    · obtain ⟨T', hsettled, hdone⟩ := freeMegaGroup_spec hhand hfull hmark'
      refine ⟨_, T', hreaches.trans hdone, .inl ⟨?_, hsettled⟩⟩
      rw [hrun, if_pos hfull]
      rfl
    · have hjsmall := (husmall.to .hand).join hsmall hustop.symm hin (Nat.ne_of_lt (Nat.not_le.mp hfull))
      refine ⟨_, _, hreaches, .inr ⟨(u.to .hand).join g, ?_, hhand, hjsmall, hmark', ?_, ?_⟩⟩
      · rw [hrun, if_neg hfull]
        rfl
      · intro w hw hwstart hwsmall
        rw [Group.join_stop (g := u.to .hand) hustop.symm] at hwstart
        exact hclear w (Finset.mem_of_mem_erase (hfrees hw)) hwstart hwsmall
      · intro w hw hwstop hwsmall
        have hwheld := Finset.mem_of_mem_erase (hfrees hw)
        exact h.small w hwheld u (mem_held.mpr ⟨hu, hufree⟩) hwstop.symm hwsmall husmall.lt
  · -- the group before is the client's
    refine ⟨s, T, Reaches.refl s T, .inr ⟨g, coalesceBackwards_stays h hin hu husmall hufree hustop,
      h, hsmall, hmark, hclear, ?_⟩⟩
    intro w hw hwstop _
    obtain ⟨hwT, hwfree⟩ := mem_held.mp hw
    rw [h.placed.tiles.eq_of_stop hwT hu (hwstop.trans hustop.symm)] at hwfree
    exact absurd hwfree hufree

/-- A group with no free neighbours goes on its free list. -/
theorem freeListInsert_spec (h : InHand L s T g) (hsmall : Small L g)
    (hmark : (s.bdescr g.start).free = .minusOne) (hafter : ClearAfter L T g)
    (hbefore : ClearBefore L T g) :
    ∃ s' T', (s.setupTail g.start).freeListInsert L g.start = .ok s' ∧ Settled L s' T' ∧
      Reaches s T s' T' := by
  obtain ⟨htailPlaced, htailReaches, hhead, htail⟩ :=
    setupTail_spec h.placed h.mem h.label hsmall.lt
  obtain ⟨s', hlink, hplaced, hreaches⟩ := dblLinkOnto_spec htailPlaced h.mem h.label hsmall.lt
    (by rw [hhead]; exact hmark) htail
  have hblocks : ((s.setupTail g.start).bdescr g.start).blocks = g.size := by
    rw [(htailPlaced.groups g h.mem).blocks, blocksOf_small hsmall.lt]
  have hcases : ∀ w ∈ held .free (exchange T {g} {g.to .free}),
      w ∈ held .free T ∨ w = g.to .free := by
    intro w hw
    obtain ⟨hwT, hwfree⟩ := mem_held.mp hw
    rcases mem_exchange.mp hwT with ⟨hwT, -⟩ | hwA
    · exact .inl (mem_held.mpr ⟨hwT, hwfree⟩)
    · exact .inr (Finset.mem_singleton.mp hwA)
  refine ⟨s', _, ?_, ⟨hplaced, fun w hw hhand => ?_, ?_, ?_⟩, htailReaches.trans hreaches⟩
  · rw [BlockModel.freeListInsert, hblocks, assert, if_pos (decide_eq_true hsmall.lt)]
    exact hlink
  · rcases mem_exchange.mp hw with ⟨hwT, hwg⟩ | hwA
    · exact hwg (Finset.mem_singleton.mpr (h.only w hwT hhand))
    · rw [Finset.mem_singleton.mp hwA] at hhand
      cases hhand
  · intro a ha b hb hnext hasmall hbsmall
    rcases hcases a ha with haT | rfl <;> rcases hcases b hb with hbT | rfl
    · exact h.small a haT b hbT hnext hasmall hbsmall
    · exact hbefore a haT hnext.symm hasmall
    · exact hafter b hbT hnext hbsmall
    · have hpos := h.placed.tiles.pos g h.mem
      unfold Tile.stop at hnext
      simp only [Group.to_start, Group.to_size] at hnext
      omega
  · refine h.mega.mono fun w hw hge => ?_
    rcases hcases w hw with hwT | rfl
    · exact hwT
    · exact absurd hsmall.lt (Nat.not_lt.mpr hge)

/-! ## `freeGroup` -/

/-- What a client sees of a group that is freed: the other groups stay as they are. -/
structure Frees (L : BlockSizes) (s : BlockModel) (T : Finset Group) (g : Group)
    (s' : BlockModel) (T' : Finset Group) : Prop where
  settled : Settled L s' T'
  mblocks : SameMBlocks s s'
  lives : held .live T' = (held .live T).erase g
  frame : ∀ u ∈ (held .live T).erase g, ∀ a, u.Has a → s'.bdescr a = s.bdescr a
  nAlloc : s'.nAllocBlocks = s.nAllocBlocks - g.size
  hwAlloc : s'.hwAllocBlocks = s.hwAllocBlocks

/-- `freeGroup` marks the head before anything else. -/
theorem mark_spec (h : Settled L s T) (hg : g ∈ T) (hlive : g.label = .live) (n : Nat)
    (hs' : s' = { s.setDescr g.start fun d => { d with free := .minusOne } with
      nAllocBlocks := n }) :
    InHand L s' (exchange T {g} {g.to .hand}) (g.to .hand) ∧
      held .live (exchange T {g} {g.to .hand}) = (held .live T).erase g ∧
      (∀ u ∈ (held .live T).erase g, ∀ a, u.Has a → s'.bdescr a = s.bdescr a) := by
  have hplaced := h.placed
  have hok := hplaced.groups g hg
  have hpos := hplaced.tiles.pos g hg
  have hbdescr : s'.bdescr =
      (s.setDescr g.start fun d => { d with free := .minusOne }).bdescr := by rw [hs']
  have hframe : ∀ a, ¬ g.Has a → s'.bdescr a = s.bdescr a := by
    intro a ha
    rw [hbdescr]
    refine setDescr_other _ ?_
    rintro rfl
    exact ha (Tile.has_start hpos)
  -- the counter is not part of the layout
  have hcongr : Placed L s' (exchange T {g} {g.to .hand}) := by
    have hmid : Placed L (s.setDescr g.start fun d => { d with free := .minusOne })
        (exchange T {g} {g.to .hand}) := by
      refine hplaced.relabel hg ⟨rfl, rfl⟩
        (touches_setDescr (Finset.mem_singleton_self g) (Tile.has_start hpos) _) ?_ ?_
      · refine ⟨hok.to_hand.shape, ?_, fun a ha hfirst => ?_, fun hlive => (by cases hlive),
          fun hfree => (by cases hfree)⟩
        · rw [Group.to_start, setDescr_self]
          exact hok.blocks
        · have hstart := hok.starts a ha hfirst
          by_cases hhead : a = g.start
          · rw [hhead] at hstart ⊢
            rw [setDescr_self]
            exact hstart
          · rw [setDescr_other _ hhead]
            exact hstart
      · rw [held_exchange_other (by simp [hlive]) (by simp)]
        exact hplaced.lists.congr rfl rfl
    rw [hs']
    exact ⟨hmid.tiles, hmid.groups, hmid.lists.congr rfl rfl⟩
  have hfrees : ∀ u ∈ held .free (exchange T {g} {g.to .hand}), u ∈ held .free T := by
    rw [held_exchange_other (by simp [hlive]) (by simp)]
    exact fun u hu => hu
  refine ⟨⟨hcongr, mem_exchange.mpr (.inr (Finset.mem_singleton_self _)), rfl,
    fun u hu hhand => ?_, h.small.mono fun u hu _ => hfrees u hu,
    h.mega.mono fun u hu _ => hfrees u hu⟩, held_exchange_erase (by simp), fun u hu a ha => ?_⟩
  · rcases mem_exchange.mp hu with ⟨huT, -⟩ | huA
    · exact absurd hhand (h.noHand u huT)
    · exact Finset.mem_singleton.mp huA
  · obtain ⟨hne, hu⟩ := Finset.mem_erase.mp hu
    exact hframe a fun hga => hne (hplaced.tiles.apart u (mem_held.mp hu).1 g hg a ha hga)

/-- `freeGroup` of a group that the client holds: no assertion fails, nothing is taken off a
list where it is not, and the invariants hold again. -/
theorem freeGroup_spec (h : Settled L s T) (hg : g ∈ T) (hlive : g.label = .live)
    (hcount : g.size ≤ s.nAllocBlocks) :
    ∃ s' T', s.freeGroup L g.start = .ok s' ∧ Frees L s T g s' T' := by
  have hok := h.placed.groups g hg
  have hpos := h.placed.tiles.pos g hg
  obtain ⟨counted, hcounted⟩ : ∃ counted : BlockModel,
      counted = { s.setDescr g.start fun d => { d with free := .minusOne } with
        nAllocBlocks := s.nAllocBlocks - g.size } := ⟨_, rfl⟩
  obtain ⟨hhand, hlives, hframe⟩ := mark_spec h hg hlive _ hcounted
  have hmark : (counted.bdescr g.start).free = .minusOne := by
    rw [hcounted]
    exact congrArg ModelDescr.free (setDescr_self s g.start fun d => { d with free := .minusOne })
  -- what the rest does is invisible to the client
  have hframes : ∀ {s' T'}, Settled L s' T' → Reaches counted (exchange T {g} {g.to .hand}) s' T' →
      Frees L s T g s' T' := by
    intro s' T' hsettled hreaches
    refine ⟨hsettled, ⟨hreaches.mblocks.map.trans (by rw [hcounted]; rfl),
        hreaches.mblocks.count.trans (by rw [hcounted]; rfl)⟩,
      hreaches.evolves.lives.trans hlives, fun u hu a ha => ?_,
      hreaches.evolves.nAlloc.trans (by rw [hcounted]),
      hreaches.evolves.hwAlloc.trans (by rw [hcounted]; rfl)⟩
    rw [hreaches.evolves.frame u (hlives ▸ hu) a ha]
    exact hframe u hu a ha
  by_cases hmega : L.blocksPerMBlock ≤ g.size
  · have hG := h.placed.mega hg hmega
    have hge : blocksOf L g.size ≥ L.blocksPerMBlock :=
      Nat.not_lt.mp fun hlt => absurd (blocksOf_lt_iff.mp hlt) (Nat.not_lt.mpr hmega)
    obtain ⟨T', hsettled, hreaches⟩ := freeMegaGroup_spec hhand hmega hmark
    refine ⟨_, T', ?_, hframes hsettled hreaches⟩
    rw [BlockModel.freeGroup_mega L (hok.live hlive).1 hok.blocks hge
      (hok.blocks ▸ h.placed.toMBlocks hg hmega) (blocksOf_mega hmega), ← hG.size_eq, hcounted]
    rfl
  · have hsmall : Small L g := hok.small_or.1 (Nat.not_le.mp hmega)
    have hrun := BlockModel.freeGroup_eq L (hok.live hlive).1
      (hok.blocks.trans (blocksOf_small hsmall.lt)) hpos hsmall.lt hcount hcounted
    have hhsmall := hsmall.to .hand
    obtain ⟨s₁, T₁, hreaches₁, ⟨hforwards, hsettled⟩ | ⟨g₁, hforwards, hhand₁, hsmall₁, hmark₁,
      hafter⟩⟩ := coalesceForwards_spec hhand hhsmall hmark
    · refine ⟨s₁, T₁, ?_, hframes hsettled hreaches₁⟩
      rw [Group.to_start] at hforwards
      rw [hrun, hforwards]
      rfl
    obtain ⟨s₂, T₂, hreaches₂, ⟨hbackwards, hsettled⟩ | ⟨g₂, hbackwards, hhand₂, hsmall₂, hmark₂,
      hafter₂, hbefore⟩⟩ := coalesceBackwards_spec hhand₁ hsmall₁ hmark₁ hafter
    · refine ⟨s₂, T₂, ?_, hframes hsettled (hreaches₁.trans hreaches₂)⟩
      rw [Group.to_start] at hforwards
      rw [hrun, hforwards]
      show (s₁.coalesceBackwards L g₁.start >>= _) = _
      rw [hbackwards]
      rfl
    obtain ⟨s', T', hinsert, hsettled, hreaches₃⟩ :=
      freeListInsert_spec hhand₂ hsmall₂ hmark₂ hafter₂ hbefore
    refine ⟨s', T', ?_, hframes hsettled (hreaches₁.trans (hreaches₂.trans hreaches₃))⟩
    rw [Group.to_start] at hforwards
    rw [hrun, hforwards]
    show (s₁.coalesceBackwards L g₁.start >>= _) = _
    rw [hbackwards]
    exact hinsert

end HosBoot.Rts
