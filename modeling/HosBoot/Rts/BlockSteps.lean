/-
  Rts/BlockSteps.lean --- lists, tails and heads of the block allocator.

  One lemma for each of the small functions: what it does to the tiling, and that it leaves
  the client's groups alone.
-/
import HosBoot.Rts.BlockMoves

set_option autoImplicit false

namespace HosBoot.Rts

open HosBoot.Foundation

variable {L : BlockSizes} {s s' : BlockModel} {T T' : Finset Group} {g u : Group}

/-- A step that the client does not see, on the same megablocks. -/
structure Reaches (s : BlockModel) (T : Finset Group) (s' : BlockModel) (T' : Finset Group) :
    Prop where
  evolves : Evolves s T s' T'
  mblocks : SameMBlocks s s'

theorem Reaches.refl (s : BlockModel) (T : Finset Group) : Reaches s T s T :=
  ⟨Evolves.refl s T, ⟨rfl, rfl⟩⟩

theorem Reaches.trans {s₁ s₂ s₃ : BlockModel} {T₁ T₂ T₃ : Finset Group}
    (h : Reaches s₁ T₁ s₂ T₂) (h' : Reaches s₂ T₂ s₃ T₃) : Reaches s₁ T₁ s₃ T₃ :=
  ⟨h.evolves.trans h'.evolves, h.mblocks.trans h'.mblocks⟩

theorem SmallApart.mono (h : SmallApart L T)
    (hsub : ∀ u ∈ held .free T', u.size < L.blocksPerMBlock → u ∈ held .free T) :
    SmallApart L T' :=
  fun g hg u hu hnext hgsmall husmall =>
    h g (hsub g hg hgsmall) u (hsub u hu husmall) hnext hgsmall husmall

theorem MegaApart.mono (h : MegaApart L T)
    (hsub : ∀ u ∈ held .free T', L.blocksPerMBlock ≤ u.size → u ∈ held .free T) :
    MegaApart L T' :=
  fun g hg u hu hnext hgmega humega =>
    h g (hsub g hg hgmega) u (hsub u hu humega) hnext hgmega humega

/-- Between two calls: no group is in hand and free neighbours are coalesced. -/
structure Settled (L : BlockSizes) (s : BlockModel) (T : Finset Group) : Prop where
  placed : Placed L s T
  noHand : ∀ u ∈ T, u.label ≠ .hand
  small : SmallApart L T
  mega : MegaApart L T

/-- A function works on one group. -/
structure InHand (L : BlockSizes) (s : BlockModel) (T : Finset Group) (g : Group) : Prop where
  placed : Placed L s T
  mem : g ∈ T
  label : g.label = .hand
  only : ∀ u ∈ T, u.label = .hand → u = g
  small : SmallApart L T
  mega : MegaApart L T

theorem exchange_self (hg : g ∈ T) : exchange T {g} {g} = T := by
  ext u
  rw [mem_exchange, Finset.mem_singleton]
  constructor
  · rintro (⟨hu, -⟩ | rfl)
    · exact hu
    · exact hg
  · intro hu
    by_cases heq : u = g
    · exact .inr heq
    · exact .inl ⟨hu, heq⟩

theorem Group.to_self {label : Holder} (h : g.label = label) : g.to label = g := by
  cases g
  cases h
  rfl

/-- The starts of the free groups tell them apart. -/
theorem Placed.free_inj (h : Placed L s T) :
    ∀ u ∈ held .free T, ∀ v ∈ held .free T, u.start = v.start → u = v :=
  fun _ hu _ hv heq => h.tiles.eq_of_start (mem_held.mp hu).1 (mem_held.mp hv).1 heq

/-! ## Free lists -/

/-- What `dbl_link_remove` did when it did not fail. -/
theorem dblLinkRemove_eq {bd ln : Nat} (h : s.dblLinkRemove bd ln = .ok s') :
    (ln < maxFreeList ∧ bd ∈ s.freeList ln) ∧
      s' = { s with freeList := Function.update s.freeList ln ((s.freeList ln).erase bd) } := by
  unfold BlockModel.dblLinkRemove at h
  by_cases hmem : ln < maxFreeList ∧ bd ∈ s.freeList ln
  · rw [if_pos hmem] at h
    exact ⟨hmem, (Except.ok.inj h).symm⟩
  · rw [if_neg hmem] at h
    cases h

/-- `dbl_link_remove` finds a small free group on its list. -/
theorem dblLinkRemove_spec (h : Placed L s T) (hg : g ∈ T) (hfree : g.label = .free)
    (hsmall : g.size < L.blocksPerMBlock) :
    ∃ s', s.dblLinkRemove g.start (log2 g.size) = .ok s' ∧ s'.bdescr = s.bdescr ∧
      Placed L s' (exchange T {g} {g.to .hand}) ∧
      Reaches s T s' (exchange T {g} {g.to .hand}) := by
  have hheld := mem_held.mpr ⟨hg, hfree⟩
  have hlog := log2_spec (h.tiles.pos g hg) (Nat.lt_trans hsmall L.perMBlock_lt)
  have hmem := (h.lists.mem_free _ _).mpr ⟨g, hheld, hsmall, rfl, rfl⟩
  refine ⟨_, if_pos ⟨hlog.1, hmem⟩, rfl, ?_, ?_, ⟨rfl, rfl⟩⟩
  · refine h.relabel hg ⟨rfl, rfl⟩ ⟨fun _ _ _ => rfl, rfl, rfl⟩ (h.groups g hg).to_hand ?_
    rw [held_exchange_erase (by simp)]
    exact h.lists.unlink h.free_inj hheld hsmall rfl rfl
  · refine h.evolves (L := L) (Finset.singleton_subset_iff.mpr hg) ⟨fun _ _ _ => rfl, rfl, rfl⟩
      ?_ ?_
    · simp [hfree]
    · simp

/-- `dbl_link_onto` puts a group in hand on the list of its size. -/
theorem dblLinkOnto_spec (h : Placed L s T) (hg : g ∈ T) (hhand : g.label = .hand)
    (hsmall : g.size < L.blocksPerMBlock) (hmark : (s.bdescr g.start).free = .minusOne)
    (htail : g.stop - 1 ≠ g.start → IsTail (s.bdescr (g.stop - 1)) g.start) :
    ∃ s', s.dblLinkOnto g.start (log2 g.size) = .ok s' ∧
      Placed L s' (exchange T {g} {g.to .free}) ∧
      Reaches s T s' (exchange T {g} {g.to .free}) := by
  have hlog := log2_spec (h.tiles.pos g hg) (Nat.lt_trans hsmall L.perMBlock_lt)
  have hok := h.groups g hg
  refine ⟨_, if_pos hlog.1, ?_, ?_, ⟨rfl, rfl⟩⟩
  · refine h.relabel hg ⟨rfl, rfl⟩ ⟨fun _ _ _ => rfl, rfl, rfl⟩ ?_ ?_
    · have hshape := hok.small_or.1 hsmall
      exact ⟨.inl ⟨hshape.lt, hshape.within⟩, hok.blocks, hok.starts, fun hlive => (by cases hlive),
        fun _ => ⟨hmark, fun _ => htail⟩⟩
    · rw [held_exchange_insert (Group.to_label g .free) (by simp [hhand])]
      refine h.lists.link (g := g.to .free) (fun u hu heq => ?_) hsmall rfl rfl
      obtain ⟨huT, hufree⟩ := mem_held.mp hu
      rw [h.tiles.eq_of_start huT hg heq, hhand] at hufree
      cases hufree
  · refine h.evolves (L := L) (Finset.singleton_subset_iff.mpr hg) ⟨fun _ _ _ => rfl, rfl, rfl⟩
      ?_ ?_
    · simp [hhand]
    · simp

/-! ## Descriptors -/

theorem setDescr_other {bd a : Nat} (f : ModelDescr → ModelDescr) (hne : a ≠ bd) :
    (s.setDescr bd f).bdescr a = s.bdescr a :=
  Function.update_of_ne hne _ _

theorem setDescr_self (s : BlockModel) (bd : Nat) (f : ModelDescr → ModelDescr) :
    (s.setDescr bd f).bdescr bd = f (s.bdescr bd) :=
  Function.update_self _ _ _

/-- A write to a descriptor of a group touches only that group. -/
theorem touches_setDescr {R : Finset Group} (hg : g ∈ R) {bd : Nat} (hbd : g.Has bd)
    (f : ModelDescr → ModelDescr) : Touches L s (s.setDescr bd f) R := by
  refine ⟨fun a _ hnone => setDescr_other f ?_, rfl, rfl⟩
  rintro rfl
  exact hnone g hg hbd

/-- `setup_tail` on a group in hand. -/
theorem setupTail_spec (h : Placed L s T) (hg : g ∈ T) (hhand : g.label = .hand)
    (hsmall : g.size < L.blocksPerMBlock) :
    Placed L (s.setupTail g.start) T ∧ Reaches s T (s.setupTail g.start) T ∧
      (s.setupTail g.start).bdescr g.start = s.bdescr g.start ∧
      (g.stop - 1 ≠ g.start →
        IsTail ((s.setupTail g.start).bdescr (g.stop - 1)) g.start) := by
  have hok := h.groups g hg
  have hpos := h.tiles.pos g hg
  have htail : s.tailOf g.start = g.stop - 1 := by
    rw [BlockModel.tailOf, hok.blocks, blocksOf_small hsmall]
    rfl
  by_cases hone : g.stop - 1 = g.start
  · have hsame : s.setupTail g.start = s := by
      rw [BlockModel.setupTail, htail, if_neg (fun hne => hne hone)]
    rw [hsame]
    exact ⟨h, Reaches.refl s T, rfl, fun hne => absurd hone hne⟩
  · have hset : s.setupTail g.start = s.setDescr (g.stop - 1)
        fun d => { d with blocks := 0, free := .zero, link := some g.start } := by
      rw [BlockModel.setupTail, htail, if_pos hone]
    have htouches : Touches L s (s.setupTail g.start) {g} := by
      rw [hset]
      exact touches_setDescr (Finset.mem_singleton_self g) (Tile.has_last hpos) _
    have hhead : (s.setupTail g.start).bdescr g.start = s.bdescr g.start := by
      rw [hset]
      exact setDescr_other _ (fun heq => hone heq.symm)
    have hmblocks : SameMBlocks s (s.setupTail g.start) := by
      rw [hset]
      exact ⟨rfl, rfl⟩
    refine ⟨?_, ⟨?_, hmblocks⟩, hhead, fun _ => ?_⟩
    · have hplaced : Placed L (s.setupTail g.start) (exchange T {g} {g.to .hand}) := by
        refine h.relabel hg hmblocks htouches ?_ ?_
        · have hhand := hok.to_hand
          refine ⟨hhand.shape, ?_, fun a ha hfirst => ?_, fun hlive => (by cases hlive),
            fun hfree => (by cases hfree)⟩
          · rw [Group.to_start, hhead]
            exact hok.blocks
          · by_cases hlast : a = g.stop - 1
            · rw [hlast] at ha hfirst ⊢
              rw [hset, setDescr_self]
              exact hok.starts _ ha hfirst
            · rw [hset, setDescr_other _ hlast]
              exact hok.starts a ha hfirst
        · rw [held_exchange_other (by simp [hhand]) (by simp)]
          refine h.lists.congr ?_ ?_ <;> rw [hset] <;> rfl
      rw [Group.to_self hhand, exchange_self hg] at hplaced
      exact hplaced
    · have hevolves := h.evolves (A := {g}) (Finset.singleton_subset_iff.mpr hg) htouches
        (by simp [hhand]) (by simp [hhand])
      rw [exchange_self hg] at hevolves
      exact hevolves
    · rw [hset, setDescr_self]
      exact ⟨⟨rfl, rfl⟩, rfl⟩

/-- Two neighbours in hand become one group when the first head gets the sum. -/
theorem merge_spec (h : Placed L s T) (hg : g ∈ T) (hu : u ∈ T) (hghand : g.label = .hand)
    (huhand : u.label = .hand) (hnext : u.start = g.stop)
    (hwithin : g.start % L.blocksPerMBlock + (g.size + u.size) ≤ L.blocksPerMBlock) :
    Placed L (s.setBlocks g.start (g.size + u.size))
        (exchange T {g, u} {g.join u}) ∧
      Reaches s T (s.setBlocks g.start (g.size + u.size))
        (exchange T {g, u} {g.join u}) := by
  have hgpos := h.tiles.pos g hg
  have hupos := h.tiles.pos u hu
  have hsub : {g, u} ⊆ T := by
    intro x hx
    rcases Finset.mem_insert.mp hx with rfl | hx
    · exact hg
    · rw [Finset.mem_singleton.mp hx]
      exact hu
  have htouches : Touches L s (s.setBlocks g.start (g.size + u.size)) {g, u} :=
    touches_setDescr (Finset.mem_insert_self g {u}) (Tile.has_start hgpos) _
  have hlabels : ∀ x ∈ ({g, u} : Finset Group), x.label = .hand := by
    intro x hx
    rcases Finset.mem_insert.mp hx with rfl | hx
    · exact hghand
    · rw [Finset.mem_singleton.mp hx]
      exact huhand
  refine ⟨?_, ?_, ⟨rfl, rfl⟩⟩
  · refine h.rearrange hsub (Tiles.single (t := g.join u) (Nat.add_pos_left hgpos _))
      (fun a => ?_) ⟨rfl, rfl⟩ htouches (fun x hx => ?_) ?_
    · simp only [Finset.mem_insert, Finset.mem_singleton, exists_eq_or_imp, exists_eq_left]
      exact Group.join_has hnext a
    · rw [Finset.mem_singleton.mp hx]
      have hgsmall : Small L g := (h.groups g hg).small_or.1 (by omega)
      refine ⟨?_, ?_, fun a ha hfirst => ?_, fun hlive => (by cases hlive),
        fun hfree => (by cases hfree)⟩
      · rcases Nat.lt_or_ge (g.size + u.size) L.blocksPerMBlock with hlt | hge
        · exact .inl ⟨hlt, hwithin⟩
        · have hfull : g.size + u.size = L.blocksPerMBlock := by omega
          refine .inr ⟨?_, hge, ?_⟩
          · show g.start % L.blocksPerMBlock = 0
            omega
          · show (g.size + u.size) % L.blocksPerMBlock = 0
            rw [hfull, Nat.mod_self]
      · show ((s.setBlocks g.start (g.size + u.size)).bdescr g.start).blocks = _
        rw [BlockModel.setBlocks, setDescr_self]
        rcases Nat.lt_or_ge (g.size + u.size) L.blocksPerMBlock with hlt | hge
        · exact (blocksOf_small hlt).symm
        · have hfull : g.size + u.size = L.blocksPerMBlock := by omega
          show g.size + u.size = blocksOf L (g.size + u.size)
          rw [blocksOf_mega hge, hfull, Nat.div_self L.perMBlock_pos, L.group_one]
      · have hstart : (s.bdescr a).start = L.blockAt a := by
          have husmall : Small L u := (h.groups u hu).small_or.1 (by omega)
          rcases (Group.join_has hnext a).mp ha with hag | hau
          · exact (h.groups g hg).starts a hag (hgsmall.div_eq hag)
          · exact (h.groups u hu).starts a hau (husmall.div_eq hau)
        by_cases hhead : a = g.start
        · rw [hhead] at hstart ⊢
          rw [BlockModel.setBlocks, setDescr_self]
          exact hstart
        · rw [BlockModel.setBlocks, setDescr_other _ hhead]
          exact hstart
    · rw [held_exchange_other]
      · exact h.lists.congr rfl rfl
      · intro x hx
        rw [hlabels x hx]
        decide
      · simp
  · refine h.evolves hsub htouches (fun x hx => ?_) (by simp)
    rw [hlabels x hx]
    decide

end HosBoot.Rts
