/-
  Rts/BlockMoves.lean --- the small steps of the block allocator.

  Each step of the allocator's functions exchanges a few groups of the tiling: it takes a
  group off a list, puts one on, merges or splits groups in hand, or hands one out.  The
  lemmas here say so, one for each step; whatever a step does, it leaves the descriptors of
  the groups that it does not exchange alone.
-/
import HosBoot.Rts.BlockGroups

set_option autoImplicit false

namespace HosBoot.Rts

open HosBoot.Foundation

variable {L : BlockSizes} {s s' : BlockModel} {T R A F : Finset Group} {g u : Group}

/-! ## Exchanging groups -/

/-- Descriptors elsewhere and the counters are as before. -/
structure Touches (L : BlockSizes) (s s' : BlockModel) (R : Finset Group) : Prop where
  frame : ∀ a, Owned L s a → (∀ r ∈ R, ¬ r.Has a) → s'.bdescr a = s.bdescr a
  nAlloc : s'.nAllocBlocks = s.nAllocBlocks
  hwAlloc : s'.hwAllocBlocks = s.hwAllocBlocks

/-- The same megablocks. -/
structure SameMBlocks (s s' : BlockModel) : Prop where
  map : s'.heapAlloced = s.heapAlloced
  count : s'.mblocksAllocated = s.mblocksAllocated

theorem SameMBlocks.trans {first second third : BlockModel} (h : SameMBlocks first second)
    (h' : SameMBlocks second third) : SameMBlocks first third :=
  ⟨h'.map.trans h.map, h'.count.trans h.count⟩

/-- A group whose descriptors did not change. -/
theorem GroupOk.congr {bdescr bdescr' : Nat → ModelDescr} (hpos : 0 < g.size)
    (heq : ∀ a, g.Has a → bdescr' a = bdescr a) (h : GroupOk L bdescr g) :
    GroupOk L bdescr' g := by
  have hstart := heq _ (Tile.has_start hpos)
  refine ⟨h.shape, ?_, fun a ha hfirst => ?_, fun hlive => ⟨?_, fun a ha hne hfirst => ?_⟩,
    fun hfree => ⟨?_, fun hlt hne => ?_⟩⟩
  · rw [hstart, h.blocks]
  · rw [heq a ha, h.starts a ha hfirst]
  · rw [hstart]
    exact (h.live hlive).1
  · rw [heq a ha]
    exact (h.live hlive).2 a ha hne hfirst
  · rw [hstart]
    exact (h.free hfree).1
  · rw [heq _ (Tile.has_last hpos)]
    exact (h.free hfree).2 hlt hne

/-- A group in hand has the fewest duties. -/
theorem GroupOk.to_hand {bdescr : Nat → ModelDescr} (h : GroupOk L bdescr g) :
    GroupOk L bdescr (g.to .hand) := by
  refine ⟨?_, h.blocks, h.starts, fun hlive => (by cases hlive), fun hfree => (by cases hfree)⟩
  rcases h.shape with hsmall | hmega
  · exact .inl ⟨hsmall.lt, hsmall.within⟩
  · exact .inr ⟨hmega.first, hmega.ge, hmega.whole⟩

theorem Placed.exchange (h : Placed L s T) (hR : R ⊆ T) {added : Nat → Prop}
    (hA : Tiles A added) (hfree : ∀ a, added a → Owned L s a → ∃ r ∈ R, r.Has a)
    (howned : ∀ a, Owned L s' a ↔ (Owned L s a ∧ ¬ ∃ r ∈ R, r.Has a) ∨ added a)
    (htouches : Touches L s s' R) (hgroups : ∀ g ∈ A, GroupOk L s'.bdescr g)
    (hlists : ListsOk L s' (held .free (exchange T R A))) :
    Placed L s' (exchange T R A) := by
  refine ⟨(h.tiles.exchange hR hA hfree).congr howned, fun g hg => ?_, hlists⟩
  rcases mem_exchange.mp hg with ⟨hgT, hgR⟩ | hgA
  · refine (h.groups g hgT).congr (h.tiles.pos g hgT) fun a ha => ?_
    refine htouches.frame a ((h.tiles.cover a).mpr ⟨g, hgT, ha⟩) fun r hr hra => ?_
    exact hgR (h.tiles.apart g hgT r (hR hr) a ha hra ▸ hr)
  · exact hgroups g hgA

/-- The groups exchanged lie in the same place. -/
theorem Placed.rearrange (h : Placed L s T) (hR : R ⊆ T) {added : Nat → Prop}
    (hA : Tiles A added) (hsame : ∀ a, added a ↔ ∃ r ∈ R, r.Has a)
    (hmblocks : SameMBlocks s s') (htouches : Touches L s s' R)
    (hgroups : ∀ g ∈ A, GroupOk L s'.bdescr g)
    (hlists : ListsOk L s' (held .free (Foundation.exchange T R A))) :
    Placed L s' (Foundation.exchange T R A) := by
  refine h.exchange hR hA (fun a hadded _ => (hsame a).mp hadded) (fun a => ?_) htouches
    hgroups hlists
  have howned : Owned L s' a ↔ Owned L s a := by
    unfold Owned
    rw [hmblocks.map]
  rw [howned, hsame]
  constructor
  · intro ha
    by_cases hr : ∃ r ∈ R, r.Has a
    · exact .inr hr
    · exact .inl ⟨ha, hr⟩
  · rintro (⟨ha, -⟩ | ⟨r, hr, hra⟩)
    · exact ha
    · exact (h.tiles.cover a).mpr ⟨r, hR hr, hra⟩

/-- One group changes its holder. -/
theorem Placed.relabel (h : Placed L s T) (hg : g ∈ T) {label : Holder}
    (hmblocks : SameMBlocks s s') (htouches : Touches L s s' {g})
    (hok : GroupOk L s'.bdescr (g.to label))
    (hlists : ListsOk L s' (held .free (Foundation.exchange T {g} {g.to label}))) :
    Placed L s' (Foundation.exchange T {g} {g.to label}) := by
  refine h.rearrange (Finset.singleton_subset_iff.mpr hg)
    (Tiles.single (t := g.to label) (h.tiles.pos g hg)) (fun a => ?_) hmblocks htouches
    (fun u hu => ?_) hlists
  · simp
  · rw [Finset.mem_singleton.mp hu]
    exact hok

/-! ## What the client sees -/

/-- The client's groups and their descriptors are as before, and so are the counters. -/
structure Evolves (s : BlockModel) (T : Finset Group) (s' : BlockModel) (T' : Finset Group) :
    Prop where
  lives : held .live T' = held .live T
  frame : ∀ g ∈ held .live T, ∀ a, g.Has a → s'.bdescr a = s.bdescr a
  nAlloc : s'.nAllocBlocks = s.nAllocBlocks
  hwAlloc : s'.hwAllocBlocks = s.hwAllocBlocks

theorem Evolves.refl (s : BlockModel) (T : Finset Group) : Evolves s T s T :=
  ⟨rfl, fun _ _ _ _ => rfl, rfl, rfl⟩

theorem Evolves.trans {s₁ s₂ s₃ : BlockModel} {T₁ T₂ T₃ : Finset Group}
    (h : Evolves s₁ T₁ s₂ T₂) (h' : Evolves s₂ T₂ s₃ T₃) : Evolves s₁ T₁ s₃ T₃ :=
  ⟨h'.lives.trans h.lives,
    fun g hg a ha => (h'.frame g (h.lives ▸ hg) a ha).trans (h.frame g hg a ha),
    h'.nAlloc.trans h.nAlloc, h'.hwAlloc.trans h.hwAlloc⟩

/-- An exchange of groups that the client does not hold. -/
theorem Placed.evolves (h : Placed L s T) (hR : R ⊆ T) (htouches : Touches L s s' R)
    (hlivesR : ∀ g ∈ R, g.label ≠ .live) (hlivesA : ∀ g ∈ A, g.label ≠ .live) :
    Evolves s T s' (Foundation.exchange T R A) := by
  refine ⟨held_exchange_other hlivesR hlivesA, fun g hg a ha => ?_, htouches.nAlloc,
    htouches.hwAlloc⟩
  obtain ⟨hgT, hlive⟩ := mem_held.mp hg
  refine htouches.frame a ((h.tiles.cover a).mpr ⟨g, hgT, ha⟩) fun r hr hra => ?_
  exact hlivesR r hr (h.tiles.apart r (hR hr) g hgT a hra ha ▸ hlive)

/-! ## The lists -/

/-- The lists do not change with the rest of the state. -/
theorem ListsOk.congr (h : ListsOk L s F) (hfree : s'.freeList = s.freeList)
    (hmblock : s'.freeMBlockList = s.freeMBlockList) : ListsOk L s' F := by
  obtain ⟨hmem, hnodup, hmega, hsorted⟩ := h
  rw [← hfree] at hmem hnodup
  rw [← hmblock] at hmega hsorted
  exact ⟨hmem, hnodup, hmega, hsorted⟩

/-- A small group leaves its list. -/
theorem ListsOk.unlink (h : ListsOk L s F)
    (hinj : ∀ u ∈ F, ∀ v ∈ F, u.start = v.start → u = v) (hg : g ∈ F)
    (hsmall : g.size < L.blocksPerMBlock)
    (hfree : s'.freeList = Function.update s.freeList (log2 g.size)
      ((s.freeList (log2 g.size)).erase g.start))
    (hmblock : s'.freeMBlockList = s.freeMBlockList) : ListsOk L s' (F.erase g) := by
  refine ⟨fun ln bd => ?_, fun ln => ?_, fun bd => ?_, hmblock ▸ h.sorted⟩
  · rw [hfree]
    constructor
    · intro hbd
      by_cases hln : ln = log2 g.size
      · rw [hln, Function.update_self, (h.nodup _).mem_erase_iff, h.mem_free] at hbd
        obtain ⟨hne, u, hu, hlt, hlog, hstart⟩ := hbd
        refine ⟨u, Finset.mem_erase.mpr ⟨?_, hu⟩, hlt, hlog.trans hln.symm, hstart⟩
        rintro rfl
        exact hne hstart.symm
      · rw [Function.update_of_ne hln, h.mem_free] at hbd
        obtain ⟨u, hu, hlt, hlog, hstart⟩ := hbd
        refine ⟨u, Finset.mem_erase.mpr ⟨?_, hu⟩, hlt, hlog, hstart⟩
        rintro rfl
        exact hln hlog.symm
    · rintro ⟨u, hu, hlt, hlog, hstart⟩
      obtain ⟨hne, hu⟩ := Finset.mem_erase.mp hu
      have hmem : bd ∈ s.freeList ln := (h.mem_free ln bd).mpr ⟨u, hu, hlt, hlog, hstart⟩
      by_cases hln : ln = log2 g.size
      · rw [hln, Function.update_self, (h.nodup _).mem_erase_iff]
        refine ⟨fun heq => hne (hinj u hu g hg (hstart.trans heq)), hln ▸ hmem⟩
      · rw [Function.update_of_ne hln]
        exact hmem
  · rw [hfree]
    by_cases hln : ln = log2 g.size
    · rw [hln, Function.update_self]
      exact (h.nodup _).erase _
    · rw [Function.update_of_ne hln]
      exact h.nodup ln
  · rw [hmblock, h.mem_mblock]
    constructor
    · rintro ⟨u, hu, hge, hstart⟩
      refine ⟨u, Finset.mem_erase.mpr ⟨?_, hu⟩, hge, hstart⟩
      rintro rfl
      exact absurd hge (Nat.not_le.mpr hsmall)
    · rintro ⟨u, hu, hge, hstart⟩
      exact ⟨u, Finset.mem_of_mem_erase hu, hge, hstart⟩

/-- A small group joins its list. -/
theorem ListsOk.link (h : ListsOk L s F) (hnew : ∀ u ∈ F, u.start ≠ g.start)
    (hsmall : g.size < L.blocksPerMBlock)
    (hfree : s'.freeList = Function.update s.freeList (log2 g.size)
      (g.start :: s.freeList (log2 g.size)))
    (hmblock : s'.freeMBlockList = s.freeMBlockList) : ListsOk L s' (insert g F) := by
  refine ⟨fun ln bd => ?_, fun ln => ?_, fun bd => ?_, hmblock ▸ h.sorted⟩
  · rw [hfree]
    constructor
    · intro hbd
      by_cases hln : ln = log2 g.size
      · rw [hln, Function.update_self, List.mem_cons, h.mem_free] at hbd
        rcases hbd with rfl | ⟨u, hu, hlt, hlog, hstart⟩
        · exact ⟨g, Finset.mem_insert_self _ _, hsmall, hln.symm, rfl⟩
        · exact ⟨u, Finset.mem_insert_of_mem hu, hlt, hlog.trans hln.symm, hstart⟩
      · rw [Function.update_of_ne hln, h.mem_free] at hbd
        obtain ⟨u, hu, hlt, hlog, hstart⟩ := hbd
        exact ⟨u, Finset.mem_insert_of_mem hu, hlt, hlog, hstart⟩
    · rintro ⟨u, hu, hlt, hlog, hstart⟩
      rcases Finset.mem_insert.mp hu with rfl | hu
      · rw [← hlog, Function.update_self, hstart]
        exact List.mem_cons_self
      · have hmem : bd ∈ s.freeList ln := (h.mem_free ln bd).mpr ⟨u, hu, hlt, hlog, hstart⟩
        by_cases hln : ln = log2 g.size
        · rw [hln, Function.update_self]
          exact List.mem_cons_of_mem _ (hln ▸ hmem)
        · rw [Function.update_of_ne hln]
          exact hmem
  · rw [hfree]
    by_cases hln : ln = log2 g.size
    · rw [hln, Function.update_self, List.nodup_cons]
      refine ⟨fun hmem => ?_, h.nodup _⟩
      obtain ⟨u, hu, -, -, hstart⟩ := (h.mem_free _ _).mp hmem
      exact hnew u hu hstart
    · rw [Function.update_of_ne hln]
      exact h.nodup ln
  · rw [hmblock, h.mem_mblock]
    constructor
    · rintro ⟨u, hu, hge, hstart⟩
      exact ⟨u, Finset.mem_insert_of_mem hu, hge, hstart⟩
    · rintro ⟨u, hu, hge, hstart⟩
      rcases Finset.mem_insert.mp hu with rfl | hu
      · exact absurd hge (Nat.not_le.mpr hsmall)
      · exact ⟨u, hu, hge, hstart⟩

/-- Only groups of whole megablocks come and go. -/
theorem ListsOk.mega (h : ListsOk L s F) {F' : Finset Group}
    (hsmall : ∀ u, u.size < L.blocksPerMBlock → (u ∈ F' ↔ u ∈ F))
    (hfree : s'.freeList = s.freeList)
    (hmem : ∀ bd, bd ∈ s'.freeMBlockList ↔ ∃ u ∈ F', L.blocksPerMBlock ≤ u.size ∧ u.start = bd)
    (hsorted : s'.freeMBlockList.Pairwise (· < ·)) : ListsOk L s' F' := by
  refine ⟨fun ln bd => ?_, fun ln => hfree ▸ h.nodup ln, hmem, hsorted⟩
  rw [hfree, h.mem_free]
  constructor
  · rintro ⟨u, hu, hlt, hrest⟩
    exact ⟨u, (hsmall u hlt).mpr hu, hlt, hrest⟩
  · rintro ⟨u, hu, hlt, hrest⟩
    exact ⟨u, (hsmall u hlt).mp hu, hlt, hrest⟩

/-- A group of megablocks leaves its list. -/
theorem ListsOk.unlinkMega (h : ListsOk L s F)
    (hinj : ∀ u ∈ F, ∀ v ∈ F, u.start = v.start → u = v) (hg : g ∈ F)
    (hmega : L.blocksPerMBlock ≤ g.size) (hfree : s'.freeList = s.freeList)
    (hmblock : s'.freeMBlockList = s.freeMBlockList.erase g.start) : ListsOk L s' (F.erase g) := by
  have hnodup : s.freeMBlockList.Nodup := h.sorted.imp Nat.ne_of_lt
  refine h.mega (fun u hlt => ?_) hfree (fun bd => ?_) ?_
  · rw [Finset.mem_erase]
    refine ⟨fun hu => hu.2, fun hu => ⟨?_, hu⟩⟩
    rintro rfl
    exact absurd hlt (Nat.not_lt.mpr hmega)
  · rw [hmblock, hnodup.mem_erase_iff, h.mem_mblock]
    constructor
    · rintro ⟨hbd, u, hu, hge, hstart⟩
      refine ⟨u, Finset.mem_erase.mpr ⟨?_, hu⟩, hge, hstart⟩
      rintro rfl
      exact hbd hstart.symm
    · rintro ⟨u, hu, hge, hstart⟩
      obtain ⟨hne, hu⟩ := Finset.mem_erase.mp hu
      exact ⟨fun hbd => hne (hinj u hu g hg (hstart.trans hbd)), u, hu, hge, hstart⟩
  · rw [hmblock]
    exact h.sorted.sublist List.erase_sublist

end HosBoot.Rts
