/-
  Rts/BlockReturn.lean --- `returnMemoryToOS`.

  The loop gives free megablocks back, group by group, until it has given what was asked for.
-/
import HosBoot.Rts.BlockCalls

set_option autoImplicit false

namespace HosBoot.Rts

open HosBoot.Foundation

variable {L : BlockSizes} {s s' : BlockModel} {T T' : Finset Group} {g u : Group}

/-! ## Returning memory -/

/-- What a client sees when free megablocks go back to the operating system: nothing; and they
are `n` megablocks, or all the free ones. -/
structure Returns (L : BlockSizes) (s : BlockModel) (T : Finset Group) (n : Nat)
    (s' : BlockModel) (T' : Finset Group) : Prop where
  settled : Settled L s' T'
  evolves : Evolves s T s' T'
  map : MapCounted s → MapCounted s'
  count : MapCounted s → ∃ k, k ≤ n ∧ s'.mblocksAllocated + k = s.mblocksAllocated ∧
    (k = n ∨ s'.freeMBlockList = [])

/-- All the megablocks of a tile are the allocator's. -/
theorem Placed.mblock_owned (h : Placed L s T) (hg : g ∈ T) (hmega : L.blocksPerMBlock ≤ g.size)
    {i : Nat} (hi : i < g.size / L.blocksPerMBlock) :
    s.heapAlloced (g.start / L.blocksPerMBlock + i) = true := by
  have hG := h.mega hg hmega
  have hhas : g.Has ((g.start / L.blocksPerMBlock + i) * L.blocksPerMBlock) := by
    rw [hG.has_iff, mul_div_perMBlock]
    omega
  have howned : Owned L s _ := (h.tiles.cover _).mpr ⟨g, hg, hhas⟩
  unfold Owned at howned
  rw [mul_div_perMBlock] at howned
  exact howned

/-- The front of a group of megablocks. -/
def megaFront (L : BlockSizes) (g : Group) (j : Nat) : Group :=
  ⟨g.start, j * L.blocksPerMBlock, .free⟩

theorem megaFront_keeps (hG : Mega L g) {j : Nat} (hjpos : 0 < j)
    (hj : j < g.size / L.blocksPerMBlock) : Keeps L g (megaFront L g j) {megaFront L g j} := by
  have hlt := Nat.mul_lt_mul_of_pos_right hj L.perMBlock_pos
  rw [← hG.size_eq] at hlt
  exact ⟨rfl, ⟨hG.first, Nat.le_mul_of_pos_left _ hjpos, Nat.mul_mod_left _ _⟩, rfl, hlt,
    Finset.mem_singleton_self _, fun u hu _ => Finset.mem_singleton.mp hu⟩

/-- What the allocator has when only the front of a free group is left. -/
theorem owned_front (h : Placed L s T) (hg : g ∈ T) (hG : Mega L g) {j : Nat} (hjpos : 0 < j)
    (hj : j < g.size / L.blocksPerMBlock)
    (hmap : ∀ m, s'.heapAlloced m =
      if g.start / L.blocksPerMBlock + j ≤ m ∧
          m < g.start / L.blocksPerMBlock + j + (g.size / L.blocksPerMBlock - j) then false
      else s.heapAlloced m) (a : Nat) :
    Owned L s' a ↔ (Owned L s a ∧ ¬ g.Has a) ∨ (megaFront L g j).Has a := by
  have hcover := h.tiles.cover a
  have hspan : (megaFront L g j).Has a ↔ g.start / L.blocksPerMBlock ≤ a / L.blocksPerMBlock ∧
      a / L.blocksPerMBlock < g.start / L.blocksPerMBlock + j := by
    rw [(megaFront_keeps hG hjpos hj).mega.has_iff]
    simp only [megaFront, mul_div_perMBlock]
  rw [hspan, hG.has_iff]
  unfold Owned
  rw [hmap]
  by_cases hgone : g.start / L.blocksPerMBlock + j ≤ a / L.blocksPerMBlock ∧
      a / L.blocksPerMBlock < g.start / L.blocksPerMBlock + j + (g.size / L.blocksPerMBlock - j)
  · rw [if_pos hgone]
    constructor
    · intro hfalse
      cases hfalse
    · rintro (⟨-, hnot⟩ | hin)
      · exact absurd (by omega) hnot
      · omega
  · rw [if_neg hgone]
    constructor
    · intro howned
      by_cases hin : g.start / L.blocksPerMBlock ≤ a / L.blocksPerMBlock ∧
          a / L.blocksPerMBlock < g.start / L.blocksPerMBlock + g.size / L.blocksPerMBlock
      · exact .inr (by omega)
      · exact .inl ⟨howned, hin⟩
    · rintro (⟨howned, -⟩ | hin)
      · exact howned
      · refine hcover.mpr ⟨g, hg, ?_⟩
        rw [hG.has_iff]
        omega

/-- The end of a group of megablocks goes back to the operating system: the first `j` megablocks
stay. -/
theorem shrink_spec (h : Settled L s T) (hg : g ∈ T) (hfree : g.label = .free)
    (hmega : L.blocksPerMBlock ≤ g.size) {j : Nat} (hjpos : 0 < j)
    (hj : j < g.size / L.blocksPerMBlock)
    (hs' : s' = { (s.setBlocks g.start (L.mblockGroupBlocks j)).freeMBlocks
        (g.start / L.blocksPerMBlock + j) (g.size / L.blocksPerMBlock - j) with
      freeMBlockList := s.freeMBlockList }) :
    ∃ T', Settled L s' T' ∧ Evolves s T s' T' := by
  have hplaced := h.placed
  have hG := hplaced.mega hg hmega
  have hkeeps := megaFront_keeps hG hjpos hj
  have hhead : s'.bdescr g.start =
      { s.bdescr g.start with blocks := L.mblockGroupBlocks j, link := none } := by
    rw [hs']
    show (s.setBlocks g.start (L.mblockGroupBlocks j)).bdescr g.start = _
    exact setDescr_self _ _ _
  have hsame : ∀ a, a ≠ g.start → s'.bdescr a = s.bdescr a := by
    intro a ha
    rw [hs']
    show (s.setBlocks g.start (L.mblockGroupBlocks j)).bdescr a = _
    exact setDescr_other _ ha
  have htouches : Touches L s s' {g} := by
    refine ⟨fun a _ hnone => hsame a ?_, by rw [hs']; rfl, by rw [hs']; rfl⟩
    rintro rfl
    exact hnone g (Finset.mem_singleton_self g) (Tile.has_start (hplaced.tiles.pos g hg))
  have howned : ∀ a, Owned L s' a ↔ (Owned L s a ∧ ¬ g.Has a) ∨ (megaFront L g j).Has a :=
    owned_front hplaced hg hG hjpos hj fun m => by rw [hs']; rfl
  have hfrontOk := (hplaced.groups g hg).resize hfree hG hkeeps.mega rfl rfl
    (by rw [show (megaFront L g j).size = j * L.blocksPerMBlock from rfl, mul_div_perMBlock]
        exact hhead) fun a ha _ => hsame a ha
  refine ⟨exchange T {g} {megaFront L g j}, ⟨?_, fun x hx => ?_, hkeeps.smallApart h.small,
    hkeeps.megaApart h hg hfree hmega⟩,
    hplaced.evolves (Finset.singleton_subset_iff.mpr hg) htouches (by simp [hfree])
      (by simp [megaFront])⟩
  · refine hplaced.exchange (Finset.singleton_subset_iff.mpr hg)
      (Tiles.single (t := megaFront L g j) (Nat.mul_pos hjpos L.perMBlock_pos)) (fun a ha _ => ?_)
      (fun a => ?_) htouches (fun x hx => ?_)
      (hkeeps.lists hplaced.lists hg hfree hmega (by rw [hs']; rfl) (by rw [hs']))
    · refine ⟨g, Finset.mem_singleton_self g, ha.1, Nat.lt_trans ha.2 ?_⟩
      exact Nat.add_lt_add_left hkeeps.lt _
    · rw [howned a]
      simp only [Finset.mem_singleton, exists_eq_left]
    · rw [Finset.mem_singleton.mp hx]
      exact hfrontOk
  · rcases mem_exchange.mp hx with ⟨hxT, -⟩ | hxA
    · exact h.noHand x hxT
    · rw [Finset.mem_singleton.mp hxA]
      simp [megaFront]

/-- What the allocator has when a group is gone. -/
theorem owned_gone (hG : Mega L g)
    (hmap : ∀ m, s'.heapAlloced m =
      if g.start / L.blocksPerMBlock ≤ m ∧
          m < g.start / L.blocksPerMBlock + g.size / L.blocksPerMBlock then false
      else s.heapAlloced m) (a : Nat) : Owned L s' a ↔ Owned L s a ∧ ¬ g.Has a := by
  rw [hG.has_iff]
  unfold Owned
  rw [hmap]
  by_cases hin : g.start / L.blocksPerMBlock ≤ a / L.blocksPerMBlock ∧
      a / L.blocksPerMBlock < g.start / L.blocksPerMBlock + g.size / L.blocksPerMBlock
  · rw [if_pos hin]
    simp [hin]
  · rw [if_neg hin]
    simp [hin]

/-- A whole group goes back to the operating system. -/
theorem drop_spec (h : Settled L s T) (hg : g ∈ T) (hfree : g.label = .free)
    (hmega : L.blocksPerMBlock ≤ g.size) {rest : List Nat}
    (hlist : s.freeMBlockList = g.start :: rest)
    (hs' : s' = { s.freeMBlocks (g.start / L.blocksPerMBlock) (g.size / L.blocksPerMBlock) with
      freeMBlockList := rest }) :
    ∃ T', Settled L s' T' ∧ Evolves s T s' T' := by
  have hplaced := h.placed
  have htouches : Touches L s s' {g} :=
    ⟨fun a _ _ => by rw [hs']; rfl, by rw [hs']; rfl, by rw [hs']; rfl⟩
  have hfrees : held .free (exchange T {g} ∅) = (held .free T).erase g :=
    held_exchange_erase (by simp)
  have hsub : ∀ x ∈ held .free (exchange T {g} ∅), x ∈ held .free T := by
    rw [hfrees]
    exact fun x hx => Finset.mem_of_mem_erase hx
  have hlists : ListsOk L s' (held .free (exchange T {g} ∅)) := by
    rw [hfrees]
    refine hplaced.lists.unlinkMega hplaced.free_inj (mem_held.mpr ⟨hg, hfree⟩)
      hmega (by rw [hs']; rfl) ?_
    rw [hs', hlist, List.erase_cons_head]
  refine ⟨exchange T {g} ∅, ⟨?_, fun x hx => ?_, h.small.mono fun x hx _ => hsub x hx,
    h.mega.mono fun x hx _ => hsub x hx⟩,
    hplaced.evolves (Finset.singleton_subset_iff.mpr hg) htouches (by simp [hfree]) (by simp)⟩
  · refine hplaced.exchange (Finset.singleton_subset_iff.mpr hg) Tiles.empty
      (fun a ha _ => ha.elim) (fun a => ?_) htouches
      (fun x hx => absurd hx (Finset.notMem_empty x)) hlists
    rw [owned_gone (hplaced.mega hg hmega) fun m => by rw [hs']; rfl]
    simp
  · rcases mem_exchange.mp hx with ⟨hxT, -⟩ | hxA
    · exact h.noHand x hxT
    · exact absurd hxA (Finset.notMem_empty x)

/-- What the loop reads in the head of a group. -/
theorem Placed.mega_reads (h : Placed L s T) (hg : g ∈ T) (hmega : L.blocksPerMBlock ≤ g.size) :
    L.blocksToMBlocks (s.bdescr g.start).blocks = g.size / L.blocksPerMBlock ∧
      L.mblockOfBlock (s.bdescr g.start).start = g.start / L.blocksPerMBlock := by
  refine ⟨h.toMBlocks hg hmega, ?_⟩
  rw [(h.groups g hg).starts _ (Tile.has_start (h.tiles.pos g hg)) rfl]
  exact L.mblockOfBlock_blockAt g.start

/-- The end of a group is enough. -/
theorem shrink_returns {rest : List Nat} (h : Settled L { s with freeMBlockList := g.start :: rest } T)
    (hg : g ∈ T) (hfree : g.label = .free) (hmega : L.blocksPerMBlock ≤ g.size) {n : Nat}
    (hn : n ≠ 0) (hlarge : n < g.size / L.blocksPerMBlock) :
    ∃ T', Returns L { s with freeMBlockList := g.start :: rest } T n
      (s.returnLoop L n (g.start :: rest)) T' := by
  obtain ⟨j, hj⟩ : ∃ j, j = g.size / L.blocksPerMBlock - n := ⟨_, rfl⟩
  have hback : g.size / L.blocksPerMBlock - j = n := by omega
  obtain ⟨hsize, hmblock⟩ := h.placed.mega_reads hg hmega
  obtain ⟨T', hsettled, hevolves⟩ := shrink_spec h hg hfree hmega (j := j) (by omega)
    (by omega) rfl
  rw [hback] at hsettled hevolves
  rw [BlockModel.returnLoop_end L (s := s) hn hsize hmblock hlarge, ← hj]
  have howned : ∀ i, i < n → s.heapAlloced (g.start / L.blocksPerMBlock + j + i) = true := by
    intro i hi
    rw [Nat.add_assoc]
    exact h.placed.mblock_owned hg hmega (by omega)
  have hfreed : MapCounted s → MapCounted (s.freeMBlocks (g.start / L.blocksPerMBlock + j) n) :=
    fun hcount => hcount.freeMBlocks howned
  refine ⟨T', hsettled, hevolves, fun hcount => (hfreed (hcount.congr ⟨rfl, rfl⟩)).congr
    ⟨rfl, rfl⟩, fun hcount => ⟨n, Nat.le_refl n, ?_, .inl rfl⟩⟩
  exact Nat.sub_add_cancel (hcount.le_count howned)

/-- A whole group goes, and the loop goes on. -/
theorem drop_returns {rest : List Nat} (h : Settled L { s with freeMBlockList := g.start :: rest } T)
    (hg : g ∈ T) (hmega : L.blocksPerMBlock ≤ g.size) {n : Nat} (hn : n ≠ 0)
    (hle : g.size / L.blocksPerMBlock ≤ n) {T₁ : Finset Group}
    (hevolves : Evolves { s with freeMBlockList := g.start :: rest } T
      { s.freeMBlocks (g.start / L.blocksPerMBlock) (g.size / L.blocksPerMBlock) with
        freeMBlockList := rest } T₁)
    (hnext : ∃ T', Returns L
      { s.freeMBlocks (g.start / L.blocksPerMBlock) (g.size / L.blocksPerMBlock) with
        freeMBlockList := rest } T₁ (n - g.size / L.blocksPerMBlock)
      ((s.freeMBlocks (g.start / L.blocksPerMBlock) (g.size / L.blocksPerMBlock)).returnLoop L
        (n - g.size / L.blocksPerMBlock) rest) T') :
    ∃ T', Returns L { s with freeMBlockList := g.start :: rest } T n
      (s.returnLoop L n (g.start :: rest)) T' := by
  obtain ⟨T', hreturns⟩ := hnext
  obtain ⟨hsize, hmblock⟩ := h.placed.mega_reads hg hmega
  rw [BlockModel.returnLoop_whole L (s := s) hn hsize hmblock hle]
  have howned : ∀ i, i < g.size / L.blocksPerMBlock →
      s.heapAlloced (g.start / L.blocksPerMBlock + i) = true := fun i hi =>
    h.placed.mblock_owned hg hmega hi
  have hfreed : MapCounted s → MapCounted
      (s.freeMBlocks (g.start / L.blocksPerMBlock) (g.size / L.blocksPerMBlock)) :=
    fun hcount => hcount.freeMBlocks howned
  refine ⟨T', hreturns.settled, hevolves.trans hreturns.evolves,
    fun hcount => hreturns.map ((hfreed (hcount.congr ⟨rfl, rfl⟩)).congr ⟨rfl, rfl⟩),
    fun hcount => ?_⟩
  obtain ⟨k, hk, hcountEq, hend⟩ :=
    hreturns.count ((hfreed (hcount.congr ⟨rfl, rfl⟩)).congr ⟨rfl, rfl⟩)
  refine ⟨k + g.size / L.blocksPerMBlock, by omega, ?_, hend.imp (fun heq => by omega) id⟩
  have hfits : g.size / L.blocksPerMBlock ≤ s.mblocksAllocated := hcount.le_count howned
  have hcountEq : _ + k = s.mblocksAllocated - g.size / L.blocksPerMBlock := hcountEq
  show _ = s.mblocksAllocated
  omega

/-- The loop of `returnMemoryToOS` over the groups that are left on the list. -/
theorem returnLoop_spec (rest : List Nat) {s : BlockModel} {T : Finset Group} {n : Nat}
    (h : Settled L { s with freeMBlockList := rest } T) :
    ∃ T', Returns L { s with freeMBlockList := rest } T n (s.returnLoop L n rest) T' := by
  induction rest generalizing s T n with
  | nil =>
    exact ⟨T, h, Evolves.refl _ T, fun hcount => hcount,
      fun _ => ⟨0, Nat.zero_le n, rfl, .inr rfl⟩⟩
  | cons bd rest ih =>
    by_cases hdone : n = 0
    · have hresult : s.returnLoop L n (bd :: rest) = { s with freeMBlockList := bd :: rest } := by
        rw [BlockModel.returnLoop, if_pos hdone]
      rw [hresult]
      exact ⟨T, h, Evolves.refl _ T, fun hcount => hcount,
        fun _ => ⟨0, Nat.zero_le n, rfl, .inl hdone.symm⟩⟩
    obtain ⟨g, hg, hmega, rfl⟩ := (h.placed.lists.mem_mblock bd).mp List.mem_cons_self
    obtain ⟨hgT, hgfree⟩ := mem_held.mp hg
    by_cases hlarge : n < g.size / L.blocksPerMBlock
    · exact shrink_returns h hgT hgfree hmega hdone hlarge
    · obtain ⟨T₁, hsettled, hevolves⟩ := drop_spec h hgT hgfree hmega rfl rfl
      exact drop_returns h hgT hmega hdone (Nat.not_lt.mp hlarge) hevolves (ih hsettled)

/-- No megablock is added. -/
theorem returnLoop_heapAlloced (rest : List Nat) {s : BlockModel} {n m : Nat}
    (h : (s.returnLoop L n rest).heapAlloced m = true) : s.heapAlloced m = true := by
  have hfree : ∀ {s : BlockModel} {k p : Nat}, (s.freeMBlocks p k).heapAlloced m = true →
      s.heapAlloced m = true := by
    intro s k p hm
    unfold BlockModel.freeMBlocks at hm
    by_cases hin : p ≤ m ∧ m < p + k
    · simp [hin] at hm
    · simpa [hin] using hm
  induction rest generalizing s n with
  | nil => exact h
  | cons bd rest ih =>
    rw [BlockModel.returnLoop] at h
    by_cases hdone : n = 0
    · rw [if_pos hdone] at h
      exact h
    · rw [if_neg hdone] at h
      by_cases hlarge : L.blocksToMBlocks (s.bdescr bd).blocks > n
      · rw [if_pos hlarge] at h
        exact hfree (s := s.setBlocks bd _) h
      · rw [if_neg hlarge] at h
        exact hfree (ih h)

/-- `returnMemoryToOS` gives back `n` free megablocks, or all there are. -/
theorem returnMemoryToOS_spec (h : Settled L s T) (n : Nat) :
    ∃ T', Returns L s T n (s.returnMemoryToOS L n) T' :=
  returnLoop_spec s.freeMBlockList h

end HosBoot.Rts
