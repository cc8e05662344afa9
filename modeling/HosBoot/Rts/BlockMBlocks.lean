/-
  Rts/BlockMBlocks.lean --- megablock groups: finding one, new memory, returning memory.

  `alloc_mega_group` looks for an exact fit, then for a best fit, whose end it takes, and
  asks the operating system only when every free group of megablocks is too small.
-/
import Mathlib.Order.Interval.Finset.Nat
import HosBoot.Rts.BlockTake

set_option autoImplicit false

namespace HosBoot.Rts

open HosBoot.Foundation

variable {L : BlockSizes} {s s' : BlockModel} {T T' : Finset Group} {g t u : Group}

/-! ## The search -/

/-- What the search ends with: an exact fit, a smallest larger group, or nothing, and then
every group is too small. -/
def FitOk (bdescr : Nat → ModelDescr) (n : Nat) (searched : Nat → Prop) :
    BlockModel.MegaFit → Prop
  | .exact bd => searched bd ∧ (bdescr bd).blocks = n
  | .best bd => searched bd ∧ n < (bdescr bd).blocks ∧
      ∀ x, searched x → (bdescr x).blocks < n ∨ (bdescr bd).blocks ≤ (bdescr x).blocks
  | .nothing => ∀ x, searched x → (bdescr x).blocks < n

theorem megaFit_cons (bdescr : Nat → ModelDescr) (n bd : Nat) (rest : List Nat) (best : Option Nat) :
    BlockModel.megaFit bdescr n (bd :: rest) best =
      if (bdescr bd).blocks = n then .exact bd
      else if (bdescr bd).blocks > n then
        match best with
        | none => BlockModel.megaFit bdescr n rest (some bd)
        | some b =>
          if (bdescr bd).blocks < (bdescr b).blocks then
            BlockModel.megaFit bdescr n rest (some bd)
          else BlockModel.megaFit bdescr n rest (some b)
      else BlockModel.megaFit bdescr n rest best := by
  cases best <;> rfl

theorem megaFit_spec (bdescr : Nat → ModelDescr) (n : Nat) (rest : List Nat) (best : Option Nat)
    (seen : Nat → Prop)
    (hbest : match best with
      | some b => FitOk bdescr n seen (.best b)
      | none => FitOk bdescr n seen .nothing) :
    FitOk bdescr n (fun x => seen x ∨ x ∈ rest) (BlockModel.megaFit bdescr n rest best) := by
  induction rest generalizing best seen with
  | nil =>
    have hsame : (fun x => seen x ∨ x ∈ ([] : List Nat)) = seen := by
      funext x
      simp
    rw [hsame]
    cases best with
    | none => exact hbest
    | some b => exact hbest
  | cons bd rest ih =>
    have hshift : (fun x => seen x ∨ x ∈ bd :: rest) =
        fun x => (seen x ∨ x = bd) ∨ x ∈ rest := by
      funext x
      simp only [List.mem_cons]
      exact propext or_assoc.symm
    rw [hshift, megaFit_cons]
    by_cases hexact : (bdescr bd).blocks = n
    · rw [if_pos hexact]
      exact ⟨.inl (.inr rfl), hexact⟩
    rw [if_neg hexact]
    by_cases hlarge : (bdescr bd).blocks > n
    · rw [if_pos hlarge]
      cases best with
      | none =>
        refine ih (some bd) _ ⟨.inr rfl, hlarge, fun x hx => ?_⟩
        rcases hx with hx | rfl
        · exact .inl (hbest x hx)
        · exact .inr (Nat.le_refl _)
      | some b =>
        obtain ⟨hb, hbn, hleast⟩ := hbest
        by_cases hless : (bdescr bd).blocks < (bdescr b).blocks
        · simp only [if_pos hless]
          refine ih (some bd) _ ⟨.inr rfl, hlarge, fun x hx => ?_⟩
          rcases hx with hx | rfl
          · rcases hleast x hx with hlt | hle
            · exact .inl hlt
            · exact .inr (Nat.le_trans (Nat.le_of_lt hless) hle)
          · exact .inr (Nat.le_refl _)
        · simp only [if_neg hless]
          refine ih (some b) _ ⟨.inl hb, hbn, fun x hx => ?_⟩
          rcases hx with hx | rfl
          · exact hleast x hx
          · exact .inr (Nat.not_lt.mp hless)
    · rw [if_neg hlarge]
      have hsmall : (bdescr bd).blocks < n := by omega
      cases best with
      | none =>
        refine ih none _ fun x hx => ?_
        rcases hx with hx | rfl
        · exact hbest x hx
        · exact hsmall
      | some b =>
        obtain ⟨hb, hbn, hleast⟩ := hbest
        refine ih (some b) _ ⟨.inl hb, hbn, fun x hx => ?_⟩
        rcases hx with hx | rfl
        · exact hleast x hx
        · exact .inl hsmall

/-- The search over the list of free megablock groups. -/
theorem megaFit_list (s : BlockModel) (n : Nat) :
    FitOk s.bdescr n (· ∈ s.freeMBlockList)
      (BlockModel.megaFit s.bdescr n s.freeMBlockList none) := by
  have hfit := megaFit_spec s.bdescr n s.freeMBlockList none (fun _ => False)
    (fun x hx => hx.elim)
  have hsame : (fun x => False ∨ x ∈ s.freeMBlockList) = (· ∈ s.freeMBlockList) := by
    funext x
    simp
  rw [hsame] at hfit
  exact hfit

/-! ## The megablock map -/

/-- The map and the counter of sm/MBlock.c agree. -/
def MapCounted (s : BlockModel) : Prop :=
  ∃ M : Finset Nat, (∀ m, s.heapAlloced m = true ↔ m ∈ M) ∧ s.mblocksAllocated = M.card

theorem MapCounted.congr (h : MapCounted s) (hsame : SameMBlocks s s') : MapCounted s' := by
  obtain ⟨M, hmap, hcount⟩ := h
  exact ⟨M, fun m => by rw [hsame.map, hmap], by rw [hsame.count, hcount]⟩

theorem MapCounted.getMBlocks (h : MapCounted s) {k fresh : Nat}
    (hfresh : ∀ i, i < k → s.heapAlloced (fresh + i) = false) :
    MapCounted (s.getMBlocks k fresh) := by
  obtain ⟨M, hmap, hcount⟩ := h
  refine ⟨M ∪ Finset.Ico fresh (fresh + k), fun m => ?_, ?_⟩
  · rw [Finset.mem_union, Finset.mem_Ico, ← hmap]
    unfold BlockModel.getMBlocks
    by_cases hm : fresh ≤ m ∧ m < fresh + k
    · simp [hm]
    · simp [hm]
  · have hdisjoint : Disjoint M (Finset.Ico fresh (fresh + k)) := by
      rw [Finset.disjoint_right]
      intro m hm hM
      obtain ⟨hle, hlt⟩ := Finset.mem_Ico.mp hm
      have hfalse := hfresh (m - fresh) (by omega)
      rw [Nat.add_sub_cancel' hle, ← Bool.not_eq_true, hmap] at hfalse
      exact hfalse hM
    rw [Finset.card_union_of_disjoint hdisjoint, Nat.card_Ico, ← hcount]
    show s.mblocksAllocated + k = _
    omega

/-- Megablocks in the map are counted. -/
theorem MapCounted.le_count (h : MapCounted s) {k m : Nat}
    (howned : ∀ i, i < k → s.heapAlloced (m + i) = true) : k ≤ s.mblocksAllocated := by
  obtain ⟨M, hmap, hcount⟩ := h
  have hsub : Finset.Ico m (m + k) ⊆ M := by
    intro x hx
    obtain ⟨hle, hlt⟩ := Finset.mem_Ico.mp hx
    have htrue := howned (x - m) (by omega)
    rw [Nat.add_sub_cancel' hle, hmap] at htrue
    exact htrue
  have hle := Finset.card_le_card hsub
  rw [Nat.card_Ico, Nat.add_sub_cancel_left] at hle
  exact hcount ▸ hle

theorem MapCounted.freeMBlocks (h : MapCounted s) {k m : Nat}
    (howned : ∀ i, i < k → s.heapAlloced (m + i) = true) : MapCounted (s.freeMBlocks m k) := by
  obtain ⟨M, hmap, hcount⟩ := h
  refine ⟨M \ Finset.Ico m (m + k), fun x => ?_, ?_⟩
  · rw [Finset.mem_sdiff, Finset.mem_Ico, ← hmap]
    unfold BlockModel.freeMBlocks
    by_cases hx : m ≤ x ∧ x < m + k
    · simp [hx]
    · simp [hx]
  · have hsub : Finset.Ico m (m + k) ⊆ M := by
      intro x hx
      obtain ⟨hle, hlt⟩ := Finset.mem_Ico.mp hx
      have htrue := howned (x - m) (by omega)
      rw [Nat.add_sub_cancel' hle, hmap] at htrue
      exact htrue
    rw [Finset.card_sdiff_of_subset hsub, Nat.card_Ico, ← hcount]
    show s.mblocksAllocated - k = _
    omega

/-! ## `alloc_mega_group` -/

/-- `initGroup` on a group that stays in hand. -/
theorem initGroup_hand (h : InHand L s T g) :
    InHand L (s.initGroup L g.start) T g ∧ Reaches s T (s.initGroup L g.start) T := by
  have hok := h.placed.groups g h.mem
  have hpos := h.placed.tiles.pos g h.mem
  have htouches := initGroup_touches h.mem h.placed
  have hplaced : Placed L (s.initGroup L g.start) (exchange T {g} {g.to .hand}) := by
    refine h.placed.relabel h.mem ⟨rfl, rfl⟩ htouches
      (initGroup_ok hok.shape hok.blocks hok.starts .hand (by decide)) ?_
    rw [held_exchange_other (by simp [h.label]) (by simp)]
    exact h.placed.lists.congr rfl rfl
  have hevolves := h.placed.evolves (A := {g}) (Finset.singleton_subset_iff.mpr h.mem) htouches
    (by simp [h.label]) (by simp [h.label])
  rw [Group.to_self h.label, exchange_self h.mem] at hplaced
  rw [exchange_self h.mem] at hevolves
  exact ⟨⟨hplaced, h.mem, h.label, h.only, h.small, h.mega⟩, hevolves, ⟨rfl, rfl⟩⟩

/-! ## The front of a free group -/

/-- A free group of megablocks gives way to groups of which only its front is free. -/
structure Keeps (L : BlockSizes) (g front : Group) (A : Finset Group) : Prop where
  start : front.start = g.start
  mega : Mega L front
  free : front.label = .free
  lt : front.size < g.size
  mem : front ∈ A
  only : ∀ u ∈ A, u.label = .free → u = front

namespace Keeps

variable {front : Group} {A : Finset Group}

theorem held (h : Keeps L g front A) {x : Group} :
    x ∈ held .free (exchange T {g} A) ↔ (x ∈ held .free T ∧ x ≠ g) ∨ x = front := by
  simp only [mem_held, mem_exchange, Finset.mem_singleton]
  constructor
  · rintro ⟨⟨hxT, hne⟩ | hxA, hxfree⟩
    · exact .inl ⟨⟨hxT, hxfree⟩, hne⟩
    · exact .inr (h.only x hxA hxfree)
  · rintro (⟨⟨hxT, hxfree⟩, hne⟩ | rfl)
    · exact ⟨.inl ⟨hxT, hne⟩, hxfree⟩
    · exact ⟨.inr h.mem, h.free⟩

theorem smallApart (h : Keeps L g front A) (hsmall : SmallApart L T) :
    SmallApart L (exchange T {g} A) := by
  refine hsmall.mono fun x hx hlt => ?_
  rcases h.held.mp hx with ⟨hx, -⟩ | rfl
  · exact hx
  · exact absurd h.mega.ge (Nat.not_le.mpr hlt)

/-- The front has the group's neighbour before it, and no free one behind it. -/
theorem megaApart (h : Keeps L g front A) (hs : Settled L s T) (hg : g ∈ T)
    (hfree : g.label = .free) (hmega : L.blocksPerMBlock ≤ g.size) :
    MegaApart L (exchange T {g} A) := by
  have htiles := hs.placed.tiles
  have hgF : g ∈ Rts.held .free T := mem_held.mpr ⟨hg, hfree⟩
  have hlt := h.lt
  have hpos : 0 < front.size := Nat.lt_of_lt_of_le L.perMBlock_pos h.mega.ge
  intro x hx y hy hnext hxmega hymega
  rcases h.held.mp hx with ⟨hxT, -⟩ | rfl <;> rcases h.held.mp hy with ⟨hyT, hyg⟩ | rfl
  · exact hs.mega x hxT y hyT hnext hxmega hymega
  · exact hs.mega x hxT g hgF (h.start.symm.trans hnext) hxmega hmega
  · have hyT := (mem_held.mp hyT).1
    refine hyg (htiles.apart y hyT g hg y.start (Tile.has_start (htiles.pos y hyT)) ?_)
    rw [hnext]
    unfold Tile.Has Tile.stop
    rw [h.start]
    omega
  · unfold Tile.stop at hnext
    omega

/-- The group's place on `free_mblock_list` is the front's. -/
theorem lists (h : Keeps L g front A) (hlists : ListsOk L s (Rts.held .free T)) (hg : g ∈ T)
    (hfree : g.label = .free) (hmega : L.blocksPerMBlock ≤ g.size)
    (hsmalls : s'.freeList = s.freeList) (hmegas : s'.freeMBlockList = s.freeMBlockList) :
    ListsOk L s' (Rts.held .free (exchange T {g} A)) := by
  refine hlists.mega (fun x hlt => ⟨fun hx => ?_, fun hx => h.held.mpr (.inl ⟨hx, ?_⟩)⟩) hsmalls
    (fun bd => ?_) (hmegas ▸ hlists.sorted)
  · rcases h.held.mp hx with ⟨hx, -⟩ | rfl
    · exact hx
    · exact absurd h.mega.ge (Nat.not_le.mpr hlt)
  · rintro rfl
    exact absurd hmega (Nat.not_le.mpr hlt)
  · rw [hmegas, hlists.mem_mblock]
    constructor
    · rintro ⟨x, hx, hge, hstart⟩
      by_cases hxg : x = g
      · exact ⟨front, h.held.mpr (.inr rfl), h.mega.ge, by rw [h.start, ← hxg, hstart]⟩
      · exact ⟨x, h.held.mpr (.inl ⟨hx, hxg⟩), hge, hstart⟩
    · rintro ⟨x, hx, hge, hstart⟩
      rcases h.held.mp hx with ⟨hx, -⟩ | rfl
      · exact ⟨x, hx, hge, hstart⟩
      · exact ⟨g, mem_held.mpr ⟨hg, hfree⟩, hmega, h.start.symm.trans hstart⟩

end Keeps

/-! ## The end of a larger group -/

/-- The descriptors after the end of a group of megablocks has been cut off: `j` megablocks stay,
and `k` are the new group. -/
structure CutEnd (L : BlockSizes) (s s' : BlockModel) (g : Group) (j k : Nat) : Prop where
  same : ∀ a, a ≠ g.start → a / L.blocksPerMBlock ≠ g.start / L.blocksPerMBlock + j →
    s'.bdescr a = s.bdescr a
  front : s'.bdescr g.start =
    { s.bdescr g.start with blocks := L.mblockGroupBlocks j, link := none }
  blocks : (s'.bdescr (g.start + j * L.blocksPerMBlock)).blocks = L.mblockGroupBlocks k
  starts : ∀ a, a / L.blocksPerMBlock = g.start / L.blocksPerMBlock + j →
    (s'.bdescr a).start = L.blockAt a

/-- The stores of `alloc_mega_group`. -/
theorem cutEnd_stores {j k : Nat} (hjpos : 0 < j)
    (hs' : s' = ((s.setBlocks g.start (L.mblockGroupBlocks j)).initMBlock L
      (g.start / L.blocksPerMBlock + j)).setBlocks (g.start + j * L.blocksPerMBlock)
        (L.mblockGroupBlocks k)) : CutEnd L s s' g j k := by
  have hjbpos : 0 < j * L.blocksPerMBlock := Nat.mul_pos hjpos L.perMBlock_pos
  have hne : g.start ≠ g.start + j * L.blocksPerMBlock := by omega
  have hdiv : (g.start + j * L.blocksPerMBlock) / L.blocksPerMBlock =
      g.start / L.blocksPerMBlock + j := Nat.add_mul_div_right _ _ L.perMBlock_pos
  have hinit : ∀ a, ((s.setBlocks g.start (L.mblockGroupBlocks j)).initMBlock L
      (g.start / L.blocksPerMBlock + j)).bdescr a =
      if a / L.blocksPerMBlock = g.start / L.blocksPerMBlock + j then
        { (s.setBlocks g.start (L.mblockGroupBlocks j)).bdescr a with start := L.blockAt a }
      else (s.setBlocks g.start (L.mblockGroupBlocks j)).bdescr a := fun a => rfl
  rw [hs']
  refine ⟨fun a hhead hlast => ?_, ?_, ?_, fun a ha => ?_⟩
  · have hend : a ≠ g.start + j * L.blocksPerMBlock := by
      rintro rfl
      exact hlast hdiv
    rw [BlockModel.setBlocks, setDescr_other _ hend, hinit, if_neg hlast]
    exact setDescr_other _ hhead
  · rw [BlockModel.setBlocks, setDescr_other _ hne, hinit, if_neg (by omega)]
    exact setDescr_self _ _ _
  · rw [BlockModel.setBlocks, setDescr_self]
  · have hstart := congrArg ModelDescr.start (hinit a)
    rw [if_pos ha] at hstart
    by_cases hhead : a = g.start + j * L.blocksPerMBlock
    · rw [hhead] at hstart ⊢
      rw [BlockModel.setBlocks, setDescr_self]
      exact hstart
    · rw [BlockModel.setBlocks, setDescr_other _ hhead]
      exact hstart

/-- The end is a group. -/
theorem CutEnd.endOk {j k : Nat} (h : CutEnd L s s' g j k) (hG : Mega L g) (hk : 0 < k)
    (hsize : g.size = j * L.blocksPerMBlock + k * L.blocksPerMBlock) :
    GroupOk L s'.bdescr (endOf g (k * L.blocksPerMBlock)) := by
  have hkge : L.blocksPerMBlock ≤ k * L.blocksPerMBlock := Nat.le_mul_of_pos_left _ hk
  have hstart : (endOf g (k * L.blocksPerMBlock)).start = g.start + j * L.blocksPerMBlock := by
    show g.start + (g.size - k * L.blocksPerMBlock) = _
    omega
  have hdiv : (g.start + j * L.blocksPerMBlock) / L.blocksPerMBlock =
      g.start / L.blocksPerMBlock + j := Nat.add_mul_div_right _ _ L.perMBlock_pos
  refine ⟨.inr ⟨?_, hkge, Nat.mul_mod_left _ _⟩, ?_, fun a _ hfirst => ?_,
    fun hlive => (by cases hlive), fun hfree => (by cases hfree)⟩
  · rw [hstart, Nat.add_mul_mod_self_right]
    exact hG.first
  · rw [hstart, h.blocks]
    show _ = blocksOf L (k * L.blocksPerMBlock)
    rw [blocksOf_mega hkge, mul_div_perMBlock]
  · rw [hstart, hdiv] at hfirst
    exact h.starts a hfirst

/-- The end of a larger group of megablocks. -/
theorem bestFit_spec (h : Settled L s T) (hg : g ∈ T) (hfree : g.label = .free)
    (hmega : L.blocksPerMBlock ≤ g.size) {k : Nat} (hk : 0 < k)
    (hlt : k < g.size / L.blocksPerMBlock)
    (hs' : s' = ((s.setBlocks g.start (L.mblockGroupBlocks (g.size / L.blocksPerMBlock - k))).initMBlock
      L (g.start / L.blocksPerMBlock + (g.size / L.blocksPerMBlock - k))).setBlocks
        (g.start + (g.size - k * L.blocksPerMBlock)) (L.mblockGroupBlocks k)) :
    InHand L s' (exchange T {g} {frontOf g (k * L.blocksPerMBlock) .free,
        endOf g (k * L.blocksPerMBlock)}) (endOf g (k * L.blocksPerMBlock)) ∧
      Reaches s T s' (exchange T {g} {frontOf g (k * L.blocksPerMBlock) .free,
        endOf g (k * L.blocksPerMBlock)}) := by
  have hplaced := h.placed
  have hG := hplaced.mega hg hmega
  -- `j` megablocks stay, the others are the new group
  obtain ⟨j, hj⟩ : ∃ j, j = g.size / L.blocksPerMBlock - k := ⟨_, rfl⟩
  have hjpos : 0 < j := by omega
  have hsize : g.size = j * L.blocksPerMBlock + k * L.blocksPerMBlock := by
    rw [← Nat.add_mul, hj, Nat.sub_add_cancel (Nat.le_of_lt hlt)]
    exact hG.size_eq
  have hrest : g.size - k * L.blocksPerMBlock = j * L.blocksPerMBlock := by omega
  have hkpos : 0 < k * L.blocksPerMBlock := Nat.mul_pos hk L.perMBlock_pos
  have hklt : k * L.blocksPerMBlock < g.size := by
    rw [hsize]
    exact Nat.lt_add_of_pos_left (Nat.mul_pos hjpos L.perMBlock_pos)
  have hjge : L.blocksPerMBlock ≤ j * L.blocksPerMBlock := Nat.le_mul_of_pos_left _ hjpos
  have hcut : CutEnd L s s' g j k := by
    rw [← hj, hrest] at hs'
    exact cutEnd_stores hjpos hs'
  have hfrontSize : (frontOf g (k * L.blocksPerMBlock) .free).size = j * L.blocksPerMBlock := hrest
  have hkeeps : Keeps L g (frontOf g (k * L.blocksPerMBlock) .free)
      {frontOf g (k * L.blocksPerMBlock) .free, endOf g (k * L.blocksPerMBlock)} := by
    refine ⟨rfl, ⟨hG.first, hfrontSize ▸ hjge, hfrontSize ▸ Nat.mul_mod_left _ _⟩, rfl,
      Nat.sub_lt_self hkpos (Nat.le_of_lt hklt),
      Finset.mem_insert_self _ _, fun u hu hufree => ?_⟩
    rcases Finset.mem_insert.mp hu with rfl | hu
    · rfl
    · rw [Finset.mem_singleton.mp hu] at hufree
      cases hufree
  have htouches : Touches L s s' {g} := by
    refine ⟨fun a _ hnone => ?_, by rw [hs']; rfl, by rw [hs']; rfl⟩
    have hnot := hnone g (Finset.mem_singleton_self g)
    refine hcut.same a ?_ fun hdiv => hnot ((hG.has_iff a).mpr (by omega))
    rintro rfl
    exact hnot (Tile.has_start (hplaced.tiles.pos g hg))
  have hmblocks : SameMBlocks s s' := ⟨by rw [hs']; rfl, by rw [hs']; rfl⟩
  have hfrontOk := (hplaced.groups g hg).resize hfree hG hkeeps.mega rfl rfl
    (by rw [hfrontSize, mul_div_perMBlock]; exact hcut.front)
    fun a hhead hfirst => hcut.same a hhead (by omega)
  refine ⟨⟨?_, ?_, rfl, fun u hu hhand => ?_, hkeeps.smallApart h.small,
    hkeeps.megaApart h hg hfree hmega⟩, ?_, hmblocks⟩
  · exact hplaced.split hg (Nat.sub_pos_of_lt hklt) hkpos rfl rfl (endOf_stop hklt) hmblocks htouches
      hfrontOk (hcut.endOk hG hk hsize)
      (hkeeps.lists hplaced.lists hg hfree hmega (by rw [hs']; rfl) (by rw [hs']; rfl))
  · exact mem_exchange.mpr (.inr (Finset.mem_insert_of_mem (Finset.mem_singleton_self _)))
  · rcases mem_exchange.mp hu with ⟨huT, -⟩ | huA
    · exact absurd hhand (h.noHand u huT)
    · rcases Finset.mem_insert.mp huA with rfl | huA
      · cases hhand
      · exact Finset.mem_singleton.mp huA
  · exact hplaced.evolves (Finset.singleton_subset_iff.mpr hg) htouches (by simp [hfree])
      (by simp [frontOf, endOf])

/-- The group of the `k` megablocks that the operating system gives. -/
def freshGroup (L : BlockSizes) (fresh k : Nat) : Group :=
  ⟨fresh * L.blocksPerMBlock, k * L.blocksPerMBlock, .hand⟩

theorem freshGroup_mega {k : Nat} (hk : 0 < k) (fresh : Nat) : Mega L (freshGroup L fresh k) :=
  ⟨Nat.mul_mod_left _ _, Nat.le_mul_of_pos_left _ hk, Nat.mul_mod_left _ _⟩

theorem freshGroup_has {k fresh : Nat} (hk : 0 < k) (a : Nat) : (freshGroup L fresh k).Has a ↔
    fresh ≤ a / L.blocksPerMBlock ∧ a / L.blocksPerMBlock < fresh + k := by
  rw [(freshGroup_mega hk fresh).has_iff]
  show fresh * L.blocksPerMBlock / L.blocksPerMBlock ≤ _ ∧ _ ↔ _
  rw [mul_div_perMBlock, show (freshGroup L fresh k).start / L.blocksPerMBlock = fresh from
    mul_div_perMBlock fresh, show (freshGroup L fresh k).size / L.blocksPerMBlock = k from
    mul_div_perMBlock k]

/-- The allocator has none of them yet. -/
theorem freshGroup_apart {k fresh : Nat} (hk : 0 < k)
    (hfresh : ∀ i, i < k → s.heapAlloced (fresh + i) = false) {a : Nat}
    (ha : (freshGroup L fresh k).Has a) : ¬ Owned L s a := by
  obtain ⟨hle, hlt⟩ := (freshGroup_has hk a).mp ha
  have hfalse := hfresh (a / L.blocksPerMBlock - fresh) (by omega)
  rw [Nat.add_sub_cancel' hle] at hfalse
  unfold Owned
  rw [hfalse]
  decide

/-- The descriptors after the stores for new megablocks. -/
structure FreshStores (L : BlockSizes) (s s' : BlockModel) (fresh k : Nat) : Prop where
  blocks : (s'.bdescr (fresh * L.blocksPerMBlock)).blocks = L.mblockGroupBlocks k
  start : ∀ a, a / L.blocksPerMBlock = fresh → (s'.bdescr a).start = L.blockAt a
  same : ∀ a, a / L.blocksPerMBlock ≠ fresh → s'.bdescr a = s.bdescr a

theorem newMBlocks_stores {k fresh : Nat}
    (hs' : s' = ((s.getMBlocks k fresh).initMBlock L fresh).setBlocks (fresh * L.blocksPerMBlock)
      (L.mblockGroupBlocks k)) : FreshStores L s s' fresh k := by
  refine ⟨?_, fun a ha => ?_, fun a ha => ?_⟩
  · rw [hs', BlockModel.setBlocks, setDescr_self]
  · have hinit : (((s.getMBlocks k fresh).initMBlock L fresh).bdescr a).start = L.blockAt a := by
      show (if BlockModel.mblockOf L a = _ then _ else _ : ModelDescr).start = L.blockAt a
      unfold BlockModel.mblockOf
      rw [if_pos ha]
    rw [hs', BlockModel.setBlocks]
    by_cases hhead : a = fresh * L.blocksPerMBlock
    · rw [hhead] at hinit ⊢
      rw [setDescr_self]
      exact hinit
    · rw [setDescr_other _ hhead]
      exact hinit
  · have hne : a ≠ fresh * L.blocksPerMBlock := by
      rintro rfl
      exact ha (mul_div_perMBlock fresh)
    rw [hs', BlockModel.setBlocks, setDescr_other _ hne]
    exact if_neg ha

theorem FreshStores.ok {k fresh : Nat} (h : FreshStores L s s' fresh k) (hk : 0 < k) :
    GroupOk L s'.bdescr (freshGroup L fresh k) := by
  have hG := freshGroup_mega (L := L) hk fresh
  refine .ofHand rfl (.inr hG) ?_ fun a _ hfirst => h.start a ?_
  · rw [blocksOf_mega hG.ge]
    refine h.blocks.trans (congrArg L.mblockGroupBlocks ?_)
    exact (mul_div_perMBlock k).symm
  · exact hfirst.trans (mul_div_perMBlock fresh)

/-- The allocator has the new megablocks besides its old ones. -/
theorem owned_newMBlocks {k fresh : Nat} (hk : 0 < k)
    (hmap : s'.heapAlloced = (s.getMBlocks k fresh).heapAlloced) (a : Nat) :
    Owned L s' a ↔ Owned L s a ∨ (freshGroup L fresh k).Has a := by
  rw [freshGroup_has hk]
  unfold Owned
  rw [hmap]
  unfold BlockModel.getMBlocks
  by_cases hin : fresh ≤ a / L.blocksPerMBlock ∧ a / L.blocksPerMBlock < fresh + k
  · simp [hin]
  · simp [hin]

/-- New megablocks from the operating system. -/
theorem newMBlocks_spec (h : Settled L s T) {k fresh : Nat} (hk : 0 < k)
    (hfresh : ∀ i, i < k → s.heapAlloced (fresh + i) = false)
    (hs' : s' = ((s.getMBlocks k fresh).initMBlock L fresh).setBlocks (fresh * L.blocksPerMBlock)
      (L.mblockGroupBlocks k)) :
    InHand L s' (exchange T ∅ {freshGroup L fresh k}) (freshGroup L fresh k) ∧
      Evolves s T s' (exchange T ∅ {freshGroup L fresh k}) := by
  have hplaced := h.placed
  have hstores := newMBlocks_stores hs'
  have hmap : s'.heapAlloced = (s.getMBlocks k fresh).heapAlloced := by
    rw [hs']
    rfl
  have htouches : Touches L s s' ∅ := by
    refine ⟨fun a howned _ => hstores.same a fun heq => ?_, by rw [hs']; rfl, by rw [hs']; rfl⟩
    exact freshGroup_apart hk hfresh ((freshGroup_has hk a).mpr (by omega)) howned
  have hfrees : held .free (exchange T ∅ {freshGroup L fresh k}) = held .free T :=
    held_exchange_other (by simp) (by simp [freshGroup])
  have hlists : ListsOk L s' (held .free (exchange T ∅ {freshGroup L fresh k})) := by
    rw [hfrees]
    exact hplaced.lists.congr (by rw [hs']; rfl) (by rw [hs']; rfl)
  refine ⟨⟨?_, mem_exchange.mpr (.inr (Finset.mem_singleton_self _)), rfl,
    fun u hu hhand => ?_, h.small.mono fun u hu _ => hfrees ▸ hu,
    h.mega.mono fun u hu _ => hfrees ▸ hu⟩,
    hplaced.evolves (Finset.empty_subset T) htouches (by simp) (by simp [freshGroup])⟩
  · refine hplaced.exchange (Finset.empty_subset T)
      (Tiles.single (t := freshGroup L fresh k) (Nat.mul_pos hk L.perMBlock_pos))
      (fun a ha howned => absurd howned (freshGroup_apart hk hfresh ha)) (fun a => ?_) htouches
      (fun u hu => Finset.mem_singleton.mp hu ▸ hstores.ok hk) hlists
    rw [owned_newMBlocks hk hmap]
    simp
  · rcases mem_exchange.mp hu with ⟨huT, -⟩ | huA
    · exact absurd hhand (h.noHand u huT)
    · exact Finset.mem_singleton.mp huA

/-- A group on `free_mblock_list`. -/
theorem Placed.of_mem_mblock (h : Placed L s T) {bd : Nat} (hbd : bd ∈ s.freeMBlockList) :
    ∃ u ∈ T, u.label = .free ∧ L.blocksPerMBlock ≤ u.size ∧ u.start = bd ∧
      (s.bdescr bd).blocks = L.mblockGroupBlocks (u.size / L.blocksPerMBlock) := by
  obtain ⟨u, hu, hge, rfl⟩ := (h.lists.mem_mblock bd).mp hbd
  obtain ⟨huT, hufree⟩ := mem_held.mp hu
  refine ⟨u, huT, hufree, hge, rfl, ?_⟩
  rw [(h.groups u huT).blocks, blocksOf_mega hge]

/-- More blocks are more megablocks. -/
theorem lt_of_group_lt {k l : Nat} (hl : 0 < l)
    (h : L.mblockGroupBlocks k < L.mblockGroupBlocks l) : k < l := by
  rcases Nat.lt_trichotomy k l with hlt | rfl | hgt
  · exact hlt
  · exact absurd h (Nat.lt_irrefl _)
  · exact absurd (L.group_lt _ _ hl hgt) (Nat.not_lt.mpr (Nat.le_of_lt h))

/-- Where the end of a larger group starts. -/
theorem Mega.end_first (h : Mega L g) (k : Nat) :
    BlockModel.firstOf L (BlockModel.mblockOf L g.start + (g.size / L.blocksPerMBlock - k)) =
        g.start + (g.size - k * L.blocksPerMBlock) ∧
      BlockModel.mblockOf L (g.start + (g.size - k * L.blocksPerMBlock)) =
        g.start / L.blocksPerMBlock + (g.size / L.blocksPerMBlock - k) := by
  have hfirst : BlockModel.firstOf L (BlockModel.mblockOf L g.start +
      (g.size / L.blocksPerMBlock - k)) = g.start + (g.size - k * L.blocksPerMBlock) := by
    unfold BlockModel.firstOf BlockModel.mblockOf
    rw [Nat.add_mul, ← h.start_eq, Nat.sub_mul, ← h.size_eq]
  refine ⟨hfirst, ?_⟩
  rw [← hfirst]
  unfold BlockModel.firstOf BlockModel.mblockOf
  rw [mul_div_perMBlock]

/-- `alloc_mega_group` when the best fit is a larger group. -/
theorem allocMegaGroup_best (h : Placed L s T) (hg : g ∈ T) (hmega : L.blocksPerMBlock ≤ g.size)
    {k : Nat} (fresh : Nat)
    (hcase : BlockModel.megaFit s.bdescr (L.mblockGroupBlocks k) s.freeMBlockList none =
      .best g.start) :
    s.allocMegaGroup L k fresh =
      (((s.setBlocks g.start (L.mblockGroupBlocks (g.size / L.blocksPerMBlock - k))).initMBlock L
        (g.start / L.blocksPerMBlock + (g.size / L.blocksPerMBlock - k))).setBlocks
          (g.start + (g.size - k * L.blocksPerMBlock)) (L.mblockGroupBlocks k),
        g.start + (g.size - k * L.blocksPerMBlock)) := by
  obtain ⟨hfirst, hround⟩ := (h.mega hg hmega).end_first k
  simp only [BlockModel.allocMegaGroup, hcase, h.toMBlocks hg hmega]
  rw [hfirst, hround]

/-- `alloc_mega_group` takes `k` megablocks in hand; it asks the operating system only when
every free group of megablocks is smaller. -/
theorem allocMegaGroup_spec (h : Settled L s T) {k fresh : Nat} (hk : 0 < k)
    (hfresh : ∀ i, i < k → s.heapAlloced (fresh + i) = false) :
    ∃ T' g, InHand L (s.allocMegaGroup L k fresh).1 T' g ∧
      g.start = (s.allocMegaGroup L k fresh).2 ∧ g.size = k * L.blocksPerMBlock ∧
      Evolves s T (s.allocMegaGroup L k fresh).1 T' ∧
      (MapCounted s → MapCounted (s.allocMegaGroup L k fresh).1) ∧
      (SameMBlocks s (s.allocMegaGroup L k fresh).1 ∨
        ∀ u ∈ held .free T, u.size < k * L.blocksPerMBlock) := by
  have hfit := megaFit_list s (L.mblockGroupBlocks k)
  cases hcase : BlockModel.megaFit s.bdescr (L.mblockGroupBlocks k) s.freeMBlockList none with
  | exact bd =>
    rw [hcase] at hfit
    obtain ⟨hbd, hblocks⟩ := hfit
    obtain ⟨g, hg, hfree, hmega, rfl, hgblocks⟩ := h.placed.of_mem_mblock hbd
    have hG := h.placed.mega hg hmega
    have hsize : g.size / L.blocksPerMBlock = k :=
      group_inj hG.mblocks_pos hk (hgblocks.symm.trans hblocks)
    obtain ⟨hhand, hreaches⟩ := takeMega_spec h hg hfree hmega
    obtain ⟨hhand', hreaches'⟩ := initGroup_hand hhand
    have hresult : s.allocMegaGroup L k fresh =
        (({ s with freeMBlockList := s.freeMBlockList.erase g.start } : BlockModel).initGroup L
          g.start, g.start) := by
      simp only [BlockModel.allocMegaGroup, hcase]
    rw [hresult]
    refine ⟨_, g.to .hand, hhand', rfl, ?_, (hreaches.trans hreaches').evolves,
      fun hcounted => hcounted.congr (hreaches.trans hreaches').mblocks,
      .inl (hreaches.trans hreaches').mblocks⟩
    rw [Group.to_size, hG.size_eq, hsize]
  | best bd =>
    rw [hcase] at hfit
    obtain ⟨hbd, hblocks, -⟩ := hfit
    obtain ⟨g, hg, hfree, hmega, rfl, hgblocks⟩ := h.placed.of_mem_mblock hbd
    have hG := h.placed.mega hg hmega
    have hlt : k < g.size / L.blocksPerMBlock := by
      rw [hgblocks] at hblocks
      exact lt_of_group_lt hG.mblocks_pos hblocks
    obtain ⟨hhand, hreaches⟩ := bestFit_spec h hg hfree hmega hk hlt rfl
    rw [allocMegaGroup_best h.placed hg hmega fresh hcase]
    exact ⟨_, _, hhand, rfl, rfl, hreaches.evolves,
      fun hcounted => hcounted.congr hreaches.mblocks, .inl hreaches.mblocks⟩
  | nothing =>
    rw [hcase] at hfit
    obtain ⟨hhand, hevolves⟩ := newMBlocks_spec h hk hfresh rfl
    have hresult : s.allocMegaGroup L k fresh =
        (((s.getMBlocks k fresh).initMBlock L fresh).setBlocks (fresh * L.blocksPerMBlock)
          (L.mblockGroupBlocks k), fresh * L.blocksPerMBlock) := by
      simp only [BlockModel.allocMegaGroup, hcase]
      rfl
    rw [hresult]
    refine ⟨_, _, hhand, rfl, rfl, hevolves, fun hcounted => ?_, .inr fun u hu => ?_⟩
    · exact (hcounted.getMBlocks hfresh).congr ⟨rfl, rfl⟩
    · obtain ⟨huT, hufree⟩ := mem_held.mp hu
      rcases Nat.lt_or_ge u.size L.blocksPerMBlock with hlt | hge
      · exact Nat.lt_of_lt_of_le hlt (Nat.le_mul_of_pos_left _ hk)
      · have hU := h.placed.mega huT hge
        have hless := hfit u.start (h.placed.mem_mblock huT hufree hge)
        rw [(h.placed.groups u huT).blocks, blocksOf_mega hge] at hless
        have hcount : u.size / L.blocksPerMBlock < k := lt_of_group_lt hk hless
        rw [hU.size_eq]
        exact Nat.mul_lt_mul_of_pos_right hcount L.perMBlock_pos

end HosBoot.Rts
