/-
  Rts/BlockMega.lean --- the list of free megablock groups.

  The list is sorted by address, so the group behind a list element is the next free group
  in memory; `coalesce_mblocks` therefore merges exactly the neighbours, and
  `free_mega_group`, which tries it on both sides of the group it links in, leaves no two
  free megablock groups side by side.
-/
import Mathlib.Data.List.TakeWhile
import Mathlib.Data.Nat.ModEq
import HosBoot.Rts.BlockSteps

set_option autoImplicit false

namespace HosBoot.Rts

open HosBoot.Foundation

variable {L : BlockSizes} {s s' : BlockModel} {T T' : Finset Group} {g u : Group}

/-! ## Sorted lists -/

/-- The element behind one of a sorted list is the next larger one. -/
theorem linkOf_spec {l : List Nat} (hsorted : l.Pairwise (· < ·)) {p : Nat} (hp : p ∈ l) :
    (BlockModel.linkOf l p = none ∧ ∀ x ∈ l, x ≤ p) ∨
      ∃ q, BlockModel.linkOf l p = some q ∧ q ∈ l ∧ p < q ∧ ∀ x ∈ l, p < x → q ≤ x := by
  induction l with
  | nil => cases hp
  | cons bd rest ih =>
    obtain ⟨hfirst, hrest⟩ := List.pairwise_cons.mp hsorted
    cases rest with
    | nil =>
      left
      rw [List.mem_singleton] at hp
      refine ⟨rfl, fun x hx => ?_⟩
      rw [List.mem_singleton.mp hx, hp]
    | cons next rest =>
      rw [BlockModel.linkOf]
      by_cases heq : bd = p
      · right
        rw [if_pos heq, ← heq]
        refine ⟨next, rfl, by simp, hfirst next List.mem_cons_self, fun x hx hlt => ?_⟩
        rcases List.mem_cons.mp hx with rfl | hx
        · exact absurd hlt (Nat.lt_irrefl _)
        · rcases List.mem_cons.mp hx with rfl | hx
          · exact Nat.le_refl _
          · exact Nat.le_of_lt ((List.pairwise_cons.mp hrest).1 x hx)
      · rw [if_neg heq]
        have hp : p ∈ next :: rest := by
          rcases List.mem_cons.mp hp with hpe | hp
          · exact absurd hpe.symm heq
          · exact hp
        have hlt := hfirst p hp
        rcases ih hrest hp with ⟨hnone, hall⟩ | ⟨q, hq, hmem, hgt, hleast⟩
        · left
          refine ⟨hnone, fun x hx => ?_⟩
          rcases List.mem_cons.mp hx with rfl | hx
          · exact Nat.le_of_lt hlt
          · exact hall x hx
        · right
          refine ⟨q, hq, List.mem_cons_of_mem _ hmem, hgt, fun x hx hxp => ?_⟩
          rcases List.mem_cons.mp hx with rfl | hx
          · omega
          · exact hleast x hx hxp

/-- The element behind one that occurs once. -/
theorem linkOf_split {front rest : List Nat} {p : Nat} (hp : p ∉ front) :
    BlockModel.linkOf (front ++ p :: rest) p = rest.head? := by
  induction front with
  | nil =>
    cases rest with
    | nil => rfl
    | cons q rest => exact if_pos rfl
  | cons x front ih =>
    obtain ⟨hne, hp⟩ := not_or.mp fun hmem => hp (List.mem_cons.mpr hmem)
    have hnext : front ++ p :: rest ≠ [] := by simp
    obtain ⟨y, tail, hy⟩ := List.exists_cons_of_ne_nil hnext
    rw [List.cons_append, hy, BlockModel.linkOf, if_neg (Ne.symm hne), ← hy]
    exact ih hp

/-- Linking a new element in where the smaller ones end. -/
theorem insert_sorted {l : List Nat} {below : Nat → Bool} {m : Nat}
    (hsorted : l.Pairwise (· < ·)) (hbelow : ∀ x ∈ l, below x = decide (x < m)) (hm : m ∉ l) :
    (l.takeWhile below ++ m :: l.dropWhile below).Pairwise (· < ·) ∧
      (∀ x ∈ l.takeWhile below, x < m) ∧ ∀ x ∈ l.dropWhile below, m < x := by
  have hlow : ∀ x ∈ l.takeWhile below, x < m := by
    intro x hx
    have hmem := (List.takeWhile_sublist below).subset hx
    have hx := List.mem_takeWhile_imp hx
    rw [hbelow x hmem] at hx
    exact of_decide_eq_true hx
  have hhigh : ∀ x ∈ l.dropWhile below, m < x := by
    induction l with
    | nil => simp
    | cons y rest ih =>
      obtain ⟨hfirst, hrest⟩ := List.pairwise_cons.mp hsorted
      have hy := hbelow y List.mem_cons_self
      by_cases hlt : y < m
      · rw [List.dropWhile_cons_of_pos (by rw [hy]; exact decide_eq_true hlt)]
        exact ih hrest (fun x hx => hbelow x (List.mem_cons_of_mem _ hx))
          (fun hmem => hm (List.mem_cons_of_mem _ hmem))
          (fun x hx => hlow x (by
            rw [List.takeWhile_cons_of_pos (by rw [hy]; exact decide_eq_true hlt)]
            exact List.mem_cons_of_mem _ hx))
      · rw [List.dropWhile_cons_of_neg (by rw [hy]; simpa using hlt)]
        have hmy : m < y := by
          have hne : m ≠ y := fun heq => hm (heq ▸ List.mem_cons_self)
          omega
        intro x hx
        rcases List.mem_cons.mp hx with rfl | hx
        · exact hmy
        · exact Nat.lt_trans hmy (hfirst x hx)
  refine ⟨?_, hlow, hhigh⟩
  rw [List.pairwise_append, List.pairwise_cons]
  refine ⟨hsorted.sublist (List.takeWhile_sublist _),
    ⟨hhigh, hsorted.sublist (List.dropWhile_sublist _)⟩, fun x hx y hy => ?_⟩
  rcases List.mem_cons.mp hy with rfl | hy
  · exact hlow x hx
  · exact Nat.lt_trans (hlow x hx) (hhigh y hy)

/-! ## Coalescing -/

theorem Placed.mega (h : Placed L s T) (hg : g ∈ T) (hge : L.blocksPerMBlock ≤ g.size) :
    Mega L g :=
  (h.groups g hg).small_or.2 hge

/-- The number of megablocks that the code computes from a head. -/
theorem Placed.toMBlocks (h : Placed L s T) (hg : g ∈ T) (hge : L.blocksPerMBlock ≤ g.size) :
    L.blocksToMBlocks (s.bdescr g.start).blocks = g.size / L.blocksPerMBlock := by
  rw [(h.groups g hg).blocks, blocksOf_mega hge,
    L.toMBlocks_group _ (h.mega hg hge).mblocks_pos]

theorem Placed.mem_mblock (h : Placed L s T) (hg : g ∈ T) (hfree : g.label = .free)
    (hge : L.blocksPerMBlock ≤ g.size) : g.start ∈ s.freeMBlockList :=
  (h.lists.mem_mblock _).mpr ⟨g, mem_held.mpr ⟨hg, hfree⟩, hge, rfl⟩

/-- A free group of megablocks with another number of them: only its head changes. -/
theorem GroupOk.resize {x : Group} (h : GroupOk L s.bdescr g) (hfree : g.label = .free)
    (hG : Mega L g) (hX : Mega L x) (hstart : x.start = g.start) (hlabel : x.label = .free)
    (hhead : s'.bdescr g.start = { s.bdescr g.start with
      blocks := L.mblockGroupBlocks (x.size / L.blocksPerMBlock), link := none })
    (hsame : ∀ a, a ≠ g.start → a / L.blocksPerMBlock = g.start / L.blocksPerMBlock →
      s'.bdescr a = s.bdescr a) : GroupOk L s'.bdescr x := by
  refine ⟨.inr hX, ?_, fun a _ hfirst => ?_, fun hlive => ?_,
    fun _ => ⟨?_, fun hsmall => absurd hX.ge (Nat.not_le.mpr hsmall)⟩⟩
  · rw [hstart, hhead, blocksOf_mega hX.ge]
  · rw [hstart] at hfirst
    have hmblocks := hG.mblocks_pos
    have hold := h.starts a ((hG.has_iff a).mpr (by omega)) hfirst
    by_cases heq : a = g.start
    · rw [heq] at hold ⊢
      rw [hhead]
      exact hold
    · rw [hsame a heq hfirst]
      exact hold
  · rw [hlabel] at hlive
    cases hlive
  · rw [hstart, hhead]
    exact (h.free hfree).1

/-- Two neighbours that consist of megablocks. -/
theorem Mega.join (hG : Mega L g) (hU : Mega L u) : Mega L ((g.join u).to .free) := by
  refine ⟨hG.first, Nat.le_trans hG.ge (Nat.le_add_right _ _), ?_⟩
  show (g.size + u.size) % L.blocksPerMBlock = 0
  rw [Nat.add_mod, hG.whole, hU.whole, Nat.add_zero, Nat.zero_mod]

/-- The first of two neighbours stays on the list for both. -/
theorem Placed.lists_join (h : Placed L s T) (hg : g ∈ T) (hu : u ∈ T) (hgfree : g.label = .free)
    (hgmega : L.blocksPerMBlock ≤ g.size) (humega : L.blocksPerMBlock ≤ u.size) (hne : g ≠ u)
    (hsmalls : s'.freeList = s.freeList)
    (hlist : s'.freeMBlockList = s.freeMBlockList.erase u.start) :
    ListsOk L s' (held .free (Foundation.exchange T {g, u} {(g.join u).to .free})) := by
  have hnodup : s.freeMBlockList.Nodup := h.lists.sorted.imp Nat.ne_of_lt
  refine h.lists.mega (fun x hlt => ?_) hsmalls (fun bd => ?_)
    (hlist ▸ h.lists.sorted.sublist List.erase_sublist)
  · simp only [mem_held, mem_exchange, Finset.mem_insert, Finset.mem_singleton]
    constructor
    · rintro ⟨⟨hx, -⟩ | rfl, hlabel⟩
      · exact ⟨hx, hlabel⟩
      · simp only [Group.to_size, Group.join_size] at hlt
        omega
    · rintro ⟨hx, hlabel⟩
      refine ⟨.inl ⟨hx, ?_⟩, hlabel⟩
      rintro (rfl | rfl) <;> omega
  rw [hlist, hnodup.mem_erase_iff, h.lists.mem_mblock]
  constructor
  · rintro ⟨hbd, x, hx, hge, hstart⟩
    obtain ⟨hxT, hxfree⟩ := mem_held.mp hx
    by_cases hxg : x = g
    · refine ⟨(g.join u).to .free, mem_held.mpr ⟨mem_exchange.mpr (.inr (by simp)), rfl⟩,
        Nat.le_trans hgmega (Nat.le_add_right _ _), ?_⟩
      rw [← hstart, hxg]
      rfl
    · refine ⟨x, mem_held.mpr ⟨mem_exchange.mpr (.inl ⟨hxT, ?_⟩), hxfree⟩, hge, hstart⟩
      simp only [Finset.mem_insert, Finset.mem_singleton, not_or]
      refine ⟨hxg, ?_⟩
      rintro rfl
      exact hbd hstart.symm
  · rintro ⟨x, hx, hge, hstart⟩
    obtain ⟨hxT, hxfree⟩ := mem_held.mp hx
    rcases mem_exchange.mp hxT with ⟨hxT, hxR⟩ | hxA
    · simp only [Finset.mem_insert, Finset.mem_singleton, not_or] at hxR
      refine ⟨fun hbd => hxR.2 (h.tiles.eq_of_start hxT hu (hstart.trans hbd)), x,
        mem_held.mpr ⟨hxT, hxfree⟩, hge, hstart⟩
    · rw [Finset.mem_singleton.mp hxA] at hstart
      have hstart : g.start = bd := hstart
      exact ⟨fun hbd => hne (h.tiles.eq_of_start hg hu (hstart.trans hbd)), g,
        mem_held.mpr ⟨hg, hgfree⟩, hgmega, hstart⟩

/-- Two neighbours on the list become one group. -/
theorem joinMega_spec (h : Placed L s T) (hg : g ∈ T) (hu : u ∈ T) (hgfree : g.label = .free)
    (hufree : u.label = .free) (hgmega : L.blocksPerMBlock ≤ g.size)
    (humega : L.blocksPerMBlock ≤ u.size) (hnext : u.start = g.stop)
    (hs' : s' = { s.setBlocks g.start (L.mblockGroupBlocks
        (g.size / L.blocksPerMBlock + u.size / L.blocksPerMBlock)) with
      freeMBlockList := s.freeMBlockList.erase u.start }) :
    Placed L s' (exchange T {g, u} {(g.join u).to .free}) ∧
      Reaches s T s' (exchange T {g, u} {(g.join u).to .free}) := by
  have hgpos := h.tiles.pos g hg
  have hG := h.mega hg hgmega
  have hne : g ≠ u := by
    rintro rfl
    unfold Tile.stop at hnext
    omega
  have hsub : {g, u} ⊆ T := by
    intro x hx
    rcases Finset.mem_insert.mp hx with rfl | hx
    · exact hg
    · rw [Finset.mem_singleton.mp hx]
      exact hu
  have hlabels : ∀ x ∈ ({g, u} : Finset Group), x.label ≠ .live := by
    intro x hx
    rcases Finset.mem_insert.mp hx with rfl | hx
    · rw [hgfree]
      decide
    · rw [Finset.mem_singleton.mp hx, hufree]
      decide
  have hbdescr : s'.bdescr = (s.setBlocks g.start (L.mblockGroupBlocks
      (g.size / L.blocksPerMBlock + u.size / L.blocksPerMBlock))).bdescr := by
    rw [hs']
  have htouches : Touches L s s' {g, u} := by
    have hset := touches_setDescr (L := L) (s := s) (Finset.mem_insert_self g {u})
      (Tile.has_start hgpos) fun d => { d with blocks := (L.mblockGroupBlocks
        (g.size / L.blocksPerMBlock + u.size / L.blocksPerMBlock)), link := none }
    refine ⟨fun a ha hnone => ?_, by rw [hs']; rfl, by rw [hs']; rfl⟩
    rw [hbdescr]
    exact hset.frame a ha hnone
  have hmblocks : SameMBlocks s s' := ⟨by rw [hs']; rfl, by rw [hs']; rfl⟩
  have hok : GroupOk L s'.bdescr ((g.join u).to .free) := by
    have hsum : (g.size + u.size) / L.blocksPerMBlock =
        g.size / L.blocksPerMBlock + u.size / L.blocksPerMBlock :=
      Nat.add_div_of_dvd_right (Nat.dvd_of_mod_eq_zero hG.whole)
    refine (h.groups g hg).resize hgfree hG (hG.join (h.mega hu humega)) rfl rfl ?_
      fun a ha _ => ?_
    · rw [hbdescr, BlockModel.setBlocks, setDescr_self, Group.to_size, Group.join_size, hsum]
    · rw [hbdescr, BlockModel.setBlocks, setDescr_other _ ha]
  refine ⟨?_, h.evolves hsub htouches hlabels (by simp), hmblocks⟩
  refine h.rearrange hsub (Tiles.single (t := (g.join u).to .free) (Nat.add_pos_left hgpos _))
    (fun a => ?_) hmblocks htouches (fun x hx => ?_)
    (h.lists_join hg hu hgfree hgmega humega hne (by rw [hs']; rfl) (by rw [hs']))
  · simp only [Finset.mem_insert, Finset.mem_singleton, exists_eq_or_imp, exists_eq_left]
    exact Group.join_has hnext a
  · rw [Finset.mem_singleton.mp hx]
    exact hok

/-- `coalesce_mblocks` merges a listed group with its neighbour in memory, if that is free. -/
theorem coalesceMBlocks_spec (h : Placed L s T) (hg : g ∈ T) (hfree : g.label = .free)
    (hmega : L.blocksPerMBlock ≤ g.size) :
    (∃ u ∈ T, u.label = .free ∧ L.blocksPerMBlock ≤ u.size ∧ u.start = g.stop ∧
        ∃ s', s.coalesceMBlocks L g.start = (s', some g.start) ∧
          Placed L s' (exchange T {g, u} {(g.join u).to .free}) ∧
          Reaches s T s' (exchange T {g, u} {(g.join u).to .free})) ∨
      ((∀ u ∈ T, u.label = .free → L.blocksPerMBlock ≤ u.size → u.start ≠ g.stop) ∧
        s.coalesceMBlocks L g.start = (s, BlockModel.linkOf s.freeMBlockList g.start)) := by
  have hpos := h.tiles.pos g hg
  have hG := h.mega hg hmega
  have hafter : g.start < g.stop := Nat.lt_add_of_pos_right hpos
  rcases linkOf_spec h.lists.sorted (h.mem_mblock hg hfree hmega) with
    ⟨hnone, hall⟩ | ⟨q, hq, hqmem, hlt, hleast⟩
  · right
    refine ⟨fun u hu hufree humega hnext => ?_, ?_⟩
    · have hle := hall u.start (h.mem_mblock hu hufree humega)
      omega
    · simp only [BlockModel.coalesceMBlocks, hnone]
  · obtain ⟨u, hu, humega, hustart⟩ := (h.lists.mem_mblock q).mp hqmem
    obtain ⟨huT, hufree⟩ := mem_held.mp hu
    have hU := h.mega huT humega
    have hcond : (BlockModel.mblockOf L q = BlockModel.mblockOf L g.start +
        L.blocksToMBlocks (s.bdescr g.start).blocks) ↔ u.start = g.stop := by
      rw [h.toMBlocks hg hmega, ← hustart]
      unfold BlockModel.mblockOf Tile.stop
      rw [← Nat.mul_left_inj (Nat.ne_of_gt L.perMBlock_pos), Nat.add_mul, ← hU.start_eq,
        ← hG.start_eq, ← hG.size_eq]
    by_cases hnext : u.start = g.stop
    · left
      have hjoin := joinMega_spec h hg huT hfree hufree hmega humega hnext rfl
      have hresult : s.coalesceMBlocks L g.start =
          ({ s.setBlocks g.start (L.mblockGroupBlocks
              (g.size / L.blocksPerMBlock + u.size / L.blocksPerMBlock)) with
            freeMBlockList := s.freeMBlockList.erase u.start }, some g.start) := by
        simp only [BlockModel.coalesceMBlocks, hq]
        rw [if_pos (hcond.mpr hnext), h.toMBlocks hg hmega, ← hustart, h.toMBlocks huT humega]
      exact ⟨u, huT, hufree, humega, hnext, _, hresult, hjoin.1, hjoin.2⟩
    · right
      refine ⟨fun v hv hvfree hvmega hvnext => ?_, ?_⟩
      · have hle := hleast v.start (h.mem_mblock hv hvfree hvmega) (by omega)
        have hne : g ≠ u := by
          rintro rfl
          omega
        have hapart := h.tiles.start_le_or hg huT hne
        have hupos := h.tiles.pos u huT
        unfold Tile.stop at *
        omega
      · simp only [BlockModel.coalesceMBlocks, hq]
        rw [if_neg (fun hc => hnext (hcond.mp hc))]

/-- The last call of `coalesce_mblocks`: only `g` may have a free neighbour, behind it. -/
theorem coalesce_final (h : Placed L s T) (hnoHand : ∀ u ∈ T, u.label ≠ .hand)
    (hsmall : SmallApart L T) (hg : g ∈ T) (hfree : g.label = .free)
    (hmega : L.blocksPerMBlock ≤ g.size)
    (hbefore : ∀ u ∈ held .free T, L.blocksPerMBlock ≤ u.size → u.stop ≠ g.start)
    (hrest : ∀ u ∈ held .free T, ∀ v ∈ held .free T, u ≠ g → L.blocksPerMBlock ≤ u.size →
      L.blocksPerMBlock ≤ v.size → v.start ≠ u.stop) :
    ∃ T', Settled L (s.coalesceMBlocks L g.start).1 T' ∧
      Reaches s T (s.coalesceMBlocks L g.start).1 T' := by
  have hgheld := mem_held.mpr ⟨hg, hfree⟩
  rcases coalesceMBlocks_spec h hg hfree hmega with
    ⟨u, hu, hufree, humega, hnext, s', hs', hplaced, hreaches⟩ | ⟨hnone, hsame⟩
  · rw [hs']
    have huheld := mem_held.mpr ⟨hu, hufree⟩
    have hupos := h.tiles.pos u hu
    have hgpos := h.tiles.pos g hg
    have hug : u ≠ g := by
      rintro rfl
      unfold Tile.stop at hnext
      omega
    -- a free group afterwards is an old one or the joined one
    have hcases : ∀ x ∈ held .free (exchange T {g, u} {(g.join u).to .free}),
        (x ∈ held .free T ∧ x ≠ g ∧ x ≠ u) ∨ x = (g.join u).to .free := by
      intro x hx
      obtain ⟨hxT, hxfree⟩ := mem_held.mp hx
      rcases mem_exchange.mp hxT with ⟨hxT, hxR⟩ | hxA
      · simp only [Finset.mem_insert, Finset.mem_singleton, not_or] at hxR
        exact .inl ⟨mem_held.mpr ⟨hxT, hxfree⟩, hxR⟩
      · exact .inr (Finset.mem_singleton.mp hxA)
    refine ⟨_, ⟨hplaced, fun x hx => ?_, hsmall.mono fun x hx hlt => ?_, ?_⟩, hreaches⟩
    · rcases mem_exchange.mp hx with ⟨hxT, -⟩ | hxA
      · exact hnoHand x hxT
      · rw [Finset.mem_singleton.mp hxA]
        simp
    · rcases hcases x hx with ⟨hxheld, -⟩ | rfl
      · exact hxheld
      · simp only [Group.to_size, Group.join_size] at hlt
        omega
    · intro x hx y hy hxy hxmega hymega
      rcases hcases x hx with ⟨hxheld, hxg, -⟩ | rfl <;>
        rcases hcases y hy with ⟨hyheld, hyg, hyu⟩ | rfl
      · exact hrest x hxheld y hyheld hxg hxmega hymega hxy
      · exact hbefore x hxheld hxmega hxy.symm
      · rw [Group.to_stop, Group.join_stop hnext] at hxy
        exact hrest u huheld y hyheld hug humega hymega hxy
      · rw [Group.to_stop, Group.join_stop hnext, Group.to_start, Group.join_start] at hxy
        unfold Tile.stop at *
        omega
  · rw [hsame]
    refine ⟨T, ⟨h, hnoHand, hsmall, ?_⟩, Reaches.refl s T⟩
    intro x hx y hy hxy hxmega hymega
    obtain ⟨hyT, hyfree⟩ := mem_held.mp hy
    by_cases hxg : x = g
    · rw [hxg] at hxy
      exact hnone y hyT hyfree hymega hxy
    · exact hrest x hx y hy hxg hxmega hymega hxy

/-! ## Freeing whole megablocks -/

/-- The list after `free_mega_group` has linked a group in. -/
theorem linkMega_spec (h : InHand L s T g) (hmega : L.blocksPerMBlock ≤ g.size)
    (hmark : (s.bdescr g.start).free = .minusOne) {list : List Nat}
    (hmem : ∀ bd, bd ∈ list ↔ bd = g.start ∨ bd ∈ s.freeMBlockList)
    (hsorted : list.Pairwise (· < ·)) :
    Placed L { s with freeMBlockList := list } (exchange T {g} {g.to .free}) ∧
      Reaches s T { s with freeMBlockList := list } (exchange T {g} {g.to .free}) := by
  have hG := h.placed.mega h.mem hmega
  have hok := h.placed.groups g h.mem
  have htouches : Touches L s { s with freeMBlockList := list } {g} :=
    ⟨fun _ _ _ => rfl, rfl, rfl⟩
  refine ⟨?_, ?_, ⟨rfl, rfl⟩⟩
  · refine h.placed.relabel h.mem ⟨rfl, rfl⟩ htouches ?_ ?_
    · exact ⟨.inr ⟨hG.first, hG.ge, hG.whole⟩, hok.blocks, hok.starts,
        fun hlive => (by cases hlive),
        fun _ => ⟨hmark, fun hlt => absurd hmega (Nat.not_le.mpr hlt)⟩⟩
    · rw [held_exchange_insert (Group.to_label g .free) (by simp [h.label])]
      refine h.placed.lists.mega (fun u hlt => ?_) rfl (fun bd => ?_) hsorted
      · rw [Finset.mem_insert]
        constructor
        · rintro (rfl | hu)
          · exact absurd hmega (Nat.not_le.mpr hlt)
          · exact hu
        · exact fun hu => .inr hu
      · rw [hmem, h.placed.lists.mem_mblock]
        constructor
        · rintro (rfl | ⟨u, hu, hge, hstart⟩)
          · exact ⟨g.to .free, Finset.mem_insert_self _ _, hmega, rfl⟩
          · exact ⟨u, Finset.mem_insert_of_mem hu, hge, hstart⟩
        · rintro ⟨u, hu, hge, hstart⟩
          rcases Finset.mem_insert.mp hu with rfl | hu
          · exact .inl hstart.symm
          · exact .inr ⟨u, hu, hge, hstart⟩
  · refine h.placed.evolves (Finset.singleton_subset_iff.mpr h.mem) htouches ?_ (by simp)
    simp [h.label]

/-- Where `free_mega_group` links a group in. -/
theorem InHand.linkedIn (h : InHand L s T g) :
    (s.linkedIn g.start).Pairwise (· < ·) ∧
      (∀ bd, bd ∈ s.linkedIn g.start ↔ bd = g.start ∨ bd ∈ s.freeMBlockList) ∧
      (∀ x ∈ s.freeMBlockList.takeWhile (s.below g.start), x < g.start) ∧
      ∀ x ∈ s.freeMBlockList.dropWhile (s.below g.start), g.start < x := by
  have hplaced := h.placed
  -- the loop compares addresses
  have hstart : ∀ u ∈ T, (s.bdescr u.start).start = L.blockAt u.start := fun u hu =>
    (hplaced.groups u hu).starts _ (Tile.has_start (hplaced.tiles.pos u hu)) rfl
  have hbelow : ∀ x ∈ s.freeMBlockList, s.below g.start x = decide (x < g.start) := by
    intro x hx
    obtain ⟨u, hu, -, rfl⟩ := (hplaced.lists.mem_mblock x).mp hx
    rw [BlockModel.below, hstart u (mem_held.mp hu).1, hstart g h.mem]
    exact decide_eq_decide.mpr L.blockAt_lt
  have hnew : g.start ∉ s.freeMBlockList := by
    intro hmem
    obtain ⟨u, hu, -, hustart⟩ := (hplaced.lists.mem_mblock _).mp hmem
    obtain ⟨huT, hufree⟩ := mem_held.mp hu
    rw [hplaced.tiles.eq_of_start huT h.mem hustart, h.label] at hufree
    cases hufree
  obtain ⟨hsorted, hlow, hhigh⟩ := insert_sorted hplaced.lists.sorted hbelow hnew
  refine ⟨hsorted, fun bd => ?_, hlow, hhigh⟩
  have hsplit := List.takeWhile_append_dropWhile (p := s.below g.start) (l := s.freeMBlockList)
  rw [← hsplit]
  simp only [BlockModel.linkedIn, List.mem_append, List.mem_cons]
  tauto

/-- A free group after `g` has been linked in is `g` or an old one. -/
theorem held_free_linked {x : Group} (hx : x ∈ held .free (exchange T {g} {g.to .free})) :
    x = g.to .free ∨ x ∈ held .free T := by
  obtain ⟨hxT, hxfree⟩ := mem_held.mp hx
  rcases mem_exchange.mp hxT with ⟨hxT, -⟩ | hxA
  · exact .inr (mem_held.mpr ⟨hxT, hxfree⟩)
  · exact .inl (Finset.mem_singleton.mp hxA)

theorem InHand.noHand_linked (h : InHand L s T g) :
    ∀ u ∈ exchange T {g} {g.to .free}, u.label ≠ .hand := by
  intro u hu hlabel
  rcases mem_exchange.mp hu with ⟨huT, hug⟩ | huA
  · exact hug (Finset.mem_singleton.mpr (h.only u huT hlabel))
  · rw [Finset.mem_singleton.mp huA] at hlabel
    cases hlabel

/-- Without a free group right before it, one call of `coalesce_mblocks` is enough. -/
theorem coalesceLinked_spec (h : InHand L s T g) (hmega : L.blocksPerMBlock ≤ g.size)
    (hmark : (s.bdescr g.start).free = .minusOne)
    (hbefore : ∀ u ∈ held .free T, L.blocksPerMBlock ≤ u.size → u.stop ≠ g.start)
    (hs' : s' = { s with freeMBlockList := s.linkedIn g.start }) :
    ∃ T', Settled L (s'.coalesceMBlocks L g.start).1 T' ∧
      Reaches s T (s'.coalesceMBlocks L g.start).1 T' := by
  obtain ⟨hsorted, hmem, -, -⟩ := h.linkedIn
  obtain ⟨hlinked, hreached⟩ := linkMega_spec h hmega hmark hmem hsorted
  rw [← hs'] at hlinked hreached
  have hgpos := h.placed.tiles.pos g h.mem
  have hsmall : SmallApart L (exchange T {g} {g.to .free}) := by
    refine h.small.mono fun u hu hlt => ?_
    rcases held_free_linked hu with rfl | hu
    · exact absurd hmega (Nat.not_le.mpr hlt)
    · exact hu
  have hbefore' : ∀ u ∈ held .free (exchange T {g} {g.to .free}),
      L.blocksPerMBlock ≤ u.size → u.stop ≠ (g.to .free).start := by
    intro u hu humega hustop
    rcases held_free_linked hu with rfl | hu
    · unfold Tile.stop at hustop
      simp only [Group.to_start, Group.to_size] at hustop
      omega
    · exact hbefore u hu humega hustop
  have hrest : ∀ u ∈ held .free (exchange T {g} {g.to .free}),
      ∀ v ∈ held .free (exchange T {g} {g.to .free}), u ≠ g.to .free →
        L.blocksPerMBlock ≤ u.size → L.blocksPerMBlock ≤ v.size → v.start ≠ u.stop := by
    intro u hu v hv hne humega hvmega hnext
    rcases held_free_linked hv with rfl | hvT
    · exact hbefore' u hu humega hnext.symm
    · rcases held_free_linked hu with heq | huT
      · exact hne heq
      · exact h.mega u huT v hvT hnext humega hvmega
  obtain ⟨T', hsettled, hreaches⟩ := coalesce_final hlinked h.noHand_linked hsmall
    (mem_exchange.mpr (.inr (Finset.mem_singleton_self (g.to .free)))) rfl hmega hbefore' hrest
  exact ⟨T', hsettled, hreached.trans hreaches⟩

/-- The group in front of the place is the last one below. -/
theorem InHand.last_below (h : InHand L s T g) {prev : Nat}
    (hlast : (s.freeMBlockList.takeWhile (s.below g.start)).getLast? = some prev) :
    prev < g.start ∧ prev ∈ s.freeMBlockList ∧
      ∀ x ∈ s.freeMBlockList, x < g.start → x ≤ prev := by
  obtain ⟨-, -, hlow, hhigh⟩ := h.linkedIn
  have hprev := List.mem_of_getLast? hlast
  refine ⟨hlow prev hprev, (List.takeWhile_sublist _).subset hprev, fun x hx hlt => ?_⟩
  have hsplit := List.takeWhile_append_dropWhile (p := s.below g.start) (l := s.freeMBlockList)
  rw [← hsplit, List.mem_append] at hx
  rcases hx with hx | hx
  · obtain ⟨init, hinit⟩ := List.getLast?_eq_some_iff.mp hlast
    have hsorted := h.placed.lists.sorted.sublist (List.takeWhile_sublist (s.below g.start))
    rw [hinit] at hx hsorted
    rcases List.mem_append.mp hx with hx | hx
    · exact Nat.le_of_lt ((List.pairwise_append.mp hsorted).2.2 x hx prev (by simp))
    · exact Nat.le_of_eq (List.mem_singleton.mp hx)
  · exact absurd (hhigh x hx) (Nat.not_lt.mpr (Nat.le_of_lt hlt))

/-- The group that is linked in is behind the one in front of the place. -/
theorem InHand.linkOf_linkedIn (h : InHand L s T g) {prev : Nat}
    (hlast : (s.freeMBlockList.takeWhile (s.below g.start)).getLast? = some prev) :
    BlockModel.linkOf (s.linkedIn g.start) prev = some g.start := by
  obtain ⟨init, hinit⟩ := List.getLast?_eq_some_iff.mp hlast
  have hnodup : (init ++ [prev]).Nodup := by
    rw [← hinit]
    exact (h.placed.lists.sorted.imp Nat.ne_of_lt).sublist (List.takeWhile_sublist _)
  have hnot : prev ∉ init := fun hmem =>
    (List.nodup_append.mp hnodup).2.2 prev hmem prev (List.mem_singleton_self prev) rfl
  rw [BlockModel.linkedIn, hinit, List.append_assoc, List.singleton_append, linkOf_split hnot]
  rfl

/-- The group linked in has joined the free group before it. -/
theorem coalesceJoined_spec (h : InHand L s T g) {w : Group} (hw : w ∈ held .free T)
    (hwmega : L.blocksPerMBlock ≤ w.size)
    (hplaced : Placed L s' (exchange (exchange T {g} {g.to .free}) {w, g.to .free}
      {(w.join (g.to .free)).to .free})) :
    ∃ T', Settled L (s'.coalesceMBlocks L w.start).1 T' ∧
      Reaches s' (exchange (exchange T {g} {g.to .free}) {w, g.to .free}
        {(w.join (g.to .free)).to .free}) (s'.coalesceMBlocks L w.start).1 T' := by
  have hcases : ∀ x ∈ held .free (exchange (exchange T {g} {g.to .free}) {w, g.to .free}
      {(w.join (g.to .free)).to .free}),
      x ∈ held .free T ∨ x = (w.join (g.to .free)).to .free := by
    intro x hx
    obtain ⟨hxT, hxfree⟩ := mem_held.mp hx
    rcases mem_exchange.mp hxT with ⟨hxT, hxR⟩ | hxA
    · rcases held_free_linked (mem_held.mpr ⟨hxT, hxfree⟩) with rfl | hxT
      · exact absurd (by simp) hxR
      · exact .inl hxT
    · exact .inr (Finset.mem_singleton.mp hxA)
  have hnoHand : ∀ x ∈ exchange (exchange T {g} {g.to .free}) {w, g.to .free}
      {(w.join (g.to .free)).to .free}, x.label ≠ .hand := by
    intro x hx
    rcases mem_exchange.mp hx with ⟨hxT, -⟩ | hxA
    · exact h.noHand_linked x hxT
    · rw [Finset.mem_singleton.mp hxA]
      simp
  have hsmall : SmallApart L (exchange (exchange T {g} {g.to .free}) {w, g.to .free}
      {(w.join (g.to .free)).to .free}) := by
    refine h.small.mono fun x hx hlt => ?_
    rcases hcases x hx with hxT | rfl
    · exact hxT
    · simp only [Group.to_size, Group.join_size] at hlt
      omega
  refine coalesce_final hplaced hnoHand hsmall
    (g := (w.join (g.to .free)).to .free) (mem_exchange.mpr (.inr (Finset.mem_singleton_self _)))
    rfl (Nat.le_trans hwmega (Nat.le_add_right _ _)) ?_ ?_
  · intro x hx hxmega hstop
    rcases hcases x hx with hxT | rfl
    · exact h.mega x hxT w hw hstop.symm hxmega hwmega
    · have hpos := h.placed.tiles.pos w (mem_held.mp hw).1
      unfold Tile.stop at hstop
      simp only [Group.to_start, Group.to_size, Group.join_size, Group.join_start] at hstop
      omega
  · intro x hx y hy hne hxmega hymega hxy
    rcases hcases x hx with hxT | hxj
    · rcases hcases y hy with hyT | rfl
      · exact h.mega x hxT y hyT hxy hxmega hymega
      · exact h.mega x hxT w hw hxy hxmega hwmega
    · exact hne hxj

/-- `free_mega_group` links a group in and coalesces it on both sides. -/
theorem freeMegaGroup_spec (h : InHand L s T g) (hmega : L.blocksPerMBlock ≤ g.size)
    (hmark : (s.bdescr g.start).free = .minusOne) :
    ∃ T', Settled L (s.freeMegaGroup L g.start) T' ∧
      Reaches s T (s.freeMegaGroup L g.start) T' := by
  have hplaced := h.placed
  have hgpos := hplaced.tiles.pos g h.mem
  obtain ⟨hsorted, hmem, -, hhigh⟩ := h.linkedIn
  obtain ⟨hlinked, hreached⟩ := linkMega_spec h hmega hmark hmem hsorted
  have hmemG : g.to .free ∈ exchange T {g} {g.to .free} := mem_exchange.mpr (.inr (by simp))
  unfold BlockModel.freeMegaGroup
  cases hlast : (s.freeMBlockList.takeWhile (s.below g.start)).getLast? with
  | none =>
    refine coalesceLinked_spec h hmega hmark (fun u hu humega hustop => ?_) rfl
    obtain ⟨huT, hufree⟩ := mem_held.mp hu
    have hupos := hplaced.tiles.pos u huT
    have humem := hplaced.mem_mblock huT hufree humega
    have hsplit := List.takeWhile_append_dropWhile (p := s.below g.start) (l := s.freeMBlockList)
    rw [← hsplit, List.getLast?_eq_none_iff.mp hlast, List.nil_append] at humem
    have hgt := hhigh u.start humem
    unfold Tile.stop at hustop
    omega
  | some prev =>
    obtain ⟨hprevLt, hprevMem, hprevMax⟩ := h.last_below hlast
    obtain ⟨w, hw, hwmega, rfl⟩ := (hplaced.lists.mem_mblock prev).mp hprevMem
    obtain ⟨hwT, hwfree⟩ := mem_held.mp hw
    have hwg : w ≠ g := by
      rintro rfl
      omega
    have hwmem : w ∈ exchange T {g} {g.to .free} :=
      mem_exchange.mpr (.inl ⟨hwT, fun hmem => hwg (Finset.mem_singleton.mp hmem)⟩)
    rcases coalesceMBlocks_spec hlinked hwmem hwfree hwmega with
      ⟨u, hu, hufree, humega, hunext, s', hs', hjoined, hreaches⟩ | ⟨hnone, hsame⟩
    · -- the group behind `prev` is the one linked in
      have hug : u = g.to .free := by
        rcases held_free_linked (mem_held.mpr ⟨hu, hufree⟩) with hug | huT
        · exact hug
        · exact (h.mega w hw u huT hunext hwmega humega).elim
      rw [hug] at hunext hjoined hreaches
      obtain ⟨T', hsettled, hfinal⟩ := coalesceJoined_spec h hw hwmega hjoined
      simp only [hs']
      exact ⟨T', hsettled, hreached.trans (hreaches.trans hfinal)⟩
    · -- `prev` ends before the group linked in
      simp only [hsame, h.linkOf_linkedIn hlast]
      refine coalesceLinked_spec h hmega hmark (fun u hu humega hustop => ?_) rfl
      obtain ⟨huT, hufree⟩ := mem_held.mp hu
      have hupos := hplaced.tiles.pos u huT
      have hule := hprevMax u.start (hplaced.mem_mblock huT hufree humega) (by
        unfold Tile.stop at hustop
        omega)
      by_cases huw : u = w
      · exact hnone (g.to .free) hmemG rfl hmega (huw ▸ hustop).symm
      · have hwpos := hplaced.tiles.pos w hwT
        have hapart := hplaced.tiles.start_le_or huT hwT huw
        unfold Tile.stop at *
        omega

end HosBoot.Rts
