/-
  Rts/BlockRuns.lean --- any run of the block allocator and its client.

  A client allocates and frees groups in any order, chains them, stores to the fields and
  blocks that are its own, divides chunks into single blocks, and has free memory returned.
  The operating system may answer with any megablocks that are not in use, as long as no more
  than `maxMBlocks` are.
-/
import Mathlib.Algebra.Order.BigOperators.Group.Finset
import HosBoot.Foundation.Transition
import HosBoot.Rts.BlockClient

set_option autoImplicit false

namespace HosBoot.Rts

open HosBoot.Foundation HosBoot.Foundation.LinkedList

variable {H : BlockHeader} {L : BlockSizes} {c c' : BlockAlloc} {s s' : BlockModel}
  {T T' C : Finset Group} {g u : Group}

/-! ## The system -/

/-- The extent of a group that a client reads off its head. -/
def extentAt (L : BlockSizes) (c : BlockAlloc) (bd : Nat) : Nat :=
  if c.blocks bd < L.blocksPerMBlock then c.blocks bd
  else L.blocksToMBlocks (c.blocks bd) * L.blocksPerMBlock

/-- The group whose head is the descriptor with a number, as a call has returned it. -/
def returned (L : BlockSizes) (c : BlockAlloc) (a : Nat) : Group :=
  ⟨a, extentAt L c (L.bdescrAt a), .live⟩

/-- `k` megablocks that the operating system may hand out. -/
def Unused (L : BlockSizes) (c : BlockAlloc) (k fresh : Nat) : Prop :=
  (∀ i, i < k → c.heapAlloced (fresh + i) = false) ∧
    c.mblocksAllocated.toNat + k ≤ L.maxMBlocks

/-- The heads of some groups, linked to each other from a pointer on. -/
def Chain (L : BlockSizes) (c : BlockAlloc) (p : Option Nat) (chain : List Group) : Prop :=
  Linked (fun x => (c.bdescr x).link) p (chain.map fun g => L.bdescrAt g.start)

/-- The steps of the allocator and a client that holds the groups `C`. -/
inductive BlockStep (H : BlockHeader) :
    BlockAlloc × Finset Group → Option Empty → BlockAlloc × Finset Group → Prop
  | alloc {c c' : BlockAlloc} {C : Finset Group} {n : UInt64} {fresh a : Nat} :
      0 < n → Unused H.toBlockSizes c (mblocksFor H.toBlockSizes n.toNat) fresh →
      c.allocGroup H n fresh = .ok (c', H.bdescrAt a) →
      BlockStep H (c, C) none (c', insert (returned H.toBlockSizes c' a) C)
  | chunk {c c' : BlockAlloc} {C : Finset Group} {least most : UInt32} {fresh a : Nat} :
      0 < least → least ≤ most →
      Unused H.toBlockSizes c (mblocksFor H.toBlockSizes most.toNat) fresh →
      c.allocLargeChunk H least most fresh = .ok (c', H.bdescrAt a) →
      BlockStep H (c, C) none (c', insert (returned H.toBlockSizes c' a) C)
  | free {c c' : BlockAlloc} {C : Finset Group} {g : Group} :
      g ∈ C → c.freeGroup H (H.bdescrAt g.start) = .ok c' →
      BlockStep H (c, C) none (c', C.erase g)
  | chain {c c' : BlockAlloc} {C : Finset Group} {p : Option Nat} {chain : List Group} :
      Chain H.toBlockSizes c p chain → chain.Nodup → (∀ g ∈ chain, g ∈ C) →
      c.freeChain H p = .ok c' → BlockStep H (c, C) none (c', C \ chain.toFinset)
  | giveBack {c c' : BlockAlloc} {C : Finset Group} {n : UInt32} :
      c.returnMemoryToOS H n = .ok c' → BlockStep H (c, C) none (c', C)
  | write {c : BlockAlloc} {C : Finset Group} {memory : Nat → BDescr} :
      ClientWrites H.toBlockSizes C c memory →
      BlockStep H (c, C) none ({ c with bdescr := memory }, C)
  | divide {c : BlockAlloc} {C : Finset Group} {g : Group} {memory : Nat → BDescr} :
      g ∈ C → g.size ≤ H.blocksPerMBlock → Divides H.toBlockSizes g c.bdescr memory →
      BlockStep H (c, C) none ({ c with bdescr := memory }, C.erase g ∪ singles g)

/-- The allocator from `initBlockAllocator` on, whatever memory holds. -/
def blockAllocator (H : BlockHeader) : TransitionSystem (BlockAlloc × Finset Group) Empty where
  init p := (∃ memory, p.1 = BlockAlloc.initBlockAllocator memory) ∧ p.2 = ∅
  step := BlockStep H

/-- Memory holds a state of the model between two calls, with the groups `T`. -/
structure Between (H : BlockHeader) (c : BlockAlloc) (C : Finset Group) (s : BlockModel)
    (T : Finset Group) : Prop where
  represents : Represents H C c.bdescr c s
  settled : Settled H.toBlockSizes s T
  lives : held .live T = C
  nAlloc : s.nAllocBlocks = ∑ g ∈ C, g.size
  hwAlloc : s.nAllocBlocks ≤ s.hwAllocBlocks

/-- What holds between two calls. -/
def BlockInv (H : BlockHeader) (p : BlockAlloc × Finset Group) : Prop :=
  ∃ s T, Between H p.1 p.2 s T

/-! ## What a state says -/

namespace Between

theorem mem (h : Between H c C s T) (hg : g ∈ C) : g ∈ T ∧ g.label = .live :=
  mem_held.mp (h.lives ▸ hg)

theorem nAlloc_toNat (h : Between H c C s T) : c.nAllocBlocks.toNat = ∑ g ∈ C, g.size :=
  h.represents.nAlloc.trans h.nAlloc

theorem size_le (h : Between H c C s T) (hg : g ∈ C) : g.size ≤ s.nAllocBlocks := by
  rw [h.nAlloc]
  exact Finset.single_le_sum (f := fun u : Group => u.size) (fun _ _ => Nat.zero_le _) hg

theorem owned_iff (h : Between H c C s T) (a : Nat) :
    Owned H.toBlockSizes s a ↔ c.heapAlloced (a / H.blocksPerMBlock) = true := by
  unfold Owned
  rw [h.represents.map]

/-- The client's blocks lie in at most `maxMBlocks` megablocks. -/
theorem nAlloc_le (h : Between H c C s T) :
    s.nAllocBlocks ≤ s.mblocksAllocated * H.blocksPerMBlock := by
  rw [h.nAlloc, ← h.lives]
  exact h.settled.placed.sum_le h.represents.counted (Finset.filter_subset _ T)

/-- The extent that the client reads is the group's. -/
theorem extentAt_eq (h : Between H c C s T) (hg : g ∈ T) :
    extentAt H.toBlockSizes c (H.bdescrAt g.start) = g.size := by
  have hok := h.settled.placed.groups g hg
  have hblocks : c.blocks (H.bdescrAt g.start) = blocksOf H.toBlockSizes g.size :=
    (h.represents.blocks_eq _).trans hok.blocks
  unfold Rts.extentAt
  rw [hblocks]
  rcases Nat.lt_or_ge g.size H.blocksPerMBlock with hlt | hge
  · rw [blocksOf_small hlt, if_pos hlt]
  · have hG := h.settled.placed.mega hg hge
    rw [if_neg fun hlt => absurd (blocksOf_lt_iff.mp hlt) (Nat.not_lt.mpr hge),
      blocksOf_mega hge, H.toMBlocks_group _ hG.mblocks_pos, ← hG.size_eq]

theorem returned_eq (h : Between H c C s T) (hg : g ∈ T) (hlive : g.label = .live) :
    returned H.toBlockSizes c g.start = g := by
  rw [returned, h.extentAt_eq hg, ← hlive]

end Between

/-- `n_alloc_blocks` has room for what a request adds. -/
theorem nAlloc_room (L : BlockSizes) {allocated n k : Nat}
    (hk : k + mblocksFor L n ≤ L.maxMBlocks) (hle : allocated ≤ k * L.blocksPerMBlock) :
    allocated + extentOf L n + L.blocksPerMBlock < 2 ^ 64 := by
  have hper : L.blocksPerMBlock < 2 ^ 9 := L.perMBlock_lt
  have hmax := L.maxMBlocks_lt
  have hextent : extentOf L n ≤ mblocksFor L n * L.blocksPerMBlock := by
    unfold extentOf mblocksFor
    by_cases hlt : n < L.blocksPerMBlock
    · rw [if_pos hlt, if_pos hlt, Nat.one_mul]
      exact Nat.le_of_lt hlt
    · rw [if_neg hlt, if_neg hlt]
  calc allocated + extentOf L n + L.blocksPerMBlock
      ≤ k * L.blocksPerMBlock + mblocksFor L n * L.blocksPerMBlock + L.blocksPerMBlock := by omega
    _ = (k + mblocksFor L n) * L.blocksPerMBlock + L.blocksPerMBlock := by rw [Nat.add_mul]
    _ ≤ 2 ^ 32 * 2 ^ 9 + 2 ^ 9 :=
      Nat.add_le_add (Nat.mul_le_mul (by omega) (Nat.le_of_lt hper)) (Nat.le_of_lt hper)
    _ < 2 ^ 64 := by decide

/-! ## Single calls -/

/-- What a call that allocates gives to a client that holds the groups `C`. -/
structure Given (L : BlockSizes) (c : BlockAlloc) (C : Finset Group) (c' : BlockAlloc)
    (g : Group) : Prop where
  live : g.label = .live
  shape : Small L g ∨ Mega L g
  inside : ∀ a, g.Has a → c'.heapAlloced (a / L.blocksPerMBlock) = true
  apart : ∀ u ∈ C, ∀ a, g.Has a → ¬ u.Has a
  frame : ∀ u ∈ C, ∀ a, u.Has a → c'.bdescr (L.bdescrAt a) = c.bdescr (L.bdescrAt a)
  blocks : c'.blocks (L.bdescrAt g.start) = blocksOf L g.size
  starts : ∀ a, g.Has a → a / L.blocksPerMBlock = g.start / L.blocksPerMBlock →
    (c'.bdescr (L.bdescrAt a)).start = L.blockAt a
  free : (c'.bdescr (L.bdescrAt g.start)).free = .within (L.blockAt g.start)
  link : (c'.bdescr (L.bdescrAt g.start)).link = none
  behind : ∀ a, g.Has a → a ≠ g.start → a / L.blocksPerMBlock = g.start / L.blocksPerMBlock →
    (c'.bdescr (L.bdescrAt a)).blocks = 0 ∧ (c'.bdescr (L.bdescrAt a)).free = .zero ∧
      (c'.bdescr (L.bdescrAt a)).link = some (L.bdescrAt g.start)

theorem Allocated.mem (h : Allocated L s T g s' T') : g ∈ T' ∧ g.label = .live := by
  apply mem_held.mp
  rw [h.allocs.lives]
  exact Finset.mem_insert_self _ _

theorem Between.given (h : Between H c C s T) (hallocated : Allocated H.toBlockSizes s T g s' T')
    (hrep : Represents H C c.bdescr c' s') (hlink : (c'.bdescr (H.bdescrAt g.start)).link = none) :
    Given H.toBlockSizes c C c' g := by
  have hplaced := hallocated.allocs.settled.placed
  obtain ⟨hgT, hlive⟩ := hallocated.mem
  have hok := hplaced.groups g hgT
  have hsetUp := hallocated.allocs.setUp
  refine ⟨hlive, hok.shape, fun a ha => ?_, fun u hu => hallocated.allocs.new u (h.lives ▸ hu),
    hrep.kept, (hrep.blocks_eq _).trans hok.blocks, fun a ha hfirst => ?_, ?_, hlink,
    fun a ha hne hfirst => ⟨?_, ?_, ?_⟩⟩
  · rw [hrep.map]
    exact (hplaced.tiles.cover a).mpr ⟨g, hgT, ha⟩
  · exact (hrep.start_eq a).trans (hok.starts a ha hfirst)
  · exact (hrep.free_eq _).trans hsetUp.head
  · exact (hrep.blocks_zero a).mpr ((hok.live hlive).2 a ha hne hfirst).blocks
  · exact (hrep.free_eq a).trans (hsetUp.behind a ha hne hfirst)
  · exact hrep.link_eq ((hok.live hlive).2 a ha hne hfirst).link

theorem Between.insert (h : Between H c C s T) (hallocated : Allocated H.toBlockSizes s T g s' T')
    (hrep : Represents H C c.bdescr c' s') : Between H c' (insert g C) s' T' := by
  obtain ⟨hgT, -⟩ := hallocated.mem
  have hpos : 0 < g.size := hallocated.allocs.settled.placed.tiles.pos g hgT
  have hnew : g ∉ C := fun hgC =>
    hallocated.allocs.new g (h.lives ▸ hgC) g.start (Tile.has_start hpos) (Tile.has_start hpos)
  refine ⟨hrep.rebase _, hallocated.allocs.settled, by rw [hallocated.allocs.lives, h.lives], ?_,
    ?_⟩
  · rw [Finset.sum_insert hnew, hallocated.nAlloc, h.nAlloc, Nat.add_comm]
  · rw [hallocated.nAlloc, hallocated.hwAlloc]
    exact Nat.le_max_right _ _

/-- `allocGroup` between two calls. -/
theorem BlockInv.allocGroup (h : BlockInv H (c, C)) {n : UInt64} {fresh : Nat} (hpos : 0 < n)
    (hfresh : Unused H.toBlockSizes c (mblocksFor H.toBlockSizes n.toNat) fresh) :
    ∃ c' g, c.allocGroup H n fresh = .ok (c', H.bdescrAt g.start) ∧
      g.size = extentOf H.toBlockSizes n.toNat ∧ Given H.toBlockSizes c C c' g ∧
      returned H.toBlockSizes c' g.start = g ∧ BlockInv H (c', insert g C) := by
  obtain ⟨s, T, h⟩ := h
  obtain ⟨hunused, hroom⟩ := hfresh
  have hpos : 0 < n.toNat := UInt64.lt_iff_toNat_lt.mp hpos
  rw [h.represents.map] at hunused
  rw [h.represents.count] at hroom
  obtain ⟨s', T', g, hrun, hsize, hallocated⟩ := allocGroup_spec h.settled hpos hunused
  obtain ⟨c', hcrun, hrep, hlink⟩ := h.represents.allocGroup h.settled (h.lives ▸ Finset.Subset.refl _)
    hpos hunused hroom (nAlloc_room H.toBlockSizes hroom h.nAlloc_le) hrun
  have hnext := h.insert hallocated hrep
  exact ⟨c', g, hcrun, hsize, h.given hallocated hrep hlink,
    hnext.returned_eq hallocated.mem.1 hallocated.mem.2, s', T', hnext⟩

/-- `allocLargeChunk` between two calls. -/
theorem BlockInv.allocLargeChunk (h : BlockInv H (c, C)) {least most : UInt32} {fresh : Nat}
    (hpos : 0 < least) (hle : least ≤ most)
    (hfresh : Unused H.toBlockSizes c (mblocksFor H.toBlockSizes most.toNat) fresh) :
    ∃ c' g, c.allocLargeChunk H least most fresh = .ok (c', H.bdescrAt g.start) ∧
      (g.size = extentOf H.toBlockSizes most.toNat ∨
        (g.size < H.blocksPerMBlock ∧ least.toNat ≤ g.size ∧ g.size ≤ most.toNat)) ∧
      Given H.toBlockSizes c C c' g ∧ returned H.toBlockSizes c' g.start = g ∧
      BlockInv H (c', insert g C) := by
  obtain ⟨s, T, h⟩ := h
  obtain ⟨hunused, hroom⟩ := hfresh
  have hpos : 0 < least.toNat := UInt32.lt_iff_toNat_lt.mp hpos
  have hle : least.toNat ≤ most.toNat := UInt32.le_iff_toNat_le.mp hle
  rw [h.represents.map] at hunused
  rw [h.represents.count] at hroom
  obtain ⟨s', T', g, hrun, hsize, hallocated⟩ := allocLargeChunk_spec h.settled hpos hle hunused
  obtain ⟨c', hcrun, hrep, hlink⟩ := h.represents.allocLargeChunk h.settled
    (h.lives ▸ Finset.Subset.refl _) hpos hle hunused hroom
    (nAlloc_room H.toBlockSizes hroom h.nAlloc_le) hrun
  have hnext := h.insert hallocated hrep
  exact ⟨c', g, hcrun, hsize, h.given hallocated hrep hlink,
    hnext.returned_eq hallocated.mem.1 hallocated.mem.2, s', T', hnext⟩

/-- What a call that frees the groups `R` leaves. -/
structure Freed (H : BlockHeader) (c : BlockAlloc) (C R : Finset Group) (c' : BlockAlloc) : Prop where
  inv : BlockInv H (c', C \ R)
  frame : ∀ u ∈ C \ R, ∀ a, u.Has a → c'.bdescr (H.bdescrAt a) = c.bdescr (H.bdescrAt a)
  map : c'.heapAlloced = c.heapAlloced
  mblocks : c'.mblocksAllocated = c.mblocksAllocated

theorem Freed.refl (h : BlockInv H (c, C)) : Freed H c C ∅ c :=
  ⟨by rwa [Finset.sdiff_empty], fun _ _ _ _ => rfl, rfl, rfl⟩

theorem Freed.trans {c₁ c₂ c₃ : BlockAlloc} {R R' : Finset Group} (h : Freed H c₁ C R c₂)
    (h' : Freed H c₂ (C \ R) R' c₃) : Freed H c₁ C (R ∪ R') c₃ := by
  have hset : C \ (R ∪ R') = (C \ R) \ R' := (sdiff_sdiff C R R').symm
  refine ⟨hset ▸ h'.inv, fun u hu a ha => ?_, h'.map.trans h.map, h'.mblocks.trans h.mblocks⟩
  rw [hset] at hu
  exact (h'.frame u hu a ha).trans (h.frame u (Finset.mem_sdiff.mp hu).1 a ha)

/-- `freeGroup` between two calls. -/
theorem BlockInv.freeGroup (h : BlockInv H (c, C)) (hg : g ∈ C) :
    ∃ c', c.freeGroup H (H.bdescrAt g.start) = .ok c' ∧ Freed H c C {g} c' := by
  obtain ⟨s, T, h⟩ := h
  obtain ⟨hgT, hlive⟩ := h.mem hg
  have hset : C \ {g} = C.erase g := Finset.sdiff_singleton_eq_erase g C
  obtain ⟨s', T', hrun, hfrees⟩ := freeGroup_spec h.settled hgT hlive (h.size_le hg)
  obtain ⟨c', hcrun, hrep⟩ := (h.represents.rebase (C.erase g)).freeGroup h.settled hgT hlive
    (by rw [h.lives]) (h.size_le hg) hrun
  refine ⟨c', hcrun, hset ▸ ⟨s', T', hrep.rebase _, hfrees.settled, ?_, ?_, ?_⟩,
    fun u hu a ha => hrep.kept u (hset ▸ hu) a ha, ?_, UInt64.toNat_inj.mp ?_⟩
  · rw [hfrees.lives, h.lives]
  · rw [hfrees.nAlloc, h.nAlloc, ← Finset.sum_erase_add _ _ hg, Nat.add_sub_cancel]
  · rw [hfrees.nAlloc, hfrees.hwAlloc]
    exact Nat.le_trans (Nat.sub_le _ _) h.hwAlloc
  · rw [hrep.map, hfrees.mblocks.map, h.represents.map]
  · rw [hrep.count, hfrees.mblocks.count, h.represents.count]

/-- The loop of `freeChain`, by induction on the chain. -/
theorem BlockInv.freeChainLoop {chain : List Group} {p : Option Nat} {k : Nat}
    (h : BlockInv H (c, C)) (hchain : Chain H.toBlockSizes c p chain) (hnodup : chain.Nodup)
    (hsub : ∀ g ∈ chain, g ∈ C) (hk : chain.length ≤ k) :
    ∃ c', c.freeChainLoop H k p = .ok c' ∧ Freed H c C chain.toFinset c' := by
  induction chain generalizing c C p k with
  | nil =>
    have hp : p = none := hchain
    subst hp
    exact ⟨c, by cases k <;> rfl, Freed.refl h⟩
  | cons g rest ih =>
    obtain ⟨hp, hlink⟩ := hchain
    subst hp
    cases k with
    | zero => exact absurd hk (Nat.not_succ_le_zero _)
    | succ k =>
      obtain ⟨hgrest, hnodup⟩ := List.nodup_cons.mp hnodup
      obtain ⟨c₁, hfree, hfreed⟩ := h.freeGroup (hsub g List.mem_cons_self)
      have hrest : ∀ u ∈ rest, u ∈ C \ {g} := by
        intro u hu
        refine Finset.mem_sdiff.mpr ⟨hsub u (List.mem_cons_of_mem g hu), fun hmem => ?_⟩
        rw [Finset.mem_singleton.mp hmem] at hu
        exact hgrest hu
      -- the rest of the chain is as before, since its heads are the client's still
      have hchain₁ : Chain H.toBlockSizes c₁ (c.bdescr (H.bdescrAt g.start)).link rest := by
        refine Linked.congr hlink fun x hx => ?_
        obtain ⟨u, hu, rfl⟩ := List.mem_map.mp hx
        obtain ⟨s, T, hbetween⟩ := h
        have hpos := hbetween.settled.placed.tiles.pos u
          (hbetween.mem (Finset.mem_sdiff.mp (hrest u hu)).1).1
        exact congrArg BDescr.link (hfreed.frame u (hrest u hu) u.start (Tile.has_start hpos))
      obtain ⟨c', hrun, hall⟩ := ih hfreed.inv hchain₁ hnodup hrest (Nat.le_of_succ_le_succ hk)
      refine ⟨c', ?_, ?_⟩
      · rw [BlockAlloc.freeChainLoop, hfree]
        exact hrun
      · rw [List.toFinset_cons, Finset.insert_eq]
        exact hfreed.trans hall

/-- `freeChain` between two calls. -/
theorem BlockInv.freeChain {chain : List Group} {p : Option Nat} (h : BlockInv H (c, C))
    (hchain : Chain H.toBlockSizes c p chain) (hnodup : chain.Nodup) (hsub : ∀ g ∈ chain, g ∈ C) :
    ∃ c', c.freeChain H p = .ok c' ∧ Freed H c C chain.toFinset c' := by
  refine h.freeChainLoop hchain hnodup hsub ?_
  obtain ⟨s, T, h⟩ := h
  have hlength : (chain.map Tile.start).length = chain.length := List.length_map _
  rw [h.represents.turns_eq, ← hlength]
  refine h.settled.placed.length_le h.represents.counted (hnodup.map_on fun u hu v hv heq => ?_)
    fun x hx => ?_
  · exact h.settled.placed.tiles.eq_of_start (h.mem (hsub u hu)).1 (h.mem (hsub v hv)).1 heq
  · obtain ⟨u, hu, hstart⟩ := List.mem_map.mp hx
    exact ⟨u, (h.mem (hsub u hu)).1, hstart⟩

/-- `returnMemoryToOS` between two calls. -/
theorem Between.returnMemoryToOS (h : Between H c C s T) (n : UInt32) :
    ∃ c' T', c.returnMemoryToOS H n = .ok c' ∧
      Returns H.toBlockSizes s T n.toNat (s.returnMemoryToOS H.toBlockSizes n.toNat) T' ∧
      Represents H C c.bdescr c' (s.returnMemoryToOS H.toBlockSizes n.toNat) ∧
      Between H c' C (s.returnMemoryToOS H.toBlockSizes n.toNat) T' := by
  obtain ⟨T', hreturns⟩ := returnMemoryToOS_spec h.settled n.toNat
  obtain ⟨c', hrun, hrep⟩ := h.represents.returnMemoryToOS h.settled
    (h.lives ▸ Finset.Subset.refl _) n
  refine ⟨c', T', hrun, hreturns, hrep, hrep.rebase _, hreturns.settled,
    hreturns.evolves.lives.trans h.lives, hreturns.evolves.nAlloc.trans h.nAlloc, ?_⟩
  rw [hreturns.evolves.nAlloc, hreturns.evolves.hwAlloc]
  exact h.hwAlloc

/-! ## Every run -/

theorem initBlockAllocator_inv (memory : Nat → BDescr) :
    BlockInv H (BlockAlloc.initBlockAllocator memory, ∅) := by
  have hheld : ∀ label, held label ∅ = ∅ := fun label => Finset.filter_empty _
  refine ⟨BlockModel.initBlockAllocator fun a => H.view (memory (H.bdescrAt a)), ∅,
    ⟨fun _ => rfl, fun _ => DblLinked.nil, rfl, fun _ _ _ _ => rfl, rfl, rfl, rfl, rfl,
      ⟨∅, fun m => ⟨fun h => (by cases h), fun h => absurd h (Finset.notMem_empty m)⟩, rfl⟩,
      Nat.zero_le _⟩,
    ⟨⟨?_, fun g hg => absurd hg (Finset.notMem_empty g), ?_⟩,
      fun u hu => absurd hu (Finset.notMem_empty u), ?_, ?_⟩, hheld _, rfl, Nat.le_refl 0⟩
  · refine Tiles.empty.congr fun a => ?_
    unfold Owned
    exact ⟨fun h => (by cases h), False.elim⟩
  · rw [hheld]
    refine ⟨fun ln bd => ?_, fun ln => List.nodup_nil, fun bd => ?_, List.Pairwise.nil⟩
    · exact ⟨fun h => (by cases h), fun ⟨g, hg, _⟩ => absurd hg (Finset.notMem_empty g)⟩
    · exact ⟨fun h => (by cases h), fun ⟨g, hg, _⟩ => absurd hg (Finset.notMem_empty g)⟩
  · intro g hg
    rw [hheld] at hg
    exact absurd hg (Finset.notMem_empty g)
  · intro g hg
    rw [hheld] at hg
    exact absurd hg (Finset.notMem_empty g)

/-- The client's groups lie where they lay. -/
theorem Between.tiles (h : Between H c C s T) : Tiles C fun a => ∃ r ∈ C, r.Has a := by
  have htiles := h.settled.placed.tiles
  exact ⟨fun g hg => htiles.pos g (h.mem hg).1,
    fun g hg u hu => htiles.apart g (h.mem hg).1 u (h.mem hu).1, fun a => Iff.rfl⟩

/-- A client's stores keep the invariant. -/
theorem BlockInv.write (h : BlockInv H (c, C)) {memory : Nat → BDescr}
    (hwrites : ClientWrites H.toBlockSizes C c memory) :
    BlockInv H ({ c with bdescr := memory }, C) := by
  obtain ⟨s, T, h⟩ := h
  have hplaced := h.settled.placed
  have hlive : ∀ u ∈ C, u.label = .live := fun u hu => (h.mem hu).2
  have hsub : C ⊆ held .live T := h.lives ▸ Finset.Subset.refl _
  -- an owned descriptor changes only in a group of the client's
  have hstores : ∀ a, Owned H.toBlockSizes s a →
      memory (H.bdescrAt a) = c.bdescr (H.bdescrAt a) ∨ ∃ g ∈ C, g.Has a ∧
        MayStore H.toBlockSizes g a (c.bdescr (H.bdescrAt a)) (memory (H.bdescrAt a)) := by
    intro a howned
    rcases hwrites (H.bdescrAt a) with hsame | hunowned | ⟨g, hg, b, hb, heq, hstore⟩
    · exact .inl hsame
    · rw [h.owned_iff, hunowned a rfl] at howned
      cases howned
    · obtain rfl := H.bdescrAt_inj heq
      exact .inr ⟨g, hg, hb, hstore⟩
  have hframe : ∀ a, Owned H.toBlockSizes s a → (∀ r ∈ C, ¬ r.Has a) →
      memory (H.bdescrAt a) = c.bdescr (H.bdescrAt a) := by
    intro a howned hnone
    rcases hstores a howned with hsame | ⟨g, hg, hga, -⟩
    · exact hsame
    · exact absurd hga (hnone g hg)
  have hrep := h.represents.clientStores hplaced hsub hframe C
  have hsettled : Settled H.toBlockSizes
      { s with bdescr := fun a => H.view (memory (H.bdescrAt a)) } (exchange T C C) := by
    refine h.settled.restock hsub hlive h.tiles (fun _ => Iff.rfl) (fun a howned hnone => ?_)
      fun g hg => ?_
    · show H.view (memory (H.bdescrAt a)) = s.bdescr a
      rw [hframe a howned hnone, h.represents.view]
    · obtain ⟨hgT, hglive⟩ := h.mem hg
      refine h.represents.groupOk_write (hplaced.groups g hgT) (hplaced.tiles.pos g hgT) hglive
        fun a ha => ?_
      refine (hstores a ((hplaced.tiles.cover a).mpr ⟨g, hgT, ha⟩)).imp_right ?_
      rintro ⟨u, hu, hua, hstore⟩
      rwa [hplaced.tiles.apart g hgT u (h.mem hu).1 a ha hua]
  refine ⟨_, _, hrep, hsettled, ?_, h.nAlloc, h.hwAlloc⟩
  rw [held_restock hlive, h.lives, Finset.sdiff_self, Finset.empty_union]

/-- Dividing a chunk keeps the invariant. -/
theorem BlockInv.divide (h : BlockInv H (c, C)) (hg : g ∈ C) (hle : g.size ≤ H.blocksPerMBlock)
    {memory : Nat → BDescr} (hdivides : Divides H.toBlockSizes g c.bdescr memory) :
    BlockInv H ({ c with bdescr := memory }, C.erase g ∪ singles g) := by
  obtain ⟨s, T, h⟩ := h
  have hplaced := h.settled.placed
  obtain ⟨hgT, hlive⟩ := h.mem hg
  have hsub : {g} ⊆ held .live T := Finset.singleton_subset_iff.mpr (h.lives ▸ hg)
  have hsingles : ∀ u ∈ singles g, u.label = .live := fun u hu => (mem_singles.mp hu).2.2
  have hframe : ∀ a, Owned H.toBlockSizes s a → (∀ r ∈ ({g} : Finset Group), ¬ r.Has a) →
      memory (H.bdescrAt a) = c.bdescr (H.bdescrAt a) := by
    intro a _ hnone
    refine hdivides.other _ fun b hb heq => ?_
    obtain rfl := H.bdescrAt_inj heq
    exact hnone g (Finset.mem_singleton_self g) hb
  have hrep := h.represents.clientStores hplaced hsub hframe (C.erase g ∪ singles g)
  have hsettled : Settled H.toBlockSizes
      { s with bdescr := fun a => H.view (memory (H.bdescrAt a)) } (exchange T {g} (singles g)) := by
    refine h.settled.restock hsub hsingles (singles_tiles g) (by simp) (fun a howned hnone => ?_)
      fun u hu => h.represents.groupOk_single (hplaced.groups g hgT) hle hdivides hu
    show H.view (memory (H.bdescrAt a)) = s.bdescr a
    rw [hframe a howned hnone, h.represents.view]
  have hsum : ∑ u ∈ C.erase g ∪ singles g, u.size = ∑ u ∈ C, u.size := by
    have hdisjoint : Disjoint (C.erase g) (singles g) := by
      rw [Finset.disjoint_right]
      intro u hu hmem
      obtain ⟨hne, huC⟩ := Finset.mem_erase.mp hmem
      obtain ⟨huT, -⟩ := h.mem huC
      exact hne (hplaced.tiles.apart u huT g hgT u.start
        (Tile.has_start (hplaced.tiles.pos u huT)) (mem_singles.mp hu).1)
    rw [Finset.sum_union hdisjoint, singles_sum, Finset.sum_erase_add _ _ hg]
  refine ⟨_, _, hrep, hsettled, ?_, h.nAlloc.trans hsum.symm, h.hwAlloc⟩
  rw [held_restock hsingles, h.lives, Finset.sdiff_singleton_eq_erase]

theorem blockStep_inv {p p' : BlockAlloc × Finset Group} {label : Option Empty}
    (h : BlockInv H p) (hstep : BlockStep H p label p') : BlockInv H p' := by
  cases hstep with
  | alloc hpos hfresh hrun =>
    obtain ⟨c', g, hrun', -, -, hreturned, hinv⟩ := h.allocGroup hpos hfresh
    rw [hrun'] at hrun
    obtain ⟨rfl, haddr⟩ := Prod.mk.inj (Except.ok.inj hrun)
    rw [← H.bdescrAt_inj haddr, hreturned]
    exact hinv
  | chunk hpos hle hfresh hrun =>
    obtain ⟨c', g, hrun', -, -, hreturned, hinv⟩ := h.allocLargeChunk hpos hle hfresh
    rw [hrun'] at hrun
    obtain ⟨rfl, haddr⟩ := Prod.mk.inj (Except.ok.inj hrun)
    rw [← H.bdescrAt_inj haddr, hreturned]
    exact hinv
  | free hg hrun =>
    obtain ⟨c', hrun', hfreed⟩ := h.freeGroup hg
    rw [hrun'] at hrun
    cases hrun
    rw [← Finset.sdiff_singleton_eq_erase]
    exact hfreed.inv
  | chain hchain hnodup hsub hrun =>
    obtain ⟨c', hrun', hfreed⟩ := h.freeChain hchain hnodup hsub
    rw [hrun'] at hrun
    cases hrun
    exact hfreed.inv
  | giveBack hrun =>
    obtain ⟨s, T, hbetween⟩ := h
    obtain ⟨c', T', hrun', -, -, hnext⟩ := hbetween.returnMemoryToOS _
    rw [hrun'] at hrun
    cases hrun
    exact ⟨_, T', hnext⟩
  | write hwrites => exact h.write hwrites
  | divide hg hle hdivides => exact h.divide hg hle hdivides

/-- The invariant of every run. -/
theorem blockAllocator_invariant : (blockAllocator H).Invariant (BlockInv H) := by
  refine ⟨?_, fun p label p' h hstep => blockStep_inv h hstep⟩
  rintro ⟨c, C⟩ ⟨⟨memory, hc⟩, hC⟩
  have hc : c = BlockAlloc.initBlockAllocator memory := hc
  have hC : C = ∅ := hC
  rw [hc, hC]
  exact initBlockAllocator_inv memory

end HosBoot.Rts
