/-
  Rts/BlockRefines.lean --- memory and the model of the block allocator.

  Memory represents a state of the model when every descriptor reads as the model's, the
  links lead over the model's lists, and the words hold the model's numbers.  The stores of
  the code are one of two kinds: those that the model sees, which are not on a list or leave
  the links alone, and those of links, which only the lists see.
-/
import HosBoot.Rts.BlockReturn

set_option autoImplicit false

namespace HosBoot.Rts

open HosBoot.Foundation HosBoot.Foundation.LinkedList

/-! ## Addresses -/

namespace BlockSizes

variable (L : BlockSizes)

/-- The number of the descriptor at an address. -/
def numberAt (x : Nat) : Option Nat :=
  if L.firstBdescr (L.mblockOfBdescr x) ≤ x ∧
      x < L.firstBdescr (L.mblockOfBdescr x) + L.blocksPerMBlock then
    some (L.mblockOfBdescr x * L.blocksPerMBlock + (x - L.firstBdescr (L.mblockOfBdescr x)))
  else none

theorem numberAt_bdescrAt (a : Nat) : L.numberAt (L.bdescrAt a) = some a := by
  have hmod := Nat.mod_lt a L.perMBlock_pos
  have haddr : L.bdescrAt a = L.firstBdescr (a / L.blocksPerMBlock) + a % L.blocksPerMBlock := rfl
  rw [numberAt, L.mblockOfBdescr_bdescrAt, if_pos (by omega), haddr, Nat.add_sub_cancel_left,
    Nat.div_add_mod']

theorem bdescrAt_of_numberAt {x a : Nat} (h : L.numberAt x = some a) : L.bdescrAt a = x := by
  unfold numberAt at h
  by_cases hin : L.firstBdescr (L.mblockOfBdescr x) ≤ x ∧
      x < L.firstBdescr (L.mblockOfBdescr x) + L.blocksPerMBlock
  · rw [if_pos hin, Option.some_inj] at h
    have hlt : x - L.firstBdescr (L.mblockOfBdescr x) < L.blocksPerMBlock := by omega
    rw [← h, bdescrAt, Nat.mul_comm, Nat.mul_add_div L.perMBlock_pos, Nat.div_eq_of_lt hlt,
      Nat.add_zero, Nat.mul_add_mod, Nat.mod_eq_of_lt hlt]
    omega
  · rw [if_neg hin] at h
    cases h

/-- The addresses of a megablock's descriptors. -/
theorem bdescrAt_in_mblock {a m : Nat} :
    (L.firstBdescr m ≤ L.bdescrAt a ∧ L.bdescrAt a < L.firstBdescr m + L.blocksPerMBlock) ↔
      a / L.blocksPerMBlock = m := by
  constructor
  · rintro ⟨hle, hlt⟩
    have hround := L.mblockOfBdescr_eq m (L.bdescrAt a - L.firstBdescr m) (by omega)
    rw [Nat.add_sub_cancel' hle, L.mblockOfBdescr_bdescrAt] at hround
    exact hround
  · rintro rfl
    have hmod := Nat.mod_lt a L.perMBlock_pos
    unfold bdescrAt
    omega

theorem mem_map_bdescrAt {l : List Nat} {a : Nat} : L.bdescrAt a ∈ l.map L.bdescrAt ↔ a ∈ l := by
  rw [List.mem_map]
  constructor
  · rintro ⟨b, hb, heq⟩
    rwa [← L.bdescrAt_inj heq]
  · exact fun ha => ⟨a, ha, rfl⟩

theorem map_bdescrAt_nodup {l : List Nat} (h : l.Nodup) : (l.map L.bdescrAt).Nodup :=
  h.map_on fun _ _ _ _ heq => L.bdescrAt_inj heq

theorem map_bdescrAt_erase (l : List Nat) (a : Nat) :
    (l.erase a).map L.bdescrAt = (l.map L.bdescrAt).erase (L.bdescrAt a) :=
  List.map_erase (fun _ _ heq => L.bdescrAt_inj heq) l

/-- What the model sees of a descriptor. -/
def view (d : BDescr) : ModelDescr where
  start := d.start
  free := d.free
  link := if d.blocks = 0 then d.link.bind L.numberAt else none
  blocks := d.blocks.toNat

end BlockSizes

/-! ## Representing a state -/

variable {H : BlockHeader} {C : Finset Group} {before : Nat → BDescr} {c : BlockAlloc}
  {s : BlockModel} {T : Finset Group} {g : Group}

/-- A head on one of the lists. -/
def Listed (s : BlockModel) (bd : Nat) : Prop := (∃ ln, bd ∈ s.freeList ln) ∨ bd ∈ s.freeMBlockList

/-- Memory holds a state of the model; the descriptors of the groups `C` are as `before`. -/
structure Represents (H : BlockHeader) (C : Finset Group) (before : Nat → BDescr) (c : BlockAlloc)
    (s : BlockModel) : Prop where
  view : ∀ a, s.bdescr a = H.view (c.bdescr (H.bdescrAt a))
  lists : ∀ ln, FreeListAt c.bdescr (c.freeList ln) ((s.freeList ln).map H.bdescrAt)
  mblocks : Linked (fun x => (c.bdescr x).link) c.freeMBlockList (s.freeMBlockList.map H.bdescrAt)
  kept : ∀ u ∈ C, ∀ a, u.Has a → c.bdescr (H.bdescrAt a) = before (H.bdescrAt a)
  nAlloc : c.nAllocBlocks.toNat = s.nAllocBlocks
  hwAlloc : c.hwAllocBlocks.toNat = s.hwAllocBlocks
  map : c.heapAlloced = s.heapAlloced
  count : c.mblocksAllocated.toNat = s.mblocksAllocated
  counted : MapCounted s
  bound : s.mblocksAllocated ≤ H.maxMBlocks

namespace Represents

theorem blocks_eq (h : Represents H C before c s) (a : Nat) :
    c.blocks (H.bdescrAt a) = (s.bdescr a).blocks := by
  rw [h.view]
  rfl

theorem free_eq (h : Represents H C before c s) (a : Nat) :
    (c.bdescr (H.bdescrAt a)).free = (s.bdescr a).free := by
  rw [h.view]
  rfl

theorem start_eq (h : Represents H C before c s) (a : Nat) :
    (c.bdescr (H.bdescrAt a)).start = (s.bdescr a).start := by
  rw [h.view]
  rfl

theorem blocks_zero (h : Represents H C before c s) (a : Nat) :
    (c.bdescr (H.bdescrAt a)).blocks = 0 ↔ (s.bdescr a).blocks = 0 := by
  rw [← h.blocks_eq, BlockAlloc.blocks, ← UInt32.toNat_inj]
  rfl

/-- A link to a head is a link to its descriptor. -/
theorem link_eq (h : Represents H C before c s) {a head : Nat}
    (hlink : (s.bdescr a).link = some head) :
    (c.bdescr (H.bdescrAt a)).link = some (H.bdescrAt head) := by
  rw [h.view] at hlink
  unfold BlockSizes.view at hlink
  by_cases hzero : (c.bdescr (H.bdescrAt a)).blocks = 0
  · simp only [if_pos hzero] at hlink
    obtain ⟨x, hx, hnumber⟩ := Option.bind_eq_some_iff.mp hlink
    rw [hx, H.bdescrAt_of_numberAt hnumber]
  · simp only [if_neg hzero] at hlink
    cases hlink

/-- Only the descriptors kept so far can be kept on. -/
theorem rebase (h : Represents H C before c s) (C' : Finset Group) :
    Represents H C' c.bdescr c s :=
  ⟨h.view, h.lists, h.mblocks, fun _ _ _ _ => rfl, h.nAlloc, h.hwAlloc, h.map, h.count, h.counted,
    h.bound⟩

/-- Stores that the model sees. -/
theorem store (h : Represents H C before c s) {mem : Nat → BDescr} {bdescr : Nat → ModelDescr}
    (hview : ∀ a, bdescr a = H.view (mem (H.bdescrAt a)))
    (hlisted : ∀ a, Listed s a → (mem (H.bdescrAt a)).link = (c.bdescr (H.bdescrAt a)).link ∧
      (mem (H.bdescrAt a)).back = (c.bdescr (H.bdescrAt a)).back)
    (hkept : ∀ u ∈ C, ∀ a, u.Has a → mem (H.bdescrAt a) = c.bdescr (H.bdescrAt a)) :
    Represents H C before { c with bdescr := mem } { s with bdescr := bdescr } := by
  refine ⟨hview, fun ln => ?_, ?_, fun u hu a ha => ?_, h.nAlloc, h.hwAlloc, h.map, h.count,
    h.counted, h.bound⟩
  · refine (h.lists ln).congr (fun x hx => ?_) fun x hx => ?_
    · obtain ⟨a, ha, rfl⟩ := List.mem_map.mp hx
      exact (hlisted a (.inl ⟨ln, ha⟩)).1
    · obtain ⟨a, ha, rfl⟩ := List.mem_map.mp hx
      exact (hlisted a (.inl ⟨ln, ha⟩)).2
  · refine h.mblocks.congr fun x hx => ?_
    obtain ⟨a, ha, rfl⟩ := List.mem_map.mp hx
    exact (hlisted a (.inr ha)).1
  · exact (hkept u hu a ha).trans (h.kept u hu a ha)

/-- A store to one descriptor. -/
theorem setDescr (h : Represents H C before c s) {p : Nat} {f : BDescr → BDescr}
    {f' : ModelDescr → ModelDescr}
    (hview : f' (s.bdescr p) = H.view (f (c.bdescr (H.bdescrAt p))))
    (hlisted : Listed s p → ∀ d, (f d).link = d.link ∧ (f d).back = d.back)
    (hkept : ∀ u ∈ C, ¬ u.Has p) :
    Represents H C before (c.setDescr (H.bdescrAt p) f) (s.setDescr p f') := by
  refine h.store (fun a => ?_) (fun a ha => ?_) fun u hu a ha => ?_
  · by_cases hap : a = p
    · rw [hap, Function.update_self, Function.update_self, hview]
    · rw [Function.update_of_ne hap, Function.update_of_ne fun heq => hap (H.bdescrAt_inj heq)]
      exact h.view a
  · by_cases hap : a = p
    · rw [hap, Function.update_self]
      exact hlisted (hap ▸ ha) _
    · rw [Function.update_of_ne fun heq => hap (H.bdescrAt_inj heq)]
      exact ⟨rfl, rfl⟩
  · have hap : a ≠ p := by
      rintro rfl
      exact hkept u hu ha
    exact Function.update_of_ne (fun heq => hap (H.bdescrAt_inj heq)) _ _

/-- A number of blocks that fits is stored as it is. -/
theorem setBlocks (h : Represents H C before c s) {p n : Nat} (hpos : 0 < n) (hlt : n < 2 ^ 32)
    (hkept : ∀ u ∈ C, ¬ u.Has p) :
    Represents H C before (c.setBlocks (H.bdescrAt p) n) (s.setBlocks p n) := by
  refine h.setDescr ?_ (fun _ d => ⟨rfl, rfl⟩) hkept
  have hblocks : (UInt32.ofNat n).toNat = n := UInt32.toNat_ofNat_of_lt' hlt
  have hne : UInt32.ofNat n ≠ 0 := by
    intro heq
    rw [heq] at hblocks
    exact Nat.ne_of_lt hpos hblocks
  rw [h.view]
  simp only [BlockSizes.view, hblocks, if_neg hne]

/-- `p->free = -1`. -/
theorem mark (h : Represents H C before c s) {p : Nat} (hkept : ∀ u ∈ C, ¬ u.Has p) :
    Represents H C before (c.setDescr (H.bdescrAt p) fun d => { d with free := .minusOne })
      (s.setDescr p fun d => { d with free := .minusOne }) := by
  refine h.setDescr ?_ (fun _ d => ⟨rfl, rfl⟩) hkept
  rw [h.view]
  rfl

/-- Stores that only the lists see. -/
theorem relink (h : Represents H C before c s) {mem : Nat → BDescr} {changed : List Nat}
    (hrelinks : Relinks (changed.map H.bdescrAt) c.bdescr mem)
    (hheads : ∀ a ∈ changed, (s.bdescr a).blocks ≠ 0)
    (hkept : ∀ a ∈ changed, ∀ u ∈ C, ¬ u.Has a)
    {freeList : Nat → Option Nat} {lists : Nat → List Nat} {p : Option Nat} {l : List Nat}
    (hlists : ∀ ln, FreeListAt mem (freeList ln) ((lists ln).map H.bdescrAt))
    (hmblocks : Linked (fun x => (mem x).link) p (l.map H.bdescrAt)) :
    Represents H C before { c with bdescr := mem, freeList := freeList, freeMBlockList := p }
      { s with freeList := lists, freeMBlockList := l } := by
  refine ⟨fun a => ?_, hlists, hmblocks, fun u hu a ha => ?_, h.nAlloc, h.hwAlloc, h.map, h.count,
    h.counted, h.bound⟩
  · show s.bdescr a = H.view (mem (H.bdescrAt a))
    rw [h.view a]
    by_cases hchanged : a ∈ changed
    · have hne : (c.bdescr (H.bdescrAt a)).blocks ≠ 0 := fun hzero =>
        hheads a hchanged ((h.blocks_zero a).mp hzero)
      have hfields := hrelinks.fields (H.bdescrAt a)
      rw [hfields]
      simp only [BlockSizes.view, if_neg hne]
    · rw [hrelinks.other _ fun hmem => hchanged (H.mem_map_bdescrAt.mp hmem)]
  · show mem (H.bdescrAt a) = before (H.bdescrAt a)
    rw [hrelinks.other _ fun hmem => hkept a (H.mem_map_bdescrAt.mp hmem) u hu ha]
    exact h.kept u hu a ha

/-- A free list that none of the changed descriptors is on. -/
theorem list_congr (h : Represents H C before c s) {mem : Nat → BDescr} {changed : List Nat}
    (hrelinks : Relinks (changed.map H.bdescrAt) c.bdescr mem) {ln : Nat}
    (hother : ∀ a ∈ s.freeList ln, a ∉ changed) :
    FreeListAt mem (c.freeList ln) ((s.freeList ln).map H.bdescrAt) := by
  have hsame : ∀ x ∈ (s.freeList ln).map H.bdescrAt, mem x = c.bdescr x := by
    intro x hx
    obtain ⟨a, ha, rfl⟩ := List.mem_map.mp hx
    exact hrelinks.other _ fun hmem => hother a ha (H.mem_map_bdescrAt.mp hmem)
  exact (h.lists ln).congr (fun x hx => congrArg BDescr.link (hsame x hx))
    fun x hx => congrArg BDescr.back (hsame x hx)

theorem mblocks_congr (h : Represents H C before c s) {mem : Nat → BDescr} {changed : List Nat}
    (hrelinks : Relinks (changed.map H.bdescrAt) c.bdescr mem)
    (hother : ∀ a ∈ s.freeMBlockList, a ∉ changed) :
    Linked (fun x => (mem x).link) c.freeMBlockList (s.freeMBlockList.map H.bdescrAt) := by
  refine h.mblocks.congr fun x hx => ?_
  obtain ⟨a, ha, rfl⟩ := List.mem_map.mp hx
  rw [hrelinks.other _ fun hmem => hother a ha (H.mem_map_bdescrAt.mp hmem)]

end Represents

end HosBoot.Rts
