/-
  Rts/BlockHeader.lean --- Block.h on 64 bits.

  A megablock has 256 blocks, of which the first four hold the 256 descriptors of 64 bytes.
  The sizes and the list operations meet what the allocator relies on.
-/
import HosBoot.Rts.BlockAlloc

set_option autoImplicit false

namespace HosBoot.Rts

open HosBoot.Foundation.LinkedList

/-! ## Lists -/

/-- `dbl_link_onto`. -/
def dblLinkOnto (bdescr : Nat → BDescr) (list : Option Nat) (bd : Nat) :
    (Nat → BDescr) × Option Nat :=
  (fun x =>
    { bdescr x with
      link := if x = bd then list else (bdescr x).link
      back := if x = bd then none else if list = some x then some bd else (bdescr x).back },
    some bd)

/-- `dbl_link_remove`. -/
def dblLinkRemove (bdescr : Nat → BDescr) (list : Option Nat) (bd : Nat) :
    (Nat → BDescr) × Option Nat :=
  (fun x =>
    { bdescr x with
      link := if (bdescr bd).back = some x then (bdescr bd).link else (bdescr x).link
      back := if (bdescr bd).link = some x then (bdescr bd).back else (bdescr x).back },
    if (bdescr bd).back = none then (bdescr bd).link else list)

variable {bdescr : Nat → BDescr} {p : Option Nat} {l : List Nat} {bd : Nat}

theorem dblLinkOnto_list (h : FreeListAt bdescr p l) (hnodup : l.Nodup) (hnew : bd ∉ l) :
    FreeListAt (dblLinkOnto bdescr p bd).1 (dblLinkOnto bdescr p bd).2 (bd :: l) := by
  have hne : ∀ y ∈ l, y ≠ bd := by
    rintro y hy rfl
    exact hnew hy
  refine DblLinked.push h (if_pos rfl) (if_pos rfl) (fun y hy => ?_) (fun y hy => ?_) hnodup
  · exact if_neg (hne y hy)
  · exact if_neg (hne y hy)

theorem dblLinkOnto_relinks (h : FreeListAt bdescr p l) :
    Relinks (bd :: l) bdescr (dblLinkOnto bdescr p bd).1 := by
  refine ⟨fun x => rfl, fun x hx => ?_⟩
  obtain ⟨hne, hxl⟩ := not_or.mp fun h => hx (List.mem_cons.mpr h)
  have hp : ¬ p = some x := by
    rw [h.linked.head]
    exact fun heq => hxl (List.mem_of_mem_head? heq)
  simp only [dblLinkOnto, if_neg hne, if_neg hp]

/-- The descriptors before and behind one of a list are on it too. -/
theorem FreeListAt.neighbours (h : FreeListAt bdescr p l) (hbd : bd ∈ l) {x : Nat}
    (hx : (bdescr bd).back = some x ∨ (bdescr bd).link = some x) : x ∈ l := by
  obtain ⟨front, rest, rfl⟩ := List.append_of_mem hbd
  rcases hx with hback | hlink
  · have hlast : (bdescr bd).back = lastOr none front := (backed_append.mp h.backed).2.1
    rw [hlast, lastOr, Option.or_none] at hback
    exact List.mem_append_left _ (List.mem_of_getLast? hback)
  · have hhead : (bdescr bd).link = rest.head? := h.linked.link_eq
    rw [hhead] at hlink
    exact List.mem_append_right _ (List.mem_cons_of_mem bd (List.mem_of_mem_head? hlink))

theorem dblLinkRemove_list (h : FreeListAt bdescr p l) (hnodup : l.Nodup) (hbd : bd ∈ l) :
    FreeListAt (dblLinkRemove bdescr p bd).1 (dblLinkRemove bdescr p bd).2 (l.erase bd) := by
  obtain ⟨front, rest, rfl⟩ := List.append_of_mem hbd
  have hfront : bd ∉ front := fun hmem =>
    (List.nodup_append.mp hnodup).2.2 bd hmem bd List.mem_cons_self rfl
  rw [List.erase_append_right _ hfront, List.erase_cons_head]
  exact DblLinked.remove h (fun y _ => rfl) (fun y _ => rfl) hnodup

theorem dblLinkRemove_relinks (h : FreeListAt bdescr p l) (hbd : bd ∈ l) :
    Relinks l bdescr (dblLinkRemove bdescr p bd).1 := by
  refine ⟨fun x => rfl, fun x hx => ?_⟩
  simp only [dblLinkRemove, if_neg fun heq => hx (h.neighbours hbd (.inl heq)),
    if_neg fun heq => hx (h.neighbours hbd (.inr heq))]

/-! ## Sizes -/

/-- The sizes of Block.h; a group of more than `2 ^ 24` megablocks has too many blocks. -/
def blockSizes64 : BlockSizes where
  blocksPerMBlock := 252
  mblockGroupBlocks n := 252 + (n - 1) * 256
  blocksToMBlocks n := 1 + (n - 252 + 255) / 256
  maxMBlocks := 2 ^ 24
  firstBdescr m := 16384 * m + 4
  lastBdescr m := 16384 * m + 255
  firstBlock m := 256 * m + 4
  mblockOfBdescr bd := bd / 16384
  mblockOfBlock block := block / 256
  one_lt_perMBlock := by decide
  perMBlock_lt := by decide
  group_one := rfl
  group_lt := fun k l hk hkl => by omega
  toMBlocks_group := fun k hk => by omega
  toMBlocks_pos := fun n _ => by omega
  le_group := fun n h => by omega
  group_fits := by decide
  lastBdescr_eq := fun m => rfl
  mblockOfBdescr_eq := fun m i hi => by omega
  mblockOfBlock_eq := fun m i hi => by omega
  firstBlock_lt := fun m k hmk => by omega
  group_inside := fun m k i hk hi => by omega

/-- Block.h. -/
def blockHeader64 : BlockHeader :=
  { blockSizes64 with
    dblLinkOnto := dblLinkOnto
    dblLinkRemove := dblLinkRemove
    onto_list := fun _ _ _ _ h hnodup hnew => dblLinkOnto_list h hnodup hnew
    onto_relinks := fun _ _ _ _ h => dblLinkOnto_relinks h
    remove_list := fun _ _ _ _ h hnodup hbd => dblLinkRemove_list h hnodup hbd
    remove_relinks := fun _ _ _ _ h hbd => dblLinkRemove_relinks h hbd }

end HosBoot.Rts
