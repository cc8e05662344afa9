/-
  X8664/Placement.lean --- which frame each page of the plan got.

  `Built` relates the pages to the calls that were made for them.  `Placement` reads
  that as a list of the pages of the plan, in order, with the frame of each: a page of
  the file has the frame where it lies, and the bss pages have the frames of
  `alloc_page`, one each, in order.  An address of the window is translated by the
  last of these that has its slot.
-/
import HosBoot.X8664.Translation

set_option autoImplicit false

namespace HosBoot.X8664

open HosBoot.Foundation HosBoot.Common

/-- A page of the plan with the address of its frame. -/
structure PlacedPage where
  page : Elf64Shdr × Nat
  frame : Nat

/-- The pages of the plan with their frames. -/
structure Placement (kernelStart : UInt32) (plan : List (Elf64Shdr × Nat)) (frames : List Nat)
    (placed : List PlacedPage) : Prop where
  /-- Every page is placed, in the order of the plan. -/
  pages : placed.map PlacedPage.page = plan
  /-- A page of the file stays where it lies. -/
  file : ∀ p ∈ placed, p.page.1.willLoadNotBss = true →
    p.frame = (pageReal kernelStart p.page.1 p.page.2).toNat
  /-- The bss pages have one frame each. -/
  bss : (placed.filter fun p => p.page.1.isBss).map PlacedPage.frame = frames

/-- The page that is placed last in a slot. -/
def lastPlacedAt (placed : List PlacedPage) (x : Nat) : Option PlacedPage :=
  (placed.filter fun p => slotOf p.page == x).getLast?

theorem lastPlacedAt_append (placed : List PlacedPage) (p : PlacedPage) (x : Nat) :
    lastPlacedAt (placed ++ [p]) x =
      if slotOf p.page = x then some p else lastPlacedAt placed x := by
  unfold lastPlacedAt
  rw [List.filter_append]
  by_cases hx : slotOf p.page = x
  · have hsingle : [p].filter (fun p => slotOf p.page == x) = [p] := by simp [hx]
    rw [if_pos hx, hsingle, List.getLast?_append]
    rfl
  · have hsingle : [p].filter (fun p => slotOf p.page == x) = [] := by simp [hx]
    rw [if_neg hx, hsingle, List.append_nil]

theorem of_lastPlacedAt {placed : List PlacedPage} {x : Nat} {p : PlacedPage}
    (h : lastPlacedAt placed x = some p) : p ∈ placed ∧ slotOf p.page = x := by
  have hmem := List.mem_filter.mp (List.mem_of_getLast? h)
  exact ⟨hmem.1, beq_iff_eq.mp hmem.2⟩

/-- The last page placed in a slot is the last page of the plan with the slot. -/
theorem map_lastPlacedAt (placed : List PlacedPage) (x : Nat) :
    (lastPlacedAt placed x).map PlacedPage.page =
      lastPageAt (placed.map PlacedPage.page) x := by
  unfold lastPlacedAt lastPageAt
  rw [List.filter_map, List.getLast?_map]
  rfl

namespace Placement

variable {ks : UInt32} {plan : List (Elf64Shdr × Nat)} {frames : List Nat}
  {placed : List PlacedPage}

theorem nil : Placement ks [] [] [] where
  pages := rfl
  file := fun _ hp => absurd hp List.not_mem_nil
  bss := rfl

/-- One more page of the file. -/
theorem snoc_file (h : Placement ks plan frames placed) {sec : Elf64Shdr} {n : Nat}
    (hload : sec.willLoadNotBss = true) :
    Placement ks (plan ++ [(sec, n)]) frames
      (placed ++ [⟨(sec, n), (pageReal ks sec n).toNat⟩]) where
  pages := by rw [List.map_append, h.pages]; rfl
  file := by
    intro p hp hfile
    rcases List.mem_append.mp hp with hold | hnew
    · exact h.file p hold hfile
    · obtain rfl := List.mem_singleton.mp hnew
      rfl
  bss := by
    have hbss := Elf64Shdr.isBss_eq_false_of_willLoadNotBss hload
    have hnone : [PlacedPage.mk (sec, n) (pageReal ks sec n).toNat].filter
        (fun p => p.page.1.isBss) = [] := by simp [hbss]
    rw [List.filter_append, hnone, List.append_nil, h.bss]

/-- One more bss page, with the next frame. -/
theorem snoc_bss (h : Placement ks plan frames placed) {sec : Elf64Shdr} {n : Nat}
    (hload : sec.isBss = true) (frame : Nat) :
    Placement ks (plan ++ [(sec, n)]) (frames ++ [frame])
      (placed ++ [⟨(sec, n), frame⟩]) where
  pages := by rw [List.map_append, h.pages]; rfl
  file := by
    intro p hp hfile
    rcases List.mem_append.mp hp with hold | hnew
    · exact h.file p hold hfile
    · obtain rfl := List.mem_singleton.mp hnew
      rw [Elf64Shdr.isBss_eq_false_of_willLoadNotBss hfile] at hload
      cases hload
  bss := by
    have hsingle : [PlacedPage.mk (sec, n) frame].filter (fun p => p.page.1.isBss) =
        [⟨(sec, n), frame⟩] := by simp [hload]
    rw [List.filter_append, hsingle, List.map_append, h.bss]
    rfl

theorem mem_plan (h : Placement ks plan frames placed) {p : PlacedPage} (hp : p ∈ placed) :
    p.page ∈ plan :=
  h.pages ▸ List.mem_map_of_mem hp

/-- The frame of a bss page is one of the frames. -/
theorem frame_mem (h : Placement ks plan frames placed) {p : PlacedPage} (hp : p ∈ placed)
    (hbss : p.page.1.isBss = true) : p.frame ∈ frames :=
  h.bss ▸ List.mem_map_of_mem (List.mem_filter.mpr ⟨hp, hbss⟩)

/-- The last page of the plan in a slot has a place. -/
theorem exists_last (h : Placement ks plan frames placed) {x : Nat} {page : Elf64Shdr × Nat}
    (hlast : lastPageAt plan x = some page) :
    ∃ p, lastPlacedAt placed x = some p ∧ p.page = page := by
  rw [← h.pages, ← map_lastPlacedAt] at hlast
  exact Option.map_eq_some_iff.mp hlast

end Placement

/-- The slots hold the entries of the pages placed last in them. -/
def HoldsPlaced (placed : List PlacedPage) (calls : List MapCall) : Prop :=
  ∀ x, (lastPlacedAt placed x = none → installed calls x = 0) ∧
    ∀ p, lastPlacedAt placed x = some p → ∃ c : MapCall, c.realAddr.toNat = p.frame ∧
      c.accessBits = accessBitsOf p.page.1 ∧ installed calls x = c.entry

/-- One more call, for one more page. -/
theorem HoldsPlaced.snoc {placed : List PlacedPage} {calls : List MapCall}
    (h : HoldsPlaced placed calls) {p : PlacedPage} {c : MapCall}
    (hvirt : c.virtAddr = pageVirt p.page.1 p.page.2) (hreal : c.realAddr.toNat = p.frame)
    (haccess : c.accessBits = accessBitsOf p.page.1) :
    HoldsPlaced (placed ++ [p]) (c :: calls) := by
  intro x
  have hslot : c.slot = slotOf p.page := by
    rw [MapCall.slot, hvirt]
    rfl
  rw [lastPlacedAt_append, installed, hslot]
  by_cases hx : slotOf p.page = x
  · rw [if_pos hx, if_pos hx]
    refine ⟨fun hnone => (by cases hnone), fun q hq => ?_⟩
    obtain rfl := Option.some.inj hq
    exact ⟨c, hreal, haccess, rfl⟩
  · rw [if_neg hx, if_neg hx]
    exact h x

/-- The calls install the pages with the frames of a placement. -/
theorem Built.placed {kernelStart : UInt32} {done : List (Elf64Shdr × Nat)}
    {calls : List MapCall} {frames : List Nat} (h : Built kernelStart done calls frames) :
    ∃ placed, Placement kernelStart done.reverse frames.reverse placed ∧
      HoldsPlaced placed calls := by
  induction h with
  | nil => exact ⟨[], Placement.nil, fun x => ⟨fun _ => rfl, fun p hp => by cases hp⟩⟩
  | file sec n hload _ ih =>
    obtain ⟨placed, hplaced, hholds⟩ := ih
    refine ⟨placed ++ [⟨(sec, n), (pageReal kernelStart sec n).toNat⟩], ?_,
      hholds.snoc rfl rfl rfl⟩
    rw [List.reverse_cons]
    exact hplaced.snoc_file hload
  | bss sec n frame hload _ ih =>
    obtain ⟨placed, hplaced, hholds⟩ := ih
    refine ⟨placed ++ [⟨(sec, n), frame.toNat⟩], ?_,
      hholds.snoc rfl (UInt32.toNat_toUInt64 frame) rfl⟩
    rw [List.reverse_cons, List.reverse_cons]
    exact hplaced.snoc_bss hload frame.toNat

end HosBoot.X8664
