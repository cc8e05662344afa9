/-
  Foundation/RingBuffer.lean --- stretches of a circular array.

  Positions grow without bound and index an array of `size` cells modulo `size`.
  `slice` reads the cells of consecutive positions; two positions less than the size
  apart lie in different cells, so a write outside a stretch leaves it alone.
-/
import Mathlib.Logic.Function.Basic
import Mathlib.Data.Nat.ModEq

set_option autoImplicit false

namespace HosBoot.Foundation

variable {α : Type}

/-- The cells at `len` positions from `start` on. -/
def slice (size : Nat) (cells : Nat → α) (start len : Nat) : List α :=
  (List.range len).map fun k => cells ((start + k) % size)

@[simp] theorem slice_zero (size : Nat) (cells : Nat → α) (start : Nat) :
    slice size cells start 0 = [] := rfl

@[simp] theorem length_slice (size : Nat) (cells : Nat → α) (start len : Nat) :
    (slice size cells start len).length = len := by
  simp [slice]

/-- The last cell of a stretch. -/
theorem slice_snoc (size : Nat) (cells : Nat → α) (start len : Nat) :
    slice size cells start (len + 1) =
      slice size cells start len ++ [cells ((start + len) % size)] := by
  rw [slice, slice, List.range_succ, List.map_append, List.map_singleton]

/-- The first cell of a stretch. -/
theorem slice_cons (size : Nat) (cells : Nat → α) (start len : Nat) :
    slice size cells start (len + 1) =
      cells (start % size) :: slice size cells (start + 1) len := by
  rw [slice, slice, List.range_succ_eq_map, List.map_cons, List.map_map]
  congr 1
  refine List.map_congr_left fun k _ => ?_
  show cells ((start + (k + 1)) % size) = cells ((start + 1 + k) % size)
  rw [Nat.add_right_comm start 1 k, Nat.add_assoc]

theorem slice_congr {size : Nat} {cells cells' : Nat → α} {start len : Nat}
    (h : ∀ i, start ≤ i → i < start + len → cells (i % size) = cells' (i % size)) :
    slice size cells start len = slice size cells' start len := by
  refine List.map_congr_left fun k hk => ?_
  have hk' : k < len := List.mem_range.mp hk
  exact h (start + k) (by omega) (by omega)

/-- The start may be reduced. -/
theorem slice_mod (size : Nat) (cells : Nat → α) (start len : Nat) :
    slice size cells (start % size) len = slice size cells start len := by
  refine List.map_congr_left fun k _ => ?_
  rw [Nat.mod_add_mod]

/-- Positions less than the size apart lie in different cells. -/
theorem mod_ne_mod {size i j : Nat} (hlt : i < j) (hnear : j - i < size) :
    i % size ≠ j % size := by
  intro heq
  have hmod : i ≡ j [MOD size] := heq
  have hdvd : size ∣ j - i := (Nat.modEq_iff_dvd' (by omega)).mp hmod
  have hle : size ≤ j - i := Nat.le_of_dvd (by omega) hdvd
  omega

/-- A write behind a stretch, less than the size from its start. -/
theorem slice_update {size : Nat} (cells : Nat → α) {start len j : Nat} (x : α)
    (hbehind : start + len ≤ j) (hnear : j < start + size) :
    slice size (Function.update cells (j % size) x) start len = slice size cells start len := by
  refine slice_congr fun i hi hlt => ?_
  exact Function.update_of_ne (mod_ne_mod (by omega) (by omega)) _ _

/-- An index that goes back to zero at the end of the array. -/
theorem succ_mod_wrap {size : Nat} (hsize : 0 < size) (i : Nat) :
    (if i % size + 1 = size then 0 else i % size + 1) = (i + 1) % size := by
  have hlt : i % size < size := Nat.mod_lt i hsize
  rw [← Nat.mod_add_mod i size 1]
  split
  case isTrue h => rw [h, Nat.mod_self]
  case isFalse h => exact (Nat.mod_eq_of_lt (by omega)).symm

end HosBoot.Foundation
