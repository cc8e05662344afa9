/-
  Foundation/Bump.lean --- the pages a bump allocator hands out.

  A bump allocator holds one pointer and returns it, advanced by the page size,
  on every call.  After `k` calls it has handed out `bumpPages size start k`: the
  pages are pairwise apart and lie in the first `k` pages of the arena.
-/
import Mathlib.Data.List.Nodup

set_option autoImplicit false

namespace HosBoot.Foundation

/-- The pages handed out by `k` calls, newest first. -/
def bumpPages (size start : Nat) : Nat → List Nat
  | 0 => []
  | k + 1 => (start + size * k) :: bumpPages size start k

variable {size start : Nat}

theorem mem_bumpPages {p : Nat} : ∀ {k : Nat},
    p ∈ bumpPages size start k ↔ ∃ i < k, p = start + size * i := by
  intro k
  induction k with
  | zero => simp [bumpPages]
  | succ k ih =>
    rw [bumpPages, List.mem_cons, ih]
    constructor
    · rintro (rfl | ⟨i, hi, rfl⟩)
      · exact ⟨k, by omega, rfl⟩
      · exact ⟨i, by omega, rfl⟩
    · rintro ⟨i, hi, rfl⟩
      rcases Nat.lt_succ_iff_lt_or_eq.mp hi with hlt | rfl
      · exact Or.inr ⟨i, hlt, rfl⟩
      · exact Or.inl rfl

theorem length_bumpPages (k : Nat) : (bumpPages size start k).length = k := by
  induction k with
  | zero => rfl
  | succ k ih => rw [bumpPages, List.length_cons, ih]

/-- Two different indices give pages that do not overlap. -/
theorem bump_apart {i j : Nat} (h : i ≠ j) :
    start + size * i + size ≤ start + size * j ∨
      start + size * j + size ≤ start + size * i := by
  rcases Nat.lt_or_gt_of_ne h with hlt | hgt
  · have hmul : size * (i + 1) ≤ size * j := Nat.mul_le_mul_left size hlt
    rw [Nat.mul_succ] at hmul
    exact Or.inl (by omega)
  · have hmul : size * (j + 1) ≤ size * i := Nat.mul_le_mul_left size hgt
    rw [Nat.mul_succ] at hmul
    exact Or.inr (by omega)

/-- Different pages of the arena do not overlap. -/
theorem bumpPages_apart {k p q : Nat} (hp : p ∈ bumpPages size start k)
    (hq : q ∈ bumpPages size start k) (h : p ≠ q) : p + size ≤ q ∨ q + size ≤ p := by
  obtain ⟨i, _, rfl⟩ := mem_bumpPages.mp hp
  obtain ⟨j, _, rfl⟩ := mem_bumpPages.mp hq
  exact bump_apart fun hij => h (by rw [hij])

/-- No page is handed out twice. -/
theorem nodup_bumpPages (hsize : 0 < size) (k : Nat) : (bumpPages size start k).Nodup := by
  induction k with
  | zero => exact List.nodup_nil
  | succ k ih =>
    rw [bumpPages, List.nodup_cons]
    refine ⟨?_, ih⟩
    intro hmem
    obtain ⟨i, hi, heq⟩ := mem_bumpPages.mp hmem
    have hki : size * k = size * i := by omega
    have := Nat.eq_of_mul_eq_mul_left hsize hki
    omega

/-- Every page handed out lies inside the arena. -/
theorem bumpPages_bounds {k p : Nat} (hp : p ∈ bumpPages size start k) :
    start ≤ p ∧ p + size ≤ start + size * k := by
  obtain ⟨i, hi, rfl⟩ := mem_bumpPages.mp hp
  have hmul : size * (i + 1) ≤ size * k := Nat.mul_le_mul_left size hi
  rw [Nat.mul_succ] at hmul
  omega

end HosBoot.Foundation
