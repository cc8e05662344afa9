/-
  Common/Stdlib.lean --- `memcpy` and `memset` of `stdlib.c`.

  Pointers are 32-bit words and wrap.  Each function is the loop of the source
  over the pointers it visits; `fillTargets` lists the stores of `memset`.
-/
import HosBoot.Foundation.Memory
import HosBoot.Foundation.Word

set_option autoImplicit false

namespace HosBoot.Common

open HosBoot.Foundation

/-- `memcpy`: one byte after the other, from the lowest address up. -/
def memcpy (m : Mem) (dest src : UInt32) : Nat → Mem
  | 0 => m
  | len + 1 => memcpy (m.write dest.toNat (m src.toNat)) (dest + 1) (src + 1) len

/-- The addresses that `while (len--) *ptr++ = val` stores to. -/
def fillTargets (ptr : UInt32) : Nat → List UInt32
  | 0 => []
  | len + 1 => ptr :: fillTargets (ptr + 1) len

/-- `memset`. -/
def memset (m : Mem) (dest : UInt32) (val : UInt8) (len : Nat) : Mem :=
  (fillTargets dest len).foldl (fun m ptr => m.write ptr.toNat val) m

theorem toNat_succ (ptr : UInt32) (h : ptr.toNat + 1 < 2 ^ 32) :
    (ptr + 1).toNat = ptr.toNat + 1 :=
  toNat_add_of_lt h

/-- A copy to the next address: every byte is copied before it is read, so that the first
one fills the range. -/
theorem memcpy_smear : ∀ {len : Nat} {m : Mem} {p : UInt32}, p.toNat + len < 2 ^ 32 → ∀ a,
    memcpy m (p + 1) p len a = if InRange p.toNat (len + 1) a then m p.toNat else m a := by
  intro len
  induction len with
  | zero =>
    intro m p _ a
    rw [memcpy]
    by_cases ha : InRange p.toNat (0 + 1) a
    · have heq : a = p.toNat := by
        unfold InRange at ha
        omega
      rw [if_pos ha, heq]
    · rw [if_neg ha]
  | succ len ih =>
    intro m p h a
    have hnext := toNat_succ p (by omega)
    rw [memcpy, ih (by omega), hnext, Mem.write_same]
    by_cases htail : InRange (p.toNat + 1) (len + 1) a
    · rw [if_pos htail, if_pos (htail.widen (by omega) (by omega))]
    · have hne : a ≠ p.toNat + 1 := by
        rintro rfl
        exact htail ⟨Nat.le_refl _, by omega⟩
      rw [if_neg htail, Mem.write_of_ne hne]
      by_cases heq : a = p.toNat
      · rw [if_pos ⟨heq.ge, by omega⟩, heq]
      · have hout : ¬ InRange p.toNat (len + 1 + 1) a := by
          unfold InRange at htail ⊢
          omega
        rw [if_neg hout]

/-- While the range stays below four gigabytes the targets are the range. -/
theorem fillTargets_toNat : ∀ {len : Nat} {ptr : UInt32}, ptr.toNat + len ≤ 2 ^ 32 →
    (fillTargets ptr len).map UInt32.toNat = List.range' ptr.toNat len := by
  intro len
  induction len with
  | zero => intro ptr _; rfl
  | succ len ih =>
    intro ptr h
    rw [fillTargets, List.map_cons, List.range'_succ]
    rcases Nat.eq_zero_or_pos len with rfl | hpos
    · rfl
    · have hnext := toNat_succ ptr (by omega)
      rw [ih (by omega), hnext]

/-- A target is a 32-bit address: a range that leaves them is never the targets. -/
theorem fillTargets_ne {len : Nat} {ptr : UInt32} (h : 2 ^ 32 < ptr.toNat + len) :
    (fillTargets ptr len).map UInt32.toNat ≠ List.range' ptr.toNat len := by
  intro heq
  have hlast : 2 ^ 32 ∈ List.range' ptr.toNat len := by
    rw [List.mem_range'_1]
    have hlt := ptr.toNat_lt
    omega
  rw [← heq, List.mem_map] at hlast
  obtain ⟨p, _, hp⟩ := hlast
  have hlt := p.toNat_lt
  omega

/-- Storing one value at several addresses. -/
theorem foldl_write (val : UInt8) : ∀ (targets : List UInt32) (m : Mem) (a : Nat),
    targets.foldl (fun m ptr => m.write ptr.toNat val) m a =
      if a ∈ targets.map UInt32.toNat then val else m a := by
  intro targets
  induction targets with
  | nil => intro m a; rfl
  | cons ptr rest ih =>
    intro m a
    rw [List.foldl_cons, ih, List.map_cons]
    by_cases hrest : a ∈ rest.map UInt32.toNat
    · rw [if_pos hrest, if_pos (List.mem_cons_of_mem _ hrest)]
    · rw [if_neg hrest]
      by_cases heq : a = ptr.toNat
      · subst heq
        rw [Mem.write_same, if_pos List.mem_cons_self]
      · rw [Mem.write_of_ne heq, if_neg]
        intro hmem
        rcases List.mem_cons.mp hmem with hhead | htail
        · exact heq hhead
        · exact hrest htail

/-- `memset` on a range below four gigabytes. -/
theorem memset_apply {m : Mem} {dest : UInt32} {val : UInt8} {len : Nat}
    (h : dest.toNat + len ≤ 2 ^ 32) (a : Nat) :
    memset m dest val len a = if InRange dest.toNat len a then val else m a := by
  have hmem : a ∈ List.range' dest.toNat len ↔ InRange dest.toNat len a := List.mem_range'_1
  rw [memset, foldl_write, fillTargets_toNat h]
  by_cases hin : InRange dest.toNat len a
  · rw [if_pos (hmem.mpr hin), if_pos hin]
  · rw [if_neg (fun hm => hin (hmem.mp hm)), if_neg hin]

end HosBoot.Common
