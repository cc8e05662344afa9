/-
  Foundation/Word.lean --- signed readings of machine words.

  A C conversion to `int` keeps the low 32 bits and reads them in two's
  complement, which is the balanced remainder modulo `2 ^ 32`.
-/
import Mathlib.Data.Int.ModEq

set_option autoImplicit false

namespace HosBoot.Foundation

/-- Reading 32 bits as a signed number. -/
theorem toInt32_toInt (x : UInt32) : x.toInt32.toInt = Int.bmod x.toNat (2 ^ 32) :=
  BitVec.toInt_eq_toNat_bmod x.toBitVec

/-- A word below `2 ^ 31` is read as itself. -/
theorem toInt32_toInt_of_lt {x : UInt32} (h : x.toNat < 2 ^ 31) :
    x.toInt32.toInt = (x.toNat : Int) := by
  rw [toInt32_toInt]
  exact Int.bmod_eq_of_le (by omega) (by omega)

/-- The bits of a signed number, read as an unsigned one. -/
theorem toUInt32_toNat (x : Int32) : (x.toUInt32.toNat : Int) = x.toInt % 2 ^ 32 := by
  have hbmod : x.toInt = Int.bmod x.toUInt32.toNat (2 ^ 32) :=
    BitVec.toInt_eq_toNat_bmod x.toBitVec
  have hmod : x.toInt % (2 ^ 32 : Nat) = (x.toUInt32.toNat : Int) % (2 ^ 32 : Nat) := by
    rw [hbmod]
    exact Int.bmod_emod
  have hlt := x.toUInt32.toNat_lt
  omega

/-- Truncation of a 64-bit word to `int`. -/
theorem toUInt32_toInt32_toInt (x : UInt64) :
    x.toUInt32.toInt32.toInt = Int.bmod x.toNat (2 ^ 32) := by
  rw [toInt32_toInt, UInt64.toNat_toUInt32, Int.natCast_mod]
  exact Int.emod_bmod x.toNat (2 ^ 32)

/-- A sum that does not wrap. -/
theorem toNat_add_of_lt {x y : UInt32} (h : x.toNat + y.toNat < 2 ^ 32) :
    (x + y).toNat = x.toNat + y.toNat := by
  rw [UInt32.toNat_add]
  exact Nat.mod_eq_of_lt h

/-! ## Numbers that an `int` holds -/

/-- A number in the range of a signed 32-bit word. -/
def FitsInt (z : Int) : Prop := -2 ^ 31 ≤ z ∧ z < 2 ^ 31

instance (z : Int) : Decidable (FitsInt z) := inferInstanceAs (Decidable (_ ∧ _))

theorem fitsInt_toInt (x : Int32) : FitsInt x.toInt := ⟨x.le_toInt, x.toInt_lt⟩

theorem FitsInt.bmod_eq {z : Int} (h : FitsInt z) : Int.bmod z (2 ^ 32) = z :=
  Int.bmod_eq_of_le h.1 h.2

/-- A product that fits is exact. -/
theorem FitsInt.toInt_mul {x y : Int32} (h : FitsInt (x.toInt * y.toInt)) :
    (x * y).toInt = x.toInt * y.toInt := by
  rw [Int32.toInt_mul]
  exact h.bmod_eq

/-! ## Halves of a 64-bit word -/

theorem upper_toNat (v : UInt64) : (v >>> 32).toUInt32.toNat = v.toNat / 2 ^ 32 := by
  have hlt := v.toNat_lt
  have hshift : (v >>> 32).toNat = v.toNat / 2 ^ 32 := by
    rw [UInt64.toNat_shiftRight]
    exact Nat.shiftRight_eq_div_pow _ _
  rw [UInt64.toNat_toUInt32, hshift]
  exact Nat.mod_eq_of_lt (by omega)

theorem lower_toNat (v : UInt64) : (v &&& 0xFFFFFFFF).toUInt32.toNat = v.toNat % 2 ^ 32 := by
  have hmask : (0xFFFFFFFF : UInt64).toNat = 2 ^ 32 - 1 := rfl
  rw [UInt64.toNat_toUInt32, UInt64.toNat_and, hmask, Nat.and_two_pow_sub_one_eq_mod, Nat.mod_mod]

/-- The two halves make up the word. -/
theorem join_halves (v : UInt64) :
    (v >>> 32).toUInt32.toUInt64 <<< 32 ||| v.toUInt32.toUInt64 = v := by
  have hlt := v.toNat_lt
  have hlow : v.toNat % 2 ^ 32 < 2 ^ 32 := Nat.mod_lt _ (by decide)
  have hshift : ((v >>> 32).toUInt32.toUInt64 <<< 32).toNat = (v.toNat / 2 ^ 32) <<< 32 := by
    rw [UInt64.toNat_shiftLeft, UInt32.toNat_toUInt64, upper_toNat, Nat.shiftLeft_eq]
    change v.toNat / 2 ^ 32 * 2 ^ 32 % 2 ^ 64 = _
    rw [Nat.shiftLeft_eq]
    omega
  rw [← UInt64.toNat_inj, UInt64.toNat_or, hshift, UInt32.toNat_toUInt64, UInt64.toNat_toUInt32,
    ← Nat.shiftLeft_add_eq_or_of_lt hlow, Nat.shiftLeft_eq]
  exact Nat.div_add_mod' v.toNat (2 ^ 32)

end HosBoot.Foundation
