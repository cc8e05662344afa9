/-
  Common/Align.lean --- the alignment macros of `common.h`.

      ALIGN_4K_UP(x)    (((x) + 0x1000 - 1) & ~0xFFF)
      ALIGN_4K_DOWN(x)  ((x) & ~0xFFF)
      ALIGNED_4K(x)     (!((x) & 0xFFF))

  A macro works at the type of its argument, so each has a 64-bit and, where the
  source uses it at 32 bits, a 32-bit reading; the additions wrap at that width.
  `~0xFFF` is a negative `int`, which both conversions extend with ones.
-/
import HosBoot.Foundation.Align

set_option autoImplicit false

namespace HosBoot.Common

open HosBoot.Foundation

/-- `ALIGN_4K_UP` at `uint64_t`. -/
def align4kUp (x : UInt64) : UInt64 := (x + 0x1000 - 1) &&& ~~~0xFFF

/-- `ALIGN_4K_UP` at `uint32_t`. -/
def align4kUp32 (x : UInt32) : UInt32 := (x + 0x1000 - 1) &&& ~~~0xFFF

/-- `ALIGN_4K_DOWN` at `uint64_t`. -/
def align4kDown (x : UInt64) : UInt64 := x &&& ~~~0xFFF

/-- `ALIGNED_4K` at `uint64_t`. -/
def aligned4k (x : UInt64) : Bool := x &&& 0xFFF == 0

/-- `ALIGNED_4K` at `uint32_t`. -/
def aligned4k32 (x : UInt32) : Bool := x &&& 0xFFF == 0

/-! ## What the macros compute -/

theorem align4kDown_toNat (x : UInt64) : (align4kDown x).toNat = roundDown 4096 x.toNat := by
  rw [align4kDown, UInt64.toNat_and]
  exact and_highMask (w := 64) (k := 12) (by omega) x.toNat_lt

theorem add_pageSize_sub_one (x : UInt64) :
    (x + 0x1000 - 1).toNat = (x.toNat + 4095) % 2 ^ 64 := by
  rw [UInt64.toNat_sub, UInt64.toNat_add]
  change (2 ^ 64 - 1 + (x.toNat + 4096) % 2 ^ 64) % 2 ^ 64 = _
  omega

theorem add_pageSize_sub_one32 (x : UInt32) :
    (x + 0x1000 - 1).toNat = (x.toNat + 4095) % 2 ^ 32 := by
  rw [UInt32.toNat_sub, UInt32.toNat_add]
  change (2 ^ 32 - 1 + (x.toNat + 4096) % 2 ^ 32) % 2 ^ 32 = _
  omega

/-- The 64-bit macro: the sum wraps before the mask rounds it down. -/
theorem align4kUp_toNat_mod (x : UInt64) :
    (align4kUp x).toNat = (x.toNat + 4095) % 2 ^ 64 / 4096 * 4096 := by
  rw [align4kUp, UInt64.toNat_and, add_pageSize_sub_one]
  exact and_highMask (w := 64) (k := 12) (by omega) (Nat.mod_lt _ (by omega))

/-- The 32-bit macro: the sum wraps before the mask rounds it down. -/
theorem align4kUp32_toNat_mod (x : UInt32) :
    (align4kUp32 x).toNat = (x.toNat + 4095) % 2 ^ 32 / 4096 * 4096 := by
  rw [align4kUp32, UInt32.toNat_and, add_pageSize_sub_one32]
  exact and_highMask (w := 32) (k := 12) (by omega) (Nat.mod_lt _ (by omega))

/-- Modulo `2 ^ 64` the macro always rounds up. -/
theorem align4kUp_modEq (x : UInt64) :
    (align4kUp x).toNat = roundUp 4096 x.toNat % 2 ^ 64 := by
  rw [align4kUp_toNat_mod, roundUp]
  omega

/-- Modulo `2 ^ 32` the macro always rounds up. -/
theorem align4kUp32_modEq (x : UInt32) :
    (align4kUp32 x).toNat = roundUp 4096 x.toNat % 2 ^ 32 := by
  rw [align4kUp32_toNat_mod, roundUp]
  omega

theorem aligned4k_iff {x : UInt64} : aligned4k x = true ↔ 4096 ∣ x.toNat := by
  have h : (x &&& 0xFFF).toNat = x.toNat % 4096 := by
    rw [UInt64.toNat_and]
    exact and_lowMask x.toNat 12
  rw [aligned4k, beq_iff_eq, ← UInt64.toNat_inj, h]
  change x.toNat % 4096 = 0 ↔ _
  omega

theorem aligned4k32_iff {x : UInt32} : aligned4k32 x = true ↔ 4096 ∣ x.toNat := by
  have h : (x &&& 0xFFF).toNat = x.toNat % 4096 := by
    rw [UInt32.toNat_and]
    exact and_lowMask x.toNat 12
  rw [aligned4k32, beq_iff_eq, ← UInt32.toNat_inj, h]
  change x.toNat % 4096 = 0 ↔ _
  omega

end HosBoot.Common
