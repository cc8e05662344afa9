/-
  Common/Format.lean --- `formatunsigned` and `formatint` of `string.c`.

  The digits come from long division by descending powers of the base, starting at
  the power that a table of digit counts gives.  `numeral` is the list of digits
  that the loop shows, and `formatunsigned_eq` says that they are what the buffer
  holds, before a terminator.
-/
import Mathlib.Data.List.Nodup
import HosBoot.Foundation.Digits
import HosBoot.Common.CString
import HosBoot.Common.Math
import HosBoot.Common.Stdlib

set_option autoImplicit false

namespace HosBoot.Common

open HosBoot.Foundation

/-! ## The tables -/

/-- `digits` -/
def digits : List UInt8 :=
  ("0123456789" ++ "abcdefghijklmnopqrstuvwxyz" ++ "ABCDEFGHIJKLMNOPQRSTUVWXYZ" ++
    "+/").toList.map fun c => UInt8.ofNat c.toNat

/-- `powers` -/
def powers : List Int32 :=
  [-1, -1,
    32,
    20, 16,
    13, 12, 11, 10,
    10, 9, 9, 8, 8, 8, 8, 8,
    7, 7, 7, 7, 7, 7, 7, 6, 6, 6, 6, 6, 6, 6, 6, 6,
    6, 6, 6, 6, 6, 6, 6, 6, 5, 5, 5, 5, 5, 5, 5, 5,
    5, 5, 5, 5, 5, 5, 5, 5, 5, 5, 5, 5, 5, 5, 5, 5]

/-- Memory around `digits`: the table with its terminator, and whatever the linker puts
in front of it and behind it. -/
structure DigitTable where
  /-- `digits[d]` -/
  byte : Int → UInt8
  table : ∀ d : Nat, d ≤ 64 → byte d = digits.getD d 0

/-! ## The functions -/

/-- `'0'` -/
def zeroChar : UInt8 := 0x30
/-- `'-'` -/
def minusChar : UInt8 := 0x2D

/-- The loop of `formatunsigned`: the length and the memory at its end.  `divider` loses a
bit in each turn, so that 32 turns are enough. -/
def formatLoop (T : DigitTable) (base : Int32) (buffer : UInt32) :
    Nat → UInt32 → UInt32 → Bool → Nat → Mem → Option (Nat × Mem)
  | 0, _, _, _, _, _ => none
  | fuel + 1, i, divider, started, length, m =>
      let nextDigit := (i / divider).toInt32
      let started := started || decide (0 < nextDigit)
      let (length, m) :=
        if started then (length + 1, m.write (buffer.toNat + length) (T.byte nextDigit.toInt))
        else (length, m)
      let i := i % divider
      let divider := divider / base.toUInt32
      if divider ≠ 0 then formatLoop T base buffer fuel i divider started length m
      else some (length, m)

/-- `formatunsigned`: the value returned, and the memory.  `pad_zeros` is an `int` that is
only tested. -/
def formatunsigned (T : DigitTable) (m : Mem) (i : UInt32) (base : Int32) (padZeros : Bool)
    (buffer : UInt32) : Option (Int × Mem) :=
  if base < 2 ∨ base > 64 then
    some (-1, m)
  else if i = 0 ∧ padZeros = false then
    some (1, (m.write buffer.toNat zeroChar).write (buffer.toNat + 1) 0)
  else do
    let divider ← ipow base (powers.getD base.toInt.toNat 0 - 1)
    let (length, m) ← formatLoop T base buffer 32 i divider.toUInt32 padZeros 0 m
    return (length, m.write (buffer.toNat + length) 0)

/-- `formatint`. -/
def formatint (T : DigitTable) (m : Mem) (i : Int32) (base : Int32) (padZeros : Bool)
    (buffer : UInt32) : Option (Int × Mem) :=
  if i < 0 then do
    let (unsignedLength, m) ← formatunsigned T m (-i).toUInt32 base padZeros buffer
    if unsignedLength > 0 then
      let m := memcpy m (buffer + 1) buffer (unsignedLength.toNat + 1)
      return (unsignedLength, m.write buffer.toNat minusChar)
    else
      return (unsignedLength, m)
  else
    formatunsigned T m i.toUInt32 base padZeros buffer

/-! ## What the tables hold -/

/-- The digit count of a base. -/
def width (b : Nat) : Nat := (powers.getD b 0).toInt.toNat

/-- The counts are small, and the first divider is a 32-bit word. -/
theorem width_spec {b : Nat} (hlow : 2 ≤ b) (hhigh : b ≤ 64) :
    (5 ≤ width b ∧ width b ≤ 32) ∧ b ^ (width b - 1) < 2 ^ 32 ∧
      (powers.getD b 0 - 1).toInt = (width b - 1 : Nat) := by
  have htable : ∀ b < 65, 2 ≤ b → (5 ≤ width b ∧ width b ≤ 32) ∧ b ^ (width b - 1) < 2 ^ 32 ∧
      (powers.getD b 0 - 1).toInt = (width b - 1 : Nat) := by
    decide +kernel
  exact htable b (Nat.lt_succ_of_le hhigh) hlow

/-- The character of a digit. -/
def digitChar (d : Nat) : UInt8 := digits.getD d 0

theorem digitChar_ne_zero {d : Nat} (h : d < 64) : digitChar d ≠ 0 := by
  have htable : ∀ d < 64, digitChar d ≠ 0 := by decide +kernel
  exact htable d h

/-- Different digits have different characters. -/
theorem digitChar_inj {d d' : Nat} (h : d < 64) (h' : d' < 64) (heq : digitChar d = digitChar d') :
    d = d' := by
  have hnodup : digits.Nodup := by decide +kernel
  have hlen : digits.length = 64 := by decide +kernel
  unfold digitChar at heq
  rw [← List.getElem_eq_getD (h := hlen ▸ h), ← List.getElem_eq_getD (h := hlen ▸ h')] at heq
  exact (List.Nodup.getElem_inj_iff hnodup).mp heq

namespace DigitTable

variable (T : DigitTable)

/-- The characters that are stored for digits. -/
def chars (ds : List Nat) : List UInt8 := ds.map fun d : Nat => T.byte d

theorem chars_append (ds ds' : List Nat) : T.chars (ds ++ ds') = T.chars ds ++ T.chars ds' :=
  List.map_append

theorem byte_eq {d : Nat} (h : d ≤ 64) : T.byte d = digitChar d := T.table d h

@[simp] theorem length_chars (ds : List Nat) : (T.chars ds).length = ds.length := List.length_map _

/-- Digits have the characters of the table. -/
theorem chars_eq {ds : List Nat} (h : ∀ d ∈ ds, d < 64) : T.chars ds = ds.map digitChar :=
  List.map_congr_left fun d hd => T.table d (h d hd).le

end DigitTable

/-! ## The digits of the loop -/

/-- The digits that are shown once the first of them may be. -/
def shown (started : Bool) (ds : List Nat) : List Nat := if started then ds else stripZeros ds

/-- The digit that one turn of the loop shows, if any. -/
def shownFirst (started : Bool) (d : Nat) : List Nat :=
  if started || decide (0 < d) then [d] else []

theorem shown_cons (started : Bool) (d : Nat) (ds : List Nat) :
    shown started (d :: ds) = shownFirst started d ++ shown (started || decide (0 < d)) ds := by
  cases started with
  | true => rfl
  | false =>
    rcases Nat.eq_zero_or_pos d with rfl | hpos
    · rfl
    · simp only [shown, shownFirst, Bool.false_or, decide_eq_true hpos, if_true,
        Bool.false_eq_true, if_false]
      exact stripZeros_cons (Nat.ne_of_gt hpos) ds

theorem shown_nil (started : Bool) : shown started [] = [] := by
  cases started <;> rfl

section Loop

variable {T : DigitTable} {base : Int32} {buffer : UInt32}

/-- One turn of the loop. -/
theorem formatLoop_succ (fuel : Nat) {i divider : UInt32} (started : Bool) (length : Nat) (m : Mem)
    (hquot : i.toNat / divider.toNat < 2 ^ 31) :
    formatLoop T base buffer (fuel + 1) i divider started length m =
      let out := shownFirst started (i.toNat / divider.toNat)
      let m := m.writeList (buffer.toNat + length) (T.chars out)
      if divider / base.toUInt32 ≠ 0 then
        formatLoop T base buffer fuel (i % divider) (divider / base.toUInt32)
          (started || decide (0 < i.toNat / divider.toNat)) (length + out.length) m
      else
        some (length + out.length, m) := by
  have hdigit : (i / divider).toInt32.toInt = (i.toNat / divider.toNat : Nat) := by
    rw [toInt32_toInt_of_lt (by rwa [UInt32.toNat_div]), UInt32.toNat_div]
  have hpos : 0 < (i / divider).toInt32 ↔ 0 < i.toNat / divider.toNat := by
    rw [Int32.lt_iff_toInt_lt, hdigit]
    exact Int.natCast_pos
  rw [formatLoop]
  simp only [decide_eq_decide.mpr hpos, hdigit, shownFirst]
  cases started || decide (0 < i.toNat / divider.toNat) <;> rfl

/-- The quotients of the loop, from the power `b ^ k` down, are those of the long
division. -/
theorem formatLoop_eq (T : DigitTable) (buffer : UInt32) {b : Nat}
    (hbase : base.toUInt32.toNat = b) (hlow : 2 ≤ b) (hhigh : b ≤ 64) :
    ∀ {k fuel : Nat} {i divider : UInt32} (started : Bool) (length : Nat) (m : Mem),
      k < fuel → divider.toNat = b ^ k → i.toNat / b ^ k < 2 ^ 31 →
      formatLoop T base buffer fuel i divider started length m =
        some (length + (shown started (longDivision b (k + 1) i.toNat)).length,
          m.writeList (buffer.toNat + length)
            (T.chars (shown started (longDivision b (k + 1) i.toNat)))) := by
  intro k
  induction k with
  | zero =>
    intro fuel i divider started length m hfuel hdivider hquot
    obtain ⟨fuel, rfl⟩ : ∃ f, fuel = f + 1 := ⟨fuel - 1, by omega⟩
    have hlast : divider / base.toUInt32 = 0 := by
      rw [← UInt32.toNat_inj, UInt32.toNat_div, hdivider, hbase, Nat.pow_zero]
      exact Nat.div_eq_of_lt hlow
    have hdigits : longDivision b (0 + 1) i.toNat = [i.toNat / divider.toNat] := by
      rw [hdivider]
      rfl
    rw [← hdivider] at hquot
    rw [formatLoop_succ fuel started length m hquot, hdigits, shown_cons, shown_nil,
      List.append_nil]
    exact if_neg (not_not.mpr hlast)
  | succ k ih =>
    intro fuel i divider started length m hfuel hdivider hquot
    obtain ⟨fuel, rfl⟩ : ∃ f, fuel = f + 1 := ⟨fuel - 1, by omega⟩
    have hpow : 0 < b ^ k := Nat.pow_pos (by omega)
    have hnext : (divider / base.toUInt32).toNat = b ^ k := by
      rw [UInt32.toNat_div, hdivider, hbase, Nat.pow_succ]
      exact Nat.mul_div_cancel _ (by omega)
    have hmore : divider / base.toUInt32 ≠ 0 := by
      rw [ne_eq, ← UInt32.toNat_inj, hnext]
      exact Nat.ne_of_gt hpow
    have hrest : (i % divider).toNat = i.toNat % b ^ (k + 1) := by
      rw [UInt32.toNat_mod, hdivider]
    have hquot' : (i % divider).toNat / b ^ k < 2 ^ 31 := by
      have hlt : i.toNat % b ^ (k + 1) / b ^ k < b := by
        rw [Nat.div_lt_iff_lt_mul hpow, Nat.mul_comm, ← Nat.pow_succ]
        exact Nat.mod_lt _ (Nat.pow_pos (by omega))
      rw [hrest]
      omega
    have hdigits : longDivision b (k + 1 + 1) i.toNat =
        i.toNat / divider.toNat :: longDivision b (k + 1) (i % divider).toNat := by
      rw [hrest, hdivider]
      rfl
    rw [← hdivider] at hquot
    rw [formatLoop_succ fuel started length m hquot, hdigits, shown_cons, T.chars_append,
      Mem.writeList_append, T.length_chars, List.length_append]
    dsimp only
    rw [if_pos hmore, ih _ _ _ (by omega) hnext hquot']
    simp only [Nat.add_assoc]

end Loop

/-! ## The functions as numerals -/

/-- The digits that `formatunsigned` shows. -/
def numeral (b : Nat) (padZeros : Bool) (i : Nat) : List Nat :=
  if i = 0 ∧ padZeros = false then [0] else shown padZeros (longDivision b (width b) i)

section Unsigned

variable {base : Int32} {b : Nat}

/-- A base that is supported. -/
structure IsBase (base : Int32) (b : Nat) : Prop where
  value : base.toInt = b
  low : 2 ≤ b
  high : b ≤ 64

theorem IsBase.toNat (h : IsBase base b) : base.toUInt32.toNat = b := by
  have hbits := toUInt32_toNat base
  have hhigh := h.high
  rw [h.value] at hbits
  omega

/-- The divider that the loop starts with. -/
theorem IsBase.divider (h : IsBase base b) :
    ∃ r, ipow base (powers.getD base.toInt.toNat 0 - 1) = some r ∧
      r.toUInt32.toNat = b ^ (width b - 1) := by
  obtain ⟨_, hfits, hexp⟩ := width_spec h.low h.high
  have hindex : base.toInt.toNat = b := by
    rw [h.value]
    rfl
  obtain ⟨r, hr, hval⟩ := ipow_eq base (e := powers.getD b 0 - 1) (by omega)
  refine ⟨r, hindex.symm ▸ hr, ?_⟩
  have hbits := toUInt32_toNat r
  have hpow : (b : Int) ^ (width b - 1) = ((b ^ (width b - 1) : Nat) : Int) := by push_cast; rfl
  have hmod : r.toInt % (2 ^ 32 : Nat) = ((b ^ (width b - 1) : Nat) : Int) % (2 ^ 32 : Nat) := by
    rw [hval, h.value, hexp, Int.toNat_natCast, hpow]
    exact Int.bmod_emod
  omega

/-- `formatunsigned` stores the characters of the numeral, and returns their number. -/
theorem formatunsigned_eq (T : DigitTable) (m : Mem) (i : UInt32) (padZeros : Bool)
    (buffer : UInt32) (h : IsBase base b) :
    formatunsigned T m i base padZeros buffer =
      some (((numeral b padZeros i.toNat).length : Int),
        m.writeList buffer.toNat (T.chars (numeral b padZeros i.toNat) ++ [0])) := by
  have hlow := h.low
  have hhigh := h.high
  have hsupported : ¬ (base < 2 ∨ base > 64) := by
    have htwo : (2 : Int32).toInt = 2 := rfl
    have hmax : (64 : Int32).toInt = 64 := rfl
    rw [gt_iff_lt, Int32.lt_iff_toInt_lt, Int32.lt_iff_toInt_lt, h.value, htwo, hmax]
    omega
  have hzero : i = 0 ↔ i.toNat = 0 := by
    rw [← UInt32.toNat_inj]
    rfl
  unfold formatunsigned numeral
  rw [if_neg hsupported]
  by_cases hplain : i = 0 ∧ padZeros = false
  · have hchar : T.chars [0] = [zeroChar] := T.chars_eq (by decide)
    rw [if_pos hplain, if_pos ⟨hzero.mp hplain.1, hplain.2⟩, hchar]
    rfl
  · rw [if_neg hplain, if_neg fun hnat => hplain ⟨hzero.mpr hnat.1, hnat.2⟩]
    obtain ⟨⟨hwide, hnarrow⟩, _, _⟩ := width_spec hlow hhigh
    obtain ⟨divider, hdivider, hvalue⟩ := h.divider
    obtain ⟨k, hk⟩ : ∃ k, width b = k + 1 := ⟨width b - 1, by omega⟩
    have hquot : i.toNat / b ^ k < 2 ^ 31 := by
      have hlt := i.toNat_lt
      have hpow : 2 ^ 1 ≤ b ^ k := (Nat.pow_le_pow_left hlow 1).trans
        (Nat.pow_le_pow_right (by omega) (by omega))
      have hle := Nat.div_le_div_left (a := i.toNat) hpow (by decide)
      omega
    rw [hk, Nat.add_sub_cancel] at hvalue
    have hloop := formatLoop_eq T buffer h.toNat hlow hhigh padZeros 0 m (show k < 32 by omega)
      hvalue hquot
    simp only [hdivider, hloop, hk, Option.bind_eq_bind, Option.bind_some, Nat.zero_add,
      Nat.add_zero]
    rw [Mem.writeList_append, T.length_chars]
    rfl

end Unsigned

end HosBoot.Common
