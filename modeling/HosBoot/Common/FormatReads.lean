/-
  Common/FormatReads.lean --- what a reader of the formatted number sees.

  The table of digit counts is too small for most bases: from `base ^ width` on, the
  first quotient of the long division is no digit of the base.  A negative number is
  formatted by its magnitude and then moved up by one byte, with a copy that runs the
  wrong way.
-/
import HosBoot.Common.Format

set_option autoImplicit false

namespace HosBoot.Common

open HosBoot.Foundation

variable {base : Int32} {b i : Nat} {padZeros : Bool}

/-! ## Numerals -/

theorem width_pos (hlow : 2 ≤ b) (hhigh : b ≤ 64) : 0 < width b := by
  have hwide := (width_spec hlow hhigh).1.1
  omega

theorem IsBase.exists_width (h : IsBase base b) : ∃ k, width b = k + 1 :=
  Nat.exists_eq_add_one.mpr (width_pos h.low h.high)

theorem digitsValue_shown (started : Bool) (ds : List Nat) :
    digitsValue b (shown started ds) = digitsValue b ds := by
  cases started with
  | true => rfl
  | false => exact digitsValue_stripZeros b ds

/-- The value of the numeral is the number, in every case. -/
theorem digitsValue_numeral (h : IsBase base b) (padZeros : Bool) (i : Nat) :
    digitsValue b (numeral b padZeros i) = i := by
  unfold numeral
  split
  · rename_i hplain
    rw [digitsValue_singleton, hplain.1]
  · rw [digitsValue_shown, digitsValue_longDivision b (width_pos h.low h.high)]

theorem mem_of_mem_shown {started : Bool} {d : Nat} {ds : List Nat} (h : d ∈ shown started ds) :
    d ∈ ds := by
  cases started with
  | true => exact h
  | false => exact (List.dropWhile_suffix _).subset h

theorem length_shown_le (started : Bool) (ds : List Nat) :
    (shown started ds).length ≤ ds.length := by
  cases started with
  | true => exact Nat.le_refl _
  | false => exact (List.dropWhile_suffix _).length_le

theorem length_numeral_le (h : IsBase base b) (padZeros : Bool) (i : Nat) :
    (numeral b padZeros i).length ≤ width b := by
  have hle := length_shown_le padZeros (longDivision b (width b) i)
  rw [length_longDivision] at hle
  unfold numeral
  split
  · exact width_pos h.low h.high
  · exact hle

/-- Below `b ^ width` the numeral consists of digits. -/
theorem numeral_lt (h : IsBase base b) (padZeros : Bool) (hfits : i < b ^ width b) :
    ∀ d ∈ numeral b padZeros i, d < b := by
  have hlow := h.low
  intro d hd
  unfold numeral at hd
  split at hd
  · obtain rfl := List.mem_singleton.mp hd
    omega
  · exact longDivision_lt (by omega) hfits d (mem_of_mem_shown hd)

/-- A numeral that is not padded has no leading zero. -/
theorem numeral_head (i : Nat) :
    (i = 0 → numeral b false i = [0]) ∧ (i ≠ 0 → (numeral b false i).head? ≠ some 0) := by
  constructor
  · exact fun hzero => if_pos ⟨hzero, rfl⟩
  · intro hne
    have hnumeral : numeral b false i = shown false (longDivision b (width b) i) :=
      if_neg fun h => hne h.1
    rw [hnumeral]
    exact head_stripZeros _

/-- The first quotient, when it is not zero, starts the numeral. -/
theorem numeral_of_quot_ne_zero (h : IsBase base b) (hne : i / b ^ (width b - 1) ≠ 0) :
    numeral b padZeros i = longDivision b (width b) i := by
  obtain ⟨k, hk⟩ := h.exists_width
  have hi : i ≠ 0 := by
    rintro rfl
    exact hne (Nat.zero_div _)
  rw [hk, Nat.add_sub_cancel] at hne
  rw [numeral, if_neg fun hplain => hi hplain.1, hk, longDivision]
  cases padZeros with
  | true => rfl
  | false => exact stripZeros_cons hne _

/-! ## Reading back -/

/-- The buffer reads back as the number: a string of digits of the base, of the length
returned and with the right value, and without leading zeros unless they were asked for. -/
def ReadsBack (m : Mem) (buffer : UInt32) (b : Nat) (padZeros : Bool) (i : Nat) (length : Int) :
    Prop :=
  ∃ ds : List Nat, (∀ d ∈ ds, d < b) ∧ CString m buffer.toNat (ds.map digitChar) ∧
    length = ds.length ∧ digitsValue b ds = i ∧
    (padZeros = false → (i = 0 → ds = [0]) ∧ (i ≠ 0 → ds.head? ≠ some 0))

theorem zero_not_mem_map_digitChar {ds : List Nat} (h : ∀ d ∈ ds, d < 64) :
    0 ∉ ds.map digitChar := by
  intro hmem
  obtain ⟨d, hd, hzero⟩ := List.mem_map.mp hmem
  exact digitChar_ne_zero (h d hd) hzero

theorem takeWhile_eq_self {l : List UInt8} (h : 0 ∉ l) : l.takeWhile (· != 0) = l := by
  refine List.takeWhile_eq_self_iff.mpr fun c hc => ?_
  have hne : c ≠ 0 := fun hzero => h (hzero ▸ hc)
  simpa using hne

/-- Digits of any base are a string. -/
theorem CString.writeDigits (T : DigitTable) (m : Mem) (p : Nat) {ds : List Nat}
    (h : ∀ d ∈ ds, d < 64) :
    CString (m.writeList p (T.chars ds ++ [0])) p (ds.map digitChar) := by
  have hstring := CString.writeList (ds.map digitChar) m p
  rw [takeWhile_eq_self (zero_not_mem_map_digitChar h)] at hstring
  rw [T.chars_eq h]
  exact hstring

/-- The number reads back exactly if the table has room for its digits. -/
theorem formatunsigned_readsBack_iff (T : DigitTable) (m : Mem) (i : UInt32) (padZeros : Bool)
    (buffer : UInt32) (h : IsBase base b) :
    (∃ length m', formatunsigned T m i base padZeros buffer = some (length, m') ∧
        ReadsBack m' buffer b padZeros i.toNat length) ↔
      i.toNat < b ^ width b := by
  have hlow := h.low
  have hhigh := h.high
  rw [formatunsigned_eq T m i padZeros buffer h]
  constructor
  · rintro ⟨length, m', hrun, ds, hdigits, _, hlength, hvalue, _⟩
    obtain ⟨rfl, rfl⟩ := Prod.mk.inj (Option.some.inj hrun)
    have hle := length_numeral_le h padZeros i.toNat
    have hlt := digitsValue_lt (by omega) hdigits
    have hpow : b ^ ds.length ≤ b ^ width b := Nat.pow_le_pow_right (by omega) (by omega)
    omega
  · intro hfits
    have hdigits := numeral_lt h padZeros hfits
    have hsmall : ∀ d ∈ numeral b padZeros i.toNat, d < 64 :=
      fun d hd => (hdigits d hd).trans_le hhigh
    exact ⟨_, _, rfl, numeral b padZeros i.toNat, hdigits,
      CString.writeDigits T m buffer.toNat hsmall, rfl, digitsValue_numeral h padZeros i.toNat,
      fun hpad => hpad ▸ numeral_head i.toNat⟩

/-! ## Signed numbers -/

/-- The magnitude of a number. -/
def magnitude (i : Int32) : UInt32 := UInt32.ofNat i.toInt.natAbs

/-- The sign in front of a number. -/
def signOf (i : Int32) : List UInt8 := if i < 0 then [minusChar] else []

/-- The buffer that `formatint` leaves holds what `formatunsigned` produces for the
magnitude, with the sign in front, and the value returned is its length. -/
def SignedReads (T : DigitTable) (m : Mem) (i base : Int32) (padZeros : Bool) (buffer : UInt32) :
    Prop :=
  ∃ length m₁ text length' m₂,
    formatunsigned T m (magnitude i) base padZeros buffer = some (length, m₁) ∧
      CString m₁ buffer.toNat text ∧
      formatint T m i base padZeros buffer = some (length', m₂) ∧
      CString m₂ buffer.toNat (signOf i ++ text) ∧ length' = (signOf i ++ text).length

theorem magnitude_toNat (i : Int32) : (magnitude i).toNat = i.toInt.natAbs := by
  have hlow := i.le_toInt
  have hhigh := i.toInt_lt
  unfold magnitude
  rw [UInt32.toNat_ofNat']
  exact Nat.mod_eq_of_lt (by omega)

theorem magnitude_toNat_of_nonneg {i : Int32} (h : 0 ≤ i.toInt) :
    (magnitude i).toNat = i.toInt.toNat := by
  rw [magnitude_toNat]
  omega

theorem magnitude_of_nonneg {i : Int32} (h : 0 ≤ i.toInt) : i.toUInt32 = magnitude i := by
  have hbits := toUInt32_toNat i
  have hhigh := i.toInt_lt
  rw [← UInt32.toNat_inj, magnitude_toNat]
  omega

/-- `(unsigned int) -i`, also for `INT_MIN`. -/
theorem magnitude_of_neg {i : Int32} (h : i.toInt < 0) : (-i).toUInt32 = magnitude i := by
  have hbits := toUInt32_toNat (-i)
  have hlow := i.le_toInt
  have hmod : (-i).toInt % (2 ^ 32 : Nat) = -i.toInt % (2 ^ 32 : Nat) := by
    rw [Int32.toInt_neg]
    exact Int.bmod_emod
  rw [← UInt32.toNat_inj, magnitude_toNat]
  omega

theorem lt_zero_iff {i : Int32} : i < 0 ↔ i.toInt < 0 := Int32.lt_iff_toInt_lt

theorem formatint_of_nonneg (T : DigitTable) (m : Mem) {i : Int32} (base : Int32)
    (padZeros : Bool) (buffer : UInt32) (hi : 0 ≤ i.toInt) :
    formatint T m i base padZeros buffer =
      formatunsigned T m (magnitude i) base padZeros buffer := by
  have hneg : ¬ i < 0 := fun hlt => absurd (lt_zero_iff.mp hlt) (not_lt.mpr hi)
  rw [formatint, if_neg hneg, magnitude_of_nonneg hi]

/-- The length returned is that of the digits, with or without a sign. -/
theorem formatint_returns (T : DigitTable) (m : Mem) (i : Int32) (padZeros : Bool)
    (buffer : UInt32) (h : IsBase base b) :
    ∃ m', formatint T m i base padZeros buffer =
      some (((numeral b padZeros (magnitude i).toNat).length : Int), m') := by
  have hrun := formatunsigned_eq T m (magnitude i) padZeros buffer h
  by_cases hneg : i.toInt < 0
  · rw [formatint, if_pos (lt_zero_iff.mpr hneg), magnitude_of_neg hneg, hrun]
    simp only [Option.bind_eq_bind, Option.bind_some]
    split
    · exact ⟨_, rfl⟩
    · exact ⟨_, rfl⟩
  · rw [formatint_of_nonneg T m base padZeros buffer (not_lt.mp hneg), hrun]
    exact ⟨_, rfl⟩

/-- A zero byte among the characters can only be that of the first quotient, and then the
quotient starts the numeral. -/
theorem byte_eq_zero_of_mem {T : DigitTable} (h : IsBase base b)
    (hmem : 0 ∈ T.chars (numeral b padZeros i)) :
    i / b ^ (width b - 1) ≠ 0 ∧ T.byte (i / b ^ (width b - 1) : Nat) = 0 := by
  have hlow := h.low
  have hhigh := h.high
  have hpow : 0 < b ^ (width b - 1) := Nat.pow_pos (by omega)
  by_cases hquot : i / b ^ (width b - 1) = 0
  · -- All quotients are digits.
    have hfits : i < b ^ width b := by
      have hlt := (Nat.div_eq_zero_iff_lt hpow).mp hquot
      exact hlt.trans_le (Nat.pow_le_pow_right (by omega) (by omega))
    have hsmall : ∀ d ∈ numeral b padZeros i, d < 64 :=
      fun d hd => (numeral_lt h padZeros hfits d hd).trans_le hhigh
    rw [T.chars_eq hsmall] at hmem
    exact absurd hmem (zero_not_mem_map_digitChar hsmall)
  · -- The quotients behind the first are.
    obtain ⟨k, hk⟩ := h.exists_width
    have hrest : ∀ d ∈ longDivision b k (i % b ^ k), d < 64 := fun d hd =>
      (longDivision_lt (by omega) (Nat.mod_lt _ (Nat.pow_pos (by omega))) d hd).trans_le hhigh
    have hchars : T.chars (numeral b padZeros i) =
        T.byte (i / b ^ k : Nat) :: (longDivision b k (i % b ^ k)).map digitChar := by
      rw [numeral_of_quot_ne_zero h hquot, hk, ← T.chars_eq hrest]
      rfl
    refine ⟨hquot, ?_⟩
    rw [hchars] at hmem
    rw [hk, Nat.add_sub_cancel]
    rcases List.mem_cons.mp hmem with hzero | htail
    · exact hzero.symm
    · exact absurd htail (zero_not_mem_map_digitChar hrest)

/-- What `formatunsigned` leaves is a string of the length returned if the first quotient
has a character, and else it is empty. -/
theorem takeWhile_chars (T : DigitTable) (h : IsBase base b) (padZeros : Bool) (i : Nat) :
    (T.byte (i / b ^ (width b - 1) : Nat) ≠ 0 ∧
        (T.chars (numeral b padZeros i)).takeWhile (· != 0) = T.chars (numeral b padZeros i)) ∨
      (T.byte (i / b ^ (width b - 1) : Nat) = 0 ∧ 5 ≤ (numeral b padZeros i).length ∧
        (T.chars (numeral b padZeros i)).takeWhile (· != 0) = []) := by
  by_cases hbyte : T.byte (i / b ^ (width b - 1) : Nat) = 0
  · have hquot : i / b ^ (width b - 1) ≠ 0 := by
      intro hzero
      rw [hzero, T.table 0 (by omega)] at hbyte
      exact digitChar_ne_zero (by omega) hbyte
    have hwide := (width_spec h.low h.high).1.1
    obtain ⟨k, hk⟩ := h.exists_width
    refine Or.inr ⟨hbyte, ?_, ?_⟩
    · rw [numeral_of_quot_ne_zero h hquot, length_longDivision]
      exact hwide
    · rw [hk, Nat.add_sub_cancel] at hbyte
      rw [numeral_of_quot_ne_zero h hquot, hk, longDivision, DigitTable.chars, List.map_cons,
        List.takeWhile_cons, hbyte]
      rfl
  · exact Or.inl ⟨hbyte, takeWhile_eq_self fun hmem => hbyte (byte_eq_zero_of_mem h hmem).2⟩

/-- `formatint` leaves the signed number exactly if it is not negative, and the first
quotient has a character. -/
theorem formatint_signedReads_iff (T : DigitTable) (m : Mem) (i : Int32) (padZeros : Bool)
    (buffer : UInt32) (h : IsBase base b) :
    SignedReads T m i base padZeros buffer ↔
      0 ≤ i.toInt ∧ T.byte (i.toInt.toNat / b ^ (width b - 1) : Nat) ≠ 0 := by
  have hrun := formatunsigned_eq T m (magnitude i) padZeros buffer h
  have htext := CString.writeList (T.chars (numeral b padZeros (magnitude i).toNat)) m buffer.toNat
  have hcases := takeWhile_chars T h padZeros (magnitude i).toNat
  have hnat : 0 ≤ i.toInt → (magnitude i).toNat = i.toInt.toNat := magnitude_toNat_of_nonneg
  constructor
  · rintro ⟨length, m₁, text, length', m₂, hunsigned, hstring, hsigned, _, hlength⟩
    obtain ⟨rfl, rfl⟩ := Prod.mk.inj (Option.some.inj (hrun.symm.trans hunsigned))
    obtain ⟨m', hreturns⟩ := formatint_returns T m i padZeros buffer h
    obtain ⟨rfl, rfl⟩ := Prod.mk.inj (Option.some.inj (hreturns.symm.trans hsigned))
    have hlen := congrArg List.length (hstring.unique htext)
    rw [List.length_append] at hlength
    have hsign : (signOf i).length = if i < 0 then 1 else 0 := by
      unfold signOf
      split <;> rfl
    rcases hcases with ⟨hbyte, hall⟩ | ⟨_, hlong, hnone⟩
    · -- The digits alone have the length returned.
      have hneg : ¬ i < 0 := by
        intro hneg
        rw [hall, T.length_chars] at hlen
        rw [if_pos hneg] at hsign
        omega
      have hnonneg : 0 ≤ i.toInt := not_lt.mp fun hlt => hneg (lt_zero_iff.mpr hlt)
      rw [hnat hnonneg] at hbyte
      exact ⟨hnonneg, hbyte⟩
    · rw [hnone, List.length_nil] at hlen
      split at hsign <;> omega
  · rintro ⟨hnonneg, hbyte⟩
    have hsign : signOf i = [] := if_neg fun hlt => absurd (lt_zero_iff.mp hlt) (not_lt.mpr hnonneg)
    rw [← hnat hnonneg] at hbyte
    rcases hcases with ⟨_, hall⟩ | ⟨hzero, _⟩
    · have hsigned := formatint_of_nonneg T m base padZeros buffer hnonneg
      refine ⟨_, _, _, _, _, hrun, htext, hsigned.trans hrun, ?_, ?_⟩
      · rw [hsign]
        exact htext
      · rw [hsign, hall, List.nil_append, T.length_chars]
    · exact absurd hzero hbyte

/-! ## Negative numbers -/

/-- A negative number: the copy that makes room for the sign fills the buffer with the
first digit, and overwrites the terminator. -/
theorem formatint_of_neg (T : DigitTable) (m : Mem) {i : Int32} (padZeros : Bool)
    (buffer : UInt32) (h : IsBase base b) (hi : i.toInt < 0) {d : Nat} {ds : List Nat}
    (hnumeral : numeral b padZeros (magnitude i).toNat = d :: ds)
    (hbuffer : buffer.toNat + (ds.length + 2) < 2 ^ 32) :
    ∃ m', formatint T m i base padZeros buffer = some ((ds.length + 1 : Int), m') ∧
      ∀ a, m' a =
        if a = buffer.toNat then minusChar
        else if InRange buffer.toNat (ds.length + 3) a then T.byte d
        else m a := by
  have hrun := formatunsigned_eq T m (magnitude i) padZeros buffer h
  rw [hnumeral] at hrun
  have hlen : (((d :: ds).length : Nat) : Int) = (ds.length + 1 : Int) := by
    rw [List.length_cons]
    push_cast
    rfl
  rw [hlen] at hrun
  rw [formatint, if_pos (lt_zero_iff.mpr hi), magnitude_of_neg hi, hrun]
  simp only [Option.bind_eq_bind, Option.bind_some]
  rw [if_pos (by omega)]
  refine ⟨_, rfl, fun a => ?_⟩
  have hcount : ((ds.length : Int) + 1).toNat + 1 = ds.length + 2 := by omega
  rw [hcount]
  by_cases ha : a = buffer.toNat
  · rw [if_pos ha, ha]
    exact Mem.write_same _ _ _
  · rw [if_neg ha, Mem.write_of_ne ha, memcpy_smear hbuffer]
    by_cases hin : InRange buffer.toNat (ds.length + 3) a
    · have hout : ¬ InRange (buffer.toNat + 1) (T.chars ds ++ [0]).length buffer.toNat :=
        fun hin => absurd hin.1 (by omega)
      rw [if_pos hin, if_pos hin]
      exact (Mem.writeList_of_not_inRange hout).trans (Mem.write_same _ _ _)
    · have hout : ¬ InRange buffer.toNat (T.chars (d :: ds) ++ [0]).length a := by
        rw [List.length_append, T.length_chars, List.length_cons, List.length_singleton]
        unfold InRange at hin ⊢
        omega
      rw [if_neg hin, if_neg hin, Mem.writeList_of_not_inRange hout]

/-! ## Some numbers -/

/-- The table with zeros around it. -/
def bareTable : DigitTable where
  byte d := if d < 0 then 0 else digits.getD d.toNat 0
  table d _ := if_neg (by omega)

theorem isBase_ten : IsBase 10 10 := ⟨rfl, by decide, by decide⟩
theorem isBase_sixteen : IsBase 16 16 := ⟨rfl, by decide, by decide⟩

/-- `1badb002` reads back in base 16. -/
theorem magicNumber_readsBack :
    ∃ length m', formatunsigned bareTable (fun _ => 0) 0x1badb002 16 false 0x1000 =
        some (length, m') ∧
      ReadsBack m' 0x1000 16 false 0x1badb002 length :=
  (formatunsigned_readsBack_iff bareTable (fun _ => 0) 0x1badb002 false 0x1000
    isBase_sixteen).mpr (by decide)

/-- A thousand million needs ten decimal digits, and gets nine: `a00000000`. -/
theorem billion_misreads :
    ∃ length m', formatunsigned bareTable (fun _ => 0) 1000000000 10 false 0x1000 =
        some (length, m') ∧
      CString m' 0x1000 ([0x61] ++ List.replicate 8 0x30) ∧
      ¬ ReadsBack m' 0x1000 10 false 1000000000 length := by
  have hrun := formatunsigned_eq bareTable (fun _ => 0) 1000000000 false 0x1000 isBase_ten
  have hnumeral : numeral 10 false (1000000000 : UInt32).toNat = [10, 0, 0, 0, 0, 0, 0, 0, 0] := by
    decide +kernel
  rw [hnumeral] at hrun
  refine ⟨_, _, hrun, by decide +kernel, ?_⟩
  rintro ⟨ds, hdigits, _, hlength, hvalue, _⟩
  have hlt := digitsValue_lt (by omega) hdigits
  have hnine : ds.length = 9 := by
    rw [List.length_cons] at hlength
    simp at hlength
    omega
  rw [hnine, hvalue] at hlt
  omega

/-- A positive number is left as it should be. -/
theorem positive_signedReads : SignedReads bareTable (fun _ => 0) 255 16 false 0x1000 :=
  (formatint_signedReads_iff bareTable (fun _ => 0) 255 false 0x1000 isBase_sixteen).mpr
    (by decide +kernel)

/-- Minus one: the buffer holds `-11`, and the length returned is one. -/
theorem minusOne_misreads :
    (∃ m', formatint bareTable (fun _ => 0) (-1) 10 false 0x1000 = some (1, m') ∧
        CString m' 0x1000 [0x2D, 0x31, 0x31]) ∧
      ¬ SignedReads bareTable (fun _ => 0) (-1) 10 false 0x1000 := by
  have hnumeral : numeral 10 false (magnitude (-1)).toNat = [1] := by decide +kernel
  obtain ⟨m', hrun, hmem⟩ := formatint_of_neg bareTable (fun _ => 0) (i := -1) false 0x1000
    isBase_ten (by decide) hnumeral (by decide)
  refine ⟨⟨m', hrun, ?_⟩, ?_⟩
  · have hbytes : m' = fun a => if a = (0x1000 : UInt32).toNat then minusChar
        else if InRange (0x1000 : UInt32).toNat 3 a then bareTable.byte 1 else 0 := funext hmem
    rw [hbytes]
    decide +kernel
  · rintro ⟨length, m₁, text, length', m₂, hunsigned, hstring, hsigned, _, hlength⟩
    have hdigits := formatunsigned_eq bareTable (fun _ => 0) (magnitude (-1)) false 0x1000
      isBase_ten
    rw [hnumeral] at hdigits
    obtain ⟨rfl, rfl⟩ := Prod.mk.inj (Option.some.inj (hdigits.symm.trans hunsigned))
    obtain ⟨rfl, rfl⟩ := Prod.mk.inj (Option.some.inj (hrun.symm.trans hsigned))
    have hone : CString (Mem.writeList (fun _ => 0) 0x1000 (bareTable.chars [1] ++ [0])) 0x1000
        [0x31] := by decide +kernel
    rw [hstring.unique hone] at hlength
    exact absurd hlength (by decide)

end HosBoot.Common
