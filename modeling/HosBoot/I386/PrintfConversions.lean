/-
  I386/PrintfConversions.lean --- the texts of the numeric conversions.

  A conversion of an unsigned number puts its numeral.  A negative number leaves a
  buffer without a terminator, so that what is put depends on what the stack held.
-/
import HosBoot.Common.FormatReads
import HosBoot.I386.PrintfStep

set_option autoImplicit false

namespace HosBoot.I386

open HosBoot.Foundation HosBoot.Common

/-! ## Numerals in base 10 and 16 -/

/-- The bases that `printf` uses. -/
structure IsPrintfBase (base : Int32) (b : Nat) : Prop where
  isBase : IsBase base b
  cases : b = 10 ∨ b = 16

theorem isPrintfBase_ten : IsPrintfBase 10 10 := ⟨isBase_ten, Or.inl rfl⟩
theorem isPrintfBase_sixteen : IsPrintfBase 16 16 := ⟨isBase_sixteen, Or.inr rfl⟩

theorem Radix.isPrintfBase : ∀ radix : Radix, ∃ b, IsPrintfBase radix.base b
  | decimal => ⟨10, isPrintfBase_ten⟩
  | hexadecimal => ⟨16, isPrintfBase_sixteen⟩

theorem IsPrintfBase.width_eq {base : Int32} {b : Nat} (h : IsPrintfBase base b) :
    (b = 10 ∧ Common.width b = 9) ∨ (b = 16 ∧ Common.width b = 8) := by
  rcases h.cases with rfl | rfl
  · exact Or.inl ⟨rfl, by decide +kernel⟩
  · exact Or.inr ⟨rfl, by decide +kernel⟩

section Numeral

variable {base : Int32} {b i : Nat} {padZeros : Bool}

/-- In base 10 the first quotient may be no digit, but it has a character all the same. -/
theorem numeral_lt_table (h : IsPrintfBase base b) (padZeros : Bool) (hi : i < 2 ^ 32) :
    ∀ d ∈ numeral b padZeros i, d < 64 := by
  intro d hd
  unfold numeral at hd
  split at hd
  · obtain rfl := List.mem_singleton.mp hd
    omega
  · have hmem := mem_of_mem_shown hd
    rcases h.width_eq with ⟨rfl, hwidth⟩ | ⟨rfl, hwidth⟩
    · rw [hwidth, longDivision] at hmem
      rcases List.mem_cons.mp hmem with rfl | htail
      · omega
      · have hlt := longDivision_lt (by omega) (Nat.mod_lt i (by decide)) d htail
        omega
    · have hlt := longDivision_lt (by omega) (by rw [hwidth]; exact hi) d hmem
      omega

theorem numeral_padded (b i : Nat) : numeral b true i = longDivision b (Common.width b) i :=
  if_neg fun h => by cases h.2

/-- The plain numeral is the padded one without its leading zeros, but for zero itself. -/
theorem exists_padded (h : IsBase base b) (i : Nat) :
    ∃ z, numeral b true i = List.replicate z 0 ++ numeral b false i := by
  rw [numeral_padded]
  rcases Nat.eq_zero_or_pos i with rfl | hpos
  · have hplain : numeral b false 0 = [0] := if_pos ⟨rfl, rfl⟩
    have hwide := width_pos h.low h.high
    have hwidth : Common.width b = Common.width b - 1 + 1 := by omega
    refine ⟨Common.width b - 1, ?_⟩
    rw [hplain, longDivision_zero, ← List.replicate_succ', ← hwidth]
  · have hplain : numeral b false i = stripZeros (longDivision b (Common.width b) i) :=
      if_neg fun h => absurd h.1 (Nat.ne_of_gt hpos)
    rw [hplain]
    exact exists_stripZeros _

theorem numeral_ne_nil (h : IsBase base b) (padZeros : Bool) (i : Nat) :
    numeral b padZeros i ≠ [] := by
  intro hnil
  have hvalue := digitsValue_numeral h padZeros i
  rw [hnil] at hvalue
  have hzero : i = 0 := hvalue.symm
  subst hzero
  have hwide := width_pos h.low h.high
  cases padZeros with
  | false => cases hnil
  | true =>
    rw [numeral_padded] at hnil
    have hlen := congrArg List.length hnil
    rw [length_longDivision, List.length_nil] at hlen
    omega

theorem length_numeral_padded (b i : Nat) : (numeral b true i).length = Common.width b := by
  rw [numeral_padded, length_longDivision]

/-- What `formatunsigned` leaves is a string. -/
theorem formatunsigned_stringAt (T : DigitTable) (padZeros : Bool) (buf : Mem) (i : UInt32)
    (h : IsPrintfBase base b) :
    ∃ length m, formatunsigned T buf i base padZeros 0 = some (length, m) ∧
      stringAt m addressSpace 0 = some ((numeral b padZeros i.toNat).map digitChar) := by
  have hstring := CString.writeDigits T buf 0 (numeral_lt_table h padZeros i.toNat_lt)
  have hlen := length_numeral_le h.isBase padZeros i.toNat
  have hnarrow := (width_spec h.isBase.low h.isBase.high).1.2
  have hshort : ((numeral b padZeros i.toNat).map digitChar).length < addressSpace := by
    rw [List.length_map]
    unfold addressSpace
    omega
  exact ⟨_, _, formatunsigned_eq T buf i padZeros 0 h.isBase, hstring.stringAt_eq hshort⟩

/-- The text of an unsigned number. -/
theorem putUnsigned_eq (T : DigitTable) (padZeros : Bool) (buf : Mem) (i : UInt32)
    (h : IsPrintfBase base b) :
    putUnsigned T base padZeros buf i = some ((numeral b padZeros i.toNat).map digitChar) := by
  obtain ⟨length, m, hrun, hread⟩ := formatunsigned_stringAt T padZeros buf i h
  unfold putUnsigned
  rw [hrun]
  exact hread

/-- The text of a number that is not negative. -/
theorem putSigned_of_nonneg (T : DigitTable) (padZeros : Bool) (buf : Mem) {i : Int32}
    (h : IsPrintfBase base b) (hi : 0 ≤ i.toInt) :
    putSigned T base padZeros buf i = some ((numeral b padZeros i.toInt.toNat).map digitChar) := by
  have hunsigned := putUnsigned_eq T padZeros buf (magnitude i) h
  unfold putSigned
  rw [formatint_of_nonneg T buf base padZeros 0 hi, ← magnitude_toNat_of_nonneg hi]
  exact hunsigned

/-- What `formatint` leaves of the buffer, when the number is negative: the bytes behind the
first eleven are as before. -/
theorem formatint_buffer (T : DigitTable) (padZeros : Bool) (buf : Mem) {i : Int32}
    (h : IsPrintfBase base b) (hi : i.toInt < 0) {d : Nat} {ds : List Nat}
    (hnumeral : numeral b padZeros i.toInt.natAbs = d :: ds) :
    ds.length + 3 ≤ 11 ∧
      ∃ length m, formatint T buf i base padZeros 0 = some (length, m) ∧
        ∀ a, m a =
          if a = 0 then minusChar else if InRange 0 (ds.length + 3) a then T.byte d else buf a := by
  have hcount := length_numeral_le h.isBase padZeros i.toInt.natAbs
  have hnarrow : Common.width b ≤ 9 := by
    rcases h.width_eq with ⟨_, hwidth⟩ | ⟨_, hwidth⟩ <;> omega
  rw [hnumeral, List.length_cons] at hcount
  rw [← magnitude_toNat] at hnumeral
  have hzero : (0 : UInt32).toNat = 0 := rfl
  obtain ⟨m, hrun, hmem⟩ := formatint_of_neg T buf padZeros 0 h.isBase hi hnumeral (by
    rw [hzero]
    omega)
  rw [hzero] at hmem
  exact ⟨by omega, _, m, hrun, hmem⟩

/-- The text of a negative number: the first digit again and again, and then what the
buffer held. -/
theorem putSigned_of_neg (T : DigitTable) (padZeros : Bool) {buf : Mem} {i : Int32}
    (h : IsPrintfBase base b) (hi : i.toInt < 0) {d : Nat} {ds : List Nat}
    (hnumeral : numeral b padZeros i.toInt.natAbs = d :: ds) {rest : List UInt8}
    (hrest : CString buf (ds.length + 3) rest) (hlen : rest.length + 100 < addressSpace) :
    putSigned T base padZeros buf i =
      some (minusChar :: (List.replicate (ds.length + 2) (digitChar d) ++ rest)) := by
  have hdigit : d < 64 := by
    have hlow := i.le_toInt
    refine numeral_lt_table h padZeros (i := i.toInt.natAbs) (by omega) d ?_
    rw [hnumeral]
    exact List.mem_cons_self
  obtain ⟨hshort, _, m, hrun, hmem⟩ := formatint_buffer T padZeros buf h hi hnumeral
  have hfill : ∀ a, InRange 1 (ds.length + 2) a → m a = digitChar d := by
    intro a ha
    have hin : InRange 0 (ds.length + 3) a := ha.widen (by omega) (by omega)
    have hne : a ≠ 0 := Nat.ne_of_gt ha.1
    rw [hmem, if_neg hne, if_pos hin, T.byte_eq hdigit.le]
  have hbehind : CString m (1 + (ds.length + 2)) rest := by
    have haddr : 1 + (ds.length + 2) = ds.length + 3 := by omega
    rw [haddr]
    refine hrest.congr fun a ha => ?_
    have hne : a ≠ 0 := Nat.ne_of_gt (Nat.lt_of_lt_of_le (Nat.succ_pos _) ha.1)
    have hout : ¬ InRange 0 (ds.length + 3) a := by
      unfold InRange at ha ⊢
      omega
    rw [hmem, if_neg hne, if_neg hout]
  have hstring : CString m 0
      (minusChar :: (List.replicate (ds.length + 2) (digitChar d) ++ rest)) :=
    ⟨(hmem 0).trans (if_pos rfl), by decide,
      CString.replicate_append (digitChar_ne_zero hdigit) hfill hbehind⟩
  unfold putSigned
  rw [hrun]
  refine hstring.stringAt_eq ?_
  rw [List.length_cons, List.length_append, List.length_replicate]
  omega

/-- The text of a signed number ends, if there is a zero behind the buffer. -/
theorem exists_putSigned (T : DigitTable) (padZeros : Bool) {buf : Mem} (i : Int32)
    (h : IsPrintfBase base b) (hends : ∃ a, 16 ≤ a ∧ a < addressSpace ∧ buf a = 0) :
    ∃ t, putSigned T base padZeros buf i = some t := by
  by_cases hi : 0 ≤ i.toInt
  · exact ⟨_, putSigned_of_nonneg T padZeros buf h hi⟩
  · obtain ⟨d, ds, hnumeral⟩ :=
      List.exists_cons_of_ne_nil (numeral_ne_nil h.isBase padZeros i.toInt.natAbs)
    obtain ⟨hshort, _, m, hrun, hmem⟩ := formatint_buffer T padZeros buf h (not_le.mp hi) hnumeral
    obtain ⟨a, hbehind, hlt, hzero⟩ := hends
    have hout : ¬ InRange 0 (ds.length + 3) a := by
      unfold InRange
      omega
    have hkept : m (0 + a) = 0 := by
      rw [Nat.zero_add, hmem, if_neg (by omega), if_neg hout, hzero]
    unfold putSigned
    rw [hrun]
    exact exists_stringAt hkept hlt

end Numeral

/-! ## 64-bit numbers in base 16 -/

/-- The digits that are put: those of the upper half, unless it is zero, and those of the
lower half, padded behind an upper one. -/
def longNumeral (v : UInt64) : List Nat :=
  if 0 < v.toNat / 2 ^ 32 then
    numeral 16 false (v.toNat / 2 ^ 32) ++ numeral 16 true (v.toNat % 2 ^ 32)
  else
    numeral 16 false (v.toNat % 2 ^ 32)

theorem width_sixteen : Common.width 16 = 8 := by decide +kernel

theorem longNumeral_lt (v : UInt64) : ∀ d ∈ longNumeral v, d < 16 := by
  have hlt := v.toNat_lt
  have hhalf : ∀ {padZeros : Bool} {i : Nat}, i < 2 ^ 32 → ∀ d ∈ numeral 16 padZeros i, d < 16 :=
    fun hi => numeral_lt isBase_sixteen _ (by rw [width_sixteen]; exact hi)
  have hlow : v.toNat % 2 ^ 32 < 2 ^ 32 := Nat.mod_lt _ (by decide)
  intro d hd
  unfold longNumeral at hd
  split at hd
  · rcases List.mem_append.mp hd with hupper | hlower
    · exact hhalf (by omega) d hupper
    · exact hhalf hlow d hlower
  · exact hhalf hlow d hd

theorem digitsValue_longNumeral (v : UInt64) : digitsValue 16 (longNumeral v) = v.toNat := by
  unfold longNumeral
  split
  · rw [digitsValue_append, digitsValue_numeral isBase_sixteen, digitsValue_numeral isBase_sixteen,
      length_numeral_padded, width_sixteen]
    exact Nat.mod_add_div v.toNat (2 ^ 32)
  · rw [digitsValue_numeral isBase_sixteen]
    omega

/-- There is no leading zero, except for zero itself. -/
theorem longNumeral_head (v : UInt64) :
    (v = 0 → longNumeral v = [0]) ∧ (v ≠ 0 → (longNumeral v).head? ≠ some 0) := by
  refine ⟨fun hzero => ?_, fun hne => ?_⟩
  · subst hzero
    exact (numeral_head (b := 16) 0).1 rfl
  · have hv : v.toNat ≠ 0 := fun h => hne (UInt64.toNat_inj.mp h)
    unfold longNumeral
    split
    · rename_i hupper
      have hhead := (numeral_head (b := 16) (v.toNat / 2 ^ 32)).2 (Nat.ne_of_gt hupper)
      rwa [List.head?_append_of_ne_nil _ (numeral_ne_nil isBase_sixteen false _)]
    · exact (numeral_head _).2 (by omega)

theorem putLongHex_eq (T : DigitTable) (buf : Mem) (v : UInt64) :
    putLongHex T buf v = some ((longNumeral v).map digitChar) := by
  have hpos : (v >>> 32 > 0) ↔ 0 < v.toNat / 2 ^ 32 := by
    rw [gt_iff_lt, UInt64.lt_iff_toNat_lt, UInt64.toNat_shiftRight]
    exact Iff.of_eq (congrArg (0 < ·) (Nat.shiftRight_eq_div_pow v.toNat 32))
  obtain ⟨n, m, hrun, hread⟩ :=
    formatunsigned_stringAt T false buf (v >>> 32).toUInt32 isPrintfBase_sixteen
  obtain ⟨n', m', hrun', hread'⟩ :=
    formatunsigned_stringAt T (decide (v >>> 32 > 0)) m (v &&& 0xFFFFFFFF).toUInt32
      isPrintfBase_sixteen
  rw [upper_toNat] at hread
  rw [lower_toNat] at hread'
  simp only [putLongHex, hrun, hrun', hread', Option.bind_eq_bind, Option.bind_some]
  unfold longNumeral
  by_cases hupper : 0 < v.toNat / 2 ^ 32
  · rw [if_pos (hpos.mpr hupper), if_pos hupper, hread, decide_eq_true (hpos.mpr hupper),
      List.map_append]
    rfl
  · rw [if_neg (mt hpos.mp hupper), if_neg hupper, decide_eq_false (mt hpos.mp hupper)]
    rfl

/-- The conversion `%lX`, wherever the loop meets it: the turn takes two words, and passes to
`putc` and counts hexadecimal digits that read back as the number, with nothing in front of
them.  The loop goes on behind it, and at the end of the format returns that count. -/
theorem printf_longHex (T : DigitTable) (m : Mem) (fuel : Nat) (frames : Nat → Frame)
    {st : PrintfState} {v : UInt64} {rest : List UInt32}
    (hpercent : m st.s = code '%') (hlong : m (st.s + 1) = code 'l')
    (hspec : m (st.s + 2) = code 'X')
    (hap : st.ap = v.toUInt32 :: (v >>> 32).toUInt32 :: rest) :
    ∃ (ds : List Nat) (st' : PrintfState), (∀ d ∈ ds, d < 16) ∧ digitsValue 16 ds = v.toNat ∧
      (v = 0 → ds = [0]) ∧ (v ≠ 0 → ds.head? ≠ some 0) ∧
      printfStep T m (frames 0) st.read = some st' ∧
      st'.passed = st.passed ++ ds.map digitChar ∧ st'.ret = st.ret + Int32.ofNat ds.length ∧
      st'.terminal = st.terminal.putcs (ds.map digitChar) ∧ st'.ap = rest ∧ st'.s = st.s + 3 ∧
      printfLoop T m (fuel + 1) frames st =
        printfLoop T m fuel (fun n => frames (n + 1)) st' ∧
      (m (st.s + 3) = 0 → 0 < fuel → ∃ last, printfLoop T m (fuel + 1) frames st = some last ∧
        last.passed = st.passed ++ ds.map digitChar ∧
        last.ret = st.ret + Int32.ofNat ds.length) := by
  have hdirective : directiveAt m st.read.s = .long (code 'X') := by
    change Directive.start (m st.s) (m (st.s + 1)) (m (st.s + 2)) = _
    rw [hpercent, hlong, hspec]
    rfl
  have htext : Form.longHex.text T m (frames 0) st.read.ap =
      some ((longNumeral v).map digitChar) := by
    change Form.longHex.text T m (frames 0) st.ap = _
    rw [hap]
    change putLongHex T (frames 0).own ((v >>> 32).toUInt32.toUInt64 <<< 32 |||
      v.toUInt32.toUInt64) = _
    rw [join_halves]
    exact putLongHex_eq T (frames 0).own v
  have hrest : st.ap.drop 2 = rest := by
    rw [hap]
    rfl
  have hstep : printfStep T m (frames 0) st.read =
      some (st.read.after ((longNumeral v).map digitChar) 3 rest) := by
    rw [printfStep_of_text hdirective htext, ← hrest]
    rfl
  have hloop : printfLoop T m (fuel + 1) frames st = printfLoop T m fuel (fun n => frames (n + 1))
      (st.read.after ((longNumeral v).map digitChar) 3 rest) :=
    printfLoop_of_step (hpercent ▸ (by decide)) hstep
  have hret : st.ret + Int32.ofNat ((longNumeral v).map digitChar).length =
      st.ret + Int32.ofNat (longNumeral v).length := by
    rw [List.length_map]
  refine ⟨longNumeral v, _, longNumeral_lt v, digitsValue_longNumeral v, (longNumeral_head v).1,
    (longNumeral_head v).2, hstep, rfl, hret, rfl, rfl, rfl, hloop, fun hend hfuel => ?_⟩
  obtain ⟨k, rfl⟩ : ∃ k, fuel = k + 1 := ⟨fuel - 1, by omega⟩
  refine ⟨(st.read.after ((longNumeral v).map digitChar) 3 rest).read, ?_, rfl, hret⟩
  rw [hloop, printfLoop]
  exact if_neg (not_not.mpr hend)

/-- `2 ^ 32 + 10`, in a format that holds nothing else. -/
theorem printf_longHex_above :
    ∃ (ds : List Nat) (last : PrintfState), digitsValue 16 ds = 0x10000000A ∧
      ds.head? ≠ some 0 ∧
      printfLoop bareTable (Mem.writeList (fun _ => 0) 0 [code '%', code 'l', code 'X']) 2
        (fun _ => ⟨fun _ => 0, fun _ => 0⟩)
        ⟨0, [10, 1], 0, ⟨0, 0, 0xF0, fun _ => 0, []⟩, [], []⟩ = some last ∧
      last.passed = ds.map digitChar ∧ last.ret = Int32.ofNat ds.length := by
  obtain ⟨ds, st', -, hvalue, -, hhead, -, -, -, -, -, -, -, hend⟩ :=
    @printf_longHex bareTable (Mem.writeList (fun _ => 0) 0 [code '%', code 'l', code 'X']) 1
      (fun _ => ⟨fun _ => 0, fun _ => 0⟩) ⟨0, [10, 1], 0, ⟨0, 0, 0xF0, fun _ => 0, []⟩, [], []⟩
      0x10000000A [] rfl rfl rfl rfl
  obtain ⟨last, hrun, hpassed, hret⟩ := hend rfl (by decide)
  exact ⟨ds, last, hvalue, hhead (by decide), hrun, hpassed, by
    rw [hret]
    exact Int32.zero_add _⟩

end HosBoot.I386
