/-
  I386/PrintfPadded.lean --- the conversions of `printf` with and without a `'0'`.

  The two forms of a conversion take different paths.  They agree for `%X`, and for the
  signed conversions of a number that is not negative; `%0u` formats in base 16.
-/
import HosBoot.I386.PrintfConversions

set_option autoImplicit false

namespace HosBoot.I386

open HosBoot.Foundation HosBoot.Common

/-! ## Agreement -/

/-- A text with zeros inserted before its first digit, behind a sign if there is one. -/
def insertZeros (z : Nat) : List UInt8 → List UInt8
  | [] => List.replicate z zeroChar
  | c :: text =>
      if c = minusChar then c :: (List.replicate z zeroChar ++ text)
      else List.replicate z zeroChar ++ c :: text

/-- The padded text is the plain one with some zeros inserted. -/
def ZerosInserted (plain padded : List UInt8) : Prop := ∃ z, padded = insertZeros z plain

/-- The conversions with the letter `spec`, wherever the loop meets them: with the same
argument each of them puts a text, the padded one with zeros inserted, and apart from the
text and the place in the format they change the state in the same way. -/
def PaddedAgrees (T : DigitTable) (spec : UInt8) (w : UInt32) : Prop :=
  ∀ (m m' : Mem) (frame frame' : Frame) (st st' : PrintfState) (ap ap' : List UInt32),
    m st.s = code '%' → m (st.s + 1) = spec → st.ap = w :: ap →
    m' st'.s = code '%' → m' (st'.s + 1) = code '0' → m' (st'.s + 2) = spec →
    st'.ap = w :: ap' →
    ∃ text text', printfStep T m frame st = some (st.after text 2 ap) ∧
      printfStep T m' frame' st' = some (st'.after text' 3 ap') ∧ ZerosInserted text text'

/-! ## Texts -/

theorem insertZeros_digits {ds : List Nat} (hne : ds ≠ []) (h : ∀ d ∈ ds, d < 64) (z : Nat) :
    insertZeros z (ds.map digitChar) = (List.replicate z 0 ++ ds).map digitChar := by
  have htable : ∀ d < 64, digitChar d ≠ minusChar := by decide +kernel
  have hzero : digitChar 0 = zeroChar := by decide +kernel
  obtain ⟨d, ds, rfl⟩ := List.exists_cons_of_ne_nil hne
  rw [List.map_append, List.map_replicate, hzero]
  exact if_neg (htable d (h d List.mem_cons_self))

/-- The last character stays where it is. -/
theorem getLast_insertZeros (z : Nat) (c : UInt8) {text : List UInt8} (h : text ≠ []) :
    (insertZeros z (c :: text)).getLast? = text.getLast? := by
  have hlast : (c :: text).getLast? = text.getLast? := by
    rw [← List.singleton_append, List.getLast?_append_of_ne_nil _ h]
  rw [insertZeros]
  by_cases hsign : c = minusChar
  · rw [if_pos hsign, ← List.cons_append, List.getLast?_append_of_ne_nil _ h]
  · rw [if_neg hsign, List.getLast?_append_of_ne_nil _ (List.cons_ne_nil c text), hlast]

/-- Numerals with the same text have the same digits. -/
theorem map_digitChar_inj : ∀ {ds ds' : List Nat}, (∀ d ∈ ds, d < 64) → (∀ d ∈ ds', d < 64) →
    ds.map digitChar = ds'.map digitChar → ds = ds' := by
  intro ds
  induction ds with
  | nil => exact fun {ds'} _ _ heq => (List.map_eq_nil_iff.mp heq.symm).symm
  | cons d ds ih =>
    intro ds' h h' heq
    obtain ⟨d', ds', rfl, hfirst, hrest⟩ := List.map_eq_cons_iff.mp heq.symm
    obtain ⟨hd, hds⟩ := List.forall_mem_cons.mp h
    obtain ⟨hd', hds'⟩ := List.forall_mem_cons.mp h'
    rw [digitChar_inj hd hd' hfirst.symm, ih hds hds' hrest.symm]

/-- The form takes one word, and with the word `w` its text depends on the buffers only. -/
structure Form.TakesWord (T : DigitTable) (form : Form) (w : UInt32)
    (text : Frame → Option (List UInt8)) : Prop where
  words : form.words = 1
  text_eq : ∀ m frame ap, form.text T m frame (w :: ap) = text frame

theorem takesWord_signed (T : DigitTable) (radix : Radix) (padZeros : Bool) (w : UInt32) :
    (Form.signed radix padZeros).TakesWord T w fun frame =>
      putSigned T radix.base padZeros (Form.buffer frame padZeros) w.toInt32 :=
  ⟨rfl, fun _ _ _ => rfl⟩

theorem takesWord_unsigned (T : DigitTable) (radix : Radix) (padZeros : Bool) (w : UInt32) :
    (Form.unsigned radix padZeros).TakesWord T w fun frame =>
      putUnsigned T radix.base padZeros (Form.buffer frame padZeros) w :=
  ⟨rfl, fun _ _ _ => rfl⟩

section Letter

variable {T : DigitTable} {spec : UInt8} {w : UInt32} {plain padded : Frame → Option (List UInt8)}

/-- Two conversions, each of which puts a text made of one word, agree if their texts do. -/
theorem paddedAgrees_iff_texts
    (hstart : ∀ c, Directive.start (code '%') spec c = .plain spec)
    (hplain : (Directive.plain spec).form.TakesWord T w plain)
    (hpadded : (Directive.zero spec).form.TakesWord T w padded) :
    PaddedAgrees T spec w ↔
      ∀ frame frame', ∃ text text', plain frame = some text ∧ padded frame' = some text' ∧
        ZerosInserted text text' := by
  constructor
  · intro hagrees frame frame'
    let st : PrintfState := ⟨0, [w], 0, ⟨0, 0, 0, fun _ => 0, []⟩, [], []⟩
    let m := Mem.writeList (fun _ => 0) 0 [code '%', spec]
    let m' := Mem.writeList (fun _ => 0) 0 [code '%', code '0', spec]
    obtain ⟨text, text', hstep, hstep', hzeros⟩ := hagrees m m' frame frame' st st [] []
      rfl rfl rfl rfl rfl rfl rfl
    have hdirective : directiveAt m st.s = .plain spec := hstart _
    have hdirective' : directiveAt m' st.s = .zero spec := rfl
    obtain ⟨t, htext, hst⟩ := exists_text_of_printfStep hdirective hstep
    obtain ⟨t', htext', hst'⟩ := exists_text_of_printfStep hdirective' hstep'
    obtain rfl : text = t := congrArg PrintfState.passed hst
    obtain rfl : text' = t' := congrArg PrintfState.passed hst'
    exact ⟨text, text', (hplain.text_eq m frame []).symm.trans htext,
      (hpadded.text_eq m' frame' []).symm.trans htext', hzeros⟩
  · intro htexts m m' frame frame' st st' ap ap' hpercent hspec hap hpercent' hzero hspec' hap'
    obtain ⟨text, text', htext, htext', hzeros⟩ := htexts frame frame'
    have hdirective : directiveAt m st.s = .plain spec := by
      unfold directiveAt
      rw [hpercent, hspec, hstart]
    have hdirective' : directiveAt m' st'.s = .zero spec := by
      unfold directiveAt
      rw [hpercent', hzero, hspec']
      rfl
    rw [← hplain.text_eq m frame ap, ← hap] at htext
    rw [← hpadded.text_eq m' frame' ap', ← hap'] at htext'
    refine ⟨text, text', ?_, ?_, hzeros⟩
    · rw [printfStep_of_text hdirective htext, hplain.words, hap]
      rfl
    · rw [printfStep_of_text hdirective' htext', hpadded.words, hap']
      rfl

end Letter

/-! ## The letters -/

section Letters

variable {base : Int32} {b i : Nat}

theorem zerosInserted_numeral (h : IsPrintfBase base b) (hi : i < 2 ^ 32) :
    ZerosInserted ((numeral b false i).map digitChar) ((numeral b true i).map digitChar) := by
  obtain ⟨z, hz⟩ := exists_padded h.isBase i
  have hinsert := insertZeros_digits (numeral_ne_nil h.isBase false i)
    (numeral_lt_table h false hi) z
  rw [hz]
  exact ⟨z, hinsert.symm⟩

/-- The signed conversions agree on the numbers that are not negative.  The text of a
negative number is followed by what the buffer held, and the two buffers are not the
same. -/
theorem signedTexts_iff (T : DigitTable) (h : IsPrintfBase base b) (i : Int32) :
    (∀ frame frame' : Frame, ∃ text text',
      putSigned T base false frame.callee i = some text ∧
        putSigned T base true frame'.own i = some text' ∧ ZerosInserted text text') ↔
      0 ≤ i.toInt := by
  constructor
  · intro htexts
    by_contra hneg
    have hlow := i.le_toInt
    have hlt : i.toInt < 0 := not_le.mp hneg
    obtain ⟨d, ds, hplain⟩ :=
      List.exists_cons_of_ne_nil (numeral_ne_nil h.isBase false i.toInt.natAbs)
    obtain ⟨d', ds', hpadded⟩ :=
      List.exists_cons_of_ne_nil (numeral_ne_nil h.isBase true i.toInt.natAbs)
    -- One buffer holds zeros, the other one a character behind the digits.
    let frame : Frame := ⟨fun a => if a = ds'.length + 3 then 1 else 0, fun _ => 0⟩
    have hnil : CString frame.callee (ds.length + 3) [] := rfl
    have hone : CString frame.own (ds'.length + 3) [1] :=
      ⟨if_pos rfl, by decide, if_neg (Nat.succ_ne_self _)⟩
    obtain ⟨text, text', htext, htext', z, hz⟩ := htexts frame frame
    rw [putSigned_of_neg T false h hlt hplain hnil (by decide), List.append_nil] at htext
    rw [putSigned_of_neg T true h hlt hpadded hone (by decide)] at htext'
    obtain rfl := Option.some.inj htext
    obtain rfl := Option.some.inj htext'
    have hdigit : d < 64 := numeral_lt_table h false (i := i.toInt.natAbs)
      (by omega) d (hplain ▸ List.mem_cons_self)
    have htable : ∀ d < 64, digitChar d ≠ 1 := by decide +kernel
    have hlast := congrArg List.getLast? hz
    rw [← List.cons_append, List.getLast?_concat, List.replicate_succ',
      getLast_insertZeros z minusChar (List.append_ne_nil_of_right_ne_nil _ (List.cons_ne_nil _ _)),
      List.getLast?_concat] at hlast
    exact htable d hdigit (Option.some.inj hlast).symm
  · intro hnonneg frame frame'
    have hhigh := i.toInt_lt
    exact ⟨_, _, putSigned_of_nonneg T false frame.callee h hnonneg,
      putSigned_of_nonneg T true frame'.own h hnonneg,
      zerosInserted_numeral h (by omega)⟩

/-- A decimal numeral of one digit is a digit. -/
theorem lt_ten_of_singleton {d : Nat} (hnumeral : numeral 10 false i = [d]) : d < 10 := by
  have hwidth : Common.width 10 = 9 := by decide +kernel
  obtain ⟨z, hz⟩ := exists_padded isBase_ten i
  rw [numeral_padded, hwidth, hnumeral] at hz
  have hlen := congrArg List.length hz
  rw [length_longDivision, List.length_append, List.length_replicate, List.length_singleton] at hlen
  obtain rfl : z = 8 := by omega
  -- The digit stands behind eight zeros.
  have hmem : d ∈ (longDivision 10 9 i).tail := by
    rw [hz]
    exact List.mem_append_right (List.replicate 7 0) List.mem_cons_self
  exact longDivision_tail_lt (by decide) 9 i d hmem

/-- A number with the same digits in base 10 and 16 has only one. -/
theorem lt_ten_of_digits {z : Nat}
    (hdigits : numeral 16 true i = List.replicate z 0 ++ numeral 10 false i) : i < 10 := by
  have hten := digitsValue_numeral isBase_ten false i
  have hsixteen := digitsValue_numeral isBase_sixteen true i
  rw [hdigits, digitsValue_replicate_zero_append] at hsixteen
  obtain ⟨d, ds, hnumeral⟩ := List.exists_cons_of_ne_nil (numeral_ne_nil isBase_ten false i)
  rw [hnumeral] at hten hsixteen
  by_cases hds : ds = []
  · rw [hds] at hnumeral hten
    rw [← hten, digitsValue_singleton]
    exact lt_ten_of_singleton hnumeral
  · have hd : d ≠ 0 := by
      rintro rfl
      rcases Nat.eq_zero_or_pos i with rfl | hpos
      · exact hds (List.cons.inj (hnumeral.symm.trans ((numeral_head 0).1 rfl))).2
      · exact (numeral_head (b := 10) i).2 (Nat.ne_of_gt hpos) (congrArg List.head? hnumeral)
    have hlt := digitsValue_lt_digitsValue (show 10 < 16 by decide) hd hds
    omega

/-- The unsigned decimal conversion is padded in base 16. -/
theorem unsignedTexts_iff (T : DigitTable) (w : UInt32) :
    (∀ frame frame' : Frame, ∃ text text', putUnsigned T 10 false frame.callee w = some text ∧
        putUnsigned T 16 true frame'.own w = some text' ∧ ZerosInserted text text') ↔
      w.toNat < 10 := by
  have hplain : ∀ frame : Frame, putUnsigned T 10 false frame.callee w =
      some ((numeral 10 false w.toNat).map digitChar) :=
    fun frame => putUnsigned_eq T false frame.callee w isPrintfBase_ten
  have hpadded : ∀ frame : Frame, putUnsigned T 16 true frame.own w =
      some ((numeral 16 true w.toNat).map digitChar) :=
    fun frame => putUnsigned_eq T true frame.own w isPrintfBase_sixteen
  have hten := numeral_lt_table isPrintfBase_ten false w.toNat_lt
  have hsixteen := numeral_lt_table isPrintfBase_sixteen true w.toNat_lt
  have hinsert := insertZeros_digits (numeral_ne_nil isBase_ten false w.toNat) hten
  constructor
  · intro htexts
    obtain ⟨text, text', htext, htext', z, hz⟩ := htexts ⟨fun _ => 0, fun _ => 0⟩
      ⟨fun _ => 0, fun _ => 0⟩
    rw [hplain] at htext
    rw [hpadded] at htext'
    obtain rfl := Option.some.inj htext
    obtain rfl := Option.some.inj htext'
    rw [hinsert] at hz
    refine lt_ten_of_digits (map_digitChar_inj hsixteen ?_ hz)
    intro d hd
    rcases List.mem_append.mp hd with hzero | hdigit
    · rw [List.eq_of_mem_replicate hzero]
      decide
    · exact hten d hdigit
  · intro hsmall frame frame'
    refine ⟨_, _, hplain frame, hpadded frame', 7, ?_⟩
    have htable : ∀ i < 10, numeral 16 true i = List.replicate 7 0 ++ numeral 10 false i := by
      decide +kernel
    rw [hinsert, htable w.toNat hsmall]

/-- The padded conversions agree with the plain ones for `X`, for `d` and `x` exactly if
the number is not negative, and for `u` exactly if it has one decimal digit. -/
theorem printf_padded_iff (T : DigitTable) (w : UInt32) :
    (PaddedAgrees T (code 'd') w ↔ 0 ≤ w.toInt32.toInt) ∧
      (PaddedAgrees T (code 'u') w ↔ w.toNat < 10) ∧
      (PaddedAgrees T (code 'x') w ↔ 0 ≤ w.toInt32.toInt) ∧
      PaddedAgrees T (code 'X') w := by
  refine ⟨?_, ?_, ?_, ?_⟩
  · exact (paddedAgrees_iff_texts (fun _ => rfl) (takesWord_signed T .decimal false w)
      (takesWord_signed T .decimal true w)).trans
      (signedTexts_iff T isPrintfBase_ten w.toInt32)
  · exact (paddedAgrees_iff_texts (fun _ => rfl) (takesWord_unsigned T .decimal false w)
      (takesWord_unsigned T .hexadecimal true w)).trans
      (unsignedTexts_iff T w)
  · exact (paddedAgrees_iff_texts (fun _ => rfl) (takesWord_signed T .hexadecimal false w)
      (takesWord_signed T .hexadecimal true w)).trans
      (signedTexts_iff T isPrintfBase_sixteen w.toInt32)
  · refine (paddedAgrees_iff_texts (fun _ => rfl) (takesWord_unsigned T .hexadecimal false w)
      (takesWord_unsigned T .hexadecimal true w)).mpr fun frame frame' => ?_
    exact ⟨_, _, putUnsigned_eq T false frame.callee w isPrintfBase_sixteen,
      putUnsigned_eq T true frame'.own w isPrintfBase_sixteen,
      zerosInserted_numeral isPrintfBase_sixteen w.toNat_lt⟩

end Letters

/-- With ten, `%u` puts `10` and `%0u` puts `0000000a`. -/
theorem ten_padded_in_hexadecimal :
    ((printfStep bareTable (Mem.writeList (fun _ => 0) 0 [code '%', code 'u'])
        ⟨fun _ => 0, fun _ => 0⟩ ⟨0, [10], 0, ⟨0, 0, 0xF0, fun _ => 0, []⟩, [], []⟩).map
          PrintfState.passed = some [code '1', code '0']) ∧
      ((printfStep bareTable (Mem.writeList (fun _ => 0) 0 [code '%', code '0', code 'u'])
        ⟨fun _ => 0, fun _ => 0⟩ ⟨0, [10], 0, ⟨0, 0, 0xF0, fun _ => 0, []⟩, [], []⟩).map
          PrintfState.passed = some (List.replicate 7 (code '0') ++ [code 'a'])) ∧
      ¬ PaddedAgrees bareTable (code 'u') 10 := by
  refine ⟨by decide +kernel, by decide +kernel, fun hagrees => ?_⟩
  have htexts := (paddedAgrees_iff_texts (fun _ => rfl)
    (takesWord_unsigned bareTable .decimal false 10)
    (takesWord_unsigned bareTable .hexadecimal true 10)).mp hagrees
  exact absurd ((unsignedTexts_iff bareTable 10).mp htexts) (by decide)

end HosBoot.I386
