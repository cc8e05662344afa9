/-
  I386/PrintfScan.lean --- how `printf` scans its format.

  A format stands for a list of directives, each of which is read from one, two or
  three of its characters.  A directive that the terminator cuts off is taken for an
  unknown conversion: the terminator is the character that is converted, and `++s`
  steps over it.
-/
import HosBoot.I386.PrintfConversions

set_option autoImplicit false

namespace HosBoot.I386

open HosBoot.Foundation HosBoot.Common

/-! ## Formats -/

/-- The directives of a format, when the first `skip` characters have been read already.
The terminator follows the last character. -/
def directivesFrom : Nat → List UInt8 → List Directive
  | _, [] => []
  | skip + 1, _ :: rest => directivesFrom skip rest
  | 0, c :: rest =>
      let d := Directive.start c (rest.getD 0 0) (rest.getD 1 0)
      d :: directivesFrom (d.length - 1) rest

/-- The directives of a format. -/
def directives (fmt : List UInt8) : List Directive := directivesFrom 0 fmt

/-- The format ends inside a conversion: its last letter is the terminator. -/
def CutShort (fmt : List UInt8) : Prop := ∃ d ∈ directives fmt, d.letter = 0

instance (fmt : List UInt8) : Decidable (CutShort fmt) :=
  inferInstanceAs (Decidable (∃ d ∈ directives fmt, d.letter = 0))

/-- The text of a list of directives. -/
def formatText (T : DigitTable) (m : Mem) :
    List Directive → (Nat → Frame) → List UInt32 → Option (List UInt8)
  | [], _, _ => some []
  | d :: ds, frames, ap => do
      let text ← d.form.text T m (frames 0) ap
      let rest ← formatText T m ds (fun n => frames (n + 1)) (ap.drop d.form.words)
      return text ++ rest

/-! ## Turns in a row -/

/-- The state after the first `n` turns of the loop, if it makes them. -/
def printfTurns (T : DigitTable) (m : Mem) :
    Nat → (Nat → Frame) → PrintfState → Option PrintfState
  | 0, _, st => some st
  | n + 1, frames, st =>
      if m st.s ≠ 0 then do
        let st ← printfStep T m (frames 0) st.read
        printfTurns T m n (fun k => frames (k + 1)) st
      else
        none

section Turns

variable {T : DigitTable} {m : Mem}

theorem printfTurns_succ {n : Nat} {frames : Nat → Frame} {st st' : PrintfState}
    (h : printfTurns T m (n + 1) frames st = some st') :
    m st.s ≠ 0 ∧ ∃ st₁, printfStep T m (frames 0) st.read = some st₁ ∧
      printfTurns T m n (fun k => frames (k + 1)) st₁ = some st' := by
  rw [printfTurns] at h
  by_cases hmore : m st.s ≠ 0
  · rw [if_pos hmore] at h
    exact ⟨hmore, Option.bind_eq_some_iff.mp h⟩
  · rw [if_neg hmore] at h
    cases h

theorem printfTurns_of_step {n : Nat} {frames : Nat → Frame} {st st₁ : PrintfState}
    (hmore : m st.s ≠ 0) (hstep : printfStep T m (frames 0) st.read = some st₁) :
    printfTurns T m (n + 1) frames st = printfTurns T m n (fun k => frames (k + 1)) st₁ := by
  rw [printfTurns, if_pos hmore, hstep]
  rfl

/-- The loop goes on behind its first turns. -/
theorem printfLoop_of_turns {fuel : Nat} : ∀ {n : Nat} {frames : Nat → Frame}
    {st st' : PrintfState}, printfTurns T m n frames st = some st' →
      printfLoop T m (fuel + n) frames st = printfLoop T m fuel (fun k => frames (k + n)) st' := by
  intro n
  induction n with
  | zero =>
    intro frames st st' h
    obtain rfl : st = st' := Option.some.inj h
    rfl
  | succ n ih =>
    intro frames st st' h
    obtain ⟨hmore, st₁, hstep, hrest⟩ := printfTurns_succ h
    exact (printfLoop_of_step hmore hstep).trans (ih hrest)

/-- So do the turns. -/
theorem printfTurns_add {k : Nat} : ∀ {n : Nat} {frames : Nat → Frame} {st st' : PrintfState},
    printfTurns T m n frames st = some st' →
      printfTurns T m (k + n) frames st = printfTurns T m k (fun i => frames (i + n)) st' := by
  intro n
  induction n with
  | zero =>
    intro frames st st' h
    obtain rfl : st = st' := Option.some.inj h
    rfl
  | succ n ih =>
    intro frames st st' h
    obtain ⟨hmore, st₁, hstep, hrest⟩ := printfTurns_succ h
    exact (printfTurns_of_step hmore hstep).trans (ih hrest)

/-- At the head of the loop, the format has been read from `start` up to `s`, and the
characters have been counted. -/
structure AtHead (start : Nat) (st : PrintfState) : Prop where
  le : start ≤ st.s
  reads : st.reads = List.range' start (st.s - start)
  count : st.ret = Int32.ofNat st.passed.length

theorem Directive.length_pos (d : Directive) : 0 < d.length := by
  cases d <;> exact Nat.succ_pos _

theorem AtHead.read {start : Nat} {st : PrintfState} (h : AtHead start st) :
    st.read.reads = List.range' start (st.s - start + 1) := by
  have hlast : start + (st.s - start) = st.s := Nat.add_sub_cancel' h.le
  rw [List.range'_1_concat, hlast, ← h.reads]
  rfl

/-- A turn reads on where the last one stopped. -/
theorem AtHead.step {start : Nat} {frame : Frame} {st st' : PrintfState} (h : AtHead start st)
    (hstep : printfStep T m frame st.read = some st') : AtHead start st' ∧ st.s < st'.s := by
  obtain ⟨t, _, rfl⟩ := exists_text_of_printfStep rfl hstep
  have hpos := (directiveAt m st.read.s).length_pos
  generalize (directiveAt m st.read.s).length = n at hpos ⊢
  have hle := h.le
  have hs : (st.read.after t n (st.read.ap.drop
      (directiveAt m st.read.s).form.words)).s = st.s + n := rfl
  refine ⟨⟨?_, ?_, ?_⟩, ?_⟩
  · rw [hs]
    omega
  · have hnext : st.s + 1 = start + (st.s - start + 1) := by omega
    have hcount : st.s + n - start = st.s - start + 1 + (n - 1) := by omega
    rw [hs, hcount, ← List.range'_append_1, ← hnext, ← h.read]
    rfl
  · change st.ret + Int32.ofNat t.length = Int32.ofNat (st.passed ++ t).length
    rw [List.length_append, Int32.ofNat_add, h.count]
  · rw [hs]
    omega

theorem AtHead.turns {start : Nat} : ∀ {n : Nat} {frames : Nat → Frame} {st st' : PrintfState},
    AtHead start st → printfTurns T m n frames st = some st' →
      AtHead start st' ∧ st.s + n ≤ st'.s := by
  intro n
  induction n with
  | zero =>
    intro frames st st' h hturns
    obtain rfl : st = st' := Option.some.inj hturns
    exact ⟨h, Nat.le_refl _⟩
  | succ n ih =>
    intro frames st st' h hturns
    obtain ⟨_, st₁, hstep, hrest⟩ := printfTurns_succ hturns
    obtain ⟨h₁, hlt⟩ := h.step hstep
    obtain ⟨h', hle⟩ := ih h₁ hrest
    exact ⟨h', by omega⟩

/-- No turn goes beyond the one that reads the terminator. -/
theorem AtHead.le_end {start n k : Nat} {frames : Nat → Frame} {st st' last : PrintfState}
    (h : AtHead start st) (hlast : printfTurns T m n frames st = some last)
    (hend : m last.s = 0) (hturns : printfTurns T m k frames st = some st') :
    AtHead start st' ∧ st'.s ≤ last.s := by
  obtain ⟨h', _⟩ := h.turns hturns
  refine ⟨h', ?_⟩
  rcases Nat.le_total k n with hle | hle
  · obtain ⟨i, rfl⟩ := Nat.exists_eq_add_of_le' hle
    rw [printfTurns_add hturns] at hlast
    exact Nat.le_trans (Nat.le_add_right _ i) (h'.turns hlast).2
  · obtain ⟨i, rfl⟩ := Nat.exists_eq_add_of_le' hle
    rw [printfTurns_add hlast] at hturns
    cases i with
    | zero => exact Nat.le_of_eq (congrArg PrintfState.s (Option.some.inj hturns)).symm
    | succ i => exact absurd hend (printfTurns_succ hturns).1

end Turns

/-! ## The directives of a string -/

theorem directivesFrom_eq : ∀ (skip : Nat) (fmt : List UInt8),
    directivesFrom skip fmt = directives (fmt.drop skip) := by
  intro skip
  induction skip with
  | zero => exact fun fmt => rfl
  | succ skip ih =>
    intro fmt
    cases fmt with
    | nil => rfl
    | cons c rest => exact ih rest

/-- The first directive, and those behind it. -/
theorem directives_cons (c : UInt8) (rest : List UInt8) :
    directives (c :: rest) =
      Directive.start c (rest.getD 0 0) (rest.getD 1 0) ::
        directives ((c :: rest).drop
          (Directive.start c (rest.getD 0 0) (rest.getD 1 0)).length) := by
  have hpos := (Directive.start c (rest.getD 0 0) (rest.getD 1 0)).length_pos
  unfold directives
  rw [directivesFrom, directivesFrom_eq]
  generalize Directive.start c (rest.getD 0 0) (rest.getD 1 0) = d at hpos ⊢
  obtain ⟨n, hn⟩ : ∃ n, d.length = n + 1 := ⟨d.length - 1, by omega⟩
  rw [hn]
  rfl

section Format

variable {m : Mem} {p : Nat} {c : UInt8} {rest : List UInt8}

/-- The turn at the first character of a string reads its first directive. -/
theorem directiveAt_eq (h : CString m p (c :: rest)) :
    directiveAt m p = Directive.start c (rest.getD 0 0) (rest.getD 1 0) := by
  unfold directiveAt
  obtain ⟨rfl, _, h⟩ := h
  match rest, h with
  | [], h =>
    have hzero : m (p + 1) = 0 := h
    rw [hzero]
    rfl
  | [c'], h =>
    obtain ⟨rfl, _, hzero⟩ := h
    have hzero : m (p + 2) = 0 := hzero
    rw [hzero]
    rfl
  | c' :: c'' :: _, h =>
    obtain ⟨rfl, _, rfl, _, _⟩ := h
    rfl

/-- A directive that is not cut off lies in the string; one that is cut off consists of
what is left of the string and the terminator. -/
theorem directiveAt_cases (h : CString m p (c :: rest)) :
    ((directiveAt m p).letter ≠ 0 ∧ (directiveAt m p).length ≤ rest.length + 1) ∨
      ((directiveAt m p).letter = 0 ∧ (directiveAt m p).length = rest.length + 2) := by
  unfold directiveAt Directive.start
  obtain ⟨rfl, hne, h⟩ := h
  by_cases hpercent : m p = code '%'
  · rw [if_pos hpercent]
    match rest, h with
    | [], h =>
      have hzero : m (p + 1) = 0 := h
      rw [hzero]
      exact Or.inr ⟨rfl, rfl⟩
    | [c'], h =>
      obtain ⟨rfl, hne', hzero⟩ := h
      have hzero : m (p + 2) = 0 := hzero
      split_ifs
      · exact Or.inr ⟨hzero, rfl⟩
      · exact Or.inr ⟨hzero, rfl⟩
      · exact Or.inl ⟨hne', Nat.le_refl 2⟩
    | c' :: c'' :: rest, h =>
      obtain ⟨rfl, hne', rfl, hne'', _⟩ := h
      have hlen : 3 ≤ (m (p + 1) :: m (p + 1 + 1) :: rest).length + 1 := by
        simp only [List.length_cons]
        omega
      split_ifs
      · exact Or.inl ⟨hne'', hlen⟩
      · exact Or.inl ⟨hne'', hlen⟩
      · exact Or.inl ⟨hne', Nat.le_of_succ_le hlen⟩
  · rw [if_neg hpercent]
    exact Or.inl ⟨hne, Nat.succ_pos _⟩

theorem directives_of_cString (h : CString m p (c :: rest)) :
    directives (c :: rest) =
      directiveAt m p :: directives ((c :: rest).drop (directiveAt m p).length) := by
  rw [directiveAt_eq h]
  exact directives_cons c rest

/-- What is behind a directive is again a string. -/
theorem cString_drop (h : CString m p (c :: rest))
    (hlen : (directiveAt m p).length ≤ rest.length + 1) :
    CString m (p + (directiveAt m p).length) ((c :: rest).drop (directiveAt m p).length) := by
  have hsplit := List.take_append_drop (directiveAt m p).length (c :: rest)
  have htake : ((c :: rest).take (directiveAt m p).length).length = (directiveAt m p).length :=
    List.length_take_of_le hlen
  rw [← hsplit] at h
  have hdrop := h.drop
  rwa [htake] at hdrop

/-- The characters that the loop steps over. -/
def formatSpan (fmt : List UInt8) : Nat := if CutShort fmt then fmt.length + 1 else fmt.length

theorem formatSpan_cons (h : CString m p (c :: rest)) :
    formatSpan (c :: rest) = (directiveAt m p).length +
      formatSpan ((c :: rest).drop (directiveAt m p).length) := by
  have hcut : CutShort (c :: rest) ↔ (directiveAt m p).letter = 0 ∨
      CutShort ((c :: rest).drop (directiveAt m p).length) := by
    unfold CutShort
    rw [directives_of_cString h]
    simp only [List.mem_cons, exists_eq_or_imp]
  have hlength : (c :: rest).length = rest.length + 1 := List.length_cons
  unfold formatSpan
  rcases directiveAt_cases h with ⟨hletter, hlen⟩ | ⟨hletter, hlen⟩
  · have hiff := hcut.trans (or_iff_right hletter)
    rw [List.length_drop]
    by_cases hrest : CutShort ((c :: rest).drop (directiveAt m p).length)
    · rw [if_pos (hiff.mpr hrest), if_pos hrest]
      omega
    · rw [if_neg (mt hiff.mp hrest), if_neg hrest]
      omega
  · have hnil : (c :: rest).drop (directiveAt m p).length = [] :=
      List.drop_eq_nil_of_le (by omega)
    rw [if_pos (hcut.mpr (Or.inl hletter)), hnil, if_neg (by decide), hlen]
    rfl

/-- The turns of the loop put the text of the format, and step over its characters. -/
theorem printfTurns_directives {T : DigitTable} {fmt : List UInt8} :
    ∀ {st : PrintfState} {frames : Nat → Frame} {text : List UInt8}, CString m st.s fmt →
      formatText T m (directives fmt) frames st.ap = some text →
      ∃ st', printfTurns T m (directives fmt).length frames st = some st' ∧
        st'.s = st.s + formatSpan fmt ∧ st'.passed = st.passed ++ text := by
  induction hn : fmt.length using Nat.strong_induction_on generalizing fmt with
  | _ n ih =>
    intro st frames text hformat htext
    cases fmt with
    | nil =>
      obtain rfl : [] = text := Option.some.inj htext
      exact ⟨st, rfl, rfl, (List.append_nil _).symm⟩
    | cons c rest =>
      have hmore : m st.s ≠ 0 := hformat.1 ▸ hformat.2.1
      have hpos := (directiveAt m st.s).length_pos
      rw [directives_of_cString hformat] at htext ⊢
      rw [formatSpan_cons hformat]
      obtain ⟨first, hfirst, htext⟩ := Option.bind_eq_some_iff.mp htext
      obtain ⟨behind, hbehind, htext⟩ := Option.bind_eq_some_iff.mp htext
      obtain rfl : first ++ behind = text := Option.some.inj htext
      obtain ⟨st₁, hstep, hs₁, hap₁, hpassed₁⟩ := exists_printfStep hfirst
      rw [← hap₁] at hbehind
      rw [List.length_cons, printfTurns_of_step hmore hstep]
      rcases directiveAt_cases hformat with ⟨_, hlen⟩ | ⟨_, hlen⟩
      · have hshort : ((c :: rest).drop (directiveAt m st.s).length).length < n := by
          rw [List.length_drop, ← hn, List.length_cons]
          omega
        have hnext := cString_drop hformat hlen
        rw [← hs₁] at hnext
        obtain ⟨st', hturns, hs, hpassed⟩ := ih _ hshort rfl hnext hbehind
        refine ⟨st', hturns, ?_, ?_⟩
        · rw [hs, hs₁]
          exact Nat.add_assoc _ _ _
        · rw [hpassed, hpassed₁]
          exact List.append_assoc _ _ _
      · -- The terminator has been stepped over, and nothing is left of the format.
        have hnil : (c :: rest).drop (directiveAt m st.s).length = [] :=
          List.drop_eq_nil_of_le (by rw [List.length_cons]; omega)
        rw [hnil] at hbehind ⊢
        obtain rfl : [] = behind := Option.some.inj hbehind
        rw [List.append_nil]
        exact ⟨st₁, rfl, hs₁, hpassed₁⟩

end Format

/-! ## Arguments -/

/-- There is a zero somewhere behind the 16 bytes of the buffers.  The format's terminator
lies in the same memory. -/
structure Frame.Ends (frame : Frame) : Prop where
  own : ∃ a, 16 ≤ a ∧ a < addressSpace ∧ frame.own a = 0
  callee : ∃ a, 16 ≤ a ∧ a < addressSpace ∧ frame.callee a = 0

theorem Frame.Ends.buffer {frame : Frame} (h : frame.Ends) (padZeros : Bool) :
    ∃ a, 16 ≤ a ∧ a < addressSpace ∧ Form.buffer frame padZeros a = 0 := by
  cases padZeros with
  | false => exact h.callee
  | true => exact h.own

/-- The words are enough for the form, and a string argument is a string. -/
structure Form.Supplied (m : Mem) (form : Form) (ap : List UInt32) : Prop where
  words : form.words ≤ ap.length
  string : form = .string → ∀ w ∈ ap.head?,
    ∃ l, CString m w.toNat l ∧ w.toNat + l.length < addressSpace

/-- The words are enough for all directives. -/
def Supplies (m : Mem) : List Directive → List UInt32 → Prop
  | [], _ => True
  | d :: ds, ap => d.form.Supplied m ap ∧ Supplies m ds (ap.drop d.form.words)

section Arguments

variable {m : Mem}

/-- A form with its arguments has a text. -/
theorem Form.Supplied.exists_text {form : Form} {ap : List UInt32} (h : form.Supplied m ap)
    (T : DigitTable) {frame : Frame} (hends : frame.Ends) :
    ∃ t, form.text T m frame ap = some t := by
  obtain ⟨hwords, hstring⟩ := h
  cases form with
  | literal text => exact ⟨text, rfl⟩
  | signed radix padZeros =>
    obtain ⟨w, ap, rfl⟩ := List.exists_cons_of_length_pos hwords
    obtain ⟨b, hbase⟩ := radix.isPrintfBase
    exact exists_putSigned T padZeros w.toInt32 hbase (hends.buffer padZeros)
  | unsigned radix padZeros =>
    obtain ⟨w, ap, rfl⟩ := List.exists_cons_of_length_pos hwords
    obtain ⟨b, hbase⟩ := radix.isPrintfBase
    exact ⟨_, putUnsigned_eq T padZeros (Form.buffer frame padZeros) w hbase⟩
  | string =>
    obtain ⟨w, ap, rfl⟩ := List.exists_cons_of_length_pos hwords
    obtain ⟨l, hl, hlen⟩ := hstring rfl w rfl
    exact ⟨l, hl.stringAt_eq (by omega)⟩
  | character =>
    obtain ⟨w, ap, rfl⟩ := List.exists_cons_of_length_pos hwords
    exact ⟨_, rfl⟩
  | longHex =>
    match ap, hwords with
    | low :: high :: ap, _ => exact ⟨_, putLongHex_eq T frame.own _⟩

/-- A format with its arguments has a text. -/
theorem Supplies.exists_formatText (T : DigitTable) :
    ∀ {ds : List Directive} {frames : Nat → Frame} {ap : List UInt32}, Supplies m ds ap →
      (∀ n, (frames n).Ends) → ∃ text, formatText T m ds frames ap = some text := by
  intro ds
  induction ds with
  | nil => exact fun _ _ => ⟨[], rfl⟩
  | cons d ds ih =>
    intro frames ap hsupplies hends
    obtain ⟨hfirst, hrest⟩ := hsupplies
    obtain ⟨t, ht⟩ := hfirst.exists_text T (hends 0)
    obtain ⟨text, htext⟩ := ih hrest fun n => hends (n + 1)
    refine ⟨t ++ text, ?_⟩
    rw [formatText, ht, Option.bind_eq_bind, Option.bind_some, htext]
    rfl

end Arguments

/-! ## The scan of a format -/

/-- The state in which the loop starts. -/
def printfStart (s : UInt32) (ap : List UInt32) (terminal : Terminal) : PrintfState :=
  ⟨s.toNat, ap, 0, terminal, [], []⟩

/-- No byte behind the terminator is read, whatever turn the loop is at, and the call
returns the number of characters. -/
structure ScansFormat (T : DigitTable) (m : Mem) (frames : Nat → Frame) (s : UInt32)
    (fmt : List UInt8) (ap : List UInt32) (terminal : Terminal) : Prop where
  reads : ∀ n st, printfTurns T m n frames (printfStart s ap terminal) = some st →
    ∀ a ∈ st.read.reads, a ≤ s.toNat + fmt.length
  returns : ∃ ret st, printf T m frames s ap terminal = some (ret, st) ∧
    ret.toInt = st.passed.length

section Scan

variable {T : DigitTable} {m : Mem} {frames : Nat → Frame} {s : UInt32} {fmt : List UInt8}
  {ap : List UInt32} {terminal : Terminal}

theorem atHead_start : AtHead s.toNat (printfStart s ap terminal) where
  le := Nat.le_refl _
  reads := by
    have hempty : (printfStart s ap terminal).s - s.toNat = 0 := Nat.sub_self _
    rw [hempty]
    rfl
  count := rfl

/-- The turns of a call. -/
theorem printfTurns_start (terminal : Terminal) {text : List UInt8}
    (hformat : CString m s.toNat fmt)
    (htext : formatText T m (directives fmt) frames ap = some text) :
    ∃ st, printfTurns T m (directives fmt).length frames (printfStart s ap terminal) = some st ∧
      st.s = s.toNat + formatSpan fmt ∧ st.passed = text :=
  printfTurns_directives hformat htext

/-- A format that is not cut short is put, counted, and read byte by byte up to its
terminator. -/
theorem printf_eq (terminal : Terminal) {text : List UInt8} (hformat : CString m s.toNat fmt)
    (hbelow : s.toNat + fmt.length < 2 ^ 32)
    (htext : formatText T m (directives fmt) frames ap = some text) (hcomplete : ¬ CutShort fmt) :
    ∃ n st, printfTurns T m n frames (printfStart s ap terminal) = some st ∧
      m st.s = 0 ∧ st.s = s.toNat + fmt.length ∧
      printf T m frames s ap terminal = some (Int32.ofNat text.length, st.read) ∧
      st.passed = text := by
  obtain ⟨st, hturns, hs, hpassed⟩ := printfTurns_start terminal hformat htext
  obtain ⟨hhead, hn⟩ := atHead_start.turns hturns
  have hspan : st.s = s.toNat + fmt.length := by rw [hs, formatSpan, if_neg hcomplete]
  have hend : m st.s = 0 := hspan ▸ hformat.end_eq_zero
  have hstart : (printfStart s ap terminal).s = s.toNat := rfl
  obtain ⟨fuel, hfuel⟩ : ∃ fuel, addressSpace = fuel + 1 + (directives fmt).length :=
    ⟨addressSpace - 1 - (directives fmt).length, by unfold addressSpace; omega⟩
  refine ⟨_, st, hturns, hend, hspan, ?_, hpassed⟩
  have hrun : printfLoop T m addressSpace frames (printfStart s ap terminal) = some st.read := by
    rw [hfuel, printfLoop_of_turns hturns, printfLoop]
    exact if_neg (not_not.mpr hend)
  have hret : st.ret = Int32.ofNat text.length := by
    rw [hhead.count, hpassed]
  change Option.map _ (printfLoop T m addressSpace frames (printfStart s ap terminal)) = _
  rw [hrun, ← hret]
  rfl

/-- The characters of the text can be counted in an `int`. -/
def CountFits (T : DigitTable) (m : Mem) (frames : Nat → Frame) (fmt : List UInt8)
    (ap : List UInt32) : Prop :=
  ∀ text, formatText T m (directives fmt) frames ap = some text → text.length < 2 ^ 31

/-- Behind a format that is cut short, the loop reads on. -/
theorem not_scansFormat {text : List UInt8} (hformat : CString m s.toNat fmt)
    (htext : formatText T m (directives fmt) frames ap = some text) (hcut : CutShort fmt) :
    ¬ ScansFormat T m frames s fmt ap terminal := by
  intro hscan
  obtain ⟨st, hturns, hs, _⟩ := printfTurns_start terminal hformat htext
  have hmem : st.s ∈ st.read.reads := List.mem_append_right _ (List.mem_singleton.mpr rfl)
  have hle := hscan.reads _ st hturns st.s hmem
  rw [hs, formatSpan, if_pos hcut] at hle
  omega

/-- `printf` stops at the terminator and returns the number of characters exactly for the
formats that are not cut short and whose text can be counted. -/
theorem printf_scansFormat_iff (hformat : CString m s.toNat fmt)
    (hbelow : s.toNat + fmt.length < 2 ^ 32) (hsupplies : Supplies m (directives fmt) ap)
    (hends : ∀ n, (frames n).Ends) :
    ScansFormat T m frames s fmt ap terminal ↔
      ¬ CutShort fmt ∧ CountFits T m frames fmt ap := by
  constructor
  · intro hscan
    have hcomplete : ¬ CutShort fmt := by
      intro hcut
      obtain ⟨text, htext⟩ := hsupplies.exists_formatText T hends
      exact not_scansFormat hformat htext hcut hscan
    refine ⟨hcomplete, fun text htext => ?_⟩
    obtain ⟨_, _, _, _, _, hrun, hpassed⟩ :=
      printf_eq terminal hformat hbelow htext hcomplete
    obtain ⟨ret, st, hreturns, hcount⟩ := hscan.returns
    obtain ⟨rfl, rfl⟩ := Prod.mk.inj (Option.some.inj (hrun.symm.trans hreturns))
    have hlt := (Int32.ofNat text.length).toInt_lt
    have hcount : (Int32.ofNat text.length).toInt = text.length :=
      hcount.trans (congrArg (fun l : List UInt8 => (l.length : Int)) hpassed)
    omega
  · rintro ⟨hcomplete, hcount⟩
    obtain ⟨text, htext⟩ := hsupplies.exists_formatText T hends
    obtain ⟨n, last, hlast, hend, hs, hrun, hpassed⟩ :=
      printf_eq terminal hformat hbelow htext hcomplete
    refine ⟨fun k st hturns a ha => ?_, _, _, hrun, ?_⟩
    · obtain ⟨hhead, hle⟩ := atHead_start.le_end hlast hend hturns
      rw [hhead.read, List.mem_range'_1] at ha
      have hfrom := hhead.le
      omega
    · rw [Int32.toInt_ofNat_of_lt (hcount text htext), ← hpassed]
      rfl

end Scan

/-! ## Two formats -/

/-- Empty buffers, in every turn. -/
def emptyFrames (_ : Nat) : Frame := ⟨fun _ => 0, fun _ => 0⟩

theorem emptyFrames_ends (n : Nat) : (emptyFrames n).Ends :=
  ⟨⟨16, by decide, by decide, rfl⟩, ⟨16, by decide, by decide, rfl⟩⟩

/-- The format `%u: %s`, and the string `ok`. -/
def completeFormat : List UInt8 :=
  [code '%', code 'u', code ':', code ' ', code '%', code 's']

def completeMemory : Mem :=
  Mem.ofParts [(0x1000, completeFormat), (0x2000, [code 'o', code 'k'])]

theorem completeFormat_scanned :
    ScansFormat bareTable completeMemory emptyFrames 0x1000 completeFormat [7, 0x2000]
      startTerminal := by
  have hsupplies : Supplies completeMemory (directives completeFormat) [7, 0x2000] := by
    refine ⟨⟨by decide, nofun⟩, ⟨by decide, nofun⟩, ⟨by decide, nofun⟩, ⟨by decide, ?_⟩, trivial⟩
    rintro - w ⟨⟩
    exact ⟨[code 'o', code 'k'], by decide +kernel, by decide⟩
  refine (printf_scansFormat_iff (by decide +kernel) (by decide) hsupplies emptyFrames_ends).mpr
    ⟨by decide, fun text htext => ?_⟩
  have hread : formatText bareTable completeMemory (directives completeFormat) emptyFrames
      [7, 0x2000] = some [code '7', code ':', code ' ', code 'o', code 'k'] := by
    decide +kernel
  obtain rfl := Option.some.inj (hread.symm.trans htext)
  decide

/-- The format `%`, and other characters behind its terminator. -/
def overrunMemory : Mem := Mem.ofParts [(0x1000, [code '%', 0, code 'A', code 'B', 0])]

/-- The terminator is taken for a letter, and what follows it for the rest of the format. -/
theorem overrunMemory_overrun :
    CString overrunMemory 0x1000 [code '%'] ∧
      Supplies overrunMemory (directives [code '%']) [] ∧ (∀ n, (emptyFrames n).Ends) ∧
      ((printf bareTable overrunMemory emptyFrames 0x1000 [] startTerminal).map fun r =>
          (r.2.passed, r.2.reads)) =
        some ([code '?', code 'A', code 'B'], [0x1000, 0x1001, 0x1002, 0x1003, 0x1004]) ∧
      ¬ ScansFormat bareTable overrunMemory emptyFrames 0x1000 [code '%'] [] startTerminal := by
  have hformat : CString overrunMemory 0x1000 [code '%'] := by decide +kernel
  have hsupplies : Supplies overrunMemory (directives [code '%']) [] :=
    ⟨⟨by decide, nofun⟩, trivial⟩
  obtain ⟨text, htext⟩ := hsupplies.exists_formatText bareTable emptyFrames_ends
  exact ⟨hformat, hsupplies, emptyFrames_ends, by decide +kernel,
    not_scansFormat hformat htext (by decide)⟩

end HosBoot.I386
