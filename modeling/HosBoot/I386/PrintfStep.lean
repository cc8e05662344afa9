/-
  I386/PrintfStep.lean --- a turn of the loop of `printf`.

  Each turn reads one directive of the format and puts its text.  `printfStep_eq` says
  so for all of them; nothing else looks into the switches.
-/
import HosBoot.I386.Printf

set_option autoImplicit false

namespace HosBoot.I386

open HosBoot.Foundation HosBoot.Common

/-! ## Directives -/

/-- A character to be copied, or a conversion `%c`, `%0c` or `%lc` with the letter `c`. -/
inductive Directive where
  | char (c : UInt8)
  | plain (letter : UInt8)
  | zero (letter : UInt8)
  | long (letter : UInt8)
  deriving DecidableEq, Repr

/-- The bases in which numbers are put. -/
inductive Radix where
  | decimal
  | hexadecimal
  deriving DecidableEq, Repr

/-- What a directive puts. -/
inductive Form where
  | literal (text : List UInt8)
  | signed (radix : Radix) (padZeros : Bool)
  | unsigned (radix : Radix) (padZeros : Bool)
  | string
  | character
  | longHex
  deriving DecidableEq, Repr

/-- The `base` of `formatint` and `formatunsigned`. -/
def Radix.base : Radix → Int32
  | decimal => 10
  | hexadecimal => 16

namespace Directive

/-- The characters of the directive. -/
def length : Directive → Nat
  | char _ => 1
  | plain _ => 2
  | zero _ => 3
  | long _ => 3

/-- The last of them. -/
def letter : Directive → UInt8
  | char c => c
  | plain letter => letter
  | zero letter => letter
  | long letter => letter

/-- The cases of the switches. -/
def form : Directive → Form
  | char c => .literal [c]
  | plain letter =>
      if letter = code 'd' then .signed .decimal false
      else if letter = code 's' then .string
      else if letter = code 'x' then .signed .hexadecimal false
      else if letter = code 'u' then .unsigned .decimal false
      else if letter = code 'X' then .unsigned .hexadecimal false
      else if letter = code 'c' then .character
      else .literal [code '?']
  | zero letter =>
      if letter = code 'x' then .signed .hexadecimal true
      else if letter = code 'X' then .unsigned .hexadecimal true
      else if letter = code 'd' then .signed .decimal true
      else if letter = code 'u' then .unsigned .hexadecimal true
      else .literal [code '?']
  | long letter => if letter = code 'X' then .longHex else .literal [code '?']

/-- The directive that starts with `c`, when `c'` and `c''` follow. -/
def start (c c' c'' : UInt8) : Directive :=
  if c = code '%' then
    if c' = code '0' then zero c'' else if c' = code 'l' then long c'' else plain c'
  else
    char c

end Directive

namespace Form

/-- The words that `va_arg` takes. -/
def words : Form → Nat
  | literal _ => 0
  | signed _ _ => 1
  | unsigned _ _ => 1
  | string => 1
  | character => 1
  | longHex => 2

/-- The buffer of a number: the padded ones are formatted in `printf` itself. -/
def buffer (frame : Frame) (padZeros : Bool) : Mem :=
  if padZeros then frame.own else frame.callee

/-- The text that is put, if there is an argument for it and its string ends. -/
def text (T : DigitTable) (m : Mem) (frame : Frame) : Form → List UInt32 → Option (List UInt8)
  | literal text, _ => some text
  | signed radix padZeros, w :: _ =>
      putSigned T radix.base padZeros (buffer frame padZeros) w.toInt32
  | unsigned radix padZeros, w :: _ =>
      putUnsigned T radix.base padZeros (buffer frame padZeros) w
  | string, w :: _ => stringAt m addressSpace w.toNat
  | character, w :: _ => some [w.toUInt8]
  | longHex, low :: high :: _ =>
      putLongHex T frame.own (high.toUInt64 <<< 32 ||| low.toUInt64)
  | _, _ => none

end Form

/-- The directive that a turn of the loop reads. -/
def directiveAt (m : Mem) (s : Nat) : Directive := Directive.start (m s) (m (s + 1)) (m (s + 2))

/-! ## A turn -/

namespace PrintfState

/-- Put the text of a form, and count it. -/
def putForm (T : DigitTable) (m : Mem) (frame : Frame) (form : Form) (st : PrintfState) :
    Option PrintfState :=
  (form.text T m frame st.ap).map fun t => put { st with ap := st.ap.drop form.words } t

/-- A turn that reads one character. -/
theorem after_one (st : PrintfState) (t : List UInt8) :
    { put st t with s := st.s + 1 } = st.after t 1 st.ap := by
  have hreads : st.reads ++ [] = st.reads := List.append_nil _
  change _ = ({ put st t with s := st.s + 1, reads := st.reads ++ [] } : PrintfState)
  rw [hreads]
  rfl

/-- A turn that reads the two characters of a conversion. -/
theorem after_two (st : PrintfState) (t : List UInt8) (ap : List UInt32) :
    { put { st.advance with ap := ap } t with s := st.s + 1 + 1 } = st.after t 2 ap := rfl

/-- A turn that reads three characters. -/
theorem after_three (st : PrintfState) (t : List UInt8) (ap : List UInt32) :
    { put { st.advance.advance with ap := ap } t with s := st.s + 1 + 1 + 1 } =
      st.after t 3 ap := by
  have hreads : st.reads ++ [st.s + 1] ++ [st.s + 1 + 1] = st.reads ++ [st.s + 1, st.s + 1 + 1] :=
    List.append_assoc _ _ _
  change ({ put { st with ap := ap } t with
    s := st.s + 1 + 1 + 1
    reads := st.reads ++ [st.s + 1] ++ [st.s + 1 + 1] } : PrintfState) = _
  rw [hreads]
  rfl

end PrintfState

section Turn

variable {T : DigitTable} {m : Mem} {frame : Frame} {st : PrintfState}

open PrintfState

theorem printfStep_percent (hpercent : m st.s = code '%') :
    printfStep T m frame st =
      (conversion T m frame (m (st.s + 1)) st.advance).map fun st => { st with s := st.s + 1 } := by
  rw [printfStep, if_pos hpercent, Option.map_eq_bind]
  rfl

theorem conversion_zero (st : PrintfState) :
    conversion T m frame (code '0') st = zeroConversion T frame (m st.advance.s) st.advance := rfl

theorem conversion_long (st : PrintfState) :
    conversion T m frame (code 'l') st = longConversion T frame (m st.advance.s) st.advance := rfl

theorem convert_eq_putForm {form : Form} {text : UInt32 → Option (List UInt8)}
    (hwords : form.words = 1) (hnil : form.text T m frame [] = none)
    (htext : ∀ w ap, form.text T m frame (w :: ap) = text w) :
    st.convert text = st.putForm T m frame form := by
  unfold convert putForm
  rw [hwords]
  cases st.ap with
  | nil => rw [hnil]; rfl
  | cons w ap => rw [htext]; rfl

theorem convertLong_eq_putForm :
    st.convertLong (fun llu => putLongHex T frame.own llu) = st.putForm T m frame .longHex := by
  unfold convertLong putForm
  match st.ap with
  | [] => rfl
  | [_] => rfl
  | low :: high :: ap => rfl

theorem zeroConversion_eq (letter : UInt8) :
    zeroConversion T frame letter st =
      st.putForm T m frame (Directive.zero letter).form := by
  unfold zeroConversion Directive.form
  dsimp only
  split_ifs
  any_goals exact convert_eq_putForm rfl rfl fun _ _ => rfl
  rfl

theorem longConversion_eq (letter : UInt8) :
    longConversion T frame letter st =
      st.putForm T m frame (Directive.long letter).form := by
  unfold longConversion Directive.form
  dsimp only
  split_ifs
  · exact convertLong_eq_putForm
  · rfl

theorem plainConversion_eq {letter : UInt8} (hzero : letter ≠ code '0')
    (hlong : letter ≠ code 'l') :
    conversion T m frame letter st = st.putForm T m frame (Directive.plain letter).form := by
  unfold conversion Directive.form
  dsimp only
  split_ifs
  any_goals exact convert_eq_putForm rfl rfl fun _ _ => rfl
  all_goals rfl

/-- Behind the characters of a conversion, the loop steps over the last of them. -/
theorem map_putForm {read : PrintfState} {form : Form} {n : Nat} (hap : read.ap = st.ap)
    (hafter : ∀ t ap, { put { read with ap := ap } t with s := read.s + 1 } = st.after t n ap) :
    ((read.putForm T m frame form).map fun st => { st with s := st.s + 1 }) =
      (form.text T m frame st.ap).map fun t => st.after t n (st.ap.drop form.words) := by
  unfold putForm
  rw [Option.map_map, hap]
  exact congrArg (Option.map · _) (funext fun t => hafter t _)

/-- A turn of the loop puts the text of one directive. -/
theorem printfStep_eq :
    printfStep T m frame st =
      ((directiveAt m st.s).form.text T m frame st.ap).map fun t =>
        st.after t (directiveAt m st.s).length (st.ap.drop (directiveAt m st.s).form.words) := by
  unfold directiveAt Directive.start
  by_cases hpercent : m st.s = code '%'
  · rw [if_pos hpercent, printfStep_percent hpercent]
    by_cases hzero : m (st.s + 1) = code '0'
    · rw [if_pos hzero, hzero, conversion_zero, zeroConversion_eq (m := m)]
      exact map_putForm rfl (after_three st)
    · by_cases hlong : m (st.s + 1) = code 'l'
      · rw [if_neg hzero, if_pos hlong, hlong, conversion_long, longConversion_eq (m := m)]
        exact map_putForm rfl (after_three st)
      · rw [if_neg hzero, if_neg hlong, plainConversion_eq hzero hlong]
        exact map_putForm rfl (after_two st)
  · rw [if_neg hpercent, printfStep, if_neg hpercent]
    exact congrArg some (after_one st [m st.s])

/-- A turn at a directive that has a text. -/
theorem printfStep_of_text {d : Directive} {t : List UInt8} (hd : directiveAt m st.s = d)
    (htext : d.form.text T m frame st.ap = some t) :
    printfStep T m frame st = some (st.after t d.length (st.ap.drop d.form.words)) := by
  subst hd
  rw [printfStep_eq, htext]
  rfl

/-- What is passed to `putc` is the text of a directive. -/
theorem exists_text_of_printfStep {d : Directive} {st' : PrintfState}
    (hd : directiveAt m st.s = d) (hstep : printfStep T m frame st = some st') :
    ∃ t, d.form.text T m frame st.ap = some t ∧
      st' = st.after t d.length (st.ap.drop d.form.words) := by
  subst hd
  rw [printfStep_eq] at hstep
  obtain ⟨t, htext, heq⟩ := Option.map_eq_some_iff.mp hstep
  exact ⟨t, htext, heq.symm⟩

/-- A turn of the loop that has just read `*s`. -/
theorem exists_printfStep {t : List UInt8}
    (htext : (directiveAt m st.s).form.text T m frame st.ap = some t) :
    ∃ st', printfStep T m frame st.read = some st' ∧
      st'.s = st.s + (directiveAt m st.s).length ∧
      st'.ap = st.ap.drop (directiveAt m st.s).form.words ∧ st'.passed = st.passed ++ t := by
  have hread : (directiveAt m st.read.s).form.text T m frame st.read.ap = some t := htext
  exact ⟨_, printfStep_of_text rfl hread, rfl, rfl, rfl⟩

/-- A turn of the loop is a step, if there is a character. -/
theorem printfLoop_of_step {fuel : Nat} {frames : Nat → Frame} {st' : PrintfState}
    (hmore : m st.s ≠ 0) (hstep : printfStep T m (frames 0) st.read = some st') :
    printfLoop T m (fuel + 1) frames st = printfLoop T m fuel (fun n => frames (n + 1)) st' := by
  rw [printfLoop]
  change (if m st.s ≠ 0 then _ else _) = _
  rw [if_pos hmore, hstep]
  rfl

end Turn

end HosBoot.I386
