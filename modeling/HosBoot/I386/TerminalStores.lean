/-
  I386/TerminalStores.lean --- where the terminal stores.

  A call of `putc` is safe if the cursor is on the screen and every store lies in
  display memory.  Up to the first unsafe call the cursor is at the row and column
  that the text has reached, so that the safe runs can be told from the text alone.
-/
import HosBoot.I386.TerminalRows

set_option autoImplicit false

namespace HosBoot.I386

/-! ## Runs of calls -/

/-- A call that a program makes. -/
inductive TerminalOp where
  | putc (c : UInt8)
  | setFgColor (c : UInt8)
  | setBgColor (c : UInt8)
  deriving DecidableEq, Repr

/-- The character of a `putc`. -/
def TerminalOp.char : TerminalOp → Option UInt8
  | .putc c => some c
  | _ => none

/-- The text of a sequence of calls. -/
def textOf (ops : List TerminalOp) : List UInt8 := ops.filterMap TerminalOp.char

namespace Terminal

/-- One call. -/
def call (t : Terminal) : TerminalOp → Terminal
  | .putc c => t.putc c
  | .setFgColor c => t.setFgColor c
  | .setBgColor c => t.setBgColor c

/-- A sequence of calls. -/
def calls (t : Terminal) (ops : List TerminalOp) : Terminal := ops.foldl call t

/-- The cursor is on the screen. -/
def OnScreen (t : Terminal) : Prop := t.gRow < height ∧ t.gColumn < width

/-- The offsets that a call of `putc` stores to. -/
def putcStores (t : Terminal) (c : UInt8) : List Nat := (t.putc c).stores.drop t.stores.length

/-- A call of `putc` from the screen that stores to the screen only. -/
structure SafePutc (t : Terminal) (c : UInt8) : Prop where
  cursor : t.OnScreen
  stores : ∀ off ∈ t.putcStores c, off < height * width * 2

/-- Every call of a sequence is safe. -/
def SafeCalls : Terminal → List TerminalOp → Prop
  | _, [] => True
  | t, op :: ops => (∀ c, op = .putc c → t.SafePutc c) ∧ SafeCalls (t.call op) ops

/-! ## One call -/

/-- On the screen the call does what it should. -/
theorem OnScreen.putc {t : Terminal} (h : t.OnScreen) (c : UInt8) :
    t.SafePutc c ∧
      (t.putc c).gRow = (if c = newlineChar then t.gRow + 1 else t.gRow) ∧
      (t.putc c).gColumn = (if c = newlineChar then 0 else t.gColumn + 1) := by
  obtain ⟨hrow, hcolumn⟩ := h
  by_cases hc : c = newlineChar
  · have hputc : t.putc c = { t with gRow := t.gRow + 1, gColumn := 0 } := by
      rw [Terminal.putc, if_pos hc, newline_of_lt hrow]
    rw [if_pos hc, if_pos hc, hputc]
    refine ⟨⟨⟨hrow, hcolumn⟩, fun off hoff => ?_⟩, rfl, rfl⟩
    rw [putcStores, hputc] at hoff
    simp at hoff
  · rw [if_neg hc, if_neg hc, putc_of_lt hc hcolumn]
    refine ⟨⟨⟨hrow, hcolumn⟩, fun off hoff => ?_⟩, rfl, rfl⟩
    rw [putcStores, putc_of_lt hc hcolumn] at hoff
    have hcases : off = t.gRow * lineSize + t.gColumn * 2 ∨
        off = t.gRow * lineSize + t.gColumn * 2 + 1 := by
      simpa [storeByte] using hoff
    unfold height width lineSize at *
    omega

/-- Before a safe call the cursor is on the screen. -/
theorem SafeCalls.onScreen {c : UInt8} {post : List TerminalOp} :
    ∀ {pre : List TerminalOp} {t : Terminal}, t.SafeCalls (pre ++ .putc c :: post) →
      (t.calls pre).OnScreen := by
  intro pre
  induction pre with
  | nil =>
    rintro t ⟨hsafe, _⟩
    exact (hsafe c rfl).cursor
  | cons op pre ih =>
    rintro t ⟨_, hrest⟩
    exact ih hrest

end Terminal

/-! ## The text decides -/

/-- The column that a text has reached. -/
def columnOf (text : List UInt8) : Nat := (text.reverse.takeWhile (· != newlineChar)).length

/-- Before every character of `rest`, the text has at most 24 newlines and at most 79
characters behind the last of them. -/
def FitsBehind (text rest : List UInt8) : Prop :=
  ∀ pre c, pre ++ [c] <+: rest →
    (text ++ pre).count newlineChar < height ∧ columnOf (text ++ pre) < width

theorem columnOf_concat (text : List UInt8) (c : UInt8) :
    columnOf (text ++ [c]) = if c = newlineChar then 0 else columnOf text + 1 := by
  unfold columnOf
  rw [List.reverse_append, List.reverse_singleton, List.singleton_append, List.takeWhile_cons]
  by_cases hc : c = newlineChar
  · rw [if_pos hc, if_neg (by simp [hc])]
    rfl
  · rw [if_neg hc, if_pos (by simpa using hc), List.length_cons]

theorem count_concat (text : List UInt8) (c : UInt8) :
    (text ++ [c]).count newlineChar =
      if c = newlineChar then text.count newlineChar + 1 else text.count newlineChar := by
  rw [List.count_append, List.count_singleton]
  by_cases hc : c = newlineChar
  · simp [hc]
  · simp [hc]

/-- The first character, and the others. -/
theorem fitsBehind_cons {text : List UInt8} {c : UInt8} {rest : List UInt8} :
    FitsBehind text (c :: rest) ↔
      (text.count newlineChar < height ∧ columnOf text < width) ∧
        FitsBehind (text ++ [c]) rest := by
  constructor
  · intro h
    have hfirst := h [] c (by simp)
    rw [List.append_nil] at hfirst
    refine ⟨hfirst, fun pre d hpre => ?_⟩
    rw [List.append_assoc]
    exact h (c :: pre) d (List.cons_prefix_cons.mpr ⟨rfl, hpre⟩)
  · rintro ⟨hfirst, hrest⟩ pre d hpre
    cases pre with
    | nil => rwa [List.append_nil]
    | cons e pre =>
      obtain ⟨rfl, htail⟩ := List.cons_prefix_cons.mp hpre
      have hlater := hrest pre d htail
      rwa [List.append_assoc] at hlater

/-- A run is safe exactly if the text fits.  The cursor is where the text has got to, as
long as it has not left the screen. -/
theorem safeCalls_iff_fitsBehind : ∀ {ops : List TerminalOp} {t : Terminal} {text : List UInt8},
    t.gRow = text.count newlineChar → t.gColumn = columnOf text →
    (t.SafeCalls ops ↔ FitsBehind text (textOf ops)) := by
  intro ops
  induction ops with
  | nil =>
    intro t text _ _
    refine ⟨fun _ pre c hpre => ?_, fun _ => trivial⟩
    simp [textOf] at hpre
  | cons op ops ih =>
    intro t text hrow hcolumn
    cases op with
    | putc c =>
      have htext : textOf (.putc c :: ops) = c :: textOf ops := rfl
      have hscreen : t.OnScreen ↔
          text.count newlineChar < height ∧ columnOf text < width := by
        rw [Terminal.OnScreen, hrow, hcolumn]
      rw [htext, fitsBehind_cons]
      by_cases hon : t.OnScreen
      · obtain ⟨hsafe, hrow', hcolumn'⟩ := hon.putc c
        rw [hrow, ← count_concat] at hrow'
        rw [hcolumn, ← columnOf_concat] at hcolumn'
        have hrest := ih hrow' hcolumn'
        constructor
        · rintro ⟨_, hcalls⟩
          exact ⟨hscreen.mp hon, hrest.mp hcalls⟩
        · rintro ⟨_, hfits⟩
          refine ⟨fun d hd => ?_, hrest.mpr hfits⟩
          obtain rfl := TerminalOp.putc.inj hd
          exact hsafe
      · constructor
        · rintro ⟨hsafe, _⟩
          exact absurd (hsafe c rfl).cursor hon
        · rintro ⟨hfits, _⟩
          exact absurd (hscreen.mpr hfits) hon
    | setFgColor c =>
      have hrest := ih (t := t.setFgColor c) hrow hcolumn
      exact ⟨fun h => hrest.mp h.2, fun h => ⟨fun d hd => (by cases hd), hrest.mpr h⟩⟩
    | setBgColor c =>
      have hrest := ih (t := t.setBgColor c) hrow hcolumn
      exact ⟨fun h => hrest.mp h.2, fun h => ⟨fun d hd => (by cases hd), hrest.mpr h⟩⟩

/-- From the cursor of the boot, the calls of a sequence are all safe exactly if its text
fits on the screen: no proper prefix has more than 24 newlines, or more than 79
characters in its last line. -/
theorem calls_safe_iff {t : Terminal} (hrow : t.gRow = 0) (hcolumn : t.gColumn = 0)
    (ops : List TerminalOp) : t.SafeCalls ops ↔ FitsBehind [] (textOf ops) :=
  safeCalls_iff_fitsBehind hrow hcolumn

/-! ## One character behind the row -/

/-- Two short lines, in two colours, are safe. -/
theorem startTerminal_safe :
    startTerminal.SafeCalls [.putc 0x48, .setFgColor 12, .putc 0x0A, .putc 0x4F, .putc 0x53] := by
  refine (calls_safe_iff rfl rfl _).mpr fun pre c hpre => ?_
  have hlen := hpre.length_le
  have hcount := List.count_le_length (a := newlineChar) (l := pre)
  have hcolumn := (List.takeWhile_prefix (fun d => d != newlineChar) (l := pre.reverse)).length_le
  rw [List.length_append, List.length_singleton] at hlen
  rw [List.length_reverse] at hcolumn
  have hfive : (textOf [.putc 0x48, .setFgColor 12, .putc 0x0A, .putc 0x4F, .putc 0x53]).length =
      4 := rfl
  rw [List.nil_append]
  unfold columnOf height width
  omega

/-- The 81st character of a line finds the cursor in column 80. -/
theorem startTerminal_leaves_screen :
    (startTerminal.calls (List.replicate 80 (.putc 0x61))).gColumn = 80 ∧
      ¬ startTerminal.SafeCalls (List.replicate 81 (.putc 0x61)) := by
  have hcolumn : (startTerminal.calls (List.replicate 80 (.putc 0x61))).gColumn = 80 := by
    decide +kernel
  refine ⟨hcolumn, fun hsafe => ?_⟩
  have hsplit : List.replicate 81 (TerminalOp.putc 0x61) =
      List.replicate 80 (.putc 0x61) ++ .putc 0x61 :: [] := by decide
  rw [hsplit] at hsafe
  have hwidth := hsafe.onScreen.2
  rw [hcolumn] at hwidth
  exact absurd hwidth (by decide)

end HosBoot.I386
