/-
  I386/Terminal.lean --- the text terminal of `terminal.c`.

  The terminal is a cursor and a colour over display memory: 25 rows of 80 cells,
  a character and a colour byte each.  `g_row` and `g_column` start at zero and are
  only incremented or reset, so that the `int`s never leave the small naturals.
  The offsets of all stores are recorded, in order.
-/
import HosBoot.Common.Stdlib
import HosBoot.Common.CString

set_option autoImplicit false

namespace HosBoot.I386

open HosBoot.Foundation HosBoot.Common

/-! ## Constants and state -/

/-- `HEIGHT` -/
def height : Nat := 25
/-- `WIDTH` -/
def width : Nat := 80
/-- `LINE_SIZE`, `WIDTH * 2`. -/
def lineSize : Nat := 160
/-- `g_text_video_memory` -/
def gTextVideoMemory : UInt32 := 0xB8000
/-- `' '` -/
def blank : UInt8 := 0x20
/-- `'\\n'` -/
def newlineChar : UInt8 := 0x0A

/-- The globals of `terminal.c`, display memory and the stores made to it. -/
structure Terminal where
  /-- `g_row` -/
  gRow : Nat
  /-- `g_column` -/
  gColumn : Nat
  /-- `g_color_byte`, `WHITE << 4 | BLACK` at first. -/
  gColorByte : UInt8
  mem : Mem
  /-- The offsets into `g_text_video_memory` stored to. -/
  stores : List Nat

namespace Terminal

/-- `g_text_video_memory[off] = c`. -/
def storeByte (t : Terminal) (off : Nat) (c : UInt8) : Terminal :=
  { t with
    mem := t.mem.write (gTextVideoMemory.toNat + off) c
    stores := t.stores ++ [off] }

/-! ## The functions -/

/-- The loop of `reset_terminal`, which runs down from the last cell. -/
def clearCells : Nat → Terminal → Terminal
  | 0, t => t
  | i + 1, t => clearCells i ((t.storeByte (i * 2) blank).storeByte (i * 2 + 1) t.gColorByte)

/-- `reset_terminal`. -/
def resetTerminal (t : Terminal) : Terminal := clearCells (height * width) t

/-- `set_fg_color`. -/
def setFgColor (t : Terminal) (c : UInt8) : Terminal :=
  { t with gColorByte := (t.gColorByte &&& (0xf0 : UInt8)) ||| c }

/-- `set_bg_color`. -/
def setBgColor (t : Terminal) (c : UInt8) : Terminal :=
  { t with gColorByte := (t.gColorByte &&& (0xf : UInt8)) ||| (c <<< 4) }

/-- The loop `for (i = 0; i < LINE_SIZE; ++i)` of `newline` from `i` on, which clears
cells from `last_line` on. -/
def clearLastLine : Nat → Nat → Terminal → Terminal
  | 0, _, t => t
  | n + 1, i, t =>
      clearLastLine n (i + 1)
        ((t.storeByte (height * width * 2 - lineSize + i * 2) blank).storeByte
          (height * width * 2 - lineSize + (i * 2 + 1)) t.gColorByte)

/-- The scroll of `newline`: the rows move up by one. -/
def scroll (t : Terminal) : Terminal :=
  let len := height * width * 2 - lineSize
  let t := { t with
    mem := memcpy t.mem gTextVideoMemory (gTextVideoMemory + UInt32.ofNat lineSize) len
    stores := t.stores ++ List.range len }
  clearLastLine lineSize 0 t

/-- `newline`. -/
def newline (t : Terminal) : Terminal :=
  -- `if (g_row++ >= HEIGHT)`
  let t :=
    if t.gRow ≥ height then { scroll t with gRow := height - 1 }
    else { t with gRow := t.gRow + 1 }
  { t with gColumn := 0 }

/-- `putc`. -/
def putc (t : Terminal) (c : UInt8) : Terminal :=
  if c = newlineChar then
    newline t
  else
    let off := t.gRow * lineSize + t.gColumn * 2
    let t := (t.storeByte off c).storeByte (off + 1) t.gColorByte
    -- `if (g_column++ >= WIDTH)`
    if t.gColumn ≥ width then newline { t with gColumn := t.gColumn + 1 }
    else { t with gColumn := t.gColumn + 1 }

/-- A sequence of calls of `putc`. -/
def putcs (t : Terminal) (text : List UInt8) : Terminal := text.foldl putc t

/-- The loop of `puts`: the number of characters and the terminal. -/
def putsLoop (m : Mem) : Nat → Nat → Terminal → Option (Nat × Terminal)
  | 0, _, _ => none
  | fuel + 1, test, t =>
      if m test ≠ 0 then
        (putsLoop m fuel (test + 1) (t.putc (m test))).map fun r => (r.1 + 1, r.2)
      else
        some (0, t)

/-- `puts`. -/
def puts (m : Mem) (test : Nat) (t : Terminal) : Option (Nat × Terminal) :=
  putsLoop m addressSpace test t

/-! ## Basic facts -/

section Store

variable (t : Terminal) (off : Nat) (c : UInt8)

@[simp] theorem storeByte_gRow : (t.storeByte off c).gRow = t.gRow := rfl
@[simp] theorem storeByte_gColumn : (t.storeByte off c).gColumn = t.gColumn := rfl
@[simp] theorem storeByte_gColorByte : (t.storeByte off c).gColorByte = t.gColorByte := rfl

end Store

/-- The character in a cell. -/
def cell (t : Terminal) (row column : Nat) : UInt8 :=
  t.mem (gTextVideoMemory.toNat + (row * lineSize + column * 2))

theorem storeByte_apply (t : Terminal) (off : Nat) (c : UInt8) (k : Nat) :
    (t.storeByte off c).mem (gTextVideoMemory.toNat + k) =
      if k = off then c else t.mem (gTextVideoMemory.toNat + k) := by
  by_cases hk : k = off
  · rw [if_pos hk, hk]
    exact Mem.write_same _ _ _
  · rw [if_neg hk]
    exact Mem.write_of_ne fun h => hk (Nat.add_left_cancel h)

/-- The two stores of `putc` change one cell. -/
theorem cell_store {t : Terminal} {row column : Nat} (c color : UInt8) {i j : Nat}
    (hcolumn : column < width) (hj : j < width) :
    ((t.storeByte (row * lineSize + column * 2) c).storeByte
        (row * lineSize + column * 2 + 1) color).cell i j =
      if i = row ∧ j = column then c else t.cell i j := by
  unfold width at hcolumn hj
  unfold cell
  rw [storeByte_apply, storeByte_apply]
  unfold lineSize
  rw [if_neg (by omega)]
  by_cases hcell : i = row ∧ j = column
  · rw [if_pos hcell, if_pos (by rw [hcell.1, hcell.2])]
  · rw [if_neg hcell, if_neg (by omega)]

/-- `puts` passes the characters that a loop over the string reads. -/
theorem putsLoop_eq (m : Mem) : ∀ (fuel p : Nat) (t : Terminal),
    putsLoop m fuel p t =
      (stringAt m fuel p).map fun text => (text.length, t.putcs text) := by
  intro fuel
  induction fuel with
  | zero => exact fun p t => rfl
  | succ fuel ih =>
    intro p t
    rw [putsLoop, stringAt]
    by_cases hp : m p = 0
    · rw [if_neg (not_not.mpr hp), if_pos hp]
      rfl
    · rw [if_pos hp, if_neg hp, ih, Option.map_map, Option.map_map]
      rfl

/-- `puts` is `putc` on each character of the string. -/
theorem puts_eq {m : Mem} {test : Nat} {text : List UInt8} (h : CString m test text)
    (hlen : text.length < addressSpace) (t : Terminal) :
    t.puts m test = some (text.length, t.putcs text) := by
  unfold puts
  rw [putsLoop_eq, h.stringAt_eq hlen]
  rfl

/-- `reset_terminal` blanks every cell and leaves the cursor. -/
theorem clearCells_spec : ∀ (n : Nat) (t : Terminal),
    (clearCells n t).gRow = t.gRow ∧ (clearCells n t).gColumn = t.gColumn ∧
      ∀ k, (clearCells n t).mem (gTextVideoMemory.toNat + k * 2) =
        if k < n then blank else t.mem (gTextVideoMemory.toNat + k * 2) := by
  intro n
  induction n with
  | zero => exact fun t => ⟨rfl, rfl, fun k => rfl⟩
  | succ n ih =>
    intro t
    obtain ⟨hrow, hcolumn, hcells⟩ :=
      ih ((t.storeByte (n * 2) blank).storeByte (n * 2 + 1) t.gColorByte)
    refine ⟨hrow, hcolumn, fun k => ?_⟩
    rw [clearCells, hcells, storeByte_apply, storeByte_apply]
    by_cases hk : k < n
    · rw [if_pos hk, if_pos (by omega)]
    · rw [if_neg hk, if_neg (by omega)]
      by_cases heq : k = n
      · rw [if_pos (by omega), if_pos (by omega)]
      · rw [if_neg (by omega), if_neg (by omega)]

/-- A cleared terminal with the cursor at the origin. -/
structure Cleared (t : Terminal) : Prop where
  row : t.gRow = 0
  column : t.gColumn = 0
  cells : ∀ i < height, ∀ j < width, t.cell i j = blank

theorem resetTerminal_cleared {t : Terminal} (hrow : t.gRow = 0) (hcolumn : t.gColumn = 0) :
    (resetTerminal t).Cleared := by
  obtain ⟨hrow', hcolumn', hcells⟩ := clearCells_spec (height * width) t
  refine ⟨hrow'.trans hrow, hcolumn'.trans hcolumn, fun i hi j hj => ?_⟩
  have hk := hcells (i * width + j)
  unfold cell resetTerminal
  have hoff : i * lineSize + j * 2 = (i * width + j) * 2 := by
    unfold lineSize width
    omega
  rw [hoff, hk, if_pos]
  unfold height width at *
  omega

end Terminal

/-- The terminal before anything is printed. -/
def startTerminal : Terminal := ⟨0, 0, 0xF0, fun _ => 0, []⟩

end HosBoot.I386
