/-
  I386/TerminalRows.lean --- the screen as a list of rows.

  `Layout` fills rows of 80 columns, and goes on to the next row at a newline and as
  soon as a row is full; the screen should show the last 25 of its rows.  The
  terminal follows it while no step passes the end of a row or of the last row:
  `g_column++ >= WIDTH` and `g_row++ >= HEIGHT` test the old value, one step late.
-/
import Mathlib.Data.List.GetD
import HosBoot.I386.Terminal

set_option autoImplicit false

namespace HosBoot.I386

open HosBoot.Foundation HosBoot.Common

/-! ## Rows of text -/

/-- The rows that are complete and the row that is being filled. -/
structure Layout where
  done : List (List UInt8)
  current : List UInt8
  deriving DecidableEq, Repr

/-- Put one character. -/
def Layout.put (l : Layout) (c : UInt8) : Layout :=
  if c = newlineChar then ⟨l.done ++ [l.current], []⟩
  else if l.current.length + 1 = width then ⟨l.done ++ [l.current ++ [c]], []⟩
  else ⟨l.done, l.current ++ [c]⟩

/-- The rows so far. -/
def Layout.rows (l : Layout) : List (List UInt8) := l.done ++ [l.current]

/-- The layout of a text. -/
def layoutOf (text : List UInt8) : Layout := text.foldl Layout.put ⟨[], []⟩

/-- The character of a list of rows at a place, blank where there is none. -/
def charAt (rows : List (List UInt8)) (i j : Nat) : UInt8 := (rows.getD i []).getD j blank

/-- The last rows that fit on the screen. -/
def lastRows (rows : List (List UInt8)) : List (List UInt8) := rows.drop (rows.length - height)

/-- The screen shows the last rows, from the top, with blanks elsewhere. -/
def Terminal.Shows (t : Terminal) (rows : List (List UInt8)) : Prop :=
  ∀ i < height, ∀ j < width, t.cell i j = charAt (lastRows rows) i j

theorem lastRows_of_le {rows : List (List UInt8)} (h : rows.length ≤ height) :
    lastRows rows = rows := by
  rw [lastRows, Nat.sub_eq_zero_of_le h, List.drop_zero]

/-- Reading a list with one more element. -/
theorem getD_concat {α : Type} (xs : List α) (a d : α) (i : Nat) :
    (xs ++ [a]).getD i d = if i = xs.length then a else xs.getD i d := by
  rcases Nat.lt_trichotomy i xs.length with hlt | rfl | hgt
  · rw [List.getD_append _ _ _ _ hlt, if_neg (by omega)]
  · rw [List.getD_append_right _ _ _ _ (Nat.le_refl _), Nat.sub_self, if_pos rfl]
    rfl
  · have hout : [a].length ≤ i - xs.length := by
      rw [List.length_singleton]
      omega
    rw [List.getD_append_right _ _ _ _ hgt.le, if_neg (by omega),
      List.getD_eq_default xs d hgt.le, List.getD_eq_default [a] d hout]

/-- An empty row at the end shows nothing. -/
theorem charAt_append_empty (rows : List (List UInt8)) (i j : Nat) :
    charAt (rows ++ [[]]) i j = charAt rows i j := by
  unfold charAt
  rw [getD_concat]
  by_cases hi : i = rows.length
  · rw [if_pos hi, List.getD_eq_default rows _ hi.ge]
  · rw [if_neg hi]

/-- One more character in the last row. -/
theorem charAt_append_char (done : List (List UInt8)) (current : List UInt8) (c : UInt8)
    (i j : Nat) :
    charAt (done ++ [current ++ [c]]) i j =
      if i = done.length ∧ j = current.length then c else charAt (done ++ [current]) i j := by
  unfold charAt
  rw [getD_concat, getD_concat]
  by_cases hi : i = done.length
  · rw [if_pos hi, if_pos hi, getD_concat]
    by_cases hj : j = current.length
    · rw [if_pos hj, if_pos ⟨hi, hj⟩]
    · rw [if_neg hj, if_neg fun h => hj h.2]
  · rw [if_neg hi, if_neg hi, if_neg fun h => hi h.1]

/-! ## The terminal follows the layout -/

/-- A step that the terminal takes in time: the cursor is in a column of the screen,
and if the step ends the row there is a row below. -/
def StepInScreen (t : Terminal) (c : UInt8) : Prop :=
  t.gColumn < width ∧ (c = newlineChar ∨ t.gColumn + 1 = width → t.gRow + 1 < height)

instance (t : Terminal) (c : UInt8) : Decidable (StepInScreen t c) :=
  inferInstanceAs (Decidable (_ ∧ (_ → _)))

/-- Every step of a run is in time. -/
def RunInScreen : Terminal → List UInt8 → Prop
  | _, [] => True
  | t, c :: cs => StepInScreen t c ∧ RunInScreen (t.putc c) cs

instance instDecidableRunInScreen : ∀ (t : Terminal) (text : List UInt8),
    Decidable (RunInScreen t text)
  | _, [] => inferInstanceAs (Decidable True)
  | t, c :: cs =>
      have : Decidable (RunInScreen (t.putc c) cs) := instDecidableRunInScreen (t.putc c) cs
      inferInstanceAs (Decidable (_ ∧ _))

/-- The terminal shows a layout of at most 25 rows.  After a full row the cursor
stays behind it, in column 80. -/
structure Tracks (t : Terminal) (l : Layout) : Prop where
  rows : l.done.length < height
  cursor : (t.gRow = l.done.length ∧ t.gColumn = l.current.length) ∨
    (t.gColumn = width ∧ l.current = [])
  cells : ∀ i < height, ∀ j < width, t.cell i j = charAt l.rows i j

theorem Tracks.shows {t : Terminal} {l : Layout} (h : Tracks t l) : t.Shows l.rows := by
  intro i hi j hj
  have hle : l.rows.length ≤ height := by
    rw [Layout.rows, List.length_append]
    exact h.rows
  rw [lastRows_of_le hle]
  exact h.cells i hi j hj

theorem Terminal.Cleared.tracks {t : Terminal} (h : t.Cleared) : Tracks t ⟨[], []⟩ where
  rows := by decide
  cursor := Or.inl ⟨h.row, h.column⟩
  cells := by
    intro i hi j hj
    rw [h.cells i hi j hj]
    exact (charAt_append_empty [] i j).symm

namespace Terminal

/-- `newline` in a row of the screen does not scroll. -/
theorem newline_of_lt {t : Terminal} (h : t.gRow < height) :
    t.newline = { t with gRow := t.gRow + 1, gColumn := 0 } := by
  unfold newline
  rw [if_neg (Nat.not_le.mpr h)]

/-- `putc` of a character in a column of the screen. -/
theorem putc_of_lt {t : Terminal} {c : UInt8} (hc : c ≠ newlineChar) (h : t.gColumn < width) :
    t.putc c =
      { (t.storeByte (t.gRow * lineSize + t.gColumn * 2) c).storeByte
          (t.gRow * lineSize + t.gColumn * 2 + 1) t.gColorByte with
        gColumn := t.gColumn + 1 } := by
  unfold putc
  rw [if_neg hc]
  exact if_neg (Nat.not_le.mpr h)

end Terminal

/-- One step keeps the terminal on the layout. -/
theorem Tracks.putc {t : Terminal} {l : Layout} (h : Tracks t l) {c : UInt8}
    (hstep : StepInScreen t c) : Tracks (t.putc c) (l.put c) := by
  obtain ⟨hcolumn, hrow⟩ := hstep
  obtain ⟨hgRow, hgColumn⟩ : t.gRow = l.done.length ∧ t.gColumn = l.current.length := by
    rcases h.cursor with hcursor | ⟨hwide, _⟩
    · exact hcursor
    · exact absurd hwide (Nat.ne_of_lt hcolumn)
  unfold Layout.put
  by_cases hc : c = newlineChar
  · -- A newline: the row is complete, an empty one begins.
    have hlt := hrow (Or.inl hc)
    rw [if_pos hc]
    have hputc : t.putc c = { t with gRow := t.gRow + 1, gColumn := 0 } := by
      rw [Terminal.putc, if_pos hc, Terminal.newline_of_lt (Nat.lt_of_succ_lt hlt)]
    rw [hputc]
    refine ⟨?_, Or.inl ⟨?_, rfl⟩, fun i hi j hj => ?_⟩
    · rw [List.length_append]
      exact hgRow ▸ hlt
    · rw [List.length_append, hgRow]
      rfl
    · exact (h.cells i hi j hj).trans (charAt_append_empty _ i j).symm
  · -- A character: one cell changes.
    rw [if_neg hc, Terminal.putc_of_lt hc hcolumn]
    have hcells : ∀ i < height, ∀ j < width,
        ((t.storeByte (t.gRow * lineSize + t.gColumn * 2) c).storeByte
          (t.gRow * lineSize + t.gColumn * 2 + 1) t.gColorByte).cell i j =
        charAt (l.done ++ [l.current ++ [c]]) i j := by
      intro i hi j hj
      rw [Terminal.cell_store c t.gColorByte hcolumn hj, charAt_append_char, hgRow, hgColumn,
        h.cells i hi j hj]
      rfl
    by_cases hfull : l.current.length + 1 = width
    · have hlt := hrow (Or.inr (hgColumn ▸ hfull))
      rw [if_pos hfull]
      refine ⟨?_, Or.inr ⟨?_, rfl⟩, fun i hi j hj => ?_⟩
      · rw [List.length_append]
        exact hgRow ▸ hlt
      · exact hgColumn ▸ hfull
      · exact (hcells i hi j hj).trans (charAt_append_empty _ i j).symm
    · rw [if_neg hfull]
      refine ⟨h.rows, Or.inl ⟨hgRow, ?_⟩, hcells⟩
      rw [List.length_append, ← hgColumn]
      rfl

/-- The run lemma: a run whose steps are in time keeps the terminal on the layout. -/
theorem Tracks.putcs : ∀ {text : List UInt8} {t : Terminal} {l : Layout}, Tracks t l →
    RunInScreen t text → ∀ pre, pre <+: text → Tracks (t.putcs pre) (pre.foldl Layout.put l) := by
  intro text
  induction text with
  | nil =>
    intro t l h _ pre hpre
    rw [List.prefix_nil.mp hpre]
    exact h
  | cons c cs ih =>
    rintro t l h ⟨hstep, hrun⟩ pre hpre
    cases pre with
    | nil => exact h
    | cons d ds =>
      obtain ⟨rfl, hds⟩ := List.cons_prefix_cons.mp hpre
      exact ih (h.putc hstep) hrun ds hds

/-- In a run from the cleared terminal whose steps are all in time, the screen shows
the text in every state reached. -/
theorem putcs_shows {t : Terminal} (hcleared : t.Cleared) {text : List UInt8}
    (hrun : RunInScreen t text) (pre : List UInt8) (hpre : pre <+: text) :
    (t.putcs pre).Shows (layoutOf pre).rows :=
  (hcleared.tracks.putcs hrun pre hpre).shows

/-! ## One step late -/

/-- The terminal as the bootstrapper starts with it. -/
def bootTerminal : Terminal := Terminal.resetTerminal ⟨0, 0, 0xF0, fun _ => 0, []⟩

theorem bootTerminal_cleared : bootTerminal.Cleared := Terminal.resetTerminal_cleared rfl rfl

/-- Two short lines show up. -/
theorem bootTerminal_shows :
    (bootTerminal.putcs [0x48, 0x0A, 0x4F, 0x53]).Shows
      (layoutOf [0x48, 0x0A, 0x4F, 0x53]).rows :=
  putcs_shows bootTerminal_cleared (by decide +kernel) _ (List.prefix_refl _)

/-- A row of 80 characters and two more: the second overwrites the first. -/
theorem bootTerminal_overwrites :
    ¬ (bootTerminal.putcs (List.replicate 80 0x61 ++ [0x62, 0x63])).Shows
      (layoutOf (List.replicate 80 0x61 ++ [0x62, 0x63])).rows := by
  intro hshows
  have hcell := hshows 1 (by decide) 0 (by decide)
  revert hcell
  decide +kernel

end HosBoot.I386
