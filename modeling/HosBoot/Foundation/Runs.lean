/-
  Foundation/Runs.lean --- the maximal runs between separators.

  `runs p l` splits a list at the elements that satisfy `p` and keeps the pieces
  that are not empty.  A scanner that goes from left to right skips separators,
  takes one run and stops at the separator behind it: `scan_cases` gives that
  decomposition for every list, and the `runs_` lemmas follow it.
-/
import Mathlib.Data.List.TakeWhile

set_option autoImplicit false

namespace HosBoot.Foundation

variable {α : Type}

/-- The maximal runs of elements that are no separators, in order. -/
def runs (p : α → Bool) (l : List α) : List (List α) :=
  (l.splitOnP p).filter fun run => !run.isEmpty

/-- A non-empty stretch without separators. -/
structure IsRun (p : α → Bool) (run : List α) : Prop where
  ne_nil : run ≠ []
  clear : ∀ x ∈ run, p x = false

theorem runs_nil (p : α → Bool) : runs p [] = [] := rfl

/-- Leading separators do not count. -/
theorem runs_skip {p : α → Bool} {pre : List α} (h : ∀ x ∈ pre, p x = true) (l : List α) :
    runs p (pre ++ l) = runs p l := by
  induction pre with
  | nil => rfl
  | cons x pre ih =>
    have hx : p x = true := h x List.mem_cons_self
    have hrest := ih fun y hy => h y (List.mem_cons_of_mem x hy)
    have hsplit : (x :: (pre ++ l)).splitOnP p = [] :: (pre ++ l).splitOnP p := by
      have hnone : ∀ y ∈ ([] : List α), p y = false := fun y hy => by cases hy
      exact List.splitOnP_append_cons_of_forall_mem hnone x hx (pre ++ l)
    unfold runs at hrest ⊢
    rw [List.cons_append, hsplit, List.filter_cons_of_neg (by simp), hrest]

theorem runs_separators {p : α → Bool} {pre : List α} (h : ∀ x ∈ pre, p x = true) :
    runs p pre = [] := by
  have hskip := runs_skip h []
  rw [List.append_nil] at hskip
  exact hskip.trans (runs_nil p)

/-- A run at the end of the list. -/
theorem runs_last {p : α → Bool} {run : List α} (h : IsRun p run) : runs p run = [run] := by
  have hsplit : run.splitOnP p = [run] := List.splitOnP_eq_singleton h.clear
  unfold runs
  rw [hsplit, List.filter_cons_of_pos (by simp [h.ne_nil]), List.filter_nil]

/-- A run that a separator ends. -/
theorem runs_cons {p : α → Bool} {run : List α} (h : IsRun p run) {sep : α}
    (hsep : p sep = true) (rest : List α) :
    runs p (run ++ sep :: rest) = run :: runs p rest := by
  have hsplit : (run ++ sep :: rest).splitOnP p = run :: rest.splitOnP p :=
    List.splitOnP_append_cons_of_forall_mem h.clear sep hsep rest
  unfold runs
  rw [hsplit, List.filter_cons_of_pos (by simp [h.ne_nil])]

/-- What a scan from the left meets: only separators, a run that ends the list, or a
run that a separator ends. -/
theorem scan_cases (p : α → Bool) (l : List α) :
    (∀ x ∈ l, p x = true) ∨
      (∃ pre run, l = pre ++ run ∧ (∀ x ∈ pre, p x = true) ∧ IsRun p run) ∨
      ∃ pre run sep rest, l = pre ++ (run ++ sep :: rest) ∧ (∀ x ∈ pre, p x = true) ∧
        IsRun p run ∧ p sep = true := by
  have hpre : ∀ x ∈ l.takeWhile p, p x = true := fun x hx => List.mem_takeWhile_imp hx
  have hl := List.takeWhile_append_dropWhile (p := p) (l := l)
  cases hrest : l.dropWhile p with
  | nil =>
    rw [hrest, List.append_nil] at hl
    rw [hl] at hpre
    exact Or.inl hpre
  | cons y ys =>
    have hy : p y = false := by
      have hhead := List.head?_dropWhile_not p l
      rw [hrest] at hhead
      exact hhead
    have hrun : IsRun p (y :: ys.takeWhile fun x => !p x) := by
      refine ⟨List.cons_ne_nil y _, fun x hx => ?_⟩
      rcases List.mem_cons.mp hx with rfl | hmem
      · exact hy
      · have hnot : (!p x) = true := List.mem_takeWhile_imp (p := fun x => !p x) hmem
        simpa using hnot
    have hys := List.takeWhile_append_dropWhile (p := fun x => !p x) (l := ys)
    rw [hrest] at hl
    cases hback : ys.dropWhile fun x => !p x with
    | nil =>
      rw [hback, List.append_nil] at hys
      exact Or.inr (Or.inl ⟨l.takeWhile p, _, by rw [hys]; exact hl.symm, hpre, hrun⟩)
    | cons sep rest =>
      have hsep : p sep = true := by
        have hhead := List.head?_dropWhile_not (fun x => !p x) ys
        rw [hback] at hhead
        simpa using hhead
      rw [hback] at hys
      refine Or.inr (Or.inr ⟨l.takeWhile p, _, sep, rest, ?_, hpre, hrun, hsep⟩)
      rw [List.cons_append, hys]
      exact hl.symm

end HosBoot.Foundation
