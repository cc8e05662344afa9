/-
  Foundation/LinkedList.lean --- linked lists in memory.

  A node has a pointer to the next node and, in a doubly-linked list, one back.  The lemmas
  say which list is in memory after pointers have been stored: any store outside the list
  keeps it, and a store to a node replaces the list behind that node.
-/
import Mathlib.Data.List.Basic
import Mathlib.Logic.Function.Basic

set_option autoImplicit false

namespace HosBoot.Foundation.LinkedList

variable {α : Type}

/-! ## Links -/

/-- The links lead from a pointer over the nodes of a list to another pointer. -/
def Seg (link : α → Option α) : Option α → List α → Option α → Prop
  | p, [], stop => p = stop
  | p, x :: rest, stop => p = some x ∧ Seg link (link x) rest stop

/-- The links lead from a pointer over a list to its end. -/
def Linked (link : α → Option α) (p : Option α) (l : List α) : Prop := Seg link p l none

variable {link link' : α → Option α} {p stop : Option α} {l front rest rest' : List α} {x : α}

theorem Seg.congr (h : Seg link p l stop) (hsame : ∀ y ∈ l, link' y = link y) :
    Seg link' p l stop := by
  induction l generalizing p with
  | nil => exact h
  | cons y rest ih =>
    obtain ⟨hp, hrest⟩ := h
    refine ⟨hp, ?_⟩
    rw [hsame y List.mem_cons_self]
    exact ih hrest fun z hz => hsame z (List.mem_cons_of_mem y hz)

/-- One stretch behind another. -/
theorem seg_append :
    Seg link p (front ++ rest) stop ↔ ∃ m, Seg link p front m ∧ Seg link m rest stop := by
  induction front generalizing p with
  | nil => exact ⟨fun h => ⟨p, rfl, h⟩, fun ⟨_, hp, h⟩ => hp ▸ h⟩
  | cons y front ih =>
    rw [List.cons_append, Seg, ih]
    constructor
    · rintro ⟨hp, m, hfront, hrest⟩
      exact ⟨m, ⟨hp, hfront⟩, hrest⟩
    · rintro ⟨m, ⟨hp, hfront⟩, hrest⟩
      exact ⟨hp, m, hfront, hrest⟩

theorem Linked.congr (h : Linked link p l) (hsame : ∀ y ∈ l, link' y = link y) :
    Linked link' p l :=
  Seg.congr h hsame

theorem Linked.head (h : Linked link p l) : p = l.head? := by
  cases l with
  | nil => exact h
  | cons y rest => exact h.1

/-- The list behind one of the nodes. -/
theorem Linked.behind (h : Linked link p (front ++ x :: rest)) : Linked link (link x) rest := by
  obtain ⟨m, -, hm⟩ := seg_append.mp h
  exact hm.2

/-- The link of a node. -/
theorem Linked.link_eq (h : Linked link p (front ++ x :: rest)) : link x = rest.head? :=
  h.behind.head

/-- Another list behind one of the nodes. -/
theorem Linked.relink (h : Linked link p (front ++ x :: rest))
    (hsame : ∀ y ∈ front, link' y = link y) (hrest : Linked link' (link' x) rest') :
    Linked link' p (front ++ x :: rest') := by
  obtain ⟨m, hfront, hm, -⟩ := seg_append.mp h
  exact seg_append.mpr ⟨m, hfront.congr hsame, hm, hrest⟩

/-! ## Pointers back -/

/-- Each node points back to the one before it. -/
def Backed (back : α → Option α) : Option α → List α → Prop
  | _, [] => True
  | prev, x :: rest => back x = prev ∧ Backed back (some x) rest

variable {back back' : α → Option α} {prev : Option α}

theorem Backed.congr (h : Backed back prev l) (hsame : ∀ y ∈ l, back' y = back y) :
    Backed back' prev l := by
  induction l generalizing prev with
  | nil => trivial
  | cons y rest ih =>
    obtain ⟨hy, hrest⟩ := h
    refine ⟨(hsame y List.mem_cons_self).trans hy, ?_⟩
    exact ih hrest fun z hz => hsame z (List.mem_cons_of_mem y hz)

/-- The node in front of the second of two lists. -/
def lastOr (prev : Option α) (l : List α) : Option α := l.getLast?.or prev

theorem lastOr_cons (prev : Option α) (y : α) (rest : List α) :
    lastOr prev (y :: rest) = lastOr (some y) rest := by
  unfold lastOr
  cases hrest : rest.getLast? with
  | none =>
    rw [List.getLast?_eq_none_iff.mp hrest]
    rfl
  | some z => rw [List.getLast?_cons, hrest]; rfl

theorem backed_append :
    Backed back prev (front ++ rest) ↔ Backed back prev front ∧ Backed back (lastOr prev front) rest := by
  induction front generalizing prev with
  | nil => exact ⟨fun h => ⟨trivial, h⟩, fun h => h.2⟩
  | cons y front ih => rw [List.cons_append, Backed, ih, Backed, lastOr_cons, and_assoc]

/-- A list with links both ways. -/
structure DblLinked (link back : α → Option α) (p : Option α) (l : List α) : Prop where
  linked : Linked link p l
  backed : Backed back none l

theorem DblLinked.congr (h : DblLinked link back p l) (hlink : ∀ y ∈ l, link' y = link y)
    (hback : ∀ y ∈ l, back' y = back y) : DblLinked link' back' p l :=
  ⟨h.linked.congr hlink, h.backed.congr hback⟩

theorem DblLinked.nil : DblLinked link back none ([] : List α) := ⟨rfl, trivial⟩

variable [DecidableEq α]

/-- A new first node. -/
theorem DblLinked.push (h : DblLinked link back p l) (hlink : link' x = p)
    (hback : back' x = none) (hlinks : ∀ y ∈ l, link' y = link y)
    (hbacks : ∀ y ∈ l, back' y = if p = some y then some x else back y) (hnodup : l.Nodup) :
    DblLinked link' back' (some x) (x :: l) := by
  refine ⟨⟨rfl, hlink ▸ h.linked.congr hlinks⟩, hback, ?_⟩
  cases l with
  | nil => trivial
  | cons y rest =>
    have hp : p = some y := h.linked.head
    obtain ⟨hy, -⟩ := List.nodup_cons.mp hnodup
    refine ⟨by rw [hbacks y List.mem_cons_self, if_pos hp], h.backed.2.congr fun z hz => ?_⟩
    rw [hbacks z (List.mem_cons_of_mem y hz), if_neg]
    rw [hp, Option.some_inj]
    rintro rfl
    exact hy hz

/-- A node leaves the list. -/
theorem DblLinked.remove (h : DblLinked link back p (front ++ x :: rest))
    (hlinks : ∀ y ∈ front ++ rest, link' y = if back x = some y then link x else link y)
    (hbacks : ∀ y ∈ front ++ rest, back' y = if link x = some y then back x else back y)
    (hnodup : (front ++ x :: rest).Nodup) :
    DblLinked link' back' (if back x = none then link x else p) (front ++ rest) := by
  obtain ⟨hbackedFront, hbackX, hbackedRest⟩ := backed_append.mp h.backed
  have hlinkX : link x = rest.head? := h.linked.link_eq
  obtain ⟨hfrontNodup, hrestNodup, hapart⟩ := List.nodup_append.mp hnodup
  obtain ⟨hxRest, hrestNodup⟩ := List.nodup_cons.mp hrestNodup
  have hrestLinks : ∀ y ∈ rest, link' y = link y := by
    intro y hy
    rw [hlinks y (List.mem_append_right _ hy), if_neg]
    rw [hbackX, lastOr, Option.or_none]
    intro hlast
    exact hapart y (List.mem_of_getLast? hlast) y (List.mem_cons_of_mem x hy) rfl
  have hrestLinked : Linked link' (link x) rest := h.linked.behind.congr hrestLinks
  constructor
  · rcases List.eq_nil_or_concat front with rfl | ⟨init, last, hfront⟩
    · rw [if_pos (show back x = none from hbackX)]
      exact hrestLinked
    · rw [List.concat_eq_append] at hfront
      subst hfront
      have hlast : back x = some last := by
        rw [hbackX, lastOr, List.getLast?_concat]
        rfl
      rw [if_neg (by rw [hlast]; simp)]
      have hlinked := h.linked
      rw [List.append_assoc] at hlinked ⊢
      have hinitNodup := List.nodup_append.mp hfrontNodup
      refine hlinked.relink (fun y hy => ?_) ?_
      · rw [hlinks y (List.mem_append_left _ (List.mem_append_left _ hy)), if_neg]
        rw [hlast, Option.some_inj]
        rintro rfl
        exact hinitNodup.2.2 last hy last (List.mem_singleton_self _) rfl
      · rw [hlinks last (List.mem_append_left _ (by simp)), if_pos hlast]
        exact hrestLinked
  · refine backed_append.mpr ⟨hbackedFront.congr fun y hy => ?_, ?_⟩
    · rw [hbacks y (List.mem_append_left _ hy), if_neg]
      rw [hlinkX]
      intro hhead
      exact hapart y hy y (List.mem_cons_of_mem x (List.mem_of_mem_head? hhead)) rfl
    · cases rest with
      | nil => trivial
      | cons y rest =>
        obtain ⟨hyRest, -⟩ := List.nodup_cons.mp hrestNodup
        refine ⟨?_, hbackedRest.2.congr fun z hz => ?_⟩
        · rw [hbacks y (by simp), if_pos (show link x = some y from hlinkX), hbackX]
        · rw [hbacks z (by simp [hz]), if_neg]
          rw [hlinkX, List.head?_cons, Option.some_inj]
          rintro rfl
          exact hyRest hz

end HosBoot.Foundation.LinkedList
