/-
  Foundation/LinkedQueue.lean --- singly linked queues with lazy deletion.

  A node that is deleted in the middle cannot be unlinked, so it becomes an indirection, which
  a collector may short out, or, at the tail, a tombstone, which it may not: the tail pointer
  has to stay.  The queue that matters is the list of live nodes; each operation is
  described by what it does to that list.
-/
import Mathlib.Logic.Function.Basic
import Mathlib.Data.List.Basic

set_option autoImplicit false

namespace HosBoot.Foundation.LinkedQueue

/-- What a node of a queue is. -/
inductive Status
  | live
  | indirection
  | tombstone
deriving DecidableEq

/-- A node of a queue. -/
structure Node (α : Type) where
  status : Status
  link : Option Nat
  item : α

/-- The two ends of a queue. -/
structure Ends where
  head : Option Nat
  tail : Option Nat

variable {α : Type}

/-! ## Operations -/

/-- A new node at the tail; `none` when a queue that has a head has no tail. -/
def append (node : Nat → Node α) (ends : Ends) (q : Nat) (item : α) :
    Option ((Nat → Node α) × Ends) :=
  let node := Function.update node q ⟨.live, none, item⟩
  match ends.head, ends.tail with
  | none, _ => some (node, ⟨some q, some q⟩)
  | some first, some last =>
    some (Function.update node last { node last with link := some q }, ⟨some first, some q⟩)
  | some _, none => none

/-- The first live node, looking at `k` nodes at most. -/
def firstLive (node : Nat → Node α) : Nat → Option Nat → Option (Option Nat)
  | _, none => some none
  | 0, some _ => none
  | k + 1, some q => if (node q).status = .live then some (some q) else firstLive node k (node q).link

/-- The queue behind a node. -/
def behind (node : Nat → Node α) (ends : Ends) (q : Nat) : Ends :=
  match (node q).link with
  | none => ⟨none, none⟩
  | some next => ⟨some next, ends.tail⟩

/-- A node changes its status. -/
def mark (node : Nat → Node α) (q : Nat) (status : Status) : Nat → Node α :=
  Function.update node q { node q with status := status }

/-- A node somewhere in the queue is deleted. -/
def delete (node : Nat → Node α) (ends : Ends) (q : Nat) : (Nat → Node α) × Ends :=
  if ends.head = some q then
    (mark node q .indirection,
      ⟨(node q).link, if ends.tail = some q then none else ends.tail⟩)
  else if ends.tail = some q then (mark node q .tombstone, ends)
  else (mark node q .indirection, ends)

/-- The pointer behind at most `k` indirections. -/
def resolve (node : Nat → Node α) : Nat → Option Nat → Option Nat
  | 0, p => p
  | _ + 1, none => none
  | k + 1, some q => if (node q).status = .indirection then resolve node k (node q).link else some q

/-- A collector shorts out indirections. -/
def collect (node : Nat → Node α) (k : Nat) : Nat → Node α :=
  fun q => { node q with link := resolve node k (node q).link }

/-- The ends after a collection. -/
def collectEnds (node : Nat → Node α) (k : Nat) (ends : Ends) : Ends :=
  ⟨resolve node k ends.head, resolve node k ends.tail⟩

/-! ## Walks -/

/-- The nodes from a pointer on. -/
inductive Walk (node : Nat → Node α) : Option Nat → List Nat → Prop
  | nil : Walk node none []
  | cons {q : Nat} {rest : List Nat} : Walk node (node q).link rest → Walk node (some q) (q :: rest)

variable {node node' : Nat → Node α} {ends : Ends} {p : Option Nat} {q : Nat}
  {chain front rest : List Nat}

theorem Walk.congr (h : Walk node p chain) (hsame : ∀ x ∈ chain, (node' x).link = (node x).link) :
    Walk node' p chain := by
  induction h with
  | nil => exact .nil
  | @cons q rest _ ih =>
    refine .cons ?_
    rw [hsame q List.mem_cons_self]
    exact ih fun x hx => hsame x (List.mem_cons_of_mem q hx)

theorem Walk.head_eq (h : Walk node p chain) : p = chain.head? := by
  cases h with
  | nil => rfl
  | cons _ => rfl

/-- The walk behind one of its nodes. -/
theorem Walk.behind (h : Walk node p (front ++ q :: rest)) : Walk node (node q).link rest := by
  induction front generalizing p with
  | nil =>
    cases h with
    | cons hrest => exact hrest
  | cons x front ih =>
    cases h with
    | cons hrest => exact ih hrest

/-- The last node of a walk is linked to a new one. -/
theorem Walk.snoc {last : Nat} (h : Walk node p (front ++ [last]))
    (hsame : ∀ x ∈ front, (node' x).link = (node x).link) (hlast : (node' last).link = some q)
    (hq : (node' q).link = none) : Walk node' p (front ++ [last] ++ [q]) := by
  induction front generalizing p with
  | nil =>
    cases h with
    | cons _ =>
      refine .cons ?_
      rw [hlast]
      exact .cons (by rw [hq]; exact .nil)
  | cons x front ih =>
    cases h with
    | cons hrest =>
      refine .cons ?_
      rw [hsame x List.mem_cons_self]
      exact ih hrest fun y hy => hsame y (List.mem_cons_of_mem x hy)

/-! ## Queues -/

/-- The live nodes. -/
def live (node : Nat → Node α) (chain : List Nat) : List Nat :=
  chain.filter fun q => (node q).status = .live

/-- A well-formed queue over the nodes of a chain. -/
structure IsQueue (node : Nat → Node α) (ends : Ends) (chain : List Nat) : Prop where
  walk : Walk node ends.head chain
  tail : ends.tail = chain.getLast?
  sorted : chain.Pairwise (· < ·)
  last : ∀ q, chain.getLast? = some q → (node q).status ≠ .indirection

theorem mem_live : q ∈ live node chain ↔ q ∈ chain ∧ (node q).status = .live := by
  rw [live, List.mem_filter, decide_eq_true_iff]

theorem live_congr (hsame : ∀ x ∈ chain, (node' x).status = (node x).status) :
    live node' chain = live node chain := by
  refine List.filter_congr fun x hx => ?_
  rw [hsame x hx]

theorem IsQueue.empty : IsQueue node ⟨none, none⟩ [] :=
  ⟨.nil, rfl, .nil, fun _ h => (by cases h)⟩

theorem IsQueue.nodup (h : IsQueue node ends chain) : chain.Nodup :=
  h.sorted.imp Nat.ne_of_lt

/-- Changes to other nodes do not matter. -/
theorem IsQueue.congr (h : IsQueue node ends chain) (hsame : ∀ x ∈ chain, node' x = node x) :
    IsQueue node' ends chain :=
  ⟨h.walk.congr fun x hx => by rw [hsame x hx], h.tail, h.sorted, fun q hq => by
    rw [hsame q (List.mem_of_getLast? hq)]
    exact h.last q hq⟩

/-! ### Appending -/

/-- The nodes once a new one is linked behind `last`. -/
def linkBehind (node : Nat → Node α) (last q : Nat) (item : α) : Nat → Node α :=
  let added := Function.update node q ⟨.live, none, item⟩
  Function.update added last { added last with link := some q }

theorem linkBehind_node (node : Nat → Node α) (item : α) {last : Nat} (hne : last ≠ q) :
    linkBehind node last q item q = ⟨.live, none, item⟩ ∧
      linkBehind node last q item last = { node last with link := some q } ∧
      ∀ x, x ≠ q → x ≠ last → linkBehind node last q item x = node x := by
  refine ⟨?_, ?_, fun x hxq hxl => ?_⟩
  · rw [linkBehind, Function.update_of_ne (Ne.symm hne), Function.update_self]
  · rw [linkBehind, Function.update_self, Function.update_of_ne hne]
  · rw [linkBehind, Function.update_of_ne hxl, Function.update_of_ne hxq]

/-- A fresh node becomes the last live one. -/
theorem IsQueue.append (h : IsQueue node ends chain) (hfresh : ∀ x ∈ chain, x < q) (item : α) :
    ∃ node' ends', append node ends q item = some (node', ends') ∧
      IsQueue node' ends' (chain ++ [q]) ∧ live node' (chain ++ [q]) = live node chain ++ [q] ∧
      (node' q).item = item ∧ (node' q).status = .live ∧ (∀ x, x ≠ q → (node' x).item = (node x).item ∧
        (node' x).status = (node x).status) ∧ ∀ x, x ≠ q → x ∉ chain → node' x = node x := by
  have hne : ∀ x ∈ chain, x ≠ q := fun x hx => Nat.ne_of_lt (hfresh x hx)
  rcases List.eq_nil_or_concat chain with rfl | ⟨front, last, rfl⟩
  · have hhead : ends.head = none := h.walk.head_eq
    refine ⟨Function.update node q ⟨.live, none, item⟩, ⟨some q, some q⟩, ?_, ?_, ?_, ?_, ?_,
      ?_, ?_⟩
    · rw [LinkedQueue.append, hhead]
    · refine ⟨.cons ?_, rfl, List.pairwise_singleton _ _, fun x hx => ?_⟩
      · rw [Function.update_self]
        exact .nil
      · rw [← Option.some.inj hx, List.getLast_singleton, Function.update_self]
        exact fun hstatus => (by cases hstatus)
    · simp [live]
    · rw [Function.update_self]
    · rw [Function.update_self]
    · intro x hx
      rw [Function.update_of_ne hx]
      exact ⟨rfl, rfl⟩
    · intro x hx _
      rw [Function.update_of_ne hx]
  · rw [List.concat_eq_append] at *
    have hlast : ends.tail = some last := by
      rw [h.tail, List.getLast?_append]
      rfl
    obtain ⟨first, hfirst⟩ : ∃ first, ends.head = some first := by
      rw [h.walk.head_eq]
      cases front with
      | nil => exact ⟨last, rfl⟩
      | cons x _ => exact ⟨x, rfl⟩
    have hlastMem : last ∈ front ++ [last] := by simp
    have hlastNe : last ≠ q := hne last hlastMem
    have hnotFront : ∀ x ∈ front, x ≠ last := by
      intro x hx
      exact Nat.ne_of_lt ((List.pairwise_append.mp h.sorted).2.2 x hx last List.mem_cons_self)
    obtain ⟨linked, hlinked⟩ : ∃ linked, linked = linkBehind node last q item := ⟨_, rfl⟩
    obtain ⟨hself, hlastNode, hother⟩ := linkBehind_node node item hlastNe
    rw [← hlinked] at hself hlastNode hother
    have hstatus : ∀ x, x ≠ q → (linked x).item = (node x).item ∧
        (linked x).status = (node x).status := by
      intro x hx
      by_cases hxl : x = last
      · rw [hxl, hlastNode]
        exact ⟨rfl, rfl⟩
      · rw [hother x hx hxl]
        exact ⟨rfl, rfl⟩
    refine ⟨linked, ⟨some first, some q⟩, ?_, ⟨?_, ?_, ?_, fun x hx => ?_⟩, ?_, ?_, ?_, hstatus,
      fun x hxq hx => hother x hxq fun hxl => hx (hxl ▸ hlastMem)⟩
    · rw [LinkedQueue.append, hfirst, hlast, hlinked]
      rfl
    · rw [← hfirst]
      refine h.walk.snoc (fun x hx => ?_) ?_ ?_
      · rw [hother x (hne x (List.mem_append_left _ hx)) (hnotFront x hx)]
      · rw [hlastNode]
      · rw [hself]
    · rw [List.getLast?_append]
      rfl
    · refine List.pairwise_append.mpr ⟨h.sorted, List.pairwise_singleton _ _, fun x hx y hy => ?_⟩
      rw [List.mem_singleton.mp hy]
      exact hfresh x hx
    · rw [List.getLast?_concat] at hx
      rw [← Option.some.inj hx, hself]
      exact fun hstatus => (by cases hstatus)
    · have hkept : live linked (front ++ [last]) = live node (front ++ [last]) :=
        live_congr fun x hx => (hstatus x (hne x hx)).2
      have hnew : live linked [q] = [q] := by simp [live, hself]
      rw [live, List.filter_append]
      exact congrArg₂ _ hkept hnew
    · rw [hself]
    · rw [hself]

/-! ### Taking the first -/

/-- The search ends: at the first live node, or at the end when there is none. -/
theorem Walk.firstLive (h : Walk node p chain) {k : Nat} (hk : chain.length ≤ k) :
    (live node chain = [] ∧ firstLive node k p = some none) ∨
      ∃ front q rest, chain = front ++ q :: rest ∧ live node front = [] ∧
        (node q).status = .live ∧ firstLive node k p = some (some q) := by
  induction h generalizing k with
  | nil =>
    left
    cases k <;> exact ⟨rfl, rfl⟩
  | @cons q rest _ ih =>
    cases k with
    | zero => cases hk
    | succ k =>
      by_cases hlive : (node q).status = .live
      · refine .inr ⟨[], q, rest, rfl, rfl, hlive, ?_⟩
        rw [LinkedQueue.firstLive, if_pos hlive]
      · rw [LinkedQueue.firstLive, if_neg hlive]
        rcases ih (Nat.le_of_succ_le_succ hk) with ⟨hnone, hfirst⟩ | ⟨front, x, tail, hsplit, hdead,
          hx, hfirst⟩
        · left
          refine ⟨?_, hfirst⟩
          rw [live, List.filter_cons_of_neg (by simpa using hlive)]
          exact hnone
        · refine .inr ⟨q :: front, x, tail, by rw [hsplit]; rfl, ?_, hx, hfirst⟩
          rw [live, List.filter_cons_of_neg (by simpa using hlive)]
          exact hdead

theorem IsQueue.sorted_behind (h : IsQueue node ends (front ++ q :: rest)) :
    rest.Pairwise (· < ·) ∧ ∀ x ∈ rest, q < x := by
  obtain ⟨hq, hrest⟩ := List.pairwise_cons.mp (List.pairwise_append.mp h.sorted).2.1
  exact ⟨hrest, hq⟩

theorem getLast?_behind {next : Nat} {tail : List Nat} (hrest : rest = next :: tail) :
    (front ++ q :: rest).getLast? = rest.getLast? := by
  rw [hrest, List.append_cons, List.getLast?_append_of_ne_nil _ (List.cons_ne_nil _ _)]

/-- The queue behind one of its nodes. -/
theorem IsQueue.behind (h : IsQueue node ends (front ++ q :: rest)) :
    IsQueue node (behind node ends q) rest := by
  have hwalk := h.walk.behind
  have hhead := hwalk.head_eq
  cases rest with
  | nil =>
    rw [LinkedQueue.behind, hhead]
    exact .empty
  | cons next tail =>
    have hends : LinkedQueue.behind node ends q = ⟨some next, ends.tail⟩ := by
      rw [LinkedQueue.behind, hhead]
      rfl
    have hlast : (front ++ q :: next :: tail).getLast? = (next :: tail).getLast? :=
      getLast?_behind rfl
    rw [hends]
    refine ⟨?_, h.tail.trans hlast, h.sorted_behind.1, fun x hx => h.last x (hlast.trans hx)⟩
    rw [hhead] at hwalk
    exact hwalk

/-! ### Deleting -/

theorem mark_other {x : Nat} (status : Status) (hne : x ≠ q) :
    mark node q status x = node x :=
  Function.update_of_ne hne _ _

theorem mark_self (node : Nat → Node α) (q : Nat) (status : Status) :
    mark node q status q = { node q with status := status } :=
  Function.update_self _ _ _

theorem mark_link (node : Nat → Node α) (q x : Nat) (status : Status) :
    (mark node q status x).link = (node x).link ∧ (mark node q status x).item = (node x).item := by
  by_cases hx : x = q
  · rw [hx, mark_self]
    exact ⟨rfl, rfl⟩
  · rw [mark_other status hx]
    exact ⟨rfl, rfl⟩

/-- A marked node is no longer live. -/
theorem live_mark {status : Status} (hstatus : status ≠ .live) (hnodup : chain.Nodup) :
    live (mark node q status) chain = (live node chain).erase q := by
  rw [live, live, List.Nodup.erase_eq_filter (hnodup.filter _), List.filter_filter]
  refine List.filter_congr fun x _ => ?_
  by_cases hx : x = q
  · simp [hx, mark_self, hstatus]
  · simp [mark_other status hx, hx]

/-- A deleted node is off the list of live nodes; its chain may lose its first node. -/
theorem IsQueue.delete (h : IsQueue node ends chain) (hq : q ∈ chain) :
    ∃ chain', IsQueue (delete node ends q).1 (delete node ends q).2 chain' ∧
      (∀ x ∈ chain', x ∈ chain) ∧
      live (delete node ends q).1 chain' = (live node chain).erase q := by
  have hnodup := h.nodup
  by_cases hhead : ends.head = some q
  · -- the first node leaves the chain
    obtain ⟨rest, rfl⟩ : ∃ rest, chain = q :: rest := by
      have hfirst := h.walk.head_eq
      rw [hhead] at hfirst
      cases chain with
      | nil => cases hfirst
      | cons x rest => exact ⟨rest, by rw [Option.some.inj hfirst]⟩
    have hqrest : q ∉ rest := (List.nodup_cons.mp hnodup).1
    have hsame : ∀ x ∈ rest, mark node q .indirection x = node x :=
      fun x hx => mark_other _ fun heq => hqrest (heq ▸ hx)
    have hfirst : IsQueue node ends ([] ++ q :: rest) := h
    have hbehind := hfirst.behind.congr hsame
    have hends : (⟨(node q).link, if ends.tail = some q then none else ends.tail⟩ : Ends) =
        LinkedQueue.behind node ends q := by
      have hlink := hfirst.walk.behind.head_eq
      rw [LinkedQueue.behind, hlink]
      cases rest with
      | nil =>
        rw [h.tail]
        simp
      | cons next tail =>
        have htail : ends.tail ≠ some q := by
          rw [h.tail, List.getLast?_cons_cons]
          exact fun hlast => hqrest (List.mem_of_getLast? hlast)
        rw [if_neg htail]
        rfl
    refine ⟨rest, ?_, fun x hx => List.mem_cons_of_mem q hx, ?_⟩
    · rw [LinkedQueue.delete, if_pos hhead, hends]
      exact hbehind
    · have hmarked : live (mark node q .indirection) (q :: rest) = (live node (q :: rest)).erase q :=
        live_mark (fun hs => (by cases hs)) hnodup
      rw [LinkedQueue.delete, if_pos hhead, ← hmarked]
      exact (List.filter_cons_of_neg (by simp [mark_self])).symm
  · have hlinks : ∀ status, ∀ x ∈ chain, (mark node q status x).link = (node x).link :=
      fun status x _ => (mark_link node q x status).1
    rw [LinkedQueue.delete, if_neg hhead]
    by_cases htail : ends.tail = some q
    · rw [if_pos htail]
      refine ⟨chain, ⟨h.walk.congr (hlinks _), h.tail, h.sorted, fun x hx => ?_⟩, fun x hx => hx,
        live_mark (fun hs => (by cases hs)) hnodup⟩
      rw [← h.tail, htail] at hx
      show (mark node q .tombstone x).status ≠ .indirection
      rw [← Option.some.inj hx, mark_self]
      exact fun hs => (by cases hs)
    · rw [if_neg htail]
      refine ⟨chain, ⟨h.walk.congr (hlinks _), h.tail, h.sorted, fun x hx => ?_⟩, fun x hx => hx,
        live_mark (fun hs => (by cases hs)) hnodup⟩
      have hne : x ≠ q := fun heq => htail (by rw [h.tail, hx, heq])
      show (mark node q .indirection x).status ≠ .indirection
      rw [mark_other _ hne]
      exact h.last x hx

/-- What a deletion does to single nodes. -/
theorem delete_node (node : Nat → Node α) (ends : Ends) (q x : Nat) :
    ((delete node ends q).1 x).item = (node x).item ∧
      (x ≠ q → (delete node ends q).1 x = node x) ∧ ((delete node ends q).1 q).status ≠ .live := by
  have hmark : ∀ status, status ≠ .live → (mark node q status x).item = (node x).item ∧
      (x ≠ q → mark node q status x = node x) ∧ (mark node q status q).status ≠ .live := by
    intro status hstatus
    refine ⟨(mark_link node q x status).2, mark_other status, ?_⟩
    rw [mark_self]
    exact hstatus
  rw [LinkedQueue.delete]
  split
  · exact hmark _ fun hs => (by cases hs)
  · split
    · exact hmark _ fun hs => (by cases hs)
    · exact hmark _ fun hs => (by cases hs)

/-! ### Collecting -/

/-- The nodes that are left of a chain. -/
def kept (node : Nat → Node α) (chain : List Nat) : List Nat :=
  chain.filter fun q => (node q).status ≠ .indirection

theorem Walk.resolve_head (h : Walk node p chain) {k : Nat} (hk : chain.length ≤ k) :
    resolve node k p = (kept node chain).head? := by
  induction h generalizing k with
  | nil => cases k <;> rfl
  | @cons q rest _ ih =>
    cases k with
    | zero => cases hk
    | succ k =>
      rw [LinkedQueue.resolve]
      by_cases hind : (node q).status = .indirection
      · rw [if_pos hind, ih (Nat.le_of_succ_le_succ hk), kept, kept,
          List.filter_cons_of_neg (by simp [hind])]
      · rw [if_neg hind, kept, List.filter_cons_of_pos (by simp [hind])]
        rfl

/-- The walk that a collection leaves. -/
theorem Walk.collect (h : Walk node p chain) {k : Nat} (hk : chain.length ≤ k) :
    Walk (collect node k) (resolve node k p) (kept node chain) := by
  induction h with
  | nil =>
    rw [Walk.nil.resolve_head hk]
    exact .nil
  | @cons q rest hrest ih =>
    have hwalk := ih (Nat.le_of_succ_le hk)
    rw [(Walk.cons hrest).resolve_head hk]
    by_cases hind : (node q).status = .indirection
    · rw [kept, List.filter_cons_of_neg (by simp [hind])]
      rw [hrest.resolve_head (Nat.le_of_succ_le hk)] at hwalk
      exact hwalk
    · rw [kept, List.filter_cons_of_pos (by simp [hind])]
      exact .cons hwalk

/-- A collection keeps the queue, and its live nodes. -/
theorem IsQueue.collect (h : IsQueue node ends chain) {k : Nat} (hk : chain.length ≤ k) :
    IsQueue (collect node k) (collectEnds node k ends) (kept node chain) ∧
      live (LinkedQueue.collect node k) (kept node chain) = live node chain := by
  have hlast : (kept node chain).getLast? = chain.getLast? := by
    rcases List.eq_nil_or_concat chain with rfl | ⟨front, last, rfl⟩
    · rfl
    · have hne := h.last last (by rw [List.concat_eq_append, List.getLast?_concat])
      rw [List.concat_eq_append, kept, List.filter_append,
        List.filter_cons_of_pos (by simpa using hne), List.filter_nil, List.getLast?_concat,
        List.getLast?_concat]
  have htail : resolve node k ends.tail = ends.tail := by
    rw [h.tail]
    cases hget : chain.getLast? with
    | none => cases k <;> rfl
    | some last =>
      cases k with
      | zero => rfl
      | succ k => rw [LinkedQueue.resolve, if_neg (h.last last hget)]
  refine ⟨⟨h.walk.collect hk, ?_, h.sorted.filter _, fun x hx => ?_⟩, ?_⟩
  · rw [collectEnds, htail, h.tail, hlast]
  · exact h.last x (hlast ▸ hx)
  · rw [live, live, kept, List.filter_filter]
    refine List.filter_congr fun x _ => ?_
    cases hstatus : (node x).status <;> simp [LinkedQueue.collect, hstatus]

end HosBoot.Foundation.LinkedQueue
