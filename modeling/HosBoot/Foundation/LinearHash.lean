/-
  Foundation/LinearHash.lean --- addresses in a linearly growing hash table.

  The table has `max + split` buckets.  A hash value is reduced modulo `max`; the buckets
  below `split` have been split already, so a value that falls there is reduced modulo
  `2 * max` instead.  Growing by one bucket moves values only from bucket `split`, and
  only to the new bucket.
-/
import Mathlib.Algebra.BigOperators.Group.Finset.Basic
import Mathlib.Algebra.Order.Group.Multiset
import Mathlib.Tactic.Abel

set_option autoImplicit false

namespace HosBoot.Foundation

/-- The bucket of a hash value. -/
def address (max split h : Nat) : Nat :=
  if h % max < split then h % (2 * max) else h % max

/-- Reducing modulo twice a number. -/
theorem mod_two_mul (max h : Nat) :
    h % (2 * max) = h % max ∨ h % (2 * max) = max + h % max := by
  have hmod : h % (max * 2) = h % max + max * (h / max % 2) := Nat.mod_mul
  rw [Nat.mul_comm 2 max, hmod]
  rcases Nat.mod_two_eq_zero_or_one (h / max) with hbit | hbit
  · left
    rw [hbit, Nat.mul_zero, Nat.add_zero]
  · right
    rw [hbit, Nat.mul_one, Nat.add_comm]

theorem address_lt {max split : Nat} (hsplit : split < max) (h : Nat) :
    address max split h < max + split := by
  have hlt : h % max < max := Nat.mod_lt _ (by omega)
  have hcases := mod_two_mul max h
  unfold address
  split <;> omega

/-- Only the values that are `split` modulo `max` live in bucket `split`. -/
theorem address_eq_split {max split : Nat} (hsplit : split < max) (h : Nat) :
    address max split h = split ↔ h % max = split := by
  have hcases := mod_two_mul max h
  unfold address
  split <;> omega

/-- Growing by one bucket. -/
theorem address_succ {max split : Nat} (hsplit : split < max) (h : Nat) :
    address max (split + 1) h =
      if address max split h = split then h % (2 * max) else address max split h := by
  have hiff := address_eq_split hsplit h
  by_cases hhome : h % max = split
  · rw [if_pos (hiff.mpr hhome), address, if_pos (by omega)]
  · rw [if_neg (fun heq => hhome (hiff.mp heq)), address, address]
    split <;> split <;> omega

/-- A value moves from bucket `split` to the new bucket or stays. -/
theorem address_succ_cases {max split : Nat} (hsplit : split < max) (h : Nat) :
    (address max split h = split ∧
        (address max (split + 1) h = split ∨ address max (split + 1) h = max + split)) ∨
      (address max split h ≠ split ∧ address max (split + 1) h = address max split h) := by
  rw [address_succ hsplit]
  by_cases hhome : address max split h = split
  · left
    rw [if_pos hhome]
    have hmod := (address_eq_split hsplit h).mp hhome
    refine ⟨hhome, ?_⟩
    rcases mod_two_mul max h with heq | heq
    · left
      omega
    · right
      omega
  · right
    rw [if_neg hhome]
    exact ⟨hhome, rfl⟩

/-- When every bucket has been split the table starts over with twice the size. -/
theorem address_full {max : Nat} (hmax : 0 < max) (h : Nat) :
    address max max h = address (2 * max) 0 h := by
  rw [address, if_pos (Nat.mod_lt _ hmax), address, if_neg (Nat.not_lt_zero _)]

/-! ## The contents of the buckets -/

/-- Everything in the first `n` buckets. -/
def gather {α : Type} (chains : Nat → List α) (n : Nat) : Multiset α :=
  ∑ b ∈ Finset.range n, (chains b : Multiset α)

variable {α : Type}

theorem gather_succ (chains : Nat → List α) (n : Nat) :
    gather chains (n + 1) = gather chains n + (chains n : Multiset α) :=
  Finset.sum_range_succ _ _

theorem gather_add (chains : Nat → List α) (m n : Nat) :
    gather chains (m + n) = gather chains m + gather (fun b => chains (m + b)) n :=
  Finset.sum_range_add _ _ _

theorem mem_gather {chains : Nat → List α} {n : Nat} {x : α} :
    x ∈ gather chains n ↔ ∃ b, b < n ∧ x ∈ chains b := by
  simp [gather, Multiset.mem_sum]

theorem gather_congr {chains chains' : Nat → List α} {n : Nat}
    (h : ∀ b, b < n → chains b = chains' b) : gather chains n = gather chains' n :=
  Finset.sum_congr rfl fun b hb => by rw [h b (Finset.mem_range.mp hb)]

/-- One bucket gets a new chain. -/
theorem gather_update (chains : Nat → List α) {n b : Nat} (hb : b < n) (chain : List α) :
    gather (Function.update chains b chain) n + (chains b : Multiset α) =
      gather chains n + (chain : Multiset α) := by
  have hmem := Finset.mem_range.mpr hb
  have hnew := Finset.add_sum_erase _
    (fun k => ((Function.update chains b chain k : List α) : Multiset α)) hmem
  have hold := Finset.add_sum_erase _ (fun k => ((chains k : List α) : Multiset α)) hmem
  have hrest : ∑ k ∈ (Finset.range n).erase b,
      ((Function.update chains b chain k : List α) : Multiset α) =
        ∑ k ∈ (Finset.range n).erase b, ((chains k : List α) : Multiset α) := by
    refine Finset.sum_congr rfl fun k hk => ?_
    rw [Function.update_of_ne (Finset.ne_of_mem_erase hk)]
  simp only [Function.update_self] at hnew
  rw [gather, gather, ← hnew, ← hold, hrest]
  abel

/-- One bucket is split into itself and a new last bucket. -/
theorem gather_split (chains : Nat → List α) {n b : Nat} (hb : b < n) {old new : List α}
    (h : (chains b : Multiset α) = (old : Multiset α) + (new : Multiset α)) :
    gather (Function.update (Function.update chains b old) n new) (n + 1) = gather chains n := by
  have hbelow : gather (Function.update (Function.update chains b old) n new) n =
      gather (Function.update chains b old) n :=
    gather_congr fun c hc => Function.update_of_ne (Nat.ne_of_lt hc) _ _
  have hupdate := gather_update chains hb old
  rw [h] at hupdate
  rw [gather_succ, Function.update_self, hbelow]
  refine add_left_cancel (a := (old : Multiset α)) ?_
  rw [← add_comm (gather chains n), ← hupdate]
  abel

end HosBoot.Foundation
