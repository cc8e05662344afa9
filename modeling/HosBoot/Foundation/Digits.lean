/-
  Foundation/Digits.lean --- positional numerals, most significant digit first.

  `digitsValue b ds` is the number that a list of digits denotes in base `b`.
  `longDivision b k n` divides by the descending powers `b ^ (k - 1)`, .., `1`: its
  value is `n` whatever `n` is, but its first entry is a digit only below `b ^ k`.
  `stripZeros` drops the leading zeros.
-/
import Mathlib.Data.List.TakeWhile
import Mathlib.Data.Nat.Digits.Defs

set_option autoImplicit false

namespace HosBoot.Foundation

variable {b b' k n d : Nat} {ds : List Nat}

/-! ## The value of a numeral -/

/-- The number denoted in base `b`. -/
def digitsValue (b : Nat) (ds : List Nat) : Nat := Nat.ofDigits b ds.reverse

theorem digitsValue_singleton (b d : Nat) : digitsValue b [d] = d := Nat.ofDigits_singleton

theorem digitsValue_cons (b d : Nat) (ds : List Nat) :
    digitsValue b (d :: ds) = digitsValue b ds + b ^ ds.length * d := Nat.ofDigits_reverse_cons ds d

theorem digitsValue_append (b : Nat) (ds ds' : List Nat) :
    digitsValue b (ds ++ ds') = digitsValue b ds' + b ^ ds'.length * digitsValue b ds := by
  unfold digitsValue
  rw [List.reverse_append, Nat.ofDigits_append, List.length_reverse]

theorem digitsValue_lt (hb : 1 < b) (h : ∀ d ∈ ds, d < b) : digitsValue b ds < b ^ ds.length := by
  have hlt := Nat.ofDigits_lt_base_pow_length (l := ds.reverse) hb
    fun d hd => h d (List.mem_reverse.mp hd)
  rwa [List.length_reverse] at hlt

/-- A numeral of two digits or more denotes more in a greater base. -/
theorem digitsValue_lt_digitsValue (hbase : b < b') (hd : d ≠ 0) (hds : ds ≠ []) :
    digitsValue b (d :: ds) < digitsValue b' (d :: ds) := by
  have hlen : ds.length ≠ 0 := fun h => hds (List.length_eq_zero_iff.mp h)
  have htail : digitsValue b ds ≤ digitsValue b' ds := Nat.ofDigits_monotone ds.reverse hbase.le
  have hpow : b ^ ds.length * d < b' ^ ds.length * d :=
    Nat.mul_lt_mul_of_pos_right (Nat.pow_lt_pow_left hbase hlen) (Nat.pos_of_ne_zero hd)
  rw [digitsValue_cons, digitsValue_cons]
  omega

/-! ## Long division -/

/-- The quotients by `b ^ (k - 1)`, .., `b`, `1`, each of what the one before leaves. -/
def longDivision (b : Nat) : Nat → Nat → List Nat
  | 0, _ => []
  | k + 1, n => n / b ^ k :: longDivision b k (n % b ^ k)

@[simp] theorem length_longDivision (b : Nat) : ∀ k n, (longDivision b k n).length = k := by
  intro k
  induction k with
  | zero => exact fun n => rfl
  | succ k ih => exact fun n => congrArg (· + 1) (ih (n % b ^ k))

theorem digitsValue_longDivision (b : Nat) : ∀ {k : Nat}, 0 < k → ∀ n,
    digitsValue b (longDivision b k n) = n := by
  intro k hk
  induction k with
  | zero => exact absurd hk (Nat.lt_irrefl 0)
  | succ k ih =>
    intro n
    rw [longDivision, digitsValue_cons, length_longDivision]
    rcases Nat.eq_zero_or_pos k with rfl | hpos
    · change 0 + b ^ 0 * (n / b ^ 0) = n
      rw [Nat.pow_zero, Nat.div_one, Nat.one_mul, Nat.zero_add]
    · rw [ih hpos]
      exact Nat.mod_add_div n (b ^ k)

theorem longDivision_zero (b : Nat) : ∀ k, longDivision b k 0 = List.replicate k 0 := by
  intro k
  induction k with
  | zero => rfl
  | succ k ih => rw [longDivision, Nat.zero_div, Nat.zero_mod, ih, List.replicate_succ]

/-- Below `b ^ k` all quotients are digits. -/
theorem longDivision_lt (hb : 0 < b) : ∀ {k n : Nat}, n < b ^ k →
    ∀ d ∈ longDivision b k n, d < b := by
  intro k
  induction k with
  | zero =>
    intro n _ d hd
    cases hd
  | succ k ih =>
    intro n h d hd
    have hpow : 0 < b ^ k := Nat.pow_pos hb
    rcases List.mem_cons.mp hd with rfl | htail
    · rw [Nat.pow_succ] at h
      exact (Nat.div_lt_iff_lt_mul hpow).mpr (Nat.mul_comm (b ^ k) b ▸ h)
    · exact ih (Nat.mod_lt n hpow) d htail

/-- All but the first are digits in any case. -/
theorem longDivision_tail_lt (hb : 0 < b) (k n : Nat) :
    ∀ d ∈ (longDivision b k n).tail, d < b := by
  cases k with
  | zero =>
    intro d hd
    cases hd
  | succ k => exact longDivision_lt hb (Nat.mod_lt n (Nat.pow_pos hb))

/-! ## Leading zeros -/

/-- Drop the leading zeros. -/
def stripZeros (ds : List Nat) : List Nat := ds.dropWhile (· == 0)

/-- What has been dropped are zeros. -/
theorem exists_stripZeros (ds : List Nat) : ∃ z, ds = List.replicate z 0 ++ stripZeros ds := by
  refine ⟨(ds.takeWhile (· == 0)).length, ?_⟩
  have hzeros : ds.takeWhile (· == 0) = List.replicate (ds.takeWhile (· == 0)).length 0 := by
    refine List.eq_replicate_iff.mpr ⟨rfl, fun d hd => ?_⟩
    simpa using List.mem_takeWhile_imp hd
  rw [← hzeros]
  exact (List.takeWhile_append_dropWhile).symm

theorem digitsValue_replicate_zero_append (b z : Nat) (ds : List Nat) :
    digitsValue b (List.replicate z 0 ++ ds) = digitsValue b ds := by
  unfold digitsValue
  rw [List.reverse_append, List.reverse_replicate]
  exact Nat.ofDigits_append_replicate_zero ds.reverse

theorem digitsValue_stripZeros (b : Nat) (ds : List Nat) :
    digitsValue b (stripZeros ds) = digitsValue b ds := by
  obtain ⟨z, hz⟩ := exists_stripZeros ds
  have h := digitsValue_replicate_zero_append b z (stripZeros ds)
  rwa [← hz, eq_comm] at h

theorem stripZeros_cons (hd : d ≠ 0) (ds : List Nat) : stripZeros (d :: ds) = d :: ds := by
  unfold stripZeros
  rw [List.dropWhile_cons, if_neg (by simpa using hd)]

/-- The first digit that is left is not zero. -/
theorem head_stripZeros (ds : List Nat) : (stripZeros ds).head? ≠ some 0 := by
  intro hhead
  have hnot := List.head?_dropWhile_not (· == 0) ds
  unfold stripZeros at hhead
  rw [hhead] at hnot
  simp at hnot

end HosBoot.Foundation
