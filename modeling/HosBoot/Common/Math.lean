/-
  Common/Math.lean --- `ipow` of `math.c`.

  Square and multiply over `int`.  The products wrap as the machine's do; after at
  most 32 turns `e` is zero, unless it was negative, and then the loop never ends.
  Each turn squares the base, the last one for nothing: `ipow_powersExactly_iff` says
  when this square still fits.
-/
import Mathlib.Data.Nat.Size
import Mathlib.Tactic.Ring
import HosBoot.Foundation.Word

set_option autoImplicit false

namespace HosBoot.Common

open HosBoot.Foundation

/-- The loop of `ipow`. -/
def ipowLoop : Nat → Int32 → Int32 → Int32 → Option Int32
  | 0, _, _, _ => none
  | fuel + 1, a, base, e =>
      if e ≠ 0 then
        let a := if e &&& 1 ≠ 0 then a * base else a
        ipowLoop fuel a (base * base) (e >>> 1)
      else
        some a

/-- `ipow`. -/
def ipow (base e : Int32) : Option Int32 := ipowLoop 33 1 base e

/-- `e >>= 1` halves. -/
theorem shiftRight_one_toInt (e : Int32) : (e >>> 1).toInt = e.toInt / 2 := by
  have h : (e >>> 1).toBitVec = e.toBitVec.sshiftRight 1 := rfl
  rw [← Int32.toInt_toBitVec, h, BitVec.toInt_sshiftRight, Int.shiftRight_eq_div_pow]
  rfl

/-- `e & 1` is the parity. -/
theorem and_one_ne_zero (e : Int32) : e &&& 1 ≠ 0 ↔ e.toInt % 2 = 1 := by
  have hbit : (e &&& 1).toBitVec.toNat = e.toBitVec.toNat % 2 := by
    have h : (e &&& 1).toBitVec = e.toBitVec &&& 1#32 := rfl
    rw [h, BitVec.toNat_and]
    exact Nat.and_one_is_mod _
  have hzero : e &&& 1 = 0 ↔ (e &&& 1).toBitVec.toNat = 0 := by
    rw [← Int32.toBitVec_inj, ← BitVec.toNat_inj]
    rfl
  have hcond := BitVec.toInt_eq_toNat_cond e.toBitVec
  rw [Int32.toInt_toBitVec] at hcond
  rw [ne_eq, hzero, hbit]
  split at hcond <;> omega

/-- Equal remainders have equal balanced remainders. -/
theorem bmod_eq_of_modEq {x y : Int} {n : Nat} (h : x ≡ y [ZMOD n]) :
    Int.bmod x n = Int.bmod y n := by
  rw [← Int.emod_bmod, ← Int.emod_bmod y]
  exact congrArg (Int.bmod · n) h

/-- A balanced remainder is congruent to the number. -/
theorem bmod_modEq (x : Int) (n : Nat) : Int.bmod x n ≡ x [ZMOD n] := Int.bmod_emod

/-- With `e = 0` the loop ends in `a`. -/
theorem ipowLoop_zero (fuel : Nat) (a base : Int32) :
    ipowLoop (fuel + 1) a base 0 = some a ∧
      a.toInt = Int.bmod (a.toInt * base.toInt ^ (0 : Int32).toInt.toNat) (2 ^ 32) := by
  have hexp : (0 : Int32).toInt.toNat = 0 := rfl
  rw [hexp, pow_zero, mul_one]
  exact ⟨rfl, (Int.bmod_eq_of_le a.le_toInt a.toInt_lt).symm⟩

/-- The loop keeps `a * base ^ e`, modulo `2 ^ 32`. -/
theorem ipowLoop_spec : ∀ (fuel : Nat) (a base : Int32) {e : Int32}, 0 ≤ e.toInt →
    e.toInt < 2 ^ fuel →
    ∃ r, ipowLoop (fuel + 1) a base e = some r ∧
      r.toInt = Int.bmod (a.toInt * base.toInt ^ e.toInt.toNat) (2 ^ 32) := by
  intro fuel
  induction fuel with
  | zero =>
    intro a base e h hlt
    have hzero : e = 0 := Int32.toInt_inj.mp (by change e.toInt = 0; omega)
    subst hzero
    exact ⟨a, ipowLoop_zero 0 a base⟩
  | succ fuel ih =>
    intro a base e h hlt
    by_cases hzero : e = 0
    · subst hzero
      exact ⟨a, ipowLoop_zero (fuel + 1) a base⟩
    · rw [ipowLoop, if_pos hzero]
      have hhalf := shiftRight_one_toInt e
      rw [Int.pow_succ] at hlt
      obtain ⟨r, hr, hval⟩ := ih (if e &&& 1 ≠ 0 then a * base else a) (base * base)
        (e := e >>> 1) (by omega) (by omega)
      refine ⟨r, hr, hval.trans (bmod_eq_of_modEq ?_)⟩
      have hsquare : (base * base).toInt ≡ base.toInt * base.toInt [ZMOD (2 ^ 32 : Nat)] := by
        rw [Int32.toInt_mul]
        exact bmod_modEq _ _
      have hpow := hsquare.pow (e >>> 1).toInt.toNat
      by_cases hodd : e &&& 1 ≠ 0
      · have hbit := (and_one_ne_zero e).mp hodd
        have he : e.toInt.toNat = 2 * (e >>> 1).toInt.toNat + 1 := by omega
        have hstep : (a * base).toInt ≡ a.toInt * base.toInt [ZMOD (2 ^ 32 : Nat)] := by
          rw [Int32.toInt_mul]
          exact bmod_modEq _ _
        have hring : a.toInt * base.toInt ^ (2 * (e >>> 1).toInt.toNat + 1) =
            a.toInt * base.toInt * (base.toInt * base.toInt) ^ (e >>> 1).toInt.toNat := by
          ring
        rw [if_pos hodd, he, hring]
        exact hstep.mul hpow
      · have hbit : ¬ e.toInt % 2 = 1 := fun hbit => hodd ((and_one_ne_zero e).mpr hbit)
        have he : e.toInt.toNat = 2 * (e >>> 1).toInt.toNat := by omega
        have hring : a.toInt * base.toInt ^ (2 * (e >>> 1).toInt.toNat) =
            a.toInt * (base.toInt * base.toInt) ^ (e >>> 1).toInt.toNat := by
          ring
        rw [if_neg hodd, he, hring]
        exact (Int.ModEq.refl a.toInt).mul hpow

/-- `ipow` is the power, modulo `2 ^ 32`. -/
theorem ipow_eq (base : Int32) {e : Int32} (h : 0 ≤ e.toInt) :
    ∃ r, ipow base e = some r ∧ r.toInt = Int.bmod (base.toInt ^ e.toInt.toNat) (2 ^ 32) := by
  obtain ⟨r, hr, hval⟩ := ipowLoop_spec 32 1 base h (lt_trans e.toInt_lt (by decide))
  have hone : (1 : Int32).toInt = 1 := rfl
  rw [hone, Int.one_mul] at hval
  exact ⟨r, hr, hval⟩

/-! ## The products -/

/-- The operands of the products that the loop of `ipow` forms, in order. -/
def ipowProducts : Nat → Int32 → Int32 → Int32 → List (Int32 × Int32)
  | 0, _, _, _ => []
  | fuel + 1, a, base, e =>
      if e ≠ 0 then
        (if e &&& 1 ≠ 0 then [(a, base)] else []) ++
          (base, base) ::
            ipowProducts fuel (if e &&& 1 ≠ 0 then a * base else a) (base * base) (e >>> 1)
      else
        []

/-- No product of the loop overflows. -/
def NoOverflow (products : List (Int32 × Int32)) : Prop :=
  ∀ p ∈ products, FitsInt (p.1.toInt * p.2.toInt)

theorem noOverflow_append {ps qs : List (Int32 × Int32)} :
    NoOverflow (ps ++ qs) ↔ NoOverflow ps ∧ NoOverflow qs := List.forall_mem_append

theorem noOverflow_cons {p : Int32 × Int32} {ps : List (Int32 × Int32)} :
    NoOverflow (p :: ps) ↔ FitsInt (p.1.toInt * p.2.toInt) ∧ NoOverflow ps := List.forall_mem_cons

/-- The loop with its multiplication left open. -/
def ipowLoopWith (mul : Int32 → Int32 → Option Int32) :
    Nat → Int32 → Int32 → Int32 → Option Int32
  | 0, _, _, _ => none
  | fuel + 1, a, base, e =>
      if e ≠ 0 then
        (if e &&& 1 ≠ 0 then mul a base else some a).bind fun a =>
          (mul base base).bind fun square => ipowLoopWith mul fuel a square (e >>> 1)
      else
        some a

/-- With the machine's products it is the loop of `ipow`. -/
theorem ipowLoopWith_wrapping (fuel : Nat) (a base e : Int32) :
    ipowLoopWith (fun x y => some (x * y)) fuel a base e = ipowLoop fuel a base e := by
  induction fuel generalizing a base e with
  | zero => rfl
  | succ fuel ih =>
    rw [ipowLoopWith, ipowLoop]
    split
    · split
      · exact ih (a * base) (base * base) (e >>> 1)
      · exact ih a (base * base) (e >>> 1)
    · rfl

/-- A product that stops the loop where it overflows. -/
def checkedMul (x y : Int32) : Option Int32 :=
  if FitsInt (x.toInt * y.toInt) then some (x * y) else none

/-- `ipowProducts` are the products of the loop: with checked products the loop gets through
exactly if none of them overflows, and then to the same end. -/
theorem ipowLoopWith_checked (fuel : Nat) (a base e r : Int32) :
    ipowLoopWith checkedMul fuel a base e = some r ↔
      ipowLoop fuel a base e = some r ∧ NoOverflow (ipowProducts fuel a base e) := by
  induction fuel generalizing a base e with
  | zero => exact ⟨fun h => (by cases h), fun h => (by cases h.1)⟩
  | succ fuel ih =>
    rw [ipowLoopWith, ipowLoop, ipowProducts]
    by_cases hzero : e = 0
    · rw [if_neg (not_not.mpr hzero), if_neg (not_not.mpr hzero), if_neg (not_not.mpr hzero)]
      exact ⟨fun h => ⟨h, fun p hp => by cases hp⟩, fun h => h.1⟩
    · rw [if_pos hzero, if_pos hzero, if_pos hzero]
      have hsquare : ∀ a', ((checkedMul base base).bind fun square =>
            ipowLoopWith checkedMul fuel a' square (e >>> 1)) = some r ↔
          FitsInt (base.toInt * base.toInt) ∧ ipowLoop fuel a' (base * base) (e >>> 1) = some r ∧
            NoOverflow (ipowProducts fuel a' (base * base) (e >>> 1)) := by
        intro a'
        rw [checkedMul]
        by_cases hfits : FitsInt (base.toInt * base.toInt)
        · rw [if_pos hfits, Option.bind_some, ih]
          exact ⟨fun h => ⟨hfits, h⟩, fun h => h.2⟩
        · rw [if_neg hfits]
          exact ⟨fun h => (by cases h), fun h => absurd h.1 hfits⟩
      by_cases hodd : e &&& 1 ≠ 0
      · simp only [if_pos hodd, List.singleton_append, noOverflow_cons]
        by_cases hfits : FitsInt (a.toInt * base.toInt)
        · rw [checkedMul, if_pos hfits, Option.bind_some, hsquare]
          exact ⟨fun h => ⟨h.2.1, hfits, h.1, h.2.2⟩, fun h => ⟨h.2.2.1, h.1, h.2.2.2⟩⟩
        · rw [checkedMul, if_neg hfits]
          exact ⟨fun h => (by cases h), fun h => absurd h.2.1 hfits⟩
      · simp only [if_neg hodd, List.nil_append, noOverflow_cons]
        rw [Option.bind_some, hsquare]
        exact ⟨fun h => ⟨h.2.1, h.1, h.2.2⟩, fun h => ⟨h.2.1, h.1, h.2.2⟩⟩

/-- `ipow` returns the power, and no product overflows on the way. -/
structure PowersExactly (base e : Int32) : Prop where
  returns : ∃ r, ipow base e = some r ∧ r.toInt = base.toInt ^ e.toInt.toNat
  noOverflow : NoOverflow (ipowProducts 33 1 base e)

/-- A number has one binary digit more than its half. -/
theorem size_of_ne_zero {n : Nat} (h : n ≠ 0) : Nat.size n = Nat.size (n / 2) + 1 := by
  have hbits := Nat.bit_bodd_div2 n
  have hsize := Nat.size_bit (b := n.bodd) (n := n.div2) (by rwa [hbits])
  rwa [hbits, Nat.div2_val] at hsize

/-- What a turn relies on: the powers up to the exponent fit, and so do their products with
the accumulator. -/
structure PowersFit (a base e : Int32) : Prop where
  powers : ∀ k ≤ e.toInt.toNat, FitsInt (base.toInt ^ k)
  products : ∀ k ≤ e.toInt.toNat, FitsInt (a.toInt * base.toInt ^ k)

section Turn

variable {a base e : Int32}

theorem PowersFit.mul (h : PowersFit a base e) (hpos : 0 < e.toInt) :
    FitsInt (a.toInt * base.toInt) := by
  have hone := h.products 1 (by omega)
  rwa [pow_one] at hone

/-- A turn whose square fits hands on what it relies on. -/
theorem PowersFit.next (h : PowersFit a base e) (hpos : 0 < e.toInt)
    (hsquare : FitsInt (base.toInt * base.toInt)) :
    PowersFit (if e &&& 1 ≠ 0 then a * base else a) (base * base) (e >>> 1) := by
  have hhalf := shiftRight_one_toInt e
  have hpow : ∀ k, (base * base).toInt ^ k = base.toInt ^ (2 * k) := by
    intro k
    rw [hsquare.toInt_mul, pow_mul, pow_two]
  constructor
  · intro k hk
    rw [hpow]
    exact h.powers (2 * k) (by omega)
  · intro k hk
    rw [hpow]
    by_cases hodd : e &&& 1 ≠ 0
    · have hbit := (and_one_ne_zero e).mp hodd
      have hring : a.toInt * base.toInt * base.toInt ^ (2 * k) =
          a.toInt * base.toInt ^ (2 * k + 1) := by
        ring
      rw [if_pos hodd, (h.mul hpos).toInt_mul, hring]
      exact h.products (2 * k + 1) (by omega)
    · rw [if_neg hodd]
      exact h.products (2 * k) (by omega)

end Turn

/-- The only product that may overflow is the last square. -/
theorem ipowProducts_noOverflow : ∀ {fuel : Nat} {a base e : Int32}, 0 ≤ e.toInt →
    e.toInt < 2 ^ fuel → PowersFit a base e →
    (NoOverflow (ipowProducts (fuel + 1) a base e) ↔
      FitsInt (base.toInt ^ 2 ^ Nat.size e.toInt.toNat)) := by
  have hdone : ∀ (fuel : Nat) (a base : Int32), NoOverflow (ipowProducts (fuel + 1) a base 0) ↔
      FitsInt (base.toInt ^ 2 ^ Nat.size (0 : Int32).toInt.toNat) := by
    intro fuel a base
    have hexp : 2 ^ Nat.size (0 : Int32).toInt.toNat = 1 := rfl
    rw [hexp, pow_one]
    exact ⟨fun _ => fitsInt_toInt base, fun _ p hp => by cases hp⟩
  intro fuel
  induction fuel with
  | zero =>
    intro a base e h hlt _
    have hzero : e = 0 := Int32.toInt_inj.mp (by change e.toInt = 0; omega)
    rw [hzero]
    exact hdone 0 a base
  | succ fuel ih =>
    intro a base e h hlt hfit
    by_cases hzero : e = 0
    · rw [hzero]
      exact hdone (fuel + 1) a base
    · have hne : e.toInt ≠ 0 := fun h => hzero (Int32.toInt_inj.mp h)
      have hpos : 0 < e.toInt := by omega
      have hhalf := shiftRight_one_toInt e
      have hsize : Nat.size e.toInt.toNat = Nat.size (e >>> 1).toInt.toNat + 1 := by
        have hnat : (e >>> 1).toInt.toNat = e.toInt.toNat / 2 := by omega
        rw [hnat]
        exact size_of_ne_zero (by omega)
      have hpow : base.toInt ^ 2 ^ Nat.size e.toInt.toNat =
          (base.toInt * base.toInt) ^ 2 ^ Nat.size (e >>> 1).toInt.toNat := by
        rw [hsize, pow_succ', pow_mul, pow_two]
      have hfirst : NoOverflow (if e &&& 1 ≠ 0 then [(a, base)] else []) := by
        intro p hp
        by_cases hodd : e &&& 1 ≠ 0
        · rw [if_pos hodd] at hp
          obtain rfl := List.mem_singleton.mp hp
          exact hfit.mul hpos
        · rw [if_neg hodd] at hp
          cases hp
      rw [ipowProducts, if_pos hzero, noOverflow_append, noOverflow_cons, hpow]
      by_cases hsquare : FitsInt (base.toInt * base.toInt)
      · rw [Int.pow_succ] at hlt
        have hrest := ih (by omega) (by omega) (hfit.next hpos hsquare)
        rw [hsquare.toInt_mul] at hrest
        rw [hrest]
        exact ⟨fun h => h.2.2, fun h => ⟨hfirst, hsquare, h⟩⟩
      · -- The square of a turn that is not the last one fits.
        have hlast : (e >>> 1).toInt.toNat = 0 := by
          by_contra hmore
          refine hsquare ?_
          rw [← pow_two]
          exact hfit.powers 2 (by omega)
        rw [hlast, Nat.size_zero, pow_zero, pow_one]
        exact ⟨fun h => absurd h.2.1 hsquare, fun h => absurd h hsquare⟩

/-- Where all powers up to the exponent fit, `ipow` returns the power; it does so without an
overflow exactly if one more square fits. -/
theorem ipow_powersExactly_iff {base e : Int32} (he : 0 ≤ e.toInt)
    (hfits : ∀ k ≤ e.toInt.toNat, FitsInt (base.toInt ^ k)) :
    PowersExactly base e ↔ FitsInt (base.toInt ^ 2 ^ Nat.size e.toInt.toNat) := by
  have hone : (1 : Int32).toInt = 1 := rfl
  have hfit : PowersFit 1 base e := by
    refine ⟨hfits, fun k hk => ?_⟩
    rw [hone, one_mul]
    exact hfits k hk
  have hlt : e.toInt < 2 ^ 32 := lt_trans e.toInt_lt (by decide)
  have hproducts : NoOverflow (ipowProducts 33 1 base e) ↔ _ := ipowProducts_noOverflow he hlt hfit
  constructor
  · exact fun h => hproducts.mp h.noOverflow
  · intro hlast
    obtain ⟨r, hr, hval⟩ := ipow_eq base he
    rw [(hfits e.toInt.toNat (Nat.le_refl _)).bmod_eq] at hval
    exact ⟨⟨r, hr, hval⟩, hproducts.mpr hlast⟩

/-- Two to the tenth: the last square is two to the sixteenth. -/
theorem two_powersExactly : PowersExactly 2 10 :=
  (ipow_powersExactly_iff (by decide) (by decide)).mpr (by decide)

/-- Ten to the eighth, the first divider of a decimal number: the last square is ten to the
sixteenth. -/
theorem ten_overflows :
    (∀ k ≤ (8 : Int32).toInt.toNat, FitsInt ((10 : Int32).toInt ^ k)) ∧
      (100000000, 100000000) ∈ ipowProducts 33 1 10 8 ∧
      ¬ FitsInt ((100000000 : Int32).toInt * (100000000 : Int32).toInt) ∧
      ¬ PowersExactly 10 8 := by
  have hmem : (100000000, 100000000) ∈ ipowProducts 33 1 10 8 := by decide +kernel
  have hlarge : ¬ FitsInt ((100000000 : Int32).toInt * (100000000 : Int32).toInt) := by decide
  exact ⟨by decide, hmem, hlarge, fun h => hlarge (h.noOverflow _ hmem)⟩

end HosBoot.Common
