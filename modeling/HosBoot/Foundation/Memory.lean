/-
  Foundation/Memory.lean --- flat byte memory with little-endian words.

  A memory is a byte at every natural address.  Words of `n` bytes are read and
  written least significant byte first.  The file proves the two facts every
  memory argument rests on, once and for every width:

      read after write, same place     loadLE_storeLE_same
      read after write, other place    loadLE_storeLE_of_disjoint

  together with the frame relation `SameOutside`, which says that two memories
  agree on every address a predicate does not cover.

  Nothing here knows about any program.
-/
import Mathlib.Data.Nat.ModEq
import Mathlib.Tactic.Ring

set_option autoImplicit false

namespace HosBoot.Foundation

/-- Memory: a byte at every address. -/
abbrev Mem : Type := Nat → UInt8

/-- The addresses of the half-open range of `len` bytes at `start`. -/
def InRange (start len a : Nat) : Prop := start ≤ a ∧ a < start + len

instance (start len a : Nat) : Decidable (InRange start len a) :=
  inferInstanceAs (Decidable (_ ∧ _))

theorem InRange.widen {start len start' len' a : Nat} (h : InRange start len a)
    (hlo : start' ≤ start) (hhi : start + len ≤ start' + len') :
    InRange start' len' a := by
  unfold InRange at *
  omega

namespace Mem

/-! ## Little-endian words -/

/-- The `n`-byte little-endian value stored at `a`. -/
def loadLE (m : Mem) : Nat → Nat → Nat
  | _, 0 => 0
  | a, n + 1 => (m a).toNat + 256 * loadLE m (a + 1) n

/-- Store the low `n` bytes of `v` at `a`, least significant byte first. -/
def storeLE (m : Mem) (a n v : Nat) : Mem := fun p =>
  if InRange a n p then UInt8.ofNat (v / 256 ^ (p - a)) else m p

/-- Store one byte. -/
def write (m : Mem) (a : Nat) (v : UInt8) : Mem := fun p => if p = a then v else m p

theorem loadLE_congr {m m' : Mem} : ∀ {n a : Nat},
    (∀ p, InRange a n p → m p = m' p) → loadLE m a n = loadLE m' a n := by
  intro n
  induction n with
  | zero => intro a _; rfl
  | succ n ih =>
    intro a h
    have hhead : m a = m' a := h a ⟨Nat.le_refl a, by omega⟩
    have htail : loadLE m (a + 1) n = loadLE m' (a + 1) n :=
      ih fun p hp => h p (hp.widen (by omega) (by omega))
    rw [loadLE, loadLE, hhead, htail]

theorem loadLE_lt (m : Mem) : ∀ (n a : Nat), loadLE m a n < 256 ^ n := by
  intro n
  induction n with
  | zero => intro a; simp [loadLE]
  | succ n ih =>
    intro a
    have hbyte : (m a).toNat < 256 := (m a).toNat_lt
    have hrest := ih (a + 1)
    rw [loadLE, Nat.pow_succ]
    omega

theorem loadLE_eq_zero {m : Mem} : ∀ {n a : Nat},
    (∀ p, InRange a n p → m p = 0) → loadLE m a n = 0 := by
  intro n
  induction n with
  | zero => intro a _; rfl
  | succ n ih =>
    intro a h
    have hhead : m a = 0 := h a ⟨Nat.le_refl a, by omega⟩
    have htail : loadLE m (a + 1) n = 0 :=
      ih fun p hp => h p (hp.widen (by omega) (by omega))
    rw [loadLE, hhead, htail]
    rfl

/-- A word is zero only if all its bytes are. -/
theorem eq_zero_of_loadLE_eq_zero {m : Mem} : ∀ {n a : Nat}, loadLE m a n = 0 →
    ∀ p, InRange a n p → m p = 0 := by
  intro n
  induction n with
  | zero =>
    intro a _ p hp
    exact absurd hp.2 (Nat.not_lt.mpr hp.1)
  | succ n ih =>
    intro a h p hp
    rw [loadLE] at h
    by_cases hhead : p = a
    · have hbyte : (m a).toNat = 0 := by omega
      rw [hhead]
      exact UInt8.toNat_inj.mp hbyte
    · exact ih (a := a + 1) (by omega) p (by unfold InRange at *; omega)

theorem storeLE_of_inRange {m : Mem} {a n v p : Nat} (h : InRange a n p) :
    storeLE m a n v p = UInt8.ofNat (v / 256 ^ (p - a)) := if_pos h

theorem storeLE_of_not_inRange {m : Mem} {a n v p : Nat} (h : ¬ InRange a n p) :
    storeLE m a n v p = m p := if_neg h

/-- Reading `n` bytes from the middle of a stored word gives the middle digits
of the stored value. -/
theorem loadLE_storeLE_mid (m : Mem) (a len v : Nat) : ∀ (n k : Nat), k + n ≤ len →
    loadLE (storeLE m a len v) (a + k) n = v / 256 ^ k % 256 ^ n := by
  intro n
  induction n with
  | zero => intro k _; simp [loadLE, Nat.mod_one]
  | succ n ih =>
    intro k hk
    have hbyte : storeLE m a len v (a + k) = UInt8.ofNat (v / 256 ^ k) := by
      rw [storeLE_of_inRange ⟨by omega, by omega⟩, Nat.add_sub_cancel_left]
    have hrest := ih (k + 1) (by omega)
    have hdiv : v / 256 ^ (k + 1) = v / 256 ^ k / 256 := by
      rw [Nat.pow_succ, Nat.div_div_eq_div_mul]
    have hpow : 256 ^ (n + 1) = 256 * 256 ^ n := Nat.pow_succ'
    rw [loadLE, hbyte, Nat.add_assoc, hrest, hdiv, UInt8.toNat_ofNat', hpow, Nat.mod_mul]

theorem loadLE_storeLE_same (m : Mem) (a n v : Nat) :
    loadLE (storeLE m a n v) a n = v % 256 ^ n := by
  have h := loadLE_storeLE_mid m a n v n 0 (by omega)
  simpa using h

theorem loadLE_storeLE_of_disjoint {m : Mem} {a b n k v : Nat}
    (h : b + k ≤ a ∨ a + n ≤ b) :
    loadLE (storeLE m a n v) b k = loadLE m b k := by
  refine loadLE_congr fun p hp => storeLE_of_not_inRange ?_
  unfold InRange at *
  omega

/-! ## The machine's word sizes -/

/-- The 16-bit word at `a`. -/
def read16 (m : Mem) (a : Nat) : UInt16 := UInt16.ofNat (loadLE m a 2)
/-- The 32-bit word at `a`. -/
def read32 (m : Mem) (a : Nat) : UInt32 := UInt32.ofNat (loadLE m a 4)
/-- The 64-bit word at `a`. -/
def read64 (m : Mem) (a : Nat) : UInt64 := UInt64.ofNat (loadLE m a 8)
/-- Store a 64-bit word at `a`. -/
def write64 (m : Mem) (a : Nat) (v : UInt64) : Mem := storeLE m a 8 v.toNat

theorem read64_eq_zero {m : Mem} {a : Nat} (h : ∀ p, InRange a 8 p → m p = 0) :
    m.read64 a = 0 := by
  rw [read64, loadLE_eq_zero h]
  rfl

theorem eq_zero_of_read64_eq_zero {m : Mem} {a : Nat} (h : m.read64 a = 0) :
    ∀ p, InRange a 8 p → m p = 0 := by
  have hlt : loadLE m a 8 < 2 ^ 64 := loadLE_lt m 8 a
  have hzero : (UInt64.ofNat (loadLE m a 8)).toNat = 0 := congrArg UInt64.toNat h
  rw [UInt64.toNat_ofNat', Nat.mod_eq_of_lt hlt] at hzero
  exact eq_zero_of_loadLE_eq_zero hzero

theorem read64_write64_same (m : Mem) (a : Nat) (v : UInt64) :
    (m.write64 a v).read64 a = v := by
  have hv : v.toNat < 256 ^ 8 := v.toNat_lt
  rw [read64, write64, loadLE_storeLE_same, Nat.mod_eq_of_lt hv, UInt64.ofNat_toNat]

theorem read64_write64_of_disjoint {m : Mem} {a b : Nat} {v : UInt64}
    (h : b + 8 ≤ a ∨ a + 8 ≤ b) : (m.write64 a v).read64 b = m.read64 b := by
  rw [read64, write64, loadLE_storeLE_of_disjoint h, read64]

theorem write64_of_not_inRange {m : Mem} {a p : Nat} {v : UInt64}
    (h : ¬ InRange a 8 p) : m.write64 a v p = m p := storeLE_of_not_inRange h

@[simp] theorem write_same (m : Mem) (a : Nat) (v : UInt8) : m.write a v a = v :=
  if_pos rfl

theorem write_of_ne {m : Mem} {a p : Nat} {v : UInt8} (h : p ≠ a) :
    m.write a v p = m p := if_neg h

/-! ## Runs of bytes -/

/-- Store bytes one behind the other. -/
def writeList (m : Mem) : Nat → List UInt8 → Mem
  | _, [] => m
  | a, c :: cs => writeList (m.write a c) (a + 1) cs

theorem writeList_of_not_inRange : ∀ {l : List UInt8} {m : Mem} {a p : Nat},
    ¬ InRange a l.length p → m.writeList a l p = m p := by
  intro l
  induction l with
  | nil => intro m a p _; rfl
  | cons c cs ih =>
    intro m a p h
    have hlen : (c :: cs).length = cs.length + 1 := rfl
    unfold InRange at h
    have htail : ¬ InRange (a + 1) cs.length p := by
      unfold InRange
      omega
    rw [writeList, ih htail]
    exact write_of_ne (by omega)

theorem writeList_append : ∀ {xs ys : List UInt8} {m : Mem} {a : Nat},
    m.writeList a (xs ++ ys) = (m.writeList a xs).writeList (a + xs.length) ys := by
  intro xs
  induction xs with
  | nil => intro ys m a; rfl
  | cons x xs ih =>
    intro ys m a
    have haddr : a + 1 + xs.length = a + (x :: xs).length := by
      rw [List.length_cons]
      omega
    rw [List.cons_append, writeList, ih, haddr]
    rfl

/-! ## Memories given by their contents -/

/-- The `n` little-endian bytes of a number. -/
def wordBytes (n v : Nat) : List UInt8 := (List.range n).map fun i => UInt8.ofNat (v / 256 ^ i)

/-- The memory that holds byte strings at given addresses, and zero elsewhere. -/
def ofParts : List (Nat × List UInt8) → Mem
  | [], _ => 0
  | (start, bytes) :: parts, a =>
      if InRange start bytes.length a then bytes.getD (a - start) 0 else ofParts parts a

theorem ofParts_eq_zero {parts : List (Nat × List UInt8)} {a : Nat}
    (h : ∀ part ∈ parts, ¬ InRange part.1 part.2.length a) : ofParts parts a = 0 := by
  induction parts with
  | nil => rfl
  | cons part parts ih =>
    rw [ofParts, if_neg (h part List.mem_cons_self)]
    exact ih fun part' hpart' => h part' (List.mem_cons_of_mem _ hpart')

end Mem

/-! ## Frames -/

/-- `m'` agrees with `m` at every address outside `R`. -/
def SameOutside (R : Nat → Prop) (m m' : Mem) : Prop := ∀ a, ¬ R a → m' a = m a

namespace SameOutside

theorem refl (R : Nat → Prop) (m : Mem) : SameOutside R m m := fun _ _ => rfl

theorem trans {R : Nat → Prop} {m₁ m₂ m₃ : Mem} (h₁ : SameOutside R m₁ m₂)
    (h₂ : SameOutside R m₂ m₃) : SameOutside R m₁ m₃ :=
  fun a ha => (h₂ a ha).trans (h₁ a ha)

theorem mono {R R' : Nat → Prop} {m m' : Mem} (h : SameOutside R m m')
    (hsub : ∀ a, R a → R' a) : SameOutside R' m m' :=
  fun a ha => h a fun hr => ha (hsub a hr)

/-- A 64-bit store inside `R` is invisible outside it. -/
theorem write64 {R : Nat → Prop} {m : Mem} {a : Nat} {v : UInt64}
    (h : ∀ p, InRange a 8 p → R p) : SameOutside R m (m.write64 a v) :=
  fun p hp => Mem.write64_of_not_inRange fun hin => hp (h p hin)

end SameOutside

end HosBoot.Foundation
