/-
  Common/CString.lean --- the string functions of `string.c`.

  A C string lies in memory up to its terminator; `CString m p l` says that the
  string at `p` is `l`.  A loop over a string that never ends is bounded by the
  size of the address space: `none` means that the source does not return.  The
  null pointer is address zero.
-/
import HosBoot.Foundation.Memory
import HosBoot.Foundation.Runs

set_option autoImplicit false

namespace HosBoot.Common

open HosBoot.Foundation

/-- Every loop over memory that ends makes fewer turns than this. -/
def addressSpace : Nat := 2 ^ 32

/-! ## The functions -/

/-- `strchr(s, c)` for a string constant: what is left of `s` from the first `c` on.
The terminator counts as a character of `s`. -/
def strchr : List UInt8 → UInt8 → Option (List UInt8)
  | [], c => if c = 0 then some [] else none
  | x :: xs, c => if x = c then some (x :: xs) else strchr xs c

/-- The loop of `strspn`. -/
def strspnLoop (m : Mem) (s2 : List UInt8) : Nat → Nat → Option Nat
  | 0, _ => none
  | fuel + 1, s1 =>
      if m s1 ≠ 0 ∧ (strchr s2 (m s1)).isSome then
        (strspnLoop m s2 fuel (s1 + 1)).map (· + 1)
      else
        some 0

/-- `strspn`. -/
def strspn (m : Mem) (s1 : Nat) (s2 : List UInt8) : Option Nat := strspnLoop m s2 addressSpace s1

/-- The loop of `strcspn`. -/
def strcspnLoop (m : Mem) (s2 : List UInt8) : Nat → Nat → Option Nat
  | 0, _ => none
  | fuel + 1, s1 =>
      if m s1 ≠ 0 then
        if (strchr s2 (m s1)).isSome then some 0
        else (strcspnLoop m s2 fuel (s1 + 1)).map (· + 1)
      else
        some 0

/-- `strcspn`. -/
def strcspn (m : Mem) (s1 : Nat) (s2 : List UInt8) : Option Nat :=
  strcspnLoop m s2 addressSpace s1

/-- The loop of `strcmp`; the two strings may lie in different memories. -/
def strcmpLoop (m₁ m₂ : Mem) : Nat → Nat → Nat → Option Int
  | 0, _, _ => none
  | fuel + 1, a1, a2 =>
      if m₁ a1 ≠ 0 ∧ m₁ a1 = m₂ a2 then strcmpLoop m₁ m₂ fuel (a1 + 1) (a2 + 1)
      else some ((m₁ a1).toNat - (m₂ a2).toNat)

/-- `strcmp`. -/
def strcmp (m₁ : Mem) (a1 : Nat) (m₂ : Mem) (a2 : Nat) : Option Int :=
  strcmpLoop m₁ m₂ addressSpace a1 a2

/-- A string constant, as a memory that holds it at address zero. -/
def constChars (s : List UInt8) : Mem := fun i => s.getD i 0

/-- `memcmp(s1, s2, n)` against a constant of `n` bytes. -/
def memcmp (m : Mem) : Nat → List UInt8 → Int
  | _, [] => 0
  | s1, u2 :: rest => if m s1 ≠ u2 then (m s1).toNat - u2.toNat else memcmp m (s1 + 1) rest

/-- `strtok_r(str, delim, &saveptr)`: the result, the new `saveptr` and the memory. -/
def strtokR (m : Mem) (str : Nat) (delim : List UInt8) (saveptr : Nat) :
    Option (Nat × Nat × Mem) :=
  let saveptr := if str ≠ 0 then str else saveptr
  if saveptr = 0 then
    some (0, 0, m)
  else do
    let str := saveptr + (← strspn m saveptr delim)
    let saveptr := str + (← strcspn m str delim)
    if saveptr = str then
      return (0, 0, m)
    else if m saveptr ≠ 0 then
      return (str, saveptr + 1, m.write saveptr 0)
    else
      return (str, 0, m)

/-- The characters up to the terminator, as a loop such as that of `puts` reads them. -/
def stringAt (m : Mem) : Nat → Nat → Option (List UInt8)
  | 0, _ => none
  | fuel + 1, p => if m p = 0 then some [] else (stringAt m fuel (p + 1)).map (m p :: ·)

/-! ## Strings in memory -/

/-- The C string at `p` is `l`. -/
def CString (m : Mem) : Nat → List UInt8 → Prop
  | p, [] => m p = 0
  | p, c :: cs => m p = c ∧ c ≠ 0 ∧ CString m (p + 1) cs

instance instDecidableCString : ∀ (m : Mem) (p : Nat) (l : List UInt8), Decidable (CString m p l)
  | m, p, [] => inferInstanceAs (Decidable (m p = 0))
  | m, p, _ :: cs =>
      have : Decidable (CString m (p + 1) cs) := instDecidableCString m (p + 1) cs
      inferInstanceAs (Decidable (_ ∧ _ ∧ _))

/-- A loop over bytes among which there is a zero ends. -/
theorem exists_stringAt {m : Mem} : ∀ {n p fuel : Nat}, m (p + n) = 0 → n < fuel →
    ∃ l, stringAt m fuel p = some l := by
  intro n
  induction n with
  | zero =>
    intro p fuel hzero hfuel
    obtain ⟨fuel, rfl⟩ : ∃ f, fuel = f + 1 := ⟨fuel - 1, by omega⟩
    exact ⟨[], if_pos hzero⟩
  | succ n ih =>
    intro p fuel hzero hfuel
    obtain ⟨fuel, rfl⟩ : ∃ f, fuel = f + 1 := ⟨fuel - 1, by omega⟩
    rw [stringAt]
    by_cases hfirst : m p = 0
    · exact ⟨[], if_pos hfirst⟩
    · have haddr : p + (n + 1) = p + 1 + n := by omega
      obtain ⟨l, hrest⟩ := ih (haddr ▸ hzero) (show n < fuel by omega)
      exact ⟨m p :: l, by rw [if_neg hfirst, hrest, Option.map_some]⟩

namespace CString

variable {m m' : Mem} {p : Nat} {l xs ys : List UInt8}

/-- A string depends on its bytes and its terminator only. -/
theorem congr : ∀ {l : List UInt8} {p : Nat}, CString m p l →
    (∀ a, InRange p (l.length + 1) a → m' a = m a) → CString m' p l := by
  intro l
  induction l with
  | nil => intro p h hsame; exact (hsame p ⟨Nat.le_refl p, by simp⟩).trans h
  | cons c cs ih =>
    intro p h hsame
    obtain ⟨hhead, hne, htail⟩ := h
    refine ⟨(hsame p ⟨Nat.le_refl p, by simp⟩).trans hhead, hne, ih htail fun a ha => ?_⟩
    exact hsame a (ha.widen (by omega) (by simp only [List.length_cons]; omega))

/-- The string behind the first characters. -/
theorem drop : ∀ {xs : List UInt8} {p : Nat}, CString m p (xs ++ ys) →
    CString m (p + xs.length) ys := by
  intro xs
  induction xs with
  | nil => intro p h; exact h
  | cons c cs ih =>
    intro p h
    have hrest := ih h.2.2
    have haddr : p + 1 + cs.length = p + (c :: cs).length := by
      rw [List.length_cons]
      omega
    rwa [haddr] at hrest

/-- The terminator. -/
theorem end_eq_zero (h : CString m p l) : m (p + l.length) = 0 := by
  have hrest : CString m p (l ++ []) := by rwa [List.append_nil]
  exact hrest.drop

/-- The bytes of a string are its characters and the terminator. -/
theorem byte_mem : ∀ {l : List UInt8} {p a : Nat}, CString m p l → InRange p (l.length + 1) a →
    m a ∈ l ∨ m a = 0 := by
  intro l
  induction l with
  | nil =>
    intro p a h ha
    obtain rfl : a = p := by
      unfold InRange at ha
      rw [List.length_nil] at ha
      omega
    exact Or.inr h
  | cons c cs ih =>
    intro p a h ha
    obtain ⟨hhead, _, htail⟩ := h
    by_cases hfirst : a = p
    · rw [hfirst, hhead]
      exact Or.inl List.mem_cons_self
    · have hin : InRange (p + 1) (cs.length + 1) a := by
        unfold InRange at ha ⊢
        rw [List.length_cons] at ha
        omega
      exact (ih htail hin).imp_left (List.mem_cons_of_mem c)

/-- A loop over a string reads the string. -/
theorem stringAt_eq : ∀ {l : List UInt8} {p fuel : Nat}, CString m p l → l.length < fuel →
    stringAt m fuel p = some l := by
  intro l
  induction l with
  | nil =>
    intro p fuel h hfuel
    obtain ⟨fuel, rfl⟩ : ∃ f, fuel = f + 1 := ⟨fuel - 1, by omega⟩
    exact if_pos h
  | cons c cs ih =>
    intro p fuel h hfuel
    obtain ⟨fuel, rfl⟩ : ∃ f, fuel = f + 1 := ⟨fuel - 1, by omega⟩
    obtain ⟨rfl, hne, htail⟩ := h
    rw [List.length_cons] at hfuel
    rw [stringAt, if_neg hne, ih htail (by omega)]
    rfl

/-- There is one string at an address. -/
theorem unique : ∀ {l l' : List UInt8} {p : Nat}, CString m p l → CString m p l' → l = l' := by
  intro l
  induction l with
  | nil =>
    intro l' p h h'
    cases l' with
    | nil => rfl
    | cons c cs =>
      obtain ⟨hhead, hne, _⟩ := h'
      exact absurd (hhead.symm.trans h) hne
  | cons c cs ih =>
    intro l' p h h'
    obtain ⟨hhead, hne, htail⟩ := h
    cases l' with
    | nil => exact absurd (hhead.symm.trans h') hne
    | cons d ds =>
      obtain ⟨hhead', _, htail'⟩ := h'
      rw [ih htail htail', hhead.symm.trans hhead']

/-- Bytes that are stored with a terminator are a string up to the first zero. -/
theorem writeList : ∀ (l : List UInt8) (m : Mem) (p : Nat),
    CString (m.writeList p (l ++ [0])) p (l.takeWhile (· != 0)) := by
  intro l
  induction l with
  | nil => exact fun m p => Mem.write_same m p 0
  | cons c cs ih =>
    intro m p
    have hout : ¬ InRange (p + 1) (cs ++ [0]).length p := fun hin => absurd hin.1 (by omega)
    have hhead : m.writeList p (c :: cs ++ [0]) p = c :=
      (Mem.writeList_of_not_inRange hout).trans (Mem.write_same m p c)
    rw [List.takeWhile_cons]
    by_cases hc : c = 0
    · rw [if_neg (by simp [hc])]
      exact hhead.trans hc
    · rw [if_pos (by simpa using hc)]
      exact ⟨hhead, hc, ih (m.write p c) (p + 1)⟩

/-- A character that fills a range, in front of a string. -/
theorem replicate_append {c : UInt8} (hc : c ≠ 0) : ∀ {n : Nat} {p : Nat},
    (∀ a, InRange p n a → m a = c) → CString m (p + n) l →
      CString m p (List.replicate n c ++ l) := by
  intro n
  induction n with
  | zero => exact fun _ h => h
  | succ n ih =>
    intro p hfill h
    have haddr : p + (n + 1) = p + 1 + n := by omega
    rw [haddr] at h
    have htail : ∀ a, InRange (p + 1) n a → m a = c :=
      fun a ha => hfill a (ha.widen (by omega) (by omega))
    exact ⟨hfill p ⟨Nat.le_refl p, by omega⟩, hc, ih htail h⟩

/-- A zero byte in the middle cuts the string in two. -/
theorem cut {c : UInt8} : ∀ {xs : List UInt8} {p : Nat}, CString m p (xs ++ c :: ys) →
    CString (m.write (p + xs.length) 0) p xs := by
  intro xs
  induction xs with
  | nil => intro p _; exact Mem.write_same m p 0
  | cons x xs ih =>
    intro p h
    obtain ⟨hhead, hne, htail⟩ := h
    have hrest := ih htail
    have haddr : p + 1 + xs.length = p + (x :: xs).length := by
      rw [List.length_cons]
      omega
    rw [haddr] at hrest
    refine ⟨?_, hne, hrest⟩
    rw [Mem.write_of_ne (by rw [List.length_cons]; omega)]
    exact hhead

/-- A string constant. -/
theorem const {s : List UInt8} (h : 0 ∉ s) : CString (constChars s) 0 s := by
  have hshift : ∀ (rest pre : List UInt8), 0 ∉ rest →
      CString (constChars (pre ++ rest)) pre.length rest := by
    intro rest
    induction rest with
    | nil =>
      intro pre _
      simp [CString, constChars]
    | cons c cs ih =>
      intro pre hzero
      have hrest := ih (pre ++ [c]) fun hmem => hzero (List.mem_cons_of_mem c hmem)
      rw [List.append_assoc, List.length_append] at hrest
      refine ⟨by simp [constChars], ?_, hrest⟩
      rintro rfl
      exact hzero List.mem_cons_self
  exact hshift s [] h

end CString

/-! ## What the functions compute -/

/-- A character of the delimiter string. -/
def isDelim (delim : List UInt8) (c : UInt8) : Bool := delim.contains c

theorem strchr_isSome {delim : List UInt8} {c : UInt8} (hc : c ≠ 0) :
    (strchr delim c).isSome = isDelim delim c := by
  induction delim with
  | nil => simp [strchr, hc, isDelim]
  | cons x xs ih =>
    rw [strchr, isDelim, List.contains_cons]
    by_cases hx : x = c
    · subst hx
      simp
    · have hne : (c == x) = false := by
        rw [beq_eq_false_iff_ne]
        exact fun h => hx h.symm
      rw [if_neg hx, hne, Bool.false_or]
      exact ih

section Scan

variable {m : Mem} {delim : List UInt8}

/-- `strspn` counts the leading delimiters. -/
theorem strspnLoop_eq {rest : List UInt8}
    (hstop : ∀ c cs, rest = c :: cs → isDelim delim c = false) :
    ∀ {pre : List UInt8} {p fuel : Nat}, CString m p (pre ++ rest) →
      (∀ c ∈ pre, isDelim delim c = true) → pre.length < fuel →
      strspnLoop m delim fuel p = some pre.length := by
  intro pre
  induction pre with
  | nil =>
    intro p fuel h _ hfuel
    obtain ⟨fuel, rfl⟩ : ∃ f, fuel = f + 1 := ⟨fuel - 1, by omega⟩
    rw [strspnLoop, if_neg]
    · rfl
    · rintro ⟨hne, hsome⟩
      cases rest with
      | nil => exact hne h
      | cons c cs =>
        obtain ⟨hhead, hc, _⟩ := h
        rw [hhead, strchr_isSome hc, hstop c cs rfl] at hsome
        cases hsome
  | cons c cs ih =>
    intro p fuel h hpre hfuel
    obtain ⟨fuel, rfl⟩ : ∃ f, fuel = f + 1 := ⟨fuel - 1, by omega⟩
    obtain ⟨hhead, hc, htail⟩ := h
    have hrest := ih htail (fun d hd => hpre d (List.mem_cons_of_mem c hd))
      (Nat.lt_of_succ_lt_succ hfuel)
    rw [strspnLoop, if_pos, hrest]
    · rfl
    · rw [hhead, strchr_isSome hc]
      exact ⟨hc, hpre c List.mem_cons_self⟩

/-- `strcspn` counts the characters up to the next delimiter. -/
theorem strcspnLoop_eq {rest : List UInt8}
    (hstop : ∀ c cs, rest = c :: cs → isDelim delim c = true) :
    ∀ {run : List UInt8} {p fuel : Nat}, CString m p (run ++ rest) →
      (∀ c ∈ run, isDelim delim c = false) → run.length < fuel →
      strcspnLoop m delim fuel p = some run.length := by
  intro run
  induction run with
  | nil =>
    intro p fuel h _ hfuel
    obtain ⟨fuel, rfl⟩ : ∃ f, fuel = f + 1 := ⟨fuel - 1, by omega⟩
    rw [strcspnLoop]
    cases rest with
    | nil =>
      have hzero : m p = 0 := h
      rw [if_neg fun hne => hne hzero]
      rfl
    | cons c cs =>
      obtain ⟨hhead, hc, _⟩ := h
      rw [hhead, if_pos hc, strchr_isSome hc, hstop c cs rfl]
      rfl
  | cons c cs ih =>
    intro p fuel h hrun hfuel
    obtain ⟨fuel, rfl⟩ : ∃ f, fuel = f + 1 := ⟨fuel - 1, by omega⟩
    obtain ⟨hhead, hc, htail⟩ := h
    have hrest := ih htail (fun d hd => hrun d (List.mem_cons_of_mem c hd))
      (Nat.lt_of_succ_lt_succ hfuel)
    rw [strcspnLoop, hhead, if_pos hc, strchr_isSome hc, hrun c List.mem_cons_self, hrest]
    rfl

theorem strspn_eq {pre rest : List UInt8} {p : Nat} (h : CString m p (pre ++ rest))
    (hpre : ∀ c ∈ pre, isDelim delim c = true)
    (hstop : ∀ c cs, rest = c :: cs → isDelim delim c = false)
    (hlen : pre.length < addressSpace) : strspn m p delim = some pre.length :=
  strspnLoop_eq hstop h hpre hlen

theorem strcspn_eq {run rest : List UInt8} {p : Nat} (h : CString m p (run ++ rest))
    (hrun : ∀ c ∈ run, isDelim delim c = false)
    (hstop : ∀ c cs, rest = c :: cs → isDelim delim c = true)
    (hlen : run.length < addressSpace) : strcspn m p delim = some run.length :=
  strcspnLoop_eq hstop h hrun hlen

end Scan

/-- `strcmp` ends on strings, and returns zero exactly on equal ones. -/
theorem strcmpLoop_eq {m₁ m₂ : Mem} : ∀ {l₁ l₂ : List UInt8} {a1 a2 fuel : Nat},
    CString m₁ a1 l₁ → CString m₂ a2 l₂ → l₁.length < fuel →
    ∃ d, strcmpLoop m₁ m₂ fuel a1 a2 = some d ∧ (d = 0 ↔ l₁ = l₂) := by
  intro l₁
  induction l₁ with
  | nil =>
    intro l₂ a1 a2 fuel h₁ h₂ hfuel
    obtain ⟨fuel, rfl⟩ : ∃ f, fuel = f + 1 := ⟨fuel - 1, by omega⟩
    have hzero : m₁ a1 = 0 := h₁
    rw [strcmpLoop, if_neg fun h => h.1 hzero, hzero]
    refine ⟨_, rfl, ?_⟩
    cases l₂ with
    | nil =>
      have hzero' : m₂ a2 = 0 := h₂
      simp [hzero']
    | cons d ds =>
      obtain ⟨hhead, hd, _⟩ := h₂
      have hpos : d.toNat ≠ 0 := fun h => hd (UInt8.toNat_inj.mp h)
      rw [hhead]
      refine ⟨fun h => absurd h ?_, fun h => by cases h⟩
      change ((0 : Nat) : Int) - d.toNat ≠ 0
      omega
  | cons c cs ih =>
    intro l₂ a1 a2 fuel h₁ h₂ hfuel
    obtain ⟨fuel, rfl⟩ : ∃ f, fuel = f + 1 := ⟨fuel - 1, by omega⟩
    obtain ⟨hhead, hc, htail⟩ := h₁
    cases l₂ with
    | nil =>
      have hzero' : m₂ a2 = 0 := h₂
      have hpos : c.toNat ≠ 0 := fun h => hc (UInt8.toNat_inj.mp h)
      rw [strcmpLoop, hhead, hzero', if_neg fun h => hc h.2]
      refine ⟨_, rfl, fun h => absurd h ?_, fun h => by cases h⟩
      change (c.toNat : Int) - (0 : Nat) ≠ 0
      omega
    | cons d ds =>
      obtain ⟨hhead', _, htail'⟩ := h₂
      rw [strcmpLoop, hhead, hhead']
      by_cases hcd : c = d
      · subst hcd
        obtain ⟨e, he, hiff⟩ := ih htail htail' (Nat.lt_of_succ_lt_succ hfuel)
        rw [if_pos ⟨hc, rfl⟩]
        exact ⟨e, he, hiff.trans ⟨fun h => by rw [h], fun h => (List.cons.inj h).2⟩⟩
      · rw [if_neg fun h => hcd h.2]
        refine ⟨_, rfl, fun h => absurd (UInt8.toNat_inj.mp ?_) hcd,
          fun h => absurd (List.cons.inj h).1 hcd⟩
        omega

/-! ## One call of `strtok_r` -/

section Token

variable {m : Mem} {delim : List UInt8} {str saveptr p : Nat} {pre run rest : List UInt8}

/-- Only delimiters are left: there is no token. -/
theorem strtokR_none (hp : (if str ≠ 0 then str else saveptr) = p) (hne : p ≠ 0)
    (h : CString m p pre) (hpre : ∀ c ∈ pre, isDelim delim c = true)
    (hlen : pre.length < addressSpace) : strtokR m str delim saveptr = some (0, 0, m) := by
  have hpre' : CString m p (pre ++ []) := by rwa [List.append_nil]
  have hend : CString m (p + pre.length) ([] ++ []) := hpre'.drop
  have hspan := strspn_eq hpre' hpre (by intro c cs hcs; cases hcs) hlen
  have hcspan : strcspn m (p + pre.length) delim = some 0 :=
    strcspn_eq hend (by intro c hc; cases hc) (by intro c cs hcs; cases hcs)
      (Nat.zero_lt_of_lt hlen)
  unfold strtokR
  rw [hp]
  simp only [if_neg hne, hspan, hcspan, Option.bind_eq_bind, Option.bind_some, Nat.add_zero,
    if_true]
  rfl

/-- The token that ends the string. -/
theorem strtokR_last (hp : (if str ≠ 0 then str else saveptr) = p) (hne : p ≠ 0)
    (h : CString m p (pre ++ run)) (hpre : ∀ c ∈ pre, isDelim delim c = true)
    (hrun : IsRun (isDelim delim) run) (hlen : (pre ++ run).length < addressSpace) :
    strtokR m str delim saveptr = some (p + pre.length, 0, m) := by
  rw [List.length_append] at hlen
  have hhead : ∀ c cs, run = c :: cs → isDelim delim c = false :=
    fun c cs hcs => hrun.clear c (hcs ▸ List.mem_cons_self)
  have hspan := strspn_eq h hpre hhead (by omega)
  have htail : CString m (p + pre.length) (run ++ []) := by
    rw [List.append_nil]
    exact h.drop
  have hcspan := strcspn_eq htail hrun.clear (by intro c cs hcs; cases hcs) (by omega)
  have hpos : 0 < run.length := List.length_pos_iff.mpr hrun.ne_nil
  have hend : m (p + pre.length + run.length) = 0 := h.drop.end_eq_zero
  unfold strtokR
  rw [hp]
  simp only [if_neg hne, hspan, hcspan, Option.bind_eq_bind, Option.bind_some, hend, ne_eq,
    not_true_eq_false, if_false]
  rw [if_neg (by omega)]
  rfl

/-- The token that a delimiter ends: the delimiter becomes a terminator, and the next
call starts behind it. -/
theorem strtokR_cons {sep : UInt8} (hp : (if str ≠ 0 then str else saveptr) = p) (hne : p ≠ 0)
    (h : CString m p (pre ++ (run ++ sep :: rest))) (hpre : ∀ c ∈ pre, isDelim delim c = true)
    (hrun : IsRun (isDelim delim) run) (hsep : isDelim delim sep = true)
    (hlen : (pre ++ (run ++ sep :: rest)).length < addressSpace) :
    strtokR m str delim saveptr =
      some (p + pre.length, p + pre.length + run.length + 1,
        m.write (p + pre.length + run.length) 0) := by
  rw [List.length_append, List.length_append] at hlen
  have hhead : ∀ c cs, run ++ sep :: rest = c :: cs → isDelim delim c = false := by
    intro c cs hcs
    cases run with
    | nil => exact absurd rfl hrun.ne_nil
    | cons x xs =>
      rw [List.cons_append] at hcs
      exact (List.cons.inj hcs).1 ▸ hrun.clear x List.mem_cons_self
  have hspan := strspn_eq h hpre hhead (by omega)
  have hstop : ∀ c cs, sep :: rest = c :: cs → isDelim delim c = true :=
    fun c cs hcs => (List.cons.inj hcs).1 ▸ hsep
  have hcspan := strcspn_eq h.drop hrun.clear hstop (by omega)
  have hpos : 0 < run.length := List.length_pos_iff.mpr hrun.ne_nil
  obtain ⟨hbyte, hsepne, _⟩ := h.drop.drop
  unfold strtokR
  rw [hp]
  simp only [if_neg hne, hspan, hcspan, Option.bind_eq_bind, Option.bind_some, hbyte, ne_eq,
    hsepne, not_false_eq_true, if_true]
  rw [if_neg (by omega)]
  rfl

end Token

/-! ## A call, by the runs of what is left -/

/-- What `saveptr` leaves to scan: nothing when it is null. -/
def Pending (m : Mem) (saveptr : Nat) (l : List UInt8) : Prop :=
  (saveptr = 0 ∧ l = []) ∨ (saveptr ≠ 0 ∧ CString m saveptr l)

/-- A call that scanned `l` at `p` returned the token `run` at `tok` and left `rest`. -/
structure Scanned (m m' : Mem) (p : Nat) (l : List UInt8) (tok saveptr : Nat)
    (run rest : List UInt8) : Prop where
  tok_ne : tok ≠ 0
  token : CString m' tok run
  pending : Pending m' saveptr rest
  /-- The token lies in the text, -/
  lower : p ≤ tok
  upper : tok + run.length ≤ p + l.length
  /-- the rest behind it, up to the end, -/
  behind : saveptr ≠ 0 → tok + run.length < saveptr ∧ saveptr + rest.length = p + l.length
  /-- and only the byte behind the token may have changed. -/
  frame : SameOutside (InRange (tok + run.length) 1) m m'
  frameIn : SameOutside (InRange p l.length) m m'

/-- One call of `strtok_r` takes the next run. -/
theorem strtokR_spec {m : Mem} (delim : List UInt8) {str saveptr p : Nat} {l : List UInt8}
    (hp : (if str ≠ 0 then str else saveptr) = p) (h : Pending m p l)
    (hlen : l.length < addressSpace) :
    ∃ tok saveptr' m', strtokR m str delim saveptr = some (tok, saveptr', m') ∧
      ((runs (isDelim delim) l = [] ∧ tok = 0 ∧ m' = m) ∨
        ∃ run rest, runs (isDelim delim) l = run :: runs (isDelim delim) rest ∧
          IsRun (isDelim delim) run ∧ Scanned m m' p l tok saveptr' run rest) := by
  rcases h with ⟨hzero, rfl⟩ | ⟨hne, hstring⟩
  · refine ⟨0, 0, m, ?_, Or.inl ⟨rfl, rfl, rfl⟩⟩
    subst hzero
    unfold strtokR
    rw [hp]
    rfl
  rcases scan_cases (isDelim delim) l with hall | ⟨pre, run, rfl, hpre, hrun⟩ |
    ⟨pre, run, sep, rest, rfl, hpre, hrun, hsep⟩
  · exact ⟨0, 0, m, strtokR_none hp hne hstring hall hlen,
      Or.inl ⟨runs_separators hall, rfl, rfl⟩⟩
  · refine ⟨p + pre.length, 0, m, strtokR_last hp hne hstring hpre hrun hlen,
      Or.inr ⟨run, [], ?_, hrun, ?_⟩⟩
    · rw [runs_skip hpre, runs_last hrun, runs_nil]
    · refine
        { tok_ne := by omega
          token := hstring.drop
          pending := Or.inl ⟨rfl, rfl⟩
          lower := Nat.le_add_right _ _
          upper := by rw [List.length_append]; omega
          behind := fun hsave => absurd rfl hsave
          frame := SameOutside.refl _ _
          frameIn := SameOutside.refl _ _ }
  · refine ⟨_, _, _, strtokR_cons hp hne hstring hpre hrun hsep hlen,
      Or.inr ⟨run, rest, ?_, hrun, ?_⟩⟩
    · rw [runs_skip hpre, runs_cons hrun hsep]
    · have hrest : CString m (p + pre.length + run.length + 1) rest := hstring.drop.drop.2.2
      have hwrite : ∀ a, a ≠ p + pre.length + run.length →
          m.write (p + pre.length + run.length) 0 a = m a := fun a ha => Mem.write_of_ne ha
      refine
        { tok_ne := by omega
          token := hstring.drop.cut
          pending := Or.inr ⟨by omega, hrest.congr fun a ha => hwrite a ?_⟩
          lower := Nat.le_add_right _ _
          upper := by simp only [List.length_append]; omega
          behind := fun _ => ?_
          frame := fun a ha => hwrite a ?_
          frameIn := fun a ha => hwrite a ?_ }
      · unfold InRange at ha
        omega
      · simp only [List.length_append, List.length_cons]
        omega
      · unfold InRange at ha
        omega
      · unfold InRange at ha
        simp only [List.length_append, List.length_cons] at ha
        omega

end HosBoot.Common
