/-
  Rts/WSDeque.lean --- the work-stealing deque of WSDeque.c.

  The deque is a circular array between two counters.  Its owner pushes and pops at
  `bottom`; any number of thieves take from `top`, the winner of a compare-and-swap.
  A step of the owner or of a thief is one access to a field that another thread
  writes or reads, so a program counter stands between any two of them.  The counters
  only grow and index the array modulo its size; as the source does, the model assumes
  that they do not overflow, and takes them as integers.
-/
import Mathlib.Tactic.Ring
import HosBoot.Foundation.RingBuffer

set_option autoImplicit false

namespace HosBoot.Rts

open HosBoot.Foundation

/-! ## The size of the array -/

/-- The loop of `roundUp2`: shift `rounded` up for each bit of `val`. -/
def roundUp2Loop (rounded val : Nat) : Nat :=
  if val >>> 1 ≠ 0 then roundUp2Loop (rounded <<< 1) (val >>> 1) else rounded <<< 1
termination_by val
decreasing_by
  rw [Nat.shiftRight_eq_div_pow] at *
  omega

/-- `roundUp2`: a power of two above `val`; `none` is the call of `barf`. -/
def roundUp2 (val : Nat) : Option Nat :=
  if val = 0 then none else some (roundUp2Loop 1 val)

theorem roundUp2Loop_eq (rounded val : Nat) :
    roundUp2Loop rounded val = rounded * 2 ^ (val.log2 + 1) := by
  induction rounded, val using roundUp2Loop.induct with
  | case1 rounded val hnext ih =>
    rw [Nat.shiftRight_eq_div_pow] at hnext ih
    have hlog : val.log2 = (val / 2).log2 + 1 := by
      rw [Nat.log2_def, if_pos (by omega)]
    rw [roundUp2Loop, if_pos (by rwa [Nat.shiftRight_eq_div_pow]), Nat.shiftRight_eq_div_pow, ih,
      Nat.shiftLeft_eq, hlog]
    ring
  | case2 rounded val hlast =>
    rw [Nat.shiftRight_eq_div_pow] at hlast
    have hlog : val.log2 = 0 := by
      rw [Nat.log2_def, if_neg (by omega)]
    rw [roundUp2Loop, if_neg (by rwa [Nat.shiftRight_eq_div_pow]), Nat.shiftLeft_eq, hlog]

/-- The size is the power of two just above the one requested. -/
theorem roundUp2_eq {val : Nat} (h : val ≠ 0) :
    roundUp2 val = some (2 ^ (val.log2 + 1)) := by
  rw [roundUp2, if_neg h, roundUp2Loop_eq, Nat.one_mul]

theorem roundUp2_ne_zero {val size : Nat} (h : roundUp2 val = some size) : val ≠ 0 := by
  intro hzero
  rw [roundUp2, if_pos hzero] at h
  cases h

theorem roundUp2_pow {val size : Nat} (h : roundUp2 val = some size) : ∃ k, size = 2 ^ k := by
  rw [roundUp2_eq (roundUp2_ne_zero h)] at h
  exact ⟨val.log2 + 1, (Option.some.inj h).symm⟩

/-! ## The deque -/

/-- `WSDeque`.  The size is a power of two and `moduloSize` its mask. -/
structure WSDeque (α : Type) where
  size : Nat
  moduloSize : Nat
  top : Int
  bottom : Int
  topBound : Int
  elements : Nat → α
  size_pow : ∃ k, size = 2 ^ k
  moduloSize_eq : moduloSize = size - 1

variable {α : Type}

/-- `newWSDeque`: an empty deque over a fresh array, whose contents are arbitrary. -/
def newWSDeque (size : Nat) (dataspace : Nat → α) : Option (WSDeque α) :=
  match hsize : roundUp2 size with
  | none => none
  | some realsize =>
    some
      { size := realsize
        moduloSize := realsize - 1
        top := 0
        bottom := 0
        topBound := 0
        elements := dataspace
        size_pow := roundUp2_pow hsize
        moduloSize_eq := rfl }

namespace WSDeque

/-- The array index of a position: `i & moduloSize`. -/
def slot (q : WSDeque α) (i : Int) : Nat := i.toNat &&& q.moduloSize

/-- `dequeElements`, for a caller that no other thread disturbs. -/
def dequeElements (q : WSDeque α) : Int := q.bottom - q.top

/-- `looksEmptyWSDeque`, for a caller that no other thread disturbs. -/
def looksEmpty (q : WSDeque α) : Bool := q.dequeElements ≤ 0

/-! Writes to a field. -/

def setTop (q : WSDeque α) (t : Int) : WSDeque α := { q with top := t }

def setBottom (q : WSDeque α) (b : Int) : WSDeque α := { q with bottom := b }

def setTopBound (q : WSDeque α) (t : Int) : WSDeque α := { q with topBound := t }

/-- `elements[i & moduloSize] = x`. -/
def store (q : WSDeque α) (i : Int) (x : α) : WSDeque α :=
  { q with elements := Function.update q.elements (q.slot i) x }

/-- The element at position `i`. -/
def read (q : WSDeque α) (i : Int) : α := q.elements (q.slot i)

section

variable (q : WSDeque α) (i j : Int) (x : α)

@[simp] theorem setTop_top : (q.setTop i).top = i := rfl
@[simp] theorem setTop_bottom : (q.setTop i).bottom = q.bottom := rfl
@[simp] theorem setTop_topBound : (q.setTop i).topBound = q.topBound := rfl
@[simp] theorem setTop_size : (q.setTop i).size = q.size := rfl
@[simp] theorem setTop_moduloSize : (q.setTop i).moduloSize = q.moduloSize := rfl
@[simp] theorem setTop_read : (q.setTop i).read j = q.read j := rfl
@[simp] theorem setBottom_top : (q.setBottom i).top = q.top := rfl
@[simp] theorem setBottom_bottom : (q.setBottom i).bottom = i := rfl
@[simp] theorem setBottom_topBound : (q.setBottom i).topBound = q.topBound := rfl
@[simp] theorem setBottom_size : (q.setBottom i).size = q.size := rfl
@[simp] theorem setBottom_moduloSize : (q.setBottom i).moduloSize = q.moduloSize := rfl
@[simp] theorem setBottom_read : (q.setBottom i).read j = q.read j := rfl
@[simp] theorem setTopBound_top : (q.setTopBound i).top = q.top := rfl
@[simp] theorem setTopBound_bottom : (q.setTopBound i).bottom = q.bottom := rfl
@[simp] theorem setTopBound_topBound : (q.setTopBound i).topBound = i := rfl
@[simp] theorem setTopBound_size : (q.setTopBound i).size = q.size := rfl
@[simp] theorem setTopBound_moduloSize : (q.setTopBound i).moduloSize = q.moduloSize := rfl
@[simp] theorem setTopBound_read : (q.setTopBound i).read j = q.read j := rfl
@[simp] theorem store_top : (q.store i x).top = q.top := rfl
@[simp] theorem store_bottom : (q.store i x).bottom = q.bottom := rfl
@[simp] theorem store_topBound : (q.store i x).topBound = q.topBound := rfl
@[simp] theorem store_size : (q.store i x).size = q.size := rfl
@[simp] theorem store_moduloSize : (q.store i x).moduloSize = q.moduloSize := rfl

@[simp] theorem store_read_self : (q.store i x).read i = x := Function.update_self _ _ _

end

/-- `discardElements`. -/
def discardElements (q : WSDeque α) : WSDeque α := q.setTop q.bottom

theorem size_pos (q : WSDeque α) : 0 < q.size := by
  obtain ⟨k, hk⟩ := q.size_pow
  rw [hk]
  exact Nat.two_pow_pos k

theorem moduloSize_lt (q : WSDeque α) : q.moduloSize < q.size := by
  have hpos := q.size_pos
  have heq := q.moduloSize_eq
  omega

theorem slot_eq_mod (q : WSDeque α) (i : Int) : q.slot i = i.toNat % q.size := by
  obtain ⟨k, hk⟩ := q.size_pow
  rw [slot, q.moduloSize_eq, hk, Nat.and_two_pow_sub_one_eq_mod]

/-- No access leaves the array. -/
theorem slot_lt (q : WSDeque α) (i : Int) : q.slot i < q.size := by
  rw [slot_eq_mod]
  exact Nat.mod_lt _ q.size_pos

theorem read_eq (q : WSDeque α) (i : Int) : q.read i = q.elements (i.toNat % q.size) := by
  rw [read, slot_eq_mod]

theorem store_elements (q : WSDeque α) (i : Int) (x : α) :
    (q.store i x).elements = Function.update q.elements (i.toNat % q.size) x := by
  show Function.update q.elements (q.slot i) x = _
  rw [slot_eq_mod]

/-- A store is not seen at the positions less than the size below it. -/
theorem store_read_of_lt (q : WSDeque α) {i j : Int} (x : α) (hi : 0 ≤ i) (hlt : i < j)
    (hnear : j - i < q.size) : (q.store j x).read i = q.read i := by
  rw [read_eq, store_elements, store_size, read_eq]
  exact Function.update_of_ne (mod_ne_mod (by omega) (by omega)) _ _

/-! ## The elements of the deque -/

/-- The elements from `top` up to the position `lim`. -/
def contents (q : WSDeque α) (lim : Int) : List α :=
  slice q.size q.elements q.top.toNat (lim - q.top).toNat

theorem contents_length (q : WSDeque α) (lim : Int) :
    (q.contents lim).length = (lim - q.top).toNat := length_slice _ _ _ _

theorem contents_of_le {q : WSDeque α} {lim : Int} (h : lim ≤ q.top) : q.contents lim = [] := by
  have hzero : (lim - q.top).toNat = 0 := by omega
  rw [contents, hzero, slice_zero]

/-- The last element stands below `lim`. -/
theorem contents_snoc {q : WSDeque α} {lim : Int} (hpos : 0 ≤ q.top) (h : q.top ≤ lim) :
    q.contents (lim + 1) = q.contents lim ++ [q.read lim] := by
  have hsucc : (lim + 1 - q.top).toNat = (lim - q.top).toNat + 1 := by omega
  have hlast : q.top.toNat + (lim - q.top).toNat = lim.toNat := by omega
  rw [contents, contents, hsucc, slice_snoc, hlast, read_eq]

/-- The first element stands at `top`. -/
theorem contents_cons {q : WSDeque α} {lim : Int} (hpos : 0 ≤ q.top) (h : q.top < lim) :
    q.contents lim = q.read q.top :: (q.setTop (q.top + 1)).contents lim := by
  have hsucc : (lim - q.top).toNat = (lim - (q.top + 1)).toNat + 1 := by omega
  have hnext : (q.top + 1).toNat = q.top.toNat + 1 := by omega
  rw [contents, hsucc, slice_cons, read_eq, ← hnext]
  rfl

@[simp] theorem setBottom_contents (q : WSDeque α) (b lim : Int) :
    (q.setBottom b).contents lim = q.contents lim := rfl

@[simp] theorem setTopBound_contents (q : WSDeque α) (t lim : Int) :
    (q.setTopBound t).contents lim = q.contents lim := rfl

/-- A write at the free position `lim` leaves the elements below it alone. -/
theorem store_contents {q : WSDeque α} {lim : Int} (hpos : 0 ≤ q.top) (hle : q.top ≤ lim)
    (hroom : lim - q.top < q.size) (x : α) :
    (q.store lim x).contents lim = q.contents lim := by
  rw [contents, contents, store_elements, store_size, store_top]
  exact slice_update _ x (by omega) (by omega)

end WSDeque

/-! ## What the threads do -/

/-- The result of an operation: of a push, of a pop or a steal, of a collection. -/
inductive Answer (α : Type)
  | pushed (ok : Bool)
  | taken (removed : Option α)
  | collected

/-- Where the owner stands in `pushWSDeque` or `popWSDeque`. -/
inductive OwnerPc (α : Type)
  | idle
  | push (elem : α)
  | pushReadTop (elem : α) (b : Int)
  | pushWrite (elem : α) (b : Int)
  | pushPublish (elem : α) (b : Int)
  | pop
  | popReadTop (b : Int)
  | popEmpty (t : Int)
  | popRead (b t : Int)
  | popCas (t : Int) (removed : α)
  | popFix (t : Int) (removed : Option α)
  | done (answer : Answer α)

/-- One access of the owner.  Only the owner writes `bottom` and touches `topBound`, so
its reads of them need no step of their own. -/
def ownerStep (q : WSDeque α) : OwnerPc α → Option (WSDeque α × OwnerPc α)
  | .idle => none
  | .push elem =>
    let b := q.bottom
    let t := q.topBound
    -- the cached bound may be stale: only then is `top` read
    if b - t ≥ q.moduloSize then some (q, .pushReadTop elem b) else some (q, .pushWrite elem b)
  | .pushReadTop elem b =>
    let t := q.top
    let q := q.setTopBound t
    if b - t ≥ q.moduloSize then some (q, .done (.pushed false))
    else some (q, .pushWrite elem b)
  | .pushWrite elem b => some (q.store b elem, .pushPublish elem b)
  | .pushPublish _ b => some (q.setBottom (b + 1), .done (.pushed true))
  | .pop =>
    let b := q.bottom - 1
    some (q.setBottom b, .popReadTop b)
  | .popReadTop b =>
    let t := q.top
    let q := q.setTopBound t
    if b - t < 0 then some (q, .popEmpty t) else some (q, .popRead b t)
  | .popEmpty t => some (q.setBottom t, .done (.taken none))
  | .popRead b t =>
    let removed := q.read b
    if b - t > 0 then some (q, .done (.taken (some removed))) else some (q, .popCas t removed)
  | .popCas t removed =>
    if q.top = t then some (q.setTop (t + 1), .popFix t (some removed))
    else some (q, .popFix t none)
  | .popFix t removed =>
    some ((q.setBottom (t + 1)).setTopBound (t + 1), .done (.taken removed))
  | .done _ => none

/-- Where a thief stands in `stealWSDeque_`, or in `stealWSDeque` if it `retries`. -/
inductive ThiefPc (α : Type)
  | idle
  | readTop (retries : Bool)
  | readBottom (retries : Bool) (t : Int)
  | read (retries : Bool) (t : Int)
  | cas (retries : Bool) (t : Int) (stolen : α)
  | looksTop
  | looksBottom (t : Int)
  | done (removed : Option α)

/-- `stealWSDeque_` returns `NULL`: the loop around it asks `looksEmptyWSDeque`. -/
def ThiefPc.failed (retries : Bool) : ThiefPc α :=
  if retries then .looksTop else .done none

/-- One access of a thief. -/
def thiefStep (q : WSDeque α) : ThiefPc α → Option (WSDeque α × ThiefPc α)
  | .idle => none
  | .readTop retries => some (q, .readBottom retries q.top)
  | .readBottom retries t =>
    let b := q.bottom
    if b - t ≤ 0 then some (q, .failed retries) else some (q, .read retries t)
  | .read retries t => some (q, .cas retries t (q.read t))
  | .cas retries t stolen =>
    if q.top = t then some (q.setTop (t + 1), .done (some stolen))
    else some (q, .failed retries)
  | .looksTop => some (q, .looksBottom q.top)
  | .looksBottom t =>
    let b := q.bottom
    if b - t ≤ 0 then some (q, .done none) else some (q, .readTop true)
  | .done _ => none

end HosBoot.Rts
