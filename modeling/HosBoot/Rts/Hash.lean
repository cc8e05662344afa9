/-
  Rts/Hash.lean --- the dynamic hash tables of Hash.c.

  A table is a directory of segments of bucket chains.  Segments come from `malloc`
  without being cleared, so a bucket holds a chain only once it was written; reading any
  other cell, or a segment that was never allocated, is undefined and the model's `none`.
-/
import Mathlib.Logic.Function.Basic
import HosBoot.Foundation.LinearHash

set_option autoImplicit false

namespace HosBoot.Rts

open HosBoot.Foundation

/-- `HSEGSIZE`, the buckets of a segment. -/
abbrev hSegSize : Nat := 1024

/-- `HDIRSIZE`, the segments of the directory. -/
abbrev hDirSize : Nat := 1024

/-- `HLOAD`, the average load of a bucket. -/
abbrev hLoad : Nat := 5

/-- A hash function before it is reduced to a bucket, and the comparison of keys that goes
with it: `hashWord` and `compareWord`, `hashStr` and `compareStr`. -/
structure KeyClass (κ : Type) where
  bits : κ → Nat
  compare : κ → κ → Bool
  compare_refl : ∀ a, compare a a = true
  compare_symm : ∀ a b, compare a b = true → compare b a = true
  compare_trans : ∀ a b c, compare a b = true → compare b c = true → compare a c = true
  bits_eq : ∀ a b, compare a b = true → bits a = bits b

/-- `struct hashtable`.  Chains are lists; the cells' own storage is left out.  The other
numbers stay below the size of the directory; `kcount` is an `int` and wraps. -/
structure HashTable (κ δ : Type) where
  split : Nat
  max : Nat
  mask1 : Nat
  mask2 : Nat
  kcount : Int
  bcount : Nat
  dir : Nat → Option (Nat → Option (List (κ × δ)))

variable {κ δ : Type}

/-! ## Hashing -/

/-- The common end of `hashWord` and `hashStr`. -/
def KeyClass.hash (keys : KeyClass κ) (table : HashTable κ δ) (key : κ) : Nat :=
  let bucket := keys.bits key &&& table.mask1
  if bucket < table.split then keys.bits key &&& table.mask2 else bucket

/-- Keys that are words: `hashWord` strips the zero bits of an address. -/
def wordKeys : KeyClass UInt64 where
  bits key := key.toNat / 8
  compare a b := a = b
  compare_refl a := decide_eq_true rfl
  compare_symm a b h := decide_eq_true (of_decide_eq_true h).symm
  compare_trans a b c hab hbc :=
    decide_eq_true ((of_decide_eq_true hab).trans (of_decide_eq_true hbc))
  bits_eq a b h := by rw [of_decide_eq_true h]

/-- One turn of the loop of `hashStr`: `char` is signed and `%` rounds towards zero. -/
def hashStrStep (h : Int) (c : UInt8) : Int := (h * 128 + c.toInt8.toInt).tmod 1048583

/-- The value that `hashStr` reduces to a bucket; masking an `int` reads its 32 bits. -/
def hashStrBits (s : List UInt8) : Nat := ((s.foldl hashStrStep 0) % 2 ^ 32).toNat

/-- Keys that point to strings; `text` is the memory they point to, which the callers leave
alone while the key is in a table. -/
def strKeys (text : UInt64 → List UInt8) : KeyClass UInt64 where
  bits key := hashStrBits (text key)
  compare a b := text a = text b
  compare_refl a := decide_eq_true rfl
  compare_symm a b h := decide_eq_true (of_decide_eq_true h).symm
  compare_trans a b c hab hbc :=
    decide_eq_true ((of_decide_eq_true hab).trans (of_decide_eq_true hbc))
  bits_eq a b h := by rw [of_decide_eq_true h]

namespace HashTable

/-! ## Buckets -/

/-- `dir[segment][index]`. -/
def readBucket (table : HashTable κ δ) (bucket : Nat) : Option (List (κ × δ)) :=
  match table.dir (bucket / hSegSize) with
  | none => none
  | some segment => segment (bucket % hSegSize)

/-- `dir[segment][index] = chain`. -/
def writeBucket (table : HashTable κ δ) (bucket : Nat) (chain : List (κ × δ)) :
    Option (HashTable κ δ) :=
  match table.dir (bucket / hSegSize) with
  | none => none
  | some segment =>
    let segment := Function.update segment (bucket % hSegSize) (some chain)
    some { table with dir := Function.update table.dir (bucket / hSegSize) (some segment) }

/-- `allocSegment`. -/
def allocSegment (table : HashTable κ δ) (segment : Nat) : HashTable κ δ :=
  { table with dir := Function.update table.dir segment (some fun _ => none) }

/-! ## Growing -/

/-- `expand` steps `split`, and doubles the table when every bucket has been split. -/
def advance (table : HashTable κ δ) : HashTable κ δ :=
  let table := { table with split := table.split + 1, bcount := table.bcount + 1 }
  if table.split = table.max then
    { table with
      split := 0
      max := table.max * 2
      mask1 := table.mask2
      mask2 := table.mask2 <<< 1 ||| 1 }
  else table

/-- The loop over the chain to split: cells go to the front of the old or of the new chain. -/
def splitChain (toNew : κ → Bool) (chain : List (κ × δ)) : List (κ × δ) × List (κ × δ) :=
  chain.foldl
    (fun acc hl => if toNew hl.1 then (acc.1, hl :: acc.2) else (hl :: acc.1, acc.2)) ([], [])

/-- `expand`. -/
def expand (keys : KeyClass κ) (table : HashTable κ δ) : Option (HashTable κ δ) :=
  if table.split + table.max ≥ hDirSize * hSegSize then some table
  else
    let oldbucket := table.split
    let newbucket := table.max + table.split
    let table :=
      if newbucket % hSegSize = 0 then table.allocSegment (newbucket / hSegSize) else table
    let table := table.advance
    match table.readBucket oldbucket with
    | none => none
    | some chain =>
      let (old, new) := splitChain (fun key => keys.hash table key = newbucket) chain
      match table.writeBucket oldbucket old with
      | none => none
      | some table => table.writeBucket newbucket new

/-! ## The operations -/

/-- `lookupHashTable`; `NULL` is the inner `none`. -/
def lookup (keys : KeyClass κ) (table : HashTable κ δ) (key : κ) : Option (Option δ) :=
  match table.readBucket (keys.hash table key) with
  | none => none
  | some chain => some ((chain.find? fun hl => keys.compare hl.1 key).map Prod.snd)

/-- `insertHashTable`. -/
def insert (keys : KeyClass κ) (table : HashTable κ δ) (key : κ) (data : δ) :
    Option (HashTable κ δ) :=
  let table : HashTable κ δ := { table with kcount := Int.bmod (table.kcount + 1) (2 ^ 32) }
  match if table.kcount ≥ hLoad * table.bcount then table.expand keys else some table with
  | none => none
  | some table =>
    let bucket := keys.hash table key
    match table.readBucket bucket with
    | none => none
    | some chain => table.writeBucket bucket ((key, data) :: chain)

/-- The loop of `removeHashTable`: unlink the first cell that matches. -/
def unlink (matching : κ × δ → Bool) : List (κ × δ) → Option (δ × List (κ × δ))
  | [] => none
  | hl :: rest =>
    if matching hl then some (hl.2, rest)
    else (unlink matching rest).map fun found => (found.1, hl :: found.2)

/-- The cells that `removeHashTable` looks for; a `data` of `NULL` fits any cell of the key. -/
def sought [DecidableEq δ] (keys : KeyClass κ) (key : κ) (data : Option δ) (hl : κ × δ) : Bool :=
  keys.compare hl.1 key && (data = none || data = some hl.2)

/-- `removeHashTable`.  Its `ASSERT(data == NULL)`, where the cell is not found, is in debug
builds only and left out: a datum that is not in the table is answered with `NULL`. -/
def remove [DecidableEq δ] (keys : KeyClass κ) (table : HashTable κ δ) (key : κ)
    (data : Option δ) : Option (HashTable κ δ × Option δ) :=
  let bucket := keys.hash table key
  match table.readBucket bucket with
  | none => none
  | some chain =>
    match unlink (sought keys key data) chain with
    | none => some (table, none)
    | some (found, chain) =>
      match table.writeBucket bucket chain with
      | none => none
      | some table => some ({ table with kcount := Int.bmod (table.kcount - 1) (2 ^ 32) }, some found)

/-- `allocHashTable_`: one segment, all its buckets cleared. -/
def alloc : HashTable κ δ :=
  { split := 0
    max := hSegSize
    mask1 := hSegSize - 1
    mask2 := 2 * hSegSize - 1
    kcount := 0
    bcount := hSegSize
    dir := Function.update (fun _ => none) 0 (some fun _ => some []) }

/-- The inner loop of `freeHashTable`, downwards from `index`. -/
def freeBuckets (segment : Nat → Option (List (κ × δ))) : Nat → Option (List δ)
  | 0 => (segment 0).map fun chain => chain.map Prod.snd
  | index + 1 =>
    match segment (index + 1) with
    | none => none
    | some chain =>
      (freeBuckets segment index).map fun freed => chain.map Prod.snd ++ freed

/-- The outer loop, downwards from `segment`; the segments below the first are full. -/
def freeSegments (table : HashTable κ δ) : Nat → Nat → Option (List δ)
  | 0, index =>
    match table.dir 0 with
    | none => none
    | some buckets => freeBuckets buckets index
  | segment + 1, index =>
    match table.dir (segment + 1) with
    | none => none
    | some buckets =>
      match freeBuckets buckets index with
      | none => none
      | some freed =>
        (freeSegments table segment (hSegSize - 1)).map fun rest => freed ++ rest

/-- `freeHashTable`: the data it passes to `freeDataFun`, in order. -/
def free (table : HashTable κ δ) : Option (List δ) :=
  freeSegments table ((table.max + table.split - 1) / hSegSize)
    ((table.max + table.split - 1) % hSegSize)

end HashTable

end HosBoot.Rts
