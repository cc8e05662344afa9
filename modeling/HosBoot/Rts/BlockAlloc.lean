/-
  Rts/BlockAlloc.lean --- the block allocator of sm/BlockAlloc.c.

  Pointers to descriptors are counted in descriptors and pointers to blocks in blocks, so that
  `bd + 1` is the next one; a megablock is its address over `MBLOCK_SIZE`.  `NULL` is `none`.
  A `nat` and the field `blocks` have 32 bits, a `W_` has 64.  Every loop over a linked list
  gets as many turns as the allocator has blocks.  What the code calls an error (`barf`,
  `ASSERT`) and a load from `NULL` are an `error` here.  `fresh` is the megablock that the
  operating system hands out when it is asked.
-/
import Mathlib.Algebra.GroupWithZero.Nat
import Mathlib.Data.List.Nodup
import HosBoot.Foundation.LinkedList

set_option autoImplicit false

namespace HosBoot.Rts

open HosBoot.Foundation.LinkedList

/-- `MAX_FREE_LIST`. -/
abbrev maxFreeList : Nat := 9

/-- `bd->free`: zero, -1, or a pointer into a block. -/
inductive FreePtr
  | zero
  | minusOne
  | within (block : Nat)
deriving DecidableEq

/-- The fields of `bdescr` that the allocator uses; `back` is `u.back`. -/
structure BDescr where
  start : Nat
  free : FreePtr
  link : Option Nat
  back : Option Nat
  blocks : UInt32

/-- The allocator's variables, the descriptors, and the megablock map of sm/MBlock.c. -/
structure BlockAlloc where
  bdescr : Nat → BDescr
  freeList : Nat → Option Nat
  freeMBlockList : Option Nat
  nAllocBlocks : UInt64
  hwAllocBlocks : UInt64
  heapAlloced : Nat → Bool
  mblocksAllocated : UInt64

/-- `ASSERT`. -/
def assert (cond : Bool) (text : String) : Except String Unit :=
  if cond then .ok () else .error text

/-! ## Block.h -/

/-- The sizes and addresses that Block.h defines, with what the allocator relies on.
`MBLOCK_ROUND_DOWN` is `mblockOfBdescr` on a pointer to a descriptor and `mblockOfBlock` on one
to a block.  At most `maxMBlocks` megablocks are in use at a time, and a group of them has a
number of blocks that fits in 32 bits. -/
structure BlockSizes where
  blocksPerMBlock : Nat
  mblockGroupBlocks : Nat → Nat
  blocksToMBlocks : Nat → Nat
  maxMBlocks : Nat
  firstBdescr : Nat → Nat
  lastBdescr : Nat → Nat
  firstBlock : Nat → Nat
  mblockOfBdescr : Nat → Nat
  mblockOfBlock : Nat → Nat
  one_lt_perMBlock : 1 < blocksPerMBlock
  perMBlock_lt : blocksPerMBlock < 2 ^ maxFreeList
  group_one : mblockGroupBlocks 1 = blocksPerMBlock
  group_lt : ∀ k l, 0 < k → k < l → mblockGroupBlocks k < mblockGroupBlocks l
  toMBlocks_group : ∀ k, 0 < k → blocksToMBlocks (mblockGroupBlocks k) = k
  toMBlocks_pos : ∀ n, blocksPerMBlock ≤ n → 0 < blocksToMBlocks n
  le_group : ∀ n, blocksPerMBlock ≤ n → n ≤ mblockGroupBlocks (blocksToMBlocks n)
  group_fits : mblockGroupBlocks maxMBlocks < 2 ^ 32
  lastBdescr_eq : ∀ m, lastBdescr m = firstBdescr m + (blocksPerMBlock - 1)
  mblockOfBdescr_eq : ∀ m i, i < blocksPerMBlock → mblockOfBdescr (firstBdescr m + i) = m
  mblockOfBlock_eq : ∀ m i, i < blocksPerMBlock → mblockOfBlock (firstBlock m + i) = m
  firstBlock_lt : ∀ m k, m < k → firstBlock m + blocksPerMBlock ≤ firstBlock k
  group_inside : ∀ m k i, 0 < k → i < mblockGroupBlocks k →
    m ≤ mblockOfBdescr (firstBdescr m + i) ∧ mblockOfBdescr (firstBdescr m + i) < m + k

/-- Memory in which only `link` and `back` of some descriptors have changed. -/
structure Relinks (changed : List Nat) (before after : Nat → BDescr) : Prop where
  fields : ∀ x, after x = { before x with link := (after x).link, back := (after x).back }
  other : ∀ x, x ∉ changed → after x = before x

/-- The doubly-linked list from a pointer on. -/
def FreeListAt (bdescr : Nat → BDescr) (p : Option Nat) (l : List Nat) : Prop :=
  DblLinked (fun x => (bdescr x).link) (fun x => (bdescr x).back) p l

/-- Block.h: also `dbl_link_onto(bd, list)` and `dbl_link_remove(bd, list)`, as functions of
memory, `*list` and `bd`. -/
structure BlockHeader extends BlockSizes where
  dblLinkOnto : (Nat → BDescr) → Option Nat → Nat → (Nat → BDescr) × Option Nat
  dblLinkRemove : (Nat → BDescr) → Option Nat → Nat → (Nat → BDescr) × Option Nat
  onto_list : ∀ bdescr p l bd, FreeListAt bdescr p l → l.Nodup → bd ∉ l →
    FreeListAt (dblLinkOnto bdescr p bd).1 (dblLinkOnto bdescr p bd).2 (bd :: l)
  onto_relinks : ∀ bdescr p l bd, FreeListAt bdescr p l →
    Relinks (bd :: l) bdescr (dblLinkOnto bdescr p bd).1
  remove_list : ∀ bdescr p l bd, FreeListAt bdescr p l → l.Nodup → bd ∈ l →
    FreeListAt (dblLinkRemove bdescr p bd).1 (dblLinkRemove bdescr p bd).2 (l.erase bd)
  remove_relinks : ∀ bdescr p l bd, FreeListAt bdescr p l → bd ∈ l →
    Relinks l bdescr (dblLinkRemove bdescr p bd).1

/-! ## Logarithms -/

/-- The loop of `log_2_ceil`, with `k` turns left. -/
def log2CeilLoop (n : Nat) : Nat → Nat → Nat → Nat
  | 0, i, _ => i
  | k + 1, i, x => if x ≥ n then i else log2CeilLoop n k (i + 1) (x <<< 1)

/-- `log_2_ceil`. -/
def log2Ceil (n : Nat) : Nat := log2CeilLoop n maxFreeList 0 1

/-- The loop of `log_2`, with `k` turns left. -/
def log2Loop : Nat → Nat → Nat → Nat
  | 0, i, _ => i
  | k + 1, i, x => if x >>> 1 = 0 then i else log2Loop k (i + 1) (x >>> 1)

/-- `log_2`. -/
def log2 (n : Nat) : Nat := log2Loop maxFreeList 0 n

namespace BlockAlloc

/-- `initBlockAllocator`; no megablock has been asked for. -/
def initBlockAllocator (memory : Nat → BDescr) : BlockAlloc :=
  { bdescr := memory
    freeList := fun _ => none
    freeMBlockList := none
    nAllocBlocks := 0
    hwAllocBlocks := 0
    heapAlloced := fun _ => false
    mblocksAllocated := 0 }

/-- A store to the fields of one descriptor. -/
def setDescr (s : BlockAlloc) (bd : Nat) (f : BDescr → BDescr) : BlockAlloc :=
  { s with bdescr := Function.update s.bdescr bd (f (s.bdescr bd)) }

theorem setDescr_same (s : BlockAlloc) (bd : Nat) (f : BDescr → BDescr) :
    (s.setDescr bd f).bdescr bd = f (s.bdescr bd) :=
  Function.update_self bd _ s.bdescr

theorem setDescr_ne (s : BlockAlloc) {bd x : Nat} (f : BDescr → BDescr) (hne : x ≠ bd) :
    (s.setDescr bd f).bdescr x = s.bdescr x :=
  Function.update_of_ne hne _ s.bdescr

/-- `bd->blocks` as a number. -/
def blocks (s : BlockAlloc) (bd : Nat) : Nat := (s.bdescr bd).blocks.toNat

/-- `bd->blocks = n`, which keeps the low 32 bits. -/
def setBlocks (s : BlockAlloc) (bd n : Nat) : BlockAlloc :=
  s.setDescr bd fun d => { d with blocks := UInt32.ofNat n }

/-- `bd->link = p`. -/
def setLink (s : BlockAlloc) (bd : Nat) (p : Option Nat) : BlockAlloc :=
  s.setDescr bd fun d => { d with link := p }

/-- `n_alloc_blocks += n`, and the high-water mark. -/
def countAlloc (s : BlockAlloc) (n : UInt64) : BlockAlloc :=
  { s with
    nAllocBlocks := s.nAllocBlocks + n
    hwAllocBlocks :=
      if s.nAllocBlocks + n > s.hwAllocBlocks then s.nAllocBlocks + n else s.hwAllocBlocks }

/-- `tail_of`. -/
def tailOf (s : BlockAlloc) (bd : Nat) : Nat := bd + s.blocks bd - 1

/-- `setup_tail`. -/
def setupTail (s : BlockAlloc) (bd : Nat) : BlockAlloc :=
  if s.tailOf bd ≠ bd then
    s.setDescr (s.tailOf bd) fun d => { d with blocks := 0, free := .zero, link := some bd }
  else s

/-- `while (ln < lnmax && free_list[ln] == NULL) ln++`, with `k` turns left. -/
def skipEmpty (s : BlockAlloc) : Nat → Nat → Nat
  | 0, ln => ln
  | k + 1, ln => if s.freeList ln = none then s.skipEmpty k (ln + 1) else ln

/-- The loop of `initGroup` sets the descriptors behind the head. -/
def initRest (s : BlockAlloc) (head : Nat) : BlockAlloc :=
  { s with
    bdescr := fun bd =>
      if head < bd ∧ bd < head + s.blocks head then
        { s.bdescr bd with free := .zero, blocks := 0, link := some head }
      else s.bdescr bd }

/-- `initGroup`. -/
def initGroup (s : BlockAlloc) (head : Nat) : BlockAlloc :=
  (s.setDescr head fun d => { d with free := .within d.start, link := none }).initRest head

/-! ## Megablocks -/

/-- `getMBlocks`, when the operating system answers with `fresh`. -/
def getMBlocks (s : BlockAlloc) (n : UInt32) (fresh : Nat) : BlockAlloc :=
  { s with
    heapAlloced := fun m => if fresh ≤ m ∧ m < fresh + n.toNat then true else s.heapAlloced m
    mblocksAllocated := s.mblocksAllocated + n.toUInt64 }

/-- `freeMBlocks`. -/
def freeMBlocks (s : BlockAlloc) (mblock : Nat) (n : UInt32) : BlockAlloc :=
  { s with
    heapAlloced := fun m => if mblock ≤ m ∧ m < mblock + n.toNat then false else s.heapAlloced m
    mblocksAllocated := s.mblocksAllocated - n.toUInt64 }

variable (H : BlockHeader)

/-- The blocks that the allocator has: no list is longer. -/
def turns (s : BlockAlloc) : Nat := s.mblocksAllocated.toNat * H.blocksPerMBlock

/-- `initMBlock`: the loop sets the `start` of every descriptor of the megablock. -/
def initMBlock (s : BlockAlloc) (mblock : Nat) : BlockAlloc :=
  { s with
    bdescr := fun bd =>
      if H.firstBdescr mblock ≤ bd ∧ bd < H.firstBdescr mblock + H.blocksPerMBlock then
        { s.bdescr bd with start := H.firstBlock mblock + (bd - H.firstBdescr mblock) }
      else s.bdescr bd }

/-! ## Free lists -/

/-- `dbl_link_onto(bd, &free_list[ln])`. -/
def dblLinkOnto (s : BlockAlloc) (bd ln : Nat) : Except String BlockAlloc :=
  if ln < maxFreeList then
    let stored := H.dblLinkOnto s.bdescr (s.freeList ln) bd
    .ok { s with bdescr := stored.1, freeList := Function.update s.freeList ln stored.2 }
  else .error "free_list index"

/-- `dbl_link_remove(bd, &free_list[ln])`. -/
def dblLinkRemove (s : BlockAlloc) (bd ln : Nat) : Except String BlockAlloc :=
  if ln < maxFreeList then
    let stored := H.dblLinkRemove s.bdescr (s.freeList ln) bd
    .ok { s with bdescr := stored.1, freeList := Function.update s.freeList ln stored.2 }
  else .error "free_list index"

/-- `free_list_insert`. -/
def freeListInsert (s : BlockAlloc) (bd : Nat) : Except String BlockAlloc := do
  assert (s.blocks bd < H.blocksPerMBlock) "bd->blocks < BLOCKS_PER_MBLOCK"
  s.dblLinkOnto H bd (log2 (s.blocks bd))

/-- `split_free_block`. -/
def splitFreeBlock (s : BlockAlloc) (bd n ln : Nat) : Except String (BlockAlloc × Nat) := do
  assert (s.blocks bd > n) "bd->blocks > n"
  let s ← s.dblLinkRemove H bd ln
  let fg := bd + s.blocks bd - n
  let s := s.setBlocks fg n
  let s := s.setBlocks bd (s.blocks bd - n)
  let s := s.setupTail bd
  let s ← s.dblLinkOnto H bd (log2 (s.blocks bd))
  return (s, fg)

/-! ## Groups of megablocks -/

/-- What the search of `alloc_mega_group` ends with; `exact` also has the group before. -/
inductive MegaFit
  | exact (prev : Option Nat) (bd : Nat)
  | best (bd : Nat)
  | nothing

/-- The search of `alloc_mega_group`. -/
def megaFit (s : BlockAlloc) (n : UInt32) :
    Nat → Option Nat → Option Nat → Option Nat → Except String MegaFit
  | _, _, none, some best => .ok (.best best)
  | _, _, none, none => .ok .nothing
  | 0, _, some _, _ => .error "free_mblock_list"
  | k + 1, prev, some bd, best =>
    if (s.bdescr bd).blocks = n then .ok (.exact prev bd)
    else
      let best :=
        if (s.bdescr bd).blocks > n then
          match best with
          | none => some bd
          | some b => if (s.bdescr bd).blocks < (s.bdescr b).blocks then some bd else some b
        else best
      s.megaFit n k (some bd) (s.bdescr bd).link best

/-- The stores that take a group off `free_mblock_list`. -/
def unlinkMega (s : BlockAlloc) (prev : Option Nat) (bd : Nat) : BlockAlloc :=
  match prev with
  | some prev => s.setLink prev (s.bdescr bd).link
  | none => { s with freeMBlockList := (s.bdescr bd).link }

/-- `alloc_mega_group`. -/
def allocMegaGroup (s : BlockAlloc) (mblocks : UInt32) (fresh : Nat) :
    Except String (BlockAlloc × Nat) := do
  let n := UInt32.ofNat (H.mblockGroupBlocks mblocks.toNat)
  match ← s.megaFit n (s.turns H) none s.freeMBlockList none with
  | .exact prev bd => return ((s.unlinkMega prev bd).initGroup bd, bd)
  | .best best =>
    let bestMBlocks := UInt64.ofNat (H.blocksToMBlocks (s.blocks best))
    let left := (bestMBlocks - mblocks.toUInt64).toNat
    let bd := H.firstBdescr (H.mblockOfBdescr best + left)
    let s := s.setBlocks best (H.mblockGroupBlocks left)
    let s := s.initMBlock H (H.mblockOfBdescr bd)
    return (s.setBlocks bd (H.mblockGroupBlocks mblocks.toNat), bd)
  | .nothing =>
    let s := (s.getMBlocks mblocks fresh).initMBlock H fresh
    let bd := H.firstBdescr fresh
    return (s.setBlocks bd (H.mblockGroupBlocks mblocks.toNat), bd)

/-- `coalesce_mblocks`. -/
def coalesceMBlocks (s : BlockAlloc) (p : Nat) : BlockAlloc × Option Nat :=
  match (s.bdescr p).link with
  | none => (s, none)
  | some q =>
    if H.mblockOfBdescr q = H.mblockOfBdescr p + H.blocksToMBlocks (s.blocks p) then
      let s := s.setBlocks p (H.mblockGroupBlocks
        (H.blocksToMBlocks (s.blocks p) + H.blocksToMBlocks (s.blocks q)))
      (s.setLink p (s.bdescr q).link, some p)
    else (s, some q)

/-- The loop of `free_mega_group` finds the group to link behind. -/
def findPlace (s : BlockAlloc) (mg : Nat) :
    Nat → Option Nat → Option Nat → Except String (Option Nat)
  | _, prev, none => .ok prev
  | 0, _, some _ => .error "free_mblock_list"
  | k + 1, prev, some bd =>
    if (s.bdescr bd).start < (s.bdescr mg).start then
      s.findPlace mg k (some bd) (s.bdescr bd).link
    else .ok prev

/-- `free_mega_group`. -/
def freeMegaGroup (s : BlockAlloc) (mg : Nat) : Except String BlockAlloc := do
  match ← s.findPlace mg (s.turns H) none s.freeMBlockList with
  | some prev =>
    let s := s.setLink mg (s.bdescr prev).link
    let s := s.setLink prev (some mg)
    match s.coalesceMBlocks H prev with
    | (s, some mg) => return (s.coalesceMBlocks H mg).1
    | (_, none) => throw "NULL group"
  | none =>
    let s := s.setLink mg s.freeMBlockList
    let s := { s with freeMBlockList := some mg }
    return (s.coalesceMBlocks H mg).1

/-! ## Freeing a group -/

/-- `freeGroup` looks at the group behind `p`; `none` when the megablock became free. -/
def coalesceForwards (s : BlockAlloc) (p : Nat) : Except String (BlockAlloc × Option Nat) := do
  let next := p + s.blocks p
  if next ≤ H.lastBdescr (H.mblockOfBdescr p) ∧ (s.bdescr next).free = .minusOne then
    let s := s.setBlocks p (s.blocks p + s.blocks next)
    let s ← s.dblLinkRemove H next (log2 (s.blocks next))
    if s.blocks p = H.blocksPerMBlock then
      let s ← s.freeMegaGroup H p
      return (s, none)
    return (s.setupTail p, some p)
  else return (s, some p)

/-- From the last descriptor of a group to its head. -/
def findHead (s : BlockAlloc) (bd : Nat) : Except String Nat :=
  if s.blocks bd = 0 then
    match (s.bdescr bd).link with
    | some head => .ok head
    | none => .error "NULL link"
  else .ok bd

/-- `freeGroup` looks at the group before `p`. -/
def coalesceBackwards (s : BlockAlloc) (p : Nat) : Except String (BlockAlloc × Option Nat) := do
  if p ≠ H.firstBdescr (H.mblockOfBdescr p) then
    let prev ← s.findHead (p - 1)
    if (s.bdescr prev).free = .minusOne then
      let s ← s.dblLinkRemove H prev (log2 (s.blocks prev))
      let s := s.setBlocks prev (s.blocks prev + s.blocks p)
      if s.blocks prev ≥ H.blocksPerMBlock then
        let s ← s.freeMegaGroup H prev
        return (s, none)
      return (s, some prev)
    else return (s, some p)
  else return (s, some p)

/-- `freeGroup`. -/
def freeGroup (s : BlockAlloc) (p : Nat) : Except String BlockAlloc := do
  assert ((s.bdescr p).free ≠ .minusOne) "p->free != (P_)-1"
  let s := s.setDescr p fun d => { d with free := .minusOne }
  if s.blocks p = 0 then throw "freeGroup: block size is zero"
  if s.blocks p ≥ H.blocksPerMBlock then
    let mblocks := UInt32.ofNat (H.blocksToMBlocks (s.blocks p))
    assert (s.blocks p = H.mblockGroupBlocks mblocks.toNat)
      "p->blocks == MBLOCK_GROUP_BLOCKS(mblocks)"
    let counted := mblocks.toUInt64 * UInt64.ofNat H.blocksPerMBlock
    let s := { s with nAllocBlocks := s.nAllocBlocks - counted }
    s.freeMegaGroup H p
  else
    let counted := (s.bdescr p).blocks.toUInt64
    assert (s.nAllocBlocks ≥ counted) "n_alloc_blocks >= p->blocks"
    let s := { s with nAllocBlocks := s.nAllocBlocks - counted }
    match ← s.coalesceForwards H p with
    | (s, none) => return s
    | (s, some p) =>
      match ← s.coalesceBackwards H p with
      | (s, none) => return s
      | (s, some p) => (s.setupTail p).freeListInsert H p

/-- The loop of `freeChain`. -/
def freeChainLoop (s : BlockAlloc) : Nat → Option Nat → Except String BlockAlloc
  | _, none => .ok s
  | 0, some _ => .error "freeChain"
  | k + 1, some bd => do
    let nextBd := (s.bdescr bd).link
    let s ← s.freeGroup H bd
    s.freeChainLoop k nextBd

/-- `freeChain`. -/
def freeChain (s : BlockAlloc) (bd : Option Nat) : Except String BlockAlloc :=
  s.freeChainLoop H (s.turns H) bd

/-! ## Allocating a group -/

/-- `allocGroup` when no free group is large enough: a new megablock, whose rest goes on a
free list. -/
def allocFromMBlock (s : BlockAlloc) (n : UInt64) (fresh : Nat) :
    Except String (BlockAlloc × Nat) := do
  let (s, bd) ← s.allocMegaGroup H 1 fresh
  let s := (s.setBlocks bd n.toNat).initGroup bd
  let rem := bd + n.toNat
  let s := (s.setBlocks rem (H.blocksPerMBlock - n.toNat)).initGroup rem
  let s := { s with nAllocBlocks := s.nAllocBlocks + (s.bdescr rem).blocks.toUInt64 }
  let s ← s.freeGroup H rem
  return (s, bd)

/-- `allocGroup`. -/
def allocGroup (s : BlockAlloc) (n : UInt64) (fresh : Nat) :
    Except String (BlockAlloc × Nat) := do
  if n = 0 then throw "allocGroup: requested zero blocks"
  if n.toNat ≥ H.blocksPerMBlock then
    let mblocks := UInt32.ofNat (H.blocksToMBlocks n.toNat)
    let s := s.countAlloc (mblocks.toUInt64 * UInt64.ofNat H.blocksPerMBlock)
    let (s, bd) ← s.allocMegaGroup H mblocks fresh
    return (s.initGroup bd, bd)
  let s := s.countAlloc n
  let ln := s.skipEmpty (maxFreeList - log2Ceil n.toNat) (log2Ceil n.toNat)
  if ln = maxFreeList then s.allocFromMBlock H n fresh
  else
    match s.freeList ln with
    | none => throw "NULL group"
    | some bd =>
      if s.blocks bd = n.toNat then
        let s ← s.dblLinkRemove H bd ln
        return (s.initGroup bd, bd)
      else if s.blocks bd > n.toNat then
        let (s, fg) ← s.splitFreeBlock H bd n.toNat ln
        assert (s.blocks fg = n.toNat) "bd->blocks == n"
        return (s.initGroup fg, fg)
      else throw "allocGroup: free list corrupted"

/-- `allocLargeChunk`. -/
def allocLargeChunk (s : BlockAlloc) (least most : UInt32) (fresh : Nat) :
    Except String (BlockAlloc × Nat) := do
  if least.toNat ≥ H.blocksPerMBlock then s.allocGroup H most.toUInt64 fresh
  else
    let lnmax := log2Ceil most.toNat
    let ln := s.skipEmpty (lnmax - log2Ceil least.toNat) (log2Ceil least.toNat)
    if ln = lnmax then s.allocGroup H most.toUInt64 fresh
    else
      match s.freeList ln with
      | none => throw "NULL group"
      | some bd =>
        if s.blocks bd ≤ most.toNat then
          let s ← s.dblLinkRemove H bd ln
          let s := s.initGroup bd
          return (s.countAlloc (s.bdescr bd).blocks.toUInt64, bd)
        else
          let (s, fg) ← s.splitFreeBlock H bd most.toNat ln
          assert (s.blocks fg = most.toNat) "bd->blocks == max"
          let s := s.initGroup fg
          return (s.countAlloc (s.bdescr fg).blocks.toUInt64, fg)

/-! ## Returning memory and counting it -/

/-- The loop of `returnMemoryToOS`. -/
def returnLoop (s : BlockAlloc) : Nat → UInt32 → Option Nat → Except String BlockAlloc
  | _, _, none => .ok { s with freeMBlockList := none }
  | 0, n, some bd =>
    if n = 0 then .ok { s with freeMBlockList := some bd } else .error "free_mblock_list"
  | k + 1, n, some bd =>
    if n = 0 then .ok { s with freeMBlockList := some bd }
    else
      let size := UInt32.ofNat (H.blocksToMBlocks (s.blocks bd))
      let mblock := H.mblockOfBlock (s.bdescr bd).start
      if size > n then
        let newSize := size - n
        let s := s.setBlocks bd (H.mblockGroupBlocks newSize.toNat)
        .ok { s.freeMBlocks (mblock + newSize.toNat) n with freeMBlockList := some bd }
      else (s.freeMBlocks mblock size).returnLoop k (n - size) (s.bdescr bd).link

/-- `returnMemoryToOS`. -/
def returnMemoryToOS (s : BlockAlloc) (n : UInt32) : Except String BlockAlloc :=
  s.returnLoop H (s.turns H) n s.freeMBlockList

/-- `check_tail`. -/
def checkTail (s : BlockAlloc) (bd : Nat) : Bool :=
  let tail := s.bdescr (s.tailOf bd)
  s.tailOf bd = bd || (tail.blocks = 0 && tail.free = .zero && tail.link = some bd)

/-- What `checkFreeListSanity` asserts of a group on free list `ln`, behind `prev`. -/
def checkGroup (s : BlockAlloc) (ln : Nat) (prev : Option Nat) (bd : Nat) : Bool :=
  let blocks := s.blocks bd
  (s.bdescr bd).free = .minusOne && 0 < blocks && blocks < H.blocksPerMBlock &&
    1 <<< ln ≤ blocks && blocks ≤ (1 <<< ln) * 2 - 1 && (s.bdescr bd).link ≠ some bd &&
    s.checkTail bd && (s.bdescr bd).back = prev &&
    (H.lastBdescr (H.mblockOfBdescr bd) < bd + blocks ||
      (s.bdescr (bd + blocks)).free ≠ .minusOne)

/-- The loop of `checkFreeListSanity` over free list `ln`. -/
def checkFreeList (s : BlockAlloc) (ln : Nat) : Nat → Option Nat → Option Nat → Bool
  | _, _, none => true
  | 0, _, some _ => false
  | k + 1, prev, some bd =>
    s.checkGroup H ln prev bd && s.checkFreeList ln k (some bd) (s.bdescr bd).link

/-- What `checkFreeListSanity` asserts of a group on `free_mblock_list`. -/
def checkMegaGroup (s : BlockAlloc) (bd : Nat) : Bool :=
  let blocks := s.blocks bd
  (s.bdescr bd).link ≠ some bd && H.blocksPerMBlock ≤ blocks &&
    H.mblockGroupBlocks (H.blocksToMBlocks blocks) = blocks &&
    match (s.bdescr bd).link with
    | none => true
    | some next =>
      (s.bdescr bd).start < (s.bdescr next).start &&
        H.mblockOfBdescr next ≠ H.mblockOfBdescr bd + H.blocksToMBlocks blocks

/-- The loop of `checkFreeListSanity` over `free_mblock_list`. -/
def checkMegaGroups (s : BlockAlloc) : Nat → Option Nat → Bool
  | _, none => true
  | 0, some _ => false
  | k + 1, some bd => s.checkMegaGroup H bd && s.checkMegaGroups k (s.bdescr bd).link

/-- `checkFreeListSanity`. -/
def checkFreeListSanity (s : BlockAlloc) : Bool :=
  ((List.range maxFreeList).all fun ln =>
      s.checkFreeList H ln (s.turns H) none (s.freeList ln)) &&
    s.checkMegaGroups H (s.turns H) s.freeMBlockList

/-- A loop of `countFreeList`, which adds up `size` over a list. -/
def countList (s : BlockAlloc) (size : UInt32 → UInt64) :
    Nat → UInt64 → Option Nat → Except String UInt64
  | _, total, none => .ok total
  | 0, _, some _ => .error "countFreeList"
  | k + 1, total, some bd =>
    s.countList size k (total + size (s.bdescr bd).blocks) (s.bdescr bd).link

/-- `countFreeList`. -/
def countFreeList (s : BlockAlloc) : Except String UInt64 := do
  let total ← (List.range maxFreeList).foldlM
    (fun total ln => s.countList UInt32.toUInt64 (s.turns H) total (s.freeList ln)) 0
  s.countList (fun blocks => UInt64.ofNat (H.blocksPerMBlock * H.blocksToMBlocks blocks.toNat))
    (s.turns H) total s.freeMBlockList

end BlockAlloc

end HosBoot.Rts
