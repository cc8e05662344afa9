/-
  Rts/BlockModel.lean --- the block allocator with its lists as lists.

  The model of Rts/BlockAlloc.lean that the proofs are about.  Block descriptors are numbered
  so that megablock `m` holds the numbers from `m * BLOCKS_PER_MBLOCK`; the block of a
  descriptor has the descriptor's number.  Free lists are lists of the numbers of heads, so
  that `link` is only kept where it leads to a head, and the numbers of blocks are unbounded.
-/
import Mathlib.Algebra.BigOperators.Group.Finset.Basic
import Mathlib.Algebra.GroupWithZero.Nat
import HosBoot.Rts.BlockAlloc

set_option autoImplicit false

namespace HosBoot.Rts

/-! ## Numbers of blocks -/

namespace BlockSizes

variable (L : BlockSizes)

theorem perMBlock_pos : 0 < L.blocksPerMBlock := Nat.lt_trans Nat.one_pos L.one_lt_perMBlock

/-- The address of the descriptor with a number. -/
def bdescrAt (a : Nat) : Nat :=
  L.firstBdescr (a / L.blocksPerMBlock) + a % L.blocksPerMBlock

/-- The address of the block with a number. -/
def blockAt (a : Nat) : Nat := L.firstBlock (a / L.blocksPerMBlock) + a % L.blocksPerMBlock

theorem mblockOfBdescr_bdescrAt (a : Nat) :
    L.mblockOfBdescr (L.bdescrAt a) = a / L.blocksPerMBlock :=
  L.mblockOfBdescr_eq _ _ (Nat.mod_lt a L.perMBlock_pos)

theorem mblockOfBlock_blockAt (a : Nat) :
    L.mblockOfBlock (L.blockAt a) = a / L.blocksPerMBlock :=
  L.mblockOfBlock_eq _ _ (Nat.mod_lt a L.perMBlock_pos)

/-- Different descriptors have different addresses. -/
theorem bdescrAt_inj {a b : Nat} (h : L.bdescrAt a = L.bdescrAt b) : a = b := by
  have hdiv := congrArg L.mblockOfBdescr h
  rw [L.mblockOfBdescr_bdescrAt, L.mblockOfBdescr_bdescrAt] at hdiv
  unfold bdescrAt at h
  rw [hdiv] at h
  rw [← Nat.div_add_mod' a L.blocksPerMBlock, ← Nat.div_add_mod' b L.blocksPerMBlock, hdiv]
  omega

/-- Blocks have their addresses in the order of their numbers. -/
theorem blockAt_lt {a b : Nat} : L.blockAt a < L.blockAt b ↔ a < b := by
  have hmono : ∀ {x y : Nat}, x < y → L.blockAt x < L.blockAt y := by
    intro x y hxy
    have hx := Nat.mod_lt x L.perMBlock_pos
    have hsplit := Nat.div_add_mod' x L.blocksPerMBlock
    have hsplit' := Nat.div_add_mod' y L.blocksPerMBlock
    unfold blockAt
    rcases Nat.eq_or_lt_of_le (Nat.div_le_div_right (c := L.blocksPerMBlock) (Nat.le_of_lt hxy))
      with heq | hlt
    · rw [heq] at hsplit ⊢
      omega
    · have hblock := L.firstBlock_lt _ _ hlt
      omega
  refine ⟨fun h => ?_, hmono⟩
  rcases Nat.lt_trichotomy a b with hlt | rfl | hgt
  · exact hlt
  · exact absurd h (Nat.lt_irrefl _)
  · exact absurd h (Nat.not_lt.mpr (Nat.le_of_lt (hmono hgt)))

/-- The descriptors that follow one in its megablock. -/
theorem bdescrAt_add {a i : Nat} (h : a % L.blocksPerMBlock + i < L.blocksPerMBlock) :
    L.bdescrAt (a + i) = L.bdescrAt a + i := by
  have hsum : a + i = L.blocksPerMBlock * (a / L.blocksPerMBlock) +
      (a % L.blocksPerMBlock + i) := by
    rw [← Nat.add_assoc, Nat.div_add_mod]
  unfold bdescrAt
  rw [hsum, Nat.mul_add_div L.perMBlock_pos, Nat.div_eq_of_lt h, Nat.add_zero,
    Nat.mul_add_mod, Nat.mod_eq_of_lt h, Nat.add_assoc]

end BlockSizes

/-- A descriptor; `start` is an address and `link` the number of a head. -/
structure ModelDescr where
  start : Nat
  free : FreePtr
  link : Option Nat
  blocks : Nat

/-- The allocator's variables, with the numbers of the heads on each list. -/
structure BlockModel where
  bdescr : Nat → ModelDescr
  freeList : Nat → List Nat
  freeMBlockList : List Nat
  nAllocBlocks : Nat
  hwAllocBlocks : Nat
  heapAlloced : Nat → Bool
  mblocksAllocated : Nat

namespace BlockModel

/-- `initBlockAllocator`; no megablock has been asked for. -/
def initBlockAllocator (memory : Nat → ModelDescr) : BlockModel :=
  { bdescr := memory
    freeList := fun _ => []
    freeMBlockList := []
    nAllocBlocks := 0
    hwAllocBlocks := 0
    heapAlloced := fun _ => false
    mblocksAllocated := 0 }

/-- A write to the fields of one descriptor. -/
def setDescr (s : BlockModel) (bd : Nat) (f : ModelDescr → ModelDescr) : BlockModel :=
  { s with bdescr := Function.update s.bdescr bd (f (s.bdescr bd)) }

/-- `bd->blocks = n`; the descriptor becomes a head. -/
def setBlocks (s : BlockModel) (bd n : Nat) : BlockModel :=
  s.setDescr bd fun d => { d with blocks := n, link := none }

/-- `n_alloc_blocks += n`, and the high-water mark. -/
def countAlloc (s : BlockModel) (n : Nat) : BlockModel :=
  { s with
    nAllocBlocks := s.nAllocBlocks + n
    hwAllocBlocks := max s.hwAllocBlocks (s.nAllocBlocks + n) }

/-! ## Free lists -/

/-- `dbl_link_onto(bd, &free_list[ln])`. -/
def dblLinkOnto (s : BlockModel) (bd ln : Nat) : Except String BlockModel :=
  if ln < maxFreeList then
    .ok { s with freeList := Function.update s.freeList ln (bd :: s.freeList ln) }
  else .error "free_list index"

/-- `dbl_link_remove(bd, &free_list[ln])`; `bd` has to be on that list. -/
def dblLinkRemove (s : BlockModel) (bd ln : Nat) : Except String BlockModel :=
  if ln < maxFreeList ∧ bd ∈ s.freeList ln then
    .ok { s with freeList := Function.update s.freeList ln ((s.freeList ln).erase bd) }
  else .error "not on this free list"

/-- `tail_of`. -/
def tailOf (s : BlockModel) (bd : Nat) : Nat := bd + (s.bdescr bd).blocks - 1

/-- `setup_tail`. -/
def setupTail (s : BlockModel) (bd : Nat) : BlockModel :=
  if s.tailOf bd ≠ bd then
    s.setDescr (s.tailOf bd) fun d => { d with blocks := 0, free := .zero, link := some bd }
  else s

/-- `while (ln < lnmax && free_list[ln] == NULL) ln++`, with `k` turns left. -/
def skipEmpty (s : BlockModel) : Nat → Nat → Nat
  | 0, ln => ln
  | k + 1, ln => if s.freeList ln = [] then s.skipEmpty k (ln + 1) else ln

/-- The element behind one of a list. -/
def linkOf : List Nat → Nat → Option Nat
  | bd :: next :: rest, p => if bd = p then some next else linkOf (next :: rest) p
  | _, _ => none

variable (L : BlockSizes)

/-! ## Descriptors -/

/-- The megablock of a block. -/
def mblockOf (bd : Nat) : Nat := bd / L.blocksPerMBlock

/-- The first block of a megablock. -/
def firstOf (mblock : Nat) : Nat := mblock * L.blocksPerMBlock

/-- The last block of a megablock. -/
def lastOf (mblock : Nat) : Nat := mblock * L.blocksPerMBlock + (L.blocksPerMBlock - 1)

/-- `initMBlock`: the loop sets the `start` of every descriptor of the megablock. -/
def initMBlock (s : BlockModel) (mblock : Nat) : BlockModel :=
  { s with
    bdescr := fun bd =>
      if mblockOf L bd = mblock then { s.bdescr bd with start := L.blockAt bd }
      else s.bdescr bd }

/-- The loop of `initGroup` over the descriptors behind the head: the addresses that follow the
head's, which for a group of several megablocks run on behind the first one's descriptors. -/
def initRest (s : BlockModel) (head : Nat) : BlockModel :=
  { s with
    bdescr := fun bd =>
      if L.bdescrAt head < L.bdescrAt bd ∧
          L.bdescrAt bd < L.bdescrAt head + (s.bdescr head).blocks then
        { s.bdescr bd with free := .zero, blocks := 0, link := some head }
      else s.bdescr bd }

/-- `initGroup`. -/
def initGroup (s : BlockModel) (head : Nat) : BlockModel :=
  (s.setDescr head fun d => { d with free := .within d.start, link := none }).initRest L head

/-! ## Megablocks -/

/-- `getMBlocks`, when the operating system answers with `fresh`. -/
def getMBlocks (s : BlockModel) (n fresh : Nat) : BlockModel :=
  { s with
    heapAlloced := fun m => if fresh ≤ m ∧ m < fresh + n then true else s.heapAlloced m
    mblocksAllocated := s.mblocksAllocated + n }

/-- `freeMBlocks`. -/
def freeMBlocks (s : BlockModel) (mblock n : Nat) : BlockModel :=
  { s with
    heapAlloced := fun m => if mblock ≤ m ∧ m < mblock + n then false else s.heapAlloced m
    mblocksAllocated := s.mblocksAllocated - n }

/-- What the search of `alloc_mega_group` ends with. -/
inductive MegaFit
  | exact (bd : Nat)
  | best (bd : Nat)
  | nothing

/-- The search: the first group of exactly `n` blocks, else a smallest one that is larger. -/
def megaFit (bdescr : Nat → ModelDescr) (n : Nat) : List Nat → Option Nat → MegaFit
  | [], some best => .best best
  | [], none => .nothing
  | bd :: rest, best =>
    if (bdescr bd).blocks = n then .exact bd
    else if (bdescr bd).blocks > n then
      match best with
      | none => megaFit bdescr n rest (some bd)
      | some b =>
        if (bdescr bd).blocks < (bdescr b).blocks then megaFit bdescr n rest (some bd)
        else megaFit bdescr n rest (some b)
    else megaFit bdescr n rest best

/-- `alloc_mega_group`. -/
def allocMegaGroup (s : BlockModel) (mblocks fresh : Nat) : BlockModel × Nat :=
  match megaFit s.bdescr (L.mblockGroupBlocks mblocks) s.freeMBlockList none with
  | .exact bd =>
    (({ s with freeMBlockList := s.freeMBlockList.erase bd } : BlockModel).initGroup L bd, bd)
  | .best best =>
    let bestMBlocks := L.blocksToMBlocks (s.bdescr best).blocks
    let bd := firstOf L (mblockOf L best + (bestMBlocks - mblocks))
    let s := s.setBlocks best (L.mblockGroupBlocks (bestMBlocks - mblocks))
    let s := s.initMBlock L (mblockOf L bd)
    (s.setBlocks bd (L.mblockGroupBlocks mblocks), bd)
  | .nothing =>
    let s := (s.getMBlocks mblocks fresh).initMBlock L fresh
    (s.setBlocks (firstOf L fresh) (L.mblockGroupBlocks mblocks), firstOf L fresh)

/-- `coalesce_mblocks`. -/
def coalesceMBlocks (s : BlockModel) (p : Nat) : BlockModel × Option Nat :=
  match linkOf s.freeMBlockList p with
  | none => (s, none)
  | some q =>
    if mblockOf L q = mblockOf L p + L.blocksToMBlocks (s.bdescr p).blocks then
      let blocks := L.mblockGroupBlocks
        (L.blocksToMBlocks (s.bdescr p).blocks + L.blocksToMBlocks (s.bdescr q).blocks)
      ({ s.setBlocks p blocks with freeMBlockList := s.freeMBlockList.erase q }, some p)
    else (s, some q)

/-- The loop of `free_mega_group` goes on over groups at lower addresses. -/
def below (s : BlockModel) (mg bd : Nat) : Bool := decide ((s.bdescr bd).start < (s.bdescr mg).start)

/-- The list with a group linked in. -/
def linkedIn (s : BlockModel) (mg : Nat) : List Nat :=
  s.freeMBlockList.takeWhile (s.below mg) ++ mg :: s.freeMBlockList.dropWhile (s.below mg)

/-- `free_mega_group`. -/
def freeMegaGroup (s : BlockModel) (mg : Nat) : BlockModel :=
  let linked := { s with freeMBlockList := s.linkedIn mg }
  match (s.freeMBlockList.takeWhile (s.below mg)).getLast? with
  | some prev =>
    match linked.coalesceMBlocks L prev with
    | (s, some mg) => (s.coalesceMBlocks L mg).1
    | (s, none) => s
  | none => (linked.coalesceMBlocks L mg).1

/-! ## Freeing a group -/

/-- `freeGroup` looks at the group behind `p`; `none` when the megablock became free. -/
def coalesceForwards (s : BlockModel) (p : Nat) : Except String (BlockModel × Option Nat) := do
  let next := p + (s.bdescr p).blocks
  if next ≤ lastOf L (mblockOf L p) ∧ (s.bdescr next).free = .minusOne then
    let s' := s.setBlocks p ((s.bdescr p).blocks + (s.bdescr next).blocks)
    let s' ← s'.dblLinkRemove next (log2 (s'.bdescr next).blocks)
    if (s'.bdescr p).blocks = L.blocksPerMBlock then return (s'.freeMegaGroup L p, none)
    return (s'.setupTail p, some p)
  else return (s, some p)

/-- From the last descriptor of a group to its head. -/
def findHead (s : BlockModel) (bd : Nat) : Except String Nat :=
  if (s.bdescr bd).blocks = 0 then
    match (s.bdescr bd).link with
    | some head => .ok head
    | none => .error "NULL link"
  else .ok bd

/-- `freeGroup` looks at the group before `p`. -/
def coalesceBackwards (s : BlockModel) (p : Nat) : Except String (BlockModel × Option Nat) := do
  if p ≠ firstOf L (mblockOf L p) then
    let prev ← s.findHead (p - 1)
    if (s.bdescr prev).free = .minusOne then
      let s' ← s.dblLinkRemove prev (log2 (s.bdescr prev).blocks)
      let s' := s'.setBlocks prev ((s'.bdescr prev).blocks + (s'.bdescr p).blocks)
      if (s'.bdescr prev).blocks ≥ L.blocksPerMBlock then
        return (s'.freeMegaGroup L prev, none)
      return (s', some prev)
    else return (s, some p)
  else return (s, some p)

/-- `free_list_insert`. -/
def freeListInsert (s : BlockModel) (bd : Nat) : Except String BlockModel := do
  assert ((s.bdescr bd).blocks < L.blocksPerMBlock) "bd->blocks < BLOCKS_PER_MBLOCK"
  s.dblLinkOnto bd (log2 (s.bdescr bd).blocks)

/-- `freeGroup`. -/
def freeGroup (s : BlockModel) (p : Nat) : Except String BlockModel := do
  assert ((s.bdescr p).free ≠ .minusOne) "p->free != (P_)-1"
  let s := s.setDescr p fun d => { d with free := .minusOne }
  let blocks := (s.bdescr p).blocks
  if blocks = 0 then throw "freeGroup: block size is zero"
  if blocks ≥ L.blocksPerMBlock then
    let mblocks := L.blocksToMBlocks blocks
    assert (blocks = L.mblockGroupBlocks mblocks) "p->blocks == MBLOCK_GROUP_BLOCKS(mblocks)"
    let s := { s with nAllocBlocks := s.nAllocBlocks - mblocks * L.blocksPerMBlock }
    return s.freeMegaGroup L p
  assert (s.nAllocBlocks ≥ blocks) "n_alloc_blocks >= p->blocks"
  let s := { s with nAllocBlocks := s.nAllocBlocks - blocks }
  match ← s.coalesceForwards L p with
  | (s, none) => return s
  | (s, some p) =>
    match ← s.coalesceBackwards L p with
    | (s, none) => return s
    | (s, some p) => (s.setupTail p).freeListInsert L p

/-- `freeGroup` on a small group whose checks pass. -/
theorem freeGroup_eq {s counted : BlockModel} {p n : Nat} (hmark : (s.bdescr p).free ≠ .minusOne)
    (hblocks : (s.bdescr p).blocks = n) (hpos : 0 < n) (hlt : n < L.blocksPerMBlock)
    (hcount : n ≤ s.nAllocBlocks)
    (hcounted : counted = { s.setDescr p fun d => { d with free := .minusOne } with
      nAllocBlocks := s.nAllocBlocks - n }) :
    s.freeGroup L p = (do
      match ← counted.coalesceForwards L p with
      | (s, none) => return s
      | (s, some p) =>
        match ← s.coalesceBackwards L p with
        | (s, none) => return s
        | (s, some p) => (s.setupTail p).freeListInsert L p) := by
  have hmarked : assert (decide ((s.bdescr p).free ≠ .minusOne)) "p->free != (P_)-1" = .ok () :=
    if_pos (decide_eq_true hmark)
  have henough : assert (decide (s.nAllocBlocks ≥ n)) "n_alloc_blocks >= p->blocks" = .ok () :=
    if_pos (decide_eq_true hcount)
  have hsame : ((s.setDescr p fun d => { d with free := .minusOne }).bdescr p).blocks = n := by
    simpa [setDescr] using hblocks
  rw [hcounted]
  simp only [freeGroup, hmarked, hsame, if_neg (Nat.ne_of_gt hpos), if_neg (Nat.not_le.mpr hlt)]
  show (assert (decide (s.nAllocBlocks ≥ n)) _ >>= _) = _
  rw [henough]
  rfl

/-- `freeGroup` on whole megablocks whose checks pass. -/
theorem freeGroup_mega {s : BlockModel} {p n mblocks : Nat} (hmark : (s.bdescr p).free ≠ .minusOne)
    (hblocks : (s.bdescr p).blocks = n) (hge : L.blocksPerMBlock ≤ n)
    (hmblocks : L.blocksToMBlocks n = mblocks) (hwhole : n = L.mblockGroupBlocks mblocks) :
    s.freeGroup L p = .ok (({ s.setDescr p fun d => { d with free := .minusOne } with
      nAllocBlocks := s.nAllocBlocks - mblocks * L.blocksPerMBlock } : BlockModel).freeMegaGroup
        L p) := by
  have hmarked : assert (decide ((s.bdescr p).free ≠ .minusOne)) "p->free != (P_)-1" = .ok () :=
    if_pos (decide_eq_true hmark)
  have hassert : assert (decide (n = L.mblockGroupBlocks mblocks))
      "p->blocks == MBLOCK_GROUP_BLOCKS(mblocks)" = .ok () := if_pos (decide_eq_true hwhole)
  have hsame : ((s.setDescr p fun d => { d with free := .minusOne }).bdescr p).blocks = n := by
    simpa [setDescr] using hblocks
  have hpos : n ≠ 0 := Nat.ne_of_gt (Nat.lt_of_lt_of_le L.perMBlock_pos hge)
  simp only [freeGroup, hmarked, hsame, hmblocks, hassert, if_neg hpos,
    if_pos (show n ≥ L.blocksPerMBlock from hge)]
  rfl

/-! ## Allocating a group -/

/-- `split_free_block`. -/
def splitFreeBlock (s : BlockModel) (bd n ln : Nat) : Except String (BlockModel × Nat) := do
  assert ((s.bdescr bd).blocks > n) "bd->blocks > n"
  let s ← s.dblLinkRemove bd ln
  let fg := bd + (s.bdescr bd).blocks - n
  let s := s.setBlocks fg n
  let s := s.setBlocks bd ((s.bdescr bd).blocks - n)
  let s := s.setupTail bd
  let s ← s.dblLinkOnto bd (log2 (s.bdescr bd).blocks)
  return (s, fg)

/-- `allocGroup` when no free group is large enough: a new megablock, whose rest goes on a
free list. -/
def allocFromMBlock (s : BlockModel) (n fresh : Nat) : Except String (BlockModel × Nat) := do
  let (s, bd) := s.allocMegaGroup L 1 fresh
  let s := (s.setBlocks bd n).initGroup L bd
  let rem := bd + n
  let s := (s.setBlocks rem (L.blocksPerMBlock - n)).initGroup L rem
  let s := { s with nAllocBlocks := s.nAllocBlocks + (s.bdescr rem).blocks }
  let s ← s.freeGroup L rem
  return (s, bd)

/-- `allocGroup`. -/
def allocGroup (s : BlockModel) (n fresh : Nat) : Except String (BlockModel × Nat) := do
  if n = 0 then throw "allocGroup: requested zero blocks"
  if n ≥ L.blocksPerMBlock then
    let mblocks := L.blocksToMBlocks n
    let s := s.countAlloc (mblocks * L.blocksPerMBlock)
    let (s, bd) := s.allocMegaGroup L mblocks fresh
    return (s.initGroup L bd, bd)
  let s := s.countAlloc n
  let ln := s.skipEmpty (maxFreeList - log2Ceil n) (log2Ceil n)
  if ln = maxFreeList then s.allocFromMBlock L n fresh
  else
    match s.freeList ln with
    | [] => throw "NULL group"
    | bd :: _ =>
      if (s.bdescr bd).blocks = n then
        let s ← s.dblLinkRemove bd ln
        return (s.initGroup L bd, bd)
      else if (s.bdescr bd).blocks > n then
        let (s, fg) ← s.splitFreeBlock bd n ln
        assert ((s.bdescr fg).blocks = n) "bd->blocks == n"
        return (s.initGroup L fg, fg)
      else throw "allocGroup: free list corrupted"

/-- `allocLargeChunk`. -/
def allocLargeChunk (s : BlockModel) (least most fresh : Nat) :
    Except String (BlockModel × Nat) := do
  if least ≥ L.blocksPerMBlock then s.allocGroup L most fresh
  else
    let lnmax := log2Ceil most
    let ln := s.skipEmpty (lnmax - log2Ceil least) (log2Ceil least)
    if ln = lnmax then s.allocGroup L most fresh
    else
      match s.freeList ln with
      | [] => throw "NULL group"
      | bd :: _ =>
        if (s.bdescr bd).blocks ≤ most then
          let s ← s.dblLinkRemove bd ln
          let s := s.initGroup L bd
          return (s.countAlloc (s.bdescr bd).blocks, bd)
        else
          let (s, fg) ← s.splitFreeBlock bd most ln
          assert ((s.bdescr fg).blocks = most) "bd->blocks == max"
          let s := s.initGroup L fg
          return (s.countAlloc (s.bdescr fg).blocks, fg)

/-! ### The paths of the calls -/

section

variable {s s₁ : BlockModel} {n fresh ln bd fg : Nat} {rest : List Nat}

theorem allocGroup_megablocks (hpos : 0 < n) (hlarge : L.blocksPerMBlock ≤ n)
    (hmega : (s.countAlloc (L.blocksToMBlocks n * L.blocksPerMBlock)).allocMegaGroup L
      (L.blocksToMBlocks n) fresh = (s₁, bd)) :
    s.allocGroup L n fresh = .ok (s₁.initGroup L bd, bd) := by
  simp only [allocGroup, if_neg (Nat.ne_of_gt hpos), if_pos (show n ≥ L.blocksPerMBlock from hlarge),
    hmega]
  rfl

theorem allocGroup_fresh (hpos : 0 < n) (hn : n < L.blocksPerMBlock)
    (hln : (s.countAlloc n).skipEmpty (maxFreeList - log2Ceil n) (log2Ceil n) = maxFreeList) :
    s.allocGroup L n fresh = (s.countAlloc n).allocFromMBlock L n fresh := by
  simp only [allocGroup, if_neg (Nat.ne_of_gt hpos), if_neg (Nat.not_le.mpr hn), hln, if_true]

theorem allocGroup_whole (hpos : 0 < n) (hn : n < L.blocksPerMBlock)
    (hln : (s.countAlloc n).skipEmpty (maxFreeList - log2Ceil n) (log2Ceil n) = ln)
    (hfound : ln ≠ maxFreeList) (hlist : (s.countAlloc n).freeList ln = bd :: rest)
    (hblocks : ((s.countAlloc n).bdescr bd).blocks = n)
    (hremove : (s.countAlloc n).dblLinkRemove bd ln = .ok s₁) :
    s.allocGroup L n fresh = .ok (s₁.initGroup L bd, bd) := by
  simp only [allocGroup, if_neg (Nat.ne_of_gt hpos), if_neg (Nat.not_le.mpr hn), hln, if_neg hfound,
    hlist, if_pos hblocks, hremove]
  rfl

theorem allocGroup_end (hpos : 0 < n) (hn : n < L.blocksPerMBlock)
    (hln : (s.countAlloc n).skipEmpty (maxFreeList - log2Ceil n) (log2Ceil n) = ln)
    (hfound : ln ≠ maxFreeList) (hlist : (s.countAlloc n).freeList ln = bd :: rest)
    (hblocks : n < ((s.countAlloc n).bdescr bd).blocks)
    (hsplit : (s.countAlloc n).splitFreeBlock bd n ln = .ok (s₁, fg))
    (hend : (s₁.bdescr fg).blocks = n) :
    s.allocGroup L n fresh = .ok (s₁.initGroup L fg, fg) := by
  have hassert : assert (decide (n = n)) "bd->blocks == n" = .ok () :=
    if_pos (decide_eq_true rfl)
  simp only [allocGroup, if_neg (Nat.ne_of_gt hpos), if_neg (Nat.not_le.mpr hn), hln, if_neg hfound,
    hlist, if_neg (Nat.ne_of_gt hblocks), gt_iff_lt, if_pos hblocks, hsplit]
  show (assert (decide ((s₁.bdescr fg).blocks = n)) _ >>= _) = _
  rw [hend, hassert]
  rfl

variable {least most : Nat}

theorem allocLargeChunk_group (h : L.blocksPerMBlock ≤ least ∨
      s.skipEmpty (log2Ceil most - log2Ceil least) (log2Ceil least) = log2Ceil most) :
    s.allocLargeChunk L least most fresh = s.allocGroup L most fresh := by
  unfold allocLargeChunk
  by_cases hlarge : least ≥ L.blocksPerMBlock
  · rw [if_pos hlarge]
  · rw [if_neg hlarge, if_pos (h.resolve_left hlarge)]

theorem allocLargeChunk_whole (hsmall : least < L.blocksPerMBlock)
    (hln : s.skipEmpty (log2Ceil most - log2Ceil least) (log2Ceil least) = ln)
    (hfound : ln ≠ log2Ceil most) (hlist : s.freeList ln = bd :: rest)
    (hblocks : (s.bdescr bd).blocks ≤ most) (hremove : s.dblLinkRemove bd ln = .ok s₁) :
    s.allocLargeChunk L least most fresh =
      .ok ((s₁.initGroup L bd).countAlloc ((s₁.initGroup L bd).bdescr bd).blocks, bd) := by
  simp only [allocLargeChunk, if_neg (Nat.not_le.mpr hsmall), hln, if_neg hfound, hlist,
    if_pos hblocks, hremove]
  rfl

theorem allocLargeChunk_end (hsmall : least < L.blocksPerMBlock)
    (hln : s.skipEmpty (log2Ceil most - log2Ceil least) (log2Ceil least) = ln)
    (hfound : ln ≠ log2Ceil most) (hlist : s.freeList ln = bd :: rest)
    (hblocks : most < (s.bdescr bd).blocks)
    (hsplit : s.splitFreeBlock bd most ln = .ok (s₁, fg))
    (hend : (s₁.bdescr fg).blocks = most) :
    s.allocLargeChunk L least most fresh =
      .ok ((s₁.initGroup L fg).countAlloc ((s₁.initGroup L fg).bdescr fg).blocks, fg) := by
  have hassert : assert (decide (most = most)) "bd->blocks == max" = .ok () :=
    if_pos (decide_eq_true rfl)
  simp only [allocLargeChunk, if_neg (Nat.not_le.mpr hsmall), hln, if_neg hfound, hlist,
    if_neg (Nat.not_le.mpr hblocks), hsplit]
  show (assert (decide ((s₁.bdescr fg).blocks = most)) _ >>= _) = _
  rw [hend, hassert]
  rfl

end

/-! ## Returning memory -/

/-- The loop of `returnMemoryToOS` over the list that is left. -/
def returnLoop (s : BlockModel) : Nat → List Nat → BlockModel
  | _, [] => { s with freeMBlockList := [] }
  | n, bd :: rest =>
    if n = 0 then { s with freeMBlockList := bd :: rest }
    else
      let size := L.blocksToMBlocks (s.bdescr bd).blocks
      let mblock := L.mblockOfBlock (s.bdescr bd).start
      if size > n then
        let s := s.setBlocks bd (L.mblockGroupBlocks (size - n))
        { s.freeMBlocks (mblock + (size - n)) n with freeMBlockList := bd :: rest }
      else (s.freeMBlocks mblock size).returnLoop (n - size) rest

theorem returnLoop_end {s : BlockModel} {n k m bd : Nat} {rest : List Nat} (hn : n ≠ 0)
    (hsize : L.blocksToMBlocks (s.bdescr bd).blocks = k)
    (hmblock : L.mblockOfBlock (s.bdescr bd).start = m) (hlarge : n < k) :
    s.returnLoop L n (bd :: rest) =
      { (s.setBlocks bd (L.mblockGroupBlocks (k - n))).freeMBlocks (m + (k - n)) n with
        freeMBlockList := bd :: rest } := by
  simp only [returnLoop, if_neg hn, hsize, hmblock, gt_iff_lt, if_pos hlarge]

theorem returnLoop_whole {s : BlockModel} {n k m bd : Nat} {rest : List Nat} (hn : n ≠ 0)
    (hsize : L.blocksToMBlocks (s.bdescr bd).blocks = k)
    (hmblock : L.mblockOfBlock (s.bdescr bd).start = m) (hle : k ≤ n) :
    s.returnLoop L n (bd :: rest) = (s.freeMBlocks m k).returnLoop L (n - k) rest := by
  simp only [returnLoop, if_neg hn, hsize, hmblock, gt_iff_lt, if_neg (Nat.not_lt.mpr hle)]

/-- `returnMemoryToOS`. -/
def returnMemoryToOS (s : BlockModel) (n : Nat) : BlockModel :=
  s.returnLoop L n s.freeMBlockList

end BlockModel

end HosBoot.Rts
