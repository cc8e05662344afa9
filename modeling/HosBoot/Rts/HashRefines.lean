/-
  Rts/HashRefines.lean --- a hash table is a bag of pairs.

  Whatever the operations and however the table grew, every bucket below `bcount` can be
  read, every key is in the bucket that `hash` says, and the chains together hold exactly
  the pairs inserted and not removed.
-/
import Mathlib.Data.Nat.Bitwise
import HosBoot.Rts.Hash

set_option autoImplicit false

namespace HosBoot.Rts

open HosBoot.Foundation

variable {κ δ : Type}

namespace HashTable

/-! ## The numbers of a table -/

/-- The fields of a table that is `split` buckets into its next doubling. -/
structure Shape (table : HashTable κ δ) : Prop where
  max_pow : ∃ k, table.max = 2 ^ (10 + k)
  split_lt : table.split < table.max
  mask1 : table.mask1 = table.max - 1
  mask2 : table.mask2 = 2 * table.max - 1
  bcount : table.bcount = table.max + table.split
  bcount_le : table.bcount ≤ hDirSize * hSegSize

theorem alloc_shape : Shape (alloc : HashTable κ δ) :=
  ⟨⟨0, rfl⟩, Nat.zero_lt_succ _, rfl, rfl, rfl, Nat.le_mul_of_pos_left _ (Nat.zero_lt_succ _)⟩

/-- The masks reduce modulo the two sizes. -/
theorem hash_eq {keys : KeyClass κ} {table : HashTable κ δ} (h : Shape table) (key : κ) :
    keys.hash table key = address table.max table.split (keys.bits key) := by
  obtain ⟨k, hk⟩ := h.max_pow
  have hand1 : keys.bits key &&& table.mask1 = keys.bits key % table.max := by
    rw [h.mask1, hk, Nat.and_two_pow_sub_one_eq_mod]
  have hand2 : keys.bits key &&& table.mask2 = keys.bits key % (2 * table.max) := by
    rw [h.mask2, hk, ← Nat.pow_succ', Nat.and_two_pow_sub_one_eq_mod]
  rw [KeyClass.hash, hand1, hand2]
  rfl

theorem hash_lt (keys : KeyClass κ) {table : HashTable κ δ} (h : Shape table) (key : κ) :
    keys.hash table key < table.bcount := by
  rw [hash_eq h, h.bcount]
  exact address_lt h.split_lt _

/-- A new mask: one more bit. -/
theorem shiftLeft_or_one (n : Nat) : n <<< 1 ||| 1 = 2 * n + 1 := by
  have hor := Nat.two_pow_add_eq_or_of_lt (i := 1) (b := 1) (by decide) n
  rw [Nat.shiftLeft_eq, Nat.mul_comm, ← hor]

/-- `advance` keeps the shape and adds one bucket. -/
theorem advance_shape {table : HashTable κ δ} (h : Shape table)
    (hroom : table.split + table.max < hDirSize * hSegSize) :
    Shape table.advance ∧ table.advance.bcount = table.bcount + 1 ∧
      table.advance.kcount = table.kcount ∧ table.advance.dir = table.dir ∧
      ∀ x, address table.advance.max table.advance.split x =
        address table.max (table.split + 1) x := by
  obtain ⟨k, hk⟩ := h.max_pow
  have hsplit := h.split_lt
  have hbcount := h.bcount
  by_cases hfull : table.split + 1 = table.max
  · have hadvance : table.advance =
        { table with
          split := 0
          max := table.max * 2
          mask1 := table.mask2
          mask2 := table.mask2 <<< 1 ||| 1
          bcount := table.bcount + 1 } := if_pos hfull
    rw [hadvance]
    refine ⟨⟨⟨k + 1, ?_⟩, ?_, ?_, ?_, ?_, ?_⟩, rfl, rfl, rfl, ?_⟩
    · show table.max * 2 = _
      rw [hk]
      rfl
    · show 0 < table.max * 2
      omega
    · show table.mask2 = table.max * 2 - 1
      rw [h.mask2, Nat.mul_comm]
    · show table.mask2 <<< 1 ||| 1 = 2 * (table.max * 2) - 1
      rw [shiftLeft_or_one, h.mask2]
      omega
    · show table.bcount + 1 = table.max * 2 + 0
      omega
    · show table.bcount + 1 ≤ _
      omega
    · intro x
      show address (table.max * 2) 0 x = _
      rw [hfull, Nat.mul_comm, address_full (by omega)]
  · have hadvance : table.advance =
        { table with split := table.split + 1, bcount := table.bcount + 1 } := if_neg hfull
    rw [hadvance]
    refine ⟨⟨⟨k, hk⟩, ?_, h.mask1, h.mask2, ?_, ?_⟩, rfl, rfl, rfl, fun x => rfl⟩
    · show table.split + 1 < table.max
      omega
    · show table.bcount + 1 = table.max + (table.split + 1)
      omega
    · show table.bcount + 1 ≤ _
      omega

/-! ## Reading and writing buckets -/

/-- A table that differs only in its chains. -/
structure SameNumbers (before after : HashTable κ δ) : Prop where
  split : after.split = before.split
  max : after.max = before.max
  mask1 : after.mask1 = before.mask1
  mask2 : after.mask2 = before.mask2
  kcount : after.kcount = before.kcount
  bcount : after.bcount = before.bcount

theorem SameNumbers.trans {first second third : HashTable κ δ} (h : SameNumbers first second)
    (h' : SameNumbers second third) : SameNumbers first third :=
  ⟨h'.split.trans h.split, h'.max.trans h.max, h'.mask1.trans h.mask1, h'.mask2.trans h.mask2,
    h'.kcount.trans h.kcount, h'.bcount.trans h.bcount⟩

theorem SameNumbers.shape {before after : HashTable κ δ} (h : SameNumbers before after)
    (hshape : Shape before) : Shape after := by
  obtain ⟨hsplit, hmax, hmask1, hmask2, -, hbcount⟩ := h
  refine ⟨?_, ?_, ?_, ?_, ?_, ?_⟩
  · rw [hmax]
    exact hshape.max_pow
  · rw [hsplit, hmax]
    exact hshape.split_lt
  · rw [hmask1, hmax]
    exact hshape.mask1
  · rw [hmask2, hmax]
    exact hshape.mask2
  · rw [hbcount, hmax, hsplit]
    exact hshape.bcount
  · rw [hbcount]
    exact hshape.bcount_le

/-- Two buckets never share their cell. -/
theorem bucket_eq_of {b c : Nat} (hsegment : b / hSegSize = c / hSegSize)
    (hindex : b % hSegSize = c % hSegSize) : b = c := by
  rw [← Nat.div_add_mod b hSegSize, hsegment, hindex, Nat.div_add_mod]

/-- A write to an allocated segment is read back there and nowhere else. -/
theorem writeBucket_spec {table : HashTable κ δ} {bucket : Nat}
    (h : (table.dir (bucket / hSegSize)).isSome) (chain : List (κ × δ)) :
    ∃ after, table.writeBucket bucket chain = some after ∧ SameNumbers table after ∧
      after.readBucket bucket = some chain ∧
      (∀ b, b ≠ bucket → after.readBucket b = table.readBucket b) ∧
      ∀ s, (table.dir s).isSome → (after.dir s).isSome := by
  obtain ⟨segment, hsegment⟩ := Option.isSome_iff_exists.mp h
  refine ⟨{ table with
      dir := Function.update table.dir (bucket / hSegSize)
        (some (Function.update segment (bucket % hSegSize) (some chain))) },
    by rw [writeBucket, hsegment], ⟨rfl, rfl, rfl, rfl, rfl, rfl⟩, ?_, ?_, ?_⟩
  · simp [readBucket]
  · intro b hb
    simp only [readBucket]
    by_cases hs : b / hSegSize = bucket / hSegSize
    · have hindex : b % hSegSize ≠ bucket % hSegSize := fun hi => hb (bucket_eq_of hs hi)
      rw [hs, Function.update_self, hsegment]
      exact Function.update_of_ne hindex _ _
    · rw [Function.update_of_ne hs]
  · intro s hs
    show (Function.update table.dir _ _ s).isSome
    by_cases heq : s = bucket / hSegSize
    · rw [heq, Function.update_self]
      rfl
    · rw [Function.update_of_ne heq]
      exact hs

/-- A bucket that can be read lies in an allocated segment. -/
theorem dir_isSome_of_read {table : HashTable κ δ} {bucket : Nat} {chain : List (κ × δ)}
    (h : table.readBucket bucket = some chain) : (table.dir (bucket / hSegSize)).isSome := by
  unfold readBucket at h
  cases hdir : table.dir (bucket / hSegSize) with
  | none =>
    rw [hdir] at h
    cases h
  | some segment => rfl

/-! ## What a table holds -/

/-- The chains of a table, and that every key is at home. -/
structure Chains (keys : KeyClass κ) (table : HashTable κ δ)
    (chains : Nat → List (κ × δ)) : Prop where
  read : ∀ b, b < table.bcount → table.readBucket b = some (chains b)
  home : ∀ b, b < table.bcount → ∀ p ∈ chains b,
    address table.max table.split (keys.bits p.1) = b

/-- A table that holds the pairs of a bag. -/
structure Holds (keys : KeyClass κ) (table : HashTable κ δ) (bag : Multiset (κ × δ)) : Prop where
  shape : Shape table
  chains : ∃ chains, Chains keys table chains ∧ bag = gather chains table.bcount

theorem alloc_holds (keys : KeyClass κ) : Holds keys (alloc : HashTable κ δ) 0 := by
  refine ⟨alloc_shape, fun _ => [], ⟨fun b hb => ?_, fun _ _ p hp => by cases hp⟩, ?_⟩
  · have hsegment : b / hSegSize = 0 := Nat.div_eq_of_lt hb
    simp only [readBucket, alloc]
    rw [hsegment, Function.update_self]
  · simp [gather]

/-- The counters do not matter to what a table holds. -/
theorem Holds.of_kcount {keys : KeyClass κ} {table : HashTable κ δ} {bag : Multiset (κ × δ)}
    (h : Holds keys table bag) (kcount : Int) :
    Holds keys { table with kcount := kcount } bag := by
  obtain ⟨⟨hpow, hlt, hmask1, hmask2, hbcount, hle⟩, chains, ⟨hread, hhome⟩, hbag⟩ := h
  exact ⟨⟨hpow, hlt, hmask1, hmask2, hbcount, hle⟩, chains, ⟨hread, hhome⟩, hbag⟩

/-! ## Growing -/

/-- The loop of `expand` reverses both halves of the chain. -/
theorem splitChain_eq (toNew : κ → Bool) (chain : List (κ × δ)) :
    splitChain toNew chain =
      ((chain.filter fun hl => !toNew hl.1).reverse, (chain.filter fun hl => toNew hl.1).reverse) := by
  have hfold : ∀ old new : List (κ × δ),
      chain.foldl (fun acc hl => if toNew hl.1 then (acc.1, hl :: acc.2) else (hl :: acc.1, acc.2))
          (old, new) =
        ((chain.filter fun hl => !toNew hl.1).reverse ++ old,
          (chain.filter fun hl => toNew hl.1).reverse ++ new) := by
    induction chain with
    | nil => exact fun old new => rfl
    | cons hl chain ih =>
      intro old new
      rw [List.foldl_cons]
      by_cases hnew : toNew hl.1 = true
      · rw [if_pos hnew, ih]
        simp [hnew]
      · rw [if_neg hnew, ih]
        simp [hnew]
  rw [splitChain, hfold, List.append_nil, List.append_nil]

/-- A new segment holds no bucket that is in use, and the new bucket has a segment. -/
theorem newSegment_spec {keys : KeyClass κ} {table : HashTable κ δ}
    {chains : Nat → List (κ × δ)} (hshape : Shape table) (h : Chains keys table chains) :
    ∃ after, (if table.bcount % hSegSize = 0 then table.allocSegment (table.bcount / hSegSize)
        else table) = after ∧
      SameNumbers table after ∧ Chains keys after chains ∧
      (after.dir (table.bcount / hSegSize)).isSome := by
  by_cases hnew : table.bcount % hSegSize = 0
  · refine ⟨_, if_pos hnew, ⟨rfl, rfl, rfl, rfl, rfl, rfl⟩, ⟨fun b hlt => ?_, h.home⟩, ?_⟩
    · have hb : b < table.bcount := hlt
      have hother : b / hSegSize ≠ table.bcount / hSegSize := by
        have hfirst : table.bcount % 1024 = 0 := hnew
        show b / 1024 ≠ table.bcount / 1024
        omega
      rw [← h.read b hb]
      simp only [readBucket, allocSegment]
      rw [Function.update_of_ne hother]
    · show (Function.update table.dir _ _ _).isSome
      rw [Function.update_self]
      rfl
  · refine ⟨_, if_neg hnew, ⟨rfl, rfl, rfl, rfl, rfl, rfl⟩, h, ?_⟩
    have hpos : 0 < table.bcount := by
      have := hshape.bcount
      have := hshape.split_lt
      omega
    have hlast := dir_isSome_of_read (h.read (table.bcount - 1) (by omega))
    have hsame : (table.bcount - 1) / hSegSize = table.bcount / hSegSize := by
      have hinner : table.bcount % 1024 ≠ 0 := hnew
      show (table.bcount - 1) / 1024 = table.bcount / 1024
      omega
    rw [← hsame]
    exact hlast

/-- `expand` keeps the bag; unless the directory is full there is one bucket more. -/
theorem expand_spec {keys : KeyClass κ} {table : HashTable κ δ} {bag : Multiset (κ × δ)}
    (h : Holds keys table bag) :
    ∃ after, table.expand keys = some after ∧ Holds keys after bag ∧
      after.kcount = table.kcount ∧
      (after.bcount = table.bcount + 1 ∨ after.bcount = hDirSize * hSegSize) := by
  obtain ⟨hshape, chains, hchains, hbag⟩ := h
  have hbcount := hshape.bcount
  by_cases hbig : table.split + table.max ≥ hDirSize * hSegSize
  · refine ⟨table, by rw [expand, if_pos hbig], ⟨hshape, chains, hchains, hbag⟩, rfl, .inr ?_⟩
    have := hshape.bcount_le
    omega
  -- the new bucket's segment
  obtain ⟨grown, hgrown, hsame, hgrownChains, hgrownDir⟩ := newSegment_spec hshape hchains
  have hgrownShape := hsame.shape hshape
  obtain ⟨hadvShape, hadvBcount, hadvKcount, hadvDir, haddress⟩ :=
    advance_shape hgrownShape (by rw [hsame.split, hsame.max]; omega)
  have hread : ∀ b, b < table.bcount → grown.advance.readBucket b = some (chains b) := by
    intro b hb
    rw [← hgrownChains.read b (by rw [hsame.bcount]; exact hb)]
    simp only [readBucket, hadvDir]
  have hsplit : table.split < table.bcount := by
    have := hshape.split_lt
    omega
  have hhash : ∀ key, keys.hash grown.advance key =
      address table.max (table.split + 1) (keys.bits key) := by
    intro key
    rw [hash_eq hadvShape, haddress, hsame.max, hsame.split]
  -- the two writes
  let toNew : κ → Bool := fun key => keys.hash grown.advance key = table.bcount
  let old := ((chains table.split).filter fun hl => !toNew hl.1).reverse
  let new := ((chains table.split).filter fun hl => toNew hl.1).reverse
  obtain ⟨mid, hmid, hmidSame, hmidRead, hmidOther, hmidDir⟩ :=
    writeBucket_spec (dir_isSome_of_read (hread _ hsplit)) old
  have hmidGrown : (mid.dir (table.bcount / hSegSize)).isSome := by
    apply hmidDir
    rw [hadvDir]
    exact hgrownDir
  obtain ⟨after, hafter, hafterSame, hafterRead, hafterOther, hafterDir⟩ :=
    writeBucket_spec hmidGrown new
  have hnumbers := hmidSame.trans hafterSame
  have hhalves : (chains table.split : Multiset (κ × δ)) = (old : Multiset (κ × δ)) + new := by
    have hperm := List.filter_append_perm (fun hl => toNew hl.1) (chains table.split)
    simp only [old, new, Multiset.coe_reverse]
    rw [add_comm, Multiset.coe_add]
    exact (Multiset.coe_eq_coe.mpr hperm).symm
  refine ⟨after, ?_, ⟨hnumbers.shape hadvShape,
    Function.update (Function.update chains table.split old) table.bcount new, ⟨?_, ?_⟩, ?_⟩,
    ?_, .inl ?_⟩
  · have hnewbucket : table.max + table.split = table.bcount := hbcount.symm
    simp only [expand, if_neg hbig, hnewbucket, hgrown, hread _ hsplit, splitChain_eq]
    rw [hmid]
    exact hafter
  · intro b hb
    rw [hnumbers.bcount, hadvBcount, hsame.bcount] at hb
    by_cases hnewb : b = table.bcount
    · rw [hnewb, Function.update_self, hafterRead]
    rw [Function.update_of_ne hnewb, hafterOther b hnewb]
    by_cases holdb : b = table.split
    · rw [holdb, Function.update_self, hmidRead]
    · rw [Function.update_of_ne holdb, hmidOther b holdb, hread b (by omega)]
  · intro b hb p hp
    rw [hnumbers.bcount, hadvBcount, hsame.bcount] at hb
    rw [hnumbers.max, hnumbers.split, haddress, hsame.max, hsame.split]
    have hcases := address_succ_cases hshape.split_lt (keys.bits p.1)
    by_cases hnewb : b = table.bcount
    · rw [hnewb, Function.update_self, List.mem_reverse, List.mem_filter] at hp
      rw [← hhash, hnewb]
      exact of_decide_eq_true hp.2
    rw [Function.update_of_ne hnewb] at hp
    by_cases holdb : b = table.split
    · rw [holdb, Function.update_self, List.mem_reverse, List.mem_filter] at hp
      have hstay : address table.max (table.split + 1) (keys.bits p.1) ≠ table.bcount := by
        rw [← hhash]
        simpa [toNew] using hp.2
      have hhome := hchains.home _ hsplit p hp.1
      omega
    · rw [Function.update_of_ne holdb] at hp
      have hhome := hchains.home b (by omega) p hp
      omega
  · rw [hnumbers.bcount, hadvBcount, hsame.bcount, gather_split chains hsplit hhalves, hbag]
  · rw [hnumbers.kcount, hadvKcount, hsame.kcount]
  · rw [hnumbers.bcount, hadvBcount, hsame.bcount]

end HashTable

end HosBoot.Rts
