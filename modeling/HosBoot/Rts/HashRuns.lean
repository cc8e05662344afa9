/-
  Rts/HashRuns.lean --- sequences of hash table operations.

  The abstract table is a bag of pairs: an operation on a key may answer any pair of that
  key.  A table refines the bag whatever the operations; used as a finite map (no key
  inserted twice) its answers are the map's.
-/
import HosBoot.Foundation.Sequential
import HosBoot.Rts.HashRefines

set_option autoImplicit false

namespace HosBoot.Rts

open HosBoot.Foundation

variable {κ δ : Type}

/-- The calls a user of a table makes; `removeHashTable` takes a datum or `NULL`. -/
inductive HashOp (κ δ : Type)
  | insert (key : κ) (data : δ)
  | lookup (key : κ)
  | remove (key : κ) (data : Option δ)

namespace HashTable

/-! ## One operation -/

/-- A bucket gets a chain of keys that are at home there. -/
theorem writeBucket_holds {keys : KeyClass κ} {table : HashTable κ δ}
    {chains : Nat → List (κ × δ)} (hshape : Shape table) (h : Chains keys table chains)
    {b : Nat} (hb : b < table.bcount) {chain : List (κ × δ)}
    (hhome : ∀ p ∈ chain, address table.max table.split (keys.bits p.1) = b) :
    ∃ after, table.writeBucket b chain = some after ∧ SameNumbers table after ∧
      Holds keys after (gather (Function.update chains b chain) table.bcount) := by
  obtain ⟨after, hafter, hsame, hread, hother, -⟩ :=
    writeBucket_spec (dir_isSome_of_read (h.read b hb)) chain
  refine ⟨after, hafter, hsame, hsame.shape hshape, Function.update chains b chain,
    ⟨fun c hc => ?_, fun c hc p hp => ?_⟩, by rw [hsame.bcount]⟩
  · rw [hsame.bcount] at hc
    by_cases hcb : c = b
    · rw [hcb, Function.update_self, hread]
    · rw [Function.update_of_ne hcb, hother c hcb, h.read c hc]
  · rw [hsame.bcount] at hc
    rw [hsame.max, hsame.split]
    by_cases hcb : c = b
    · rw [hcb, Function.update_self] at hp
      rw [hcb]
      exact hhome p hp
    · rw [Function.update_of_ne hcb] at hp
      exact h.home c hc p hp

/-- The pairs of a key are all in the chain that its hash value selects. -/
theorem mem_chain_iff {keys : KeyClass κ} {table : HashTable κ δ} {chains : Nat → List (κ × δ)}
    (hshape : Shape table) (h : Chains keys table chains) {key : κ} {p : κ × δ}
    (hkey : keys.compare p.1 key = true) :
    p ∈ gather chains table.bcount ↔ p ∈ chains (keys.hash table key) := by
  rw [mem_gather]
  constructor
  · rintro ⟨b, hb, hp⟩
    have hhome := h.home b hb p hp
    rw [keys.bits_eq _ _ hkey, ← hash_eq hshape] at hhome
    rw [hhome]
    exact hp
  · exact fun hp => ⟨_, hash_lt keys hshape key, hp⟩

/-- What the table knows of its load.  `kcount` counts the pairs, up to the width of an
`int`; the table is full long before that matters. -/
structure TableInv (keys : KeyClass κ) (table : HashTable κ δ) (bag : Multiset (κ × δ)) :
    Prop where
  holds : Holds keys table bag
  kcount : table.kcount = Int.bmod bag.card (2 ^ 32)
  load : bag.card < hLoad * table.bcount ∨ table.bcount = hDirSize * hSegSize

theorem alloc_inv (keys : KeyClass κ) : TableInv keys (alloc : HashTable κ δ) 0 :=
  ⟨alloc_holds keys, Int.zero_bmod.symm,
    .inl (Nat.mul_pos (Nat.zero_lt_succ _) (Nat.zero_lt_succ _))⟩

/-- Below the width of an `int` the count is exact. -/
theorem TableInv.kcount_eq {keys : KeyClass κ} {table : HashTable κ δ} {bag : Multiset (κ × δ)}
    (h : TableInv keys table bag) (hfits : bag.card < 2 ^ 31) :
    table.kcount = (bag.card : Int) := by
  rw [h.kcount]
  exact Int.bmod_eq_of_le (by omega) (by omega)

/-- Room for one more key: `expand` is called in time. -/
theorem insert_grows {keys : KeyClass κ} {table : HashTable κ δ} {bag : Multiset (κ × δ)}
    (h : TableInv keys table bag) {counted : HashTable κ δ}
    (hcounted : counted = { table with kcount := Int.bmod (table.kcount + 1) (2 ^ 32) }) :
    ∃ grown,
      (if counted.kcount ≥ hLoad * counted.bcount then expand keys counted
        else some counted) = some grown ∧
      Holds keys grown bag ∧ grown.kcount = Int.bmod (bag.card + 1 : Nat) (2 ^ 32) ∧
      (bag.card + 1 < hLoad * grown.bcount ∨ grown.bcount = hDirSize * hSegSize) := by
  obtain ⟨hholds, hkcount, hload⟩ := h
  have hbuckets : counted.bcount = table.bcount := by rw [hcounted]
  have hcount : counted.kcount = Int.bmod (bag.card + 1 : Nat) (2 ^ 32) := by
    rw [hcounted]
    show Int.bmod (table.kcount + 1) (2 ^ 32) = _
    rw [hkcount, Int.bmod_add_bmod, Nat.cast_succ]
  have hbag : Holds keys counted bag := hcounted ▸ hholds.of_kcount _
  have hmost : counted.bcount ≤ 1024 * 1024 := hbag.shape.bcount_le
  by_cases hfull : counted.kcount ≥ hLoad * counted.bcount
  · obtain ⟨grown, hgrown, hgrownBag, hgrownCount, hgrownBuckets⟩ := expand_spec hbag
    refine ⟨grown, by rw [if_pos hfull, hgrown], hgrownBag, hgrownCount.trans hcount, ?_⟩
    rcases hgrownBuckets with hmore | hall
    · rcases hload with hload | hall
      · left
        have hload : bag.card < 5 * table.bcount := hload
        show bag.card + 1 < 5 * grown.bcount
        omega
      · right
        have hle := hgrownBag.shape.bcount_le
        omega
    · exact .inr hall
  · refine ⟨counted, if_neg hfull, hbag, hcount, ?_⟩
    rcases hload with hload | hall
    · -- below the load the count is exact
      left
      have hload : bag.card < 5 * table.bcount := hload
      have hexact : counted.kcount = ((bag.card + 1 : Nat) : Int) := by
        rw [hcount]
        exact Int.bmod_eq_of_le (by omega) (by omega)
      have hbelow : ¬ counted.kcount ≥ ((5 : Nat) : Int) * counted.bcount := hfull
      show bag.card + 1 < 5 * counted.bcount
      omega
    · exact .inr (hbuckets.trans hall)

theorem insert_spec {keys : KeyClass κ} {table : HashTable κ δ} {bag : Multiset (κ × δ)}
    (h : TableInv keys table bag) (key : κ) (data : δ) :
    ∃ after, table.insert keys key data = some after ∧
      TableInv keys after ((key, data) ::ₘ bag) := by
  obtain ⟨grown, hgrow, ⟨hshape, chains, hchains, hbag⟩, hcount, hgrownLoad⟩ :=
    insert_grows h rfl
  have hlt := hash_lt keys hshape key
  have hhome : ∀ p ∈ (key, data) :: chains (keys.hash grown key),
      address grown.max grown.split (keys.bits p.1) = keys.hash grown key := by
    intro p hp
    rcases List.mem_cons.mp hp with rfl | hp
    · exact (hash_eq hshape key).symm
    · exact hchains.home _ hlt p hp
  obtain ⟨after, hafter, hsame, hafterHolds⟩ := writeBucket_holds hshape hchains hlt hhome
  have hpairs : gather (Function.update chains (keys.hash grown key)
      ((key, data) :: chains (keys.hash grown key))) grown.bcount = (key, data) ::ₘ bag := by
    have hupdate := gather_update chains hlt ((key, data) :: chains (keys.hash grown key))
    rw [← hbag, ← Multiset.cons_coe, ← Multiset.singleton_add, ← add_assoc] at hupdate
    rw [add_right_cancel hupdate, add_comm, Multiset.singleton_add]
  refine ⟨after, ?_, hpairs ▸ hafterHolds, ?_, ?_⟩
  · simp only [insert]
    rw [hgrow]
    simp only [hchains.read _ hlt]
    exact hafter
  · rw [hsame.kcount, hcount, Multiset.card_cons]
  · rw [hsame.bcount, Multiset.card_cons]
    exact hgrownLoad

theorem lookup_spec {keys : KeyClass κ} {table : HashTable κ δ} {bag : Multiset (κ × δ)}
    (h : Holds keys table bag) (key : κ) :
    (∃ p ∈ bag, keys.compare p.1 key = true ∧ table.lookup keys key = some (some p.2)) ∨
      ((∀ p ∈ bag, keys.compare p.1 key = false) ∧ table.lookup keys key = some none) := by
  obtain ⟨hshape, chains, hchains, hbag⟩ := h
  have hread := hchains.read _ (hash_lt keys hshape key)
  cases hfind : (chains (keys.hash table key)).find? fun hl => keys.compare hl.1 key with
  | none =>
    right
    refine ⟨fun p hp => ?_, by simp only [lookup, hread, hfind, Option.map_none]⟩
    by_contra hkey
    rw [Bool.not_eq_false] at hkey
    rw [hbag, mem_chain_iff hshape hchains hkey] at hp
    exact List.find?_eq_none.mp hfind p hp hkey
  | some p =>
    left
    have hkey : keys.compare p.1 key = true :=
      List.find?_some (p := fun hl : κ × δ => keys.compare hl.1 key) hfind
    refine ⟨p, ?_, hkey, by simp only [lookup, hread, hfind, Option.map_some]⟩
    rw [hbag, mem_chain_iff hshape hchains hkey]
    exact List.mem_of_find?_eq_some hfind

/-- The loop of `removeHashTable` finds the first cell that matches, if there is one. -/
theorem unlink_spec (matching : κ × δ → Bool) (chain : List (κ × δ)) :
    (unlink matching chain = none ∧ ∀ p ∈ chain, matching p = false) ∨
      ∃ p rest, unlink matching chain = some (p.2, rest) ∧ matching p = true ∧
        (chain : Multiset (κ × δ)) = p ::ₘ (rest : Multiset (κ × δ)) := by
  induction chain with
  | nil => exact .inl ⟨rfl, fun p hp => by cases hp⟩
  | cons hl chain ih =>
    by_cases hmatch : matching hl = true
    · exact .inr ⟨hl, chain, by rw [unlink, if_pos hmatch], hmatch, rfl⟩
    · rcases ih with ⟨hnone, hall⟩ | ⟨p, rest, hfound, hp, hchain⟩
      · left
        refine ⟨by rw [unlink, if_neg hmatch, hnone, Option.map_none], fun p hp => ?_⟩
        rcases List.mem_cons.mp hp with rfl | hp
        · exact Bool.eq_false_of_not_eq_true hmatch
        · exact hall p hp
      · right
        refine ⟨p, hl :: rest, by rw [unlink, if_neg hmatch, hfound, Option.map_some], hp, ?_⟩
        rw [← Multiset.cons_coe, ← Multiset.cons_coe, hchain, Multiset.cons_swap]

theorem remove_spec [DecidableEq δ] {keys : KeyClass κ} {table : HashTable κ δ}
    {bag : Multiset (κ × δ)} (h : TableInv keys table bag) (key : κ) (data : Option δ) :
    (∃ p rest after, bag = p ::ₘ rest ∧ sought keys key data p = true ∧
        table.remove keys key data = some (after, some p.2) ∧ TableInv keys after rest) ∨
      ((∀ p ∈ bag, sought keys key data p = false) ∧
        table.remove keys key data = some (table, none)) := by
  obtain ⟨⟨hshape, chains, hchains, hbag⟩, hkcount, hload⟩ := h
  have hlt := hash_lt keys hshape key
  have hread := hchains.read _ hlt
  rcases unlink_spec (sought keys key data) (chains (keys.hash table key)) with
    ⟨hnone, hall⟩ | ⟨p, rest, hfound, hp, hchain⟩
  · right
    refine ⟨fun p hp => ?_, ?_⟩
    · by_contra hsought
      rw [Bool.not_eq_false] at hsought
      have hkey : keys.compare p.1 key = true := (Bool.and_eq_true_iff.mp hsought).1
      rw [hbag, mem_chain_iff hshape hchains hkey] at hp
      rw [hall p hp] at hsought
      cases hsought
    · simp only [remove, hread, hnone]
  · left
    have hhome : ∀ q ∈ rest,
        address table.max table.split (keys.bits q.1) = keys.hash table key := by
      intro q hq
      apply hchains.home _ hlt
      rw [← Multiset.mem_coe, hchain]
      exact Multiset.mem_cons_of_mem hq
    obtain ⟨after, hafter, hsame, hafterHolds⟩ := writeBucket_holds hshape hchains hlt hhome
    have hpairs : bag =
        p ::ₘ gather (Function.update chains (keys.hash table key) rest) table.bcount := by
      have hupdate := gather_update chains hlt rest
      rw [hchain, ← hbag, Multiset.add_cons, ← Multiset.cons_add] at hupdate
      exact (add_right_cancel hupdate).symm
    have hcard : bag.card =
        (gather (Function.update chains (keys.hash table key) rest) table.bcount).card + 1 := by
      rw [hpairs, Multiset.card_cons]
    refine ⟨p, _, { after with kcount := Int.bmod (after.kcount - 1) (2 ^ 32) }, hpairs, hp, ?_,
      hafterHolds.of_kcount _, ?_, ?_⟩
    · simp only [remove, hread, hfound, hafter]
    · show Int.bmod (after.kcount - 1) (2 ^ 32) = _
      rw [hsame.kcount, hkcount, hcard, Int.bmod_sub_bmod, Nat.cast_succ,
        add_sub_cancel_right]
    · show _ < hLoad * after.bcount ∨ after.bcount = _
      rw [hsame.bcount]
      rcases hload with hload | hall
      · exact .inl (by omega)
      · exact .inr hall

/-! ## Sequences of operations -/

/-- One call. -/
def apply [DecidableEq δ] (keys : KeyClass κ) (table : HashTable κ δ) :
    HashOp κ δ → Option (HashTable κ δ × Option δ)
  | .insert key data => (table.insert keys key data).map fun after => (after, none)
  | .lookup key => (table.lookup keys key).map fun found => (table, found)
  | .remove key data => table.remove keys key data

end HashTable

/-- The bag answers any pair of the key; it answers `NULL` only when there is none. -/
inductive BagEffect [DecidableEq δ] (keys : KeyClass κ) :
    Multiset (κ × δ) → HashOp κ δ → Option δ → Multiset (κ × δ) → Prop
  | insert {bag : Multiset (κ × δ)} (key : κ) (data : δ) :
      BagEffect keys bag (.insert key data) none ((key, data) ::ₘ bag)
  | found {bag : Multiset (κ × δ)} {key : κ} {p : κ × δ} :
      p ∈ bag → keys.compare p.1 key = true → BagEffect keys bag (.lookup key) (some p.2) bag
  | missing {bag : Multiset (κ × δ)} {key : κ} :
      (∀ p ∈ bag, keys.compare p.1 key = false) → BagEffect keys bag (.lookup key) none bag
  | removed {rest : Multiset (κ × δ)} {key : κ} {data : Option δ} {p : κ × δ} :
      HashTable.sought keys key data p = true →
      BagEffect keys (p ::ₘ rest) (.remove key data) (some p.2) rest
  | absent {bag : Multiset (κ × δ)} {key : κ} {data : Option δ} :
      (∀ p ∈ bag, HashTable.sought keys key data p = false) →
      BagEffect keys bag (.remove key data) none bag

/-- The bag of pairs as an object. -/
def pairBag [DecidableEq δ] (keys : KeyClass κ) :
    SeqObject (Multiset (κ × δ)) (HashOp κ δ) (Option δ) where
  init := 0
  effect := BagEffect keys

theorem hashTable_refinedBy [DecidableEq δ] (keys : KeyClass κ) :
    (pairBag (δ := δ) keys).RefinedBy (HashTable.apply keys) (HashTable.TableInv keys) := by
  refine ⟨fun table bag o h => ?_⟩
  cases o with
  | insert key data =>
    obtain ⟨after, hafter, hinv⟩ := HashTable.insert_spec h key data
    exact ⟨after, none, _, by rw [HashTable.apply, hafter]; rfl, .insert key data, hinv⟩
  | lookup key =>
    rcases HashTable.lookup_spec h.holds key with ⟨p, hp, hkey, hlookup⟩ | ⟨hall, hlookup⟩
    · exact ⟨table, some p.2, bag, by rw [HashTable.apply, hlookup]; rfl, .found hp hkey, h⟩
    · exact ⟨table, none, bag, by rw [HashTable.apply, hlookup]; rfl, .missing hall, h⟩
  | remove key data =>
    rcases HashTable.remove_spec h key data with
      ⟨p, rest, after, rfl, hp, hremove, hinv⟩ | ⟨hall, hremove⟩
    · exact ⟨after, some p.2, rest, hremove, .removed hp, hinv⟩
    · exact ⟨table, none, bag, hremove, .absent hall, h⟩

/-- Whatever is called on a new table, no unset cell is ever read, the answers are those of
the bag, and the table stays within its load until the directory is full.  `kcount` is the
number of pairs as long as that is an `int`. -/
theorem hashTable_explained [DecidableEq δ] (keys : KeyClass κ) (ops : List (HashOp κ δ)) :
    ∃ table answers bag, runOps (HashTable.apply keys) HashTable.alloc ops = some (table, answers) ∧
      (pairBag keys).Explained 0 ops answers bag ∧ HashTable.TableInv keys table bag ∧
      (bag.card < 2 ^ 31 → table.kcount = (bag.card : Int)) := by
  obtain ⟨table, answers, bag, hrun, hexplained, hinv⟩ :=
    (hashTable_refinedBy keys).runOps ops (HashTable.alloc_inv keys)
  exact ⟨table, answers, bag, hrun, hexplained, hinv, hinv.kcount_eq⟩

/-! ## A table as a finite map -/

/-- The map that the operations work on when no key is inserted twice. -/
def mapApply [DecidableEq δ] (keys : KeyClass κ) (m : κ → Option δ) :
    HashOp κ δ → (κ → Option δ) × Option δ
  | .insert key data => (fun k => if keys.compare k key then some data else m k, none)
  | .lookup key => (m, m key)
  | .remove key data =>
    if data = none ∨ data = m key then
      (fun k => if keys.compare k key then none else m k, m key)
    else (m, none)

/-- The answers of the map. -/
def mapAnswers [DecidableEq δ] (keys : KeyClass κ) :
    (κ → Option δ) → List (HashOp κ δ) → List (Option δ)
  | _, [] => []
  | m, o :: ops => (mapApply keys m o).2 :: mapAnswers keys (mapApply keys m o).1 ops

/-- Every key is inserted only while it is absent. -/
def InsertsFresh [DecidableEq δ] (keys : KeyClass κ) :
    (κ → Option δ) → List (HashOp κ δ) → Prop
  | _, [] => True
  | m, o :: ops =>
    (∀ key data, o = .insert key data → m key = none) ∧
      InsertsFresh keys (mapApply keys m o).1 ops

/-- A bag with one pair for each key of a map. -/
structure BagOf (keys : KeyClass κ) (m : κ → Option δ) (bag : Multiset (κ × δ)) : Prop where
  once : ∀ k, bag.countP (fun p => keys.compare p.1 k = true) ≤ 1
  data_iff : ∀ k d, m k = some d ↔ ∃ p ∈ bag, keys.compare p.1 k = true ∧ p.2 = d

theorem bagOf_empty (keys : KeyClass κ) : BagOf keys (fun _ => (none : Option δ)) 0 :=
  ⟨fun k => Nat.zero_le _, fun k d => ⟨fun h => (by cases h),
    fun ⟨p, hp, _⟩ => absurd hp (Multiset.notMem_zero p)⟩⟩

/-- A key that the map does not have is not in the bag. -/
theorem BagOf.absent {keys : KeyClass κ} {m : κ → Option δ} {bag : Multiset (κ × δ)}
    (h : BagOf keys m bag) {key : κ} (hnone : m key = none) (p : κ × δ) (hp : p ∈ bag) :
    keys.compare p.1 key = false := by
  by_contra hkey
  rw [Bool.not_eq_false] at hkey
  have hsome := (h.data_iff key p.2).mpr ⟨p, hp, hkey, rfl⟩
  rw [hnone] at hsome
  cases hsome

/-- A key that is not in the bag is none of the map's. -/
theorem BagOf.eq_none {keys : KeyClass κ} {m : κ → Option δ} {bag : Multiset (κ × δ)}
    (h : BagOf keys m bag) {key : κ} (hall : ∀ p ∈ bag, keys.compare p.1 key = false) :
    m key = none := by
  cases hm : m key with
  | none => rfl
  | some d =>
    obtain ⟨p, hp, hkey, -⟩ := (h.data_iff key d).mp hm
    rw [hall p hp] at hkey
    cases hkey

theorem BagOf.insert {keys : KeyClass κ} {m : κ → Option δ} {bag : Multiset (κ × δ)}
    (h : BagOf keys m bag) {key : κ} (hnone : m key = none) (data : δ) :
    BagOf keys (fun k => if keys.compare k key then some data else m k) ((key, data) ::ₘ bag) := by
  have habsent := h.absent hnone
  -- a key that compares equal to the new one is not in the bag either
  have hclear : ∀ k, keys.compare key k = true → ∀ p ∈ bag, keys.compare p.1 k = false := by
    intro k hk p hp
    by_contra hpk
    rw [Bool.not_eq_false] at hpk
    have hpkey := keys.compare_trans _ _ _ hpk (keys.compare_symm _ _ hk)
    rw [habsent p hp] at hpkey
    cases hpkey
  refine ⟨fun k => ?_, fun k d => ?_⟩
  · by_cases hk : keys.compare key k = true
    · have hzero : bag.countP (fun p => keys.compare p.1 k = true) = 0 := by
        rw [Multiset.countP_eq_zero]
        intro p hp
        rw [hclear k hk p hp]
        exact Bool.false_ne_true
      rw [Multiset.countP_cons, if_pos hk, hzero]
    · rw [Multiset.countP_cons, if_neg hk]
      exact h.once k
  · by_cases hk : keys.compare k key = true
    · have hkey := keys.compare_symm _ _ hk
      rw [if_pos hk]
      constructor
      · intro hd
        exact ⟨(key, data), Multiset.mem_cons_self _ _, hkey, Option.some.inj hd⟩
      · rintro ⟨p, hp, hpk, rfl⟩
        rcases Multiset.mem_cons.mp hp with rfl | hp
        · rfl
        · rw [hclear k hkey p hp] at hpk
          cases hpk
    · rw [if_neg hk, h.data_iff]
      constructor
      · rintro ⟨p, hp, hpk, hd⟩
        exact ⟨p, Multiset.mem_cons_of_mem hp, hpk, hd⟩
      · rintro ⟨p, hp, hpk, hd⟩
        rcases Multiset.mem_cons.mp hp with rfl | hp
        · exact absurd (keys.compare_symm _ _ hpk) hk
        · exact ⟨p, hp, hpk, hd⟩

theorem BagOf.remove {keys : KeyClass κ} {m : κ → Option δ} {p : κ × δ}
    {rest : Multiset (κ × δ)} (h : BagOf keys m (p ::ₘ rest)) {key : κ}
    (hkey : keys.compare p.1 key = true) :
    BagOf keys (fun k => if keys.compare k key then none else m k) rest := by
  refine ⟨fun k => ?_, fun k d => ?_⟩
  · exact (Multiset.countP_le_of_le _ (Multiset.le_cons_self _ _)).trans (h.once k)
  · by_cases hk : keys.compare k key = true
    · have hpk := keys.compare_trans _ _ _ hkey (keys.compare_symm _ _ hk)
      have honce := h.once k
      rw [Multiset.countP_cons, if_pos hpk] at honce
      have hzero := Multiset.countP_eq_zero.mp (Nat.le_zero.mp (Nat.le_of_succ_le_succ honce))
      rw [if_pos hk]
      exact ⟨fun hd => (by cases hd), fun ⟨q, hq, hqk, _⟩ => absurd hqk (hzero q hq)⟩
    · rw [if_neg hk, h.data_iff]
      constructor
      · rintro ⟨q, hq, hqk, hd⟩
        rcases Multiset.mem_cons.mp hq with rfl | hq
        · exact absurd (keys.compare_trans _ _ _ (keys.compare_symm _ _ hqk) hkey) hk
        · exact ⟨q, hq, hqk, hd⟩
      · rintro ⟨q, hq, hqk, hd⟩
        exact ⟨q, Multiset.mem_cons_of_mem hq, hqk, hd⟩

/-- Removing a key that the map does not have leaves it as it is. -/
theorem BagOf.erase_absent {keys : KeyClass κ} {m : κ → Option δ} {bag : Multiset (κ × δ)}
    (h : BagOf keys m bag) {key : κ} (hall : ∀ p ∈ bag, keys.compare p.1 key = false) :
    (fun k => if keys.compare k key then none else m k) = m := by
  funext k
  by_cases hk : keys.compare k key = true
  · rw [if_pos hk]
    refine (h.eq_none fun p hp => ?_).symm
    by_contra hpk
    rw [Bool.not_eq_false] at hpk
    have hpkey := keys.compare_trans _ _ _ hpk hk
    rw [hall p hp] at hpkey
    cases hpkey
  · rw [if_neg hk]

/-- One operation on the bag is the operation on the map. -/
theorem BagOf.effect [DecidableEq δ] {keys : KeyClass κ} {m : κ → Option δ}
    {bag after : Multiset (κ × δ)} {o : HashOp κ δ} {r : Option δ} (h : BagOf keys m bag)
    (hfresh : ∀ key data, o = .insert key data → m key = none)
    (heffect : BagEffect keys bag o r after) :
    r = (mapApply keys m o).2 ∧ BagOf keys (mapApply keys m o).1 after := by
  cases heffect with
  | insert key data => exact ⟨rfl, h.insert (hfresh key data rfl) data⟩
  | @found _ key p hp hkey => exact ⟨((h.data_iff key p.2).mpr ⟨p, hp, hkey, rfl⟩).symm, h⟩
  | missing hall => exact ⟨(h.eq_none hall).symm, h⟩
  | @removed _ key data p hsought =>
    obtain ⟨hkey, hdata⟩ := Bool.and_eq_true_iff.mp hsought
    have hm := (h.data_iff key p.2).mpr ⟨p, Multiset.mem_cons_self _ _, hkey, rfl⟩
    have hcond : data = none ∨ data = m key := by
      rw [hm]
      simpa using hdata
    rw [mapApply, if_pos hcond]
    exact ⟨hm.symm, h.remove hkey⟩
  | @absent _ key data hall =>
    cases data with
    | none =>
      have hclear : ∀ p ∈ bag, keys.compare p.1 key = false := by
        intro p hp
        have := hall p hp
        simpa [HashTable.sought] using this
      rw [mapApply, if_pos (.inl rfl)]
      exact ⟨(h.eq_none hclear).symm, (h.erase_absent hclear).symm ▸ h⟩
    | some d =>
      have hcond : ¬ (some d = none ∨ some d = m key) := by
        rintro (hnone | hm)
        · cases hnone
        · obtain ⟨p, hp, hkey, rfl⟩ := (h.data_iff key d).mp hm.symm
          have := hall p hp
          simp [HashTable.sought, hkey] at this
      rw [mapApply, if_neg hcond]
      exact ⟨rfl, h⟩

/-- A bag whose keys are inserted only while absent answers as the map does. -/
theorem BagOf.answers [DecidableEq δ] {keys : KeyClass κ} {ops : List (HashOp κ δ)}
    {m : κ → Option δ} {bag after : Multiset (κ × δ)} {answers : List (Option δ)}
    (h : BagOf keys m bag) (hfresh : InsertsFresh keys m ops)
    (hexplained : (pairBag keys).Explained bag ops answers after) :
    answers = mapAnswers keys m ops := by
  induction hexplained generalizing m with
  | nil => rfl
  | cons heffect _ ih =>
    obtain ⟨hr, hnext⟩ := h.effect hfresh.1 heffect
    rw [mapAnswers, ← hr, ih hnext hfresh.2]

/-- Used as a map, a table answers as the map does: every look-up finds the datum inserted
last under its key unless it was removed, however the table has grown in between. -/
theorem hashTable_finiteMap [DecidableEq δ] (keys : KeyClass κ) (ops : List (HashOp κ δ))
    (hfresh : InsertsFresh keys (fun _ => none) ops) :
    ∃ table, runOps (HashTable.apply keys) HashTable.alloc ops =
      some (table, mapAnswers keys (fun _ => none) ops) := by
  obtain ⟨table, answers, bag, hrun, hexplained, -⟩ :=
    (hashTable_refinedBy keys).runOps ops (HashTable.alloc_inv keys)
  rw [(bagOf_empty keys).answers hfresh hexplained] at hrun
  exact ⟨table, hrun⟩

theorem hashTable_finiteMap_words :
    InsertsFresh wordKeys (fun _ => none)
        [.insert 8 'a', .insert 16 'b', .remove 8 none, .insert 8 'c', .lookup 8] ∧
      ∃ table, runOps (HashTable.apply wordKeys) HashTable.alloc
          [.insert 8 'a', .insert 16 'b', .remove 8 none, .insert 8 'c', .lookup 8] =
        some (table, mapAnswers wordKeys (fun _ => none)
          [.insert 8 'a', .insert 16 'b', .remove 8 none, .insert 8 'c', .lookup 8]) := by
  have hfresh : InsertsFresh wordKeys (fun _ => none)
      [.insert 8 'a', .insert 16 'b', .remove 8 none, .insert 8 'c', .lookup 8] := by
    simp [InsertsFresh, mapApply, wordKeys]
  exact ⟨hfresh, hashTable_finiteMap wordKeys _ hfresh⟩

/-! ## Freeing a table -/

namespace HashTable

theorem freeBuckets_spec {segment : Nat → Option (List (κ × δ))} {chains : Nat → List (κ × δ)}
    {index : Nat} (h : ∀ i, i ≤ index → segment i = some (chains i)) :
    ∃ freed, freeBuckets segment index = some freed ∧
      (freed : Multiset δ) = (gather chains (index + 1)).map Prod.snd := by
  induction index with
  | zero =>
    refine ⟨(chains 0).map Prod.snd, by rw [freeBuckets, h 0 (Nat.le_refl 0), Option.map_some], ?_⟩
    simp [gather]
  | succ index ih =>
    obtain ⟨freed, hfreed, hbelow⟩ := ih fun i hi => h i (Nat.le_succ_of_le hi)
    refine ⟨(chains (index + 1)).map Prod.snd ++ freed, ?_, ?_⟩
    · simp only [freeBuckets, h (index + 1) (Nat.le_refl _), hfreed, Option.map_some]
    · rw [gather_succ, Multiset.map_add, ← hbelow, ← Multiset.coe_add, Multiset.map_coe, add_comm]

theorem cell_div {segment index : Nat} (h : index < hSegSize) :
    (segment * hSegSize + index) / hSegSize = segment := by
  rw [Nat.mul_comm, Nat.mul_add_div (Nat.zero_lt_succ _), Nat.div_eq_of_lt h, Nat.add_zero]

theorem cell_mod {segment index : Nat} (h : index < hSegSize) :
    (segment * hSegSize + index) % hSegSize = index := by
  rw [Nat.mul_comm, Nat.mul_add_mod, Nat.mod_eq_of_lt h]

/-- The buckets of the segment where `freeHashTable` starts, up to its index. -/
theorem segment_spec {table : HashTable κ δ} {chains : Nat → List (κ × δ)}
    {segment index : Nat} (hindex : index < hSegSize)
    (h : ∀ b, b < segment * hSegSize + (index + 1) → table.readBucket b = some (chains b)) :
    ∃ buckets freed, table.dir segment = some buckets ∧ freeBuckets buckets index = some freed ∧
      (freed : Multiset δ) =
        (gather (fun i => chains (segment * hSegSize + i)) (index + 1)).map Prod.snd := by
  have hread := h (segment * hSegSize + index) (Nat.lt_succ_self _)
  obtain ⟨buckets, hbuckets⟩ := Option.isSome_iff_exists.mp (dir_isSome_of_read hread)
  rw [cell_div hindex] at hbuckets
  have hcells : ∀ i, i ≤ index → buckets i = some (chains (segment * hSegSize + i)) := by
    intro i hi
    have hi' : i < hSegSize := Nat.lt_of_le_of_lt hi hindex
    have hb := h (segment * hSegSize + i) (Nat.add_lt_add_left (Nat.lt_succ_of_le hi) _)
    rw [← hb, readBucket, cell_div hi', cell_mod hi', hbuckets]
  obtain ⟨freed, hfreed, hdata⟩ := freeBuckets_spec hcells
  exact ⟨buckets, freed, hbuckets, hfreed, hdata⟩

theorem freeSegments_spec {table : HashTable κ δ} {chains : Nat → List (κ × δ)}
    {segment index : Nat} (hindex : index < hSegSize)
    (h : ∀ b, b < segment * hSegSize + (index + 1) → table.readBucket b = some (chains b)) :
    ∃ freed, table.freeSegments segment index = some freed ∧
      (freed : Multiset δ) = (gather chains (segment * hSegSize + (index + 1))).map Prod.snd := by
  induction segment generalizing index with
  | zero =>
    obtain ⟨buckets, freed, hbuckets, hfreed, hdata⟩ := segment_spec hindex h
    refine ⟨freed, by simp only [freeSegments, hbuckets, hfreed], ?_⟩
    simpa only [Nat.zero_mul, Nat.zero_add] using hdata
  | succ segment ih =>
    obtain ⟨buckets, freed, hbuckets, hfreed, hdata⟩ := segment_spec hindex h
    have hlast : hSegSize - 1 < hSegSize := by decide
    have hfull : segment * hSegSize + (hSegSize - 1 + 1) = (segment + 1) * hSegSize := by
      rw [Nat.succ_mul, Nat.sub_add_cancel (Nat.zero_lt_of_lt hlast)]
    have hbelow : ∀ b, b < segment * hSegSize + (hSegSize - 1 + 1) →
        table.readBucket b = some (chains b) := by
      intro b hb
      rw [hfull] at hb
      exact h b (Nat.lt_of_lt_of_le hb (Nat.le_add_right _ _))
    obtain ⟨rest, hrest, hrestData⟩ := ih hlast hbelow
    refine ⟨freed ++ rest, ?_, ?_⟩
    · simp only [freeSegments, hbuckets, hfreed, hrest, Option.map_some]
    · rw [gather_add, Multiset.map_add, ← hdata, ← hfull, ← hrestData, ← Multiset.coe_add,
        add_comm]

theorem free_spec {keys : KeyClass κ} {table : HashTable κ δ} {bag : Multiset (κ × δ)}
    (h : Holds keys table bag) :
    ∃ freed, table.free = some freed ∧ (freed : Multiset δ) = bag.map Prod.snd := by
  obtain ⟨hshape, chains, hchains, rfl⟩ := h
  have hlast : (table.max + table.split - 1) / hSegSize * hSegSize +
      ((table.max + table.split - 1) % hSegSize + 1) = table.bcount := by
    have hlt := hshape.split_lt
    have hbcount := hshape.bcount
    rw [← Nat.add_assoc, Nat.div_add_mod' (table.max + table.split - 1) hSegSize]
    omega
  obtain ⟨freed, hfreed, hdata⟩ :=
    freeSegments_spec (Nat.mod_lt _ (Nat.zero_lt_succ _))
      fun b hb => hchains.read b (hlast ▸ hb)
  rw [hlast] at hdata
  exact ⟨freed, hfreed, hdata⟩

end HashTable

/-- The data that calls hand over to a table. -/
def inserted : List (HashOp κ δ) → List δ
  | [] => []
  | .insert _ data :: ops => data :: inserted ops
  | .lookup _ :: ops => inserted ops
  | .remove _ _ :: ops => inserted ops

/-- The data that calls get back for good. -/
def handedBack : List (HashOp κ δ) → List (Option δ) → List δ
  | .remove _ _ :: ops, some data :: answers => data :: handedBack ops answers
  | _ :: ops, _ :: answers => handedBack ops answers
  | _, _ => []

theorem pairBag_conserves [DecidableEq δ] {keys : KeyClass κ} {ops : List (HashOp κ δ)}
    {answers : List (Option δ)} {bag after : Multiset (κ × δ)}
    (h : (pairBag keys).Explained bag ops answers after) :
    bag.map Prod.snd + inserted ops = handedBack ops answers + after.map Prod.snd := by
  induction h with
  | nil => simp [inserted, handedBack]
  | cons heffect _ ih =>
    cases heffect with
    | insert key data =>
      rw [Multiset.map_cons, Multiset.cons_add, ← Multiset.add_cons, Multiset.cons_coe] at ih
      exact ih
    | found => exact ih
    | missing => exact ih
    | @removed _ key data p =>
      rw [Multiset.map_cons, Multiset.cons_add, inserted, ih, handedBack, ← Multiset.cons_coe,
        Multiset.cons_add]
    | absent => exact ih

/-- `freeHashTable` after any calls: each datum that was handed to the table either came back
from `removeHashTable` or goes to `freeDataFun`, once. -/
theorem hashTable_frees [DecidableEq δ] (keys : KeyClass κ) (ops : List (HashOp κ δ)) :
    ∃ table answers freed,
      runOps (HashTable.apply keys) HashTable.alloc ops = some (table, answers) ∧
        table.free = some freed ∧ (inserted ops).Perm (handedBack ops answers ++ freed) := by
  obtain ⟨table, answers, bag, hrun, hexplained, hinv⟩ :=
    (hashTable_refinedBy keys).runOps ops (HashTable.alloc_inv keys)
  obtain ⟨freed, hfree, hdata⟩ := HashTable.free_spec hinv.holds
  refine ⟨table, answers, freed, hrun, hfree, ?_⟩
  have hconserves := pairBag_conserves hexplained
  rw [← hdata, Multiset.map_zero, zero_add, Multiset.coe_add] at hconserves
  exact Multiset.coe_eq_coe.mp hconserves

end HosBoot.Rts
