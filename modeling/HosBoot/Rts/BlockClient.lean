/-
  Rts/BlockClient.lean --- what a client does with the groups it holds.

  A client links its groups, moves `free`, uses the memory of a large group as it likes, and
  divides a group into single blocks, as sm/Storage.c does for a nursery.  None of that
  reaches what the allocator relies on.
-/
import HosBoot.Rts.BlockReturning

set_option autoImplicit false

namespace HosBoot.Rts

open HosBoot.Foundation

variable {H : BlockHeader} {L : BlockSizes} {C R A : Finset Group} {before : Nat → BDescr}
  {c : BlockAlloc} {s : BlockModel} {T : Finset Group} {g u : Group}

/-! ## Stores -/

/-- A client's stores to descriptor `a` of its group `g`: all fields but `start` and `blocks`, as
long as the head is not marked free and the others lead to the head; and anything behind the
first megablock, where the group has no descriptors. -/
def MayStore (L : BlockSizes) (g : Group) (a : Nat) (old new : BDescr) : Prop :=
  a / L.blocksPerMBlock ≠ g.start / L.blocksPerMBlock ∨
    (new.start = old.start ∧ new.blocks = old.blocks ∧
      if a = g.start then new.free ≠ .minusOne else new.link = old.link)

/-- Stores to a client's groups and to memory that is not the allocator's. -/
def ClientWrites (L : BlockSizes) (C : Finset Group) (c : BlockAlloc) (after : Nat → BDescr) :
    Prop :=
  ∀ x, after x = c.bdescr x ∨
    (∀ a, x = L.bdescrAt a → c.heapAlloced (a / L.blocksPerMBlock) = false) ∨
    ∃ g ∈ C, ∃ a, g.Has a ∧ x = L.bdescrAt a ∧ MayStore L g a (c.bdescr x) (after x)

/-- The single blocks of a group. -/
def singles (g : Group) : Finset Group :=
  (Finset.range g.size).image fun i => ⟨g.start + i, 1, .live⟩

/-- Every descriptor of a group becomes the head of a single block. -/
structure Divides (L : BlockSizes) (g : Group) (before after : Nat → BDescr) : Prop where
  single : ∀ a, g.Has a → (after (L.bdescrAt a)).start = (before (L.bdescrAt a)).start ∧
    (after (L.bdescrAt a)).blocks = 1 ∧ (after (L.bdescrAt a)).free ≠ .minusOne
  other : ∀ x, (∀ a, g.Has a → x ≠ L.bdescrAt a) → after x = before x

/-- The loop of `allocNursery` over the `n` blocks of a chunk, which it links in front of `tail`;
the store to `tail->u.back` is left to the other writes. -/
def allocNurseryLoop (memory : Nat → BDescr) (bd n : Nat) (tail : Option Nat) : Nat → BDescr :=
  fun x =>
    if bd ≤ x ∧ x < bd + n then
      { start := (memory x).start
        free := .within (memory x).start
        link := if x + 1 < bd + n then some (x + 1) else tail
        back := if bd < x then some (x - 1) else none
        blocks := 1 }
    else memory x

/-- The addresses of the descriptors of a chunk. -/
theorem bdescrAt_chunk (hshape : Small L g ∨ Mega L g) (hle : g.size ≤ L.blocksPerMBlock) {i : Nat}
    (hi : i < g.size) : L.bdescrAt (g.start + i) = L.bdescrAt g.start + i := by
  refine L.bdescrAt_add ?_
  rcases hshape with hsmall | hmega
  · have hwithin := hsmall.within
    omega
  · rw [hmega.first]
    omega

/-- The loop divides a chunk that fits in a megablock. -/
theorem allocNurseryLoop_divides (hshape : Small L g ∨ Mega L g)
    (hle : g.size ≤ L.blocksPerMBlock) (memory : Nat → BDescr) (tail : Option Nat) :
    Divides L g memory (allocNurseryLoop memory (L.bdescrAt g.start) g.size tail) := by
  have hin : ∀ x, (L.bdescrAt g.start ≤ x ∧ x < L.bdescrAt g.start + g.size) ↔
      ∃ a, g.Has a ∧ x = L.bdescrAt a := by
    intro x
    constructor
    · rintro ⟨hlow, hhigh⟩
      refine ⟨g.start + (x - L.bdescrAt g.start), ⟨Nat.le_add_right _ _, ?_⟩, ?_⟩
      · unfold Tile.stop
        omega
      · rw [bdescrAt_chunk hshape hle (by omega)]
        omega
    · rintro ⟨a, ⟨hlow, hhigh⟩, rfl⟩
      have haddr := bdescrAt_chunk hshape hle (i := a - g.start)
        (by unfold Tile.stop at hhigh; omega)
      rw [Nat.add_sub_cancel' hlow] at haddr
      unfold Tile.stop at hhigh
      omega
  refine ⟨fun a ha => ?_, fun x hx => ?_⟩
  · unfold allocNurseryLoop
    rw [if_pos ((hin _).mpr ⟨a, ha, rfl⟩)]
    exact ⟨rfl, rfl, fun h => by cases h⟩
  · unfold allocNurseryLoop
    rw [if_neg fun h => ?_]
    obtain ⟨a, ha, heq⟩ := (hin x).mp h
    exact hx a ha heq

/-! ## Single blocks -/

theorem mem_singles : u ∈ singles g ↔ g.Has u.start ∧ u.size = 1 ∧ u.label = .live := by
  rw [singles, Finset.mem_image]
  constructor
  · rintro ⟨i, hi, rfl⟩
    refine ⟨⟨Nat.le_add_right _ _, ?_⟩, rfl, rfl⟩
    exact Nat.add_lt_add_left (Finset.mem_range.mp hi) _
  · rintro ⟨⟨hle, hlt⟩, hsize, hlive⟩
    unfold Tile.stop at hlt
    refine ⟨u.start - g.start, Finset.mem_range.mpr (by omega), ?_⟩
    rw [Nat.add_sub_cancel' hle, ← hsize, ← hlive]

theorem singles_has (hu : u ∈ singles g) {a : Nat} : u.Has a ↔ a = u.start := by
  obtain ⟨-, hsize, -⟩ := mem_singles.mp hu
  unfold Tile.Has Tile.stop
  omega

theorem singles_tiles (g : Group) : Tiles (singles g) g.Has := by
  refine ⟨fun u hu => ?_, fun t ht u hu a hta hua => ?_, fun a => ⟨fun ha => ?_, ?_⟩⟩
  · rw [(mem_singles.mp hu).2.1]
    decide
  · obtain ⟨-, htsize, htlive⟩ := mem_singles.mp ht
    obtain ⟨-, husize, hulive⟩ := mem_singles.mp hu
    have hstart : t.start = u.start :=
      ((singles_has ht).mp hta).symm.trans ((singles_has hu).mp hua)
    calc t = ⟨t.start, t.size, t.label⟩ := rfl
      _ = ⟨u.start, u.size, u.label⟩ := by rw [hstart, htsize, husize, htlive, hulive]
  · have hmem : (⟨a, 1, .live⟩ : Group) ∈ singles g := mem_singles.mpr ⟨ha, rfl, rfl⟩
    exact ⟨_, hmem, (singles_has hmem).mpr rfl⟩
  · rintro ⟨u, hu, hua⟩
    rw [(singles_has hu).mp hua]
    exact (mem_singles.mp hu).1

theorem singles_sum (g : Group) : ∑ u ∈ singles g, u.size = g.size := by
  rw [singles, Finset.sum_image fun i _ j _ heq => Nat.add_left_cancel (congrArg Tile.start heq),
    Finset.sum_const_nat fun i _ => rfl, Finset.card_range, Nat.mul_one]

/-! ## What the allocator relies on -/

/-- The client exchanges groups of its own, in the place where they lie. -/
theorem Settled.restock (h : Settled L s T) (hR : R ⊆ held .live T) (hA : ∀ u ∈ A, u.label = .live)
    {added : Nat → Prop} (htiles : Tiles A added) (hsame : ∀ a, added a ↔ ∃ r ∈ R, r.Has a)
    {bdescr : Nat → ModelDescr}
    (hframe : ∀ a, Owned L s a → (∀ r ∈ R, ¬ r.Has a) → bdescr a = s.bdescr a)
    (hgroups : ∀ u ∈ A, GroupOk L bdescr u) :
    Settled L { s with bdescr := bdescr } (exchange T R A) := by
  have hplaced := h.placed
  have hlive : ∀ u ∈ R, u.label = .live := fun u hu => (mem_held.mp (hR hu)).2
  have hfrees : held .free (exchange T R A) = held .free T := by
    refine held_exchange_other (fun u hu => ?_) fun u hu => ?_
    · rw [hlive u hu]
      decide
    · rw [hA u hu]
      decide
  refine ⟨?_, fun u hu => ?_, h.small.mono fun u hu _ => hfrees ▸ hu,
    h.mega.mono fun u hu _ => hfrees ▸ hu⟩
  · refine hplaced.rearrange (fun u hu => (mem_held.mp (hR hu)).1) htiles hsame ⟨rfl, rfl⟩
      ⟨hframe, rfl, rfl⟩ hgroups ?_
    rw [hfrees]
    exact hplaced.lists.congr rfl rfl
  · rcases mem_exchange.mp hu with ⟨huT, -⟩ | huA
    · exact h.noHand u huT
    · rw [hA u huA]
      decide

/-- The groups that the client then holds. -/
theorem held_restock (hA : ∀ u ∈ A, u.label = .live) :
    held .live (exchange T R A) = (held .live T \ R) ∪ A := by
  ext u
  simp only [mem_held, mem_exchange, Finset.mem_union, Finset.mem_sdiff]
  constructor
  · rintro ⟨⟨hu, huR⟩ | hu, hlive⟩
    · exact .inl ⟨⟨hu, hlive⟩, huR⟩
    · exact .inr hu
  · rintro (⟨⟨hu, hlive⟩, huR⟩ | hu)
    · exact ⟨.inl ⟨hu, huR⟩, hlive⟩
    · exact ⟨.inr hu, hA u hu⟩

/-- A client's stores leave its group as the allocator needs it. -/
theorem Represents.groupOk_write (h : Represents H C before c s)
    (hok : GroupOk H.toBlockSizes s.bdescr g) (hpos : 0 < g.size) (hlive : g.label = .live)
    {memory : Nat → BDescr}
    (hstores : ∀ a, g.Has a → memory (H.bdescrAt a) = c.bdescr (H.bdescrAt a) ∨
      MayStore H.toBlockSizes g a (c.bdescr (H.bdescrAt a)) (memory (H.bdescrAt a))) :
    GroupOk H.toBlockSizes (fun a => H.view (memory (H.bdescrAt a))) g := by
  have hfirst : ∀ a, g.Has a → a / H.blocksPerMBlock = g.start / H.blocksPerMBlock →
      memory (H.bdescrAt a) = c.bdescr (H.bdescrAt a) ∨
        ((memory (H.bdescrAt a)).start = (c.bdescr (H.bdescrAt a)).start ∧
          (memory (H.bdescrAt a)).blocks = (c.bdescr (H.bdescrAt a)).blocks ∧
          if a = g.start then (memory (H.bdescrAt a)).free ≠ .minusOne
          else (memory (H.bdescrAt a)).link = (c.bdescr (H.bdescrAt a)).link) := by
    intro a ha hdiv
    rcases hstores a ha with hsame | hfar | hstore
    · exact .inl hsame
    · exact absurd hdiv hfar
    · exact .inr hstore
  have hhead := hfirst g.start (Tile.has_start hpos) rfl
  have hview : ∀ a, s.bdescr a = H.view (c.bdescr (H.bdescrAt a)) := h.view
  refine ⟨hok.shape, ?_, fun a ha hdiv => ?_, fun _ => ⟨?_, fun a ha hne hdiv => ?_⟩,
    fun hfree => ?_⟩
  · have hblocks := hok.blocks
    rw [hview] at hblocks
    rcases hhead with hsame | ⟨-, hsame, -⟩
    · exact (congrArg (fun d => d.blocks.toNat) hsame).trans hblocks
    · exact (congrArg UInt32.toNat hsame).trans hblocks
  · have hstart := hok.starts a ha hdiv
    rw [hview] at hstart
    rcases hfirst a ha hdiv with hsame | ⟨hsame, -⟩
    · exact (congrArg BDescr.start hsame).trans hstart
    · exact hsame.trans hstart
  · have hmark := (hok.live hlive).1
    rw [hview] at hmark
    rcases hhead with hsame | ⟨-, -, hnew⟩
    · exact fun heq => hmark ((congrArg BDescr.free hsame).symm.trans heq)
    · rw [if_pos rfl] at hnew
      exact hnew
  · have htail := (hok.live hlive).2 a ha hne hdiv
    rw [hview] at htail
    rcases hfirst a ha hdiv with hsame | ⟨-, hblocks, hlink⟩
    · show PointsTo (H.view (memory (H.bdescrAt a))) g.start
      rw [hsame]
      exact htail
    · rw [if_neg hne] at hlink
      have hsame : PointsTo (H.view (memory (H.bdescrAt a))) g.start ↔
          PointsTo (H.view (c.bdescr (H.bdescrAt a))) g.start := by
        simp only [BlockSizes.view, hblocks, hlink]
        exact ⟨fun hto => ⟨hto.blocks, hto.link⟩, fun hto => ⟨hto.blocks, hto.link⟩⟩
      exact hsame.mpr htail
  · rw [hlive] at hfree
    cases hfree

/-- Single blocks are groups. -/
theorem Represents.groupOk_single (h : Represents H C before c s)
    (hok : GroupOk H.toBlockSizes s.bdescr g) (hle : g.size ≤ H.blocksPerMBlock)
    {memory : Nat → BDescr} (hdivides : Divides H.toBlockSizes g c.bdescr memory)
    (hu : u ∈ singles g) :
    GroupOk H.toBlockSizes (fun a => H.view (memory (H.bdescrAt a))) u := by
  obtain ⟨hhas, hsize, hlive⟩ := mem_singles.mp hu
  obtain ⟨hstart, hblocks, hmark⟩ := hdivides.single u.start hhas
  have hone : u.size < H.blocksPerMBlock := by
    rw [hsize]
    exact H.one_lt_perMBlock
  have hmod := Nat.mod_lt u.start H.perMBlock_pos
  have hdiv : u.start / H.blocksPerMBlock = g.start / H.blocksPerMBlock := by
    rcases hok.shape with hsmall | hmega
    · exact hsmall.div_eq hhas
    · have hspan := (hmega.has_iff _).mp hhas
      have hlast : g.size / H.blocksPerMBlock ≤ 1 :=
        Nat.div_le_of_le_mul (by rw [Nat.mul_one]; exact hle)
      omega
  refine ⟨.inl ⟨hone, by omega⟩, ?_, fun a ha _ => ?_, fun _ => ⟨hmark, fun a ha hne _ => ?_⟩,
    fun hfree => ?_⟩
  · rw [blocksOf_small hone, hsize]
    exact congrArg UInt32.toNat hblocks
  · rw [(singles_has hu).mp ha]
    refine hstart.trans ?_
    rw [h.start_eq]
    exact hok.starts u.start hhas hdiv
  · exact absurd ((singles_has hu).mp ha) hne
  · rw [hlive] at hfree
    cases hfree

/-- Memory after a client's stores, as the model sees it. -/
theorem Represents.clientStores (h : Represents H C before c s)
    (hplaced : Placed H.toBlockSizes s T) {memory : Nat → BDescr} (hR : R ⊆ held .live T)
    (hframe : ∀ a, Owned H.toBlockSizes s a → (∀ r ∈ R, ¬ r.Has a) →
      memory (H.bdescrAt a) = c.bdescr (H.bdescrAt a)) (C' : Finset Group) :
    Represents H C' memory { c with bdescr := memory }
      { s with bdescr := fun a => H.view (memory (H.bdescrAt a)) } := by
  have hstored : Represents H ∅ before { c with bdescr := memory }
      { s with bdescr := fun a => H.view (memory (H.bdescrAt a)) } := by
    refine Represents.store (C := ∅) ⟨h.view, h.lists, h.mblocks, fun u hu => by simp at hu,
      h.nAlloc, h.hwAlloc, h.map, h.count, h.counted, h.bound⟩ (fun a => rfl) (fun a ha => ?_)
      fun u hu => by simp at hu
    obtain ⟨u, hu, hfree, rfl⟩ := hplaced.listed ha
    have hhas := Tile.has_start (hplaced.tiles.pos u hu)
    have hsame := hframe u.start ((hplaced.tiles.cover _).mpr ⟨u, hu, hhas⟩) fun r hr hra => by
      obtain ⟨hrT, hlive⟩ := mem_held.mp (hR hr)
      rw [hplaced.tiles.apart r hrT u hu _ hra hhas, hfree] at hlive
      cases hlive
    rw [hsame]
    exact ⟨rfl, rfl⟩
  exact hstored.rebase C'

end HosBoot.Rts
