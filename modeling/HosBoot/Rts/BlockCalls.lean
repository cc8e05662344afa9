/-
  Rts/BlockCalls.lean --- `allocGroup` and `allocLargeChunk`.

  Whatever the state of the free lists, a call ends with a new live group beside those the
  client holds; no assertion fails and no list is found corrupted.
-/
import HosBoot.Rts.BlockMBlocks

set_option autoImplicit false

namespace HosBoot.Rts

open HosBoot.Foundation

variable {L : BlockSizes} {s s' s₁ : BlockModel} {T T' T₁ : Finset Group} {g t u : Group}

/-! ## Putting steps together -/

/-- The counters are not part of the layout. -/
theorem Settled.congr (h : Settled L s T) (hbdescr : s'.bdescr = s.bdescr)
    (hfree : s'.freeList = s.freeList) (hmblock : s'.freeMBlockList = s.freeMBlockList)
    (hmap : s'.heapAlloced = s.heapAlloced) : Settled L s' T := by
  refine ⟨⟨?_, ?_, h.placed.lists.congr hfree hmblock⟩, h.noHand, h.small, h.mega⟩
  · refine h.placed.tiles.congr fun a => ?_
    unfold Owned
    rw [hmap]
  · rw [hbdescr]
    exact h.placed.groups

/-- Steps that the client does not see before an allocation. -/
theorem Allocs.of_evolves (h : Evolves s T s₁ T₁) (h' : Allocs L s₁ T₁ g s' T') :
    Allocs L s T g s' T' := by
  refine ⟨h'.settled, by rw [h'.lives, h.lives], ?_, fun u hu a ha => ?_, h'.setUp⟩
  · rw [← h.lives]
    exact h'.new
  · rw [h'.frame u (h.lives ▸ hu) a ha, h.frame u hu a ha]

/-- What a call of the allocator does: a new group, and both counters go up by its blocks. -/
structure Allocated (L : BlockSizes) (s : BlockModel) (T : Finset Group) (g : Group)
    (s' : BlockModel) (T' : Finset Group) : Prop where
  allocs : Allocs L s T g s' T'
  nAlloc : s'.nAllocBlocks = s.nAllocBlocks + g.size
  hwAlloc : s'.hwAllocBlocks = max s.hwAllocBlocks (s.nAllocBlocks + g.size)
  map : MapCounted s → MapCounted s'

/-- A group in hand is initialised after the counters went up. -/
theorem handOut_counted (h : InHand L s₁ T₁ g) (hevolves : Evolves (s.countAlloc g.size) T s₁ T₁)
    (hmap : MapCounted s → MapCounted s₁) :
    Allocated L s T (g.to .live) (s₁.initGroup L g.start) (exchange T₁ {g} {g.to .live}) := by
  have hout := handOut_spec h
  have hall := Allocs.of_evolves hevolves hout
  refine ⟨⟨hall.settled, hall.lives, hall.new, hall.frame, hall.setUp⟩, hevolves.nAlloc,
    hevolves.hwAlloc, fun hcounted => (hmap hcounted).congr ⟨rfl, rfl⟩⟩

/-! ## Free lists -/

theorem skipEmpty_spec (s : BlockModel) (k ln : Nat) :
    ln ≤ s.skipEmpty k ln ∧ s.skipEmpty k ln ≤ ln + k ∧
      (s.skipEmpty k ln < ln + k → s.freeList (s.skipEmpty k ln) ≠ []) ∧
      ∀ i, ln ≤ i → i < s.skipEmpty k ln → s.freeList i = [] := by
  induction k generalizing ln with
  | zero =>
    refine ⟨Nat.le_refl _, Nat.le_refl _, fun h => absurd h (Nat.lt_irrefl _), fun i hle hlt => ?_⟩
    exact absurd (Nat.lt_of_le_of_lt hle hlt) (Nat.lt_irrefl _)
  | succ k ih =>
    rw [BlockModel.skipEmpty]
    by_cases hempty : s.freeList ln = []
    · obtain ⟨hge, hle, hfound, hskipped⟩ := ih (ln + 1)
      rw [if_pos hempty]
      refine ⟨by omega, by omega, fun hlt => hfound (by omega), fun i hi hlt => ?_⟩
      rcases Nat.eq_or_lt_of_le hi with rfl | hgt
      · exact hempty
      · exact hskipped i hgt hlt
    · rw [if_neg hempty]
      refine ⟨Nat.le_refl _, Nat.le_add_right _ _, fun _ => hempty, fun i hle hlt => ?_⟩
      exact absurd (Nat.lt_of_le_of_lt hle hlt) (Nat.lt_irrefl _)

/-- What the loop over the free lists looks for: a group of at least `n` blocks, first on list
`ln`. -/
structure FirstFit (L : BlockSizes) (s : BlockModel) (T : Finset Group) (n ln : Nat) (g : Group)
    (rest : List Nat) : Prop where
  mem : g ∈ T
  free : g.label = .free
  small : Small L g
  log : log2 g.size = ln
  list : s.freeList ln = g.start :: rest
  large : n ≤ g.size
  blocks : (s.bdescr g.start).blocks = g.size

/-- The first group of a free list. -/
theorem Settled.first_free (h : Settled L s T) {ln n bd : Nat} {rest : List Nat}
    (hlist : s.freeList ln = bd :: rest) (hn : n ≤ 2 ^ ln) :
    ∃ g, FirstFit L s T n ln g rest := by
  have hmem : bd ∈ s.freeList ln := by
    rw [hlist]
    exact List.mem_cons_self
  obtain ⟨g, hg, hlt, hlog, rfl⟩ := (h.placed.lists.mem_free ln bd).mp hmem
  obtain ⟨hgT, hgfree⟩ := mem_held.mp hg
  have hok := h.placed.groups g hgT
  have hspec := log2_spec (h.placed.tiles.pos g hgT) (Nat.lt_trans hlt L.perMBlock_lt)
  rw [hlog] at hspec
  refine ⟨g, hgT, hgfree, hok.small_or.1 hlt, hlog, hlist, Nat.le_trans hn hspec.2.1, ?_⟩
  rw [hok.blocks, blocksOf_small hlt]

/-- The loop ends behind the lists it may look at, or at a group that is large enough. -/
theorem Settled.skipEmpty (h : Settled L s T) {n top : Nat} (hle : log2Ceil n ≤ top)
    (htop : top ≤ maxFreeList) :
    s.skipEmpty (top - log2Ceil n) (log2Ceil n) = top ∨
      ∃ ln g rest, s.skipEmpty (top - log2Ceil n) (log2Ceil n) = ln ∧ ln ≠ top ∧
        FirstFit L s T n ln g rest := by
  obtain ⟨hge, hle', hfound, -⟩ := skipEmpty_spec s (top - log2Ceil n) (log2Ceil n)
  rw [Nat.add_sub_cancel' hle] at hle' hfound
  rcases Nat.eq_or_lt_of_le hle' with hnone | hlt
  · exact .inl hnone
  obtain ⟨bd, rest, hlist⟩ := List.exists_cons_of_ne_nil (hfound hlt)
  have hpow : n ≤ 2 ^ log2Ceil n :=
    (log2Ceil_spec n).2 (Nat.lt_of_le_of_lt hge (Nat.lt_of_lt_of_le hlt htop))
  obtain ⟨g, hfit⟩ := h.first_free hlist
    (Nat.le_trans hpow (Nat.pow_le_pow_right (by decide) hge))
  exact .inr ⟨_, g, rest, rfl, Nat.ne_of_lt hlt, hfit⟩

/-! ## A new megablock for a small group -/

/-- A small piece of a group is set up as a group. -/
theorem setUp_piece (hsmall : Small L u) (hpos : 0 < u.size)
    (hstarts : ∀ a, u.Has a → (s.bdescr a).start = L.blockAt a)
    (hs' : s' = (s.setBlocks u.start u.size).initGroup L u.start) :
    GroupOk L s'.bdescr (u.to .live) ∧ SetUp L s'.bdescr (u.to .live) ∧
      ∀ a, ¬ u.Has a → s'.bdescr a = s.bdescr a := by
  obtain ⟨s₁, hs₁⟩ : ∃ s₁, s₁ = s.setBlocks u.start u.size := ⟨_, rfl⟩
  have hblocks : (s₁.bdescr u.start).blocks = blocksOf L u.size := by
    rw [hs₁, BlockModel.setBlocks, setDescr_self]
    exact (blocksOf_small hsmall.lt).symm
  have hother : ∀ a, a ≠ u.start → s₁.bdescr a = s.bdescr a := by
    intro a ha
    rw [hs₁]
    exact setDescr_other _ ha
  have hstarts₁ : ∀ a, u.Has a → (s₁.bdescr a).start = L.blockAt a := by
    intro a ha
    have hstart := hstarts a ha
    by_cases hhead : a = u.start
    · rw [hhead] at hstart ⊢
      rw [hs₁, BlockModel.setBlocks, setDescr_self]
      exact hstart
    · rw [hother a hhead]
      exact hstart
  rw [hs', ← hs₁]
  refine ⟨initGroup_ok (.inl hsmall) hblocks (fun a ha _ => hstarts₁ a ha) .live (by decide),
    initGroup_setUp (.inl hsmall) hblocks (hstarts₁ _ (Tile.has_start hpos)) .live,
    fun a ha => ?_⟩
  rw [initGroup_other (.inl hsmall) hpos hblocks a ha]
  refine hother a ?_
  rintro rfl
  exact ha (Tile.has_start hpos)

/-- The first `n` blocks of a megablock. -/
def frontPiece (g : Group) (n : Nat) : Group := ⟨g.start, n, .live⟩

/-- The blocks of a megablock behind its first `n`. -/
def slopPiece (L : BlockSizes) (g : Group) (n : Nat) : Group :=
  ⟨g.start + n, L.blocksPerMBlock - n, .live⟩

/-- The pieces are small groups, apart from each other. -/
theorem pieces_shape (hG : Mega L g) (hsize : g.size = L.blocksPerMBlock) {n : Nat}
    (hn : n < L.blocksPerMBlock) (hpos : 0 < n) :
    Small L (frontPiece g n) ∧ Small L (slopPiece L g n) ∧
      (∀ a, (frontPiece g n).Has a → g.Has a ∧ ¬ (slopPiece L g n).Has a) ∧
      ∀ a, (slopPiece L g n).Has a → g.Has a ∧ ¬ (frontPiece g n).Has a := by
  have hmod : (g.start + n) % L.blocksPerMBlock = n := by
    rw [Nat.add_mod, hG.first, Nat.zero_add, Nat.mod_mod, Nat.mod_eq_of_lt hn]
  unfold frontPiece slopPiece Tile.Has Tile.stop
  refine ⟨⟨hn, ?_⟩, ⟨?_, ?_⟩, fun a ha => ?_, fun a ha => ?_⟩
  · show g.start % L.blocksPerMBlock + n ≤ L.blocksPerMBlock
    rw [hG.first]
    omega
  · show L.blocksPerMBlock - n < L.blocksPerMBlock
    omega
  · show (g.start + n) % L.blocksPerMBlock + (L.blocksPerMBlock - n) ≤ L.blocksPerMBlock
    rw [hmod]
    omega
  · simp only at ha ⊢
    omega
  · simp only at ha ⊢
    omega

/-- The tiling of a new megablock: the group asked for and the slop. -/
theorem slop_spec (h : InHand L s T g) {n : Nat} (hsize : g.size = L.blocksPerMBlock)
    (hpos : 0 < n) (hn : n < L.blocksPerMBlock)
    (hs' : s' = ((((s.setBlocks g.start n).initGroup L g.start).setBlocks (g.start + n)
      (L.blocksPerMBlock - n)).initGroup L (g.start + n))) :
    Settled L s' (exchange T {g} {⟨g.start, n, .live⟩,
        ⟨g.start + n, L.blocksPerMBlock - n, .live⟩}) ∧
      Touches L s s' {g} ∧ SameMBlocks s s' ∧
      (s'.bdescr (g.start + n)).blocks = L.blocksPerMBlock - n ∧
      SetUp L s'.bdescr ⟨g.start, n, .live⟩ := by
  have hplaced := h.placed
  have hG := hplaced.mega h.mem (Nat.le_of_eq hsize.symm)
  obtain ⟨hfrontSmall, hslopSmall, hfrontHas, hslopHas⟩ := pieces_shape hG hsize hn hpos
  have hslopPos : 0 < (slopPiece L g n).size := Nat.sub_pos_of_lt hn
  have hstarts : ∀ a, g.Has a → (s.bdescr a).start = L.blockAt a := by
    intro a ha
    refine (hplaced.groups g h.mem).starts a ha ?_
    rw [hG.has_iff, hsize, Nat.div_self L.perMBlock_pos] at ha
    omega
  -- the state between the two pieces
  obtain ⟨s₂, hs₂⟩ : ∃ s₂, s₂ = (s.setBlocks g.start n).initGroup L g.start := ⟨_, rfl⟩
  obtain ⟨hfrontOk₂, hfrontSetUp₂, hother₂⟩ := setUp_piece (u := frontPiece g n) hfrontSmall hpos
    (fun a ha => hstarts a (hfrontHas a ha).1) hs₂
  have hs₃ : s' = (s₂.setBlocks (g.start + n) (L.blocksPerMBlock - n)).initGroup L (g.start + n) := by
    rw [hs', hs₂]
  obtain ⟨hslopOk, -, hother⟩ := setUp_piece (u := slopPiece L g n) hslopSmall hslopPos
    (fun a ha => by
      rw [hother₂ a (hslopHas a ha).2]
      exact hstarts a (hslopHas a ha).1) hs₃
  have hfrontKept : ∀ a, (frontPiece g n).Has a → s'.bdescr a = s₂.bdescr a := fun a ha =>
    hother a (hfrontHas a ha).2
  have htouches : Touches L s s' {g} := by
    refine ⟨fun a _ hnone => ?_, by rw [hs']; rfl, by rw [hs']; rfl⟩
    have hnot := hnone g (Finset.mem_singleton_self g)
    rw [hother a fun ha => hnot (hslopHas a ha).1, hother₂ a fun ha => hnot (hfrontHas a ha).1]
  have hmblocks : SameMBlocks s s' := ⟨by rw [hs']; rfl, by rw [hs']; rfl⟩
  have hfrees : held .free (exchange T {g} {frontPiece g n, slopPiece L g n}) = held .free T :=
    held_exchange_other (by simp [h.label]) (by simp [frontPiece, slopPiece])
  refine ⟨⟨?_, fun x hx hhand => ?_, h.small.mono fun x hx _ => hfrees ▸ hx,
    h.mega.mono fun x hx _ => hfrees ▸ hx⟩, htouches, hmblocks, ?_,
    hfrontSetUp₂.congr hpos hfrontKept⟩
  · refine hplaced.split h.mem hpos hslopPos rfl rfl ?_ hmblocks htouches
      (hfrontOk₂.congr hpos hfrontKept) hslopOk ?_
    · show g.start + n + (L.blocksPerMBlock - n) = g.start + g.size
      omega
    · refine (congrArg (ListsOk L s') hfrees).mpr ?_
      exact hplaced.lists.congr (by rw [hs']; rfl) (by rw [hs']; rfl)
  · rcases mem_exchange.mp hx with ⟨hxT, hxg⟩ | hxA
    · exact hxg (Finset.mem_singleton.mpr (h.only x hxT hhand))
    · rcases Finset.mem_insert.mp hxA with rfl | hxA
      · cases hhand
      · rw [Finset.mem_singleton.mp hxA] at hhand
        cases hhand
  · exact hslopOk.blocks.trans (blocksOf_small hslopSmall.lt)

/-- The group in hand is none of the client's. -/
theorem InHand.apart_live (h : InHand L s T g) :
    ∀ u ∈ held .live T, ∀ a, g.Has a → ¬ u.Has a := by
  intro u hu a hga hua
  obtain ⟨huT, hulive⟩ := mem_held.mp hu
  rw [h.placed.tiles.apart u huT g h.mem a hua hga, h.label] at hulive
  cases hulive

/-- While the slop is freed, the client has its groups and the new one. -/
theorem slop_lives (h : InHand L s T g) {n : Nat} (hsize : g.size = L.blocksPerMBlock)
    (hpos : 0 < n) (hn : n < L.blocksPerMBlock) :
    insert (⟨g.start, n, .live⟩ : Group) (held .live T) =
      (held .live (exchange T {g} {⟨g.start, n, .live⟩,
        ⟨g.start + n, L.blocksPerMBlock - n, .live⟩})).erase
          ⟨g.start + n, L.blocksPerMBlock - n, .live⟩ := by
  have hapart := h.apart_live
  have hslopNew : (⟨g.start + n, L.blocksPerMBlock - n, .live⟩ : Group) ∉ held .live T := by
    intro hmem
    refine hapart _ hmem (g.start + n) ?_ (Tile.has_start (Nat.sub_pos_of_lt hn))
    unfold Tile.Has Tile.stop
    omega
  have hne : (⟨g.start, n, .live⟩ : Group) ≠ ⟨g.start + n, L.blocksPerMBlock - n, .live⟩ := by
    intro heq
    have hstart := congrArg Tile.start heq
    simp only at hstart
    omega
  ext x
  simp only [mem_held, mem_exchange, Finset.mem_insert, Finset.mem_singleton, Finset.mem_erase]
  constructor
  · rintro (rfl | ⟨hx, hlive⟩)
    · exact ⟨hne, .inr (.inl rfl), rfl⟩
    · refine ⟨?_, .inl ⟨hx, ?_⟩, hlive⟩
      · rintro rfl
        exact hslopNew (mem_held.mpr ⟨hx, hlive⟩)
      · rintro rfl
        rw [h.label] at hlive
        cases hlive
  · rintro ⟨hxslop, ⟨hx, -⟩ | rfl | rfl, hlive⟩
    · exact .inr ⟨hx, hlive⟩
    · exact .inl rfl
    · exact absurd rfl hxslop

/-- The slop is freed like any other group. -/
theorem freeSlop_spec (h : InHand L s T g) {n : Nat} (hsize : g.size = L.blocksPerMBlock)
    (hpos : 0 < n) (hn : n < L.blocksPerMBlock)
    (hs₁ : s₁ = ((((s.setBlocks g.start n).initGroup L g.start).setBlocks (g.start + n)
      (L.blocksPerMBlock - n)).initGroup L (g.start + n))) :
    ∃ s' T', ({ s₁ with nAllocBlocks := s₁.nAllocBlocks +
          (s₁.bdescr (g.start + n)).blocks } : BlockModel).freeGroup L (g.start + n) = .ok s' ∧
      Allocs L s T ⟨g.start, n, .live⟩ s' T' ∧ s'.nAllocBlocks = s.nAllocBlocks ∧
      s'.hwAllocBlocks = s.hwAllocBlocks ∧ SameMBlocks s s' := by
  obtain ⟨hsettled, htouches, hmblocks, hslopBlocks, hsetUp⟩ := slop_spec h hsize hpos hn hs₁
  have hslopMem : slopPiece L g n ∈ exchange T {g} {frontPiece g n, slopPiece L g n} :=
    mem_exchange.mpr (.inr (Finset.mem_insert_of_mem (Finset.mem_singleton_self _)))
  have hcounted : Settled L { s₁ with nAllocBlocks := s₁.nAllocBlocks + (L.blocksPerMBlock - n) }
      (exchange T {g} {frontPiece g n, slopPiece L g n}) := hsettled.congr rfl rfl rfl rfl
  obtain ⟨s', T', hrun, hfrees⟩ := freeGroup_spec hcounted hslopMem rfl
    (Nat.le_add_left (slopPiece L g n).size s₁.nAllocBlocks)
  have hlives : insert (frontPiece g n) (held .live T) =
      (held .live (exchange T {g} {frontPiece g n, slopPiece L g n})).erase (slopPiece L g n) :=
    slop_lives h hsize hpos hn
  have hapart := h.apart_live
  rw [hslopBlocks]
  refine ⟨s', T', hrun, ⟨hfrees.settled, hfrees.lives.trans hlives.symm, fun u hu a ha => ?_,
    fun u hu a ha => ?_, ?_⟩, ?_, hfrees.hwAlloc.trans htouches.hwAlloc,
    hmblocks.trans ⟨hfrees.mblocks.map, hfrees.mblocks.count⟩⟩
  · have hfront := (pieces_shape (h.placed.mega h.mem (Nat.le_of_eq hsize.symm)) hsize hn
      hpos).2.2.1
    exact hapart u hu a (hfront a ha).1
  · rw [hfrees.frame u (hlives ▸ Finset.mem_insert_of_mem hu) a ha]
    refine htouches.frame a ((h.placed.tiles.cover a).mpr ⟨u, (mem_held.mp hu).1, ha⟩) ?_
    intro r hr hra
    rw [Finset.mem_singleton.mp hr] at hra
    exact hapart u hu a hra ha
  · exact hsetUp.congr hpos fun a ha =>
      hfrees.frame (frontPiece g n) (hlives ▸ Finset.mem_insert_self _ _) a ha
  · rw [hfrees.nAlloc]
    show s₁.nAllocBlocks + (L.blocksPerMBlock - n) - (L.blocksPerMBlock - n) = _
    rw [Nat.add_sub_cancel, htouches.nAlloc]

/-- `allocGroup` cuts a new megablock and frees the slop. -/
theorem allocFromMBlock_spec (h : Settled L s T) {n fresh : Nat} (hpos : 0 < n)
    (hn : n < L.blocksPerMBlock) (hfresh : s.heapAlloced fresh = false) :
    ∃ s' T' g, (s.countAlloc n).allocFromMBlock L n fresh = .ok (s', g.start) ∧
      g.size = n ∧ Allocated L s T g s' T' := by
  have hcounted : Settled L (s.countAlloc n) T := h.congr rfl rfl rfl rfl
  have hone : ∀ i, i < 1 → (s.countAlloc n).heapAlloced (fresh + i) = false := by
    intro i hi
    rw [show i = 0 by omega]
    exact hfresh
  obtain ⟨T₁, g, hhand, hstart, hsize, hevolves, hmap, -⟩ :=
    allocMegaGroup_spec hcounted Nat.one_pos hone
  rw [Nat.one_mul] at hsize
  obtain ⟨s', T', hrun, hallocs, hnAlloc, hhwAlloc, hmblocks⟩ :=
    freeSlop_spec hhand hsize hpos hn rfl
  have hall := Allocs.of_evolves hevolves hallocs
  refine ⟨s', T', ⟨g.start, n, .live⟩, ?_, rfl,
    ⟨hall.settled, hall.lives, hall.new, hall.frame, hall.setUp⟩, hnAlloc.trans hevolves.nAlloc,
    hhwAlloc.trans hevolves.hwAlloc, fun hcount => (hmap (hcount.congr ⟨rfl, rfl⟩)).congr hmblocks⟩
  have hmega : (s.countAlloc n).allocMegaGroup L 1 fresh =
      (((s.countAlloc n).allocMegaGroup L 1 fresh).1, g.start) := by rw [hstart]
  rw [BlockModel.allocFromMBlock, hmega]
  show (BlockModel.freeGroup L _ (g.start + n) >>= _) = _
  rw [hrun]
  rfl

/-! ## The calls -/

/-- The blocks that a request for `n` gets: whole megablocks from a megablock's worth on. -/
def extentOf (L : BlockSizes) (n : Nat) : Nat :=
  if n < L.blocksPerMBlock then n else L.blocksToMBlocks n * L.blocksPerMBlock

/-- The megablocks that `allocGroup` would ask the operating system for. -/
def mblocksFor (L : BlockSizes) (n : Nat) : Nat :=
  if n < L.blocksPerMBlock then 1 else L.blocksToMBlocks n

/-- A whole small group is handed out. -/
theorem takeWhole_spec (h : Settled L s T) (hg : g ∈ T) (hfree : g.label = .free)
    (hsmall : Small L g) :
    ∃ s₁ T', (s.countAlloc g.size).dblLinkRemove g.start (log2 g.size) = .ok s₁ ∧
      s₁.bdescr = s.bdescr ∧ Allocated L s T (g.to .live) (s₁.initGroup L g.start) T' := by
  have hcounted : Settled L (s.countAlloc g.size) T := h.congr rfl rfl rfl rfl
  obtain ⟨s₁, hremove, hbdescr, hhand, hreaches⟩ := takeSmall_spec hcounted hg hfree hsmall.lt
  exact ⟨s₁, _, hremove, hbdescr, handOut_counted (g := g.to .hand) hhand hreaches.evolves
    fun hcount => hcount.congr ⟨hreaches.mblocks.map, hreaches.mblocks.count⟩⟩

/-- The end of a small group is handed out. -/
theorem takeEnd_spec (h : Settled L s T) (hg : g ∈ T) (hfree : g.label = .free)
    (hsmall : Small L g) {n : Nat} (hpos : 0 < n) (hn : n < g.size) :
    ∃ s₁ T', (s.countAlloc n).splitFreeBlock g.start n (log2 g.size) =
        .ok (s₁, (endOf g n).start) ∧
      (s₁.bdescr (endOf g n).start).blocks = n ∧
      Allocated L s T ((endOf g n).to .live) (s₁.initGroup L (endOf g n).start) T' := by
  have hcounted : Settled L (s.countAlloc n) T := h.congr rfl rfl rfl rfl
  obtain ⟨s₁, T₁, hsplit, hhand, hreaches⟩ :=
    splitFreeBlock_spec hcounted hg hfree hsmall hpos hn
  refine ⟨s₁, _, hsplit, ?_, handOut_counted hhand hreaches.evolves fun hcount =>
    hcount.congr ⟨hreaches.mblocks.map, hreaches.mblocks.count⟩⟩
  rw [(hhand.placed.groups _ hhand.mem).blocks]
  exact blocksOf_small (Nat.lt_trans hn hsmall.lt)

/-- A request for whole megablocks. -/
theorem allocGroup_mega_spec (h : Settled L s T) {n fresh : Nat} (hpos : 0 < n)
    (hlarge : L.blocksPerMBlock ≤ n)
    (hfresh : ∀ i, i < L.blocksToMBlocks n → s.heapAlloced (fresh + i) = false) :
    ∃ s' T' g, s.allocGroup L n fresh = .ok (s', g.start) ∧
      g.size = L.blocksToMBlocks n * L.blocksPerMBlock ∧ Allocated L s T g s' T' := by
  have hcounted : Settled L (s.countAlloc (L.blocksToMBlocks n * L.blocksPerMBlock)) T :=
    h.congr rfl rfl rfl rfl
  obtain ⟨T₁, g, hhand, hstart, hsize, hevolves, hmap, -⟩ :=
    allocMegaGroup_spec hcounted (L.toMBlocks_pos n hlarge) hfresh
  rw [← hsize] at hevolves hmap hhand hstart
  refine ⟨_, _, g.to .live, ?_, hsize,
    handOut_counted hhand hevolves fun hcount => hmap (hcount.congr ⟨rfl, rfl⟩)⟩
  refine BlockModel.allocGroup_megablocks L hpos hlarge ?_
  rw [← hsize, hstart]

/-- `allocGroup` never fails on a request for at least one block. -/
theorem allocGroup_spec (h : Settled L s T) {n fresh : Nat} (hpos : 0 < n)
    (hfresh : ∀ i, i < mblocksFor L n → s.heapAlloced (fresh + i) = false) :
    ∃ s' T' g, s.allocGroup L n fresh = .ok (s', g.start) ∧ g.size = extentOf L n ∧
      Allocated L s T g s' T' := by
  by_cases hlarge : L.blocksPerMBlock ≤ n
  · have hextent : extentOf L n = L.blocksToMBlocks n * L.blocksPerMBlock :=
      if_neg (Nat.not_lt.mpr hlarge)
    have hmblocks : mblocksFor L n = L.blocksToMBlocks n := if_neg (Nat.not_lt.mpr hlarge)
    rw [hmblocks] at hfresh
    rw [hextent]
    exact allocGroup_mega_spec h hpos hlarge hfresh
  have hn : n < L.blocksPerMBlock := Nat.not_le.mp hlarge
  have hextent : extentOf L n = n := if_pos hn
  have hcounted : Settled L (s.countAlloc n) T := h.congr rfl rfl rfl rfl
  rcases hcounted.skipEmpty (log2Ceil_spec n).1 (Nat.le_refl _) with
    hnone | ⟨ln, g, rest, hln, hfound, hfit⟩
  · have hzero := hfresh 0 (by rw [mblocksFor, if_pos hn]; exact Nat.one_pos)
    obtain ⟨s', T', g, hrun, hsize, hallocated⟩ := allocFromMBlock_spec h hpos hn hzero
    exact ⟨s', T', g, (BlockModel.allocGroup_fresh L hpos hn hnone).trans hrun,
      hsize.trans hextent.symm, hallocated⟩
  · rcases Nat.eq_or_lt_of_le hfit.large with hexact | hgt
    · obtain ⟨s₁, T', hremove, -, hallocated⟩ := takeWhole_spec h hfit.mem hfit.free hfit.small
      rw [← hexact] at hremove
      rw [hexact, hfit.log, ← hexact] at hremove
      exact ⟨_, T', g.to .live, BlockModel.allocGroup_whole L hpos hn hln hfound hfit.list
        (hfit.blocks.trans hexact.symm) hremove, hexact.symm.trans hextent.symm, hallocated⟩
    · obtain ⟨s₁, T', hsplit, hend, hallocated⟩ :=
        takeEnd_spec h hfit.mem hfit.free hfit.small hpos hgt
      rw [hfit.log] at hsplit
      exact ⟨_, T', (endOf g n).to .live, BlockModel.allocGroup_end L hpos hn hln hfound hfit.list
        (hfit.blocks ▸ hgt) hsplit hend, hextent.symm, hallocated⟩

/-- A group in hand is initialised before the counters go up. -/
theorem handOut_thenCounted (h : InHand L s₁ T₁ g) (hsmall : g.size < L.blocksPerMBlock)
    (hreaches : Reaches s T s₁ T₁) :
    Allocated L s T (g.to .live) ((s₁.initGroup L g.start).countAlloc
      ((s₁.initGroup L g.start).bdescr g.start).blocks) (exchange T₁ {g} {g.to .live}) := by
  have hout := Allocs.of_evolves hreaches.evolves (handOut_spec h)
  have hblocks : ((s₁.initGroup L g.start).bdescr g.start).blocks = g.size := by
    rw [initGroup_head, (h.placed.groups g h.mem).blocks, blocksOf_small hsmall]
  rw [hblocks]
  refine ⟨⟨hout.settled.congr rfl rfl rfl rfl, hout.lives, hout.new, hout.frame, hout.setUp⟩,
    ?_, ?_, fun hcount => hcount.congr ⟨hreaches.mblocks.map, hreaches.mblocks.count⟩⟩
  · show s₁.nAllocBlocks + g.size = _
    rw [hreaches.evolves.nAlloc]
    rfl
  · show max s₁.hwAllocBlocks (s₁.nAllocBlocks + g.size) = _
    rw [hreaches.evolves.nAlloc, hreaches.evolves.hwAlloc]
    rfl

/-- `allocLargeChunk` returns a group between its bounds, or what `allocGroup` returns for the
upper one. -/
theorem allocLargeChunk_spec (h : Settled L s T) {least most fresh : Nat} (hpos : 0 < least)
    (hle : least ≤ most)
    (hfresh : ∀ i, i < mblocksFor L most → s.heapAlloced (fresh + i) = false) :
    ∃ s' T' g, s.allocLargeChunk L least most fresh = .ok (s', g.start) ∧
      (g.size = extentOf L most ∨ (g.size < L.blocksPerMBlock ∧ least ≤ g.size ∧ g.size ≤ most)) ∧
      Allocated L s T g s' T' := by
  have hmost : 0 < most := Nat.lt_of_lt_of_le hpos hle
  obtain ⟨s₀, T₀, g₀, hrun, hsize, hallocated⟩ := allocGroup_spec h hmost hfresh
  by_cases hlarge : L.blocksPerMBlock ≤ least
  · exact ⟨s₀, T₀, g₀, (BlockModel.allocLargeChunk_group L (.inl hlarge)).trans hrun, .inl hsize,
      hallocated⟩
  have hsmall := Nat.not_le.mp hlarge
  rcases h.skipEmpty (log2Ceil_mono hle) (log2Ceil_spec most).1 with
    hnone | ⟨ln, g, rest, hln, hfound, hfit⟩
  · exact ⟨s₀, T₀, g₀, (BlockModel.allocLargeChunk_group L (.inr hnone)).trans hrun, .inl hsize,
      hallocated⟩
  by_cases hwhole : g.size ≤ most
  · obtain ⟨s₁, hremove, hbdescr, hhand, hreaches⟩ :=
      takeSmall_spec h hfit.mem hfit.free hfit.small.lt
    have hdone := handOut_thenCounted (g := g.to .hand) hhand hfit.small.lt hreaches
    rw [hfit.log] at hremove
    exact ⟨_, _, g.to .live, BlockModel.allocLargeChunk_whole L hsmall hln hfound hfit.list
      (hfit.blocks ▸ hwhole) hremove, .inr ⟨hfit.small.lt, hfit.large, hwhole⟩, hdone⟩
  · have hgt : most < g.size := Nat.not_le.mp hwhole
    obtain ⟨s₁, T₁, hsplit, hhand, hreaches⟩ :=
      splitFreeBlock_spec h hfit.mem hfit.free hfit.small hmost hgt
    have hend : (s₁.bdescr (endOf g most).start).blocks = most := by
      rw [(hhand.placed.groups _ hhand.mem).blocks]
      exact blocksOf_small (Nat.lt_trans hgt hfit.small.lt)
    have hdone := handOut_thenCounted hhand (Nat.lt_trans hgt hfit.small.lt) hreaches
    rw [hfit.log] at hsplit
    exact ⟨_, _, (endOf g most).to .live, BlockModel.allocLargeChunk_end L hsmall hln hfound
      hfit.list (hfit.blocks ▸ hgt) hsplit hend,
      .inr ⟨Nat.lt_trans hgt hfit.small.lt, hle, Nat.le_refl most⟩, hdone⟩

end HosBoot.Rts
