/-
  Rts/BlockTake.lean --- where the groups in hand come from.

  A whole small group leaves its list, a larger one keeps its front and gives its end away,
  and `alloc_mega_group` takes an exact fit, the end of a best fit, or new megablocks.
-/
import HosBoot.Rts.BlockInit

set_option autoImplicit false

namespace HosBoot.Rts

open HosBoot.Foundation

variable {L : BlockSizes} {s s' : BlockModel} {T T' : Finset Group} {g t u : Group}

/-! ## Taking a group off a list -/

/-- After a free group has left its list it is in hand. -/
theorem Settled.take (h : Settled L s T)
    (hplaced : Placed L s' (taken T g)) : InHand L s' (taken T g) (g.to .hand) := by
  have hfrees : ∀ u ∈ held .free (taken T g), u ∈ held .free T := by
    intro u hu
    obtain ⟨huT, hufree⟩ := mem_held.mp hu
    rcases mem_exchange.mp huT with ⟨huT, -⟩ | huA
    · exact mem_held.mpr ⟨huT, hufree⟩
    · rw [Finset.mem_singleton.mp huA] at hufree
      cases hufree
  refine ⟨hplaced, mem_exchange.mpr (.inr (Finset.mem_singleton_self _)), rfl,
    fun u hu hhand => ?_, h.small.mono fun u hu _ => hfrees u hu,
    h.mega.mono fun u hu _ => hfrees u hu⟩
  rcases mem_exchange.mp hu with ⟨huT, -⟩ | huA
  · exact absurd hhand (h.noHand u huT)
  · exact Finset.mem_singleton.mp huA

theorem takeSmall_spec (h : Settled L s T) (hg : g ∈ T) (hfree : g.label = .free)
    (hsmall : g.size < L.blocksPerMBlock) :
    ∃ s', s.dblLinkRemove g.start (log2 g.size) = .ok s' ∧ s'.bdescr = s.bdescr ∧
      InHand L s' (taken T g) (g.to .hand) ∧ Reaches s T s' (taken T g) := by
  obtain ⟨s', hremove, hbdescr, hplaced, hreaches⟩ := dblLinkRemove_spec h.placed hg hfree hsmall
  exact ⟨s', hremove, hbdescr, h.take hplaced, hreaches⟩

theorem takeMega_spec (h : Settled L s T) (hg : g ∈ T) (hfree : g.label = .free)
    (hmega : L.blocksPerMBlock ≤ g.size) :
    InHand L { s with freeMBlockList := s.freeMBlockList.erase g.start } (taken T g)
        (g.to .hand) ∧
      Reaches s T { s with freeMBlockList := s.freeMBlockList.erase g.start } (taken T g) := by
  have hplaced := h.placed
  have htouches : Touches L s
      { s with freeMBlockList := s.freeMBlockList.erase g.start } {g} :=
    ⟨fun _ _ _ => rfl, rfl, rfl⟩
  refine ⟨h.take ?_, ?_, ⟨rfl, rfl⟩⟩
  · refine hplaced.relabel hg ⟨rfl, rfl⟩ htouches (hplaced.groups g hg).to_hand ?_
    rw [held_exchange_erase (by simp)]
    exact hplaced.lists.unlinkMega hplaced.free_inj (mem_held.mpr ⟨hg, hfree⟩)
      hmega rfl rfl
  · refine hplaced.evolves (L := L) (Finset.singleton_subset_iff.mpr hg) htouches ?_ ?_
    · simp [hfree]
    · simp

/-! ## Splitting a small group -/

/-- The front of a group that is split. -/
def frontOf (g : Group) (n : Nat) (label : Holder) : Group := ⟨g.start, g.size - n, label⟩

/-- The last `n` blocks of a group that is split. -/
def endOf (g : Group) (n : Nat) : Group := ⟨g.start + (g.size - n), n, .hand⟩

theorem endOf_stop {n : Nat} (hn : n < g.size) : (endOf g n).stop = g.stop := by
  unfold endOf Tile.stop
  simp only
  omega

theorem frontOf_has {n a : Nat} {label : Holder} (ha : (frontOf g n label).Has a) : g.Has a := by
  unfold frontOf Tile.Has Tile.stop at *
  simp only at ha
  omega

theorem endOf_has {n a : Nat} (hn : n < g.size) (ha : (endOf g n).Has a) : g.Has a := by
  unfold endOf Tile.Has Tile.stop at *
  simp only at ha
  omega

theorem Small.front (h : Small L g) (n : Nat) (label : Holder) : Small L (frontOf g n label) := by
  have hlt := h.lt
  have hwithin := h.within
  refine ⟨?_, ?_⟩
  · show g.size - n < L.blocksPerMBlock
    omega
  · show g.start % L.blocksPerMBlock + (g.size - n) ≤ L.blocksPerMBlock
    omega

theorem Small.back (h : Small L g) {n : Nat} (hpos : 0 < n) (hn : n < g.size) :
    Small L (endOf g n) := by
  have hwithin := h.within
  have hdiv := h.div_eq (endOf_has hn (Tile.has_start hpos))
  have hsplit := Nat.div_add_mod' g.start L.blocksPerMBlock
  have hsplit' := Nat.div_add_mod' (endOf g n).start L.blocksPerMBlock
  rw [hdiv] at hsplit'
  refine ⟨Nat.lt_trans hn h.lt, ?_⟩
  unfold endOf at *
  simp only at hsplit' ⊢
  omega

/-- A group in hand has only its size and its starts to keep. -/
theorem GroupOk.ofHand {bdescr : Nat → ModelDescr} (hhand : u.label = .hand)
    (hshape : Small L u ∨ Mega L u) (hblocks : (bdescr u.start).blocks = blocksOf L u.size)
    (hstarts : ∀ a, u.Has a → a / L.blocksPerMBlock = u.start / L.blocksPerMBlock →
      (bdescr a).start = L.blockAt a) : GroupOk L bdescr u := by
  refine ⟨hshape, hblocks, hstarts, fun hlive => ?_, fun hfree => ?_⟩
  · rw [hhand] at hlive
    cases hlive
  · rw [hhand] at hfree
    cases hfree

/-- The descriptors after the two writes of `split_free_block`. -/
structure Cuts (s s' : BlockModel) (g : Group) (n : Nat) : Prop where
  front : s'.bdescr g.start = { s.bdescr g.start with blocks := g.size - n, link := none }
  last : s'.bdescr (g.start + (g.size - n)) =
    { s.bdescr (g.start + (g.size - n)) with blocks := n, link := none }
  same : ∀ a, a ≠ g.start → a ≠ g.start + (g.size - n) → s'.bdescr a = s.bdescr a

theorem cuts_stores {n : Nat} (hn : n < g.size)
    (hs' : s' = (s.setBlocks (g.start + (g.size - n)) n).setBlocks g.start (g.size - n)) :
    Cuts s s' g n := by
  have hne : g.start ≠ g.start + (g.size - n) := by omega
  refine ⟨?_, ?_, fun a ha ha' => ?_⟩
  · rw [hs', BlockModel.setBlocks, setDescr_self, BlockModel.setBlocks, setDescr_other _ hne]
  · rw [hs', BlockModel.setBlocks, setDescr_other _ (Ne.symm hne), BlockModel.setBlocks,
      setDescr_self]
  · rw [hs', BlockModel.setBlocks, setDescr_other _ ha, BlockModel.setBlocks, setDescr_other _ ha']

theorem Cuts.start {n : Nat} (h : Cuts s s' g n) (a : Nat) :
    (s'.bdescr a).start = (s.bdescr a).start := by
  by_cases hhead : a = g.start
  · rw [hhead, h.front]
  · by_cases hlast : a = g.start + (g.size - n)
    · rw [hlast, h.last]
    · rw [h.same a hhead hlast]

/-- The two writes of `split_free_block`. -/
theorem cut_spec (h : Placed L s T) (hg : g ∈ T) (hhand : g.label = .hand) (hsmall : Small L g)
    {n : Nat} (hpos : 0 < n) (hn : n < g.size)
    (hs' : s' = (s.setBlocks (g.start + (g.size - n)) n).setBlocks g.start (g.size - n)) :
    Placed L s' (exchange T {g} {frontOf g n .hand, endOf g n}) ∧
      Reaches s T s' (exchange T {g} {frontOf g n .hand, endOf g n}) ∧
      (s'.bdescr g.start).free = (s.bdescr g.start).free := by
  have hcuts := cuts_stores hn hs'
  have hend := endOf_has hn (Tile.has_start (t := endOf g n) hpos)
  have hstarts : ∀ a, g.Has a → (s'.bdescr a).start = L.blockAt a := fun a ha =>
    (hcuts.start a).trans ((h.groups g hg).starts a ha (hsmall.div_eq ha))
  have htouches : Touches L s s' {g} := by
    refine ⟨fun a _ hnone => ?_, by rw [hs']; rfl, by rw [hs']; rfl⟩
    have hnot := hnone g (Finset.mem_singleton_self g)
    refine hcuts.same a ?_ ?_
    · rintro rfl
      exact hnot (Tile.has_start (h.tiles.pos g hg))
    · rintro rfl
      exact hnot hend
  have hmblocks : SameMBlocks s s' := ⟨by rw [hs']; rfl, by rw [hs']; rfl⟩
  have hfrontSmall := hsmall.front n .hand
  have hendSmall := hsmall.back hpos hn
  have hfrontOk : GroupOk L s'.bdescr (frontOf g n .hand) := by
    refine .ofHand rfl (.inl hfrontSmall) ?_ fun a ha _ => hstarts a (frontOf_has ha)
    show (s'.bdescr g.start).blocks = _
    rw [hcuts.front, blocksOf_small hfrontSmall.lt]
    rfl
  have hendOk : GroupOk L s'.bdescr (endOf g n) := by
    refine .ofHand rfl (.inl hendSmall) ?_ fun a ha _ => hstarts a (endOf_has hn ha)
    show (s'.bdescr (g.start + (g.size - n))).blocks = _
    rw [hcuts.last, blocksOf_small hendSmall.lt]
    rfl
  have hlists : ListsOk L s' (held .free (exchange T {g} {frontOf g n .hand, endOf g n})) := by
    rw [held_exchange_other (by simp [hhand]) (by simp [frontOf, endOf])]
    exact h.lists.congr (by rw [hs']; rfl) (by rw [hs']; rfl)
  refine ⟨?_, ⟨?_, hmblocks⟩, by rw [hcuts.front]⟩
  · exact h.split hg (Nat.sub_pos_of_lt hn) hpos rfl rfl (endOf_stop hn) hmblocks htouches hfrontOk
      hendOk hlists
  · exact h.evolves (Finset.singleton_subset_iff.mpr hg) htouches (by simp [hhand])
      (by simp [frontOf, endOf])

theorem setupTail_head (s : BlockModel) (bd : Nat) :
    (s.setupTail bd).bdescr bd = s.bdescr bd := by
  unfold BlockModel.setupTail
  by_cases hone : s.tailOf bd = bd
  · rw [if_neg (fun hne => hne hone)]
  · rw [if_pos hone]
    exact setDescr_other _ (Ne.symm hone)

/-- The steps of `split_free_block` once the group has left its list. -/
theorem splitFreeBlock_eq {bd size n ln : Nat} (hblocks : (s.bdescr bd).blocks = size) (hn : n < size)
    (hremove : s.dblLinkRemove bd ln = .ok s') (hbdescr : s'.bdescr = s.bdescr) :
    s.splitFreeBlock bd n ln =
      ((((s'.setBlocks (bd + (size - n)) n).setBlocks bd (size - n)).setupTail bd).dblLinkOnto bd
        (log2 (size - n))).map fun s => (s, bd + (size - n)) := by
  have hassert : assert (decide (size > n)) "bd->blocks > n" = .ok () :=
    if_pos (decide_eq_true hn)
  have hfg : bd + size - n = bd + (size - n) := by omega
  have hne : bd ≠ bd + (size - n) := by omega
  have hread : ((s'.setBlocks (bd + (size - n)) n).bdescr bd).blocks = size := by
    rw [BlockModel.setBlocks, setDescr_other _ hne, hbdescr, hblocks]
  have hfront : ((((s'.setBlocks (bd + (size - n)) n).setBlocks bd (size - n)).setupTail
      bd).bdescr bd).blocks = size - n := by
    rw [setupTail_head, BlockModel.setBlocks, setDescr_self]
  simp only [BlockModel.splitFreeBlock, hblocks, hassert]
  show (s.dblLinkRemove bd ln >>= _) = _
  rw [hremove]
  show ((((s'.setBlocks (bd + (s'.bdescr bd).blocks - n) n).setBlocks bd
    (((s'.setBlocks (bd + (s'.bdescr bd).blocks - n) n).bdescr bd).blocks - n)).setupTail
      bd).dblLinkOnto bd _ >>= fun s => .ok (s, bd + (s'.bdescr bd).blocks - n)) = _
  rw [hbdescr, hblocks, hfg, hread, hfront]
  cases ((((s'.setBlocks (bd + (size - n)) n).setBlocks bd (size - n)).setupTail bd).dblLinkOnto bd
    (log2 (size - n))) <;> rfl

/-- The tiling after `split_free_block`. -/
def splitTiling (T : Finset Group) (g : Group) (n : Nat) : Finset Group :=
  exchange (exchange (taken T g) {g.to .hand} {frontOf g n .hand, endOf g n}) {frontOf g n .hand}
    {frontOf g n .free}

/-- A free group afterwards is the front or an old one. -/
theorem free_splitTiling {n : Nat} {w : Group} (hw : w ∈ held .free (splitTiling T g n)) :
    (w ∈ held .free T ∧ w ≠ g) ∨ w = frontOf g n .free := by
  obtain ⟨hwT, hwfree⟩ := mem_held.mp hw
  rcases mem_exchange.mp hwT with ⟨hwT, -⟩ | hwA
  · rcases mem_exchange.mp hwT with ⟨hwT, -⟩ | hwA
    · rcases mem_exchange.mp hwT with ⟨hwT, hwg⟩ | hwA
      · exact .inl ⟨mem_held.mpr ⟨hwT, hwfree⟩, fun heq => hwg (Finset.mem_singleton.mpr heq)⟩
      · rw [Finset.mem_singleton.mp hwA] at hwfree
        cases hwfree
    · rcases Finset.mem_insert.mp hwA with rfl | hwA
      · cases hwfree
      · rw [Finset.mem_singleton.mp hwA] at hwfree
        cases hwfree
  · exact .inr (Finset.mem_singleton.mp hwA)

/-- Only the end is in hand. -/
theorem hand_splitTiling {n : Nat} {w : Group}
    (honly : ∀ v ∈ taken T g, v.label = .hand → v = g.to .hand) (hw : w ∈ splitTiling T g n)
    (hwhand : w.label = .hand) : w = endOf g n := by
  rcases mem_exchange.mp hw with ⟨hwT, hwfront⟩ | hwA
  · rcases mem_exchange.mp hwT with ⟨hwT, hwg⟩ | hwA
    · exact absurd (Finset.mem_singleton.mpr (honly w hwT hwhand)) hwg
    · rcases Finset.mem_insert.mp hwA with rfl | hwA
      · exact absurd (Finset.mem_singleton_self _) hwfront
      · exact Finset.mem_singleton.mp hwA
  · rw [Finset.mem_singleton.mp hwA] at hwhand
    cases hwhand

theorem endOf_mem_splitTiling {n : Nat} (hn : n < g.size) : endOf g n ∈ splitTiling T g n := by
  refine mem_exchange.mpr (.inl ⟨mem_exchange.mpr (.inr ?_), fun hmem => ?_⟩)
  · exact Finset.mem_insert_of_mem (Finset.mem_singleton_self _)
  · have hstart := congrArg Tile.start (Finset.mem_singleton.mp hmem)
    unfold endOf frontOf at hstart
    simp only at hstart
    omega

/-- The front has the group's neighbour before it, and the end behind it is not free. -/
theorem Settled.split_smallApart (h : Settled L s T) (hg : g ∈ T) (hfree : g.label = .free)
    (hsmall : Small L g) {n : Nat} (hpos : 0 < n) (hn : n < g.size) :
    SmallApart L (splitTiling T g n) := by
  intro a ha b hb hnext hasmall hbsmall
  rcases free_splitTiling ha with ⟨haT, -⟩ | rfl <;>
    rcases free_splitTiling hb with ⟨hbT, hbg⟩ | rfl
  · exact h.small a haT b hbT hnext hasmall hbsmall
  · exact h.small a haT g (mem_held.mpr ⟨hg, hfree⟩) hnext hasmall hsmall.lt
  · refine absurd ?_ hbg
    refine h.placed.tiles.apart b (mem_held.mp hbT).1 g hg b.start
      (Tile.has_start (h.placed.tiles.pos b (mem_held.mp hbT).1)) ?_
    rw [hnext]
    unfold Tile.Has Tile.stop
    simp only [frontOf]
    omega
  · unfold Tile.stop at hnext
    simp only [frontOf] at hnext
    omega

theorem Settled.split_megaApart (h : Settled L s T) (hsmall : Small L g) {n : Nat} :
    MegaApart L (splitTiling T g n) := by
  refine h.mega.mono fun w hw hge => ?_
  rcases free_splitTiling hw with ⟨hwT, -⟩ | rfl
  · exact hwT
  · exact absurd (hsmall.front n .free).lt (Nat.not_lt.mpr hge)

/-- `split_free_block` leaves the front on the list that its size asks for. -/
theorem splitFreeBlock_spec (h : Settled L s T) (hg : g ∈ T) (hfree : g.label = .free)
    (hsmall : Small L g) {n : Nat} (hpos : 0 < n) (hn : n < g.size) :
    ∃ s' T', s.splitFreeBlock g.start n (log2 g.size) = .ok (s', g.start + (g.size - n)) ∧
      InHand L s' T' (endOf g n) ∧ Reaches s T s' T' := by
  obtain ⟨s₁, hremove, hbdescr, hhand, hreaches₁⟩ := takeSmall_spec h hg hfree hsmall.lt
  have hblocks : (s.bdescr g.start).blocks = g.size := by
    rw [(h.placed.groups g hg).blocks, blocksOf_small hsmall.lt]
  obtain ⟨s₂, hs₂⟩ : ∃ s₂, s₂ = (s₁.setBlocks (g.start + (g.size - n)) n).setBlocks g.start
    (g.size - n) := ⟨_, rfl⟩
  obtain ⟨hcut, hreaches₂, hmark⟩ :=
    cut_spec hhand.placed hhand.mem rfl (hsmall.to .hand) hpos hn hs₂
  have hfrontMem : frontOf g n .hand ∈ exchange (taken T g) {g.to .hand}
      {frontOf (g.to .hand) n .hand, endOf (g.to .hand) n} :=
    mem_exchange.mpr (.inr (Finset.mem_insert_self _ _))
  have hfrontSmall := (hsmall.front n .hand).lt
  obtain ⟨htailPlaced, hreaches₃, -, htail⟩ := setupTail_spec hcut hfrontMem rfl hfrontSmall
  have hmark' : ((s₂.setupTail g.start).bdescr g.start).free = .minusOne := by
    rw [setupTail_head]
    show (s₂.bdescr (g.to .hand).start).free = .minusOne
    rw [hmark, hbdescr]
    exact ((h.placed.groups g hg).free hfree).1
  obtain ⟨s', hlink, hplaced, hreaches₄⟩ :=
    dblLinkOnto_spec htailPlaced hfrontMem rfl hfrontSmall hmark' htail
  have hlinked : (s₂.setupTail g.start).dblLinkOnto g.start (log2 (g.size - n)) = .ok s' := hlink
  refine ⟨s', splitTiling T g n, ?_, ⟨hplaced, endOf_mem_splitTiling hn, rfl,
      fun w hw => hand_splitTiling hhand.only hw, h.split_smallApart hg hfree hsmall hpos hn,
      h.split_megaApart hsmall⟩,
    hreaches₁.trans (hreaches₂.trans (hreaches₃.trans hreaches₄))⟩
  rw [splitFreeBlock_eq hblocks hn hremove hbdescr, ← hs₂, hlinked]
  rfl

end HosBoot.Rts
