/-
  Rts/SparkPoolSteps.lean --- what one access of the owner or of a thief does.

  One lemma for each program counter of the owner, one for the thieves.  Each says what
  the access leaves true of the pool and whether the operation takes effect in it.
-/
import HosBoot.Rts.SparkPool

set_option autoImplicit false

namespace HosBoot.Rts

open HosBoot.Foundation

variable {α : Type}

/-! ## One step of the owner -/

/-- A step either leaves the queue alone or performs the operation under way. -/
def Advances (capacity : Nat) (c : List α) (phase : CallPhase (PoolOp α) (Answer α))
    (c' : List α) (after : CallPhase (PoolOp α) (Answer α) → Prop) : Prop :=
  (c' = c ∧ after phase) ∨
    ∃ o r, phase = .called o ∧ DequeEffect capacity c o r c' ∧ after (.performed o r)

/-- What a step of the owner keeps, and what it does to the queue. -/
structure OwnerMove (q : WSDeque α) (pc : OwnerPc α)
    (phase : CallPhase (PoolOp α) (Answer α)) (q' : WSDeque α) (pc' : OwnerPc α) : Prop where
  inv : OwnerInv q' pc'
  moduloSize : q'.moduloSize = q.moduloSize
  top_le : q.top ≤ q'.top
  takes : q'.top = q.top ∨ ∃ t removed, pc = .popCas t removed ∧ pc' = .popFix t (some removed)
  keep : q'.top = q.top → q.top < limit q pc →
    q.top < limit q' pc' ∧ q'.read q.top = q.read q.top
  advances : Advances q.moduloSize (q.contents (limit q pc)) phase
    (q'.contents (limit q' pc')) (OwnerPhase q' pc')

variable {q q' : WSDeque α} {pc' : OwnerPc α} {phase : CallPhase (PoolOp α) (Answer α)}

/-- `pushWSDeque` compares with the cached bound of `top`. -/
theorem ownerMove_push {elem : α} (h : OwnerInv q (.push elem))
    (hphase : OwnerPhase q (.push elem) phase)
    (hstep : ownerStep q (.push elem) = some (q', pc')) :
    OwnerMove q (.push elem) phase q' pc' := by
  obtain ⟨hpos, hbound, hle, hroom, -⟩ := h
  simp only [limit] at hle hroom
  simp only [ownerStep] at hstep
  split at hstep
  case isTrue hfull =>
    cases hstep
    exact ⟨⟨hpos, hbound, hle, hroom, rfl⟩, rfl, le_refl _, .inl rfl, fun _ h => ⟨h, rfl⟩, .inl ⟨rfl, hphase⟩⟩
  case isFalse hspace =>
    cases hstep
    exact ⟨⟨hpos, hbound, hle, hroom, rfl, by omega⟩, rfl, le_refl _, .inl rfl, fun _ h => ⟨h, rfl⟩,
      .inl ⟨rfl, hphase⟩⟩

/-- The real `top` decides whether the pool is full. -/
theorem ownerMove_pushReadTop {elem : α} {b : Int} (h : OwnerInv q (.pushReadTop elem b))
    (hphase : OwnerPhase q (.pushReadTop elem b) phase)
    (hstep : ownerStep q (.pushReadTop elem b) = some (q', pc')) :
    OwnerMove q (.pushReadTop elem b) phase q' pc' := by
  obtain ⟨hpos, hbound, hle, hroom, hb⟩ := h
  simp only [limit] at hle hroom
  simp only [OwnerKnows] at hb
  simp only [ownerStep] at hstep
  split at hstep
  case isTrue hfull =>
    cases hstep
    rw [WSDeque.setTopBound_moduloSize] at hfull
    refine ⟨⟨hpos, le_refl _, hle, hroom, trivial⟩, rfl, le_refl _, .inl rfl, fun _ h => ⟨h, rfl⟩,
      .inr ⟨.push elem, .pushed false, hphase, ?_, _, rfl⟩⟩
    refine .full ?_
    rw [WSDeque.contents_length, limit]
    omega
  case isFalse hspace =>
    cases hstep
    exact ⟨⟨hpos, le_refl _, hle, hroom, hb, by simpa using hspace⟩, rfl, le_refl _, .inl rfl,
      fun _ h => ⟨h, rfl⟩, .inl ⟨rfl, hphase⟩⟩

/-- The element is written to the free cell above the contents. -/
theorem ownerMove_pushWrite {elem : α} {b : Int} (h : OwnerInv q (.pushWrite elem b))
    (hphase : OwnerPhase q (.pushWrite elem b) phase)
    (hstep : ownerStep q (.pushWrite elem b) = some (q', pc')) :
    OwnerMove q (.pushWrite elem b) phase q' pc' := by
  obtain ⟨hpos, hbound, hle, hroom, rfl, hspace⟩ := h
  have hlt := q.moduloSize_lt
  simp only [limit] at hle hroom
  simp only [ownerStep] at hstep
  cases hstep
  refine ⟨⟨hpos, hbound, hle, hroom, rfl, hspace, q.store_read_self _ _⟩, rfl, le_refl _, .inl rfl,
    fun _ htop => ⟨htop, ?_⟩, .inl ⟨?_, hphase⟩⟩
  · exact q.store_read_of_lt _ hpos htop (by omega)
  · exact WSDeque.store_contents hpos hle (by omega) elem

/-- The element becomes visible: here the push takes effect. -/
theorem ownerMove_pushPublish {elem : α} {b : Int} (h : OwnerInv q (.pushPublish elem b))
    (hphase : OwnerPhase q (.pushPublish elem b) phase)
    (hstep : ownerStep q (.pushPublish elem b) = some (q', pc')) :
    OwnerMove q (.pushPublish elem b) phase q' pc' := by
  obtain ⟨hpos, hbound, hle, hroom, rfl, hspace, helem⟩ := h
  simp only [limit] at hle hroom
  simp only [ownerStep] at hstep
  cases hstep
  refine ⟨⟨hpos, hbound, ?_, ?_, trivial⟩, rfl, le_refl _, .inl rfl, fun _ htop => ⟨?_, rfl⟩,
    .inr ⟨.push elem, .pushed true, hphase, ?_, _, rfl⟩⟩
  · simp only [limit, WSDeque.setBottom_bottom, WSDeque.setBottom_top]
    omega
  · simp only [limit, WSDeque.setBottom_bottom, WSDeque.setBottom_top,
      WSDeque.setBottom_moduloSize]
    omega
  · simp only [limit, WSDeque.setBottom_bottom] at htop ⊢
    omega
  · simp only [limit, WSDeque.setBottom_bottom, WSDeque.setBottom_contents]
    rw [WSDeque.contents_snoc hpos hle, helem]
    refine .push ?_
    rw [WSDeque.contents_length]
    omega

/-- "decrement b as a test": the contents stay as they are. -/
theorem ownerMove_pop (h : OwnerInv q .pop) (hphase : OwnerPhase q .pop phase)
    (hstep : ownerStep q .pop = some (q', pc')) : OwnerMove q .pop phase q' pc' := by
  obtain ⟨hpos, hbound, hle, hroom, -⟩ := h
  simp only [limit] at hle hroom
  simp only [ownerStep] at hstep
  cases hstep
  have hlim : limit (q.setBottom (q.bottom - 1)) (OwnerPc.popReadTop (q.bottom - 1) : OwnerPc α) =
      q.bottom := by
    simp only [limit, WSDeque.setBottom_bottom]
    omega
  refine ⟨⟨hpos, hbound, ?_, ?_, rfl⟩, rfl, le_refl _, .inl rfl, fun _ htop => ⟨?_, rfl⟩,
    .inl ⟨?_, hphase⟩⟩
  · rwa [hlim]
  · rwa [hlim]
  · rwa [hlim]
  · rw [hlim]
    rfl

/-- Reading `top` settles a pop of an empty pool and of one with more than one element. -/
theorem ownerMove_popReadTop {b : Int} (h : OwnerInv q (.popReadTop b))
    (hphase : OwnerPhase q (.popReadTop b) phase)
    (hstep : ownerStep q (.popReadTop b) = some (q', pc')) :
    OwnerMove q (.popReadTop b) phase q' pc' := by
  obtain ⟨hpos, hbound, hle, hroom, hb⟩ := h
  simp only [OwnerKnows] at hb
  subst hb
  simp only [limit] at hle hroom
  simp only [ownerStep] at hstep
  split at hstep
  case isTrue hempty =>
    cases hstep
    have htop : q.top = q.bottom + 1 := by omega
    refine ⟨⟨hpos, le_refl _, hle, hroom, htop.symm, rfl⟩, rfl, le_refl _, .inl rfl, fun _ h => ⟨h, rfl⟩,
      .inr ⟨.pop, .taken none, hphase, ?_, rfl⟩⟩
    simp only [limit, WSDeque.setTopBound_bottom, WSDeque.setTopBound_contents]
    rw [WSDeque.contents_of_le (by omega)]
    exact .popEmpty
  case isFalse hsome =>
    cases hstep
    by_cases hmore : q.top < q.bottom
    · have hlim : limit (q.setTopBound q.top) (OwnerPc.popRead q.bottom q.top : OwnerPc α) = q.bottom := by
        simp only [limit, WSDeque.setTopBound_bottom]
        rw [if_pos hmore]
      refine ⟨⟨hpos, le_refl _, ?_, ?_, rfl, by omega, le_refl _⟩, rfl, le_refl _, .inl rfl,
        fun _ _ => ⟨?_, rfl⟩, .inr ⟨.pop, .taken (some (q.read q.bottom)), hphase, ?_, ?_⟩⟩
      · rw [hlim]
        exact hmore.le
      · rw [hlim]
        simp only [WSDeque.setTopBound_top, WSDeque.setTopBound_moduloSize]
        omega
      · rwa [hlim]
      · rw [hlim, limit, WSDeque.contents_snoc hpos hmore.le]
        exact .pop
      · simp only [OwnerPhase]
        rw [if_pos hmore]
        rfl
    · have hlim : limit (q.setTopBound q.top) (OwnerPc.popRead q.bottom q.top : OwnerPc α) =
          q.bottom + 1 := by
        simp only [limit, WSDeque.setTopBound_bottom]
        rw [if_neg hmore]
      refine ⟨⟨hpos, le_refl _, ?_, ?_, rfl, by omega, le_refl _⟩, rfl, le_refl _, .inl rfl,
        fun _ htop => ⟨?_, rfl⟩, .inl ⟨?_, ?_⟩⟩
      · rwa [hlim]
      · rwa [hlim]
      · rw [hlim]
        exact htop
      · rw [hlim]
        rfl
      · simp only [OwnerPhase]
        rw [if_neg hmore]
        exact hphase

/-- An empty pool: `bottom` goes back to where it was. -/
theorem ownerMove_popEmpty {t : Int} (h : OwnerInv q (.popEmpty t))
    (hphase : OwnerPhase q (.popEmpty t) phase)
    (hstep : ownerStep q (.popEmpty t) = some (q', pc')) :
    OwnerMove q (.popEmpty t) phase q' pc' := by
  obtain ⟨hpos, hbound, hle, hroom, hbottom, htop⟩ := h
  simp only [limit] at hle hroom
  simp only [ownerStep] at hstep
  cases hstep
  refine ⟨⟨hpos, hbound, ?_, ?_, trivial⟩, rfl, le_refl _, .inl rfl, fun _ hlt => ⟨?_, rfl⟩,
    .inl ⟨?_, _, hphase⟩⟩
  · exact htop.le
  · simp only [limit, WSDeque.setBottom_bottom, WSDeque.setBottom_top,
      WSDeque.setBottom_moduloSize]
    omega
  · simp only [limit, WSDeque.setBottom_bottom] at hlt ⊢
    omega
  · simp only [limit, WSDeque.setBottom_bottom, WSDeque.setBottom_contents, hbottom]

/-- With more than one element left the read is the popped element; with one the owner
still has to win it. -/
theorem ownerMove_popRead {b t : Int} (h : OwnerInv q (.popRead b t))
    (hphase : OwnerPhase q (.popRead b t) phase)
    (hstep : ownerStep q (.popRead b t) = some (q', pc')) :
    OwnerMove q (.popRead b t) phase q' pc' := by
  obtain ⟨hpos, hbound, hle, hroom, hb, htb, htop⟩ := h
  subst hb
  simp only [ownerStep] at hstep
  by_cases hmore : t < q.bottom
  · have hlim : limit q (OwnerPc.popRead q.bottom t : OwnerPc α) = q.bottom := if_pos hmore
    rw [if_pos (by omega)] at hstep
    cases hstep
    rw [hlim] at hle hroom
    simp only [OwnerPhase] at hphase
    rw [if_pos hmore] at hphase
    refine ⟨⟨hpos, hbound, hle, hroom, trivial⟩, rfl, le_refl _, .inl rfl, fun _ hlt => ⟨?_, rfl⟩,
      .inl ⟨?_, _, hphase⟩⟩
    · rwa [hlim] at hlt
    · rw [hlim]
      rfl
  · have hlim : limit q (OwnerPc.popRead q.bottom t : OwnerPc α) = q.bottom + 1 := if_neg hmore
    rw [if_neg (by omega)] at hstep
    cases hstep
    rw [hlim] at hle hroom
    simp only [OwnerPhase] at hphase
    rw [if_neg hmore] at hphase
    have hbt : q.bottom = t := by omega
    refine ⟨⟨hpos, hbound, hle, hroom, hbt, htop, by rw [hbt]⟩, rfl, le_refl _, .inl rfl,
      fun _ hlt => ⟨?_, rfl⟩, .inl ⟨?_, hphase⟩⟩
    · rwa [hlim] at hlt
    · rw [hlim]
      rfl

/-- The last element: the compare-and-swap decides between the owner and the thieves. -/
theorem ownerMove_popCas {t : Int} {removed : α} (h : OwnerInv q (.popCas t removed))
    (hphase : OwnerPhase q (.popCas t removed) phase)
    (hstep : ownerStep q (.popCas t removed) = some (q', pc')) :
    OwnerMove q (.popCas t removed) phase q' pc' := by
  obtain ⟨hpos, hbound, hle, hroom, hb, htop, hread⟩ := h
  simp only [limit] at hle hroom
  simp only [ownerStep] at hstep
  split at hstep
  case isTrue hwon =>
    cases hstep
    refine ⟨⟨?_, ?_, ?_, ?_, hb, rfl⟩, rfl, ?_, .inr ⟨t, removed, rfl, rfl⟩, fun hsame _ => ?_,
      .inr ⟨.pop, .taken (some removed), hphase, ?_, rfl⟩⟩
    · simp only [WSDeque.setTop_top]
      omega
    · simp only [WSDeque.setTop_top, WSDeque.setTop_topBound]
      omega
    · simp only [limit, WSDeque.setTop_top, WSDeque.setTop_bottom]
      omega
    · simp only [limit, WSDeque.setTop_top, WSDeque.setTop_bottom, WSDeque.setTop_moduloSize]
      omega
    · simp only [WSDeque.setTop_top]
      omega
    · simp only [WSDeque.setTop_top] at hsame
      omega
    · simp only [limit, WSDeque.setTop_bottom]
      rw [WSDeque.contents_cons hpos (by omega), hwon, hread,
        WSDeque.contents_of_le (by simp only [WSDeque.setTop_top]; omega)]
      exact DequeEffect.pop (c := [])
  case isFalse hlost =>
    cases hstep
    have hnow : q.top = t + 1 := by omega
    refine ⟨⟨hpos, hbound, hle, hroom, hb, hnow⟩, rfl, le_refl _, .inl rfl, fun _ h => ⟨h, rfl⟩,
      .inr ⟨.pop, .taken none, hphase, ?_, rfl⟩⟩
    simp only [limit]
    rw [WSDeque.contents_of_le (by omega)]
    exact .popEmpty

/-- "Adjust bottom consistently": the pool is empty now. -/
theorem ownerMove_popFix {t : Int} {removed : Option α} (h : OwnerInv q (.popFix t removed))
    (hphase : OwnerPhase q (.popFix t removed) phase)
    (hstep : ownerStep q (.popFix t removed) = some (q', pc')) :
    OwnerMove q (.popFix t removed) phase q' pc' := by
  obtain ⟨hpos, hbound, hle, hroom, hb, htop⟩ := h
  simp only [limit] at hle hroom
  simp only [ownerStep] at hstep
  cases hstep
  refine ⟨⟨hpos, htop.ge, htop.le, ?_, trivial⟩, rfl, le_refl _, .inl rfl, fun _ hlt => ⟨?_, rfl⟩,
    .inl ⟨?_, _, hphase⟩⟩
  · simp only [limit, WSDeque.setTopBound_bottom, WSDeque.setBottom_bottom,
      WSDeque.setTopBound_top, WSDeque.setBottom_top, WSDeque.setTopBound_moduloSize,
      WSDeque.setBottom_moduloSize]
    omega
  · simp only [limit] at hlt
    omega
  · simp only [limit, WSDeque.setTopBound_bottom, WSDeque.setBottom_bottom,
      WSDeque.setTopBound_contents, WSDeque.setBottom_contents, hb]

/-- Every step of the owner. -/
theorem ownerMove_of_step {pc : OwnerPc α} (h : OwnerInv q pc) (hphase : OwnerPhase q pc phase)
    (hstep : ownerStep q pc = some (q', pc')) : OwnerMove q pc phase q' pc' := by
  cases pc with
  | idle => cases hstep
  | push elem => exact ownerMove_push h hphase hstep
  | pushReadTop elem b => exact ownerMove_pushReadTop h hphase hstep
  | pushWrite elem b => exact ownerMove_pushWrite h hphase hstep
  | pushPublish elem b => exact ownerMove_pushPublish h hphase hstep
  | pop => exact ownerMove_pop h hphase hstep
  | popReadTop b => exact ownerMove_popReadTop h hphase hstep
  | popEmpty t => exact ownerMove_popEmpty h hphase hstep
  | popRead b t => exact ownerMove_popRead h hphase hstep
  | popCas t removed => exact ownerMove_popCas h hphase hstep
  | popFix t removed => exact ownerMove_popFix h hphase hstep
  | done answer => cases hstep

/-! ## One step of a thief -/

theorem bottom_le_limit (q : WSDeque α) (pc : OwnerPc α) : q.bottom ≤ limit q pc := by
  cases pc <;> simp only [limit] <;> omega

/-- What a thief knows survives the steps of the others: if `top` moved it can only lose,
and if not the element at `top` is still there. -/
theorem ThiefKnows.frame {lim lim' : Int} {pc : ThiefPc α} (h : ThiefKnows q lim pc)
    (htop : q.top ≤ q'.top)
    (hkeep : q'.top = q.top → q.top < lim → q.top < lim' ∧ q'.read q.top = q.read q.top) :
    ThiefKnows q' lim' pc := by
  cases pc with
  | idle => trivial
  | readTop retries => trivial
  | readBottom retries t => exact le_trans h htop
  | read retries t =>
    obtain ⟨ht, hlim⟩ := h
    refine ⟨le_trans ht htop, fun hnow => ?_⟩
    have hsame : q'.top = q.top := by omega
    have hts : t = q.top := by omega
    rw [hts] at hlim ⊢
    exact (hkeep hsame (hlim rfl)).1
  | cas retries t stolen =>
    obtain ⟨ht, hlim⟩ := h
    refine ⟨le_trans ht htop, fun hnow => ?_⟩
    have hsame : q'.top = q.top := by omega
    have hts : t = q.top := by omega
    rw [hts] at hlim ⊢
    obtain ⟨hlt, hread⟩ := hlim rfl
    obtain ⟨hlt', hread'⟩ := hkeep hsame hlt
    exact ⟨hlt', hread'.trans hread⟩
  | looksTop => trivial
  | looksBottom t => exact le_trans h htop
  | done removed => trivial

/-- A step of a thief: it takes the first element or leaves the pool alone.  It gives up on
a pool that looks empty, or once, without the loop, when `top` has moved. -/
structure ThiefMove (q : WSDeque α) (lim : Int) (pc : ThiefPc α)
    (phase : CallPhase (PoolOp α) (Answer α)) (q' : WSDeque α) (pc' : ThiefPc α) : Prop where
  pool : q' = q ∨
    q' = q.setTop (q.top + 1) ∧ q.top < lim ∧ ∃ stolen, pc' = .done (some stolen)
  knows : ThiefKnows q' lim pc'
  seen : ∀ t, pc'.seenTop = some t → pc.seenTop = some t ∨ t = q.top
  misses : pc' = .done none → q.bottom ≤ q.top ∨
    phase = .called (.steal false) ∧ ∃ t, pc.seenTop = some t ∧ t < q.top
  advances : Advances q.moduloSize (q.contents lim) phase (q'.contents lim) (ThiefPhase pc')

/-- A steal that came to nothing returns, or goes round its loop. -/
theorem thiefMove_failed {lim : Int} {pc : ThiefPc α} {retries : Bool}
    (hphase : phase = .called (.steal retries))
    (hwhy : q.bottom ≤ q.top ∨ ∃ t, pc.seenTop = some t ∧ t < q.top) :
    ThiefMove q lim pc phase q (.failed retries) := by
  cases retries with
  | true =>
    exact ⟨.inl rfl, trivial, (fun t ht => by cases ht), (fun hdone => by cases hdone),
      .inl ⟨rfl, hphase⟩⟩
  | false =>
    refine ⟨.inl rfl, trivial, (fun t ht => by cases ht), (fun _ => ?_),
      .inr ⟨_, .taken none, hphase, .miss, _, rfl⟩⟩
    rcases hwhy with hempty | hmoved
    · exact .inl hempty
    · exact .inr ⟨hphase, hmoved⟩

/-- Every step of a thief, on a pool whose contents end at or above `bottom`. -/
theorem thiefMove_of_step {lim : Int} {pc pc' : ThiefPc α} (hpos : 0 ≤ q.top)
    (hlim : q.bottom ≤ lim) (h : ThiefKnows q lim pc) (hphase : ThiefPhase pc phase)
    (hstep : thiefStep q pc = some (q', pc')) : ThiefMove q lim pc phase q' pc' := by
  cases pc with
  | idle => cases hstep
  | readTop retries =>
    cases hstep
    refine ⟨.inl rfl, le_refl q.top, (fun t ht => ?_), (fun hdone => by cases hdone),
      .inl ⟨rfl, hphase⟩⟩
    exact .inr (Option.some.inj ht).symm
  | readBottom retries t =>
    simp only [thiefStep] at hstep
    split at hstep
    case isTrue hempty =>
      cases hstep
      have ht : t ≤ q.top := h
      exact thiefMove_failed hphase (.inl (by omega))
    case isFalse hsome =>
      cases hstep
      exact ⟨.inl rfl, ⟨h, fun _ => by omega⟩, (fun _ ht => .inl ht),
        (fun hdone => by cases hdone), .inl ⟨rfl, hphase⟩⟩
  | read retries t =>
    cases hstep
    obtain ⟨ht, hlt⟩ := h
    exact ⟨.inl rfl, ⟨ht, fun hnow => ⟨hlt hnow, rfl⟩⟩, (fun _ ht => .inl ht),
      (fun hdone => by cases hdone), .inl ⟨rfl, hphase⟩⟩
  | cas retries t stolen =>
    simp only [thiefStep] at hstep
    split at hstep
    case isTrue hwon =>
      cases hstep
      obtain ⟨hlt, hread⟩ := h.2 hwon.symm
      rw [← hwon] at hlt hread ⊢
      refine ⟨.inr ⟨rfl, hlt, stolen, rfl⟩, trivial, (fun _ ht => by cases ht),
        (fun hdone => by cases hdone), .inr ⟨_, .taken (some stolen), hphase, ?_, _, rfl⟩⟩
      rw [WSDeque.contents_cons hpos hlt, hread]
      exact .steal
    case isFalse hlost =>
      cases hstep
      have ht : t ≤ q.top := h.1
      exact thiefMove_failed hphase (.inr ⟨t, rfl, by omega⟩)
  | looksTop =>
    cases hstep
    exact ⟨.inl rfl, le_refl q.top, (fun _ ht => by cases ht), (fun hdone => by cases hdone),
      .inl ⟨rfl, hphase⟩⟩
  | looksBottom t =>
    simp only [thiefStep] at hstep
    split at hstep
    case isTrue hempty =>
      cases hstep
      have ht : t ≤ q.top := h
      exact ⟨.inl rfl, trivial, (fun _ ht => by cases ht), (fun _ => .inl (by omega)),
        .inr ⟨_, .taken none, hphase, .miss, _, rfl⟩⟩
    case isFalse hsome =>
      cases hstep
      exact ⟨.inl rfl, trivial, (fun _ ht => by cases ht), (fun hdone => by cases hdone),
        .inl ⟨rfl, hphase⟩⟩
  | done removed => cases hstep

/-- A thief that can move is in a steal. -/
theorem thiefPhase_called {pc pc' : ThiefPc α} (hstep : thiefStep q pc = some (q', pc'))
    (hphase : ThiefPhase pc phase) : ∃ retries, phase = .called (.steal retries) := by
  cases pc with
  | idle => cases hstep
  | readTop retries => exact ⟨_, hphase⟩
  | readBottom retries t => exact ⟨_, hphase⟩
  | read retries t => exact ⟨_, hphase⟩
  | cas retries t stolen => exact ⟨_, hphase⟩
  | looksTop => exact ⟨_, hphase⟩
  | looksBottom t => exact ⟨_, hphase⟩
  | done removed => cases hstep

/-- A steal has come to nothing only where the thief is about to return `NULL`. -/
theorem thiefPhase_missed {pc : ThiefPc α} {o : PoolOp α}
    (hphase : ThiefPhase pc (.performed o (.taken none))) : pc = .done none := by
  cases pc with
  | done removed =>
    obtain ⟨o', ho⟩ := hphase
    cases ho
    rfl
  | idle => cases hphase
  | readTop retries => cases hphase
  | readBottom retries t => cases hphase
  | read retries t => cases hphase
  | cas retries t stolen => cases hphase
  | looksTop => cases hphase
  | looksBottom t => cases hphase

/-- A pool that looks empty holds nothing, or the one element its owner is popping. -/
theorem OwnerInv.looksEmpty {pc : OwnerPc α} (h : OwnerInv q pc) (hempty : q.bottom ≤ q.top) :
    q.contents (limit q pc) = [] ∨
      pc.decidingLast ∧ (q.contents (limit q pc)).length = 1 := by
  obtain ⟨-, -, hle, -, hknows⟩ := h
  by_cases hnone : limit q pc ≤ q.top
  · exact .inl (WSDeque.contents_of_le hnone)
  · -- the limit stands above `bottom` only while the owner is popping
    have hlim : limit q pc ≤ q.bottom + 1 := by
      cases pc <;> simp only [limit] <;> omega
    refine .inr ⟨?_, ?_⟩
    · cases pc with
      | popReadTop b => trivial
      | popRead b t' =>
        show b ≤ t'
        by_contra hlt
        simp only [limit] at hnone
        rw [if_pos (by omega)] at hnone
        omega
      | popCas t' removed => trivial
      | popEmpty t' =>
        obtain ⟨hb, htop⟩ := hknows
        simp only [limit] at hnone
        omega
      | popFix t' removed =>
        obtain ⟨hb, htop⟩ := hknows
        simp only [limit] at hnone
        omega
      | idle => exact absurd hempty hnone
      | push elem => exact absurd hempty hnone
      | pushReadTop elem b => exact absurd hempty hnone
      | pushWrite elem b => exact absurd hempty hnone
      | pushPublish elem b => exact absurd hempty hnone
      | pop => exact absurd hempty hnone
      | done answer => exact absurd hempty hnone
    · rw [WSDeque.contents_length]
      omega

/-- An owner that is deciding the last element has not popped it yet. -/
theorem ownerPhase_decidingLast {pc : OwnerPc α} (hlast : pc.decidingLast)
    (hphase : OwnerPhase q pc phase) : phase = .called .pop := by
  cases pc with
  | popReadTop b => exact hphase
  | popRead b t =>
    have hle : b ≤ t := hlast
    simp only [OwnerPhase] at hphase
    rwa [if_neg (by omega)] at hphase
  | popCas t removed => exact hphase
  | idle => cases hlast
  | push elem => cases hlast
  | pushReadTop elem b => cases hlast
  | pushWrite elem b => cases hlast
  | pushPublish elem b => cases hlast
  | pop => cases hlast
  | popEmpty t => cases hlast
  | popFix t removed => cases hlast
  | done answer => cases hlast

/-- The owner does not steal. -/
theorem ownerPhase_ne_steal {pc : OwnerPc α} {o : PoolOp α}
    (hphase : OwnerPhase q pc (.called o)) (retries : Bool) : o ≠ .steal retries := by
  rintro rfl
  cases pc with
  | popRead b t =>
    simp only [OwnerPhase] at hphase
    split at hphase <;> cases hphase
  | done answer =>
    obtain ⟨o, ho⟩ := hphase
    cases ho
  | idle => cases hphase
  | push elem => cases hphase
  | pushReadTop elem b => cases hphase
  | pushWrite elem b => cases hphase
  | pushPublish elem b => cases hphase
  | pop => cases hphase
  | popReadTop b => cases hphase
  | popEmpty t => cases hphase
  | popCas t removed => cases hphase
  | popFix t removed => cases hphase

theorem limit_setTop (q : WSDeque α) (t : Int) (pc : OwnerPc α) :
    limit (q.setTop t) pc = limit q pc := by
  cases pc <;> rfl

theorem ownerPhase_setTop (q : WSDeque α) (t : Int) (pc : OwnerPc α) :
    OwnerPhase (q.setTop t) pc = OwnerPhase q pc := by
  cases pc <;> rfl

/-- The owner does not mind a steal. -/
theorem OwnerInv.steal {pc : OwnerPc α} (h : OwnerInv q pc) (hlt : q.top < limit q pc) :
    OwnerInv (q.setTop (q.top + 1)) pc := by
  obtain ⟨hpos, hbound, hle, hroom, hknows⟩ := h
  refine ⟨?_, ?_, ?_, ?_, ?_⟩
  · simp only [WSDeque.setTop_top]
    omega
  · simp only [WSDeque.setTop_top, WSDeque.setTop_topBound]
    omega
  · rw [limit_setTop]
    simp only [WSDeque.setTop_top]
    omega
  · rw [limit_setTop]
    simp only [WSDeque.setTop_top, WSDeque.setTop_moduloSize]
    omega
  · cases pc with
    | idle => trivial
    | push elem => trivial
    | pushReadTop elem b => exact hknows
    | pushWrite elem b =>
      obtain ⟨hb, hspace⟩ := hknows
      refine ⟨hb, ?_⟩
      simp only [WSDeque.setTop_top, WSDeque.setTop_moduloSize]
      omega
    | pushPublish elem b =>
      obtain ⟨hb, hspace, hread⟩ := hknows
      refine ⟨hb, ?_, hread⟩
      simp only [WSDeque.setTop_top, WSDeque.setTop_moduloSize]
      omega
    | pop => trivial
    | popReadTop b => exact hknows
    | popEmpty t =>
      -- nothing was left to steal
      obtain ⟨hb, htop⟩ := hknows
      simp only [limit] at hlt
      omega
    | popRead b t =>
      obtain ⟨hb, htb, htop⟩ := hknows
      refine ⟨hb, htb, ?_⟩
      simp only [WSDeque.setTop_top]
      omega
    | popCas t removed =>
      obtain ⟨hb, htop, hread⟩ := hknows
      refine ⟨hb, ?_, hread⟩
      simp only [WSDeque.setTop_top]
      omega
    | popFix t removed =>
      obtain ⟨hb, htop⟩ := hknows
      simp only [limit] at hlt
      omega
    | done answer => trivial

end HosBoot.Rts
