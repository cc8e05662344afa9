/-
  Rts/SparkPoolRuns.lean --- every run of a spark pool.

  The pool simulates the atomic bounded queue, so each of its traces is explained by one
  sequential order of the operations.  From that order follows what its users rely on:
  no spark is lost and none is taken twice.
-/
import HosBoot.Rts.SparkPoolSteps

set_option autoImplicit false

namespace HosBoot.Rts

open HosBoot.Foundation
open TransitionSystem SeqObject

variable {θ α : Type} [DecidableEq θ]

/-- The state of the atomic queue. -/
abbrev QueueState (θ α : Type) := ContendedState (PoolThread θ) (List α) (PoolOp α) (Answer α)

/-- The pool and the queue it stands for. -/
structure PoolAgrees (capacity : Nat) (s : PoolState θ α) (a : QueueState θ α) : Prop where
  owner : OwnerInv s.pool s.owner
  thief : ∀ i, ThiefKnows s.pool (limit s.pool s.owner) (s.thief i)
  stopped : s.collector ≠ .idle → s.owner = .idle ∧ ∀ i, s.thief i = .idle
  capacity : s.pool.moduloSize = capacity
  value : a.value = s.pool.contents (limit s.pool s.owner)
  ownerPhase : OwnerPhase s.pool s.owner (a.phase .owner)
  thiefPhase : ∀ i, ThiefPhase (s.thief i) (a.phase (.thief i))
  collectorPhase : CollectorPhase s.collector (a.phase .collector)
  /-- A thief whose `top` is out of date has met somebody who took an element. -/
  raced : ∀ i t, (s.thief i).seenTop = some t → t < s.pool.top →
    ∃ p ∈ a.since (.thief i), (removed p).isSome

/-- A silent move of thread `j` on the queue, up to the value `c'` and a phase `after`. -/
structure QueueMove (capacity : Nat) (a : QueueState θ α) (j : PoolThread θ) (c' : List α)
    (after : CallPhase (PoolOp α) (Answer α) → Prop) (b : QueueState θ α) : Prop where
  run : (stealingDeque θ α capacity).contended.Run a [] b
  value : b.value = c'
  phase : after (b.phase j)
  others : ∀ k, k ≠ j → b.phase k = a.phase k
  since : ∀ k, ∀ p ∈ a.since k, p ∈ b.since k
  noted : ∀ o o' r, a.phase j = .called o → b.phase j = .performed o' r →
    ∀ k, ⟨j, o', r⟩ ∈ b.since k

/-- A step of the pool that advances the queue, seen from the queue. -/
theorem Advances.move {capacity : Nat} {c c' : List α} {a : QueueState θ α} {j : PoolThread θ}
    {after : CallPhase (PoolOp α) (Answer α) → Prop}
    (h : Advances capacity c (a.phase j) c' after) (hval : a.value = c)
    (hallows : ∀ o r, a.phase j = .called o → after (.performed o r) →
      (stealingDeque θ α capacity).allows c a.phase (a.since j) o r) :
    ∃ b : QueueState θ α, QueueMove capacity a j c' after b := by
  rcases h with ⟨hsame, hafter⟩ | ⟨o, r, hcalled, heffect, hafter⟩
  · refine ⟨a, Run.refl a, hval.trans hsame.symm, hafter, fun _ _ => rfl, fun _ _ hp => hp, ?_⟩
    intro o o' r hcalled hperformed
    rw [hcalled] at hperformed
    cases hperformed
  · have hstep : (stealingDeque θ α capacity).contended.step a none
        ⟨⟨c', Function.update a.phase j (.performed o r)⟩, fun k => a.since k ++ [⟨j, o, r⟩]⟩ := by
      refine ContendedObject.ContendedStep.perform hcalled ?_ ?_
      · rwa [hval]
      · rw [hval]
        exact hallows o r hcalled hafter
    refine ⟨_, Run.single hstep, rfl, ?_, ?_, fun _ _ hp => List.mem_append_left _ hp, ?_⟩
    · show after (Function.update a.phase j (.performed o r) j)
      rw [Function.update_self]
      exact hafter
    · intro k hk
      exact Function.update_of_ne hk _ _
    · intro _ o' r' _ hperformed k
      have hnow : Function.update a.phase j (CallPhase.performed o r) j = .performed o' r' :=
        hperformed
      rw [Function.update_self] at hnow
      cases hnow
      exact List.mem_append_right _ List.mem_cons_self

/-- A call or a return of thread `j`, seen from the queue. -/
theorem run_event {capacity : Nat} {a : QueueState θ α} {j : PoolThread θ}
    {event : CallEvent (PoolThread θ) (PoolOp α) (Answer α)}
    {phase : CallPhase (PoolOp α) (Answer α)}
    {since : PoolThread θ → List (Performed (PoolThread θ) (PoolOp α) (Answer α))}
    (hsince : ∀ k, k ≠ j → since k = a.since k)
    (hstep : (stealingDeque θ α capacity).ContendedStep a (some event)
      ⟨⟨a.value, Function.update a.phase j phase⟩, since⟩) :
    ∃ b : QueueState θ α, (stealingDeque θ α capacity).contended.Run a [event] b ∧
      b.value = a.value ∧ b.phase j = phase ∧ (∀ k, k ≠ j → b.phase k = a.phase k) ∧
      ∀ k, k ≠ j → b.since k = a.since k :=
  ⟨_, Run.single (S := (stealingDeque θ α capacity).contended) hstep, rfl,
    Function.update_self _ _ _, fun _ hk => Function.update_of_ne hk _ _, hsince⟩

namespace PoolAgrees

variable {capacity : Nat} {s : PoolState θ α} {a : QueueState θ α}

omit [DecidableEq θ] in
/-- While an operation is under way the collector is idle. -/
theorem collector_idle (h : PoolAgrees capacity s a)
    (hbusy : s.owner ≠ .idle ∨ ∃ i, s.thief i ≠ .idle) : s.collector = .idle := by
  by_contra hne
  obtain ⟨howner, hthief⟩ := h.stopped hne
  rcases hbusy with hb | ⟨i, hb⟩
  · exact hb howner
  · exact hb (hthief i)

/-- The owner calls an operation or returns from one: only its program counter changes. -/
theorem owner_event (h : PoolAgrees capacity s a) {pc : OwnerPc α}
    {event : CallEvent (PoolThread θ) (PoolOp α) (Answer α)}
    {phase : CallPhase (PoolOp α) (Answer α)}
    {since : PoolThread θ → List (Performed (PoolThread θ) (PoolOp α) (Answer α))}
    (hidle : s.collector = .idle) (hlim : limit s.pool pc = limit s.pool s.owner)
    (hknows : OwnerKnows s.pool pc) (hphase : OwnerPhase s.pool pc phase)
    (hsince : ∀ k, k ≠ .owner → since k = a.since k)
    (hstep : (stealingDeque θ α capacity).ContendedStep a (some event)
      ⟨⟨a.value, Function.update a.phase .owner phase⟩, since⟩) :
    ∃ b, (stealingDeque θ α capacity).contended.Run a [event] b ∧
      PoolAgrees capacity { s with owner := pc } b := by
  obtain ⟨b, hrun, hvalue, hself, hother, hsince⟩ := run_event hsince hstep
  obtain ⟨hpos, hbound, hle, hroom, -⟩ := h.owner
  refine ⟨b, hrun, ⟨hpos, hbound, ?_, ?_, hknows⟩, ?_, ?_, h.capacity, ?_, ?_, ?_, ?_, ?_⟩
  · rwa [hlim]
  · rwa [hlim]
  · intro i
    rw [hlim]
    exact h.thief i
  · intro hne
    exact absurd hidle hne
  · rw [hvalue, h.value, hlim]
  · rw [hself]
    exact hphase
  · intro i
    rw [hother _ (fun hc => by cases hc)]
    exact h.thiefPhase i
  · rw [hother _ (fun hc => by cases hc)]
    exact h.collectorPhase
  · intro i
    rw [hsince _ (fun hc => by cases hc)]
    exact h.raced i

/-- The same for a thief. -/
theorem thief_event (h : PoolAgrees capacity s a) {i : θ} {pc : ThiefPc α}
    {event : CallEvent (PoolThread θ) (PoolOp α) (Answer α)}
    {phase : CallPhase (PoolOp α) (Answer α)}
    {since : PoolThread θ → List (Performed (PoolThread θ) (PoolOp α) (Answer α))}
    (hidle : s.collector = .idle) (hseen : pc.seenTop = none)
    (hknows : ThiefKnows s.pool (limit s.pool s.owner) pc) (hphase : ThiefPhase pc phase)
    (hsince : ∀ k, k ≠ .thief i → since k = a.since k)
    (hstep : (stealingDeque θ α capacity).ContendedStep a (some event)
      ⟨⟨a.value, Function.update a.phase (.thief i) phase⟩, since⟩) :
    ∃ b, (stealingDeque θ α capacity).contended.Run a [event] b ∧
      PoolAgrees capacity { s with thief := Function.update s.thief i pc } b := by
  obtain ⟨b, hrun, hvalue, hself, hother, hsince⟩ := run_event hsince hstep
  refine ⟨b, hrun, h.owner, ?_, ?_, h.capacity, hvalue.trans h.value, ?_, ?_, ?_, ?_⟩
  · intro k
    by_cases hk : k = i
    · subst hk
      show ThiefKnows s.pool _ (Function.update s.thief k pc k)
      rw [Function.update_self]
      exact hknows
    · show ThiefKnows s.pool _ (Function.update s.thief i pc k)
      rw [Function.update_of_ne hk]
      exact h.thief k
  · intro hne
    exact absurd hidle hne
  · rw [hother _ (fun hc => by cases hc)]
    exact h.ownerPhase
  · intro k
    by_cases hk : k = i
    · subst hk
      show ThiefPhase (Function.update s.thief k pc k) _
      rw [Function.update_self, hself]
      exact hphase
    · show ThiefPhase (Function.update s.thief i pc k) _
      rw [Function.update_of_ne hk, hother _ (fun hc => hk (by cases hc; rfl))]
      exact h.thiefPhase k
  · rw [hother _ (fun hc => by cases hc)]
    exact h.collectorPhase
  · intro k t
    by_cases hk : k = i
    · subst hk
      show (Function.update s.thief k pc k).seenTop = some t → _
      rw [Function.update_self, hseen]
      exact fun hnone => by cases hnone
    · show (Function.update s.thief i pc k).seenTop = some t → _
      rw [Function.update_of_ne hk, hsince _ (fun hc => hk (by cases hc; rfl))]
      exact h.raced k t

/-- One access of the owner. -/
theorem owner_move (h : PoolAgrees capacity s a) {pool : WSDeque α} {pc : OwnerPc α}
    (hstep : ownerStep s.pool s.owner = some (pool, pc)) :
    ∃ b, (stealingDeque θ α capacity).contended.Run a [] b ∧
      PoolAgrees capacity { s with pool := pool, owner := pc } b := by
  obtain ⟨hinv, hmodulo, htop, htakes, hkeep, hadvances⟩ :=
    ownerMove_of_step h.owner h.ownerPhase hstep
  have hbusy : s.owner ≠ .idle := fun hidle => by
    rw [hidle] at hstep
    cases hstep
  have hidle := h.collector_idle (.inl hbusy)
  rw [h.capacity] at hadvances
  obtain ⟨b, hmove⟩ := hadvances.move h.value fun o r hcalled _ retries ho _ =>
    absurd ho (ownerPhase_ne_steal (hcalled ▸ h.ownerPhase) retries)
  refine ⟨b, hmove.run, hinv, ?_, ?_, hmodulo.trans h.capacity, hmove.value, hmove.phase, ?_, ?_, ?_⟩
  · intro i
    exact (h.thief i).frame htop hkeep
  · intro hne
    exact absurd hidle hne
  · intro i
    rw [hmove.others _ (fun hc => by cases hc)]
    exact h.thiefPhase i
  · rw [hmove.others _ (fun hc => by cases hc)]
    exact h.collectorPhase
  · intro i t hseen hlt
    rcases htakes with hsame | ⟨t', x, howner, rfl⟩
    · have hold : t < s.pool.top := hsame ▸ hlt
      obtain ⟨p, hp, htook⟩ := h.raced i t hseen hold
      exact ⟨p, hmove.since _ p hp, htook⟩
    · -- the owner took the last element, and everybody under way sees that
      have hcalled := h.ownerPhase
      rw [howner] at hcalled
      exact ⟨⟨.owner, .pop, .taken (some x)⟩, hmove.noted _ _ _ hcalled hmove.phase _, rfl⟩

omit [DecidableEq θ] in
/-- A steal fails only with an excuse. -/
theorem missExcused (h : PoolAgrees capacity s a) {i : θ} {pool : WSDeque α} {retries : Bool}
    (hcalled : a.phase (.thief i) = .called (.steal retries))
    (hstep : thiefStep s.pool (s.thief i) = some (pool, .done none)) :
    MissExcused a.value a.phase (a.since (.thief i)) retries := by
  have hmove := thiefMove_of_step h.owner.top_nonneg (bottom_le_limit _ _) (h.thief i)
    (h.thiefPhase i) hstep
  rcases hmove.misses rfl with hempty | ⟨hsingle, t, hseen, hlt⟩
  · rw [h.value]
    rcases h.owner.looksEmpty hempty with hnone | ⟨hlast, hone⟩
    · exact .empty hnone
    · exact .popping hone (ownerPhase_decidingLast hlast h.ownerPhase)
  · rw [hcalled] at hsingle
    cases hsingle
    obtain ⟨p, hp, htook⟩ := h.raced i t hseen hlt
    exact .lost rfl hp htook

/-- One access of a thief. -/
theorem thief_move (h : PoolAgrees capacity s a) {i : θ} {pool : WSDeque α} {pc : ThiefPc α}
    (hstep : thiefStep s.pool (s.thief i) = some (pool, pc)) :
    ∃ b, (stealingDeque θ α capacity).contended.Run a [] b ∧
      PoolAgrees capacity { s with pool := pool, thief := Function.update s.thief i pc } b := by
  obtain ⟨hpool, hknows, hseen, -, hadvances⟩ := thiefMove_of_step h.owner.top_nonneg
    (bottom_le_limit _ _) (h.thief i) (h.thiefPhase i) hstep
  have hbusy : s.thief i ≠ .idle := fun hidle => by
    rw [hidle] at hstep
    cases hstep
  have hidle := h.collector_idle (.inr ⟨i, hbusy⟩)
  rw [h.capacity] at hadvances
  obtain ⟨b, hmove⟩ := hadvances.move h.value fun o r hcalled hafter retries ho hr => by
    subst ho hr
    rw [thiefPhase_missed hafter] at hstep
    rw [← h.value]
    exact h.missExcused hcalled hstep
  have hlimit : limit pool s.owner = limit s.pool s.owner := by
    rcases hpool with rfl | ⟨rfl, -⟩
    · rfl
    · exact limit_setTop _ _ _
  have howner : OwnerInv pool s.owner := by
    rcases hpool with rfl | ⟨rfl, hlt, -⟩
    · exact h.owner
    · exact h.owner.steal hlt
  have hthief : ∀ k, ThiefKnows pool (limit s.pool s.owner) (s.thief k) := by
    intro k
    rcases hpool with rfl | ⟨rfl, -⟩
    · exact h.thief k
    · refine (h.thief k).frame ?_ ?_
      · rw [WSDeque.setTop_top]
        omega
      · intro hsame
        rw [WSDeque.setTop_top] at hsame
        omega
  have hphase : OwnerPhase pool s.owner = OwnerPhase s.pool s.owner := by
    rcases hpool with rfl | ⟨rfl, -⟩
    · rfl
    · exact ownerPhase_setTop _ _ _
  have hmodulo : pool.moduloSize = s.pool.moduloSize := by
    rcases hpool with rfl | ⟨rfl, -⟩ <;> rfl
  refine ⟨b, hmove.run, howner, ?_, ?_, hmodulo.trans h.capacity, ?_, ?_, ?_, ?_, ?_⟩
  · intro k
    show ThiefKnows pool (limit pool s.owner) (Function.update s.thief i pc k)
    rw [hlimit]
    by_cases hk : k = i
    · subst hk
      rw [Function.update_self]
      exact hknows
    · rw [Function.update_of_ne hk]
      exact hthief k
  · intro hne
    exact absurd hidle hne
  · show b.value = pool.contents (limit pool s.owner)
    rw [hlimit]
    exact hmove.value
  · rw [hmove.others _ (fun hc => by cases hc)]
    show OwnerPhase pool s.owner _
    rw [hphase]
    exact h.ownerPhase
  · intro k
    by_cases hk : k = i
    · subst hk
      show ThiefPhase (Function.update s.thief k pc k) _
      rw [Function.update_self]
      exact hmove.phase
    · show ThiefPhase (Function.update s.thief i pc k) _
      rw [Function.update_of_ne hk, hmove.others _ (fun hc => hk (by cases hc; rfl))]
      exact h.thiefPhase k
  · rw [hmove.others _ (fun hc => by cases hc)]
    exact h.collectorPhase
  · intro k t hsees hlt
    change (Function.update s.thief i pc k).seenTop = some t at hsees
    change t < pool.top at hlt
    rcases hpool with rfl | ⟨rfl, -, stolen, rfl⟩
    · -- nothing was taken: only a `top` that was out of date before is out of date
      have hold : (s.thief k).seenTop = some t := by
        by_cases hk : k = i
        · subst hk
          rw [Function.update_self] at hsees
          rcases hseen t hsees with hold | rfl
          · exact hold
          · exact absurd hlt (lt_irrefl _)
        · rwa [Function.update_of_ne hk] at hsees
      obtain ⟨p, hp, htook⟩ := h.raced k t hold hlt
      exact ⟨p, hmove.since _ p hp, htook⟩
    · obtain ⟨retries, hcalled⟩ := thiefPhase_called hstep (h.thiefPhase i)
      obtain ⟨o, hperformed⟩ := hmove.phase
      exact ⟨_, hmove.noted _ _ _ hcalled hperformed _, rfl⟩

/-- The world stops or goes on. -/
theorem collector_event (h : PoolAgrees capacity s a) {pc : CollectorPc α}
    {event : CallEvent (PoolThread θ) (PoolOp α) (Answer α)}
    {phase : CallPhase (PoolOp α) (Answer α)}
    (hstopped : pc ≠ .idle → s.owner = .idle ∧ ∀ i, s.thief i = .idle)
    (hphase : CollectorPhase pc phase)
    {since : PoolThread θ → List (Performed (PoolThread θ) (PoolOp α) (Answer α))}
    (hsince : ∀ k, k ≠ .collector → since k = a.since k)
    (hstep : (stealingDeque θ α capacity).ContendedStep a (some event)
      ⟨⟨a.value, Function.update a.phase .collector phase⟩, since⟩) :
    ∃ b, (stealingDeque θ α capacity).contended.Run a [event] b ∧
      PoolAgrees capacity { s with collector := pc } b := by
  obtain ⟨b, hrun, hvalue, hself, hother, hsince⟩ := run_event hsince hstep
  refine ⟨b, hrun, h.owner, h.thief, hstopped, h.capacity, hvalue.trans h.value, ?_, ?_, ?_, ?_⟩
  · rw [hother _ (fun hc => by cases hc)]
    exact h.ownerPhase
  · intro i
    rw [hother _ (fun hc => by cases hc)]
    exact h.thiefPhase i
  · rw [hself]
    exact hphase
  · intro i
    rw [hsince _ (fun hc => by cases hc)]
    exact h.raced i

omit [DecidableEq θ] in
/-- A pool that is stopped is quiet. -/
theorem quiet (h : PoolAgrees capacity s a) (hidle : s.owner = .idle) : Quiet s.pool := by
  obtain ⟨hpos, hbound, hle, hroom, -⟩ := h.owner
  rw [hidle] at hle hroom
  simp only [limit] at hle hroom
  have hlt := s.pool.moduloSize_lt
  exact ⟨hpos, hbound, hle, by omega⟩

/-- The collection itself: the collector leaves a quiet pool of the same size. -/
theorem collector_move (h : PoolAgrees capacity s a) {o : PoolOp α} {pool : WSDeque α}
    (stats : SparkCounters) (hcollector : s.collector ≠ .idle)
    (hphase : a.phase .collector = .called o) (hkind : o.isCollection = true)
    (hquiet : Quiet pool) (hsize : pool.size = s.pool.size)
    (heffect : DequeEffect capacity (s.pool.contents s.pool.bottom) o .collected
      (pool.contents pool.bottom)) :
    ∃ b, (stealingDeque θ α capacity).contended.Run a [] b ∧
      PoolAgrees capacity { s with pool := pool, stats := stats, collector := .done } b := by
  obtain ⟨howner, hthief⟩ := h.stopped hcollector
  have hmodulo : pool.moduloSize = s.pool.moduloSize := by
    rw [pool.moduloSize_eq, hsize, ← s.pool.moduloSize_eq]
  have hvalue := h.value
  rw [howner] at hvalue
  have hadvances : Advances capacity a.value (a.phase .collector)
      (pool.contents pool.bottom) (CollectorPhase .done) := by
    refine .inr ⟨o, .collected, hphase, ?_, _, rfl⟩
    rw [hvalue]
    exact heffect
  obtain ⟨b, hmove⟩ := hadvances.move rfl fun o' r hcalled _ retries ho _ => by
    rw [hphase] at hcalled
    cases hcalled
    rw [ho] at hkind
    cases hkind
  refine ⟨b, hmove.run, ⟨hquiet.top_nonneg, hquiet.topBound_le, ?_, ?_, ?_⟩, ?_, ?_,
    hmodulo.trans h.capacity, ?_, ?_, ?_, hmove.phase, ?_⟩
  · show pool.top ≤ limit pool s.owner
    rw [howner]
    exact hquiet.top_le
  · show limit pool s.owner - pool.top ≤ pool.moduloSize
    rw [howner]
    have hroom := hquiet.room
    have heq := pool.moduloSize_eq
    simp only [limit]
    omega
  · show OwnerKnows pool s.owner
    rw [howner]
    trivial
  · intro i
    show ThiefKnows pool _ (s.thief i)
    rw [hthief i]
    trivial
  · intro _
    exact ⟨howner, hthief⟩
  · show b.value = pool.contents (limit pool s.owner)
    rw [howner]
    exact hmove.value
  · rw [hmove.others _ (fun hc => by cases hc)]
    have hold := h.ownerPhase
    show OwnerPhase pool s.owner _
    rw [howner] at hold ⊢
    exact hold
  · intro i
    rw [hmove.others _ (fun hc => by cases hc)]
    exact h.thiefPhase i
  · intro i t hseen
    rw [show s.thief i = .idle from hthief i] at hseen
    cases hseen

/-- `pruneSparkQueue` as a step. -/
theorem prune_move (h : PoolAgrees capacity s a) {heap : SparkHeap α} {pool : WSDeque α}
    {stats : SparkCounters} (hcollector : s.collector = .prune heap)
    (hprune : pruneSparkQueue heap s.pool s.stats = some (pool, stats)) :
    ∃ b, (stealingDeque θ α capacity).contended.Run a [] b ∧
      PoolAgrees capacity { s with pool := pool, stats := stats, collector := .done } b := by
  have hbusy : s.collector ≠ .idle := by
    rw [hcollector]
    exact fun hc => by cases hc
  obtain ⟨howner, -⟩ := h.stopped hbusy
  obtain ⟨pool', hprune', hquiet, hsize, hcontents⟩ :=
    pruneSparkQueue_spec heap (h.quiet howner) s.stats
  rw [hprune] at hprune'
  obtain ⟨rfl, rfl⟩ := Prod.mk.inj (Option.some.inj hprune')
  have hphase := h.collectorPhase
  rw [hcollector] at hphase
  refine h.collector_move _ hbusy hphase rfl hquiet hsize ?_
  rw [hcontents]
  exact .prune

/-- `discardElements` as a step. -/
theorem discard_move (h : PoolAgrees capacity s a) (stats : SparkCounters)
    (hcollector : s.collector = .discard) :
    ∃ b, (stealingDeque θ α capacity).contended.Run a [] b ∧
      PoolAgrees capacity
        { s with pool := s.pool.discardElements, stats := stats, collector := .done } b := by
  have hbusy : s.collector ≠ .idle := by
    rw [hcollector]
    exact fun hc => by cases hc
  obtain ⟨howner, -⟩ := h.stopped hbusy
  obtain ⟨hpos, hbound, hle, hroom⟩ := h.quiet howner
  have hphase := h.collectorPhase
  rw [hcollector] at hphase
  have hsize : (s.pool.size : Int) > 0 := Int.natCast_pos.mpr s.pool.size_pos
  refine h.collector_move stats hbusy hphase rfl ⟨?_, ?_, ?_, ?_⟩ rfl ?_
  · exact le_trans hpos hle
  · exact le_trans hbound hle
  · exact le_refl s.pool.bottom
  · show s.pool.bottom - s.pool.bottom < _
    rw [sub_self]
    exact hsize
  · have hnone : s.pool.discardElements.contents s.pool.discardElements.bottom = [] :=
      WSDeque.contents_of_le (le_refl s.pool.bottom)
    rw [hnone]
    exact .discard

/-- Every step of the system. -/
theorem step (h : PoolAgrees capacity s a) {t : PoolState θ α}
    {label : Option (CallEvent (PoolThread θ) (PoolOp α) (Answer α))}
    (hstep : PoolStep s label t) :
    ∃ b, (stealingDeque θ α capacity).contended.Run a label.toList b ∧
      PoolAgrees capacity t b := by
  cases hstep with
  | push elem hidle hcollector =>
    have hphase := h.ownerPhase
    rw [hidle] at hphase
    exact h.owner_event hcollector (by rw [hidle]; rfl) trivial rfl (fun _ hk => Function.update_of_ne hk _ _) (.call hphase)
  | pop hidle hcollector =>
    have hphase := h.ownerPhase
    rw [hidle] at hphase
    exact h.owner_event hcollector (by rw [hidle]; rfl) trivial rfl (fun _ hk => Function.update_of_ne hk _ _) (.call hphase)
  | ownerMove hmove => exact h.owner_move hmove
  | ownerRet hdone =>
    have hphase := h.ownerPhase
    rw [hdone] at hphase
    obtain ⟨o, ho⟩ := hphase
    have hcollector := h.collector_idle
      (.inl (by rw [hdone]; exact fun hc => by cases hc))
    exact h.owner_event hcollector (by rw [hdone]; rfl) trivial rfl (fun _ _ => rfl) (.ret ho)
  | @steal i retries hidle hcollector =>
    have hphase := h.thiefPhase i
    rw [hidle] at hphase
    exact h.thief_event hcollector rfl trivial rfl (fun _ hk => Function.update_of_ne hk _ _) (.call hphase)
  | thiefMove hmove => exact h.thief_move hmove
  | @thiefRet i removed hdone =>
    have hphase := h.thiefPhase i
    rw [hdone] at hphase
    obtain ⟨o, ho⟩ := hphase
    have hcollector := h.collector_idle
      (.inr ⟨i, by rw [hdone]; exact fun hc => by cases hc⟩)
    exact h.thief_event hcollector rfl trivial rfl (fun _ _ => rfl) (.ret ho)
  | stopWorld heap howner hthief hcollector =>
    have hphase := h.collectorPhase
    rw [hcollector] at hphase
    exact h.collector_event (fun _ => ⟨howner, hthief⟩) rfl (fun _ hk => Function.update_of_ne hk _ _) (.call hphase)
  | interrupt howner hthief hcollector =>
    have hphase := h.collectorPhase
    rw [hcollector] at hphase
    exact h.collector_event (fun _ => ⟨howner, hthief⟩) rfl (fun _ hk => Function.update_of_ne hk _ _) (.call hphase)
  | prune hcollector hprune => exact h.prune_move hcollector hprune
  | discard hcollector => exact h.discard_move _ hcollector
  | restartWorld hdone =>
    have hphase := h.collectorPhase
    rw [hdone] at hphase
    obtain ⟨o, ho⟩ := hphase
    exact h.collector_event (fun hne => absurd rfl hne) rfl (fun _ _ => rfl) (.ret ho)

end PoolAgrees

/-! ## Linearizability -/

/-- What `newWSDeque` leaves. -/
theorem newWSDeque_spec {size : Nat} {dataspace : Nat → α} {q : WSDeque α}
    (h : newWSDeque size dataspace = some q) :
    roundUp2 size = some q.size ∧ q.top = 0 ∧ q.bottom = 0 ∧ q.topBound = 0 := by
  unfold newWSDeque at h
  split at h
  case h_1 => cases h
  case h_2 realsize hsize =>
    cases h
    exact ⟨hsize, rfl, rfl, rfl⟩

/-- The number of sparks a pool made for `size` of them can hold. -/
def poolCapacity (size : Nat) : Nat := 2 ^ (size.log2 + 1) - 1

theorem newWSDeque_moduloSize {size : Nat} {dataspace : Nat → α} {q : WSDeque α}
    (h : newWSDeque size dataspace = some q) : q.moduloSize = poolCapacity size := by
  have hsize := (newWSDeque_spec h).1
  rw [roundUp2_eq (roundUp2_ne_zero hsize)] at hsize
  rw [q.moduloSize_eq, ← Option.some.inj hsize, poolCapacity]

/-- The pool simulates the atomic queue. -/
theorem sparkPool_simulation (size : Nat) (dataspace : Nat → α) :
    (sparkPool θ size dataspace).Simulation
      (stealingDeque θ α (poolCapacity size)).contended
      (PoolAgrees (poolCapacity size)) where
  init s hinit := by
    obtain ⟨hnew, howner, hthief, hcollector⟩ := hinit
    obtain ⟨-, htop, hbottom, hbound⟩ := newWSDeque_spec hnew
    have hlim : limit s.pool s.owner = 0 := by
      rw [howner]
      exact hbottom
    refine ⟨⟨⟨[], fun _ => .idle⟩, fun _ => []⟩, ⟨rfl, fun _ => rfl⟩,
      ⟨htop.ge, by omega, by omega, by omega, ?_⟩, ?_, ?_, newWSDeque_moduloSize hnew,
      ?_, ?_, ?_, ?_, ?_⟩
    · rw [howner]
      trivial
    · intro i
      rw [hthief i]
      trivial
    · intro hne
      exact absurd hcollector hne
    · rw [hlim, WSDeque.contents_of_le htop.ge]
    · rw [howner]
      rfl
    · intro i
      rw [hthief i]
      rfl
    · rw [hcollector]
      rfl
    · intro i t hseen
      rw [hthief i] at hseen
      cases hseen
  step _ _ _ _ hrel hstep := hrel.step hstep

/-- Linearizability: whatever the interleaving of the owner, the thieves and the
collections, the calls and returns are those of a queue whose operations are atomic, whose
steals come back with nothing only with an excuse, and the cells of the pool hold that
queue. -/
theorem sparkPool_linearizable {size : Nat} {dataspace : Nat → α} {s t : PoolState θ α}
    {trace : List (CallEvent (PoolThread θ) (PoolOp α) (Answer α))}
    (hinit : (sparkPool θ size dataspace).init s)
    (hrun : (sparkPool θ size dataspace).Run s trace t) :
    ∃ a b, (stealingDeque θ α (poolCapacity size)).contended.init a ∧
      (stealingDeque θ α (poolCapacity size)).contended.Run a trace b ∧
      b.value = t.pool.contents (limit t.pool t.owner) := by
  obtain ⟨a, b, ha, hb, hagrees⟩ := (sparkPool_simulation size dataspace).of_init hinit hrun
  exact ⟨a, b, ha, hb, hagrees.value⟩

omit [DecidableEq θ] in
/-- A run may end with any account of the thieves that agrees at each. -/
theorem Run.thieves {S : TransitionSystem (PoolState θ α)
      (CallEvent (PoolThread θ) (PoolOp α) (Answer α))}
    {s t : PoolState θ α} {trace : List (CallEvent (PoolThread θ) (PoolOp α) (Answer α))}
    (h : S.Run s trace t) {thief : θ → ThiefPc α} (hthief : ∀ i, t.thief i = thief i) :
    S.Run s trace { t with thief := thief } := by
  obtain rfl : t.thief = thief := funext hthief
  exact h

/-- A pool for two sparks and two thieves, idle. -/
def idlePool : PoolState Bool Nat where
  pool :=
    { size := 4
      moduloSize := 3
      top := 0
      bottom := 0
      topBound := 0
      elements := fun _ => 0
      size_pow := ⟨2, rfl⟩
      moduloSize_eq := rfl }
  stats := ⟨0, 0, 0, 0, 0, 0⟩
  owner := .idle
  thief _ := .idle
  collector := .idle

/-- The same pool after its owner pushed a spark that one of the thieves took. -/
def racedPool : PoolState Bool Nat :=
  { idlePool with
    pool := ((((((idlePool.pool.store 0 7).setBottom 1).setBottom 0).setTopBound 0).setTop
      1).setBottom 1).setTopBound 1 }

theorem idlePool_init : (sparkPool Bool 2 fun _ => 0).init idlePool := by
  have hsize : roundUp2 2 = some 4 := roundUp2_eq (by decide)
  refine ⟨?_, rfl, fun _ => rfl, rfl⟩
  unfold newWSDeque
  split
  case h_1 hnone => cases hnone.symm.trans hsize
  case h_2 realsize hsome =>
    cases hsome.symm.trans hsize
    rfl

/-- The calls and returns of the race for one spark. -/
def raceTrace : List (CallEvent (PoolThread Bool) (PoolOp Nat) (Answer Nat)) :=
  [.call .owner (.push 7), .ret .owner (.pushed true), .call .owner .pop,
    .call (.thief true) (.steal false), .call (.thief false) (.steal false),
    .ret (.thief false) (.taken none), .ret (.thief true) (.taken (some 7)),
    .ret .owner (.taken none)]

/-- The owner pops the one spark while both thieves go for it. -/
theorem racedPool_run : (sparkPool Bool 2 fun _ => 0).Run idlePool raceTrace racedPool := by
  have hpush := Run.single (S := sparkPool Bool 2 fun _ => 0)
    (PoolStep.push (s := idlePool) 7 rfl rfl)
  have htest := Run.snoc hpush (PoolStep.ownerMove rfl)
  have hwrite := Run.snoc htest (PoolStep.ownerMove rfl)
  have hpublish := Run.snoc hwrite (PoolStep.ownerMove rfl)
  have hpushed := Run.snoc hpublish (PoolStep.ownerRet rfl)
  have hpop := Run.snoc hpushed (PoolStep.pop rfl rfl)
  have hsteal := Run.snoc hpop (PoolStep.steal (i := true) false rfl rfl)
  have hother := Run.snoc hsteal (PoolStep.steal (i := false) false rfl rfl)
  -- both thieves see one element
  have htop := Run.snoc hother (PoolStep.thiefMove (i := true) rfl)
  have hbottom := Run.snoc htop (PoolStep.thiefMove (i := true) rfl)
  have htop' := Run.snoc hbottom (PoolStep.thiefMove (i := false) rfl)
  have hbottom' := Run.snoc htop' (PoolStep.thiefMove (i := false) rfl)
  -- and so does the owner
  have htaken := Run.snoc hbottom' (PoolStep.ownerMove rfl)
  have hsees := Run.snoc htaken (PoolStep.ownerMove rfl)
  have hlast := Run.snoc hsees (PoolStep.ownerMove rfl)
  have hread := Run.snoc hlast (PoolStep.thiefMove (i := true) rfl)
  have hread' := Run.snoc hread (PoolStep.thiefMove (i := false) rfl)
  have hwins := Run.snoc hread' (PoolStep.thiefMove (i := true) rfl)
  have hloses := Run.snoc hwins (PoolStep.thiefMove (i := false) rfl)
  have hlost := Run.snoc hloses (PoolStep.ownerMove rfl)
  have hfixed := Run.snoc hlost (PoolStep.ownerMove rfl)
  have hret := Run.snoc hfixed (PoolStep.thiefRet (i := false) rfl)
  have hret' := Run.snoc hret (PoolStep.thiefRet (i := true) rfl)
  have hend := Run.snoc hret' (PoolStep.ownerRet rfl)
  exact Run.thieves hend fun i => by cases i <;> rfl

theorem sparkPool_linearizable_race : ∃ a b,
    (stealingDeque Bool Nat 3).contended.init a ∧
      (stealingDeque Bool Nat 3).contended.Run a raceTrace b ∧ b.value = [] :=
  sparkPool_linearizable idlePool_init racedPool_run

/-! ## No spark is lost and none is taken twice -/

/-- The element that a push put into the pool. -/
def accepted : Performed (PoolThread θ) (PoolOp α) (Answer α) → Option α
  | ⟨_, .push elem, .pushed true⟩ => some elem
  | _ => none

omit [DecidableEq θ] in
/-- What one operation other than a collection does to the elements. -/
theorem DequeEffect.balance {capacity : Nat} {i : PoolThread θ} {c c' : List α} {o : PoolOp α}
    {r : Answer α} (h : DequeEffect capacity c o r c') (hkind : o.isCollection = false) :
    (c ++ (accepted ⟨i, o, r⟩).toList).Perm ((removed ⟨i, o, r⟩).toList ++ c') := by
  cases h with
  | push _ => exact List.Perm.refl _
  | full _ => simp [accepted, removed]
  | pop => simp [accepted, removed]
  | popEmpty => exact List.Perm.refl _
  | steal => simp [accepted, removed]
  | miss => simp [accepted, removed]
  | prune => cases hkind
  | discard => cases hkind

omit [DecidableEq θ] in
/-- The same for a whole history. -/
theorem Replay.balance {capacity : Nat} {u v : List α}
    {history : List (Performed (PoolThread θ) (PoolOp α) (Answer α))}
    (h : (boundedDeque α capacity).Replay u history v)
    (hkind : ∀ p ∈ history, p.operation.isCollection = false) :
    (u ++ history.filterMap accepted).Perm (history.filterMap removed ++ v) := by
  induction h with
  | nil => simp
  | @snoc v w history p _ heffect ih =>
    have hrest := ih fun q hq => hkind q (List.mem_append_left _ hq)
    have hlast : (v ++ (accepted p).toList).Perm ((removed p).toList ++ w) :=
      DequeEffect.balance heffect (hkind p (List.mem_append_right _ List.mem_cons_self))
    have haccepted : (history ++ [p]).filterMap accepted =
        history.filterMap accepted ++ (accepted p).toList := by
      cases hp : accepted p <;> simp [hp]
    have hremoved : (history ++ [p]).filterMap removed =
        history.filterMap removed ++ (removed p).toList := by
      cases hp : removed p <;> simp [hp]
    rw [haccepted, hremoved, ← List.append_assoc u]
    refine (hrest.append_right _).trans ?_
    rw [List.append_assoc, List.append_assoc]
    exact hlast.append_left _

/-- Nobody is in the middle of an operation. -/
structure PoolState.Idle (s : PoolState θ α) : Prop where
  owner : s.owner = .idle
  thief : ∀ i, s.thief i = .idle
  collector : s.collector = .idle

omit [DecidableEq θ] in
theorem PoolAgrees.idle {capacity : Nat} {s : PoolState θ α} {a : QueueState θ α}
    (h : PoolAgrees capacity s a) (hidle : s.Idle) :
    (∀ i, a.phase i = .idle) ∧ a.value = s.pool.contents s.pool.bottom := by
  obtain ⟨howner, hthief, hcollector⟩ := hidle
  have hvalue := h.value
  have hownerPhase := h.ownerPhase
  have hcollectorPhase := h.collectorPhase
  rw [howner] at hvalue hownerPhase
  rw [hcollector] at hcollectorPhase
  refine ⟨fun i => ?_, hvalue⟩
  cases i with
  | owner => exact hownerPhase
  | thief i =>
    have hphase := h.thiefPhase i
    rwa [hthief i] at hphase
  | collector => exact hcollectorPhase

/-- Between two quiet moments without a collection, the sparks in the pool and those whose
push succeeded are, each as often, the sparks that pops and steals returned and those that
are left. -/
theorem sparkPool_conserves {size : Nat} {dataspace : Nat → α} {s t : PoolState θ α}
    {trace : List (CallEvent (PoolThread θ) (PoolOp α) (Answer α))}
    (hs : (sparkPool θ size dataspace).Reachable s)
    (hrun : (sparkPool θ size dataspace).Run s trace t) (hsIdle : s.Idle) (htIdle : t.Idle)
    (hcollection : ∀ i o, CallEvent.call i o ∈ trace → o.isCollection = false) :
    (s.pool.contents s.pool.bottom ++ (completed trace).filterMap accepted).Perm
      ((completed trace).filterMap removed ++ t.pool.contents t.pool.bottom) := by
  have hsim := sparkPool_simulation (θ := θ) size dataspace
  obtain ⟨s₀, before, hinit, hbefore⟩ := hs
  obtain ⟨a₀, a, -, -, ha⟩ := hsim.of_init hinit hbefore
  obtain ⟨b, hb, hagrees⟩ := hsim.run ha hrun
  obtain ⟨haIdle, havalue⟩ := ha.idle hsIdle
  obtain ⟨hbIdle, hbvalue⟩ := hagrees.idle htIdle
  obtain ⟨history, hreplay, hperm⟩ :=
    exists_history_perm (ContendedObject.atomic_of_contended hb) haIdle hbIdle
  have hkind : ∀ p ∈ history, p.operation.isCollection = false := fun p hp =>
    hcollection _ _ (call_mem_of_completed (hperm.mem_iff.mp hp))
  have hbalance := Replay.balance hreplay hkind
  rw [havalue, hbvalue] at hbalance
  exact ((hperm.filterMap accepted).append_left _).symm.trans
    (hbalance.trans ((hperm.filterMap removed).append_right _))

theorem sparkPool_conserves_race :
    ([] ++ [7]).Perm ([7] ++ racedPool.pool.contents racedPool.pool.bottom) :=
  sparkPool_conserves ⟨idlePool, [], idlePool_init, Run.refl _⟩ racedPool_run
    ⟨rfl, fun _ => rfl, rfl⟩ ⟨rfl, fun _ => rfl, rfl⟩ (fun i o h => by
      simp only [raceTrace, List.mem_cons, CallEvent.call.injEq, reduceCtorEq, List.not_mem_nil,
        or_false, false_or] at h
      rcases h with ⟨-, rfl⟩ | ⟨-, rfl⟩ | ⟨-, rfl⟩ | ⟨-, rfl⟩ <;> rfl)

/-! ## What the source asserts, and what NULL means -/

/-- What the comments and assertions of WSDeque.c say of a pool. -/
structure PoolAsserts (s : PoolState θ α) : Prop where
  /-- `ASSERT_WSDEQUE_INVARIANTS`. -/
  topBound_le : s.pool.topBound ≤ s.pool.top
  /-- The array never fills up: one cell stays free. -/
  room : (s.pool.contents (limit s.pool s.owner)).length ≤ s.pool.moduloSize
  /-- `ASSERT(q->bottom >= q->top)` when a pop is over. -/
  top_le : ∀ answer, s.owner = .done answer → s.pool.top ≤ s.pool.bottom
  /-- The subtraction `b - t` of `pushWSDeque` does not wrap. -/
  push_sub : ∀ elem b, s.owner = .pushReadTop elem b → s.pool.top ≤ b
  /-- A swap that is about to succeed takes the first element. -/
  wins : ∀ i retries t stolen, s.thief i = .cas retries t stolen → s.pool.top = t →
    (s.pool.contents (limit s.pool s.owner)).head? = some stolen
  /-- A swap fails only if somebody else took an element since `top` was read. -/
  loses : ∀ i retries t stolen, s.thief i = .cas retries t stolen → s.pool.top ≠ t →
    t < s.pool.top
  /-- A pool that looks empty holds nothing, or the one element its owner is popping. -/
  looksEmpty : ∀ i t, (s.thief i = .looksBottom t ∨ ∃ retries, s.thief i = .readBottom retries t) →
    s.pool.bottom - t ≤ 0 →
    s.pool.contents (limit s.pool s.owner) = [] ∨
      s.owner.decidingLast ∧ (s.pool.contents (limit s.pool s.owner)).length = 1

omit [DecidableEq θ] in
theorem PoolAgrees.asserts {capacity : Nat} {s : PoolState θ α} {a : QueueState θ α}
    (h : PoolAgrees capacity s a) : PoolAsserts s := by
  obtain ⟨hpos, hbound, hle, hroom, hknows⟩ := h.owner
  refine ⟨hbound, ?_, ?_, ?_, ?_, ?_, ?_⟩
  · rw [WSDeque.contents_length]
    omega
  · intro answer hdone
    rw [hdone] at hle
    exact hle
  · intro elem b hpush
    rw [hpush] at hle hknows
    have hb : s.pool.bottom = b := hknows
    rw [← hb]
    exact hle
  · intro i retries t stolen hcas hnow
    have hthief := h.thief i
    rw [hcas] at hthief
    obtain ⟨hlt, hread⟩ := hthief.2 hnow.symm
    rw [← hnow] at hlt hread
    rw [WSDeque.contents_cons hpos hlt, hread, List.head?_cons]
  · intro i retries t stolen hcas hnow
    have hthief := h.thief i
    rw [hcas] at hthief
    have hle := hthief.1
    omega
  · intro i t hthief hempty
    have ht : t ≤ s.pool.top := by
      have hknows := h.thief i
      rcases hthief with hthief | ⟨retries, hthief⟩
      · rw [hthief] at hknows
        exact hknows
      · rw [hthief] at hknows
        exact hknows
    exact h.owner.looksEmpty (by omega)

/-- In every state that any interleaving reaches the assertions hold, a steal that
succeeds takes the first element, and one that returns `NULL` found the pool empty, met
the owner at the last element or lost to another thread. -/
theorem sparkPool_asserts {size : Nat} {dataspace : Nat → α} {s : PoolState θ α}
    (hs : (sparkPool θ size dataspace).Reachable s) : PoolAsserts s := by
  obtain ⟨s₀, trace, hinit, hrun⟩ := hs
  obtain ⟨-, a, -, -, hagrees⟩ := (sparkPool_simulation size dataspace).of_init hinit hrun
  exact hagrees.asserts

theorem sparkPool_asserts_race : PoolAsserts racedPool :=
  sparkPool_asserts ⟨idlePool, _, idlePool_init, racedPool_run⟩

end HosBoot.Rts
