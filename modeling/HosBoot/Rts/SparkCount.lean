/-
  Rts/SparkCount.lean --- counting the sparks of one pool.

  The `debt` of a pool is what it holds, corrected for the operations that took effect
  and have not returned yet.  A step changes it only by what it returns or, at a
  collection, by what it counts.
-/
import Mathlib.Algebra.BigOperators.Group.Finset.Basic
import HosBoot.Rts.SparkPoolRuns

set_option autoImplicit false

namespace HosBoot.Rts

open HosBoot.Foundation
open TransitionSystem SeqObject

variable {θ α : Type}

/-- One account gets a new value. -/
theorem sum_update {ι β : Type} [Fintype ι] [DecidableEq ι] (f : ι → β → Int) (g : ι → β)
    (i : ι) (v : β) :
    ∑ k, f k (Function.update g i v k) = ∑ k, f k (g k) - f i (g i) + f i v := by
  have hnew := Finset.add_sum_erase Finset.univ (fun k => f k (Function.update g i v k))
    (Finset.mem_univ i)
  have hold := Finset.add_sum_erase Finset.univ (fun k => f k (g k)) (Finset.mem_univ i)
  have hrest : ∑ k ∈ Finset.univ.erase i, f k (Function.update g i v k) =
      ∑ k ∈ Finset.univ.erase i, f k (g k) := by
    refine Finset.sum_congr rfl fun k hk => ?_
    rw [Function.update_of_ne (Finset.ne_of_mem_erase hk)]
  simp only [Function.update_self] at hnew
  omega

/-! ## What is under way -/

/-- What an answer did to the number of elements. -/
def answerCredit : Answer α → Int
  | .pushed ok => if ok then 1 else 0
  | .taken (some _) => -1
  | .taken none => 0
  | .collected => 0

/-- An operation that took effect and has not returned. -/
def phaseCredit : CallPhase (PoolOp α) (Answer α) → Int
  | .performed _ answer => answerCredit answer
  | .called _ => 0
  | .idle => 0

/-- The same, read off the owner's program counter. -/
def ownerCredit : OwnerPc α → Int
  | .popRead b t => if t < b then -1 else 0
  | .popFix _ removed => answerCredit (.taken removed)
  | .done answer => answerCredit answer
  | _ => 0

/-- The same for a thief. -/
def thiefCredit : ThiefPc α → Int
  | .done removed => answerCredit (.taken removed)
  | _ => 0

theorem OwnerPhase.credit {q : WSDeque α} {pc : OwnerPc α}
    {phase : CallPhase (PoolOp α) (Answer α)} (h : OwnerPhase q pc phase) :
    phaseCredit phase = ownerCredit pc := by
  cases pc with
  | popRead b t =>
    simp only [OwnerPhase, ownerCredit] at h ⊢
    split at h
    case isTrue hlt =>
      rw [h, if_pos hlt]
      rfl
    case isFalse hge =>
      rw [h, if_neg hge]
      rfl
  | done answer =>
    obtain ⟨o, rfl⟩ := h
    rfl
  | idle => rw [show phase = _ from h]; rfl
  | push elem => rw [show phase = _ from h]; rfl
  | pushReadTop elem b => rw [show phase = _ from h]; rfl
  | pushWrite elem b => rw [show phase = _ from h]; rfl
  | pushPublish elem b => rw [show phase = _ from h]; rfl
  | pop => rw [show phase = _ from h]; rfl
  | popReadTop b => rw [show phase = _ from h]; rfl
  | popEmpty t => rw [show phase = _ from h]; rfl
  | popCas t removed => rw [show phase = _ from h]; rfl
  | popFix t removed => rw [show phase = _ from h]; rfl

theorem ThiefPhase.credit {pc : ThiefPc α} {phase : CallPhase (PoolOp α) (Answer α)}
    (h : ThiefPhase pc phase) : phaseCredit phase = thiefCredit pc := by
  cases pc with
  | done removed =>
    obtain ⟨o, rfl⟩ := h
    rfl
  | idle => rw [show phase = _ from h]; rfl
  | readTop retries => rw [show phase = _ from h]; rfl
  | readBottom retries t => rw [show phase = _ from h]; rfl
  | read retries t => rw [show phase = _ from h]; rfl
  | cas retries t stolen => rw [show phase = _ from h]; rfl
  | looksTop => rw [show phase = _ from h]; rfl
  | looksBottom t => rw [show phase = _ from h]; rfl

/-- No thread but the collector is in a collection. -/
theorem OwnerPhase.kind {q : WSDeque α} {pc : OwnerPc α} {o : PoolOp α}
    (h : OwnerPhase q pc (.called o)) : o.isCollection = false := by
  cases pc with
  | popRead b t =>
    simp only [OwnerPhase] at h
    split at h
    · cases h
    · cases h; rfl
  | done answer => obtain ⟨o', h⟩ := h; cases h
  | idle => cases h
  | push elem => cases h; rfl
  | pushReadTop elem b => cases h; rfl
  | pushWrite elem b => cases h; rfl
  | pushPublish elem b => cases h; rfl
  | pop => cases h; rfl
  | popReadTop b => cases h; rfl
  | popEmpty t => cases h
  | popCas t removed => cases h; rfl
  | popFix t removed => cases h

theorem ThiefPhase.kind {pc : ThiefPc α} {o : PoolOp α} (h : ThiefPhase pc (.called o)) :
    o.isCollection = false := by
  cases pc with
  | idle => cases h
  | readTop retries => cases h; rfl
  | readBottom retries t => cases h; rfl
  | read retries t => cases h; rfl
  | cas retries t stolen => cases h; rfl
  | looksTop => cases h; rfl
  | looksBottom t => cases h; rfl
  | done removed => obtain ⟨o', h⟩ := h; cases h

/-- An operation changes the number of elements by its answer. -/
theorem DequeEffect.length {capacity : Nat} {c c' : List α} {o : PoolOp α} {r : Answer α}
    (h : DequeEffect capacity c o r c') (hkind : o.isCollection = false) :
    (c'.length : Int) = c.length + answerCredit r := by
  cases h with
  | push _ => simp [answerCredit]
  | full _ => simp [answerCredit]
  | pop => simp [answerCredit]
  | popEmpty => simp [answerCredit]
  | steal => simp [answerCredit]
  | miss => simp [answerCredit]
  | prune => cases hkind
  | discard => cases hkind

/-- What an access does to the elements and to the credit of the thread that makes it. -/
theorem Advances.length {capacity : Nat} {c c' : List α}
    {phase : CallPhase (PoolOp α) (Answer α)} {after : CallPhase (PoolOp α) (Answer α) → Prop}
    (h : Advances capacity c phase c' after)
    (hkind : ∀ o, phase = .called o → o.isCollection = false) :
    ∃ next, after next ∧
      (c'.length : Int) - phaseCredit next = c.length - phaseCredit phase := by
  rcases h with ⟨rfl, hafter⟩ | ⟨o, r, hcalled, heffect, hafter⟩
  · exact ⟨phase, hafter, rfl⟩
  · refine ⟨_, hafter, ?_⟩
    rw [heffect.length (hkind o hcalled), hcalled]
    simp only [phaseCredit]
    omega

/-! ## The debt of a pool -/

variable [Fintype θ]

/-- The elements of a pool less the operations that took effect and did not return. -/
def sparkDebt (s : PoolState θ α) : Int :=
  (s.pool.contents (limit s.pool s.owner)).length - ownerCredit s.owner -
    ∑ i, thiefCredit (s.thief i)

/-- What a label returns. -/
def labelCredit : Option (CallEvent (PoolThread θ) (PoolOp α) (Answer α)) → Int
  | some (.ret _ answer) => answerCredit answer
  | some (.call _ _) => 0
  | none => 0

/-- The counters that no step of a pool touches. -/
structure CountsKept (before after : SparkCounters) : Prop where
  created : after.created = before.created
  dud : after.dud = before.dud
  overflowed : after.overflowed = before.overflowed
  converted : after.converted = before.converted

theorem CountsKept.refl (stats : SparkCounters) : CountsKept stats stats :=
  ⟨rfl, rfl, rfl, rfl⟩

/-- The owner calls or returns. -/
theorem sparkDebt_owner (s : PoolState θ α) {pc : OwnerPc α}
    (hlim : limit s.pool pc = limit s.pool s.owner) :
    sparkDebt { s with owner := pc } = sparkDebt s + ownerCredit s.owner - ownerCredit pc := by
  simp only [sparkDebt, hlim]
  omega

/-- A thief calls or returns. -/
theorem sparkDebt_thief [DecidableEq θ] (s : PoolState θ α) (i : θ) (pc : ThiefPc α) :
    sparkDebt { s with thief := Function.update s.thief i pc } =
      sparkDebt s + thiefCredit (s.thief i) - thiefCredit pc := by
  have hsum := sum_update (fun _ => thiefCredit) s.thief i pc
  simp only [sparkDebt]
  rw [hsum]
  omega

section

variable {capacity : Nat} {s : PoolState θ α} {a : QueueState θ α}

theorem sparkDebt_ownerMove (h : PoolAgrees capacity s a) {pool : WSDeque α} {pc : OwnerPc α}
    (hstep : ownerStep s.pool s.owner = some (pool, pc)) :
    sparkDebt { s with pool := pool, owner := pc } = sparkDebt s := by
  have hmove := ownerMove_of_step h.owner h.ownerPhase hstep
  obtain ⟨next, hnext, hlength⟩ := hmove.advances.length fun o ho =>
    (show OwnerPhase s.pool s.owner (.called o) from ho ▸ h.ownerPhase).kind
  rw [hnext.credit, h.ownerPhase.credit] at hlength
  simp only [sparkDebt]
  omega

theorem sparkDebt_thiefMove [DecidableEq θ] (h : PoolAgrees capacity s a) {i : θ} {pool : WSDeque α}
    {pc : ThiefPc α} (hstep : thiefStep s.pool (s.thief i) = some (pool, pc)) :
    sparkDebt { s with pool := pool, thief := Function.update s.thief i pc } = sparkDebt s := by
  obtain ⟨hpool, -, -, -, hadvances⟩ := thiefMove_of_step h.owner.top_nonneg
    (bottom_le_limit _ _) (h.thief i) (h.thiefPhase i) hstep
  obtain ⟨next, hnext, hlength⟩ := hadvances.length fun o ho =>
    (show ThiefPhase (s.thief i) (.called o) from ho ▸ h.thiefPhase i).kind
  rw [hnext.credit, (h.thiefPhase i).credit] at hlength
  have hlimit : limit pool s.owner = limit s.pool s.owner := by
    rcases hpool with rfl | ⟨rfl, -⟩
    · rfl
    · exact limit_setTop _ _ _
  have hsum := sum_update (fun _ => thiefCredit) s.thief i pc
  simp only [sparkDebt]
  rw [hlimit, hsum]
  omega

/-- A collection counts what it drops. -/
theorem sparkDebt_prune (h : PoolAgrees capacity s a) {heap : SparkHeap α} {pool : WSDeque α}
    {stats : SparkCounters} (hcollector : s.collector = .prune heap)
    (hprune : pruneSparkQueue heap s.pool s.stats = some (pool, stats)) :
    sparkDebt { s with pool := pool, stats := stats, collector := .done } + stats.gcd +
        stats.fizzled = sparkDebt s + s.stats.gcd + s.stats.fizzled ∧
      CountsKept s.stats stats := by
  obtain ⟨howner, -⟩ := h.stopped (by rw [hcollector]; exact fun hc => by cases hc)
  obtain ⟨pool', hprune', -, -, hcontents⟩ :=
    pruneSparkQueue_spec heap (h.quiet howner) s.stats
  rw [hprune] at hprune'
  obtain ⟨rfl, rfl⟩ := Prod.mk.inj (Option.some.inj hprune')
  obtain ⟨hsum, hcreated, hdud, hoverflowed, hconverted⟩ :=
    countAll_spec heap (s.pool.contents s.pool.bottom) s.stats
  refine ⟨?_, hcreated, hdud, hoverflowed, hconverted⟩
  simp only [sparkDebt, howner, limit]
  rw [hcontents]
  omega

theorem sparkDebt_discard (h : PoolAgrees capacity s a) (hcollector : s.collector = .discard) :
    sparkDebt { s with
        pool := s.pool.discardElements
        stats := { s.stats with gcd := s.stats.gcd + s.pool.dequeElements.toNat }
        collector := .done } +
        ((s.stats.gcd + s.pool.dequeElements.toNat : Nat) : Int) + s.stats.fizzled =
      sparkDebt s + s.stats.gcd + s.stats.fizzled := by
  obtain ⟨howner, -⟩ := h.stopped (by rw [hcollector]; exact fun hc => by cases hc)
  have hnone : s.pool.discardElements.contents s.pool.discardElements.bottom = [] :=
    WSDeque.contents_of_le (le_refl s.pool.bottom)
  simp only [sparkDebt, howner, limit]
  rw [hnone, WSDeque.contents_length, List.length_nil, WSDeque.dequeElements]
  push_cast
  omega

/-- Every step pays for what it takes out of the pool. -/
theorem sparkDebt_step [DecidableEq θ] (h : PoolAgrees capacity s a) {t : PoolState θ α}
    {label : Option (CallEvent (PoolThread θ) (PoolOp α) (Answer α))}
    (hstep : PoolStep s label t) :
    sparkDebt t + t.stats.gcd + t.stats.fizzled =
        sparkDebt s + s.stats.gcd + s.stats.fizzled + labelCredit label ∧
      CountsKept s.stats t.stats := by
  cases hstep with
  | push elem hidle _ =>
    rw [sparkDebt_owner s (by rw [hidle]; rfl), hidle]
    exact ⟨by simp [ownerCredit, labelCredit], CountsKept.refl _⟩
  | pop hidle _ =>
    rw [sparkDebt_owner s (by rw [hidle]; rfl), hidle]
    exact ⟨by simp [ownerCredit, labelCredit], CountsKept.refl _⟩
  | ownerMove hmove =>
    have hdebt := sparkDebt_ownerMove h hmove
    refine ⟨?_, CountsKept.refl _⟩
    rw [hdebt]
    simp [labelCredit]
  | ownerRet hdone =>
    rw [sparkDebt_owner s (by rw [hdone]; rfl), hdone]
    refine ⟨?_, CountsKept.refl _⟩
    simp only [ownerCredit, labelCredit]
    omega
  | @steal i retries hidle _ =>
    rw [sparkDebt_thief, hidle]
    exact ⟨by simp [thiefCredit, labelCredit], CountsKept.refl _⟩
  | thiefMove hmove =>
    have hdebt := sparkDebt_thiefMove h hmove
    refine ⟨?_, CountsKept.refl _⟩
    rw [hdebt]
    simp [labelCredit]
  | @thiefRet i removed hdone =>
    rw [sparkDebt_thief, hdone]
    refine ⟨?_, CountsKept.refl _⟩
    simp only [thiefCredit, labelCredit]
    omega
  | stopWorld heap _ _ _ => exact ⟨(add_zero _).symm, CountsKept.refl _⟩
  | interrupt _ _ _ => exact ⟨(add_zero _).symm, CountsKept.refl _⟩
  | prune hcollector hprune =>
    obtain ⟨hdebt, hkept⟩ := sparkDebt_prune h hcollector hprune
    refine ⟨?_, hkept⟩
    simp only [labelCredit, add_zero]
    exact hdebt
  | discard hcollector =>
    refine ⟨?_, rfl, rfl, rfl, rfl⟩
    simp only [labelCredit, add_zero]
    exact sparkDebt_discard h hcollector
  | restartWorld _ => exact ⟨(add_zero _).symm, CountsKept.refl _⟩

end

end HosBoot.Rts
