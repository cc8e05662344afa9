/-
  Rts/SparkPool.lean --- a spark pool under its owner, its thieves and the collector.

  The owner pushes and pops, any number of thieves steal, and a collection prunes or
  discards the pool while everyone else is stopped; their accesses interleave in any order.  Up to
  the `limit` of the pool its cells hold the contents of a bounded double-ended queue,
  and every step is a step of that queue or changes nothing of it: the pool is
  linearizable.  A steal comes back with nothing only where the queue excuses it.
-/
import HosBoot.Foundation.AtomicObject
import HosBoot.Rts.Sparks

set_option autoImplicit false

namespace HosBoot.Rts

open HosBoot.Foundation
open SeqObject

variable {θ α : Type}

/-! ## The threads and their steps -/

/-- The operations on a pool: `pushWSDeque`, `popWSDeque`, `stealWSDeque_` and its loop
`stealWSDeque`, and the collector's `pruneSparkQueue` and `discardElements`. -/
inductive PoolOp (α : Type)
  | push (elem : α)
  | pop
  | steal (retries : Bool)
  | prune (heap : SparkHeap α)
  | discard

/-- The operations of the collector. -/
def PoolOp.isCollection : PoolOp α → Bool
  | .prune _ => true
  | .discard => true
  | .push _ => false
  | .pop => false
  | .steal _ => false

/-- Who works on a pool.  The owner may steal from its own pool, as a thief that acts
while the owner is idle. -/
inductive PoolThread (θ : Type)
  | owner
  | thief (i : θ)
  | collector
  deriving DecidableEq

/-- Where the collector stands. -/
inductive CollectorPc (α : Type)
  | idle
  | prune (heap : SparkHeap α)
  | discard
  | done

/-- The pool and the program counters of everyone who uses it. -/
structure PoolState (θ α : Type) where
  pool : WSDeque α
  stats : SparkCounters
  owner : OwnerPc α
  thief : θ → ThiefPc α
  collector : CollectorPc α

section

variable [DecidableEq θ]

/-- The steps of the system.  No operation starts while the world is stopped, and the
world stops only between operations. -/
inductive PoolStep : PoolState θ α → Option (CallEvent (PoolThread θ) (PoolOp α) (Answer α)) →
    PoolState θ α → Prop
  | push {s : PoolState θ α} (elem : α) :
      s.owner = .idle → s.collector = .idle →
      PoolStep s (some (.call .owner (.push elem))) { s with owner := .push elem }
  | pop {s : PoolState θ α} :
      s.owner = .idle → s.collector = .idle →
      PoolStep s (some (.call .owner .pop)) { s with owner := .pop }
  | ownerMove {s : PoolState θ α} {pool : WSDeque α} {pc : OwnerPc α} :
      ownerStep s.pool s.owner = some (pool, pc) →
      PoolStep s none { s with pool := pool, owner := pc }
  | ownerRet {s : PoolState θ α} {answer : Answer α} :
      s.owner = .done answer →
      PoolStep s (some (.ret .owner answer)) { s with owner := .idle }
  | steal {s : PoolState θ α} {i : θ} (retries : Bool) :
      s.thief i = .idle → s.collector = .idle →
      PoolStep s (some (.call (.thief i) (.steal retries)))
        { s with thief := Function.update s.thief i (.readTop retries) }
  | thiefMove {s : PoolState θ α} {i : θ} {pool : WSDeque α} {pc : ThiefPc α} :
      thiefStep s.pool (s.thief i) = some (pool, pc) →
      PoolStep s none { s with pool := pool, thief := Function.update s.thief i pc }
  | thiefRet {s : PoolState θ α} {i : θ} {removed : Option α} :
      s.thief i = .done removed →
      PoolStep s (some (.ret (.thief i) (.taken removed)))
        { s with thief := Function.update s.thief i .idle }
  | stopWorld {s : PoolState θ α} (heap : SparkHeap α) :
      s.owner = .idle → (∀ i, s.thief i = .idle) → s.collector = .idle →
      PoolStep s (some (.call .collector (.prune heap))) { s with collector := .prune heap }
  | interrupt {s : PoolState θ α} :
      s.owner = .idle → (∀ i, s.thief i = .idle) → s.collector = .idle →
      PoolStep s (some (.call .collector .discard)) { s with collector := .discard }
  | prune {s : PoolState θ α} {heap : SparkHeap α} {pool : WSDeque α} {stats : SparkCounters} :
      s.collector = .prune heap → pruneSparkQueue heap s.pool s.stats = some (pool, stats) →
      PoolStep s none { s with pool := pool, stats := stats, collector := .done }
  | discard {s : PoolState θ α} :
      s.collector = .discard →
      PoolStep s none
        { s with
          pool := s.pool.discardElements
          stats := { s.stats with gcd := s.stats.gcd + s.pool.dequeElements.toNat }
          collector := .done }
  | restartWorld {s : PoolState θ α} :
      s.collector = .done →
      PoolStep s (some (.ret .collector .collected)) { s with collector := .idle }

/-- A pool of at least `size` sparks and everyone idle. -/
def sparkPool (θ : Type) [DecidableEq θ] (size : Nat) (dataspace : Nat → α) :
    TransitionSystem (PoolState θ α) (CallEvent (PoolThread θ) (PoolOp α) (Answer α)) where
  init s := newWSDeque size dataspace = some s.pool ∧ s.owner = .idle ∧
    (∀ i, s.thief i = .idle) ∧ s.collector = .idle
  step := PoolStep

end

/-! ## The bounded queue -/

/-- The sequential double-ended queue.  That a steal may come back with nothing is not a
matter of the elements alone: `MissExcused` says when it may. -/
inductive DequeEffect (capacity : Nat) : List α → PoolOp α → Answer α → List α → Prop
  | push {c : List α} {x : α} : c.length < capacity →
      DequeEffect capacity c (.push x) (.pushed true) (c ++ [x])
  | full {c : List α} {x : α} : capacity ≤ c.length →
      DequeEffect capacity c (.push x) (.pushed false) c
  | pop {c : List α} {x : α} : DequeEffect capacity (c ++ [x]) .pop (.taken (some x)) c
  | popEmpty : DequeEffect capacity [] .pop (.taken none) []
  | steal {c : List α} {x : α} {retries : Bool} :
      DequeEffect capacity (x :: c) (.steal retries) (.taken (some x)) c
  | miss {c : List α} {retries : Bool} :
      DequeEffect capacity c (.steal retries) (.taken none) c
  | prune {c : List α} {heap : SparkHeap α} :
      DequeEffect capacity c (.prune heap) .collected (survivors heap c)
  | discard {c : List α} : DequeEffect capacity c .discard .collected []

/-- A double-ended queue that holds at most `capacity` elements. -/
def boundedDeque (α : Type) (capacity : Nat) : SeqObject (List α) (PoolOp α) (Answer α) where
  init := []
  effect := DequeEffect capacity

/-- The element that a pop or a steal took out of the pool. -/
def removed : Performed (PoolThread θ) (PoolOp α) (Answer α) → Option α
  | ⟨_, _, .taken elem⟩ => elem
  | _ => none

/-- When a steal may come back with nothing: the pool is empty, or its one element is the
one that the owner is popping, or (in `stealWSDeque_`, which does not try again) another
thread took an element since the steal was called. -/
inductive MissExcused (c : List α) (around : PoolThread θ → CallPhase (PoolOp α) (Answer α))
    (since : List (Performed (PoolThread θ) (PoolOp α) (Answer α))) (retries : Bool) : Prop
  | empty : c = [] → MissExcused c around since retries
  | popping : c.length = 1 → around .owner = .called .pop → MissExcused c around since retries
  | lost {p : Performed (PoolThread θ) (PoolOp α) (Answer α)} : retries = false → p ∈ since →
      (removed p).isSome → MissExcused c around since retries

/-- The bounded queue as the threads of a pool meet it: no steal fails without an excuse. -/
def stealingDeque (θ α : Type) (capacity : Nat) :
    ContendedObject (PoolThread θ) (List α) (PoolOp α) (Answer α) where
  toSeqObject := boundedDeque α capacity
  allows c around since o r :=
    ∀ retries, o = .steal retries → r = .taken none → MissExcused c around since retries

/-! ## What holds between two steps of the owner -/

/-- Where the contents end.  While the owner has taken one off `bottom` and not decided
yet, the element above `bottom` still belongs to the pool. -/
def limit (q : WSDeque α) : OwnerPc α → Int
  | .popReadTop _ => q.bottom + 1
  | .popEmpty _ => q.bottom + 1
  | .popRead b t => if t < b then q.bottom else q.bottom + 1
  | .popCas _ _ => q.bottom + 1
  | .popFix _ _ => q.bottom + 1
  | .idle => q.bottom
  | .push _ => q.bottom
  | .pushReadTop _ _ => q.bottom
  | .pushWrite _ _ => q.bottom
  | .pushPublish _ _ => q.bottom
  | .pop => q.bottom
  | .done _ => q.bottom

/-- What the owner's local variables say about the pool. -/
def OwnerKnows (q : WSDeque α) : OwnerPc α → Prop
  | .pushReadTop _ b => q.bottom = b
  | .pushWrite _ b => q.bottom = b ∧ b - q.top < q.moduloSize
  | .pushPublish elem b => q.bottom = b ∧ b - q.top < q.moduloSize ∧ q.read b = elem
  | .popReadTop b => q.bottom = b
  | .popEmpty t => q.bottom + 1 = t ∧ q.top = t
  | .popRead b t => q.bottom = b ∧ t ≤ b ∧ t ≤ q.top
  | .popCas t removed => q.bottom = t ∧ t ≤ q.top ∧ q.read t = removed
  | .popFix t _ => q.bottom = t ∧ q.top = t + 1
  | .idle => True
  | .push _ => True
  | .pop => True
  | .done _ => True

/-- The pool as its owner sees it. -/
structure OwnerInv (q : WSDeque α) (pc : OwnerPc α) : Prop where
  top_nonneg : 0 ≤ q.top
  topBound_le : q.topBound ≤ q.top
  top_le : q.top ≤ limit q pc
  room : limit q pc - q.top ≤ q.moduloSize
  knows : OwnerKnows q pc

/-- What a thief's local variables say about a pool whose contents end at `lim`.  A thief
that has seen `top` below `bottom` can only be wrong if `top` has moved since. -/
def ThiefKnows (q : WSDeque α) (lim : Int) : ThiefPc α → Prop
  | .readBottom _ t => t ≤ q.top
  | .read _ t => t ≤ q.top ∧ (t = q.top → t < lim)
  | .cas _ t stolen => t ≤ q.top ∧ (t = q.top → t < lim ∧ q.read t = stolen)
  | .looksBottom t => t ≤ q.top
  | .idle => True
  | .readTop _ => True
  | .looksTop => True
  | .done _ => True

/-- The `top` that a thief has read and goes by. -/
def ThiefPc.seenTop : ThiefPc α → Option Int
  | .readBottom _ t => some t
  | .read _ t => some t
  | .cas _ t _ => some t
  | .idle => none
  | .readTop _ => none
  | .looksTop => none
  | .looksBottom _ => none
  | .done _ => none

/-- The owner has taken the last element off `bottom` and not yet won or lost it. -/
def OwnerPc.decidingLast : OwnerPc α → Prop
  | .popReadTop _ => True
  | .popRead b t => b ≤ t
  | .popCas _ _ => True
  | _ => False

/-- The operation the owner is in, and its answer once that is decided. -/
def OwnerPhase (q : WSDeque α) : OwnerPc α → CallPhase (PoolOp α) (Answer α) → Prop
  | .idle, phase => phase = .idle
  | .push elem, phase => phase = .called (.push elem)
  | .pushReadTop elem _, phase => phase = .called (.push elem)
  | .pushWrite elem _, phase => phase = .called (.push elem)
  | .pushPublish elem _, phase => phase = .called (.push elem)
  | .pop, phase => phase = .called .pop
  | .popReadTop _, phase => phase = .called .pop
  | .popEmpty _, phase => phase = .performed .pop (.taken none)
  | .popRead b t, phase =>
    if t < b then phase = .performed .pop (.taken (some (q.read b))) else phase = .called .pop
  | .popCas _ _, phase => phase = .called .pop
  | .popFix _ removed, phase => phase = .performed .pop (.taken removed)
  | .done answer, phase => ∃ o, phase = .performed o answer

/-- The same for a thief. -/
def ThiefPhase : ThiefPc α → CallPhase (PoolOp α) (Answer α) → Prop
  | .idle, phase => phase = .idle
  | .readTop retries, phase => phase = .called (.steal retries)
  | .readBottom retries _, phase => phase = .called (.steal retries)
  | .read retries _, phase => phase = .called (.steal retries)
  | .cas retries _ _, phase => phase = .called (.steal retries)
  | .looksTop, phase => phase = .called (.steal true)
  | .looksBottom _, phase => phase = .called (.steal true)
  | .done removed, phase => ∃ o, phase = .performed o (.taken removed)

/-- The same for the collector. -/
def CollectorPhase : CollectorPc α → CallPhase (PoolOp α) (Answer α) → Prop
  | .idle, phase => phase = .idle
  | .prune heap, phase => phase = .called (.prune heap)
  | .discard, phase => phase = .called .discard
  | .done, phase => ∃ o, phase = .performed o .collected

end HosBoot.Rts
