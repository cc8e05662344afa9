/-
  Rts/MVar.lean --- MVars: the primitive operations of PrimOps.cmm and their queues.

  A primitive operation holds the MVar's lock from its first access to its return, or until
  the scheduler has the blocked thread, so it is one step here.  What overlaps is everything
  between two operations: wake-up messages to other capabilities, exceptions that revoke an
  operation, and collections that short out queue entries.  Of a stack only the frame that
  the operations push is modelled, of the run queue only the order of its threads.
-/
import HosBoot.Foundation.LinkedQueue

set_option autoImplicit false

namespace HosBoot.Rts

open HosBoot.Foundation

/-- `StgMVarTSOQueue`: the entry is live under `stg_MVAR_TSO_QUEUE_info`, an indirection under
`stg_IND_info` and a tombstone under `stg_MSG_NULL_info`; the item is the thread. -/
abbrev MVarTSOQueue := LinkedQueue.Node Nat

/-- `StgMVar`; a pointer to `stg_END_TSO_QUEUE_closure` is `none`. -/
structure MVar (V : Type) extends LinkedQueue.Ends where
  value : Option V

/-- `tso->why_blocked`, as far as MVars go. -/
inductive WhyBlocked
  | notBlocked
  | blockedOnMVar
deriving DecidableEq

/-- The frame on top of a stack: that of `stg_block_takemvar` or `stg_block_putmvar`, or
`stg_gc_unpt_r1`, which returns a value. -/
inductive Frame (V : Type)
  | blockTakeMVar (mvar : Nat)
  | blockPutMVar (mvar : Nat) (value : V)
  | unptR1 (value : V)

/-- `StgTSO`. -/
structure TSO (V : Type) where
  cap : Nat
  whyBlocked : WhyBlocked
  blockInfo : Option Nat
  link : Option Nat
  frame : Option (Frame V)

/-- The heap, the threads and the capabilities.  Queue entries from `hp` on are not allocated
yet; `inbox` has the threads of the `MSG_TRY_WAKEUP` messages to a capability. -/
structure MVarState (V : Type) where
  node : Nat → MVarTSOQueue
  hp : Nat
  mvar : Nat → MVar V
  tso : Nat → TSO V
  runQueue : Nat → List Nat
  current : Nat → Option Nat
  inbox : Nat → List Nat

/-- What shows of a step, for a thread and an MVar: an operation completes or begins to wait, a
value that was waited for is returned, an exception is raised.  A thread waits with the value
to put, or with `none` to take. -/
inductive Done (V : Type)
  | took (tso mvar : Nat) (value : V)
  | put (tso mvar : Nat) (value : V)
  | waits (tso mvar : Nat) (value : Option V)
  | refused (tso mvar : Nat)
  | isEmpty (tso mvar : Nat) (empty : Bool)
  | returned (tso : Nat) (value : V)
  | revoked (tso : Nat)

/-- What a turn of `throwToMsg` meets at the MVar of a blocked target: another capability has
the lock, or it gets the lock, for the MVar that the target was blocked on when the turn
began. -/
inductive LockTurn
  | held
  | locked (mvar : Nat)

variable {V : Type}

/-- `newMVar`. -/
def newMVar : MVar V := ⟨⟨none, none⟩, none⟩

namespace MVarState

/-! ## Updates -/

/-- A write to the fields of one thread. -/
def setTSO (s : MVarState V) (t : Nat) (f : TSO V → TSO V) : MVarState V :=
  { s with tso := Function.update s.tso t (f (s.tso t)) }

/-- `StgMVar_value(mvar) = value`. -/
def setValue (s : MVarState V) (m : Nat) (value : Option V) : MVarState V :=
  { s with mvar := Function.update s.mvar m { s.mvar m with value := value } }

/-- Writes to `StgMVar_head(mvar)` and `StgMVar_tail(mvar)`. -/
def setEnds (s : MVarState V) (m : Nat) (ends : LinkedQueue.Ends) : MVarState V :=
  { s with mvar := Function.update s.mvar m ⟨ends, (s.mvar m).value⟩ }

/-! ## Scheduling -/

/-- `appendToRunQueue`. -/
def appendToRunQueue (s : MVarState V) (cap t : Nat) : Except String (MVarState V) :=
  if (s.tso t).link = none then
    .ok { s with runQueue := Function.update s.runQueue cap (s.runQueue cap ++ [t]) }
  else .error "tso->_link == END_TSO_QUEUE"

/-- `sendMessage` of a `MSG_TRY_WAKEUP`. -/
def sendWakeup (s : MVarState V) (cap t : Nat) : MVarState V :=
  { s with inbox := Function.update s.inbox cap (t :: s.inbox cap) }

/-- `tryWakeupThread`. -/
def tryWakeupThread (s : MVarState V) (cap t : Nat) : Except String (MVarState V) :=
  if (s.tso t).cap ≠ cap then .ok (s.sendWakeup (s.tso t).cap t)
  else
    match (s.tso t).whyBlocked with
    | .notBlocked => .ok s
    | .blockedOnMVar =>
      if (s.tso t).link = none then
        (s.setTSO t fun tso => { tso with blockInfo := none, whyBlocked := .notBlocked }).appendToRunQueue
          cap t
      else .ok s

/-! ## The primitive operations -/

/-- `PerformTake`; another frame would be overwritten. -/
def performTake (s : MVarState V) (t : Nat) (value : V) : Except String (MVarState V) :=
  match (s.tso t).frame with
  | some (.blockTakeMVar _) => .ok (s.setTSO t fun tso => { tso with frame := some (.unptR1 value) })
  | _ => .error "not a stg_block_takemvar frame"

/-- `PerformPut`, and the value it finds. -/
def performPut (s : MVarState V) (t : Nat) : Except String (MVarState V × V) :=
  match (s.tso t).frame with
  | some (.blockPutMVar _ value) => .ok (s.setTSO t fun tso => { tso with frame := none }, value)
  | _ => .error "not a stg_block_putmvar frame"

/-- The current thread goes to the end of the MVar's queue and to the scheduler. -/
def blockOn (s : MVarState V) (cap t m : Nat) (frame : Frame V) : Except String (MVarState V) :=
  match LinkedQueue.append s.node (s.mvar m).toEnds s.hp t with
  | none => .error "NULL tail"
  | some (node, ends) =>
    let s' := { s with
      node := node
      hp := s.hp + 1
      current := Function.update s.current cap none }
    .ok ((s'.setEnds m ends).setTSO t fun tso =>
      { tso with
        link := some s.hp
        blockInfo := some m
        whyBlocked := .blockedOnMVar
        frame := some frame })

/-- An entry leaves the queue: its thread, with what the code asserts of it. -/
def dequeue (s : MVarState V) (m q : Nat) : Except String (MVarState V × Nat) :=
  let t := (s.node q).item
  if (s.tso t).whyBlocked = .blockedOnMVar then
    if (s.tso t).blockInfo = some m then
      .ok (s.setEnds m (LinkedQueue.behind s.node (s.mvar m).toEnds q), t)
    else .error "StgTSO_block_info(tso) == mvar"
  else .error "StgTSO_why_blocked(tso) == BlockedOnMVar"

/-- `takeMVar` and `tryTakeMVar` of a full MVar. -/
def takeValue (s : MVarState V) (cap t m : Nat) (val : V) :
    Except String (MVarState V × List (Done V)) := do
  match LinkedQueue.firstLive s.node s.hp (s.mvar m).head with
  | none => throw "loop"
  | some none => return (s.setValue m none, [.took t m val])
  | some (some q) =>
    let (s, tso) ← s.dequeue m q
    let (s, value) ← s.performPut tso
    let s := (s.setValue m (some value)).setTSO tso fun tso => { tso with link := none }
    let s ← s.tryWakeupThread cap tso
    return (s, [.took t m val, .put tso m value])

/-- `putMVar` and `tryPutMVar` to an empty MVar. -/
def putValue (s : MVarState V) (cap t m : Nat) (val : V) :
    Except String (MVarState V × List (Done V)) := do
  match LinkedQueue.firstLive s.node s.hp (s.mvar m).head with
  | none => throw "loop"
  | some none => return (s.setValue m (some val), [.put t m val])
  | some (some q) =>
    let (s, tso) ← s.dequeue m q
    let s ← s.performTake tso val
    let s := s.setTSO tso fun tso => { tso with link := none }
    let s ← s.tryWakeupThread cap tso
    return (s, [.put t m val, .took tso m val])

/-- `takeMVar` by the current thread of a capability. -/
def takeMVar (s : MVarState V) (cap t m : Nat) : Except String (MVarState V × List (Done V)) :=
  match (s.mvar m).value with
  | none => do return (← s.blockOn cap t m (.blockTakeMVar m), [.waits t m none])
  | some val => s.takeValue cap t m val

/-- `tryTakeMVar`. -/
def tryTakeMVar (s : MVarState V) (cap t m : Nat) : Except String (MVarState V × List (Done V)) :=
  match (s.mvar m).value with
  | none => .ok (s, [.refused t m])
  | some val => s.takeValue cap t m val

/-- `putMVar`. -/
def putMVar (s : MVarState V) (cap t m : Nat) (val : V) :
    Except String (MVarState V × List (Done V)) :=
  match (s.mvar m).value with
  | some _ => do return (← s.blockOn cap t m (.blockPutMVar m val), [.waits t m (some val)])
  | none => s.putValue cap t m val

/-- `tryPutMVar`. -/
def tryPutMVar (s : MVarState V) (cap t m : Nat) (val : V) :
    Except String (MVarState V × List (Done V)) :=
  match (s.mvar m).value with
  | some _ => .ok (s, [.refused t m])
  | none => s.putValue cap t m val

/-- `isEmptyMVar`. -/
def isEmptyMVar (s : MVarState V) (m : Nat) : Bool := (s.mvar m).value.isNone

/-- A thread from the run queue is run: `popRunQueue`, then the code of the frame on top of its
stack. -/
def schedule (s : MVarState V) (cap : Nat) : Except String (MVarState V × List (Done V)) :=
  match s.runQueue cap with
  | [] => .error "t != END_TSO_QUEUE"
  | t :: rest =>
    let s := { s with
      runQueue := Function.update s.runQueue cap rest
      current := Function.update s.current cap (some t) }
    let popped := s.setTSO t fun tso => { tso with frame := none }
    match (s.tso t).frame with
    | none => .ok (s, [])
    | some (.unptR1 value) => .ok (popped, [.returned t value])
    | some (.blockTakeMVar m) => popped.takeMVar cap t m
    | some (.blockPutMVar m value) => popped.putMVar cap t m value

/-! ## Exceptions -/

/-- `removeFromMVarBlockedQueue`. -/
def removeFromMVarBlockedQueue (s : MVarState V) (t : Nat) : MVarState V :=
  match (s.tso t).blockInfo, (s.tso t).link with
  | some m, some q =>
    let (node, ends) := LinkedQueue.delete s.node (s.mvar m).toEnds q
    (({ s with node := node }).setEnds m ends).setTSO t fun tso => { tso with link := none }
  | _, _ => s

/-- `removeFromQueues`. -/
def removeFromQueues (s : MVarState V) (cap t : Nat) : Except String (MVarState V) :=
  match (s.tso t).whyBlocked with
  | .notBlocked => .ok s
  | .blockedOnMVar =>
    ((s.removeFromMVarBlockedQueue t).setTSO t fun tso =>
      { tso with whyBlocked := .notBlocked }).appendToRunQueue cap t

/-- `raiseAsync`: the frame goes with the stack, and the thread is woken up. -/
def raiseAsync (s : MVarState V) (cap t : Nat) : Except String (MVarState V) :=
  let s := s.setTSO t fun tso => { tso with frame := none }
  match (s.tso t).whyBlocked with
  | .notBlocked => .ok s
  | .blockedOnMVar =>
    (s.setTSO t fun tso => { tso with whyBlocked := .notBlocked }).appendToRunQueue cap t

/-- `throwToSingleThreaded`. -/
def throwToSingleThreaded (s : MVarState V) (cap t : Nat) : Except String (MVarState V) := do
  (← s.removeFromQueues cap t).raiseAsync cap t

/-- `throwToMsg`, for a target of this capability that lets exceptions through, with what the
turns of `retry` meet. -/
def throwToMsg (s : MVarState V) (cap t : Nat) : List LockTurn → Except String (MVarState V)
  | [] => .error "retry"
  | turn :: turns =>
    match (s.tso t).whyBlocked, turn with
    | .notBlocked, _ => s.raiseAsync cap t
    | .blockedOnMVar, .held => s.throwToMsg cap t turns
    | .blockedOnMVar, .locked mvar =>
      if (s.tso t).blockInfo ≠ some mvar then s.throwToMsg cap t turns
      else if (s.tso t).link = none then do (← s.tryWakeupThread cap t).throwToMsg cap t turns
      else (s.removeFromMVarBlockedQueue t).raiseAsync cap t

/-! ## Collections -/

/-- What a collection does to the queues: every pointer to an indirection is moved on. -/
def collect (s : MVarState V) : MVarState V :=
  { s with
    node := LinkedQueue.collect s.node s.hp
    mvar := fun m => ⟨LinkedQueue.collectEnds s.node s.hp (s.mvar m).toEnds, (s.mvar m).value⟩
    tso := fun t => { s.tso t with link := LinkedQueue.resolve s.node s.hp (s.tso t).link } }

end MVarState

end HosBoot.Rts
