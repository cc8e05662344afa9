/-
  Foundation/Sequential.lean --- one caller, one operation after the other.

  An implementation applies operations to a state and may get stuck.  It refines an
  object when, from related states, an operation that the object allows never gets stuck,
  answers what the object may answer and ends in related states; then so does every
  sequence of operations, whatever they are.
-/
import HosBoot.Foundation.AtomicObject

set_option autoImplicit false

namespace HosBoot.Foundation

variable {σ obj op res : Type}

/-- Operations in order, until one gets stuck. -/
def runOps (apply : σ → op → Option (σ × res)) : σ → List op → Option (σ × List res)
  | s, [] => some (s, [])
  | s, o :: ops =>
    match apply s o with
    | none => none
    | some (s', r) => (runOps apply s' ops).map fun done => (done.1, r :: done.2)

namespace SeqObject

/-- The answers that an object may give to a sequence of operations. -/
inductive Explained (O : SeqObject obj op res) : obj → List op → List res → obj → Prop
  | nil (v : obj) : Explained O v [] [] v
  | cons {u v w : obj} {o : op} {r : res} {ops : List op} {answers : List res} :
      O.effect u o r v → Explained O v ops answers w →
      Explained O u (o :: ops) (r :: answers) w

/-- An implementation whose operations do what the object's do. -/
structure RefinedBy (O : SeqObject obj op res) (apply : σ → op → Option (σ × res))
    (R : σ → obj → Prop) : Prop where
  step : ∀ s v o, R s v → ∃ s' r w, apply s o = some (s', r) ∧ O.effect v o r w ∧ R s' w

variable {O : SeqObject obj op res} {apply : σ → op → Option (σ × res)} {R : σ → obj → Prop}

/-- A whole sequence of operations, from related states. -/
theorem RefinedBy.runOps (h : O.RefinedBy apply R) (ops : List op) {s : σ} {v : obj}
    (hrel : R s v) :
    ∃ s' answers w, runOps apply s ops = some (s', answers) ∧ O.Explained v ops answers w ∧
      R s' w := by
  induction ops generalizing s v with
  | nil => exact ⟨s, [], v, rfl, .nil v, hrel⟩
  | cons o ops ih =>
    obtain ⟨mid, r, u, happly, heffect, hmid⟩ := h.step s v o hrel
    obtain ⟨s', answers, w, hrun, hexplained, hend⟩ := ih hmid
    refine ⟨s', r :: answers, w, ?_, .cons heffect hexplained, hend⟩
    rw [Foundation.runOps, happly]
    simp only [hrun, Option.map_some]

end SeqObject

end HosBoot.Foundation
