/-
  Foundation/Fallible.lean --- code that returns a result or fails.

  `Yields x P` says that every result of `x` satisfies `P`, and says nothing when `x` fails:
  partial correctness.  Its rules follow the shape of the code.
-/
import Mathlib.Logic.Basic

set_option autoImplicit false

namespace HosBoot.Foundation

variable {ε α β : Type} {x y : Except ε α} {f : α → Except ε β}

/-- From a bind that returns, the value in between. -/
theorem bind_eq_ok {b : β} : (x >>= f) = .ok b ↔ ∃ a, x = .ok a ∧ f a = .ok b := by
  cases x with
  | error e =>
    constructor
    · intro h
      cases h
    · rintro ⟨_, h, _⟩
      cases h
  | ok a =>
    constructor
    · exact fun h => ⟨a, rfl, h⟩
    · rintro ⟨a', ha, h⟩
      obtain rfl := Except.ok.inj ha
      exact h

/-- Every result satisfies `P`. -/
def Yields (x : Except ε α) (P : α → Prop) : Prop := ∀ a, x = .ok a → P a

namespace Yields

variable {P Q : α → Prop} {R : β → Prop}

theorem ok {a : α} (h : P a) : Yields (.ok a : Except ε α) P := by
  intro a' ha
  obtain rfl := Except.ok.inj ha
  exact h

theorem error (e : ε) : Yields (.error e) P := fun _ ha => by cases ha

theorem mono (h : Yields x P) (himp : ∀ a, P a → Q a) : Yields x Q :=
  fun a ha => himp a (h a ha)

/-- What the first part yields is what the second one starts from. -/
theorem bind (hx : Yields x P) (hf : ∀ a, P a → Yields (f a) R) : Yields (x >>= f) R := by
  intro b hb
  obtain ⟨a, ha, hb⟩ := bind_eq_ok.mp hb
  exact hf a (hx a ha) b hb

theorem ite {c : Prop} [Decidable c] (hx : c → Yields x P) (hy : ¬ c → Yields y P) :
    Yields (if c then x else y) P := by
  by_cases hc : c
  · rw [if_pos hc]
    exact hx hc
  · rw [if_neg hc]
    exact hy hc

end Yields

end HosBoot.Foundation
