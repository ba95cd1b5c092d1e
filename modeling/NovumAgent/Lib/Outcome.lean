import Mathlib.Tactic.Common

/-!
# Computations that can fail

What follows from the success of a computation that is put together from others: each of its parts
succeeded.
-/

namespace NovumAgent.Outcome

universe u v w

variable {ε : Type u} {ε' : Type v} {α β : Type w} {x : Except ε α} {a : α}

/-- A sequence succeeds when its parts do, one after the other. -/
@[simp]
theorem bind_eq_ok {f : α → Except ε β} {b : β} :
    (x >>= f) = .ok b ↔ ∃ a, x = .ok a ∧ f a = .ok b := by
  cases x with
  | error e => exact ⟨nofun, fun ⟨_, h, _⟩ => nomatch h⟩
  | ok a => exact ⟨fun h => ⟨a, rfl, h⟩, fun ⟨_, ha, h⟩ => by cases ha; exact h⟩

/-- A result that is turned into another was a result. -/
theorem map_eq_ok {f : α → β} {b : β} : x.map f = .ok b ↔ ∃ a, x = .ok a ∧ f a = b := by
  cases x with
  | error e => exact ⟨nofun, nofun⟩
  | ok a => simp [Except.map]

@[simp]
theorem pure_eq_ok {b : α} : (pure a : Except ε α) = .ok b ↔ a = b :=
  ⟨Except.ok.inj, congrArg _⟩

/-- Another wording of an error is no success. -/
@[simp]
theorem mapError_eq_ok {f : ε → ε'} : x.mapError f = .ok a ↔ x = .ok a := by
  cases x with
  | error e => exact ⟨nofun, nofun⟩
  | ok b => simp [Except.mapError]

/-- A guard that did not throw. -/
@[simp]
theorem ite_throw_eq_ok {p : Prop} [Decidable p] {e : ε} :
    (if p then throw e else x) = .ok a ↔ ¬ p ∧ x = .ok a := by
  by_cases hp : p
  · simp [hp]
  · simp [hp]

/-- A loop that collects results succeeds when each of its turns does. -/
theorem forall₂_of_mapM_eq_ok {γ : Type*} {f : γ → Except ε α} {l : List γ} {r : List α}
    (h : l.mapM f = .ok r) : List.Forall₂ (fun c a => f c = .ok a) l r := by
  induction l generalizing r with
  | nil =>
    cases h
    exact .nil
  | cons c l ih =>
    simp only [List.mapM_cons, bind_eq_ok, pure_eq_ok] at h
    obtain ⟨a, ha, rest, hrest, rfl⟩ := h
    exact .cons ha (ih hrest)

end NovumAgent.Outcome
