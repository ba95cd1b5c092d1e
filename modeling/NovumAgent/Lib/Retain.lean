import Mathlib.Data.List.Basic

/-!
# Filters that rewrite what they keep

A filter that may drop an element and may rewrite it, as `retain_mut` runs over a list. It is judged
by a *view*: what of an element an observer may learn, or nothing, if the element is to be dropped.
A filter respects the view when what it leaves is built from the view alone, and shows the same view
again. Then lists that agree on their views leave equal lists, no view is lost, and filtering twice
is filtering once.
-/

namespace NovumAgent

variable {α β : Type*} {f : α → Option α} {view : α → Option β} {build : β → α} {l m : List α}

/-- `f` keeps an element if and only if it has a view, and what it keeps is built from the view. -/
structure Retains (f : α → Option α) (view : α → Option β) (build : β → α) : Prop where
  builds : ∀ a, f a = (view a).map build
  views : ∀ {a b}, view a = some b → view (build b) = some b

namespace Retains

theorem filterMap_eq (h : Retains f view build) (l : List α) :
    l.filterMap f = (l.filterMap view).map build := by
  rw [List.map_filterMap]
  exact congrArg (List.filterMap · l) (funext h.builds)

/-- **Lists with the same views leave equal lists.** -/
theorem filterMap_congr (h : Retains f view build) (hview : l.filterMap view = m.filterMap view) :
    l.filterMap f = m.filterMap f := by
  rw [h.filterMap_eq, h.filterMap_eq, hview]

/-- What is left shows the same views. -/
theorem filterMap_view (h : Retains f view build) (l : List α) :
    (l.filterMap f).filterMap view = l.filterMap view := by
  rw [List.filterMap_filterMap]
  apply List.filterMap_congr
  intro a _
  rw [h.builds]
  cases hview : view a with
  | none => rfl
  | some b => exact h.views hview

/-- **Filtering twice is filtering once.** -/
theorem filterMap_idem (h : Retains f view build) (l : List α) :
    (l.filterMap f).filterMap f = l.filterMap f :=
  h.filterMap_congr (h.filterMap_view l)

end Retains

end NovumAgent
