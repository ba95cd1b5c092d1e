import Mathlib.Data.Fintype.Basic

/-!
# Finite maps without an order

A map of the source is used by key, and two maps are equal when they give the same value to the same
keys, whatever order they iterate in. Here such a map is a finite set of keys with a value for each, so
that this equality is the equality of Lean. A loop over the entries of a map, which does something to
each key by itself, is written as the function from keys to results (`ofGet`).
-/

namespace NovumAgent

/-- A finite map: its keys, and the value of each. -/
structure FinMap (κ β : Type*) where
  keys : Finset κ
  value : {k // k ∈ keys} → β

namespace FinMap

variable {κ β : Type*} [DecidableEq κ] {m m' : FinMap κ β} {k : κ}

/-- The value at a key. -/
def get? (m : FinMap κ β) (k : κ) : Option β :=
  if h : k ∈ m.keys then some (m.value ⟨k, h⟩) else none

/-- The map that gives the keys of a set the values of a function, where it has one. -/
def ofGet (keys : Finset κ) (f : κ → Option β) : FinMap κ β :=
  ⟨keys.filter fun k => (f k).isSome = true, fun k => (f k.1).get (Finset.mem_filter.mp k.2).2⟩

/-- The map without entries. -/
def empty : FinMap κ β := ⟨∅, fun k => absurd k.2 (Finset.notMem_empty k.1)⟩

theorem get?_of_mem (h : k ∈ m.keys) : m.get? k = some (m.value ⟨k, h⟩) := dif_pos h

theorem get?_of_notMem (h : k ∉ m.keys) : m.get? k = none := dif_neg h

theorem get?_isSome : (m.get? k).isSome = true ↔ k ∈ m.keys := by
  unfold get?
  split
  next h => simp [h]
  next h => simp [h]

@[simp] theorem get?_empty (k : κ) : (empty : FinMap κ β).get? k = none :=
  dif_neg (Finset.notMem_empty k)

/-- **Maps with the same values are equal.** -/
theorem ext_get? (h : ∀ k, m.get? k = m'.get? k) : m = m' := by
  obtain ⟨keys, value⟩ := m
  obtain ⟨keys', value'⟩ := m'
  have hkeys : keys = keys' := by
    ext k
    have hsome := congrArg Option.isSome (h k)
    rw [Bool.eq_iff_iff, get?_isSome, get?_isSome] at hsome
    exact hsome
  subst hkeys
  have hvalue : value = value' := by
    funext k
    have hk := h k.1
    rw [get?_of_mem k.2, get?_of_mem k.2] at hk
    exact Option.some.inj hk
  rw [hvalue]

theorem get?_ofGet {keys : Finset κ} {f : κ → Option β} (hf : ∀ k, (f k).isSome = true → k ∈ keys)
    (k : κ) : (ofGet keys f).get? k = f k := by
  unfold get? ofGet
  cases hk : f k with
  | none => simp [hk]
  | some b =>
    have hmem : k ∈ keys := hf k (by rw [hk]; rfl)
    simp [hk, hmem]

theorem ofGet_keys_eq_empty {keys : Finset κ} {f : κ → Option β}
    (hf : ∀ k, (f k).isSome = true → k ∈ keys) :
    (ofGet keys f).keys = ∅ ↔ ∀ k, f k = none := by
  rw [Finset.eq_empty_iff_forall_notMem]
  refine forall_congr' fun k => ?_
  rw [← get?_isSome, get?_ofGet hf, Option.not_isSome_iff_eq_none]

end FinMap

end NovumAgent
