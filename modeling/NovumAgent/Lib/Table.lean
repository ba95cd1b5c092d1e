import Mathlib.Algebra.GroupWithZero.Nat
import Mathlib.Algebra.Order.BigOperators.Group.List
import Mathlib.Data.List.AList

/-!
# Tables with a weight

A hash map whose iteration order nothing observes is an association list with distinct keys. What
is added here to the library's `AList` is the accounting a quota needs: the total weight of the
entries and their number, and how an insertion and a removal move them.
-/

namespace NovumAgent

open List AList

/-- A finite map from keys to values. -/
abbrev Table (κ ν : Type*) := AList (fun _ : κ => ν)

namespace Table

variable {κ ν : Type*} {f : ν → Nat}

/-- The number of entries. -/
def size (t : Table κ ν) : Nat := t.entries.length

/-- The total weight of the entries. -/
def sumBy (f : ν → Nat) (t : Table κ ν) : Nat := (t.entries.map fun e => f e.2).sum

variable [DecidableEq κ] {t : Table κ ν} {a : κ} {b b' : ν}

/-- A table without the entry at one key, if that is another key than the given one. -/
def eraseUnless (t : Table κ ν) (other : Option κ) (a : κ) : Table κ ν :=
  match other with
  | some other => if other = a then t else t.erase other
  | none => t

theorem lookup_insert_eq (a' : κ) :
    (t.insert a b).lookup a' = if a' = a then some b else t.lookup a' := by
  split
  next h => rw [h, lookup_insert]
  next h => exact lookup_insert_ne h

theorem lookup_erase_eq (a' : κ) :
    (t.erase a).lookup a' = if a' = a then none else t.lookup a' := by
  split
  next h => rw [h, lookup_erase]
  next h => exact lookup_erase_ne h

section

variable {p : κ → ν → Prop} (h : ∀ k v, t.lookup k = some v → p k v)
include h

/-- What holds of every entry, and of a new one. -/
theorem forall_insert (hnew : p a b) : ∀ k v, (t.insert a b).lookup k = some v → p k v := by
  intro k v hlookup
  rw [lookup_insert_eq] at hlookup
  split at hlookup
  next hkey =>
    cases hlookup
    exact hkey ▸ hnew
  next => exact h k v hlookup

theorem forall_erase : ∀ k v, (t.erase a).lookup k = some v → p k v := by
  intro k v hlookup
  rw [lookup_erase_eq] at hlookup
  exact h k v (Option.ite_none_left_eq_some.mp hlookup).2

end

theorem lookup_eraseUnless (other : Option κ) (a a' : κ) :
    (eraseUnless t other a).lookup a' = if other = some a' ∧ a' ≠ a then none else t.lookup a' := by
  unfold eraseUnless
  cases other with
  | none => simp
  | some other =>
    dsimp only
    by_cases hkept : other = a
    · subst hkept
      rw [if_pos rfl, if_neg]
      rintro ⟨⟨⟩, hne⟩
      exact hne rfl
    · rw [if_neg hkept, lookup_erase_eq]
      by_cases hother : a' = other
      · subst hother
        simp [hkept]
      · rw [if_neg hother, if_neg]
        rintro ⟨⟨⟩, -⟩
        exact hother rfl

theorem notMem_of_lookup_none (h : t.lookup a = none) : a ∉ t := lookup_eq_none.mp h

theorem size_insert_of_notMem (h : a ∉ t) : size (t.insert a b) = size t + 1 := by
  simp only [size, entries_insert_of_notMem h, length_cons]

theorem sumBy_insert_of_notMem (h : a ∉ t) : sumBy f (t.insert a b) = f b + sumBy f t := by
  simp only [sumBy, entries_insert_of_notMem h, map_cons, sum_cons]

/-- An entry, in the list: the entries before it, itself, and those behind it, with what a
removal leaves. -/
theorem entries_split (h : t.lookup a = some b) :
    ∃ l₁ l₂, t.entries = l₁ ++ ⟨a, b⟩ :: l₂ ∧ (t.erase a).entries = l₁ ++ l₂ := by
  have hmem : a ∈ t := lookup_isSome.mp (h ▸ rfl)
  obtain ⟨b', l₁, l₂, _, heq, herase⟩ := exists_of_kerase hmem
  have hb : t.lookup a = some b' := mem_lookup_iff.mpr (heq ▸ mem_append_right _ mem_cons_self)
  rw [h] at hb
  cases hb
  exact ⟨l₁, l₂, heq, herase⟩

theorem size_erase (h : t.lookup a = some b) : size (t.erase a) + 1 = size t := by
  obtain ⟨l₁, l₂, heq, herase⟩ := entries_split h
  simp only [size, heq, herase, length_append, length_cons]
  omega

theorem sumBy_erase (h : t.lookup a = some b) : sumBy f (t.erase a) + f b = sumBy f t := by
  obtain ⟨l₁, l₂, heq, herase⟩ := entries_split h
  simp only [sumBy, heq, herase, map_append, map_cons, sum_append, sum_cons]
  omega

theorem erase_of_lookup_none (h : t.lookup a = none) : t.erase a = t :=
  ext (kerase_of_notMem_keys (lookup_eq_none.mp h))

/-- Overwriting an entry is removing it and inserting the new one. -/
theorem insert_eq_insert_erase (b' : ν) : t.insert a b' = (t.erase a).insert a b' := by
  apply ext
  rw [entries_insert, entries_insert_of_notMem (by simp)]
  rfl

theorem size_insert (h : t.lookup a = some b) : size (t.insert a b') = size t := by
  rw [insert_eq_insert_erase, size_insert_of_notMem (by simp), size_erase h]

theorem sumBy_insert (h : t.lookup a = some b) :
    sumBy f (t.insert a b') + f b = sumBy f t + f b' := by
  have herase := sumBy_erase (f := f) h
  rw [insert_eq_insert_erase, sumBy_insert_of_notMem (by simp)]
  omega

/-- What a removal takes away, whether or not there was an entry. -/
theorem sumBy_erase_elim (a : κ) : sumBy f (t.erase a) + (t.lookup a).elim 0 f = sumBy f t := by
  cases h : t.lookup a with
  | none => rw [erase_of_lookup_none h, Option.elim_none, add_zero]
  | some b => exact sumBy_erase h

/-- What an insertion adds and takes away, whether or not there was an entry. -/
theorem sumBy_insert_elim (a : κ) (b' : ν) :
    sumBy f (t.insert a b') + (t.lookup a).elim 0 f = sumBy f t + f b' := by
  cases h : t.lookup a with
  | none =>
    rw [sumBy_insert_of_notMem (notMem_of_lookup_none h), Option.elim_none]
    omega
  | some b => exact sumBy_insert h

theorem sumBy_eraseUnless_le (other : Option κ) (a : κ) :
    sumBy f (eraseUnless t other a) ≤ sumBy f t := by
  unfold eraseUnless
  cases other with
  | none => exact le_refl _
  | some other =>
    have herase := sumBy_erase_elim (f := f) (t := t) other
    dsimp only
    split
    · exact le_refl _
    · omega

/-- One entry weighs no more than all of them. -/
theorem le_sumBy (h : t.lookup a = some b) : f b ≤ sumBy f t := by
  have := sumBy_erase (f := f) h
  omega

end Table

end NovumAgent
