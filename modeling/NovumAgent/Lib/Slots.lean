import Mathlib.Data.List.Basic

/-!
# Overwriting a slot of a list

A list of tasks changes one task at a time: the slot it is in is overwritten. These are the facts
about `List.set` that the invariants of such a list need, stated from what the slot held before.
-/

namespace NovumAgent.Slots

open List

variable {α : Type*} {l : List α} {i : Nat} {a b : α}

/-- The number of slots that meet a condition moves with the one slot that changed. -/
theorem countP_set (p : α → Bool) (h : l[i]? = some a) (b : α) :
    (l.set i b).countP p + (if p a then 1 else 0) = l.countP p + (if p b then 1 else 0) := by
  induction l generalizing i with
  | nil => simp at h
  | cons x xs ih =>
    cases i with
    | zero =>
      simp only [getElem?_cons_zero, Option.some.injEq] at h
      subst h
      simp only [set_cons_zero, countP_cons]
      omega
    | succ i =>
      rw [getElem?_cons_succ] at h
      have hrest := ih h
      simp only [set_cons_succ, countP_cons]
      omega

/-- What a slot holds after the change: the new value or, elsewhere, what it held. -/
theorem getElem?_set_cases {j : Nat} {c : α} (h : (l.set i b)[j]? = some c) :
    (j = i ∧ c = b) ∨ (j ≠ i ∧ l[j]? = some c) := by
  by_cases hj : j = i
  · subst hj
    left
    refine ⟨rfl, ?_⟩
    rw [getElem?_set_self'] at h
    cases hl : l[j]? with
    | none => simp [hl] at h
    | some x => simpa [hl, eq_comm] using h
  · right
    exact ⟨hj, by rwa [getElem?_set_ne (Ne.symm hj)] at h⟩

/-- What every slot meets, and the new value, is met by every slot after the change. -/
theorem forall_set {p : Nat → α → Prop} (h : ∀ j c, l[j]? = some c → p j c) (hb : p i b) :
    ∀ j c, (l.set i b)[j]? = some c → p j c := by
  intro j c hj
  rcases getElem?_set_cases hj with ⟨rfl, rfl⟩ | ⟨-, hj⟩
  · exact hb
  · exact h j c hj

theorem forall_mem_set {p : α → Prop} (h : ∀ c ∈ l, p c) (hb : p b) : ∀ c ∈ l.set i b, p c := by
  intro c hc
  rcases mem_or_eq_of_mem_set hc with hc | rfl
  · exact h c hc
  · exact hb

theorem getElem?_set_same (h : l[i]? = some a) (b : α) : (l.set i b)[i]? = some b := by
  rw [getElem?_set_self', h]
  rfl

/-- A slot that holds something else keeps it. -/
theorem getElem?_set_of_ne {j : Nat} {c : α} (hi : l[i]? = some a) (hj : l[j]? = some c)
    (hne : c ≠ a) (b : α) : (l.set i b)[j]? = some c := by
  have hij : i ≠ j := by
    rintro rfl
    rw [hi] at hj
    exact hne (Option.some.inj hj).symm
  rwa [getElem?_set_ne hij]

/-! ## A slot more -/

theorem getElem?_append_of_some {j : Nat} {c : α} (h : l[j]? = some c) (b : α) :
    (l ++ [b])[j]? = some c := by
  rw [List.getElem?_append_left (List.getElem?_eq_some_iff.mp h).1]
  exact h

/-- What a slot holds once a value was put behind the list. -/
theorem getElem?_push_cases {j : Nat} {c : α} (h : (l ++ [b])[j]? = some c) :
    c = b ∨ l[j]? = some c := by
  rcases Nat.lt_or_ge j l.length with hlt | hge
  · rw [getElem?_append_left hlt] at h
    exact .inr h
  · rw [getElem?_append_right hge] at h
    obtain ⟨hlast, heq⟩ := List.getElem?_eq_some_iff.mp h
    simp only [getElem_singleton] at heq
    exact .inl heq.symm

end NovumAgent.Slots
