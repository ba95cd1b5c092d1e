import Mathlib.Data.List.Basic

/-!
# Edits by position

A pass over a list that notes positions first and edits afterwards: it notes what to put behind some of
the elements, or which elements to take out. The edits are made in an order in which no noted position
moves before it is used: insertions from the back, removals in one walk from the front. Both come to what
one would have written directly, a `flatMap` and a `filter`.
-/

namespace NovumAgent.Positions

open List

variable {α β : Type*}

/-- What a pass notes, with the positions, counted from `start`. -/
def collect (f : α → Option β) (l : List α) (start : Nat) : List (Nat × β) :=
  (l.zipIdx start).filterMap fun entry => (f entry.1).map (entry.2, ·)

/-- Put each noted element behind its position, the last one first. -/
def insertBehind (l : List α) (edits : List (Nat × α)) : List α :=
  edits.foldr (fun edit l => l.insertIdx (edit.1 + 1) edit.2) l

/-- Take out the elements at the noted positions, in one walk. -/
def retainBut : List Nat → Nat → List α → List α
  | _, _, [] => []
  | positions, position, a :: l =>
    if positions.head? = some position then retainBut positions.tail (position + 1) l
    else a :: retainBut positions (position + 1) l

theorem collect_cons (f : α → Option β) (a : α) (l : List α) (start : Nat) :
    collect f (a :: l) start = ((f a).map (start, ·)).toList ++ collect f l (start + 1) := by
  unfold collect
  rw [zipIdx_cons, filterMap_cons]
  cases f a with
  | none => rfl
  | some b => rfl

theorem le_of_mem_collect {f : α → Option β} {l : List α} {start : Nat} {entry : Nat × β}
    (h : entry ∈ collect f l start) : start ≤ entry.1 := by
  obtain ⟨⟨a, i⟩, hmem, hentry⟩ := mem_filterMap.mp h
  obtain ⟨b, -, rfl⟩ := Option.map_eq_some_iff.mp hentry
  exact le_snd_of_mem_zipIdx hmem

theorem insertIdx_append (l r : List α) (x : α) : (l ++ r).insertIdx l.length x = l ++ x :: r := by
  induction l with
  | nil => rfl
  | cons a l ih => exact congrArg (a :: ·) ih

/-- **Insertions from the back** put each element right behind the one it was noted for. -/
theorem insertBehind_collect (f : α → Option α) (l : List α) :
    insertBehind l (collect f l 0) = l.flatMap fun a => a :: (f a).toList := by
  have hgeneral : ∀ (done l : List α), insertBehind (done ++ l) (collect f l done.length) =
        done ++ l.flatMap fun a => a :: (f a).toList := by
    intro done l
    induction l generalizing done with
    | nil => rfl
    | cons a l ih =>
      have hrest := ih (done ++ [a])
      rw [length_append, length_singleton, append_assoc, singleton_append] at hrest
      rw [collect_cons, flatMap_cons]
      cases hf : f a with
      | none =>
        rw [Option.map_none, Option.toList_none, nil_append, hrest]
        simp
      | some b =>
        rw [Option.map_some, Option.toList_some, singleton_append, insertBehind, foldr_cons]
        show insertIdx (insertBehind (done ++ a :: l) (collect f l (done.length + 1)))
          (done.length + 1) b = _
        rw [hrest, ← length_singleton (a := a), ← length_append, insertIdx_append]
        simp
  exact hgeneral [] l

/-- **Removals in one walk** are a filter. -/
theorem retainBut_collect (p : α → Bool) (l : List α) (start : Nat) :
    retainBut ((collect (fun a => if p a then some () else none) l start).map (·.1)) start l =
      l.filter (!p ·) := by
  induction l generalizing start with
  | nil => rfl
  | cons a l ih =>
    rw [collect_cons]
    cases hp : p a with
    | true =>
      rw [filter_cons_of_neg (by simp [hp]), ← ih (start + 1)]
      simp [retainBut]
    | false =>
      rw [filter_cons_of_pos (by simp [hp]), ← ih (start + 1)]
      have hhead : ((collect (fun a => if p a then some () else none) l (start + 1)).map
          (·.1)).head? ≠ some start := by
        intro hhead
        obtain ⟨entry, hentry, heq⟩ := mem_map.mp (mem_of_mem_head? hhead)
        have hle := le_of_mem_collect hentry
        omega
      simp only [Bool.false_eq_true, if_false, Option.map_none, Option.toList_none, nil_append,
        retainBut]
      exact if_neg hhead

theorem retainBut_nil (l : List α) (start : Nat) : retainBut [] start l = l := by
  induction l generalizing start with
  | nil => rfl
  | cons a l ih => exact congrArg (a :: ·) (ih (start + 1))

/-- A filter goes through insertions that it keeps with the elements they stand behind. -/
theorem filter_flatMap_of_keeps {p : α → Bool} {f : α → List α} {l : List α}
    (h : ∀ a ∈ l, (f a).filter p = if p a then f a else []) :
    (l.flatMap f).filter p = (l.filter p).flatMap f := by
  induction l with
  | nil => rfl
  | cons a l ih =>
    rw [flatMap_cons, filter_append, h a mem_cons_self,
      ih fun b hb => h b (mem_cons_of_mem _ hb), filter_cons]
    split
    · rw [flatMap_cons]
    · rfl

end NovumAgent.Positions
