import Mathlib.Data.List.Sort

/-!
# Sorting and leaving out

An insertion sort keeps the order of elements that compare as equal. So an element that is left out makes no
difference to the order of the others, whether it is left out before the sort or after it.
-/

namespace NovumAgent

open List

variable {α : Type*} {r : α → α → Prop} [DecidableRel r] [IsTrans α r]

theorem filter_orderedInsert (p : α → Bool) (a : α) {l : List α} (h : l.Pairwise r) :
    (l.orderedInsert r a).filter p =
      if p a then (l.filter p).orderedInsert r a else l.filter p := by
  induction l with
  | nil => simp [filter_cons]
  | cons b l ih =>
    obtain ⟨hb, hl⟩ := pairwise_cons.mp h
    by_cases hab : r a b
    · have hfirst : ∀ c ∈ (b :: l).filter p, r a c := by
        intro c hc
        rcases mem_cons.mp (mem_of_mem_filter hc) with rfl | hc
        · exact hab
        · exact trans_of r hab (hb c hc)
      rw [orderedInsert_cons_of_le r l hab, filter_cons]
      cases hc : (b :: l).filter p with
      | nil => rfl
      | cons c cs => rw [orderedInsert_cons_of_le r cs (hfirst c (hc ▸ mem_cons_self))]
    · rw [orderedInsert_of_not_le r l hab, filter_cons, filter_cons, ih hl]
      split_ifs <;> simp [hab]

variable [Std.Total r]

/-- Sorting is stable: what is left out makes no difference for the rest. -/
theorem insertionSort_filter (p : α → Bool) (l : List α) :
    (l.filter p).insertionSort r = (l.insertionSort r).filter p := by
  induction l with
  | nil => rfl
  | cons a l ih =>
    rw [insertionSort_cons, filter_orderedInsert p a (pairwise_insertionSort r l), filter_cons, ← ih]
    split_ifs <;> rfl

end NovumAgent
