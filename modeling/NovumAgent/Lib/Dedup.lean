import Mathlib.Data.List.Induction
import Mathlib.Data.List.Nodup

/-!
# Lists without repetition

A loop that pushes each entry of a list unless it is there already leaves the first occurrences of the
entries, in order: `List.eraseDups`.
-/

namespace NovumAgent.Dedup

open List

variable {α : Type*} [DecidableEq α] {a : α} {l : List α}

/-- An entry at the end of a list, unless the list has it. -/
def pushNew (l : List α) (a : α) : List α := if a ∈ l then l else l ++ [a]

theorem eraseDups_concat (l : List α) (a : α) : (l ++ [a]).eraseDups = pushNew l.eraseDups a := by
  simp only [eraseDups_append, pushNew, mem_eraseDups]
  by_cases h : a ∈ l
  · simp [removeAll, h, eraseDups_nil]
  · simp [removeAll, h, eraseDups_cons]

/-- **Pushing what is new leaves the first occurrences.** -/
theorem foldl_pushNew (entries l : List α) :
    entries.foldl pushNew l.eraseDups = (l ++ entries).eraseDups := by
  induction entries generalizing l with
  | nil => rw [foldl_nil, append_nil]
  | cons a entries ih =>
    rw [foldl_cons, ← eraseDups_concat, ih, append_assoc]
    rfl

theorem nodup_pushNew (h : l.Nodup) (a : α) : (pushNew l a).Nodup := by
  unfold pushNew
  split
  next => exact h
  next ha =>
    refine nodup_append.mpr ⟨h, nodup_singleton a, ?_⟩
    intro b hb c hc
    rw [mem_singleton.mp hc]
    exact ne_of_mem_of_not_mem hb ha

theorem nodup_eraseDups (l : List α) : l.eraseDups.Nodup := by
  induction l using reverseRecOn with
  | nil => exact nodup_nil
  | append_singleton l a ih =>
    rw [eraseDups_concat]
    exact nodup_pushNew ih a

theorem eraseDups_of_nodup (h : l.Nodup) : l.eraseDups = l := by
  induction l using reverseRecOn with
  | nil => rfl
  | append_singleton l a ih =>
    obtain ⟨hl, -, hne⟩ := nodup_append.mp h
    have ha : a ∉ l := fun hmem => hne a hmem a (mem_singleton_self a) rfl
    rw [eraseDups_concat, ih hl, pushNew, if_neg ha]

/-- The first occurrences among the images, from the first occurrences. -/
theorem eraseDups_map {β : Type*} [DecidableEq β] (f : α → β) (l : List α) :
    (l.map f).eraseDups = (l.eraseDups.map f).eraseDups := by
  induction l using reverseRecOn with
  | nil => rfl
  | append_singleton l a ih =>
    rw [map_append, map_singleton, eraseDups_concat, eraseDups_concat, ih]
    by_cases ha : a ∈ l.eraseDups
    · have hfa : f a ∈ (l.eraseDups.map f).eraseDups := mem_eraseDups.mpr (mem_map_of_mem ha)
      rw [pushNew, if_pos hfa, pushNew, if_pos ha]
    · rw [show pushNew l.eraseDups a = l.eraseDups ++ [a] from if_neg ha, map_append,
        map_singleton, eraseDups_concat]

/-! ## Numbers that climb

A list of numbers whose first occurrences count up from one, and those of each of its beginnings.
-/

/-- The first occurrences of the list, and of each of its beginnings, count up from one. -/
def Climbs (l : List Nat) (n : Nat) : Prop :=
  l.eraseDups = range' 1 n ∧ ∀ p, p <+: l → ∃ m, p.eraseDups = range' 1 m

theorem climbs_nil : Climbs [] 0 := by
  refine ⟨rfl, fun p hp => ⟨0, ?_⟩⟩
  rw [prefix_nil.mp hp]
  rfl

theorem Climbs.concat_same {l : List Nat} {n a : Nat} (h : Climbs l n) (ha : a ∈ l) : Climbs (l ++ [a]) n := by
  have hself : (l ++ [a]).eraseDups = range' 1 n := by
    rw [eraseDups_concat, pushNew, if_pos (mem_eraseDups.mpr ha), h.1]
  refine ⟨hself, fun p hp => ?_⟩
  rcases prefix_concat_iff.mp hp with rfl | hp
  · exact ⟨n, hself⟩
  · exact h.2 p hp

theorem Climbs.concat_next {l : List Nat} {n : Nat} (h : Climbs l n) : Climbs (l ++ [n + 1]) (n + 1) := by
  have hnew : n + 1 ∉ l.eraseDups := by
    rw [h.1, mem_range'_1]
    omega
  have hself : (l ++ [n + 1]).eraseDups = range' 1 (n + 1) := by
    rw [eraseDups_concat, pushNew, if_neg hnew, h.1, range'_1_concat, Nat.add_comm 1 n]
  refine ⟨hself, fun p hp => ?_⟩
  rcases prefix_concat_iff.mp hp with rfl | hp
  · exact ⟨n + 1, hself⟩
  · exact h.2 p hp

/-- The next number, any number of times but zero. -/
theorem Climbs.append_replicate {l : List Nat} {n : Nat} (h : Climbs l n) (j : Nat) :
    Climbs (l ++ replicate (j + 1) (n + 1)) (n + 1) := by
  induction j with
  | zero => exact h.concat_next
  | succ j ih =>
    rw [replicate_succ' , ← append_assoc]
    exact ih.concat_same (by simp)

end NovumAgent.Dedup
