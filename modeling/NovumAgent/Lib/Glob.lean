import Mathlib.Data.List.Infix
import NovumAgent.Lib.Text

/-!
# Wildcard patterns

Patterns of literal characters, question marks and stars, as shells have them: a question mark stands
for one character, a star for any number of them. A literal stands for the characters it is taken to
be the same as, which is a parameter, so that letters may be told apart by case or not.

`Matches` says what a pattern means, `glob` decides it. The meaning composes: a pattern that is put
together from two matches what is put together from a match of each.
-/

namespace NovumAgent.Glob

open List

variable {same : Char → Char → Bool} {p q t : Text}

/-- A text matches a pattern. -/
inductive Matches (same : Char → Char → Bool) : Text → Text → Prop where
  | nil : Matches same [] []
  | one (c : Char) {p t : Text} : Matches same p t → Matches same ('?' :: p) (c :: t)
  | many (u : Text) {p t : Text} : Matches same p t → Matches same ('*' :: p) (u ++ t)
  | char {a c : Char} {p t : Text} : a ≠ '?' → a ≠ '*' → same a c = true → Matches same p t →
    Matches same (a :: p) (c :: t)

/-- Whether a text matches a pattern. A star tries every suffix of the text. -/
def glob (same : Char → Char → Bool) : Text → Text → Bool
  | [], t => t.isEmpty
  | a :: p, t =>
    if a = '*' then t.tails.any (glob same p)
    else
      match t with
      | [] => false
      | c :: t => (a == '?' || same a c) && glob same p t

/-- **`glob` decides `Matches`.** -/
theorem glob_iff : glob same p t = true ↔ Matches same p t := by
  induction p generalizing t with
  | nil =>
    rw [glob, List.isEmpty_iff]
    constructor
    · rintro rfl
      exact .nil
    · intro h
      cases h
      rfl
  | cons a p ih =>
    unfold glob
    by_cases hstar : a = '*'
    · subst hstar
      rw [if_pos rfl, any_eq_true]
      constructor
      · rintro ⟨v, hv, hmatch⟩
        obtain ⟨u, rfl⟩ := (mem_tails _ _).mp hv
        exact .many u (ih.mp hmatch)
      · intro h
        cases h with
        | many u hmatch => exact ⟨_, (mem_tails _ _).mpr (suffix_append u _), ih.mpr hmatch⟩
        | char _ hne => exact absurd rfl hne
    · rw [if_neg hstar]
      cases t with
      | nil =>
        refine ⟨nofun, fun h => ?_⟩
        generalize ht : ([] : Text) = t at h
        cases h with
        | many => exact absurd rfl hstar
        | one | char => cases ht
      | cons c t =>
        simp only [Bool.and_eq_true, Bool.or_eq_true, beq_iff_eq, ih]
        constructor
        · rintro ⟨hchar, hmatch⟩
          by_cases hone : a = '?'
          · subst hone
            exact .one c hmatch
          · exact .char hone hstar (hchar.resolve_left hone) hmatch
        · intro h
          generalize ht : c :: t = t' at h
          cases h with
          | one d hmatch => cases ht; exact ⟨.inl rfl, hmatch⟩
          | many => exact absurd rfl hstar
          | char _ _ hsame hmatch => cases ht; exact ⟨.inr hsame, hmatch⟩

/-- **Patterns compose.** -/
theorem matches_append :
    Matches same (p ++ q) t ↔ ∃ u v, t = u ++ v ∧ Matches same p u ∧ Matches same q v := by
  constructor
  · intro h
    induction p generalizing t with
    | nil => exact ⟨[], t, rfl, .nil, h⟩
    | cons a p ih =>
      rw [cons_append] at h
      cases h with
      | one c h =>
        obtain ⟨u, v, rfl, hp, hq⟩ := ih h
        exact ⟨c :: u, v, rfl, .one c hp, hq⟩
      | many w h =>
        obtain ⟨u, v, rfl, hp, hq⟩ := ih h
        exact ⟨w ++ u, v, (append_assoc ..).symm, .many w hp, hq⟩
      | char hone hstar hsame h =>
        obtain ⟨u, v, rfl, hp, hq⟩ := ih h
        exact ⟨_ :: u, v, rfl, .char hone hstar hsame hp, hq⟩
  · rintro ⟨u, v, rfl, hp, hq⟩
    induction hp with
    | nil => exact hq
    | one c _ ih => exact .one c ih
    | many w _ ih =>
      rw [append_assoc]
      exact .many w ih
    | char hone hstar hsame _ ih => exact .char hone hstar hsame ih

/-- What starts with something matches a question mark and a star. -/
theorem matches_some (h : t ≠ []) : Matches same ['?', '*'] t := by
  obtain ⟨c, t, rfl⟩ := exists_cons_of_ne_nil h
  have hstar : Matches same ['*'] (t ++ []) := .many t .nil
  rw [append_nil] at hstar
  exact .one c hstar

/-- Only stars match nothing. -/
theorem eq_star_of_matches_nil (h : Matches same p []) : ∀ a ∈ p, a = '*' := by
  induction p with
  | nil => nofun
  | cons a p ih =>
    generalize ht : ([] : Text) = t at h
    cases h with
    | one | char => cases ht
    | many u h =>
      obtain ⟨rfl, rfl⟩ := append_eq_nil_iff.mp ht.symm
      intro b hb
      rcases mem_cons.mp hb with rfl | hb
      · rfl
      · exact ih h b hb

end NovumAgent.Glob
