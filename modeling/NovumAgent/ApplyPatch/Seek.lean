import NovumAgent.ApplyPatch.FileUpdate

/-!
# Seeking lines

The four loops of `seek_sequence` go through the same indices, each with a laxer comparison than the one
before. **The law** (`seekSequence_finds_iff`): what is found is the least index at the strictest level
that has a match at all. At the end of the file there is one index to try, and no search from the start
behind it. An empty pattern is found at the start, even where the start is behind the last line.
-/

namespace NovumAgent.ApplyPatch

open Text List

/-- The comparisons of `seek_sequence`, the strictest first. -/
def seekLevels : List (Text → Text) := [id, trimEnd, trim, normalise]

section Seek

variable (lines pattern : List Text) (start : Nat) (eof : Bool)

/-- **A match at a level**: an index from the start on, or only that of the end of the file, from which the
lines read like the pattern. -/
def MatchesAt (level : Text → Text) (i : Nat) : Prop :=
  (start ≤ i ∧ i + pattern.length ≤ lines.length ∧ (eof = true → i + pattern.length = lines.length)) ∧
    ((lines.drop i).take pattern.length).map level = pattern.map level

/-- **The least match at the strictest level** that has one. -/
def IsFirstMatch (i : Nat) : Prop :=
  ∃ stricter level laxer, seekLevels = stricter ++ level :: laxer ∧
    (MatchesAt lines pattern start eof level i ∧ ∀ j < i, ¬MatchesAt lines pattern start eof level j) ∧
    ∀ level' ∈ stricter, ∀ j, ¬MatchesAt lines pattern start eof level' j

/-- The indices of one loop, of which there are none for a pattern that is too long. -/
def seekIndices : List Nat :=
  if lines.length < pattern.length then []
  else
    let searchStart := if eof then max (lines.length - pattern.length) start else start
    range' searchStart (lines.length - pattern.length + 1 - searchStart)

variable {lines pattern start eof} {i : Nat}

theorem mem_seekIndices : i ∈ seekIndices lines pattern start eof ↔
    start ≤ i ∧ i + pattern.length ≤ lines.length ∧ (eof = true → i + pattern.length = lines.length) := by
  unfold seekIndices
  split
  · simp only [not_mem_nil, false_iff]
    omega
  · rw [mem_range'_1]
    cases eof with
    | true => simp only [if_true, true_imp_iff]; omega
    | false => simp only [Bool.false_eq_true, if_false, false_imp_iff, and_true]; omega

theorem seekLevel_eq_none_iff (level : Text → Text) :
    seekLevel level lines pattern (seekIndices lines pattern start eof) = none ↔
      ∀ j, ¬MatchesAt lines pattern start eof level j := by
  simp only [seekLevel, find?_eq_none, mem_seekIndices, beq_iff_eq, MatchesAt, not_and]

theorem seekLevel_eq_some_iff (level : Text → Text) :
    seekLevel level lines pattern (seekIndices lines pattern start eof) = some i ↔
      MatchesAt lines pattern start eof level i ∧ ∀ j < i, ¬MatchesAt lines pattern start eof level j := by
  simp only [MatchesAt, ← mem_seekIndices, seekLevel]
  unfold seekIndices
  split
  · simp
  · rw [find?_range'_eq_some]
    simp only [beq_iff_eq, Bool.not_eq_true', beq_eq_false_iff_ne, mem_range'_1]
    constructor
    · rintro ⟨hmatch, hmem, hleast⟩
      exact ⟨⟨hmem, hmatch⟩, fun j hj hfound => hleast j hfound.1.1 hj hfound.2⟩
    · rintro ⟨⟨hmem, hmatch⟩, hleast⟩
      exact ⟨hmatch, hmem, fun j hle hj hfound => hleast j hj ⟨⟨hle, lt_trans hj hmem.2⟩, hfound⟩⟩

theorem seekSequence_eq (hne : pattern ≠ []) : seekSequence lines pattern start eof =
      seekLevels.findSome? (seekLevel · lines pattern (seekIndices lines pattern start eof)) := by
  unfold seekSequence seekIndices
  rw [if_neg hne]
  split
  · rfl
  · simp only [seekLevels, findSome?_cons, findSome?_nil]
    rcases seekLevel id lines pattern _ with _ | _
    · rcases seekLevel trimEnd lines pattern _ with _ | _
      · rcases seekLevel trim lines pattern _ with _ | _
        · rcases seekLevel normalise lines pattern _ with _ | _ <;> rfl
        · rfl
      · rfl
    · rfl

theorem seekSequence_eq_some_iff (hne : pattern ≠ []) :
    seekSequence lines pattern start eof = some i ↔ IsFirstMatch lines pattern start eof i := by
  simp only [seekSequence_eq hne, findSome?_eq_some_iff, seekLevel_eq_some_iff,
    seekLevel_eq_none_iff, IsFirstMatch]

theorem seekSequence_within (h : seekSequence lines pattern start eof = some i)
    (hstart : start ≤ lines.length) : start ≤ i ∧ i + pattern.length ≤ lines.length := by
  by_cases hne : pattern = []
  · rw [seekSequence, if_pos hne] at h
    cases h
    rw [hne]
    exact ⟨le_refl _, hstart⟩
  · obtain ⟨-, -, -, -, ⟨⟨⟨hle, hfits, -⟩, -⟩, -⟩, -⟩ := (seekSequence_eq_some_iff hne).mp h
    exact ⟨hle, hfits⟩

variable (lines pattern start eof i)

/-- **The strictest and earliest match is found**, if there is one at any level; and an empty pattern is
found at the start. -/
theorem seekSequence_finds_iff : (seekSequence lines pattern start eof = some i ↔
      if pattern = [] then i = start else IsFirstMatch lines pattern start eof i) ∧
    (seekSequence lines pattern start eof = none ↔
      pattern ≠ [] ∧ ∀ level ∈ seekLevels, ∀ j, ¬MatchesAt lines pattern start eof level j) := by
  by_cases hne : pattern = []
  · rw [seekSequence, if_pos hne, if_pos hne, Option.some.injEq]
    exact ⟨eq_comm, iff_of_false nofun fun h => h.1 hne⟩
  · rw [if_neg hne]
    refine ⟨seekSequence_eq_some_iff hne, ?_⟩
    simp only [seekSequence_eq hne, findSome?_eq_none_iff, seekLevel_eq_none_iff, ne_eq, hne,
      not_false_eq_true, true_and]

/-- An empty pattern is found behind the last line; and at the start where the end of the file is asked
for, as when a chunk that had one empty line is looked for without it. -/
theorem seekSequence_behind :
    (seekSequence [] [] 1 false = some 1 ∧ ¬1 + ([] : List Text).length ≤ ([] : List Text).length) ∧
      seekSequence [['a']] [] 0 true = some 0 ∧ 0 + ([] : List Text).length ≠ [['a']].length := by
  decide

end Seek

end NovumAgent.ApplyPatch
