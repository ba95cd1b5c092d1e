import Mathlib.Data.List.Infix

/-!
# Looking for a word in a stream

A word is looked for in a text that comes in pieces. What was read so far does not contain it, and the question is
how much of that can be let go: all but the longest end of it that the word starts with. `splitOnce_hold` says
that nothing is lost by this: the first place of the word is the same, whatever comes next.
-/

namespace NovumAgent.Needle

open List

variable {α : Type} [DecidableEq α] {needle text more before rest : List α}

/-- `str::split_once`: what stands before the first place of a word, and behind it. -/
def splitOnce (needle : List α) : List α → Option (List α × List α)
  | [] => if needle = [] then some ([], []) else none
  | a :: text =>
    if needle.isPrefixOf (a :: text) then some ([], (a :: text).drop needle.length)
    else (splitOnce needle text).map fun (before, rest) => (a :: before, rest)

/-- The longest proper start of a word that a text ends with. -/
def longestSuffixPrefixLen (text needle : List α) : Nat :=
  ((range' 1 (min text.length (needle.length - 1))).reverse.find? fun k =>
    (needle.take k).isSuffixOf text).getD 0

/-! ## The first place -/

theorem splitOnce_of_isPrefixOf (h : needle <+: text) :
    splitOnce needle text = some ([], text.drop needle.length) := by
  cases text with
  | nil =>
    obtain rfl := prefix_nil.mp h
    rfl
  | cons a text =>
    unfold splitOnce
    rw [if_pos (List.isPrefixOf_iff_prefix.mpr h)]

theorem splitOnce_cons_of_not {a : α} (h : ¬ needle <+: a :: text) : splitOnce needle (a :: text) =
      (splitOnce needle text).map fun (before, rest) => (a :: before, rest) := by
  rw [splitOnce, if_neg fun hpre => h (List.isPrefixOf_iff_prefix.mp hpre)]

theorem append_of_splitOnce (h : splitOnce needle text = some (before, rest)) :
    text = before ++ needle ++ rest := by
  induction text generalizing before with
  | nil =>
    obtain ⟨hnil, ⟨⟩⟩ := Option.ite_none_right_eq_some.mp h
    rw [hnil]
    rfl
  | cons a text ih =>
    unfold splitOnce at h
    split at h
    next hpre =>
      cases h
      obtain ⟨after, hafter⟩ := isPrefixOf_iff_prefix.mp hpre
      rw [← hafter, drop_left, nil_append]
    next =>
      obtain ⟨⟨before', rest'⟩, htext, hsame⟩ := Option.map_eq_some_iff.mp h
      cases hsame
      rw [ih htext]
      rfl

/-- A word that is found has its place. -/
theorem length_lt_of_splitOnce (hne : needle ≠ []) (h : splitOnce needle text = some (before, rest)) :
    rest.length < text.length := by
  rw [append_of_splitOnce h, length_append, length_append]
  have := length_pos_of_ne_nil hne
  omega

theorem splitOnce_eq_none_iff : splitOnce needle text = none ↔ ¬ needle <:+: text := by
  induction text with
  | nil =>
    unfold splitOnce
    rw [infix_nil]
    split
    next hnil => exact iff_of_false nofun (not_not_intro hnil)
    next hnil => exact iff_of_true rfl hnil
  | cons a text ih =>
    rw [infix_cons_iff]
    by_cases hpre : needle <+: a :: text
    · rw [splitOnce_of_isPrefixOf hpre]
      exact iff_of_false nofun (not_not_intro (.inl hpre))
    · rw [splitOnce_cons_of_not hpre, Option.map_eq_none_iff, ih, not_or, and_iff_right hpre]

/-- What comes later does not change the first place. -/
theorem splitOnce_append (h : splitOnce needle text = some (before, rest)) (more : List α) :
    splitOnce needle (text ++ more) = some (before, rest ++ more) := by
  induction text generalizing before with
  | nil =>
    obtain ⟨hnil, ⟨⟩⟩ := Option.ite_none_right_eq_some.mp h
    rw [hnil, splitOnce_of_isPrefixOf nil_prefix]
    rfl
  | cons a text ih =>
    by_cases hpre : needle <+: a :: text
    · rw [splitOnce_of_isPrefixOf hpre] at h
      cases h
      rw [splitOnce_of_isPrefixOf (hpre.trans (prefix_append _ _)),
        drop_append_of_le_length hpre.length_le]
    · rw [splitOnce_cons_of_not hpre] at h
      obtain ⟨⟨before', rest'⟩, htext, hsame⟩ := Option.map_eq_some_iff.mp h
      cases hsame
      rw [cons_append, splitOnce_cons_of_not, ih htext]
      · rfl
      · -- a word that is found later in the first piece does not start here, whatever comes next
        intro hlater
        refine hpre (prefix_of_prefix_length_le hlater (prefix_append (a :: text) more) ?_)
        rw [append_of_splitOnce htext]
        simp only [length_cons, length_append]
        omega

/-- Where a word does not start, nothing is found. -/
theorem splitOnce_drop {m : Nat} (hm : m ≤ text.length) (hnot : ∀ i < m, ¬ needle <+: text.drop i) :
    splitOnce needle text =
      (splitOnce needle (text.drop m)).map fun (before, rest) => (text.take m ++ before, rest) := by
  induction m generalizing text with
  | zero => simp
  | succ m ih =>
    cases text with
    | nil => simp at hm
    | cons a text =>
      rw [splitOnce_cons_of_not (hnot 0 (Nat.succ_pos m)),
        ih (Nat.le_of_succ_le_succ hm) fun i hi => hnot (i + 1) (Nat.succ_lt_succ hi), Option.map_map]
      rfl

/-! ## What is held back -/

theorem longestSuffixPrefixLen_le : longestSuffixPrefixLen text needle ≤ text.length := by
  unfold longestSuffixPrefixLen
  cases hfind : find? (fun k => (needle.take k).isSuffixOf text)
      (range' 1 (min text.length (needle.length - 1))).reverse with
  | none => exact Nat.zero_le _
  | some k =>
    have hmem := mem_of_find?_eq_some hfind
    rw [mem_reverse, mem_range'_1] at hmem
    dsimp only [Option.getD]
    omega

/-- No longer end of the text is a start of the word. -/
theorem le_longestSuffixPrefixLen {k : Nat} (hk : k < needle.length) (hsuffix : needle.take k <:+ text) :
    k ≤ longestSuffixPrefixLen text needle := by
  by_cases hzero : k = 0
  · rw [hzero]
    exact Nat.zero_le _
  have hlen : k ≤ text.length := by
    have := hsuffix.length_le
    rwa [length_take_of_le hk.le] at this
  have hmem : k ∈ range' 1 (min text.length (needle.length - 1)) := by
    rw [mem_range'_1]
    omega
  unfold longestSuffixPrefixLen
  cases hfind : find? (fun k => (needle.take k).isSuffixOf text)
      (range' 1 (min text.length (needle.length - 1))).reverse with
  | none =>
    rw [find?_eq_none] at hfind
    exact absurd (isSuffixOf_iff_suffix.mpr hsuffix) (hfind k (mem_reverse.mpr hmem))
  | some found =>
    -- the candidates are tried from the longest on, and what comes before the one found does not fit
    obtain ⟨-, longer, shorter, hsplit, hnone⟩ := find?_eq_some_iff_append.mp hfind
    have hk : k ∈ longer ++ found :: shorter := hsplit ▸ mem_reverse.mpr hmem
    have hsorted : (longer ++ found :: shorter).Pairwise (· > ·) := by
      rw [← hsplit, pairwise_reverse]
      exact pairwise_lt_range'
    obtain hlonger | hrest := mem_append.mp hk
    · have := hnone k hlonger
      rw [isSuffixOf_iff_suffix.mpr hsuffix] at this
      cases this
    · obtain rfl | hshorter := mem_cons.mp hrest
      · exact le_rfl
      · exact (rel_of_pairwise_cons (pairwise_append.mp hsorted).2.1 hshorter).le

/-- **What is let go holds no place of the word**, whatever comes next. -/
theorem splitOnce_hold {m : Nat} (hm : m + longestSuffixPrefixLen text needle ≤ text.length)
    (h : splitOnce needle text = none) (more : List α) :
    splitOnce needle (text ++ more) =
      (splitOnce needle (text.drop m ++ more)).map fun (before, rest) => (text.take m ++ before, rest) := by
  have hle : m ≤ text.length := (Nat.le_add_right _ _).trans hm
  rw [splitOnce_drop (hle.trans (by simp)), drop_append_of_le_length hle,
    take_append_of_le_length hle]
  intro i hi hstarts
  rw [drop_append_of_le_length (hi.le.trans hle)] at hstarts
  by_cases hlen : needle.length ≤ (text.drop i).length
  · have hinside := prefix_of_prefix_length_le hstarts (prefix_append _ _) hlen
    exact splitOnce_eq_none_iff.mp h (hinside.isInfix.trans (drop_suffix i text).isInfix)
  · -- the word would start here and go on in what comes next, but then this end is held back
    have hstart : text.drop i <+: needle :=
      prefix_of_prefix_length_le (prefix_append _ _) hstarts (Nat.le_of_not_le hlen)
    have hlong := le_longestSuffixPrefixLen (Nat.lt_of_not_le hlen)
      (prefix_iff_eq_take.mp hstart ▸ drop_suffix i text)
    rw [length_drop] at hlong
    omega

/-- A word of which the first place reaches over the end of a text, and one that is in the text and does not start
before it: the second is in the first. -/
theorem isInfix_dropLast_of_splitOnce {other before' rest' : List α}
    (h : splitOnce needle text = some (before, rest)) (hnone : splitOnce other text = none)
    (hother : splitOnce other (text ++ more) = some (before', rest')) (hle : before'.length ≤ before.length) :
    needle <:+: other.dropLast := by
  have htext := append_of_splitOnce h
  have hmore := append_of_splitOnce hother
  have hend : text.length < before'.length + other.length := by
    by_contra hshort
    apply splitOnce_eq_none_iff.mp hnone
    have hstart : before' ++ other <+: text := by
      refine prefix_of_prefix_length_le (prefix_append (before' ++ other) rest') ?_ ?_
      · rw [← hmore]
        exact prefix_append _ _
      · rw [length_append]
        exact Nat.le_of_not_lt hshort
    exact (suffix_append before' other).isInfix.trans hstart.isInfix
  -- both texts from the place of the other word on
  have hdrop : text.drop before'.length <+: other.dropLast := by
    have hwhole : text.drop before'.length <+: other ++ rest' := by
      have hpre := (prefix_append text more).drop before'.length
      rwa [hmore, append_assoc, drop_left] at hpre
    refine prefix_of_prefix_length_le hwhole
      ((List.dropLast_prefix other).trans (prefix_append _ _)) ?_
    rw [length_drop, length_dropLast]
    omega
  refine List.IsInfix.trans ?_ hdrop.isInfix
  rw [htext, append_assoc, drop_append_of_le_length hle]
  exact ⟨before.drop before'.length, rest, by rw [append_assoc]⟩

end NovumAgent.Needle
