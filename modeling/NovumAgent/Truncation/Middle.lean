import NovumAgent.ToolOutput.Tokens

/-!
# Truncating the middle

Long text keeps its two ends. One path cuts at character boundaries next to two byte positions, the other
walks over the characters and counts those it drops; `truncateWithByteEstimate` takes the first if it counts
tokens. Both keep the longest ends within their budgets (`middle_truncation_exact`), and with a marker of the
caller's the result is within the limit.
-/

namespace NovumAgent.Truncation

open List Utf8 ToolOutput

/-- The shortest prefix of whole characters that has `n` bytes, or the text. -/
def reachBytes : Nat → Text → Text
  | _, [] => []
  | n, c :: cs => if n = 0 then [] else c :: reachBytes (n - c.utf8Size) cs

def floorCharBoundary (s : Text) (n : Nat) : Nat := byteLen (takeBytes n s)

def ceilCharBoundary (s : Text) (n : Nat) : Nat := byteLen (reachBytes n s)

/-- The variables of the loop in `split_string`. -/
structure Split where
  prefixEnd : Nat
  suffixStart : Nat
  removedChars : Nat
  suffixStarted : Bool

/-- The loop of `split_string`. -/
def splitLoop (beginningBytes tailStartTarget : Nat) : (idx : Nat) → Text → Split → Split
  | _, [], r => r
  | idx, c :: cs, r =>
    let charEnd := idx + c.utf8Size
    splitLoop beginningBytes tailStartTarget charEnd cs <|
      if charEnd ≤ beginningBytes then { r with prefixEnd := charEnd }
      else if tailStartTarget ≤ idx then
        if r.suffixStarted then r else { r with suffixStart := idx, suffixStarted := true }
      else { r with removedChars := r.removedChars + 1 }

def splitString (s : Text) (beginningBytes endBytes : Nat) : Nat × Text × Text :=
  if s = [] then (0, [], [])
  else
    let len := byteLen s
    let r := splitLoop beginningBytes (len - endBytes) 0 s ⟨0, len, 0, false⟩
    (r.removedChars, takeBytes r.prefixEnd s, dropBytes (max r.suffixStart r.prefixEnd) s)

def splitBudget (budget : Nat) : Nat × Nat := (budget / 2, budget - budget / 2)

def truncateMiddleWithMarker (s : Text) (maxBytes : Nat) (marker : Text) : Text :=
  if byteLen s ≤ maxBytes then s
  else if maxBytes < byteLen marker then takeBytes (floorCharBoundary s maxBytes) s
  else
    let (leftBudget, rightBudget) := splitBudget (maxBytes - byteLen marker)
    takeBytes (floorCharBoundary s leftBudget) s ++ marker ++
      dropBytes (ceilCharBoundary s (byteLen s - rightBudget)) s

def formatTruncationMarker (useTokens : Bool) (removedCount : Nat) : Text :=
  ("…" ++ toString removedCount ++ (if useTokens then " tokens" else " chars") ++ " truncated…").toList

def removedUnits (useTokens : Bool) (removedBytes removedChars : Nat) : Nat :=
  if useTokens then approxTokensFromByteCount removedBytes else removedChars

def truncateWithByteEstimate (s : Text) (maxBytes : Nat) (useTokens : Bool) : Text :=
  if s = [] then []
  else if maxBytes = 0 then
    let totalChars := if useTokens then 0 else s.length
    formatTruncationMarker useTokens (removedUnits useTokens (byteLen s) totalChars)
  else if byteLen s ≤ maxBytes then s
  else
    let (leftBudget, rightBudget) := splitBudget maxBytes
    let (removedChars, left, right) :=
      if useTokens then (0, takeBytes (floorCharBoundary s leftBudget) s,
        dropBytes (ceilCharBoundary s (byteLen s - rightBudget)) s)
      else splitString s leftBudget rightBudget
    left ++ formatTruncationMarker useTokens
      (removedUnits useTokens (byteLen s - maxBytes) removedChars) ++ right

/-! ## Reaching a position -/

variable {s : Text} {n : Nat}

theorem reachBytes_append {t u : Text} (h : n ≤ byteLen t) : reachBytes n (t ++ u) <+: t := by
  induction t generalizing n with
  | nil =>
    rw [Nat.le_zero.mp h]
    cases u <;> exact nil_prefix
  | cons c t ih =>
    rw [byteLen_cons] at h
    rw [cons_append, reachBytes]
    split
    next => exact nil_prefix
    next => exact cons_prefix_cons.mpr ⟨rfl, ih (by omega)⟩

theorem le_byteLen_reachBytes (h : n ≤ byteLen s) : n ≤ byteLen (reachBytes n s) := by
  induction s generalizing n with
  | nil => exact h
  | cons c s ih =>
    rw [byteLen_cons] at h
    rw [reachBytes]
    split
    next hzero => exact Nat.le_of_eq hzero
    next =>
      have := @ih (n - c.utf8Size) (by omega)
      rw [byteLen_cons]
      omega

theorem dropBytes_ceilCharBoundary (h : n ≤ byteLen s) :
    s = reachBytes n s ++ dropBytes (ceilCharBoundary s n) s := by
  obtain ⟨rest, hrest⟩ := reachBytes_append (u := []) h
  rw [append_nil] at hrest
  have hdrop := dropBytes_append (t := rest) (Nat.le_refl (byteLen (reachBytes n s)))
  rw [hrest, Nat.sub_self, dropBytes_zero] at hdrop
  rw [ceilCharBoundary, hdrop, hrest]

theorem suffix_dropBytes {endBytes : Nat} :
    byteLen (dropBytes (ceilCharBoundary s (byteLen s - endBytes)) s) ≤ endBytes ∧
      ∀ w, w <:+ s → byteLen w ≤ endBytes →
        w <:+ dropBytes (ceilCharBoundary s (byteLen s - endBytes)) s := by
  have hsplit := dropBytes_ceilCharBoundary (Nat.sub_le (byteLen s) endBytes)
  constructor
  · have hlen := congrArg byteLen hsplit
    have hreach := le_byteLen_reachBytes (Nat.sub_le (byteLen s) endBytes)
    rw [byteLen_append] at hlen
    omega
  · rintro w ⟨v, hv⟩ hw
    have hlen := congrArg byteLen hv
    rw [byteLen_append] at hlen
    obtain ⟨x, hx⟩ := reachBytes_append (u := w) (show byteLen s - endBytes ≤ byteLen v by omega)
    rw [hv] at hx
    refine ⟨x, @append_cancel_left _ (reachBytes (byteLen s - endBytes) s) _ _ ?_⟩
    rw [← append_assoc, hx, hv, ← hsplit]

/-! ## The walk over the characters -/

@[simp] theorem reachBytes_zero (s : Text) : reachBytes 0 s = [] := by
  cases s <;> rfl

variable {b target idx : Nat} {r : Split} (hb : b < target)
include hb

theorem splitLoop_tail (h : target ≤ idx) : splitLoop b target idx s r =
    if s = [] ∨ r.suffixStarted = true then r else { r with suffixStart := idx, suffixStarted := true } := by
  induction s generalizing idx r with
  | nil => simp [splitLoop]
  | cons c s ih =>
    have hbehind : ¬ idx + c.utf8Size ≤ b := by omega
    rw [splitLoop, if_neg hbehind, if_pos h, ih (by omega)]
    by_cases hstarted : r.suffixStarted = true <;> simp [hstarted]

/-- **The walk**, from any character on: the prefix grows while it fits, the suffix starts at the first
character at or behind its position, and those between are counted. -/
theorem splitLoop_spec (hend : idx ≤ b → r.prefixEnd = idx) (hstarted : r.suffixStarted = false)
    (hstart : r.suffixStart = idx + byteLen s) :
    (splitLoop b target idx s r).prefixEnd = r.prefixEnd + byteLen (takeBytes (b - idx) s) ∧
      (splitLoop b target idx s r).removedChars + (takeBytes (b - idx) s).length =
        r.removedChars + (reachBytes (target - idx) s).length ∧
      (splitLoop b target idx s r).suffixStart = idx + byteLen (reachBytes (target - idx) s) := by
  induction s generalizing idx r with
  | nil => exact ⟨rfl, rfl, hstart⟩
  | cons c s ih =>
    by_cases htail : target ≤ idx
    · rw [splitLoop_tail hb htail, Nat.sub_eq_zero_of_le htail, Nat.sub_eq_zero_of_le (by omega)]
      simp [hstarted]
    · have hpos := c.utf8Size_pos
      rw [splitLoop, takeBytes, reachBytes, Nat.sub_sub, Nat.sub_sub, if_neg (show target - idx ≠ 0 by omega)]
      by_cases hfits : idx + c.utf8Size ≤ b
      · rw [if_pos hfits, if_pos (show c.utf8Size ≤ b - idx by omega)]
        have := @ih (idx + c.utf8Size) { r with prefixEnd := idx + c.utf8Size } (fun _ => rfl) hstarted
        grind [byteLen_cons]
      · rw [if_neg hfits, if_neg htail, if_neg (show ¬ c.utf8Size ≤ b - idx by omega)]
        have hnone : takeBytes (b - (idx + c.utf8Size)) s = [] := by
          rw [Nat.sub_eq_zero_of_le (by omega), takeBytes_zero]
        have := @ih (idx + c.utf8Size) { r with removedChars := r.removedChars + 1 }
          (fun h => absurd h (by omega)) hstarted
        grind [byteLen_cons]

omit hb

/-- The longest beginning and the longest end of whole characters within two budgets, cut at the
boundaries next to the two positions, with nothing between them but the middle. -/
structure LongestEnds (s : Text) (beginningBytes endBytes : Nat) (before middle after : Text) : Prop where
  whole : s = before ++ middle ++ after
  begins : byteLen before ≤ beginningBytes ∧ ∀ w, w <+: s → byteLen w ≤ beginningBytes → w <+: before
  ends : byteLen after ≤ endBytes ∧ ∀ w, w <:+ s → byteLen w ≤ endBytes → w <:+ after
  floor : before = takeBytes (floorCharBoundary s beginningBytes) s
  ceil : after = dropBytes (ceilCharBoundary s (byteLen s - endBytes)) s

theorem byteLen_truncateMiddleWithMarker (s : Text) (maxBytes : Nat) (marker : Text) :
    byteLen (truncateMiddleWithMarker s maxBytes marker) ≤ maxBytes := by
  unfold truncateMiddleWithMarker floorCharBoundary splitBudget
  simp only [takeBytes_byteLen_takeBytes]
  split
  next h => exact h
  next =>
    split
    next => exact byteLen_takeBytes_le _ _
    next =>
      have hleft := byteLen_takeBytes_le ((maxBytes - byteLen marker) / 2) s
      have hright := (@suffix_dropBytes s
        (maxBytes - byteLen marker - (maxBytes - byteLen marker) / 2)).1
      rw [byteLen_append, byteLen_append]
      omega

theorem exists_longestEnds {beginningBytes endBytes : Nat} (h : beginningBytes + endBytes < byteLen s) :
    ∃ before middle after, splitString s beginningBytes endBytes = (middle.length, before, after) ∧
      LongestEnds s beginningBytes endBytes before middle after := by
  obtain ⟨hend, hremoved, hstart⟩ := @splitLoop_spec s beginningBytes (byteLen s - endBytes) 0
    ⟨0, byteLen s, 0, false⟩ (by omega) (fun _ => rfl) rfl (Nat.zero_add _).symm
  have hsplit := dropBytes_ceilCharBoundary (Nat.sub_le (byteLen s) endBytes)
  have hreach := le_byteLen_reachBytes (Nat.sub_le (byteLen s) endBytes)
  have hfits := byteLen_takeBytes_le beginningBytes s
  simp only [Nat.zero_add, Nat.sub_zero] at hend hremoved hstart
  -- the beginning ends in front of where the end starts
  obtain ⟨middle, hmiddle⟩ : takeBytes beginningBytes s <+: reachBytes (byteLen s - endBytes) s := by
    refine prefix_of_prefix_length_le ⟨_, takeBytes_append_dropBytes beginningBytes s⟩ ⟨_, hsplit.symm⟩ ?_
    omega
  refine ⟨_, middle, _, ?_, ?_, ⟨hfits, ?_⟩, suffix_dropBytes, (takeBytes_byteLen_takeBytes ..).symm, rfl⟩
  · rw [← hmiddle, length_append] at hremoved
    rw [splitString, if_neg (by rintro rfl; simp at h)]
    dsimp only
    rw [hend, hstart, takeBytes_byteLen_takeBytes, Nat.max_eq_left (by omega)]
    exact congrArg (·, _, _) (by omega)
  · rw [hmiddle]
    exact hsplit
  · rintro w ⟨v, rfl⟩ hw
    rw [takeBytes_append hw]
    exact prefix_append _ _

/-- The text keeps its longest ends within a budget that is split, around a marker for what is between. -/
def KeepsEnds (s : Text) (budget : Nat) (marker : Nat → Text) (result : Text) : Prop :=
  ∃ before middle after, result = before ++ marker middle.length ++ after ∧
    LongestEnds s (splitBudget budget).1 (splitBudget budget).2 before middle after

theorem truncateMiddleWithMarker_keeps {maxBytes : Nat} {marker : Text} (h : maxBytes < byteLen s)
    (hmarker : byteLen marker ≤ maxBytes) : KeepsEnds s (maxBytes - byteLen marker) (fun _ => marker)
      (truncateMiddleWithMarker s maxBytes marker) := by
  obtain ⟨before, middle, after, -, hends⟩ := @exists_longestEnds s
    (splitBudget (maxBytes - byteLen marker)).1 (splitBudget (maxBytes - byteLen marker)).2
    (by unfold splitBudget; omega)
  refine ⟨before, middle, after, ?_, hends⟩
  rw [truncateMiddleWithMarker, if_neg (by omega), if_neg (by omega), hends.floor, hends.ceil]

theorem truncateWithByteEstimate_keeps {maxBytes : Nat} (h : maxBytes < byteLen s) (useTokens : Bool) :
    KeepsEnds s maxBytes (formatTruncationMarker useTokens ∘ removedUnits useTokens (byteLen s - maxBytes))
      (truncateWithByteEstimate s maxBytes useTokens) := by
  obtain ⟨before, middle, after, hsplit, hends⟩ := @exists_longestEnds s
    (splitBudget maxBytes).1 (splitBudget maxBytes).2 (by unfold splitBudget; omega)
  refine ⟨before, middle, after, ?_, hends⟩
  rw [truncateWithByteEstimate, if_neg (by rintro rfl; simp at h)]
  by_cases hzero : maxBytes = 0
  · -- neither end has a character
    subst hzero
    obtain rfl := eq_nil_of_byteLen_eq_zero (Nat.le_zero.mp hends.begins.1)
    obtain rfl := eq_nil_of_byteLen_eq_zero (Nat.le_zero.mp hends.ends.1)
    have hwhole : s = middle := by simpa using hends.whole
    cases useTokens <;> simp [removedUnits, hwhole]
  · rw [if_neg hzero, if_neg (by omega)]
    cases useTokens with
    | true => simp only [if_true, ← hends.floor, ← hends.ceil, removedUnits, Function.comp_apply]
    | false => simp only [Bool.false_eq_true, if_false, hsplit, Function.comp_apply]

/-- **The two paths agree** on the longest ends of a text that is longer than both budgets, and the characters
between are counted. These ends are what both truncations keep, and with a marker of the caller's the
result is within its limit. -/
theorem middle_truncation_exact (s : Text) :
    (∀ beginningBytes endBytes, beginningBytes + endBytes < byteLen s → ∃ before middle after,
      splitString s beginningBytes endBytes = (middle.length, before, after) ∧
        LongestEnds s beginningBytes endBytes before middle after) ∧
      (∀ maxBytes marker, byteLen (truncateMiddleWithMarker s maxBytes marker) ≤ maxBytes) ∧
      ∀ maxBytes, maxBytes < byteLen s →
        (∀ marker, byteLen marker ≤ maxBytes → KeepsEnds s (maxBytes - byteLen marker)
          (fun _ => marker) (truncateMiddleWithMarker s maxBytes marker)) ∧
        ∀ useTokens, KeepsEnds s maxBytes
          (formatTruncationMarker useTokens ∘ removedUnits useTokens (byteLen s - maxBytes))
          (truncateWithByteEstimate s maxBytes useTokens) :=
  ⟨fun _ _ => exists_longestEnds, byteLen_truncateMiddleWithMarker s, fun _ h =>
    ⟨fun _ => truncateMiddleWithMarker_keeps h, truncateWithByteEstimate_keeps h⟩⟩

end NovumAgent.Truncation
