import Mathlib.Data.List.DropRight
import Mathlib.Data.List.TakeWhile
import NovumAgent.Lib.Utf8

/-!
# Percent escapes and dot segments

What a reader of a URL path may do with it: decode the escapes, and remove the segments `.` and `..`. A path
that has no escape stays the same under the first (`percentDecode_of_notMem`), and one that has no such
segment stays the same under the second (`removeDotSegments_eq_self`).

The decoder leaves what is no escape as it is. Dot segments are removed from the front to the end, with an
input that gets shorter and an output that a `..` takes the last segment from.
-/

namespace NovumAgent.UrlPath

open List

/-- The byte `.`. -/
def dot : UInt8 := 46

/-- The byte `/`. -/
def slash : UInt8 := 47

/-- The byte `%`. -/
def percent : UInt8 := 37

/-- The byte of a backslash. -/
def backslash : UInt8 := 92

/-- The value of a hexadecimal digit. -/
def hexValue (b : UInt8) : Option UInt8 :=
  if 48 ≤ b ∧ b ≤ 57 then some (b - 48)
  else if 97 ≤ b ∧ b ≤ 102 then some (b - 97 + 10)
  else if 65 ≤ b ∧ b ≤ 70 then some (b - 65 + 10)
  else none

/-- The byte that two hexadecimal digits name. -/
def byteOf (high low : UInt8) : Option UInt8 :=
  match hexValue high, hexValue low with
  | some high, some low => some (high <<< 4 ||| low)
  | _, _ => none

/-- The byte that the two digits at the front name, if there are two. -/
def escaped : Bytes → Option UInt8
  | high :: low :: _ => byteOf high low
  | _ => none

/-- A path with its escapes decoded. -/
def percentDecode : Bytes → Bytes
  | [] => []
  | [b] => [b]
  | [b, c] => b :: percentDecode [c]
  | b :: high :: low :: rest =>
    if b = percent then
      match byteOf high low with
      | some decoded => decoded :: percentDecode rest
      | none => b :: percentDecode (high :: low :: rest)
    else b :: percentDecode (high :: low :: rest)

/-- The segments of a path. -/
def segments (path : Bytes) : List Bytes := path.splitOnP (· = slash)

/-! ## Decoding -/

theorem percentDecode_cons_of_ne {b : UInt8} (h : b ≠ percent) (rest : Bytes) :
    percentDecode (b :: rest) = b :: percentDecode rest := by
  match rest with
  | [] => rfl
  | [c] => rfl
  | high :: low :: rest => rw [percentDecode, if_neg h]

theorem percentDecode_of_escaped {rest : Bytes} {decoded : UInt8} (h : escaped rest = some decoded) :
    percentDecode (percent :: rest) = decoded :: percentDecode (rest.drop 2) := by
  match rest with
  | [] => cases h
  | [c] => cases h
  | high :: low :: rest =>
    rw [escaped] at h
    rw [percentDecode, if_pos rfl, h]
    rfl

variable {path first : Bytes}

/-- Without a `%` there is nothing to decode. -/
theorem percentDecode_of_notMem (h : percent ∉ path) : percentDecode path = path := by
  induction path with
  | nil => rfl
  | cons b rest ih =>
    rw [mem_cons, not_or] at h
    rw [percentDecode_cons_of_ne (Ne.symm h.1), ih h.2]

/-! ## Segments -/

theorem segments_of_notMem (h : slash ∉ path) : segments path = [path] := by
  refine splitOnP_eq_singleton fun b hb => ?_
  exact decide_eq_false fun heq => h (heq ▸ hb)

theorem segments_append (h : slash ∉ first) (rest : Bytes) :
    segments (first ++ slash :: rest) = first :: segments rest := by
  refine splitOnP_append_cons_of_forall_mem (fun b hb => ?_) slash rfl rest
  exact decide_eq_false fun heq => h (heq ▸ hb)

/-- Bytes that are no `/` go to the first segment. -/
theorem segments_prepend (h : slash ∉ first) (rest : Bytes) :
    segments (first ++ rest) = (segments rest).modifyHead (first ++ ·) := by
  induction first with
  | nil =>
    rw [nil_append]
    cases segments rest with
    | nil => rfl
    | cons segment more => rfl
  | cons b first ih =>
    rw [mem_cons, not_or] at h
    have hcons : segments (b :: (first ++ rest)) = (segments (first ++ rest)).modifyHead (b :: ·) := by
      rw [segments, splitOnP_cons_eq_if_modifyHead, if_neg (by simpa using Ne.symm h.1)]
      rfl
    rw [cons_append, hcons, ih h.2]
    cases segments rest with
    | nil => rfl
    | cons segment more => rfl

theorem segments_slash (rest : Bytes) : segments (slash :: rest) = [] :: segments rest :=
  segments_append not_mem_nil rest

/-! ## Dot segments -/

/-- A path without its last segment and the `/` before it. -/
def dropLastSegment (path : Bytes) : Bytes := (path.rdropWhile (· ≠ slash)).dropLast

/-- The loop that removes dot segments: the input, and the output so far. -/
def removeDots : Nat → Bytes → Bytes → Bytes
  | 0, input, output => output ++ input
  | fuel + 1, input, output =>
    if [dot, dot, slash] <+: input then removeDots fuel (input.drop 3) output
    else if [dot, slash] <+: input then removeDots fuel (input.drop 2) output
    else if [slash, dot, slash] <+: input then removeDots fuel (input.drop 2) output
    else if input = [slash, dot] then removeDots fuel [slash] output
    else if [slash, dot, dot, slash] <+: input then
      removeDots fuel (input.drop 3) (dropLastSegment output)
    else if input = [slash, dot, dot] then removeDots fuel [slash] (dropLastSegment output)
    else if input = [dot] ∨ input = [dot, dot] then output
    else
      match input with
      | [] => output
      | b :: rest =>
        removeDots fuel (rest.dropWhile (· ≠ slash)) (output ++ b :: rest.takeWhile (· ≠ slash))

/-- A path without dot segments. Each round of the loop takes at least one byte. -/
def removeDotSegments (path : Bytes) : Bytes := removeDots path.length path []

/-- No segment is `.` or `..`. -/
def NoDotSegments (path : Bytes) : Prop := ∀ segment ∈ segments path, segment ≠ [dot] ∧ segment ≠ [dot, dot]

theorem NoDotSegments.head {rest : Bytes} (h : NoDotSegments (first ++ slash :: rest))
    (hfirst : slash ∉ first) : (first ≠ [dot] ∧ first ≠ [dot, dot]) ∧ NoDotSegments rest := by
  unfold NoDotSegments at h
  rw [segments_append hfirst] at h
  exact ⟨h first mem_cons_self, fun segment hsegment => h segment (mem_cons_of_mem _ hsegment)⟩

theorem NoDotSegments.single (h : NoDotSegments path) (hpath : slash ∉ path) :
    path ≠ [dot] ∧ path ≠ [dot, dot] := by
  unfold NoDotSegments at h
  rw [segments_of_notMem hpath] at h
  exact h path (mem_singleton.mpr rfl)

open NoDotSegments

theorem NoDotSegments.slash {rest : Bytes} (h : NoDotSegments (UrlPath.slash :: rest)) :
    NoDotSegments rest :=
  (@head [] rest h not_mem_nil).2

theorem noDotSegments_slash {rest : Bytes} (h : NoDotSegments rest) :
    NoDotSegments (UrlPath.slash :: rest) := by
  intro segment hsegment
  rw [segments_slash] at hsegment
  rcases mem_cons.mp hsegment with rfl | hsegment
  · exact ⟨by decide, by decide⟩
  · exact h segment hsegment

/-- What is behind the first segment has no dot segments either. -/
theorem NoDotSegments.dropWhile {b : UInt8} {rest : Bytes} (h : NoDotSegments (b :: rest)) :
    NoDotSegments (rest.dropWhile (· ≠ UrlPath.slash)) := by
  cases hdrop : rest.dropWhile (· ≠ UrlPath.slash) with
  | nil =>
    intro segment hsegment
    rw [segments_of_notMem not_mem_nil] at hsegment
    cases mem_singleton.mp hsegment
    exact ⟨by decide, by decide⟩
  | cons c later =>
    have hc : c = UrlPath.slash := by
      have := head?_dropWhile_not (fun x => decide (x ≠ UrlPath.slash)) rest
      rw [hdrop] at this
      simpa using this
    subst hc
    have htake : UrlPath.slash ∉ rest.takeWhile (· ≠ UrlPath.slash) := by
      intro hmem
      simpa using mem_takeWhile_imp hmem
    have hrest : rest = rest.takeWhile (· ≠ UrlPath.slash) ++ UrlPath.slash :: later := by
      rw [← hdrop, takeWhile_append_dropWhile]
    refine noDotSegments_slash ?_
    by_cases hb : b = UrlPath.slash
    · subst hb
      have htail := h.slash
      rw [hrest] at htail
      exact (htail.head htake).2
    · rw [hrest, ← cons_append] at h
      refine (h.head ?_).2
      intro hmem
      rcases mem_cons.mp hmem with heq | hmem
      · exact hb heq.symm
      · exact htake hmem

theorem removeDots_eq {input : Bytes} (h : NoDotSegments input) (fuel : Nat) (output : Bytes) :
    removeDots fuel input output = output ++ input := by
  induction fuel generalizing input output with
  | zero => rfl
  | succ fuel ih =>
    -- every round but the last kind would have found a dot segment
    have hparent : ¬ [dot, dot, slash] <+: input := by
      rintro ⟨rest, rfl⟩
      exact (@head [dot, dot] rest h (by decide)).1.2 rfl
    have hhere : ¬ [dot, slash] <+: input := by
      rintro ⟨rest, rfl⟩
      exact (@head [dot] rest h (by decide)).1.1 rfl
    have hslashHere : ¬ [slash, dot, slash] <+: input := by
      rintro ⟨rest, rfl⟩
      exact (@head [dot] rest h.slash (by decide)).1.1 rfl
    have hslashHereEnd : input ≠ [slash, dot] := by
      rintro rfl
      exact (h.slash.single (by decide)).1 rfl
    have hslashParent : ¬ [slash, dot, dot, slash] <+: input := by
      rintro ⟨rest, rfl⟩
      exact (@head [dot, dot] rest h.slash (by decide)).1.2 rfl
    have hslashParentEnd : input ≠ [slash, dot, dot] := by
      rintro rfl
      exact (h.slash.single (by decide)).2 rfl
    have honly : ¬ (input = [dot] ∨ input = [dot, dot]) := by
      rintro (rfl | rfl)
      · exact (h.single (by decide)).1 rfl
      · exact (h.single (by decide)).2 rfl
    unfold removeDots
    rw [if_neg hparent, if_neg hhere, if_neg hslashHere, if_neg hslashHereEnd, if_neg hslashParent,
      if_neg hslashParentEnd, if_neg honly]
    cases input with
    | nil => rw [append_nil]
    | cons b rest =>
      dsimp only
      rw [ih h.dropWhile, append_assoc, cons_append, takeWhile_append_dropWhile]

/-- **Without dot segments there is nothing to remove.** -/
theorem removeDotSegments_eq_self (h : NoDotSegments path) : removeDotSegments path = path := by
  rw [removeDotSegments, removeDots_eq h, nil_append]

end NovumAgent.UrlPath
