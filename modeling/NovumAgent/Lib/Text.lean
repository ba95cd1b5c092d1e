import Mathlib.Data.List.DropRight
import NovumAgent.Lib.Utf8

/-!
# Text

The string operations of the source's standard library that its parsers lean on: white space as
Unicode has it, trimming, and prefixes and suffixes that are stripped when present. A text is a
list of characters, so each of them is an operation on lists.
-/

namespace NovumAgent.Text

open List

/-- `char::is_whitespace`: the Unicode property `White_Space`. -/
def isWhitespace (c : Char) : Bool :=
  let n := c.toNat
  (9 ≤ n && n ≤ 13) || n == 0x20 || n == 0x85 || n == 0xA0 || n == 0x1680 ||
    (0x2000 ≤ n && n ≤ 0x200A) || n == 0x2028 || n == 0x2029 || n == 0x202F || n == 0x205F ||
    n == 0x3000

def trimStart (t : Text) : Text := t.dropWhile isWhitespace

def trimEnd (t : Text) : Text := t.rdropWhile isWhitespace

def trim (t : Text) : Text := trimEnd (trimStart t)

def stripPrefix (pre : Text) (t : Text) : Option Text :=
  if pre.isPrefixOf t then some (t.drop pre.length) else none

/-- `str::strip_suffix`, of one character. -/
def stripLast (c : Char) (t : Text) : Option Text :=
  if t.getLast? = some c then some t.dropLast else none

/-- `[str]::join`. -/
def join (separator : Text) : List Text → Text
  | [] => []
  | [line] => line
  | line :: lines => line ++ separator ++ join separator lines

/-! ## Lines -/

/-- The lines of a text that end in a line feed, and what is left behind the last of them. -/
def breakLines : Text → List Text × Text
  | [] => ([], [])
  | c :: t =>
    if c = '\n' then ([] :: (breakLines t).1, (breakLines t).2)
    else
      match breakLines t with
      | ([], rest) => ([], c :: rest)
      | (line :: lines, rest) => ((c :: line) :: lines, rest)

/-- A line without the carriage return at its end. -/
def chompCr (line : Text) : Text := (stripLast '\r' line).getD line

/-- `str::lines`: a carriage return before a line feed belongs to the ending, and a text that ends
in a line feed has no line behind it. -/
def lines (t : Text) : List Text :=
  (breakLines t).1.map chompCr ++ if (breakLines t).2 = [] then [] else [(breakLines t).2]

/-- `str::split_inclusive`, at line feeds: every line has the line feed that ends it. -/
def splitInclusive (t : Text) : List Text :=
  (breakLines t).1.map (· ++ ['\n']) ++ if (breakLines t).2 = [] then [] else [(breakLines t).2]

/-- The text of some lines, each with its line feed, and a rest. -/
def unlines (ls : List Text) (rest : Text) : Text := ls.flatMap (· ++ ['\n']) ++ rest

/-! ## Trimming and stripping -/

variable {t line rest : Text} {ls : List Text} {c : Char}

theorem trimEnd_concat (h : isWhitespace c = true) : trimEnd (t ++ [c]) = trimEnd t :=
  rdropWhile_concat_pos _ _ _ h

theorem trim_concat (h : isWhitespace c = true) : trim (t ++ [c]) = trim t := by
  unfold trim trimStart
  rw [dropWhile_append]
  split
  next hempty =>
    rw [isEmpty_iff.mp hempty, dropWhile_cons_of_pos h]
    rfl
  next => exact trimEnd_concat h

/-- What trimming leaves of the start of a text is the start of what it leaves of the text. -/
theorem trim_mono {u : Text} (h : t <+: u) : trim t <+: trim u := by
  obtain ⟨more, rfl⟩ := h
  induction more using reverseRecOn with
  | nil => exact ⟨[], by rw [append_nil, append_nil]⟩
  | append_singleton more c ih =>
    rw [← append_assoc]
    refine ih.trans ?_
    generalize t ++ more = t
    by_cases hc : isWhitespace c = true
    · exact ⟨[], by rw [trim_concat hc, append_nil]⟩
    · have hend : ∀ v, trimEnd (v ++ [c]) = v ++ [c] := fun v => rdropWhile_concat_neg _ _ _ hc
      unfold trim trimStart
      rw [dropWhile_append]
      split
      next hempty =>
        rw [isEmpty_iff.mp hempty]
        exact nil_prefix
      next =>
        rw [hend]
        exact (List.rdropWhile_prefix _ _).trans (prefix_append _ _)

theorem stripPrefix_of_ne {d : Char} {pre : Text} (h : c ≠ d) :
    stripPrefix (c :: pre) (d :: t) = none := by
  simp [stripPrefix, isPrefixOf, h]

theorem stripPrefix_append (pre t : Text) : stripPrefix pre (pre ++ t) = some t := by
  rw [stripPrefix, if_pos (List.isPrefixOf_iff_prefix.mpr (prefix_append pre t)), drop_left]

/-- What is left of a line by trimming starts with its first character, if that is no space. -/
theorem trim_cons (hc : isWhitespace c = false) : ∃ u, trim (c :: t) = c :: u := by
  unfold trim trimStart
  rw [dropWhile_cons_of_neg (by simp [hc])]
  obtain ⟨u, hu⟩ := rdropWhile_prefix isWhitespace (c :: t)
  have hne : trimEnd (c :: t) ≠ [] := by
    intro hnil
    have := rdropWhile_eq_nil_iff.mp hnil c mem_cons_self
    rw [hc] at this
    cases this
  cases htrim : trimEnd (c :: t) with
  | nil => exact absurd htrim hne
  | cons d v =>
    have hu : trimEnd (c :: t) ++ u = c :: t := hu
    rw [htrim] at hu
    cases hu
    exact ⟨v, rfl⟩

/-- What is left of a line by trimming its end starts with its first character, or is empty. -/
theorem trimEnd_cons (c : Char) (t : Text) :
    trimEnd (c :: t) = [] ∨ ∃ u, trimEnd (c :: t) = c :: u := by
  obtain ⟨u, hu⟩ := rdropWhile_prefix isWhitespace (c :: t)
  have hu : trimEnd (c :: t) ++ u = c :: t := hu
  cases htrim : trimEnd (c :: t) with
  | nil => exact .inl rfl
  | cons d v =>
    rw [htrim] at hu
    cases hu
    exact .inr ⟨v, rfl⟩

/-- A text that does not start with white space is trimmed at its end only. -/
theorem trim_eq_trimEnd {u : Text} (h : trimEnd t = c :: u) (hc : isWhitespace c = false) :
    trim t = trimEnd t := by
  obtain ⟨v, hv⟩ := rdropWhile_prefix isWhitespace t
  have hv : trimEnd t ++ v = t := hv
  rw [h] at hv
  have hstart : trimStart t = t := by
    rw [← hv]
    exact dropWhile_cons_of_neg (by simp [hc])
  rw [trim, hstart]

/-- A text that trimming leaves alone ends in no white space. -/
theorem trimEnd_of_trim (h : trim t = t) : trimEnd t = t := by
  have hidem : trimEnd (trim t) = trim t := rdropWhile_idempotent isWhitespace (trimStart t)
  rwa [h] at hidem

/-- What trimming leaves alone, it leaves alone behind anything else. -/
theorem trimEnd_append {pre : Text} (hne : t ≠ []) (h : trimEnd t = t) :
    trimEnd (pre ++ t) = pre ++ t := by
  refine rdropWhile_eq_self_iff.mpr fun hne' => ?_
  rw [getLast_append_of_ne_nil hne' hne]
  exact rdropWhile_eq_self_iff.mp h hne

/-- Neither end of a text is trimmed. -/
theorem trim_of_trimEnd (hc : isWhitespace c = false) (h : trimEnd (c :: t) = c :: t) :
    trim (c :: t) = c :: t := by
  rw [trim_eq_trimEnd h hc, h]

/-- A text of which nothing is left is white space. -/
theorem isWhitespace_of_trim (h : trim t = []) : ∀ c ∈ t, isWhitespace c = true := by
  have hstart : trimStart t = [] := by
    cases hs : trimStart t with
    | nil => rfl
    | cons c u =>
      have hc : isWhitespace c = true :=
        rdropWhile_eq_nil_iff.mp h c (by rw [hs]; exact mem_cons_self)
      have hne : trimStart t ≠ [] := by
        rw [hs]
        exact cons_ne_nil _ _
      have hnot := head_dropWhile_not isWhitespace hne
      have hhead : (t.dropWhile isWhitespace).head hne = c := by
        have hs : t.dropWhile isWhitespace = c :: u := hs
        simp only [hs, head_cons]
      rw [hhead, hc] at hnot
      cases hnot
  exact dropWhile_eq_nil_iff.mp hstart

/-- A line is what is left of it, with or without the carriage return that was stripped. -/
theorem chompCr_cases (line : Text) : (line.getLast? ≠ some '\r' ∧ chompCr line = line) ∨
      (line.getLast? = some '\r' ∧ line = chompCr line ++ ['\r']) := by
  unfold chompCr stripLast
  by_cases h : line.getLast? = some '\r'
  · rw [if_pos h]
    exact .inr ⟨h, (dropLast_append_getLast? '\r' h).symm⟩
  · rw [if_neg h]
    exact .inl ⟨h, rfl⟩

theorem chompCr_of_ne (h : line.getLast? ≠ some '\r') : chompCr line = line :=
  (chompCr_cases line).elim And.right fun h' => absurd h'.1 h

theorem trim_chompCr (line : Text) : trim (chompCr line) = trim line := by
  rcases chompCr_cases line with ⟨_, h⟩ | ⟨_, h⟩
  · rw [h]
  · conv_rhs => rw [h, trim_concat (by decide)]

theorem trimEnd_chompCr (line : Text) : trimEnd (chompCr line) = trimEnd line := by
  rcases chompCr_cases line with ⟨_, h⟩ | ⟨_, h⟩
  · rw [h]
  · conv_rhs => rw [h, trimEnd_concat (by decide)]

theorem notMem_chompCr (h : c ∉ line) : c ∉ chompCr line := by
  rcases chompCr_cases line with ⟨_, heq⟩ | ⟨_, heq⟩
  · rwa [heq]
  · rw [heq] at h
    exact fun hmem => h (mem_append_left _ hmem)

/-! ## Breaking and joining lines -/

theorem breakLines_of_notMem (h : '\n' ∉ t) : breakLines t = ([], t) := by
  induction t with
  | nil => rfl
  | cons c t ih =>
    obtain ⟨hc, ht⟩ := not_or.mp (mt mem_cons.mpr h)
    rw [breakLines, if_neg (Ne.symm hc), ih ht]

theorem breakLines_line (h : '\n' ∉ line) :
    breakLines (line ++ '\n' :: t) = (line :: (breakLines t).1, (breakLines t).2) := by
  induction line with
  | nil => rw [nil_append, breakLines, if_pos rfl]
  | cons c line ih =>
    obtain ⟨hc, hline⟩ := not_or.mp (mt mem_cons.mpr h)
    rw [cons_append, breakLines, if_neg (Ne.symm hc), ih hline]

@[simp] theorem unlines_nil (rest : Text) : unlines [] rest = rest := rfl

@[simp] theorem unlines_cons (line : Text) (ls : List Text) (rest : Text) :
    unlines (line :: ls) rest = line ++ '\n' :: unlines ls rest := by
  simp [unlines]

/-- Lines come back as they were put together. -/
theorem breakLines_unlines (hls : ∀ line ∈ ls, '\n' ∉ line) (hrest : '\n' ∉ rest) :
    breakLines (unlines ls rest) = (ls, rest) := by
  induction ls with
  | nil => exact breakLines_of_notMem hrest
  | cons line ls ih =>
    obtain ⟨hline, hls⟩ := forall_mem_cons.mp hls
    rw [unlines_cons, breakLines_line hline, ih hls]

/-- A text is put together from its lines, which have no line feed in them. -/
theorem unlines_breakLines (t : Text) : unlines (breakLines t).1 (breakLines t).2 = t ∧
      (∀ line ∈ (breakLines t).1, '\n' ∉ line) ∧ '\n' ∉ (breakLines t).2 := by
  induction t with
  | nil => exact ⟨rfl, nofun, nofun⟩
  | cons c t ih =>
    obtain ⟨heq, hls, hrest⟩ := ih
    rw [breakLines]
    by_cases hc : c = '\n'
    · rw [if_pos hc, unlines_cons, heq, hc]
      exact ⟨rfl, forall_mem_cons.mpr ⟨nofun, hls⟩, hrest⟩
    · rw [if_neg hc]
      rcases hb : breakLines t with ⟨_ | ⟨line, ls⟩, rest⟩
      · rw [hb] at heq hrest
        refine ⟨congrArg (c :: ·) heq, nofun, ?_⟩
        exact fun hmem => (mem_cons.mp hmem).elim (fun h => hc h.symm) hrest
      · rw [hb] at heq hls hrest
        obtain ⟨hline, hls⟩ := forall_mem_cons.mp hls
        refine ⟨congrArg (c :: ·) heq, forall_mem_cons.mpr ⟨?_, hls⟩, hrest⟩
        exact fun hmem => (mem_cons.mp hmem).elim (fun h => hc h.symm) hline

theorem splitInclusive_line (h : '\n' ∉ line) :
    splitInclusive (line ++ '\n' :: t) = (line ++ ['\n']) :: splitInclusive t := by
  unfold splitInclusive
  rw [breakLines_line h]
  rfl

theorem splitInclusive_of_notMem (hne : t ≠ []) (h : '\n' ∉ t) : splitInclusive t = [t] := by
  unfold splitInclusive
  rw [breakLines_of_notMem h, if_neg hne]
  rfl

/-- The lines are the text. -/
theorem flatten_splitInclusive (t : Text) : (splitInclusive t).flatten = t := by
  obtain ⟨htext, -, -⟩ := unlines_breakLines t
  unfold splitInclusive
  rw [flatten_append, ← flatMap_def]
  split
  next hnil =>
    rw [hnil] at htext
    exact htext
  next =>
    rw [flatten_singleton]
    exact htext

/-- Joining lines by line feeds. -/
theorem join_concat (ls : List Text) (rest : Text) :
    join ['\n'] (ls ++ [rest]) = unlines ls rest := by
  induction ls with
  | nil => rfl
  | cons line ls ih =>
    rw [unlines_cons, ← ih]
    cases ls <;> simp [join]

end NovumAgent.Text
