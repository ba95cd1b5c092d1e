import NovumAgent.ApplyPatch.Parser

/-!
# Patches line by line

Both parsers come down to one loop: the lines of the text that end in a line feed are processed one
after another, and `finish` looks at what is behind the last of them. They differ in the lines. The
streaming parser strips one carriage return from each; the batch parser, which splits the text into
lines and joins them before it hands them on, strips up to two.
-/

namespace NovumAgent.ApplyPatch

open List Text StreamingPatchParser StreamingParserState

variable {t rest line : Text} {ls : List Text} {s s' : StreamingParserState} {n : Nat}

/-- The lines of a patch, one after another, the first of them the one behind line `n`. -/
def processLines (n : Nat) : List Text → StreamingParserState →
    Except ParseError StreamingParserState
  | [], s => .ok s
  | line :: ls, s =>
    match s.processLine (n + 1) line with
    | .error error => .error error
    | .ok s => processLines (n + 1) ls s

theorem processLines_append (n : Nat) (ls ms : List Text) (s : StreamingParserState) :
    processLines n (ls ++ ms) s =
      (processLines n ls s).bind fun s => processLines (n + ls.length) ms s := by
  induction ls generalizing n s with
  | nil => rfl
  | cons line ls ih =>
    simp only [cons_append, processLines]
    cases s.processLine (n + 1) line with
    | error error => rfl
    | ok s' =>
      dsimp only
      rw [ih, length_cons, add_right_comm, add_assoc n]

/-! ## Lines that are no marker -/

/-- A line that may be text: empty, or an added, a removed or a context line. -/
def IsText (line : Text) : Prop := line = [] ∨ line.head? ∈ [some ' ', some '+', some '-']

theorem IsText.head_trimEnd (h : IsText line) :
    ∀ c, (trimEnd line).head? = some c → c ≠ '*' ∧ c ≠ '@' := by
  intro c hc
  cases line with
  | nil => cases hc
  | cons d t =>
    rcases trimEnd_cons d t with hnil | ⟨u, hu⟩
    · rw [hnil] at hc
      cases hc
    · rw [hu] at hc
      cases hc
      have hc : c = ' ' ∨ c = '+' ∨ c = '-' := by simpa [IsText] using h
      rcases hc with rfl | rfl | rfl <;> decide

theorem handle_of_head (hmode : s.mode ≠ .startedPatch) (hhead : line.head? ≠ some '*') :
    s.handleHunkHeadersAndEndPatch n line = .ok none := by
  have hstrip : ∀ pre, stripPrefix ('*' :: pre) line = none := by
    intro pre
    cases line with
    | nil => rfl
    | cons c t => exact stripPrefix_of_ne fun h => hhead (h ▸ rfl)
  have hend : line ≠ endPatchMarker := by
    rintro rfl
    exact hhead rfl
  have hheader : hunkHeader n line = none := by
    unfold hunkHeader
    rw [show addFileMarker = '*' :: addFileMarker.tail from rfl,
      show deleteFileMarker = '*' :: deleteFileMarker.tail from rfl,
      show updateFileMarker = '*' :: updateFileMarker.tail from rfl]
    simp only [hstrip, Option.map_none]
  rw [handle_header n (.inl hmode), if_neg hend, hheader]

/-! ## The streaming parser -/

/-- A fresh parser that is fed a text in pieces and then finished. -/
def streamParse (deltas : List Text) : Except ParseError StreamingParserState :=
  match deltas.foldlM StreamingPatchParser.pushDelta StreamingPatchParser.default with
  | .error error => .error error
  | .ok p => p.finish

namespace StreamingPatchParser

/-- **How a text is split into pieces makes no difference.** -/
theorem foldlM_pushDelta (deltas : List Text) (p : StreamingPatchParser) :
    deltas.foldlM pushDelta p = p.pushDelta deltas.flatten := by
  induction deltas generalizing p with
  | nil => rfl
  | cons delta deltas ih =>
    rw [flatten_cons, foldlM_cons]
    simp only [pushDelta, foldlM_append]
    exact bind_congr ih

theorem pushDelta_of_notMem (h : '\n' ∉ t) (p : StreamingPatchParser) :
    p.pushDelta t = .ok { p with lineBuffer := p.lineBuffer ++ t } := by
  induction t generalizing p with
  | nil => simp [pushDelta, pure, Except.pure]
  | cons c t ih =>
    obtain ⟨hc, ht⟩ := not_or.mp (mt mem_cons.mpr h)
    have hrest := ih ht { p with lineBuffer := p.lineBuffer ++ [c] }
    simp only [append_assoc, singleton_append] at hrest
    rw [← hrest]
    simp [pushDelta, pushChar, Ne.symm hc, bind, Except.bind]

theorem pushDelta_line (h : '\n' ∉ t) (n : Nat) (s : StreamingParserState) (more : Text) :
    pushDelta ⟨[], s, n⟩ (t ++ '\n' :: more) =
      match s.processLine (n + 1) (chompCr t) with
      | .error error => .error error
      | .ok s => pushDelta ⟨[], s, n + 1⟩ more := by
  have hcollect := pushDelta_of_notMem h ⟨[], s, n⟩
  simp only [pushDelta, foldlM_append] at hcollect ⊢
  rw [hcollect]
  simp only [bind, Except.bind, foldlM_cons, nil_append, pushChar, if_true]
  cases s.processLine (n + 1) (chompCr t) <;> rfl

/-- **A text is fed line by line**: each loses one carriage return. -/
theorem pushDelta_unlines (hls : ∀ line ∈ ls, '\n' ∉ line) (hrest : '\n' ∉ rest) (n : Nat)
    (s : StreamingParserState) :
    pushDelta ⟨[], s, n⟩ (unlines ls rest) =
      (processLines n (ls.map chompCr) s).map fun s => ⟨rest, s, n + ls.length⟩ := by
  induction ls generalizing n s with
  | nil => rw [unlines_nil, pushDelta_of_notMem hrest]; rfl
  | cons line ls ih =>
    obtain ⟨hline, hls⟩ := forall_mem_cons.mp hls
    rw [unlines_cons, pushDelta_line hline]
    simp only [map_cons, processLines]
    cases s.processLine (n + 1) (chompCr line) with
    | error error => rfl
    | ok s' =>
      simp only
      rw [ih hls, length_cons, add_right_comm, add_assoc n]

end StreamingPatchParser

/-- What becomes of lines that were processed, and a rest. -/
def finishLines (ls : List Text) (rest : Text) : Except ParseError StreamingParserState :=
  match processLines 0 ls .default with
  | .error error => .error error
  | .ok s => StreamingPatchParser.finish ⟨rest, s, ls.length⟩

theorem pushDelta_finish (hls : ∀ line ∈ ls, '\n' ∉ line) (hrest : '\n' ∉ rest) :
    (match default.pushDelta (unlines ls rest) with
      | .error error => .error error
      | .ok p => p.finish) = finishLines (ls.map chompCr) rest := by
  have h := StreamingPatchParser.pushDelta_unlines hls hrest 0 .default
  rw [zero_add] at h
  rw [StreamingPatchParser.default, h, finishLines, length_map]
  cases processLines 0 (ls.map chompCr) .default <;> rfl

/-- **The streaming parser, line by line.** -/
theorem streamParse_eq (deltas : List Text) : streamParse deltas =
      finishLines ((breakLines deltas.flatten).1.map chompCr) (breakLines deltas.flatten).2 := by
  obtain ⟨heq, hls, hrest⟩ := unlines_breakLines deltas.flatten
  rw [streamParse, foldlM_pushDelta]
  conv_lhs => rw [← heq]
  exact pushDelta_finish hls hrest

theorem finish_endPatchMarker (hrest : trim rest = endPatchMarker) : finish ⟨rest, s, n⟩ =
      (s.ensureUpdateHunkIsNotEmpty (n + 1) endPatchMarker).map fun _ =>
        { s with mode := .endedPatch } := by
  have hne : rest ≠ [] := by
    rintro rfl
    cases hrest
  simp only [finish, finishLine, hne, hrest, if_true, if_false]
  cases s.ensureUpdateHunkIsNotEmpty (n + 1) endPatchMarker <;> rfl

theorem finishLines_endPatchMarker (hrest : trim rest = endPatchMarker) : finishLines ls rest =
      match processLines 0 ls .default with
      | .error error => .error error
      | .ok s =>
        (s.ensureUpdateHunkIsNotEmpty (ls.length + 1) endPatchMarker).map fun _ =>
          { s with mode := .endedPatch } := by
  unfold finishLines
  simp only [finish_endPatchMarker hrest]

/-! ## The batch parser -/

/-- The first line of the text starts a heredoc. -/
def StartsHeredoc (t : Text) : Prop := ∃ first ∈ heredocMarkers, (lines t).head? = some first

/-- The first and the last line of a text are the markers of a patch. -/
def HasMarkers (ls : List Text) (rest : Text) : Prop :=
  ls.head?.map trim = some beginPatchMarker ∧ trim rest = endPatchMarker

instance (ls : List Text) (rest : Text) : Decidable (HasMarkers ls rest) :=
  inferInstanceAs (Decidable (_ ∧ _))

theorem checkPatchBoundariesStrict_concat (ls : List Text) (rest : Text) :
    (HasMarkers ls rest → checkPatchBoundariesStrict (ls ++ [rest]) = .ok (ls ++ [rest])) ∧
      (¬ HasMarkers ls rest → ∃ error, checkPatchBoundariesStrict (ls ++ [rest]) = .error error) := by
  have hmarkers : trim rest = beginPatchMarker → trim rest ≠ endPatchMarker := by
    intro h
    rw [h]
    decide
  unfold checkPatchBoundariesStrict checkStartAndEndLinesStrict HasMarkers
  rw [getLast?_concat]
  cases ls with
  | nil =>
    refine ⟨fun h => by simp at h, fun _ => ?_⟩
    simp only [nil_append, head?_cons, Option.map_some]
    by_cases hfirst : trim rest = beginPatchMarker
    · simp [hfirst, show beginPatchMarker ≠ endPatchMarker by decide]
    · simp [hfirst]
  | cons line ls =>
    simp only [cons_append, head?_cons, Option.map_some, Option.some.injEq]
    by_cases hfirst : trim line = beginPatchMarker
    · by_cases hlast : trim rest = endPatchMarker
      · simp [hfirst, hlast]
      · simp [hfirst, hlast]
    · simp [hfirst]

theorem checkPatchBoundariesLenient_concat (hdoc : ∀ first ∈ heredocMarkers,
      (ls ++ [rest]).head? ≠ some first) :
    (HasMarkers ls rest → checkPatchBoundariesLenient (ls ++ [rest]) = .ok (ls ++ [rest])) ∧
      (¬ HasMarkers ls rest → ∃ error, checkPatchBoundariesLenient (ls ++ [rest]) = .error error) := by
  obtain ⟨hok, herror⟩ := checkPatchBoundariesStrict_concat ls rest
  unfold checkPatchBoundariesLenient
  refine ⟨fun h => by rw [hok h], fun h => ?_⟩
  obtain ⟨error, herror⟩ := herror h
  rw [herror]
  cases hfirst : (ls ++ [rest]).head? with
  | none => exact ⟨error, rfl⟩
  | some first =>
    have hnot : first ∉ heredocMarkers := fun hmem => hdoc first hmem hfirst
    simp [hnot]

theorem getLast?_of_trim {c : Char} (htrim : trim t = t) (hlast : t.getLast? = some c) :
    isWhitespace c = false := by
  have hne : (trimStart t).rdropWhile isWhitespace ≠ [] := by
    show trim t ≠ []
    rw [htrim]
    rintro rfl
    cases hlast
  have hnot := rdropWhile_last_not isWhitespace (trimStart t) hne
  have hlast' : (trim t).getLast? = some c := htrim.symm ▸ hlast
  have : ((trimStart t).rdropWhile isWhitespace).getLast hne = c :=
    Option.some.inj ((getLast?_eq_some_getLast hne).symm.trans hlast')
  rw [this] at hnot
  simpa using hnot

theorem rest_ne_nil_of_trim (htrim : trim t = t) (hne : t ≠ []) : (breakLines t).2 ≠ [] := by
  intro hrest
  obtain ⟨heq, _, _⟩ := unlines_breakLines t
  rw [hrest] at heq
  have hconcat : ∃ front, t = front ++ ['\n'] := by
    rcases eq_nil_or_concat (breakLines t).1 with hnil | ⟨ls, line, hls⟩
    · rw [hnil] at heq
      exact absurd heq.symm hne
    · refine ⟨unlines ls line, heq.symm.trans ?_⟩
      rw [hls]
      simp [unlines]
  obtain ⟨front, rfl⟩ := hconcat
  have := getLast?_of_trim htrim (getLast?_concat ..)
  cases this

theorem parsePatch_of_markers {patch : Text} (hls : ∀ line ∈ ls, '\n' ∉ line) (hrest : '\n' ∉ rest)
    (hlines : lines (trim patch) = ls ++ [rest])
    (hcheck : checkPatchBoundariesLenient (ls ++ [rest]) = .ok (ls ++ [rest])) :
    parsePatch patch = (finishLines (ls.map chompCr) rest).map fun s =>
      ⟨unlines ls rest, s.hunks, none, s.environmentId⟩ := by
  have hfinish := pushDelta_finish hls hrest
  simp only [parsePatch, parsePatchText, hlines, hcheck, bind, Except.bind, join_concat]
  cases hpush : default.pushDelta (unlines ls rest) with
  | error error =>
    rw [hpush] at hfinish
    rw [← hfinish]
    rfl
  | ok p =>
    rw [hpush] at hfinish
    simp only at hfinish ⊢
    rw [hfinish]
    cases finishLines (ls.map chompCr) rest <;> rfl

/-- **The batch parser, line by line**: what it accepts has the markers of a patch, and each line
loses up to two carriage returns. -/
theorem parsePatch_eq (htrim : trim t = t) (hdoc : ¬ StartsHeredoc t) :
    ((parsePatch t).map fun args => (args.hunks, args.environmentId)).toOption =
      if HasMarkers (breakLines t).1 (breakLines t).2 then
        ((finishLines ((breakLines t).1.map (chompCr ∘ chompCr)) (breakLines t).2).map fun s =>
          (s.hunks, s.environmentId)).toOption
      else none := by
  by_cases hne : t = []
  · subst hne
    decide
  · obtain ⟨_, hls, hrest⟩ := unlines_breakLines t
    have hlines : lines (trim t) = (breakLines t).1.map chompCr ++ [(breakLines t).2] := by
      rw [htrim, lines, if_neg (rest_ne_nil_of_trim htrim hne)]
    have hmarkers : HasMarkers ((breakLines t).1.map chompCr) (breakLines t).2 ↔
        HasMarkers (breakLines t).1 (breakLines t).2 := by
      unfold HasMarkers
      cases (breakLines t).1 <;> simp [trim_chompCr]
    obtain ⟨hok, herror⟩ := checkPatchBoundariesLenient_concat
      (fun first hmem heq => hdoc ⟨first, hmem, by rwa [← htrim, hlines]⟩)
    by_cases hmark : HasMarkers (breakLines t).1 (breakLines t).2
    · rw [if_pos hmark, parsePatch_of_markers _ hrest hlines (hok (hmarkers.mpr hmark)), map_map]
      · cases finishLines ((breakLines t).1.map (chompCr ∘ chompCr)) (breakLines t).2 <;> rfl
      · intro line hmem
        obtain ⟨raw, hraw, rfl⟩ := mem_map.mp hmem
        exact notMem_chompCr (hls raw hraw)
    · obtain ⟨error, herror⟩ := herror (mt hmarkers.mp hmark)
      rw [if_neg hmark]
      simp only [parsePatch, parsePatchText, hlines, herror, bind, Except.bind]
      rfl

/-! ## What is parsed -/

/-- What a parse returns: the hunks and the environment id. -/
def ApplyPatchArgs.parsed (args : ApplyPatchArgs) : List Hunk × Option Text :=
  (args.hunks, args.environmentId)

/-- What a finished parser returns. -/
def StreamingParserState.parsed (s : StreamingParserState) : List Hunk × Option Text :=
  (s.hunks, s.environmentId)

end NovumAgent.ApplyPatch
