import NovumAgent.Lib.Text

/-!
# Tags that stand alone on a line

The parser cuts a text that comes in chunks at the lines that are tags. A line is held back as long as it may
become a tag; from then on its characters are given out as they come.

Segments are compared by their letters: two neighbours of one kind are as good as one segment, and a list of letters
forgets where one ended. As for the inline tags, what a state will say of the text to come is one function
(`outcome`), of which every character gives out a part.
-/

namespace NovumAgent.StreamParser

open List Text

structure TagSpec (τ : Type) where
  open_ : Text
  close : Text
  tag : τ

inductive TaggedLineSegment (τ : Type) where
  | normal (text : Text)
  | tagStart (tag : τ)
  | tagDelta (tag : τ) (text : Text)
  | tagEnd (tag : τ)

structure TaggedLineParser (τ : Type) where
  specs : List (TagSpec τ)
  activeTag : Option τ
  detectTag : Bool
  lineBuffer : Text

variable {τ : Type} [DecidableEq τ]

def pushSegment (segments : List (TaggedLineSegment τ)) (segment : TaggedLineSegment τ) :
    List (TaggedLineSegment τ) :=
  match segment with
  | .normal delta =>
    if delta = [] then segments
    else
      match segments.getLast? with
      | some (.normal existing) => segments.dropLast ++ [.normal (existing ++ delta)]
      | _ => segments ++ [.normal delta]
  | .tagDelta tag delta =>
    if delta = [] then segments
    else
      match segments.getLast? with
      | some (.tagDelta existingTag existing) =>
        if existingTag = tag then segments.dropLast ++ [.tagDelta existingTag (existing ++ delta)]
        else segments ++ [.tagDelta tag delta]
      | _ => segments ++ [.tagDelta tag delta]
  | .tagStart tag => segments ++ [.tagStart tag]
  | .tagEnd tag => segments ++ [.tagEnd tag]

/-- A text outside of tags, or in one. -/
def textSegment (activeTag : Option τ) (text : Text) : TaggedLineSegment τ :=
  match activeTag with
  | some tag => .tagDelta tag text
  | none => .normal text

namespace TaggedLineParser

def new (specs : List (TagSpec τ)) : TaggedLineParser τ := ⟨specs, none, true, []⟩

def pushText (parser : TaggedLineParser τ) (text : Text) (segments : List (TaggedLineSegment τ)) :
    List (TaggedLineSegment τ) :=
  pushSegment segments (textSegment parser.activeTag text)

def isTagPrefix (parser : TaggedLineParser τ) (slug : Text) : Bool :=
  let slug := trimEnd slug
  parser.specs.any fun spec => slug.isPrefixOf spec.open_ || slug.isPrefixOf spec.close

def matchOpen (specs : List (TagSpec τ)) (slug : Text) : Option τ :=
  (specs.find? fun spec => spec.open_ = slug).map (·.tag)

def matchClose (specs : List (TagSpec τ)) (slug : Text) : Option τ :=
  (specs.find? fun spec => spec.close = slug).map (·.tag)

/-- The tests that `finish_line` and `finish` make of a line: is it a tag, and what is active behind it? -/
def tagOfLine (specs : List (TagSpec τ)) (activeTag : Option τ) (line : Text) :
    Option (TaggedLineSegment τ × Option τ) :=
  let slug := trimEnd (trimStart ((stripLast '\n' line).getD line))
  match matchOpen specs slug, activeTag with
  | some tag, none => some (.tagStart tag, some tag)
  | _, activeTag =>
    match matchClose specs slug with
    | some tag => if activeTag = some tag then some (.tagEnd tag, none) else none
    | none => none

def finishLine (parser : TaggedLineParser τ) (segments : List (TaggedLineSegment τ)) :
    TaggedLineParser τ × List (TaggedLineSegment τ) :=
  let line := parser.lineBuffer
  match tagOfLine parser.specs parser.activeTag line with
  | some (segment, activeTag) =>
    ({ parser with lineBuffer := [], activeTag := activeTag, detectTag := true },
      pushSegment segments segment)
  | none =>
    ({ parser with lineBuffer := [], detectTag := true }, parser.pushText line segments)

/-- What `parse` has in its hands. -/
structure ParseState (τ : Type) where
  parser : TaggedLineParser τ
  run : Text
  segments : List (TaggedLineSegment τ)

/-- The run, given out. -/
def ParseState.flush (state : ParseState τ) : ParseState τ :=
  if state.run = [] then state
  else { state with run := [], segments := state.parser.pushText state.run state.segments }

/-- The body of the loop of `parse`. -/
def ParseState.step (state : ParseState τ) (ch : Char) : ParseState τ :=
  if state.parser.detectTag then
    let state := state.flush
    let line := state.parser.lineBuffer ++ [ch]
    let parser := { state.parser with lineBuffer := line }
    if ch = '\n' then
      let (parser, segments) := parser.finishLine state.segments
      { state with parser := parser, segments := segments }
    else
      let slug := trimStart line
      if slug = [] || parser.isTagPrefix slug then { state with parser := parser }
      else
        { state with
          parser := { parser with lineBuffer := [], detectTag := false }
          segments := parser.pushText line state.segments }
  else
    let state := { state with run := state.run ++ [ch] }
    if ch = '\n' then
      { state with
        parser := { state.parser with detectTag := true }
        run := []
        segments := state.parser.pushText state.run state.segments }
    else state

def parse (parser : TaggedLineParser τ) (delta : Text) :
    TaggedLineParser τ × List (TaggedLineSegment τ) :=
  let state := (delta.foldl ParseState.step ⟨parser, [], []⟩).flush
  (state.parser, state.segments)

def finish (parser : TaggedLineParser τ) : TaggedLineParser τ × List (TaggedLineSegment τ) :=
  let (activeTag, segments) :=
    if parser.lineBuffer = [] then (parser.activeTag, [])
    else
      match tagOfLine parser.specs parser.activeTag parser.lineBuffer with
      | some (segment, activeTag) => (activeTag, pushSegment [] segment)
      | none => (parser.activeTag, parser.pushText parser.lineBuffer [])
  ({ parser with lineBuffer := [], activeTag := none, detectTag := true },
    match activeTag with
    | some tag => pushSegment segments (.tagEnd tag)
    | none => segments)

end TaggedLineParser

/-! ## Letters -/

/-- A letter outside of tags or in one, or a tag. -/
inductive Letter (τ : Type) where
  | normal (c : Char)
  | tagStart (tag : τ)
  | tagDelta (tag : τ) (c : Char)
  | tagEnd (tag : τ)

/-- The letters of a segment. -/
def TaggedLineSegment.letters : TaggedLineSegment τ → List (Letter τ)
  | .normal text => text.map .normal
  | .tagStart tag => [.tagStart tag]
  | .tagDelta tag text => text.map (.tagDelta tag)
  | .tagEnd tag => [.tagEnd tag]

/-- The letters of some segments. -/
def lettersOf (segments : List (TaggedLineSegment τ)) : List (Letter τ) :=
  segments.flatMap TaggedLineSegment.letters

section

omit [DecidableEq τ]

variable {segments : List (TaggedLineSegment τ)} {activeTag : Option τ} {text more : Text}

theorem lettersOf_concat {segment : TaggedLineSegment τ} :
    lettersOf (segments ++ [segment]) = lettersOf segments ++ segment.letters := by
  rw [lettersOf, flatMap_append, flatMap_singleton]
  rfl

theorem letters_textSegment_append : (textSegment activeTag (text ++ more)).letters =
    (textSegment activeTag text).letters ++ (textSegment activeTag more).letters := by
  cases activeTag with
  | none => exact map_append
  | some tag => exact map_append

theorem letters_textSegment_nil : (textSegment activeTag []).letters = [] := by
  cases activeTag with
  | none => rfl
  | some tag => rfl

end

theorem lettersOf_pushSegment {segments : List (TaggedLineSegment τ)} {segment : TaggedLineSegment τ} :
    lettersOf (pushSegment segments segment) = lettersOf segments ++ segment.letters := by
  have hlast : ∀ last, segments.getLast? = some last →
      lettersOf segments = lettersOf segments.dropLast ++ last.letters := by
    intro last hsome
    rw [← lettersOf_concat, dropLast_append_getLast? last hsome]
  cases segment with
  | normal delta =>
    unfold pushSegment
    dsimp only
    split
    next hnil =>
      rw [hnil]
      exact (append_nil _).symm
    next =>
      split
      next existing hsome =>
        rw [lettersOf_concat, hlast _ hsome, append_assoc]
        exact congrArg _ map_append
      next => exact lettersOf_concat
  | tagDelta tag delta =>
    unfold pushSegment
    dsimp only
    split
    next hnil =>
      rw [hnil]
      exact (append_nil _).symm
    next =>
      split
      next existingTag existing hsome =>
        split
        next htag =>
          rw [lettersOf_concat, hlast _ hsome, append_assoc, htag]
          exact congrArg _ map_append
        next => exact lettersOf_concat
      next => exact lettersOf_concat
  | tagStart tag => exact lettersOf_concat
  | tagEnd tag => exact lettersOf_concat

namespace TaggedLineParser

/-! ## The lines of the whole text -/

section

variable (specs : List (TagSpec τ))

/-- One segment for each line, and an end for the tag that is still active. -/
def segmentLines (activeTag : Option τ) : List Text → List (TaggedLineSegment τ)
  | [] => activeTag.toList.map .tagEnd
  | line :: lines =>
    match tagOfLine specs activeTag line with
    | some (segment, activeTag) => segment :: segmentLines activeTag lines
    | none => textSegment activeTag line :: segmentLines activeTag lines

/-- What is said of a text that begins with a line. -/
def lineOutcome (activeTag : Option τ) (text : Text) : List (Letter τ) :=
  lettersOf (segmentLines specs activeTag (splitInclusive text))

/-- What is said of a text that begins in a line which is no tag. -/
def textOutcome (activeTag : Option τ) : Text → List (Letter τ)
  | [] => lineOutcome specs activeTag []
  | c :: text =>
    (textSegment activeTag [c]).letters ++
      if c = '\n' then lineOutcome specs activeTag text else textOutcome activeTag text

end

/-- What a state says of the text that is still to come. -/
def outcome (parser : TaggedLineParser τ) (text : Text) : List (Letter τ) :=
  if parser.detectTag then lineOutcome parser.specs parser.activeTag (parser.lineBuffer ++ text)
  else textOutcome parser.specs parser.activeTag text

/-- A line that is held back is not at its end, and one that is not has no characters held back. -/
structure Held (parser : TaggedLineParser τ) : Prop where
  notMem : '\n' ∉ parser.lineBuffer
  nil_of_not : parser.detectTag = false → parser.lineBuffer = []

section

variable {specs : List (TagSpec τ)} {activeTag : Option τ} {line more : Text} {parser : TaggedLineParser τ}

theorem slug_eq_trim : trimEnd (trimStart ((stripLast '\n' line).getD line)) = trim line := by
  unfold stripLast
  split
  next hlast =>
    have hline : line.dropLast ++ ['\n'] = line := dropLast_append_getLast? _ hlast
    have htrim := trim_concat (t := line.dropLast) (c := '\n') rfl
    rw [hline] at htrim
    exact htrim.symm
  next => rfl

theorem trim_of_tagOfLine {found : TaggedLineSegment τ × Option τ}
    (h : tagOfLine specs activeTag line = some found) :
    ∃ spec ∈ specs, trim line = spec.open_ ∨ trim line = spec.close := by
  unfold tagOfLine at h
  rw [slug_eq_trim] at h
  dsimp only at h
  split at h
  next tag hopen =>
    obtain ⟨spec, hspec, -⟩ := Option.map_eq_some_iff.mp hopen
    have := find?_some hspec
    exact ⟨spec, mem_of_find?_eq_some hspec, .inl (of_decide_eq_true this).symm⟩
  next =>
    split at h
    next tag hclose =>
      obtain ⟨spec, hspec, -⟩ := Option.map_eq_some_iff.mp hclose
      have := find?_some hspec
      exact ⟨spec, mem_of_find?_eq_some hspec, .inr (of_decide_eq_true this).symm⟩
    next => cases h

/-- **A line that cannot become a tag** is none, whatever comes next. -/
theorem tagOfLine_eq_none (hnot : parser.isTagPrefix (trimStart line) = false) (hline : line <+: more) :
    tagOfLine parser.specs activeTag more = none := by
  rw [Option.eq_none_iff_forall_ne_some]
  intro found hfound
  obtain ⟨spec, hspec, htag⟩ := trim_of_tagOfLine hfound
  have hstart : trim line <+: trim more := trim_mono hline
  have hneither := any_eq_false.mp hnot spec hspec
  rw [Bool.or_eq_true, isPrefixOf_iff_prefix, isPrefixOf_iff_prefix] at hneither
  obtain hopen | hclose := htag
  · exact hneither (.inl (hopen ▸ hstart))
  · exact hneither (.inr (hclose ▸ hstart))

theorem lineOutcome_split {text : Text} (hsplit : splitInclusive text = line :: splitInclusive more) :
    lineOutcome specs activeTag text =
      match tagOfLine specs activeTag line with
      | some (segment, activeTag) => segment.letters ++ lineOutcome specs activeTag more
      | none => (textSegment activeTag line).letters ++ lineOutcome specs activeTag more := by
  unfold lineOutcome
  rw [hsplit, segmentLines]
  cases tagOfLine specs activeTag line with
  | none => exact flatMap_cons
  | some found => exact flatMap_cons

theorem lineOutcome_last (hne : line ≠ []) (hline : '\n' ∉ line) : lineOutcome specs activeTag line =
    match tagOfLine specs activeTag line with
    | some (segment, activeTag) => segment.letters ++ lineOutcome specs activeTag []
    | none => (textSegment activeTag line).letters ++ lineOutcome specs activeTag [] :=
  lineOutcome_split (splitInclusive_of_notMem hne hline)

theorem lineOutcome_text (hne : line ≠ []) (hline : '\n' ∉ line)
    (hnot : parser.isTagPrefix (trimStart line) = false) :
    lineOutcome parser.specs activeTag (line ++ more) =
      (textSegment activeTag line).letters ++ textOutcome parser.specs activeTag more := by
  -- the rest is read character by character, with the line that was read so far
  have hread : ∀ (more seen : Text), line <+: seen → '\n' ∉ seen →
      lineOutcome parser.specs activeTag (seen ++ more) =
        (textSegment activeTag seen).letters ++ textOutcome parser.specs activeTag more := by
    intro more
    induction more with
    | nil =>
      intro seen hseen hend
      have hseenNe : seen ≠ [] := fun hnil => hne (prefix_nil.mp (hnil ▸ hseen))
      rw [append_nil, lineOutcome_last hseenNe hend, tagOfLine_eq_none hnot hseen]
      rfl
    | cons c more ih =>
      intro seen hseen hend
      by_cases hc : c = '\n'
      · rw [hc, lineOutcome_split (splitInclusive_line hend),
          tagOfLine_eq_none hnot (hseen.trans (prefix_append _ _)), textOutcome, if_pos rfl,
          letters_textSegment_append, append_assoc]
      · have hend' : '\n' ∉ seen ++ [c] := by
          rw [mem_append, mem_singleton]
          exact not_or.mpr ⟨hend, Ne.symm hc⟩
        rw [append_cons, ih _ (hseen.trans (prefix_append _ _)) hend', textOutcome, if_neg hc,
          letters_textSegment_append, append_assoc]
  exact hread more line prefix_rfl hline

theorem lettersOf_pushText {segments : List (TaggedLineSegment τ)} {text : Text} :
    lettersOf (parser.pushText text segments) =
      lettersOf segments ++ (textSegment parser.activeTag text).letters :=
  lettersOf_pushSegment

end

/-! ## The loop -/

section

variable {state : ParseState τ} {parser : TaggedLineParser τ} {c : Char} {more : Text}

/-- What was said, what is in the run, and what will be said. -/
def ParseState.outcome (state : ParseState τ) (text : Text) : List (Letter τ) :=
  lettersOf state.segments ++ ((textSegment state.parser.activeTag state.run).letters ++
    state.parser.outcome text)

open ParseState

theorem ParseState.flush_outcome : state.flush.parser = state.parser := by
  unfold flush
  split <;> rfl

theorem ParseState.flush_run : state.flush.run = [] := by
  unfold flush
  split
  next hnil => exact hnil
  next => rfl

theorem ParseState.outcome_flush : state.flush.outcome more = state.outcome more := by
  unfold flush
  split
  next => rfl
  next =>
    unfold outcome
    dsimp only
    rw [lettersOf_pushText, letters_textSegment_nil, nil_append, append_assoc]

theorem outcome_finishLine {line : Text} (hbuffer : parser.lineBuffer = line ++ ['\n'])
    (hline : '\n' ∉ line) (hdetect : parser.detectTag = true) (segments : List (TaggedLineSegment τ))
    (more : Text) :
    Held (parser.finishLine segments).1 ∧
      lettersOf (parser.finishLine segments).2 ++ (parser.finishLine segments).1.outcome more =
        lettersOf segments ++ parser.outcome more := by
  have hparser : parser.outcome more =
      lineOutcome parser.specs parser.activeTag (line ++ '\n' :: more) := by
    unfold outcome
    rw [if_pos hdetect, hbuffer, append_assoc]
    rfl
  rw [hparser, lineOutcome_split (splitInclusive_line hline)]
  unfold finishLine
  dsimp only
  rw [hbuffer]
  cases tagOfLine parser.specs parser.activeTag (line ++ ['\n']) with
  | none =>
    refine ⟨⟨not_mem_nil, fun _ => rfl⟩, ?_⟩
    dsimp only
    rw [lettersOf_pushText, append_assoc]
    rfl
  | some found =>
    refine ⟨⟨not_mem_nil, fun _ => rfl⟩, ?_⟩
    dsimp only
    rw [lettersOf_pushSegment, append_assoc]
    rfl

/-- **One character** gives out a part of what the state would say. -/
theorem ParseState.outcome_step (hheld : Held state.parser) :
    Held (state.step c).parser ∧ (state.step c).outcome more = state.outcome (c :: more) := by
  unfold step
  split
  next hdetect =>
    have hsame : state.flush.outcome (c :: more) = state.outcome (c :: more) := outcome_flush
    have hparser : state.flush.parser = state.parser := flush_outcome
    have hrun : state.flush.run = [] := flush_run
    rw [← hsame]
    rw [← hparser] at hheld hdetect
    generalize state.flush = state at hheld hdetect hrun
    obtain ⟨parser, run, segments⟩ := state
    obtain rfl : run = [] := hrun
    have hbuffer : ∀ text, ({ parser with lineBuffer := parser.lineBuffer ++ [c] } :
        TaggedLineParser τ).outcome text = parser.outcome (c :: text) := by
      intro text
      unfold TaggedLineParser.outcome
      rw [if_pos hdetect, if_pos hdetect, ← append_cons]
    unfold outcome
    dsimp only
    rw [letters_textSegment_nil, nil_append, ← hbuffer]
    split
    next hc =>
      subst hc
      have hended : ({ parser with lineBuffer := parser.lineBuffer ++ ['\n'] } :
          TaggedLineParser τ).lineBuffer = parser.lineBuffer ++ ['\n'] := rfl
      obtain ⟨hheld', hout⟩ := outcome_finishLine hended hheld.notMem hdetect segments more
      refine ⟨hheld', ?_⟩
      rw [← hout, letters_textSegment_nil, nil_append]
    next hc =>
      have hline : '\n' ∉ parser.lineBuffer ++ [c] := by
        rw [mem_append, mem_singleton]
        exact not_or.mpr ⟨hheld.notMem, Ne.symm hc⟩
      split
      next =>
        refine ⟨⟨hline, fun hnot => absurd (hdetect.symm.trans hnot) nofun⟩, ?_⟩
        dsimp only
        rw [letters_textSegment_nil, nil_append]
      next hnot =>
        rw [Bool.or_eq_true, not_or] at hnot
        refine ⟨⟨not_mem_nil, fun _ => rfl⟩, ?_⟩
        dsimp only
        rw [lettersOf_pushText, letters_textSegment_nil, nil_append, append_assoc]
        refine congrArg _ ?_
        have hne : parser.lineBuffer ++ [c] ≠ [] :=
          append_ne_nil_of_right_ne_nil _ (cons_ne_nil c [])
        unfold TaggedLineParser.outcome
        rw [if_pos hdetect, if_neg Bool.false_ne_true]
        exact (lineOutcome_text hne hline (Bool.eq_false_iff.mpr hnot.2)).symm
  next hdetect =>
    have hdetect : state.parser.detectTag = false := Bool.eq_false_iff.mpr hdetect
    obtain ⟨parser, run, segments⟩ := state
    have hnil : parser.lineBuffer = [] := hheld.nil_of_not hdetect
    have hread : parser.outcome (c :: more) = (textSegment parser.activeTag [c]).letters ++
        if c = '\n' then lineOutcome parser.specs parser.activeTag more
        else textOutcome parser.specs parser.activeTag more := by
      unfold TaggedLineParser.outcome
      rw [hdetect]
      rfl
    unfold outcome
    dsimp only
    rw [hread]
    split
    next hc =>
      refine ⟨⟨hheld.notMem, fun _ => hnil⟩, ?_⟩
      dsimp only
      rw [lettersOf_pushText, letters_textSegment_append, letters_textSegment_nil, nil_append,
        append_assoc, append_assoc]
      unfold TaggedLineParser.outcome
      rw [if_pos rfl, hnil]
      rfl
    next hc =>
      refine ⟨⟨hheld.notMem, fun _ => hnil⟩, ?_⟩
      rw [letters_textSegment_append, append_assoc]
      unfold TaggedLineParser.outcome
      rw [if_neg (Bool.eq_false_iff.mp hdetect)]

theorem ParseState.outcome_foldl {delta : Text} (hheld : Held state.parser) :
    Held (delta.foldl step state).parser ∧
      (delta.foldl step state).outcome more = state.outcome (delta ++ more) := by
  induction delta generalizing state with
  | nil => exact ⟨hheld, rfl⟩
  | cons c delta ih =>
    obtain ⟨hstep, hout⟩ := @outcome_step _ _ state c (delta ++ more) hheld
    obtain ⟨hrest, hlater⟩ := ih hstep
    exact ⟨hrest, hlater.trans hout⟩

/-- **What is said of a chunk** is a part of what the state would say. -/
theorem parse_outcome {delta : Text} (hheld : Held parser) : Held (parser.parse delta).1 ∧
      lettersOf (parser.parse delta).2 ++ (parser.parse delta).1.outcome more =
        parser.outcome (delta ++ more) := by
  obtain ⟨hend, hout⟩ := @outcome_foldl _ _ ⟨parser, [], []⟩ more delta hheld
  have hstart : (⟨parser, [], []⟩ : ParseState τ).outcome (delta ++ more) = parser.outcome (delta ++ more) := by
    unfold ParseState.outcome
    dsimp only
    rw [letters_textSegment_nil]
    rfl
  rw [hstart] at hout
  unfold parse
  dsimp only
  generalize delta.foldl ParseState.step ⟨parser, [], []⟩ = state at hend hout
  have hparser : state.flush.parser = state.parser := ParseState.flush_outcome
  have hrun : state.flush.run = [] := flush_run
  have hflush : state.flush.outcome more = state.outcome more := outcome_flush
  unfold ParseState.outcome at hflush
  rw [hrun, letters_textSegment_nil, nil_append] at hflush
  exact ⟨hparser ▸ hend, hflush.trans hout⟩

/-- **What is said at the end** is what the state would say of no text. -/
theorem finish_outcome (hheld : Held parser) : lettersOf parser.finish.2 = parser.outcome [] := by
  have hclose : ∀ (activeTag : Option τ) (segments : List (TaggedLineSegment τ)),
      lettersOf (match activeTag with
        | some tag => pushSegment segments (.tagEnd tag)
        | none => segments) = lettersOf segments ++ lineOutcome parser.specs activeTag [] := by
    intro activeTag segments
    cases activeTag with
    | none => exact (append_nil _).symm
    | some tag => exact lettersOf_pushSegment
  unfold finish
  by_cases hnil : parser.lineBuffer = []
  · rw [if_pos hnil]
    dsimp only
    rw [hclose]
    unfold outcome
    split
    next =>
      rw [hnil]
      rfl
    next => rfl
  · have hdetect : parser.detectTag = true := by
      rw [← Bool.not_eq_false]
      exact fun hnot => hnil (hheld.nil_of_not hnot)
    unfold outcome
    rw [if_neg hnil, if_pos hdetect, append_nil, lineOutcome_last hnil hheld.notMem]
    cases tagOfLine parser.specs parser.activeTag parser.lineBuffer with
    | none =>
      dsimp only
      rw [hclose, lettersOf_pushText]
      rfl
    | some found =>
      dsimp only
      rw [hclose, lettersOf_pushSegment]
      rfl

end

end TaggedLineParser

end NovumAgent.StreamParser
