import NovumAgent.StreamParser.InlineHiddenTag
import NovumAgent.StreamParser.TaggedLine

/-!
# The text of the assistant

Citations are taken out of the text of the assistant as it comes, and in plan mode the lines between the tags of a
plan are told from the others. Two parsers are put behind each other, each of which holds back what may be a tag.

`reference` says the same of a whole text in two steps: without the citations, and then line by line.
`stream_parse_exact` is that the chunks do not matter.
-/

namespace NovumAgent.StreamParser

open List Text TaggedLineParser InlineHiddenTagParser

/-! ## Citations -/

inductive CitationTag where
  | citation

/-- The tags of citations, `CITATION_OPEN` and `CITATION_CLOSE`. -/
def citationSpec : InlineTagSpec CitationTag where
  tag := .citation
  open_ := "<oai-mem-citation>".toList
  close := "</oai-mem-citation>".toList
  open_ne_nil := by decide
  close_ne_nil := by decide

structure CitationStreamParser where
  inner : InlineHiddenTagParser CitationTag

namespace CitationStreamParser

def new : CitationStreamParser := ⟨.new [citationSpec]⟩

def pushStr (parser : CitationStreamParser) (chunk : Text) : CitationStreamParser × StreamTextChunk Text :=
  let (inner, out) := parser.inner.pushStr chunk
  (⟨inner⟩, out.map (·.content))

def finish (parser : CitationStreamParser) : CitationStreamParser × StreamTextChunk Text :=
  let (inner, out) := parser.inner.finish
  (⟨inner⟩, out.map (·.content))

end CitationStreamParser

/-! ## Plans -/

inductive PlanTag where
  | proposedPlan
deriving DecidableEq

def openTag : Text := "<proposed_plan>".toList

def closeTag : Text := "</proposed_plan>".toList

/-- The tags of plans. -/
def planSpec : TagSpec PlanTag := ⟨openTag, closeTag, .proposedPlan⟩

inductive ProposedPlanSegment where
  | normal (text : Text)
  | proposedPlanStart
  | proposedPlanDelta (text : Text)
  | proposedPlanEnd

/-- The mapping of `map_segments`. -/
def ProposedPlanSegment.ofTagged : TaggedLineSegment PlanTag → ProposedPlanSegment
  | .normal text => .normal text
  | .tagStart .proposedPlan => .proposedPlanStart
  | .tagDelta .proposedPlan text => .proposedPlanDelta text
  | .tagEnd .proposedPlan => .proposedPlanEnd

/-- The text of a segment that is shown. -/
def ProposedPlanSegment.visible : ProposedPlanSegment → Text
  | .normal text => text
  | _ => []

def mapSegments (segments : List (TaggedLineSegment PlanTag)) : StreamTextChunk ProposedPlanSegment :=
  let mapped := segments.map ProposedPlanSegment.ofTagged
  ⟨mapped.flatMap ProposedPlanSegment.visible, mapped⟩

structure ProposedPlanParser where
  parser : TaggedLineParser PlanTag

namespace ProposedPlanParser

def new : ProposedPlanParser := ⟨.new [planSpec]⟩

def pushStr (plan : ProposedPlanParser) (chunk : Text) :
    ProposedPlanParser × StreamTextChunk ProposedPlanSegment :=
  let (parser, segments) := plan.parser.parse chunk
  (⟨parser⟩, mapSegments segments)

def finish (plan : ProposedPlanParser) : ProposedPlanParser × StreamTextChunk ProposedPlanSegment :=
  let (parser, segments) := plan.parser.finish
  (⟨parser⟩, mapSegments segments)

end ProposedPlanParser

/-! ## Both -/

@[ext]
structure AssistantTextChunk where
  visibleText : Text
  citations : List Text
  planSegments : List ProposedPlanSegment

/-- One chunk after another. -/
instance : Append AssistantTextChunk where
  append a b := ⟨a.visibleText ++ b.visibleText, a.citations ++ b.citations, a.planSegments ++ b.planSegments⟩

/-- The tail of the plan parser, if it is not empty. -/
def AssistantTextChunk.appendTail (out : AssistantTextChunk) (tail : StreamTextChunk ProposedPlanSegment) :
    AssistantTextChunk :=
  if tail.visibleText = [] ∧ tail.extracted = [] then out
  else
    { out with
      visibleText := out.visibleText ++ tail.visibleText
      planSegments := out.planSegments ++ tail.extracted }

structure AssistantTextStreamParser where
  planMode : Bool
  citations : CitationStreamParser
  plan : ProposedPlanParser

namespace AssistantTextStreamParser

def new (planMode : Bool) : AssistantTextStreamParser := ⟨planMode, .new, .new⟩

def parseVisibleText (parser : AssistantTextStreamParser) (visibleText : Text) :
    AssistantTextStreamParser × AssistantTextChunk :=
  if !parser.planMode then (parser, ⟨visibleText, [], []⟩)
  else
    let (plan, planChunk) := parser.plan.pushStr visibleText
    ({ parser with plan := plan }, ⟨planChunk.visibleText, [], planChunk.extracted⟩)

def pushStr (parser : AssistantTextStreamParser) (chunk : Text) :
    AssistantTextStreamParser × AssistantTextChunk :=
  let (citations, citationChunk) := parser.citations.pushStr chunk
  let (parser, out) := { parser with citations := citations }.parseVisibleText citationChunk.visibleText
  (parser, { out with citations := citationChunk.extracted })

def finish (parser : AssistantTextStreamParser) : AssistantTextStreamParser × AssistantTextChunk :=
  let (citations, citationChunk) := parser.citations.finish
  let (parser, out) := { parser with citations := citations }.parseVisibleText citationChunk.visibleText
  let (parser, out) :=
    if parser.planMode then
      let (plan, tail) := parser.plan.finish
      ({ parser with plan := plan }, out.appendTail tail)
    else (parser, out)
  (parser, { out with citations := citationChunk.extracted })

/-- `push_str` for each chunk, and `finish`. -/
def parseChunks (parser : AssistantTextStreamParser) : List Text → AssistantTextChunk
  | [] => parser.finish.2
  | chunk :: chunks => (parser.pushStr chunk).2 ++ (parser.pushStr chunk).1.parseChunks chunks

end AssistantTextStreamParser

/-! ## The whole text -/

/-- One more segment at the front: one without text is none, and one like the next is one with it. -/
def consSegment (segment : ProposedPlanSegment) (segments : List ProposedPlanSegment) :
    List ProposedPlanSegment :=
  match segment, segments with
  | .normal [], segments => segments
  | .proposedPlanDelta [], segments => segments
  | .normal text, .normal next :: segments => .normal (text ++ next) :: segments
  | .proposedPlanDelta text, .proposedPlanDelta next :: segments =>
    .proposedPlanDelta (text ++ next) :: segments
  | segment, segments => segment :: segments

/-- Segments of which neighbours are merged. -/
def mergeSegments (segments : List ProposedPlanSegment) : List ProposedPlanSegment :=
  segments.foldr consSegment []

/-- The chunk with its segments merged. -/
def AssistantTextChunk.merged (chunk : AssistantTextChunk) : AssistantTextChunk :=
  { chunk with planSegments := mergeSegments chunk.planSegments }

/-- Every line with its segment, and whether a plan is open behind them: a line that is the tag which opens a plan
while none is open, the tag which closes it while one is, or a line of text. -/
def labelLines (planOpen : Bool) : List Text → List (Text × ProposedPlanSegment) × Bool
  | [] => ([], planOpen)
  | line :: lines =>
    let (label, planOpen) : ProposedPlanSegment × Bool :=
      if planOpen then
        if trim line = closeTag then (.proposedPlanEnd, false) else (.proposedPlanDelta line, true)
      else if trim line = openTag then (.proposedPlanStart, true) else (.normal line, false)
    let (labelled, planOpen) := labelLines planOpen lines
    ((line, label) :: labelled, planOpen)

/-- The end of a plan that is still open. -/
def closing (planOpen : Bool) : List ProposedPlanSegment := if planOpen then [.proposedPlanEnd] else []

/-- The segments of a text without citations. -/
def planSegments (text : Text) : List ProposedPlanSegment :=
  let (labelled, planOpen) := labelLines false (splitInclusive text)
  labelled.map (·.2) ++ closing planOpen

/-- The lines outside of plans, without the tags. -/
def outsideLines (planOpen : Bool) : List Text → List Text
  | [] => []
  | line :: lines =>
    if planOpen then outsideLines (trim line ≠ closeTag) lines
    else if trim line = openTag then outsideLines true lines
    else line :: outsideLines false lines

/-- What is to be said of a whole text: its citations are taken out, and in plan mode what is left is cut at the
lines that are tags. -/
def reference (planMode : Bool) (text : Text) : AssistantTextChunk :=
  let hidden := InlineHiddenTagParser.hideSpans citationSpec text
  if planMode then
    ⟨(outsideLines false (splitInclusive hidden.visibleText)).flatten, hidden.extracted,
      mergeSegments (planSegments hidden.visibleText)⟩
  else ⟨hidden.visibleText, hidden.extracted, []⟩

/-- Plans start and end in turns, with their text between. -/
def wellBracketed : Bool → List ProposedPlanSegment → Bool
  | planOpen, [] => !planOpen
  | false, .normal _ :: segments => wellBracketed false segments
  | false, .proposedPlanStart :: segments => wellBracketed true segments
  | true, .proposedPlanDelta _ :: segments => wellBracketed true segments
  | true, .proposedPlanEnd :: segments => wellBracketed false segments
  | _, _ => false

/-! ## Letters of plans -/

/-- The letters of a segment. -/
def ProposedPlanSegment.letters : ProposedPlanSegment → List (Letter PlanTag)
  | .normal text => text.map .normal
  | .proposedPlanStart => [.tagStart .proposedPlan]
  | .proposedPlanDelta text => text.map (.tagDelta .proposedPlan)
  | .proposedPlanEnd => [.tagEnd .proposedPlan]

/-- The letters of some segments. -/
def planLetters (segments : List ProposedPlanSegment) : List (Letter PlanTag) :=
  segments.flatMap ProposedPlanSegment.letters

/-- A letter as a segment. -/
def Letter.segment : Letter PlanTag → ProposedPlanSegment
  | .normal c => .normal [c]
  | .tagStart .proposedPlan => .proposedPlanStart
  | .tagDelta .proposedPlan c => .proposedPlanDelta [c]
  | .tagEnd .proposedPlan => .proposedPlanEnd

theorem planLetters_append (segments others : List ProposedPlanSegment) :
    planLetters (segments ++ others) = planLetters segments ++ planLetters others :=
  flatMap_append

open ProposedPlanSegment

theorem planLetters_ofTagged (segments : List (TaggedLineSegment PlanTag)) :
    planLetters (segments.map ofTagged) = lettersOf segments := by
  unfold planLetters lettersOf
  rw [flatMap_map]
  refine congrArg (fun f => segments.flatMap f) (funext fun segment => ?_)
  cases segment with
  | normal text => rfl
  | tagStart tag => rfl
  | tagDelta tag text => rfl
  | tagEnd tag => rfl

theorem consSegment_normal (c : Char) (text : Text) (segments : List ProposedPlanSegment) :
    consSegment (.normal (c :: text)) segments =
      consSegment (.normal [c]) (consSegment (.normal text) segments) := by
  cases text with
  | nil => rfl
  | cons d text =>
    cases segments with
    | nil => rfl
    | cons first segments => cases first <;> rfl

theorem consSegment_delta (c : Char) (text : Text) (segments : List ProposedPlanSegment) :
    consSegment (.proposedPlanDelta (c :: text)) segments =
      consSegment (.proposedPlanDelta [c]) (consSegment (.proposedPlanDelta text) segments) := by
  cases text with
  | nil => rfl
  | cons d text =>
    cases segments with
    | nil => rfl
    | cons first segments => cases first <;> rfl

theorem foldr_letters (segment : ProposedPlanSegment) (segments : List ProposedPlanSegment) :
    segment.letters.foldr (fun letter => consSegment letter.segment) segments =
      consSegment segment segments := by
  cases segment with
  | normal text =>
    induction text with
    | nil => rfl
    | cons c text ih =>
      rw [consSegment_normal, ← ih]
      rfl
  | proposedPlanDelta text =>
    induction text with
    | nil => rfl
    | cons c text ih =>
      rw [consSegment_delta, ← ih]
      rfl
  | proposedPlanStart => rfl
  | proposedPlanEnd => rfl

/-- **Merged segments are their letters**: where one segment ended does not matter. -/
theorem mergeSegments_eq (segments : List ProposedPlanSegment) : mergeSegments segments =
    (planLetters segments).foldr (fun letter => consSegment letter.segment) [] := by
  induction segments with
  | nil => rfl
  | cons segment segments ih =>
    unfold planLetters at ih ⊢
    rw [flatMap_cons, foldr_append, ← ih, foldr_letters]
    rfl

theorem visible_letters (segment : ProposedPlanSegment) :
    segment.letters.flatMap (fun letter => letter.segment.visible) = segment.visible := by
  cases segment with
  | normal text =>
    unfold letters
    rw [flatMap_map]
    exact flatMap_singleton' text
  | proposedPlanDelta text =>
    unfold letters
    rw [flatMap_map]
    exact flatMap_eq_nil_iff.mpr fun _ _ => rfl
  | proposedPlanStart => rfl
  | proposedPlanEnd => rfl

theorem visible_eq (segments : List ProposedPlanSegment) : segments.flatMap visible =
      (planLetters segments).flatMap fun letter => letter.segment.visible := by
  unfold planLetters
  rw [flatMap_assoc]
  exact congrArg (fun f => segments.flatMap f) (funext fun segment => (visible_letters segment).symm)

/-! ## Lines of plans -/

/-- The tag that is active while a plan is open. -/
def activePlan (planOpen : Bool) : Option PlanTag := if planOpen then some .proposedPlan else none

variable (planOpen : Bool)

theorem tagOfLine_planSpec (line : Text) : tagOfLine [planSpec] (activePlan planOpen) line =
      if planOpen then
        if trim line = closeTag then some (.tagEnd .proposedPlan, none) else none
      else if trim line = openTag then some (.tagStart .proposedPlan, some .proposedPlan) else none := by
  have hfind : ∀ tag : Text, Option.map TagSpec.tag
      (if decide (tag = trim line) = true then some planSpec else none) =
        if trim line = tag then some .proposedPlan else none := by
    intro tag
    by_cases htag : trim line = tag
    · rw [if_pos htag, if_pos (decide_eq_true htag.symm)]
      rfl
    · rw [if_neg htag, if_neg fun hsame => htag (of_decide_eq_true hsame).symm]
      rfl
  have hopen : matchOpen [planSpec] (trim line) =
      if trim line = openTag then some .proposedPlan else none := by
    rw [matchOpen, find?_singleton]
    exact hfind openTag
  have hclose : matchClose [planSpec] (trim line) =
      if trim line = closeTag then some .proposedPlan else none := by
    rw [matchClose, find?_singleton]
    exact hfind closeTag
  unfold tagOfLine
  rw [slug_eq_trim]
  dsimp only
  rw [hopen, hclose]
  cases planOpen with
  | false =>
    rw [if_neg Bool.false_ne_true]
    by_cases htag : trim line = openTag
    · rw [if_pos htag, if_pos htag]
      rfl
    · rw [if_neg htag, if_neg htag]
      by_cases htag' : trim line = closeTag
      · rw [if_pos htag']
        rfl
      · rw [if_neg htag']
  | true =>
    rw [if_pos rfl]
    by_cases htag : trim line = closeTag
    · rw [if_pos htag, if_pos htag]
      split
      next hnone => cases hnone
      next => rfl
    · rw [if_neg htag, if_neg htag]
      split
      next hnone => cases hnone
      next => rfl

/-- The label of a line, and whether a plan is open behind it. -/
inductive Labelled (line : Text) : Bool → ProposedPlanSegment → Bool → Prop where
  | start (htag : trim line = openTag) : Labelled line false .proposedPlanStart true
  | normal (htag : trim line ≠ openTag) : Labelled line false (.normal line) false
  | stop (htag : trim line = closeTag) : Labelled line true .proposedPlanEnd false
  | delta (htag : trim line ≠ closeTag) : Labelled line true (.proposedPlanDelta line) true

theorem labelLines_cons (line : Text) (lines : List Text) :
    ∃ label next, Labelled line planOpen label next ∧ labelLines planOpen (line :: lines) =
      ((line, label) :: (labelLines next lines).1, (labelLines next lines).2) := by
  cases planOpen with
  | false =>
    by_cases htag : trim line = openTag
    · exact ⟨_, _, .start htag, by simp [labelLines, htag]⟩
    · exact ⟨_, _, .normal htag, by simp [labelLines, htag]⟩
  | true =>
    by_cases htag : trim line = closeTag
    · exact ⟨_, _, .stop htag, by simp [labelLines, htag]⟩
    · exact ⟨_, _, .delta htag, by simp [labelLines, htag]⟩

theorem segmentLines_planSpec (lines : List Text) :
    (segmentLines [planSpec] (activePlan planOpen) lines).map ofTagged =
      (labelLines planOpen lines).1.map (·.2) ++ closing (labelLines planOpen lines).2 := by
  induction lines generalizing planOpen with
  | nil =>
    cases planOpen with
    | false => rfl
    | true => rfl
  | cons line lines ih =>
    obtain ⟨label, next, hlabel, hlines⟩ := labelLines_cons planOpen line lines
    rw [hlines, segmentLines, tagOfLine_planSpec]
    cases hlabel with
    | start htag | delta htag =>
      simp only [htag]
      exact congrArg (_ :: ·) (ih true)
    | stop htag | normal htag =>
      simp only [htag]
      exact congrArg (_ :: ·) (ih false)

theorem outcome_new (text : Text) :
    (new [planSpec]).outcome text = planLetters (planSegments text) := by
  unfold planSegments
  dsimp only
  rw [← segmentLines_planSpec, planLetters_ofTagged]
  rfl

/-! ## Brackets -/

theorem wellBracketed_consSegment (segment : ProposedPlanSegment)
    (segments : List ProposedPlanSegment) (h : wellBracketed planOpen (segment :: segments) = true) :
    wellBracketed planOpen (consSegment segment segments) = true := by
  unfold consSegment
  split
  next =>
    cases planOpen with
    | false => exact h
    | true => cases h
  next =>
    cases planOpen with
    | false => cases h
    | true => exact h
  next =>
    cases planOpen with
    | false => exact h
    | true => cases h
  next =>
    cases planOpen with
    | false => cases h
    | true => exact h
  next => exact h

theorem wellBracketed_labelLines (lines : List Text) : wellBracketed planOpen (mergeSegments
      ((labelLines planOpen lines).1.map (·.2) ++ closing (labelLines planOpen lines).2)) = true := by
  induction lines generalizing planOpen with
  | nil =>
    cases planOpen with
    | false => rfl
    | true => rfl
  | cons line lines ih =>
    obtain ⟨label, next, hlabel, hlines⟩ := labelLines_cons planOpen line lines
    rw [hlines]
    refine wellBracketed_consSegment planOpen label _ ?_
    cases hlabel <;> exact ih _

/-! ## Nothing is lost -/

/-- A line's segment is its text, or it is a tag. -/
def Accounts (line : Text) (segment : ProposedPlanSegment) : Prop :=
  segment = .normal line ∨ segment = .proposedPlanDelta line ∨
    (segment = .proposedPlanStart ∧ trim line = openTag) ∨
    (segment = .proposedPlanEnd ∧ trim line = closeTag)

theorem labelLines_accounts (lines : List Text) : (labelLines planOpen lines).1.map (·.1) = lines ∧
      ∀ entry ∈ (labelLines planOpen lines).1, Accounts entry.1 entry.2 := by
  induction lines generalizing planOpen with
  | nil => exact ⟨rfl, nofun⟩
  | cons line lines ih =>
    obtain ⟨label, next, hlabel, hlines⟩ := labelLines_cons planOpen line lines
    have haccounts : Accounts line label := by
      cases hlabel with
      | start htag => exact .inr (.inr (.inl ⟨rfl, htag⟩))
      | normal => exact .inl rfl
      | stop htag => exact .inr (.inr (.inr ⟨rfl, htag⟩))
      | delta => exact .inr (.inl rfl)
    rw [hlines]
    exact ⟨congrArg (line :: ·) (ih next).1, forall_mem_cons.mpr ⟨haccounts, (ih next).2⟩⟩

/-! ## Chunks -/

namespace AssistantTextStreamParser

variable {parser : AssistantTextStreamParser}

/-- Both parsers hold back no more than they must. -/
structure Ready (parser : AssistantTextStreamParser) : Prop where
  citations : parser.citations.inner.Ready citationSpec
  plan : parser.plan.parser.Held

theorem ready_new (planMode : Bool) : Ready (new planMode) :=
  ⟨InlineHiddenTagParser.ready_new, ⟨not_mem_nil, fun _ => rfl⟩⟩

/-- The citations and the text that are still to come. -/
def remaining (parser : AssistantTextStreamParser) (text : Text) : StreamTextChunk Text :=
  parser.citations.inner.remaining citationSpec text

/-- The chunk's visible text is that of its segments. -/
def Shown (chunk : AssistantTextChunk) : Prop :=
  chunk.visibleText = chunk.planSegments.flatMap ProposedPlanSegment.visible

/-- **A push** gives out the citations that are complete, and leaves the others. -/
theorem Ready.pushStr_citations (h : Ready parser) (chunk : Text) :
    (parser.citations.pushStr chunk).1.inner.Ready citationSpec ∧
      ∀ more, (parser.citations.pushStr chunk).2 ++
        (parser.citations.pushStr chunk).1.inner.remaining citationSpec more =
          parser.remaining (chunk ++ more) :=
  h.citations.pushStr chunk

theorem Ready.pushStr_plan (h : Ready parser) (visibleText : Text) :
    (parser.plan.pushStr visibleText).1.parser.Held ∧
      ∀ more, planLetters (parser.plan.pushStr visibleText).2.extracted ++
        (parser.plan.pushStr visibleText).1.parser.outcome more =
          parser.plan.parser.outcome (visibleText ++ more) := by
  refine ⟨(@parse_outcome _ _ _ [] visibleText h.plan).1, fun more => ?_⟩
  rw [← (parse_outcome h.plan).2, ← planLetters_ofTagged]
  rfl

/-- **Chunks outside of plan mode.** -/
theorem Ready.parseChunks_plain (h : Ready parser) (hmode : parser.planMode = false) (chunks : List Text) :
    parser.parseChunks chunks = ⟨(parser.remaining chunks.flatten).visibleText,
      (parser.remaining chunks.flatten).extracted, []⟩ := by
  induction chunks generalizing parser with
  | nil =>
    obtain ⟨planMode, citations, plan⟩ := parser
    obtain rfl : planMode = false := hmode
    have hfinish : citations.finish.2 = citations.inner.remaining citationSpec [] := h.citations.finish
    show (⟨citations.finish.2.visibleText, citations.finish.2.extracted, []⟩ : AssistantTextChunk) = _
    rw [hfinish]
    rfl
  | cons chunk chunks ih =>
    obtain ⟨hready, hout⟩ := h.pushStr_citations chunk
    obtain ⟨planMode, citations, plan⟩ := parser
    obtain rfl : planMode = false := hmode
    have hlater : (⟨false, (citations.pushStr chunk).1, plan⟩ : AssistantTextStreamParser).parseChunks chunks =
        _ := ih ⟨hready, h.plan⟩ rfl
    show (⟨(citations.pushStr chunk).2.visibleText, (citations.pushStr chunk).2.extracted, []⟩ :
      AssistantTextChunk) ++ _ = _
    rw [flatten_cons, ← hout]
    exact congrArg (_ ++ ·) hlater

/-- What the tail adds is added, also when that is nothing. -/
theorem appendTail_eq (out : AssistantTextChunk) (tail : StreamTextChunk ProposedPlanSegment) :
    out.appendTail tail =
      ⟨out.visibleText ++ tail.visibleText, out.citations, out.planSegments ++ tail.extracted⟩ := by
  unfold AssistantTextChunk.appendTail
  split
  next hempty => rw [hempty.1, hempty.2, append_nil, append_nil]
  next => rfl

theorem finish_plan (citations : CitationStreamParser) (plan : ProposedPlanParser) :
    (finish ⟨true, citations, plan⟩).2 =
      ⟨(plan.pushStr citations.finish.2.visibleText).2.visibleText ++
          (plan.pushStr citations.finish.2.visibleText).1.finish.2.visibleText,
        citations.finish.2.extracted,
        (plan.pushStr citations.finish.2.visibleText).2.extracted ++
          (plan.pushStr citations.finish.2.visibleText).1.finish.2.extracted⟩ := by
  show ({ AssistantTextChunk.appendTail _ _ with citations := _ } : AssistantTextChunk) = _
  rw [appendTail_eq]
  rfl

/-- **Chunks in plan mode.** -/
theorem Ready.parseChunks_plan (h : Ready parser) (hmode : parser.planMode = true) (chunks : List Text) :
    Shown (parser.parseChunks chunks) ∧
      (parser.parseChunks chunks).citations = (parser.remaining chunks.flatten).extracted ∧
      planLetters (parser.parseChunks chunks).planSegments =
        parser.plan.parser.outcome (parser.remaining chunks.flatten).visibleText := by
  induction chunks generalizing parser with
  | nil =>
    obtain ⟨planMode, citations, plan⟩ := parser
    obtain rfl : planMode = true := hmode
    have hfinish : citations.finish.2 = citations.inner.remaining citationSpec [] := h.citations.finish
    obtain ⟨hheld, hletters⟩ := h.pushStr_plan citations.finish.2.visibleText
    dsimp only at hheld hletters
    show Shown (finish _).2 ∧ (finish _).2.citations = _ ∧ planLetters (finish _).2.planSegments = _
    rw [finish_plan, flatten_nil]
    refine ⟨?_, congrArg (·.extracted) hfinish, ?_⟩
    · exact flatMap_append.symm
    · have hend : planLetters (plan.pushStr citations.finish.2.visibleText).1.finish.2.extracted =
          (plan.pushStr citations.finish.2.visibleText).1.parser.outcome [] :=
        (planLetters_ofTagged _).trans (finish_outcome hheld)
      dsimp only
      rw [planLetters_append, hend, hletters, append_nil, hfinish]
      rfl
  | cons chunk chunks ih =>
    obtain ⟨hready, hout⟩ := h.pushStr_citations chunk
    obtain ⟨hheld, hletters⟩ := h.pushStr_plan (parser.citations.pushStr chunk).2.visibleText
    obtain ⟨planMode, citations, plan⟩ := parser
    obtain rfl : planMode = true := hmode
    dsimp only at hready hout hheld hletters
    obtain ⟨hshown, hcitations, hsegments⟩ := @ih
      ⟨true, (citations.pushStr chunk).1, (plan.pushStr (citations.pushStr chunk).2.visibleText).1⟩
      ⟨hready, hheld⟩ rfl
    rw [flatten_cons, ← hout]
    refine ⟨?_, congrArg (_ ++ ·) hcitations, ?_⟩
    · exact (congrArg (_ ++ ·) hshown).trans flatMap_append.symm
    · exact ((planLetters_append _ _).trans (congrArg (_ ++ ·) hsegments)).trans (hletters _)

end AssistantTextStreamParser

/-- What is shown of the segments of the lines is the lines outside of plans. -/
theorem flatten_outsideLines (planOpen : Bool) (lines : List Text) :
    (outsideLines planOpen lines).flatten = ((labelLines planOpen lines).1.map (·.2) ++
      closing (labelLines planOpen lines).2).flatMap ProposedPlanSegment.visible := by
  induction lines generalizing planOpen with
  | nil => cases planOpen <;> rfl
  | cons line lines ih =>
    cases planOpen with
    | true =>
      by_cases htag : trim line = closeTag <;>
        simp [outsideLines, labelLines, htag, ih, ProposedPlanSegment.visible]
    | false =>
      by_cases htag : trim line = openTag <;>
        simp [outsideLines, labelLines, htag, ih, ProposedPlanSegment.visible]

/-- **Streaming is parsing the whole text.** For every text, its chunks and both modes, the chunks pushed one after
another and finished give the visible text, the citations and the merged segments of the reference. Its segments are
well bracketed, and every line of the text without citations is in one of them, or is one of the tags. -/
theorem stream_parse_exact (planMode : Bool) (chunks : List Text) :
    ((AssistantTextStreamParser.new planMode).parseChunks chunks).merged =
        reference planMode chunks.flatten ∧
      wellBracketed false (reference planMode chunks.flatten).planSegments = true ∧
      (planMode = false ∨ ∃ (labelled : List (Text × ProposedPlanSegment)) (planOpen : Bool),
        (labelled.map (·.1)).flatten =
          (InlineHiddenTagParser.hideSpans citationSpec chunks.flatten).visibleText ∧
        (reference planMode chunks.flatten).planSegments =
          mergeSegments (labelled.map (·.2) ++ closing planOpen) ∧
        ∀ entry ∈ labelled, Accounts entry.1 entry.2) := by
  have hready := AssistantTextStreamParser.ready_new planMode
  have hremaining : ∀ text, (AssistantTextStreamParser.new planMode).remaining text =
      hideSpans citationSpec text := fun _ => rfl
  cases planMode with
  | false =>
    refine ⟨?_, rfl, .inl rfl⟩
    rw [hready.parseChunks_plain rfl, hremaining]
    rfl
  | true =>
    obtain ⟨hshown, hcitations, hletters⟩ := hready.parseChunks_plan rfl chunks
    rw [hremaining] at hcitations hletters
    have hletters := hletters.trans (outcome_new _)
    refine ⟨?_, wellBracketed_labelLines false _, .inr ?_⟩
    · refine AssistantTextChunk.ext ?_ hcitations ?_
      · refine hshown.trans ((visible_eq _).trans ?_)
        rw [hletters, ← visible_eq]
        exact (flatten_outsideLines false _).symm
      · exact (mergeSegments_eq _).trans (hletters ▸ (mergeSegments_eq _).symm)
    · obtain ⟨hlines, haccounts⟩ := labelLines_accounts false
        (splitInclusive (hideSpans citationSpec chunks.flatten).visibleText)
      refine ⟨_, _, ?_, rfl, haccounts⟩
      rw [hlines, flatten_splitInclusive]

end NovumAgent.StreamParser
