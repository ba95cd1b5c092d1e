import Mathlib.Data.List.ModifyLast
import NovumAgent.ApplyPatch.Grammar

/-!
# Parsing undoes rendering

Each production of the grammar is followed through the parser: what its lines do to the state of the
parser, in the mode they meet it in. A text line never reads as a marker, since markers start with a
star or an at sign and text lines do not; a marker is read as itself, since trimming leaves it alone.

The parser asks for more than the grammar in one place. An update without a change is rejected, with
an error of its own, when the line behind it comes.
-/

namespace NovumAgent.ApplyPatch

open List Text StreamingParserState

/-! ## Tokens -/

section Tokens

variable {pre t line : Text} {c : Char}

theorem Clean.append (hpre : Clean pre) (h : Clean t) : Clean (pre ++ t) := by
  refine ⟨?_, ?_⟩
  · rw [mem_append]
    exact fun hmem => hmem.elim hpre.noLineFeed h.noLineFeed
  · rw [getLast?_append]
    cases hlast : t.getLast? with
    | none => exact hpre.noCarriageReturn
    | some d =>
      have hne := h.noCarriageReturn
      rwa [hlast] at hne

theorem Clean.chompCr_eq (h : Clean line) : chompCr line = line := chompCr_of_ne h.noCarriageReturn

theorem clean_of_trimEnd (hfeed : '\n' ∉ t) (h : trimEnd t = t) : Clean t := by
  refine ⟨hfeed, fun hlast => ?_⟩
  have hne : t ≠ [] := by
    rintro rfl
    cases hlast
  have hspace := rdropWhile_eq_self_iff.mp h hne
  rw [Option.some.inj ((getLast?_eq_some_getLast hne).symm.trans hlast)] at hspace
  exact hspace (by decide)

theorem Filename.clean (path : Filename) : Clean path.text :=
  clean_of_trimEnd path.noLineFeed (trimEnd_of_trim path.trimmed)

theorem Filename.trimEnd_append (path : Filename) (pre : Text) :
    trimEnd (pre ++ path.text) = pre ++ path.text :=
  Text.trimEnd_append path.nonempty (trimEnd_of_trim path.trimmed)

theorem Filename.trim_append (path : Filename) (hpre : pre.head? = some '*') :
    trim (pre ++ path.text) = pre ++ path.text := by
  obtain ⟨u, rfl⟩ : ∃ u, pre = '*' :: u := head?_eq_some_iff.mp hpre
  exact trim_of_trimEnd (by decide) (path.trimEnd_append ('*' :: u))

theorem ChangeLine.isText_render (line : ChangeLine) : IsText line.render := by
  right
  cases line <;> simp [ChangeLine.render]

end Tokens

/-! ## Headers -/

section Headers

variable {line : Text} {s s' : StreamingParserState} {n : Nat} {ls ms : List Text}

theorem processLines_append_ok (h : processLines n ls s = .ok s') :
    processLines n (ls ++ ms) s = processLines (n + ls.length) ms s' := by
  rw [processLines_append, h]
  rfl

/-- A patch was begun and has not ended. -/
def StreamingParserState.Open (s : StreamingParserState) : Prop :=
  s.mode ≠ .notStarted ∧ s.mode ≠ .endedPatch

/-- The last hunk may be left. -/
structure StreamingParserState.Ready (s : StreamingParserState) : Prop where
  isOpen : s.Open
  ensure : ∀ n line, s.ensureUpdateHunkIsNotEmpty n line = .ok ()

/-- The last hunk is an update that does not change anything yet. -/
structure StreamingParserState.Bare (s : StreamingParserState) : Prop where
  isOpen : s.Open
  ensure : ∀ n line, ∃ error, s.ensureUpdateHunkIsNotEmpty n line = .error error

/-- **A header starts its hunk in every mode**, if the hunk before it may be left. -/
theorem processLine_header {hunk : Hunk} {mode : StreamingParserMode} (hopen : s.Open)
    (htrim : trim line = line) (hid : stripPrefix environmentIdMarker line = none)
    (hheader : hunkHeader n line = some (hunk, mode)) :
    s.processLine n line = (s.ensureUpdateHunkIsNotEmpty n line).map fun _ =>
      ⟨mode, s.hunks ++ [hunk], s.environmentId⟩ := by
  have hend : line ≠ endPatchMarker := by
    rintro rfl
    cases hheader
  have hhandle := handle_header n (.inr hid) (s := s)
  simp only [if_neg hend, hheader] at hhandle
  obtain ⟨hstarted, hended⟩ := hopen
  cases hmode : s.mode with
  | notStarted => exact absurd hmode hstarted
  | endedPatch => exact absurd hmode hended
  | startedPatch | deleteFile =>
    simp only [processLine, hmode, processHeaderLine, htrim, hhandle]
    cases s.ensureUpdateHunkIsNotEmpty n line <;> rfl
  | addFile =>
    simp only [processLine, hmode, processAddLine, htrim, hhandle]
    cases s.ensureUpdateHunkIsNotEmpty n line <;> rfl
  | updateFile k =>
    simp only [processLine, hmode, processUpdateLine, trimEnd_of_trim htrim, hhandle]
    cases s.ensureUpdateHunkIsNotEmpty n line <;> rfl

/-- The hunk that the header of a hunk starts. -/
def HunkSource.start : HunkSource → Hunk
  | add path _ => .addFile path.text []
  | delete path => .deleteFile path.text
  | update path _ _ => .updateFile path.text none []

/-- The mode in which its header leaves the parser. -/
def HunkSource.mode (n : Nat) : HunkSource → StreamingParserMode
  | add _ _ => .addFile
  | delete _ => .deleteFile
  | update _ _ _ => .updateFile n

/-- The header of a hunk. -/
def HunkSource.header : HunkSource → Text
  | add path _ => addFileMarker ++ path.text
  | delete path => deleteFileMarker ++ path.text
  | update path _ _ => updateFileMarker ++ path.text

/-- The lines behind the header of a hunk. -/
def HunkSource.body : HunkSource → List Text
  | add _ lines => lines.map ('+' :: ·.text)
  | delete _ => []
  | update _ moveTo change =>
    moveTo.toList.map (moveToMarker ++ ·.text) ++ change.toList.flatMap Change.render

theorem HunkSource.render_eq (h : HunkSource) : h.render = h.header :: h.body := by
  cases h <;> rfl

theorem HunkSource.hunkHeader_header (h : HunkSource) (n : Nat) :
    hunkHeader n h.header = some (h.start, h.mode n) := by
  cases h <;> rfl

/-- **The header of a hunk is read as itself.** -/
theorem HunkSource.processLine_header (h : HunkSource) (hopen : s.Open) (n : Nat) :
    s.processLine n h.header = (s.ensureUpdateHunkIsNotEmpty n h.header).map fun _ =>
      ⟨h.mode n, s.hunks ++ [h.start], s.environmentId⟩ := by
  apply ApplyPatch.processLine_header hopen
  · cases h with
    | add path | delete path | update path => exact path.trim_append (by decide)
  · cases h <;> rfl
  · exact h.hunkHeader_header n

end Headers

/-! ## The lines of a new file -/

section Bodies

variable {n : Nat} {hs : List Hunk} {environmentId : Option Text} {path : Text}

theorem processLine_add (text contents : Text) : processLine n ('+' :: text)
        ⟨.addFile, hs ++ [.addFile path contents], environmentId⟩ =
      .ok ⟨.addFile, hs ++ [.addFile path (contents ++ text ++ ['\n'])], environmentId⟩ := by
  obtain ⟨u, hu⟩ := trim_cons (t := text) (show isWhitespace '+' = false by decide)
  have hhandle : handleHunkHeadersAndEndPatch n (trim ('+' :: text))
      ⟨.addFile, hs ++ [.addFile path contents], environmentId⟩ = .ok none := by
    apply handle_of_head (by rintro ⟨⟩)
    rw [hu]
    rintro ⟨⟩
  simp only [processLine, processAddLine, hhandle, getLast?_concat, dropLast_concat]

theorem processLines_add (lines : List LineText) (contents : Text) :
    processLines n (lines.map ('+' :: ·.text))
        ⟨.addFile, hs ++ [.addFile path contents], environmentId⟩ =
      .ok ⟨.addFile, hs ++ [.addFile path (contents ++ lines.flatMap (·.text ++ ['\n']))],
        environmentId⟩ := by
  induction lines generalizing n contents with
  | nil => simp [processLines]
  | cons line lines ih =>
    simp only [map_cons, processLines, processLine_add]
    rw [ih]
    simp

/-! ## The lines of an update -/

/-- An update that was started: its line, its path, and what the patch had before it. -/
structure OpenUpdate where
  hunkLineNumber : Nat
  path : Text
  hunks : List Hunk
  environmentId : Option Text

/-- The parser in an update. -/
def OpenUpdate.state (u : OpenUpdate) (movePath : Option Text) (chunks : List UpdateFileChunk) :
    StreamingParserState :=
  ⟨.updateFile u.hunkLineNumber, u.hunks ++ [.updateFile u.path movePath chunks], u.environmentId⟩

variable {u : OpenUpdate} {movePath : Option Text} {chunks : List UpdateFileChunk}

theorem processLine_state {line : Text} {movePath' : Option Text} {chunks' : List UpdateFileChunk}
    (hhandle : (u.state movePath chunks).handleHunkHeadersAndEndPatch n (trimEnd line) = .ok none)
    (hline : updateHunkLine line movePath chunks = .ok (movePath', chunks')) :
    (u.state movePath chunks).processLine n line = .ok (u.state movePath' chunks') := by
  unfold processLine processUpdateLine
  rw [hhandle]
  simp only [OpenUpdate.state, getLast?_concat, dropLast_concat, hline]

/-- What a change line does to a chunk. -/
def ChangeLine.push : ChangeLine → UpdateFileChunk → UpdateFileChunk
  | context line => .pushContextLine line.text
  | add line => fun chunk => { chunk with newLines := chunk.newLines ++ [line.text] }
  | remove line => fun chunk => { chunk with oldLines := chunk.oldLines ++ [line.text] }

/-- **A change line is taken as text, whatever it holds**, unless the last chunk was ended. -/
theorem processLine_change (line : ChangeLine) (heof : lastChunkIsEof chunks = false) :
    (u.state movePath chunks).processLine n line.render =
      .ok (u.state movePath (editLastChunk line.push chunks)) := by
  have hhead := line.isText_render.head_trimEnd
  apply processLine_state
  · exact handle_of_head (by rintro ⟨⟩) fun h => (hhead '*' h).1 rfl
  · rw [updateHunkLine, updateMarkerLine_text heof hhead]
    cases line <;> rfl

variable {chunk : UpdateFileChunk}

theorem processLines_changes (lines : List ChangeLine) (heof : chunk.isEndOfFile = false) :
    processLines n (lines.map ChangeLine.render) (u.state movePath (chunks ++ [chunk])) =
      .ok (u.state movePath
        (chunks ++ [lines.foldl (fun chunk line => line.push chunk) chunk])) := by
  induction lines generalizing n chunk with
  | nil => rfl
  | cons line lines ih =>
    have hlast : lastChunkIsEof (chunks ++ [chunk]) = false := by simp [lastChunkIsEof, heof]
    have hpush : (line.push chunk).isEndOfFile = false := by cases line <;> exact heof
    simp only [map_cons, processLines, processLine_change line hlast]
    rw [show editLastChunk line.push (chunks ++ [chunk]) = chunks ++ [line.push chunk] by
      simp [editLastChunk], ih hpush]
    rfl

/-- **The lines of a chunk, collected**: the old and the new lines, and the positions of those that
are both. -/
theorem foldl_push (lines : List ChangeLine) (chunk : UpdateFileChunk) :
    lines.foldl (fun chunk line => line.push chunk) chunk =
      { chunk with
        oldLines := chunk.oldLines ++ lines.filterMap ChangeLine.old
        newLines := chunk.newLines ++ lines.filterMap ChangeLine.new
        contextLineIndices := chunk.contextLineIndices ++
          contextPositions chunk.oldLines.length chunk.newLines.length lines } := by
  induction lines generalizing chunk with
  | nil => simp [contextPositions]
  | cons line lines ih =>
    rw [foldl_cons, ih]
    cases line <;>
      simp [ChangeLine.push, UpdateFileChunk.pushContextLine, contextPositions, ChangeLine.old,
        ChangeLine.new, filterMap_cons]

/-- **The end-of-file marker ends a chunk that has lines.** -/
theorem processLine_endOfFile (heof : chunk.isEndOfFile = false)
    (hlines : lastChunkIsEmpty (chunks ++ [chunk]) = false) :
    (u.state movePath (chunks ++ [chunk])).processLine n eofMarker =
      .ok (u.state movePath (chunks ++ [{ chunk with isEndOfFile := true }])) := by
  have hlast : lastChunkIsEof (chunks ++ [chunk]) = false := by simp [lastChunkIsEof, heof]
  apply processLine_state
  · rw [handle_header n (.inl (by rintro ⟨⟩))]
    rfl
  · rw [updateHunkLine, show trimEnd eofMarker = eofMarker by decide]
    simp [updateMarkerLine, hlast, hlines, modifyLast_concat,
      show eofMarker ≠ emptyChangeContextMarker by decide,
      show changeContextMarker.isPrefixOf eofMarker = false by decide,
      show stripPrefix changeContextMarker eofMarker = none by decide]

/-- The chunk that a context starts. -/
def startChunk (context : Option Text) : UpdateFileChunk :=
  { UpdateFileChunk.default with changeContext := context }

theorem ChangeContext.trimEnd_render (context : ChangeContext) :
    trimEnd context.render = context.render := by
  cases context with
  | bare => decide
  | named context => exact Text.trimEnd_append context.nonempty context.trimmed

theorem ContextText.render_ne (context : ContextText) :
    (ChangeContext.named context).render ≠ emptyChangeContextMarker := by
  intro h
  have hlength := congrArg length h
  simp [ChangeContext.render, changeContextMarker, emptyChangeContextMarker] at hlength

/-- **A context marker starts a chunk**, if the one before it has lines. -/
theorem processLine_context (context : ChangeContext) (hlines : lastChunkIsEmpty chunks = false) :
    (u.state movePath chunks).processLine n context.render =
      .ok (u.state movePath (chunks ++ [startChunk context.context])) := by
  have hmove : stripPrefix moveToMarker context.render = none := by cases context <;> rfl
  have hne : context.render ≠ [] := by cases context <;> rintro ⟨⟩
  have hcontext : context.render = emptyChangeContextMarker ∨
      changeContextMarker.isPrefixOf context.render := by
    cases context with
    | bare => exact .inl rfl
    | named context => exact .inr (List.isPrefixOf_iff_prefix.mpr (prefix_append _ _))
  apply processLine_state
  · rw [context.trimEnd_render]
    exact handle_of_head (by rintro ⟨⟩) (by cases context <;> rintro ⟨⟩)
  · rw [updateHunkLine, context.trimEnd_render]
    simp only [updateMarkerLine, hne, hcontext, hmove, hlines, ite_self,
      and_false, not_true, if_false, Bool.false_eq_true]
    cases context with
    | bare => rfl
    | named context =>
      rw [if_neg (context.render_ne), ChangeContext.render, stripPrefix_append]
      rfl

/-- **A destination is read as itself**, in front of the chunks. -/
theorem processLine_moveTo (destination : Filename) :
    (u.state none []).processLine n (moveToMarker ++ destination.text) =
      .ok (u.state (some destination.text) []) := by
  apply processLine_state
  · rw [destination.trimEnd_append, handle_header n (.inl (by rintro ⟨⟩))]
    rfl
  · rw [updateHunkLine, destination.trimEnd_append]
    rfl

/-! ## Changes -/

theorem Block.lastChunkIsEmpty_concat (b : Block)
    (hold : chunk.oldLines = b.lines.filterMap ChangeLine.old)
    (hnew : chunk.newLines = b.lines.filterMap ChangeLine.new) :
    lastChunkIsEmpty (chunks ++ [chunk]) = false := by
  simp only [lastChunkIsEmpty, getLast?_concat, Option.any_some, hold, hnew]
  cases hlines : b.lines with
  | nil => exact absurd hlines b.nonempty
  | cons line lines => cases line <;> simp [filterMap_cons, ChangeLine.old, ChangeLine.new]

theorem processLines_block (b : Block) (context : Option Text) :
    processLines n b.render (u.state movePath (chunks ++ [startChunk context])) =
      .ok (u.state movePath (chunks ++ [b.chunk context])) := by
  have hchunk : b.lines.foldl (fun chunk line => line.push chunk) (startChunk context) =
      { b.chunk context with isEndOfFile := false } := by
    rw [foldl_push]
    simp [Block.chunk, startChunk, UpdateFileChunk.default]
  rw [Block.render, processLines_append_ok (processLines_changes b.lines rfl), hchunk]
  cases heof : b.endOfFile with
  | false => simp [processLines, Block.chunk, heof]
  | true =>
    simp only [if_true, processLines,
      processLine_endOfFile (show UpdateFileChunk.isEndOfFile { b.chunk context with
        isEndOfFile := false } = false from rfl) (b.lastChunkIsEmpty_concat rfl rfl)]
    rw [Block.chunk, heof]

theorem processLines_block_nil (b : Block) :
    processLines n b.render (u.state movePath []) = .ok (u.state movePath [b.chunk none]) := by
  have hblock := @processLines_block n u movePath [] b none
  rw [nil_append, nil_append] at hblock
  rw [← hblock, Block.render]
  cases hlines : b.lines with
  | nil => exact absurd hlines b.nonempty
  | cons line lines =>
    simp only [map_cons, cons_append, processLines,
      processLine_change line (show lastChunkIsEof [] = false from rfl),
      processLine_change line (show lastChunkIsEof [startChunk none] = false from rfl)]
    rfl

theorem processLines_rest (rest : List (ChangeContext × Block))
    (hlines : lastChunkIsEmpty chunks = false) :
    processLines n (rest.flatMap fun (context, block) => context.render :: block.render)
        (u.state movePath chunks) =
      .ok (u.state movePath
        (chunks ++ rest.map fun (context, block) => block.chunk context.context)) := by
  induction rest generalizing n chunks with
  | nil => simp [processLines]
  | cons chunk rest ih =>
    obtain ⟨context, block⟩ := chunk
    simp only [flatMap_cons, cons_append, processLines, processLine_context context hlines]
    rw [processLines_append_ok (processLines_block block _),
      ih (block.lastChunkIsEmpty_concat rfl rfl)]
    simp

/-- **A change makes its chunks.** -/
theorem processLines_chunks (c : Change) :
    processLines n c.render (u.state movePath []) = .ok (u.state movePath c.chunks) := by
  have hfirst : processLines n (c.context.toList.map ChangeContext.render ++ c.first.render)
        (u.state movePath []) =
      .ok (u.state movePath ([] ++ [c.first.chunk (c.context.bind ChangeContext.context)])) := by
    cases c.context with
    | none => exact processLines_block_nil c.first
    | some context =>
      simp only [Option.toList_some, map_cons, map_nil, cons_append, nil_append,
        processLines, processLine_context context (show lastChunkIsEmpty [] = false from rfl)]
      exact (processLines_block c.first context.context :
        processLines (n + 1) c.first.render (u.state movePath ([] ++ [_])) = _)
  rw [Change.render, processLines_append_ok hfirst,
    processLines_rest c.rest (c.first.lastChunkIsEmpty_concat rfl rfl)]
  rfl

end Bodies

/-! ## Hunks -/

section Hunks

variable {n : Nat} {s s' : StreamingParserState}

theorem ready_state {u : OpenUpdate} {movePath : Option Text} {chunks : List UpdateFileChunk}
    (hlines : lastChunkIsEmpty chunks = false) (hne : chunks ≠ []) :
    (u.state movePath chunks).Ready := by
  refine ⟨⟨by rintro ⟨⟩, by rintro ⟨⟩⟩, fun n line => ?_⟩
  obtain ⟨chunk, rest, rfl⟩ := exists_cons_of_ne_nil hne
  simp [ensureUpdateHunkIsNotEmpty, OpenUpdate.state, hlines]

theorem bare_state {u : OpenUpdate} {movePath : Option Text} : (u.state movePath []).Bare :=
  ⟨⟨by rintro ⟨⟩, by rintro ⟨⟩⟩, fun n line => by
    simp [ensureUpdateHunkIsNotEmpty, OpenUpdate.state]⟩

theorem Change.lastChunkIsEmpty_chunks (c : Change) : lastChunkIsEmpty c.chunks = false := by
  rcases eq_nil_or_concat c.rest with hrest | ⟨rest, ⟨context, block⟩, hrest⟩
  · rw [Change.chunks, hrest, map_nil, ← nil_append [_]]
    exact c.first.lastChunkIsEmpty_concat rfl rfl
  · rw [Change.chunks, hrest, concat_eq_append, map_append, ← cons_append]
    exact block.lastChunkIsEmpty_concat rfl rfl

theorem HunkSource.processLines_body (h : HunkSource) (n k : Nat) (hs : List Hunk)
    (environmentId : Option Text) :
    ∃ s', processLines n h.body ⟨h.mode k, hs ++ [h.start], environmentId⟩ = .ok s' ∧
      s'.hunks = hs ++ [h.hunk] ∧ s'.environmentId = environmentId ∧
      (h.HasChange → s'.Ready) ∧ (¬ h.HasChange → s'.Bare) := by
  cases h with
  | add path lines =>
    refine ⟨_, processLines_add lines [], rfl, rfl, fun _ => ⟨⟨nofun, nofun⟩, fun n line => ?_⟩,
      fun h => absurd trivial h⟩
    simp [ensureUpdateHunkIsNotEmpty]
  | delete path =>
    refine ⟨_, rfl, rfl, rfl, fun _ => ⟨⟨nofun, nofun⟩, fun n line => ?_⟩, fun h => absurd trivial h⟩
    simp [ensureUpdateHunkIsNotEmpty, HunkSource.start]
  | update path moveTo change =>
    have hmove : processLines n (moveTo.toList.map (moveToMarker ++ ·.text))
        (OpenUpdate.state ⟨k, path.text, hs, environmentId⟩ none []) =
          .ok (OpenUpdate.state ⟨k, path.text, hs, environmentId⟩ (moveTo.map (·.text)) []) := by
      cases moveTo with
      | none => rfl
      | some destination =>
        simp only [Option.toList_some, map_cons, map_nil, processLines,
          processLine_moveTo, Option.map_some]
    cases change with
    | none =>
      refine ⟨_, (processLines_append_ok hmove).trans rfl, rfl, rfl, ?_, fun _ => bare_state⟩
      rintro ⟨⟩
    | some change =>
      refine ⟨OpenUpdate.state ⟨k, path.text, hs, environmentId⟩ (moveTo.map (·.text)) change.chunks,
        (processLines_append_ok hmove).trans ?_, ?_, rfl,
        fun _ => ready_state change.lastChunkIsEmpty_chunks (cons_ne_nil _ _),
        fun h => absurd rfl h⟩
      · simp only [Option.toList_some, flatMap_cons, flatMap_nil, append_nil]
        exact processLines_chunks change
      · simp [OpenUpdate.state, HunkSource.hunk]

/-- **Hunks that change something are all read**, from a state in which a hunk may come. -/
theorem processLines_hunks (hs : List HunkSource) (hchange : ∀ h ∈ hs, h.HasChange)
    (hready : s.Ready) :
    ∃ s', processLines n (hs.flatMap HunkSource.render) s = .ok s' ∧
      s'.hunks = s.hunks ++ hs.map HunkSource.hunk ∧ s'.environmentId = s.environmentId ∧
      s'.Ready := by
  induction hs generalizing n s with
  | nil => exact ⟨s, rfl, by simp, rfl, hready⟩
  | cons h hs ih =>
    obtain ⟨hh, hhs⟩ := forall_mem_cons.mp hchange
    obtain ⟨s₁, hbody, hhunks₁, hid₁, hready₁, _⟩ :=
      h.processLines_body (n + 1) (n + 1) s.hunks s.environmentId
    obtain ⟨s₂, hrest, hhunks₂, hid₂, hready₂⟩ := ih hhs (hready₁ hh) (n := n + 1 + h.body.length)
    refine ⟨s₂, ?_, ?_, hid₂.trans hid₁, hready₂⟩
    · simp only [flatMap_cons, h.render_eq, cons_append, processLines,
        h.processLine_header hready.isOpen, hready.ensure, Except.map]
      rw [processLines_append_ok hbody, hrest]
    · rw [hhunks₂, hhunks₁]
      simp

/-- **An update without a change is not**: the line behind it is an error, or it is the last. -/
theorem processLines_bare (hs : List HunkSource) (hbare : ∃ h ∈ hs, ¬ h.HasChange)
    (hready : s.Ready) (hok : processLines n (hs.flatMap HunkSource.render) s = .ok s') :
    s'.Bare := by
  induction hs generalizing n s with
  | nil =>
    obtain ⟨h, hmem, _⟩ := hbare
    cases hmem
  | cons h hs ih =>
    obtain ⟨s₁, hbody, _, _, hready₁, hbare₁⟩ :=
      h.processLines_body (n + 1) (n + 1) s.hunks s.environmentId
    simp only [flatMap_cons, h.render_eq, cons_append, processLines,
      h.processLine_header hready.isOpen, hready.ensure, Except.map] at hok
    rw [processLines_append_ok hbody] at hok
    by_cases hh : h.HasChange
    · refine ih ?_ (hready₁ hh) hok
      obtain ⟨g, hmem, hg⟩ := hbare
      rcases mem_cons.mp hmem with rfl | hmem
      · exact absurd hh hg
      · exact ⟨g, hmem, hg⟩
    · have hbare₁ := hbare₁ hh
      cases hs with
      | nil =>
        cases hok
        exact hbare₁
      | cons g hs =>
        obtain ⟨error, herror⟩ := hbare₁.ensure (n + 1 + h.body.length + 1) g.header
        simp only [flatMap_cons, g.render_eq, cons_append, processLines,
          g.processLine_header hbare₁.isOpen, herror, Except.map] at hok
        cases hok

/-- **A patch may end behind its hunks if and only if each of them changes something**, and then it
has been read. -/
theorem finish_hunks {hs : List HunkSource} {m : Nat} (hready : s.Ready) :
    Except.map StreamingParserState.parsed
        (match processLines n (hs.flatMap HunkSource.render) s with
        | .error error => .error error
        | .ok s => (s.ensureUpdateHunkIsNotEmpty m endPatchMarker).map fun _ =>
          { s with mode := .endedPatch }) =
        .ok (s.hunks ++ hs.map HunkSource.hunk, s.environmentId) ↔
      ∀ h ∈ hs, h.HasChange := by
  constructor
  · intro hok
    by_contra hbare
    push Not at hbare
    cases hlines : processLines n (hs.flatMap HunkSource.render) s with
    | error error =>
      rw [hlines] at hok
      cases hok
    | ok s' =>
      obtain ⟨error, herror⟩ := (processLines_bare hs hbare hready hlines).ensure m endPatchMarker
      simp only [hlines, herror] at hok
      cases hok
  · intro hchange
    obtain ⟨s', hlines, hhunks, hid, hready'⟩ := processLines_hunks (n := n) hs hchange hready
    simp only [hlines, hready'.ensure, Except.map, StreamingParserState.parsed, hhunks, hid]

end Hunks

/-! ## Patches -/

theorem LineText.clean_cons (line : LineText) {c : Char} (hc : c = ' ' ∨ c = '+' ∨ c = '-') :
    Clean (c :: line.text) := by
  have hpre : Clean [c] := by rcases hc with rfl | rfl | rfl <;> exact ⟨by decide, by decide⟩
  exact hpre.append line.clean

theorem Filename.clean_append (path : Filename) {pre : Text} (hpre : Clean pre) :
    Clean (pre ++ path.text) := hpre.append path.clean

theorem Block.clean_render (b : Block) : ∀ line ∈ b.render, Clean line := by
  intro line hmem
  rcases mem_append.mp hmem with hmem | hmem
  · obtain ⟨l, _, rfl⟩ := mem_map.mp hmem
    cases l with
    | context l | add l | remove l => exact l.clean_cons (by decide)
  · cases heof : b.endOfFile with
    | false => simp [heof] at hmem
    | true =>
      obtain rfl : line = eofMarker := by simpa [heof] using hmem
      exact ⟨by decide, by decide⟩

theorem ChangeContext.clean_render (context : ChangeContext) : Clean context.render := by
  cases context with
  | bare => exact ⟨by decide, by decide⟩
  | named context =>
    have hpre : Clean changeContextMarker := ⟨by decide, by decide⟩
    exact hpre.append (clean_of_trimEnd context.noLineFeed context.trimmed)

theorem Change.clean_render (c : Change) : ∀ line ∈ c.render, Clean line := by
  intro line hmem
  simp only [Change.render, append_assoc, mem_append, mem_map, Option.mem_toList,
    mem_flatMap, mem_cons] at hmem
  rcases hmem with ⟨context, _, rfl⟩ | hmem | ⟨⟨context, block⟩, _, rfl | hmem⟩
  · exact context.clean_render
  · exact c.first.clean_render line hmem
  · exact context.clean_render
  · exact block.clean_render line hmem

theorem HunkSource.clean_render (h : HunkSource) : ∀ line ∈ h.render, Clean line := by
  intro line hmem
  cases h with
  | add path lines =>
    rcases mem_cons.mp hmem with rfl | hmem
    · exact path.clean_append ⟨by decide, by decide⟩
    · obtain ⟨l, _, rfl⟩ := mem_map.mp hmem
      exact l.clean_cons (by decide)
  | delete path =>
    obtain rfl := mem_singleton.mp hmem
    exact path.clean_append ⟨by decide, by decide⟩
  | update path moveTo change =>
    simp only [HunkSource.render, mem_cons, mem_append, mem_map, Option.mem_toList,
      mem_flatMap] at hmem
    rcases hmem with rfl | ⟨destination, _, rfl⟩ | ⟨change, _, hmem⟩
    · exact path.clean_append ⟨by decide, by decide⟩
    · exact destination.clean_append ⟨by decide, by decide⟩
    · exact change.clean_render line hmem

namespace PatchSource

variable (p : PatchSource)

theorem clean_lines : ∀ line ∈ p.lines, Clean line := by
  intro line hmem
  simp only [lines, mem_cons, mem_append, mem_map, Option.mem_toList, mem_flatMap] at hmem
  rcases hmem with rfl | ⟨environmentId, _, rfl⟩ | ⟨h, _, hmem⟩
  · exact ⟨by decide, by decide⟩
  · exact environmentId.clean_append ⟨by decide, by decide⟩
  · exact h.clean_render line hmem

theorem trim_render : trim p.render = unlines p.lines endPatchMarker := by
  have hend : trimEnd (unlines p.lines endPatchMarker) = unlines p.lines endPatchMarker :=
    Text.trimEnd_append (by decide) (by decide)
  have hself : trim (unlines p.lines endPatchMarker) = unlines p.lines endPatchMarker := by
    obtain ⟨u, hu⟩ : ∃ u, unlines p.lines endPatchMarker = '*' :: u := ⟨_, rfl⟩
    rw [hu] at hend ⊢
    exact trim_of_trimEnd (by decide) hend
  unfold render
  cases p.finalLineFeed with
  | false => simpa using hself
  | true => simpa using (trim_concat (by decide)).trans hself

theorem parsePatch_render : parsePatch p.render = (finishLines p.lines endPatchMarker).map fun s =>
      ⟨unlines p.lines endPatchMarker, s.hunks, none, s.environmentId⟩ := by
  have hfeeds : ∀ line ∈ p.lines, '\n' ∉ line := fun line hmem => (p.clean_lines line hmem).noLineFeed
  have hchomp : p.lines.map chompCr = p.lines := by
    conv_rhs => rw [← map_id p.lines]
    exact map_congr_left fun line hmem => (p.clean_lines line hmem).chompCr_eq
  have hlines : Text.lines (trim p.render) = p.lines ++ [endPatchMarker] := by
    rw [trim_render, Text.lines, breakLines_unlines hfeeds (by decide), hchomp]
    rfl
  have hmarkers : HasMarkers p.lines endPatchMarker :=
    ⟨congrArg some (show trim beginPatchMarker = beginPatchMarker by decide), by decide⟩
  have hcheck : checkPatchBoundariesLenient (p.lines ++ [endPatchMarker]) =
      .ok (p.lines ++ [endPatchMarker]) := by
    rw [checkPatchBoundariesLenient, (checkPatchBoundariesStrict_concat _ _).1 hmarkers]
  rw [parsePatch_of_markers hfeeds (by decide) hlines hcheck, hchomp]

theorem processLine_environmentId (environmentId : Filename) (n : Nat) :
    processLine n ("*** Environment ID: ".toList ++ environmentId.text) ⟨.startedPatch, [], none⟩ =
      .ok ⟨.startedPatch, [], some environmentId.text⟩ := by
  have htrim := environmentId.trim_append
    (show "*** Environment ID: ".toList.head? = some '*' by decide)
  have hstrip : stripPrefix environmentIdMarker
      ("*** Environment ID: ".toList ++ environmentId.text) = some (' ' :: environmentId.text) := by
    rw [show "*** Environment ID: ".toList = environmentIdMarker ++ [' '] by decide,
      append_assoc, stripPrefix_append]
    rfl
  have hid : trim (' ' :: environmentId.text) = environmentId.text := environmentId.trimmed
  have hhandle := handle_environmentId n (s := ⟨.startedPatch, [], none⟩) rfl hstrip
  simp only [handleEnvironmentId, hid, environmentId.nonempty] at hhandle
  simp only [processLine, processHeaderLine, htrim, hhandle]
  rfl

theorem processLines_head : processLines 0 (beginPatchMarker ::
        p.environmentId.toList.map ("*** Environment ID: ".toList ++ ·.text)) .default =
      .ok ⟨.startedPatch, [], p.environmentId.map (·.text)⟩ := by
  have hbegin : StreamingParserState.default.processLine (0 + 1) beginPatchMarker =
    .ok ⟨.startedPatch, [], none⟩ := by decide
  simp only [processLines, hbegin]
  cases p.environmentId with
  | none => rfl
  | some environmentId =>
    simp only [Option.toList_some, map_cons, map_nil, processLines, processLine_environmentId]
    rfl

theorem finishLines_lines :
    (finishLines p.lines endPatchMarker).map StreamingParserState.parsed = .ok p.parsed ↔
      ∀ h ∈ p.hunks, h.HasChange := by
  have hready : StreamingParserState.Ready
      ⟨.startedPatch, [], p.environmentId.map (·.text)⟩ := ⟨⟨nofun, nofun⟩, fun _ _ => rfl⟩
  rw [finishLines_endPatchMarker (by decide), lines, ← cons_append,
    processLines_append_ok p.processLines_head, ← finish_hunks hready]
  rfl

/-- **Parsing undoes rendering.** A patch that is written by the grammar is read as the hunks and the
environment id it was written from, the positions of the context lines among them, if and only if
each of its updates has a change. -/
theorem parsePatch_render_iff (p : PatchSource) :
    (parsePatch p.render).map ApplyPatchArgs.parsed = .ok p.parsed ↔
      ∀ h ∈ p.hunks, h.HasChange := by
  rw [← finishLines_lines, parsePatch_render]
  cases finishLines p.lines endPatchMarker <;> rfl

/-- A patch of one chunk under a named context, with a line of each kind and the end of the file behind. -/
def oneChunk : PatchSource where
  environmentId := some ⟨['e'], by decide, by decide, by decide⟩
  hunks := [.update ⟨['a'], by decide, by decide, by decide⟩ none (some
    { context := some (.named ⟨['f'], by decide, by decide, by decide⟩)
      first :=
        { lines := [.context ⟨['x'], by decide, by decide⟩, .remove ⟨['@', '@'], by decide, by decide⟩,
            .add ⟨[], by decide, by decide⟩]
          nonempty := by decide
          endOfFile := true }
      rest := [] })]
  finalLineFeed := true

example : oneChunk.render = ("*** Begin Patch\n*** Environment ID: e\n*** Update File: a\n@@ f\n x\n-@@\n" ++
      "+\n*** End of File\n*** End Patch\n").toList ∧
    (parsePatch oneChunk.render).map ApplyPatchArgs.parsed = .ok oneChunk.parsed := by
  decide +kernel

/-- A patch that moves a file and changes nothing else, which the grammar allows. -/
def moveOnly : PatchSource where
  environmentId := none
  hunks := [.update ⟨['a'], by decide, by decide, by decide⟩
    (some ⟨['b'], by decide, by decide, by decide⟩) none]
  finalLineFeed := false

/-- The parser rejects it, as an update that is empty. -/
theorem parsePatch_moveOnly : moveOnly.render =
        "*** Begin Patch\n*** Update File: a\n*** Move to: b\n*** End Patch".toList ∧
      parsePatch moveOnly.render =
        .error (.invalidHunk "Update file hunk for path 'a' is empty".toList 2) := by
  decide +kernel

end PatchSource

end NovumAgent.ApplyPatch
