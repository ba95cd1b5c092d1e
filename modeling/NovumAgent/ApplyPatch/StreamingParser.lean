import NovumAgent.ApplyPatch.Hunk

/-!
# The streaming parser

The parser of a patch that arrives in pieces. It collects characters up to a line feed, strips one
carriage return, and gives the line to the mode it is in. What a line may be depends on the mode:
most modes trim it on both sides before they look for a marker, an update trims its end only, and
the last line, which may lack its line feed, is looked at by `finish`.
-/

namespace NovumAgent.ApplyPatch

open Text

/-! ## Markers and errors -/

def beginPatchMarker : Text := "*** Begin Patch".toList

def endPatchMarker : Text := "*** End Patch".toList

def addFileMarker : Text := "*** Add File: ".toList

def deleteFileMarker : Text := "*** Delete File: ".toList

def updateFileMarker : Text := "*** Update File: ".toList

def moveToMarker : Text := "*** Move to: ".toList

def eofMarker : Text := "*** End of File".toList

def changeContextMarker : Text := "@@ ".toList

def emptyChangeContextMarker : Text := "@@".toList

def environmentIdMarker : Text := "*** Environment ID:".toList

inductive ParseError where
  | invalidPatch (message : Text)
  | invalidHunk (message : Text) (lineNumber : Nat)
deriving DecidableEq, Repr

/-- The message about a line that is no hunk header. -/
def notAHunkHeader (trimmed : Text) : Text :=
  "'".toList ++ trimmed ++ ("' is not a valid hunk header. Valid hunk headers: " ++
    "'*** Add File: \x7bpath\x7d', '*** Delete File: \x7bpath\x7d', " ++
    "'*** Update File: \x7bpath\x7d'").toList

/-- The message about a line that an update cannot hold. -/
def unexpectedLine (line : Text) : Text :=
  "Unexpected line found in update hunk: '".toList ++ line ++
    ("'. Every line should start with ' ' (context line), '+' (added line), " ++
      "or '-' (removed line)").toList

/-- The message about a line where a chunk should start. -/
def expectedContext (line : Text) : Text :=
  "Expected update hunk to start with a @@ context marker, got: '".toList ++ line ++ "'".toList

/-- The message about a patch that does not begin. -/
def firstLineMessage : Text := "The first line of the patch must be '*** Begin Patch'".toList

/-- The message about a patch that does not end. -/
def lastLineMessage : Text := "The last line of the patch must be '*** End Patch'".toList

/-- The message about a chunk without lines. -/
def noLinesMessage : Text := "Update hunk does not contain any lines".toList

/-! ## The parser -/

inductive StreamingParserMode where
  | notStarted
  | startedPatch
  | addFile
  | deleteFile
  | updateFile (hunkLineNumber : Nat)
  | endedPatch
deriving DecidableEq, Repr

structure StreamingParserState where
  mode : StreamingParserMode
  hunks : List Hunk
  environmentId : Option Text
deriving DecidableEq, Repr

/-- The last chunk has no lines yet. -/
def lastChunkIsEmpty (chunks : List UpdateFileChunk) : Bool :=
  chunks.getLast?.any fun chunk => chunk.oldLines.isEmpty && chunk.newLines.isEmpty

/-- The last chunk was ended by an end-of-file marker. -/
def lastChunkIsEof (chunks : List UpdateFileChunk) : Bool :=
  chunks.getLast?.any UpdateFileChunk.isEndOfFile

/-- The last chunk changed, or a first one made. -/
def editLastChunk (edit : UpdateFileChunk → UpdateFileChunk) (chunks : List UpdateFileChunk) :
    List UpdateFileChunk :=
  match chunks.getLast? with
  | none => [edit .default]
  | some chunk => chunks.dropLast ++ [edit chunk]

namespace StreamingParserState

def default : StreamingParserState := ⟨.notStarted, [], none⟩

variable (lineNumber : Nat)

def ensureUpdateHunkIsNotEmpty (line : Text) (s : StreamingParserState) : Except ParseError Unit :=
  match s.hunks.getLast? with
  | some (.updateFile path _ chunks) =>
    match chunks, s.mode with
    | [], .updateFile hunkLineNumber =>
      .error (.invalidHunk ("Update file hunk for path '".toList ++ path ++ "' is empty".toList)
        hunkLineNumber)
    | _, _ =>
      if lastChunkIsEmpty chunks then
        if line = endPatchMarker then .error (.invalidHunk noLinesMessage lineNumber)
        else .error (.invalidHunk (unexpectedLine line) lineNumber)
      else .ok ()
  | _ => .ok ()

/-- The hunk that a header starts, with its mode. -/
def hunkHeader (trimmed : Text) : Option (Hunk × StreamingParserMode) :=
  match stripPrefix addFileMarker trimmed with
  | some path => some (.addFile path [], .addFile)
  | none =>
    match stripPrefix deleteFileMarker trimmed with
    | some path => some (.deleteFile path, .deleteFile)
    | none =>
      (stripPrefix updateFileMarker trimmed).map fun path =>
        (.updateFile path none [], .updateFile lineNumber)

/-- The environment id of a patch, which comes before its hunks. -/
def handleEnvironmentId (environmentId : Text) (s : StreamingParserState) :
    Except ParseError StreamingParserState :=
  if s.environmentId.isSome then
    .error (.invalidPatch "apply_patch environment_id cannot be specified more than once".toList)
  else if trim environmentId = [] then
    .error (.invalidPatch "apply_patch environment_id cannot be empty".toList)
  else .ok { s with environmentId := some (trim environmentId) }

/-- `handle_hunk_headers_and_end_patch`; `none` says that the line is neither. -/
def handleHunkHeadersAndEndPatch (trimmed : Text) (s : StreamingParserState) :
    Except ParseError (Option StreamingParserState) :=
  match s.mode, stripPrefix environmentIdMarker trimmed with
  | .startedPatch, some environmentId => (handleEnvironmentId environmentId s).map some
  | _, _ =>
    if trimmed = endPatchMarker then
      (s.ensureUpdateHunkIsNotEmpty lineNumber trimmed).map fun _ =>
        some { s with mode := .endedPatch }
    else
      match hunkHeader lineNumber trimmed with
      | some (hunk, mode) =>
        (s.ensureUpdateHunkIsNotEmpty lineNumber trimmed).map fun _ =>
          some { s with hunks := s.hunks ++ [hunk], mode }
      | none => .ok none

theorem handle_environmentId {s : StreamingParserState} {trimmed environmentId : Text}
    (hmode : s.mode = .startedPatch)
    (hid : stripPrefix environmentIdMarker trimmed = some environmentId) :
    s.handleHunkHeadersAndEndPatch lineNumber trimmed =
      (handleEnvironmentId environmentId s).map some := by
  simp only [handleHunkHeadersAndEndPatch, hmode, hid]

theorem handle_header {s : StreamingParserState} {trimmed : Text}
    (h : s.mode ≠ .startedPatch ∨ stripPrefix environmentIdMarker trimmed = none) :
    s.handleHunkHeadersAndEndPatch lineNumber trimmed =
      if trimmed = endPatchMarker then
        (s.ensureUpdateHunkIsNotEmpty lineNumber trimmed).map fun _ =>
          some { s with mode := .endedPatch }
      else
        match hunkHeader lineNumber trimmed with
        | some (hunk, mode) =>
          (s.ensureUpdateHunkIsNotEmpty lineNumber trimmed).map fun _ =>
            some { s with hunks := s.hunks ++ [hunk], mode }
        | none => .ok none := by
  unfold handleHunkHeadersAndEndPatch
  split
  next hmode hid =>
    rcases h with h | h
    · exact absurd hmode h
    · rw [hid] at h
      cases h
  next => rfl

/-- The lines of a chunk: the end of the mode `UpdateFile`. -/
def updateTextLine (line : Text) (chunks : List UpdateFileChunk) :
    Except Text (List UpdateFileChunk) :=
  match line with
  | [] => .ok (editLastChunk (.pushContextLine []) chunks)
  | ' ' :: text => .ok (editLastChunk (.pushContextLine text) chunks)
  | '+' :: text =>
    .ok (editLastChunk (fun chunk => { chunk with newLines := chunk.newLines ++ [text] }) chunks)
  | '-' :: text =>
    .ok (editLastChunk (fun chunk => { chunk with oldLines := chunk.oldLines ++ [text] }) chunks)
  | _ =>
    if chunks ≠ [] ∧ ¬ lastChunkIsEmpty chunks then .error (expectedContext line)
    else .error (unexpectedLine line)

/-- The markers of an update hunk, as its lines look with their ends trimmed: what becomes of its
destination and its chunks, or the message of an error, which may quote the line. `none` says that
the line is none of them. -/
def updateMarkerLine (updateLine : Text) (movePath : Option Text) (chunks : List UpdateFileChunk) :
    Option (Except (Text → Text) (Option Text × List UpdateFileChunk)) :=
  let isContext := updateLine = emptyChangeContextMarker ∨ changeContextMarker.isPrefixOf updateLine
  if lastChunkIsEof chunks ∧ updateLine = [] then some (.ok (movePath, chunks))
  else if lastChunkIsEof chunks ∧ ¬ isContext then some (.error expectedContext)
  else
    match if chunks = [] ∧ movePath = none then stripPrefix moveToMarker updateLine else none with
    | some path => some (.ok (some path, chunks))
    | none =>
      if isContext ∧ lastChunkIsEmpty chunks then some (.error unexpectedLine)
      else if updateLine = emptyChangeContextMarker then
        some (.ok (movePath, chunks ++ [.default]))
      else
        match stripPrefix changeContextMarker updateLine with
        | some context =>
          some (.ok (movePath,
            chunks ++ [{ UpdateFileChunk.default with changeContext := some context }]))
        | none =>
          if updateLine = eofMarker then
            if lastChunkIsEmpty chunks then some (.error fun _ => noLinesMessage)
            else
              some (.ok (movePath, chunks.modifyLast fun chunk => { chunk with isEndOfFile := true }))
          else none

/-- The line that an update hunk gets, when it is no header. -/
def updateHunkLine (line : Text) (movePath : Option Text) (chunks : List UpdateFileChunk) :
    Except Text (Option Text × List UpdateFileChunk) :=
  match updateMarkerLine (trimEnd line) movePath chunks with
  | some (.ok result) => .ok result
  | some (.error message) => .error (message line)
  | none => (updateTextLine line chunks).map fun chunks => (movePath, chunks)

theorem updateMarkerLine_text {updateLine : Text} {movePath : Option Text}
    {chunks : List UpdateFileChunk} (heof : lastChunkIsEof chunks = false)
    (hhead : ∀ c, updateLine.head? = some c → c ≠ '*' ∧ c ≠ '@') :
    updateMarkerLine updateLine movePath chunks = none := by
  have hstar : ∀ pre, stripPrefix ('*' :: pre) updateLine = none := by
    intro pre
    cases updateLine with
    | nil => rfl
    | cons c u => exact stripPrefix_of_ne (hhead c rfl).1.symm
  have hat : ∀ pre, ¬ ('@' :: pre).isPrefixOf updateLine := by
    intro pre
    cases updateLine with
    | nil => exact Bool.false_ne_true
    | cons c u => simp [List.isPrefixOf, Ne.symm (hhead c rfl).2]
  have hcontext : updateLine ≠ emptyChangeContextMarker := by
    rintro rfl
    exact (hhead '@' rfl).2 rfl
  have heofMarker : updateLine ≠ eofMarker := by
    rintro rfl
    exact (hhead '*' rfl).1 rfl
  have hmove : stripPrefix moveToMarker updateLine = none := hstar moveToMarker.tail
  have hmarker : ¬ changeContextMarker.isPrefixOf updateLine := hat changeContextMarker.tail
  have hstrip : stripPrefix changeContextMarker updateLine = none := if_neg hmarker
  simp only [updateMarkerLine, heof, hcontext, hmarker, hmove, hstrip, heofMarker, ite_self,
    Bool.false_eq_true, false_and, false_or, if_false]

theorem lastChunkIsEof_of_updateMarkerLine {updateLine : Text} {movePath : Option Text}
    {chunks : List UpdateFileChunk} (h : updateMarkerLine updateLine movePath chunks = none) :
    lastChunkIsEof chunks = false := by
  by_contra heof
  rw [Bool.not_eq_false] at heof
  unfold updateMarkerLine at h
  dsimp only at h
  split at h
  next => cases h
  next =>
    split at h
    next => cases h
    next hcontext =>
      have hcontext := not_not.mp fun hnot => hcontext ⟨heof, hnot⟩
      split at h
      next => cases h
      next =>
        split at h
        next => cases h
        next =>
          split at h
          next => cases h
          next hbare =>
            rw [show stripPrefix changeContextMarker updateLine = some _ from
              if_pos (hcontext.resolve_left hbare)] at h
            cases h

/-- The mode `UpdateFile` of `process_line`. -/
def processUpdateLine (line : Text) (s : StreamingParserState) :
    Except ParseError StreamingParserState :=
  match s.handleHunkHeadersAndEndPatch lineNumber (trimEnd line) with
  | .error error => .error error
  | .ok (some s) => .ok s
  | .ok none =>
    match s.hunks.getLast? with
    | some (.updateFile path movePath chunks) =>
      match updateHunkLine line movePath chunks with
      | .error message => .error (.invalidHunk message lineNumber)
      | .ok (movePath, chunks) =>
        .ok { s with hunks := s.hunks.dropLast ++ [.updateFile path movePath chunks] }
    | _ => .error (.invalidHunk (unexpectedLine line) lineNumber)

/-- The mode `AddFile` of `process_line`. -/
def processAddLine (line : Text) (s : StreamingParserState) :
    Except ParseError StreamingParserState :=
  match s.handleHunkHeadersAndEndPatch lineNumber (trim line) with
  | .error error => .error error
  | .ok (some s) => .ok s
  | .ok none =>
    match line, s.hunks.getLast? with
    | '+' :: text, some (.addFile path contents) =>
      .ok { s with hunks := s.hunks.dropLast ++ [.addFile path (contents ++ text ++ ['\n'])] }
    | _, _ => .error (.invalidHunk (notAHunkHeader (trim line)) lineNumber)

/-- The modes `StartedPatch` and `DeleteFile` of `process_line`, in which a line is a header or an
error. -/
def processHeaderLine (line : Text) (s : StreamingParserState) :
    Except ParseError StreamingParserState :=
  match s.handleHunkHeadersAndEndPatch lineNumber (trim line) with
  | .error error => .error error
  | .ok (some s) => .ok s
  | .ok none => .error (.invalidHunk (notAHunkHeader (trim line)) lineNumber)

def processLine (line : Text) (s : StreamingParserState) : Except ParseError StreamingParserState :=
  match s.mode with
  | .notStarted =>
    if trim line = beginPatchMarker then .ok { s with mode := .startedPatch }
    else .error (.invalidPatch firstLineMessage)
  | .startedPatch | .deleteFile => s.processHeaderLine lineNumber line
  | .addFile => s.processAddLine lineNumber line
  | .updateFile _ => s.processUpdateLine lineNumber line
  | .endedPatch => if trim line = [] then .ok s else .error (.invalidPatch lastLineMessage)

end StreamingParserState

structure StreamingPatchParser where
  lineBuffer : Text
  state : StreamingParserState
  lineNumber : Nat

namespace StreamingPatchParser

def default : StreamingPatchParser := ⟨[], .default, 0⟩

/-- One turn of the loop of `push_delta`. -/
def pushChar (p : StreamingPatchParser) (c : Char) : Except ParseError StreamingPatchParser :=
  if c = '\n' then
    (p.state.processLine (p.lineNumber + 1) (chompCr p.lineBuffer)).map fun state =>
      ⟨[], state, p.lineNumber + 1⟩
  else .ok { p with lineBuffer := p.lineBuffer ++ [c] }

/-- `push_delta`; the hunks it returns are those of the parser. -/
def pushDelta (p : StreamingPatchParser) (delta : Text) : Except ParseError StreamingPatchParser :=
  delta.foldlM pushChar p

/-- What `finish` makes of a last line without a line feed. -/
def finishLine (p : StreamingPatchParser) : Except ParseError StreamingParserState :=
  if p.lineBuffer = [] then .ok p.state
  else if trim p.lineBuffer = endPatchMarker then
    (p.state.ensureUpdateHunkIsNotEmpty (p.lineNumber + 1) (trim p.lineBuffer)).map fun _ =>
      { p.state with mode := .endedPatch }
  else p.state.processLine (p.lineNumber + 1) p.lineBuffer

/-- `finish`; the hunks it returns and the environment id are those of the state. -/
def finish (p : StreamingPatchParser) : Except ParseError StreamingParserState :=
  match p.finishLine with
  | .error error => .error error
  | .ok state =>
    if state.mode = .endedPatch then .ok state else .error (.invalidPatch lastLineMessage)

end StreamingPatchParser

end NovumAgent.ApplyPatch
