import NovumAgent.ApplyPatch.StreamingParser
import NovumAgent.ApplyPatch.Verify

/-!
# The batch parser

`parse_patch` takes a whole text. It trims it, splits it into lines, looks at the first and the last
of them, perhaps takes off the two lines of a heredoc, and joins the rest again for the streaming
parser.
-/

namespace NovumAgent.ApplyPatch

open Text

inductive ParseMode where
  | strict
  | lenient

def checkStartAndEndLinesStrict (firstLine lastLine : Option Text) : Except ParseError Unit :=
  match firstLine.map trim, lastLine.map trim with
  | some first, last =>
    if first = beginPatchMarker then
      if last = some endPatchMarker then .ok () else .error (.invalidPatch lastLineMessage)
    else .error (.invalidPatch firstLineMessage)
  | none, _ => .error (.invalidPatch lastLineMessage)

def checkPatchBoundariesStrict (lines : List Text) : Except ParseError (List Text) :=
  match checkStartAndEndLinesStrict lines.head? lines.getLast? with
  | .ok () => .ok lines
  | .error error => .error error

/-- The lines that start a heredoc. -/
def heredocMarkers : List Text := ["<<EOF".toList, "<<'EOF'".toList, "<<\"EOF\"".toList]

def checkPatchBoundariesLenient (originalLines : List Text) : Except ParseError (List Text) :=
  match checkPatchBoundariesStrict originalLines with
  | .ok lines => .ok lines
  | .error originalParseError =>
    match originalLines.head?, originalLines.getLast? with
    | some first, some last =>
      if first ∈ heredocMarkers ∧ "EOF".toList.isSuffixOf last ∧ 4 ≤ originalLines.length then
        checkPatchBoundariesStrict originalLines.tail.dropLast
      else .error originalParseError
    | _, _ => .error originalParseError

def parsePatchText (patch : Text) (mode : ParseMode) : Except ParseError ApplyPatchArgs := do
  let patchLines ← match mode with
    | .strict => checkPatchBoundariesStrict (lines (trim patch))
    | .lenient => checkPatchBoundariesLenient (lines (trim patch))
  let patch := join ['\n'] patchLines
  let parser ← StreamingPatchParser.default.pushDelta patch
  let state ← parser.finish
  .ok ⟨patch, state.hunks, none, state.environmentId⟩

/-- `parse_patch`, which is never strict. -/
def parsePatch (patch : Text) : Except ParseError ApplyPatchArgs := parsePatchText patch .lenient

/-- A context line stands on both sides of its chunk. -/
example : (parsePatch "*** Begin Patch\n*** Update File: a\n@@ f\n x\n-y\n*** End Patch".toList).map
    ApplyPatchArgs.hunks = .ok [.updateFile "a".toList none
      [⟨some "f".toList, ["x".toList, "y".toList], ["x".toList], [(0, 0)], false⟩]] := by
  decide +kernel

end NovumAgent.ApplyPatch
