import Mathlib.Data.List.Sort
import NovumAgent.ApplyPatch.Hunk

/-!
# Updating one file

From the chunks of an update to the new contents of a file, in three stages: the contents are split
into lines that keep their endings, each chunk is located among the lines and turned into
replacements, and the replacements are spliced in.

Where the source would panic (a slice out of order, a difference below zero) the model returns
`UpdateError.panic`.
-/

namespace NovumAgent.ApplyPatch

open Text

/-! ## Lines with their endings -/

inductive LineEnding where
  | lf
  | crLf
  | cr
deriving DecidableEq, Repr

def LineEnding.asStr : LineEnding → Text
  | .lf => ['\n']
  | .crLf => ['\r', '\n']
  | .cr => ['\r']

structure SourceLine where
  text : Text
  ending : Option LineEnding
deriving DecidableEq, Repr

structure SourceFile where
  lines : List SourceLine
  preferredEnding : LineEnding
deriving DecidableEq, Repr

/-- The loop of `SourceFile::parse`: `line` is what was read of the current line. -/
def parseLines (line : Text) : Text → List SourceLine
  | [] => if line = [] then [] else [⟨line, none⟩]
  | '\r' :: '\n' :: rest => ⟨line, some .crLf⟩ :: parseLines [] rest
  | '\r' :: rest => ⟨line, some .cr⟩ :: parseLines [] rest
  | '\n' :: rest => ⟨line, some .lf⟩ :: parseLines [] rest
  | c :: rest => parseLines (line ++ [c]) rest

def SourceFile.parse (contents : Text) : SourceFile :=
  let lines := parseLines [] contents
  { lines, preferredEnding := (lines.findSome? SourceLine.ending).getD .lf }

def SourceFile.lineTexts (file : SourceFile) : List Text := file.lines.map SourceLine.text

def SourceFile.intoContents (file : SourceFile) : Text :=
  file.lines.flatMap fun line => line.text ++ (line.ending.map LineEnding.asStr).getD []

/-! ## Finding lines -/

/-- `normalise`: typographic dashes, quotes and spaces as their plain kin. -/
def normalise (s : Text) : Text :=
  (trim s).map fun c =>
    let n := c.toNat
    if (0x2010 ≤ n ∧ n ≤ 0x2015) ∨ n = 0x2212 then '-'
    else if 0x2018 ≤ n ∧ n ≤ 0x201B then '\''
    else if 0x201C ≤ n ∧ n ≤ 0x201F then '"'
    else if n = 0xA0 ∨ (0x2002 ≤ n ∧ n ≤ 0x200A) ∨ n = 0x202F ∨ n = 0x205F ∨ n = 0x3000 then ' '
    else c

/-- One of the four loops of `seek_sequence`: the first index at which the lines and the pattern
read alike. -/
def seekLevel (level : Text → Text) (lines pattern : List Text) (indices : List Nat) : Option Nat :=
  indices.find? fun i => ((lines.drop i).take pattern.length).map level == pattern.map level

def seekSequence (lines pattern : List Text) (start : Nat) (eof : Bool) : Option Nat :=
  if pattern = [] then some start
  else if lines.length < pattern.length then none
  else
    let searchStart := if eof then max (lines.length - pattern.length) start else start
    let indices := List.range' searchStart (lines.length - pattern.length + 1 - searchStart)
    ((seekLevel id lines pattern indices).or (seekLevel trimEnd lines pattern indices)).or
      ((seekLevel trim lines pattern indices).or (seekLevel normalise lines pattern indices))

/-! ## Replacements -/

/-- `Replacement`: where, how many lines, and by which. -/
abbrev Replacement := Nat × Nat × List Text

/-- Why an update fails: the errors of `compute_replacements`, with what their messages name, or a
panic of the source. -/
inductive UpdateError where
  | contextNotFound (line : Text)
  | linesNotFound (lines : List Text)
  | panic
deriving DecidableEq, Repr

/-- The message of an error, in a file. -/
def UpdateError.message (path : Text) : UpdateError → Text
  | .contextNotFound line =>
    "Failed to find context '".toList ++ line ++ "' in ".toList ++ path
  | .linesNotFound lines =>
    "Failed to find expected lines in ".toList ++ path ++ ":\n".toList ++ join "\n".toList lines
  | .panic => []

/-- The loop over `context_line_indices`: replacements for what lies between the context lines.
It returns where it stopped in both sides. -/
def betweenContext (startIdx : Nat) (pattern newSlice : List Text) :
    List (Nat × Nat) → (oldStart newStart : Nat) →
    Except UpdateError (List Replacement × Nat × Nat)
  | [], oldStart, newStart => .ok ([], oldStart, newStart)
  | (oldContext, newContext) :: indices, oldStart, newStart =>
    if pattern.length ≤ oldContext ∨ newSlice.length ≤ newContext then .ok ([], oldStart, newStart)
    else if oldStart ≠ oldContext ∨ newStart ≠ newContext then
      if oldContext < oldStart ∨ newContext < newStart then .error .panic
      else do
        let (rest, stop) ← betweenContext startIdx pattern newSlice indices (oldContext + 1)
          (newContext + 1)
        .ok ((startIdx + oldStart, oldContext - oldStart,
          (newSlice.take newContext).drop newStart) :: rest, stop)
    else betweenContext startIdx pattern newSlice indices (oldContext + 1) (newContext + 1)

/-- The replacements of a chunk whose lines were found at `startIdx`. -/
def chunkReplacements (startIdx : Nat) (pattern newSlice : List Text)
    (indices : List (Nat × Nat)) : Except UpdateError (List Replacement) := do
  let (between, oldStart, newStart) ← betweenContext startIdx pattern newSlice indices 0 0
  if oldStart ≠ pattern.length ∨ newStart ≠ newSlice.length then
    if pattern.length < oldStart ∨ newSlice.length < newStart then .error .panic
    else .ok (between ++ [(startIdx + oldStart, pattern.length - oldStart, newSlice.drop newStart)])
  else .ok between

/-- Where the old lines of a chunk are, with the sides as they were found: a search that fails on
lines that end in an empty one is tried again without it. -/
def locate (lines : List Text) (chunk : UpdateFileChunk) (lineIndex : Nat) :
    Option (Nat × List Text × List Text) :=
  match seekSequence lines chunk.oldLines lineIndex chunk.isEndOfFile with
  | some i => some (i, chunk.oldLines, chunk.newLines)
  | none =>
    if chunk.oldLines.getLast? = some [] then
      let newSlice :=
        if chunk.newLines.getLast? = some [] then chunk.newLines.dropLast else chunk.newLines
      (seekSequence lines chunk.oldLines.dropLast lineIndex chunk.isEndOfFile).map fun i =>
        (i, chunk.oldLines.dropLast, newSlice)
    else none

/-- One turn of the loop of `compute_replacements`: the replacements of a chunk and the line to go
on at. -/
def chunkStep (lines : List Text) (chunk : UpdateFileChunk) (lineIndex : Nat) :
    Except UpdateError (List Replacement × Nat) := do
  let lineIndex ← match chunk.changeContext with
    | none => .ok lineIndex
    | some line =>
      match seekSequence lines [line] lineIndex false with
      | some i => .ok (i + 1)
      | none => .error (.contextNotFound line)
  if chunk.oldLines = [] then .ok ([(lines.length, 0, chunk.newLines)], lineIndex)
  else
    match locate lines chunk lineIndex with
    | none => .error (.linesNotFound chunk.oldLines)
    | some (startIdx, pattern, newSlice) => do
      let replacements ← chunkReplacements startIdx pattern newSlice chunk.contextLineIndices
      .ok (replacements, startIdx + pattern.length)

/-- The loop of `compute_replacements`. -/
def chunksLoop (lines : List Text) : List UpdateFileChunk → (lineIndex : Nat) →
    Except UpdateError (List Replacement)
  | [], _ => .ok []
  | chunk :: chunks, lineIndex => do
    let (replacements, lineIndex) ← chunkStep lines chunk lineIndex
    let rest ← chunksLoop lines chunks lineIndex
    .ok (replacements ++ rest)

/-- `compute_replacements`. The sort is stable, as the source's is. -/
def computeReplacements (lines : List Text) (chunks : List UpdateFileChunk) :
    Except UpdateError (List Replacement) := do
  let replacements ← chunksLoop lines chunks 0
  .ok (replacements.insertionSort fun a b => a.1 ≤ b.1)

/-- The loop of `SourceFile::apply_replacements`: `lines` is what is left of the source lines, the
first of them at `sourceIndex`. -/
def spliceLoop (preferred : LineEnding) : List Replacement → (lines : List SourceLine) →
    (sourceIndex : Nat) → Except UpdateError (List SourceLine)
  | [], lines, _ => .ok lines
  | (startIdx, oldLen, newSegment) :: replacements, lines, sourceIndex =>
    if startIdx < sourceIndex then .error .panic
    else do
      let kept := lines.take (startIdx - sourceIndex)
      let added := newSegment.map fun text => (⟨text, some preferred⟩ : SourceLine)
      let rest ← spliceLoop preferred replacements
        ((lines.drop (startIdx - sourceIndex)).drop oldLen) (startIdx + oldLen)
      .ok (kept ++ added ++ rest)

def SourceFile.applyReplacements (replacements : List Replacement) (file : SourceFile) :
    Except UpdateError SourceFile := do
  let lines ← spliceLoop file.preferredEnding replacements file.lines 0
  .ok { file with
    lines := lines.map fun line =>
      { line with ending := some (line.ending.getD file.preferredEnding) } }

/-- `derive_new_contents_from_chunks`, from the contents that were read. -/
def deriveNewContents (contents : Text) (chunks : List UpdateFileChunk) : Except UpdateError Text := do
  let file := SourceFile.parse contents
  let replacements ← computeReplacements file.lineTexts chunks
  let file ← file.applyReplacements replacements
  .ok file.intoContents

end NovumAgent.ApplyPatch
