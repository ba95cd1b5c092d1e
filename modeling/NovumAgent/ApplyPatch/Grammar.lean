import NovumAgent.ApplyPatch.ParserLines

/-!
# The grammar of patches

What a patch is, by the grammar at the head of the parser: the productions are types, and what the
grammar says of a token is a field of the type it belongs to. Each production has its lines, which is
how a patch is written down, and its meaning, the hunks that reading it should give. The meaning is
stated without the parser: the positions of the context lines are counts of the lines before them.
-/

namespace NovumAgent.ApplyPatch

open Text

/-! ## Tokens -/

/-- A line of a patch comes back from `str::lines` as it is. -/
structure Clean (line : Text) : Prop where
  noLineFeed : '\n' ∉ line
  noCarriageReturn : line.getLast? ≠ some '\r'

/-- `filename`, and the environment id: a path that trimming leaves alone. -/
structure Filename where
  text : Text
  nonempty : text ≠ []
  noLineFeed : '\n' ∉ text
  trimmed : trim text = text

/-- The text of an added, a removed or a context line. -/
structure LineText where
  text : Text
  clean : Clean text

/-- The text behind the marker of a change context. -/
structure ContextText where
  text : Text
  nonempty : text ≠ []
  noLineFeed : '\n' ∉ text
  trimmed : trimEnd text = text

/-! ## Changes -/

inductive ChangeLine where
  | context (line : LineText)
  | add (line : LineText)
  | remove (line : LineText)

namespace ChangeLine

/-- The line as the patch has it. -/
def render : ChangeLine → Text
  | context line => ' ' :: line.text
  | add line => '+' :: line.text
  | remove line => '-' :: line.text

/-- The line the file should have. -/
def old : ChangeLine → Option Text
  | context line | remove line => some line.text
  | add _ => none

/-- The line the file will have. -/
def new : ChangeLine → Option Text
  | context line | add line => some line.text
  | remove _ => none

end ChangeLine

/-- The positions of the context lines among the old lines and among the new lines, when `i` old and
`j` new lines come before. -/
def contextPositions (i j : Nat) : List ChangeLine → List (Nat × Nat)
  | [] => []
  | .context _ :: ls => (i, j) :: contextPositions (i + 1) (j + 1) ls
  | .add _ :: ls => contextPositions i (j + 1) ls
  | .remove _ :: ls => contextPositions (i + 1) j ls

inductive ChangeContext where
  | bare
  | named (context : ContextText)

namespace ChangeContext

/-- The line as the patch has it. -/
def render : ChangeContext → Text
  | bare => emptyChangeContextMarker
  | named context => changeContextMarker ++ context.text

/-- The context that a chunk looks for. -/
def context : ChangeContext → Option Text
  | bare => none
  | named context => some context.text

end ChangeContext

/-- The lines of a chunk, of which there are some, and whether the end of the file is behind them. -/
structure Block where
  lines : List ChangeLine
  nonempty : lines ≠ []
  endOfFile : Bool

namespace Block

/-- The lines as the patch has them. -/
def render (b : Block) : List Text :=
  b.lines.map ChangeLine.render ++ if b.endOfFile then [eofMarker] else []

/-- The chunk they are, under a context. -/
def chunk (context : Option Text) (b : Block) : UpdateFileChunk where
  changeContext := context
  oldLines := b.lines.filterMap ChangeLine.old
  newLines := b.lines.filterMap ChangeLine.new
  contextLineIndices := contextPositions 0 0 b.lines
  isEndOfFile := b.endOfFile

end Block

/-- `change`: chunks, of which the first may go without its marker. -/
structure Change where
  context : Option ChangeContext
  first : Block
  rest : List (ChangeContext × Block)

namespace Change

/-- The lines as the patch has them. -/
def render (c : Change) : List Text :=
  c.context.toList.map ChangeContext.render ++ c.first.render ++
    c.rest.flatMap fun (context, block) => context.render :: block.render

/-- The chunks they are. -/
def chunks (c : Change) : List UpdateFileChunk :=
  c.first.chunk (c.context.bind ChangeContext.context) ::
    c.rest.map fun (context, block) => block.chunk context.context

end Change

/-! ## Hunks and patches -/

/-- `hunk`: an `add_hunk`, a `delete_hunk` or an `update_hunk`. -/
inductive HunkSource where
  | add (path : Filename) (lines : List LineText)
  | delete (path : Filename)
  | update (path : Filename) (moveTo : Option Filename) (change : Option Change)

namespace HunkSource

/-- The lines as the patch has them. -/
def render : HunkSource → List Text
  | add path lines => (addFileMarker ++ path.text) :: lines.map ('+' :: ·.text)
  | delete path => [deleteFileMarker ++ path.text]
  | update path moveTo change =>
    (updateFileMarker ++ path.text) ::
      (moveTo.toList.map (moveToMarker ++ ·.text) ++ change.toList.flatMap Change.render)

/-- The hunk they are. -/
def hunk : HunkSource → Hunk
  | add path lines => .addFile path.text (lines.flatMap (·.text ++ ['\n']))
  | delete path => .deleteFile path.text
  | update path moveTo change =>
    .updateFile path.text (moveTo.map (·.text)) (change.toList.flatMap Change.chunks)

/-- An update changes something. The grammar lets the change be left out. -/
def HasChange : HunkSource → Prop
  | add _ _ | delete _ => True
  | update _ _ change => change.isSome

end HunkSource

/-- `start`: a patch, with or without a line feed at its end. -/
structure PatchSource where
  environmentId : Option Filename
  hunks : List HunkSource
  finalLineFeed : Bool

namespace PatchSource

/-- The lines before the end marker. -/
def lines (p : PatchSource) : List Text :=
  beginPatchMarker :: (p.environmentId.toList.map ("*** Environment ID: ".toList ++ ·.text) ++
      p.hunks.flatMap HunkSource.render)

/-- The text of the patch. -/
def render (p : PatchSource) : Text :=
  unlines p.lines endPatchMarker ++ if p.finalLineFeed then ['\n'] else []

/-- What reading it should give. -/
def parsed (p : PatchSource) : List Hunk × Option Text :=
  (p.hunks.map HunkSource.hunk, p.environmentId.map (·.text))

end PatchSource

end NovumAgent.ApplyPatch
