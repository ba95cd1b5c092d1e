import NovumAgent.Lib.Text

/-!
# Hunks

A patch is a list of hunks, each about one file: add it, delete it, or update it by chunks and
perhaps move it. A chunk holds the lines it expects and the lines it puts in their place; the
context lines stand in both and are remembered by their positions.
-/

namespace NovumAgent.ApplyPatch

structure UpdateFileChunk where
  changeContext : Option Text
  oldLines : List Text
  newLines : List Text
  contextLineIndices : List (Nat × Nat)
  isEndOfFile : Bool
deriving DecidableEq, Repr

def UpdateFileChunk.default : UpdateFileChunk := ⟨none, [], [], [], false⟩

def UpdateFileChunk.pushContextLine (line : Text) (chunk : UpdateFileChunk) : UpdateFileChunk :=
  { chunk with
    contextLineIndices :=
      chunk.contextLineIndices ++ [(chunk.oldLines.length, chunk.newLines.length)]
    oldLines := chunk.oldLines ++ [line]
    newLines := chunk.newLines ++ [line] }

/-- `Hunk`. The paths are as the patch spells them. -/
inductive Hunk where
  | addFile (path : Text) (contents : Text)
  | deleteFile (path : Text)
  | updateFile (path : Text) (movePath : Option Text) (chunks : List UpdateFileChunk)
deriving DecidableEq, Repr

/-- The path that `Hunk::resolve_path` resolves: the file the hunk starts from. -/
def Hunk.sourcePath : Hunk → Text
  | .addFile path _ | .deleteFile path | .updateFile path _ _ => path

/-- `Hunk::path`: the file the hunk ends at. -/
def Hunk.path : Hunk → Text
  | .addFile path _ | .deleteFile path | .updateFile path none _ | .updateFile _ (some path) _ =>
    path

end NovumAgent.ApplyPatch
