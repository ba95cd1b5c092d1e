import NovumAgent.Lib.Table
import NovumAgent.ApplyPatch.Apply

/-!
# Verifying a patch

Before a patch is applied it is verified: every hunk is resolved against the files as they are, and
the changes are collected by path. The result is what the user is asked to approve.
-/

namespace NovumAgent.ApplyPatch

inductive ApplyPatchFileChange (P : Type) where
  | add (content : Text)
  | delete (content : Text)
  | update (unifiedDiff : Text) (movePath : Option P) (newContent : Text)

structure ApplyPatchArgs where
  patch : Text
  hunks : List Hunk
  workdir : Option Text
  environmentId : Option Text
deriving DecidableEq, Repr

variable {P : Type} [DecidableEq P]

structure ApplyPatchAction (P : Type) [DecidableEq P] where
  changes : Table P (ApplyPatchFileChange P)
  patch : Text
  cwd : P

variable (env : Env P)

/-- `Option::transpose` of a path that is joined when present. -/
def joinOptional (cwd : P) : Option Text → Except ApplyPatchError (Option P)
  | none => .ok none
  | some path =>
    match env.join cwd path with
    | none => .error .pathUri
    | some path => .ok (some path)

/-- The `match` of `try_verify_apply_patch_args`: the change of one hunk whose path was resolved.
Verification only reads, so the files are the function that reads them. -/
def verifyHunk (cwd : P) (read : P → Except IoError Text) (path : P) :
    Hunk → Except ApplyPatchError (ApplyPatchFileChange P)
  | .addFile _ contents => .ok (.add contents)
  | .deleteFile _ =>
    match read path with
    | .ok content => .ok (.delete content)
    | .error error => .error (.io ("Failed to read ".toList ++ env.nativePath path) error)
  | .updateFile _ movePath chunks => do
    let patch ← deriveNewContentsFromChunks env path (read path) chunks
    let movePath ← joinOptional env cwd movePath
    .ok (.update (env.unifiedDiff 1 patch.originalContents patch.newContents) movePath
      patch.newContents)

/-- The loop of `try_verify_apply_patch_args`. -/
def verifyHunks (cwd : P) (read : P → Except IoError Text) :
    List Hunk → Table P (ApplyPatchFileChange P) →
    Except ApplyPatchError (Table P (ApplyPatchFileChange P))
  | [], changes => .ok changes
  | hunk :: hunks, changes =>
    match env.join cwd hunk.sourcePath with
    | none => .error .pathUri
    | some path =>
      if path ∈ changes then
        .error (.invalidPatch ("multiple operations target ".toList ++ env.nativePath path))
      else do
        let change ← verifyHunk env cwd read path hunk
        verifyHunks cwd read hunks (changes.insert path change)

def tryVerifyApplyPatchArgs (args : ApplyPatchArgs) (cwd : P) (read : P → Except IoError Text) :
    Except ApplyPatchError (ApplyPatchAction P) := do
  let workdir ← joinOptional env cwd args.workdir
  let effectiveCwd := workdir.getD cwd
  let changes ← verifyHunks env effectiveCwd read args.hunks ∅
  .ok ⟨changes, args.patch, effectiveCwd⟩

end NovumAgent.ApplyPatch
