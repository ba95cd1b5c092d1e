import NovumAgent.ApplyPatch.Disk

/-!
# Applying hunks

The hunks of a patch are applied one after another. Beside the files, each hunk changes the delta:
the list of the changes that were committed, and a flag that says whether the list is exact. A hunk
that fails ends the run, and the delta so far goes with the error.
-/

namespace NovumAgent.ApplyPatch

/-! ## Errors -/

/-- `ApplyPatchError`, with the plain errors of the apply loop and a panic beside it. -/
inductive ApplyPatchError where
  | invalidPatch (message : Text)
  | io (context : Text) (error : IoError)
  | computeReplacements (message : Text)
  | pathUri
  | bail (message : Text)
  | panic
deriving DecidableEq

/-- The error that a failed update of a file becomes. -/
def UpdateError.toApplyPatchError (path : Text) : UpdateError → ApplyPatchError
  | .panic => .panic
  | error => .computeReplacements (error.message path)

structure AppliedPatch where
  originalContents : Text
  newContents : Text
deriving DecidableEq

section

variable {P : Type} {spot : P → P} [DecidableEq P] (env : Env P)

/-- `derive_new_contents_from_chunks`, from the outcome of its read. -/
def deriveNewContentsFromChunks (path : P) (read : Except IoError Text)
    (chunks : List UpdateFileChunk) : Except ApplyPatchError AppliedPatch :=
  match read with
  | .error error =>
    .error (.io ("Failed to read file to update ".toList ++ env.nativePath path) error)
  | .ok original =>
    match deriveNewContents original chunks with
    | .error error => .error (error.toApplyPatchError (env.nativePath path))
    | .ok new => .ok ⟨original, new⟩

/-! ## The delta -/

inductive AppliedPatchFileChange (P : Type) where
  | add (content : Text) (overwrittenContent : Option Text)
  | delete (content : Text)
  | update (movePath : Option P) (oldContent : Text) (overwrittenMoveContent : Option Text)
      (newContent : Text)
deriving DecidableEq

structure AppliedPatchChange (P : Type) where
  path : P
  change : AppliedPatchFileChange P
deriving DecidableEq

/-- `AffectedPaths`, as the patch spells them. -/
structure AffectedPaths where
  added : List Text
  modified : List Text
  deleted : List Text
deriving DecidableEq

/-- The state of `apply_hunks_to_files`: the world, `AppliedPatchDelta`, and the affected paths. -/
structure Applying (P : Type) (spot : P → P) where
  world : World P spot
  changes : List (AppliedPatchChange P)
  exact : Bool
  affected : AffectedPaths

/-- The state it starts in, with `AppliedPatchDelta::empty`. -/
def Applying.start (world : World P spot) : Applying P spot := ⟨world, [], true, ⟨[], [], []⟩⟩

/-- The state once a change was committed. -/
def Applying.push (path : P) (change : AppliedPatchFileChange P) (s : Applying P spot) : Applying P spot :=
  { s with changes := s.changes ++ [⟨path, change⟩] }

/-- What a hunk does to the state: it goes on, or it ends the run with an error. -/
abbrev Applied (P : Type) (spot : P → P) :=
  Except (ApplyPatchError × Applying P spot) (Applying P spot)

/-! ## Operations on files -/

/-- `note_existing_path_delta_support`: only regular files can be told exactly. -/
def noteExistingPathDeltaSupport (path : P) (s : Applying P spot) : Applying P spot :=
  let (result, world) := s.world.getMetadata path
  let supported := match result with
    | .ok metadata => metadata.isFile && !metadata.isSymlink
    | .error .notFound => true
    | .error _ => false
  { s with world, exact := s.exact && supported }

def readOptionalFileTextForDelta (path : P) (s : Applying P spot) : Option Text × Applying P spot :=
  let s := noteExistingPathDeltaSupport path s
  let (result, world) := s.world.readFileText path
  match result with
  | .ok content => (some content, { s with world })
  | .error .notFound => (none, { s with world })
  | .error _ => (none, { s with world, exact := false })

def ensureNotDirectory (path : P) (w : World P spot) : Except IoError Unit × World P spot :=
  match w.getMetadata path with
  | (.error error, w) => (.error error, w)
  | (.ok metadata, w) => (if metadata.isDirectory then .error .isDirectory else .ok (), w)

def removeFailureWasSideEffectFree (path : P) (expectedContent : Option Text) (w : World P spot) :
    Bool × World P spot :=
  match expectedContent with
  | none => (false, w)
  | some expected =>
    match w.readFileText path with
    | (.ok content, w) => (content == expected, w)
    | (.error _, w) => (false, w)

def writeFileWithMissingParentRetry (path : P) (content : Text) (w : World P spot) :
    Except ApplyPatchError Unit × World P spot :=
  let failedToWrite := "Failed to write file ".toList ++ env.nativePath path
  let write (w : World P spot) : Except ApplyPatchError Unit × World P spot :=
    match w.writeFile path content with
    | (.ok (), w) => (.ok (), w)
    | (.error error, w) => (.error (.io failedToWrite error), w)
  match w.writeFile path content with
  | (.ok (), w) => (.ok (), w)
  | (.error .notFound, w) =>
    match env.parents path with
    | [] => write w
    | parents =>
      match w.createDirectory parents with
      | (.ok (), w) => write w
      | (.error error, w) =>
        (.error (.io ("Failed to create parent directories for ".toList ++ env.nativePath path)
          error), w)
  | (.error error, w) => (.error (.io failedToWrite error), w)

/-! ## One hunk -/

/-- The removal that ends a delete and a move: the path must not be a directory, and a removal that
failed keeps the delta exact only when the file can be seen to be as it was. -/
def removeOriginal (path : P) (context : Text) (expected : Option Text) (s : Applying P spot) :
    Applied P spot :=
  match ensureNotDirectory path s.world with
  | (.error error, world) => .error (.io context error, { s with world })
  | (.ok (), world) =>
    match world.remove path with
    | (.ok (), world) => .ok { s with world }
    | (.error error, world) =>
      let (free, world) := removeFailureWasSideEffectFree path expected world
      .error (.io context error, { s with world, exact := s.exact && free })

/-- The branch of `Hunk::AddFile`. -/
def applyAdd (path : P) (contents : Text) (affectedPath : Text) (s : Applying P spot) : Applied P spot :=
  let (overwritten, s) := readOptionalFileTextForDelta path s
  match writeFileWithMissingParentRetry env path contents s.world with
  | (.error error, world) => .error (error, { s with world, exact := false })
  | (.ok (), world) =>
    let s := ({ s with world } : Applying P spot).push path (.add contents overwritten)
    .ok { s with affected.added := s.affected.added ++ [affectedPath] }

/-- The branch of `Hunk::DeleteFile`. -/
def applyDelete (path : P) (affectedPath : Text) (s : Applying P spot) : Applied P spot :=
  let s := noteExistingPathDeltaSupport path s
  let (result, world) := s.world.readFileText path
  let deletedContent := result.toOption
  let s := { s with world, exact := s.exact && deletedContent.isSome }
  match removeOriginal path ("Failed to delete file ".toList ++ env.nativePath path)
    deletedContent s with
  | .error failure => .error failure
  | .ok s =>
    let s := match deletedContent with
      | some content => s.push path (.delete content)
      | none => s
    .ok { s with affected.deleted := s.affected.deleted ++ [affectedPath] }

/-- The end of an update that moves the file: the destination is written, then the source is
removed. Between the two the delta tells of an added file; afterwards that entry is rewritten. -/
def applyMove (path dest : P) (patch : AppliedPatch) (affectedPath : Text) (s : Applying P spot) :
    Applied P spot :=
  let (overwritten, s) := readOptionalFileTextForDelta dest s
  match writeFileWithMissingParentRetry env dest patch.newContents s.world with
  | (.error error, world) => .error (error, { s with world, exact := false })
  | (.ok (), world) =>
    let index := s.changes.length
    let s := ({ s with world } : Applying P spot).push dest (.add patch.newContents overwritten)
    match removeOriginal path ("Failed to remove original ".toList ++ env.nativePath path)
      (some patch.originalContents) s with
    | .error failure => .error failure
    | .ok s =>
      .ok { s with
        changes := s.changes.set index
          ⟨path, .update (some dest) patch.originalContents overwritten patch.newContents⟩
        affected.modified := s.affected.modified ++ [affectedPath] }

/-- The end of an update in place. -/
def applyInPlace (path : P) (patch : AppliedPatch) (affectedPath : Text) (s : Applying P spot) :
    Applied P spot :=
  match s.world.writeFile path patch.newContents with
  | (.error error, world) =>
    .error (.io ("Failed to write file ".toList ++ env.nativePath path) error,
      { s with world, exact := false })
  | (.ok (), world) =>
    let s := ({ s with world } : Applying P spot).push path
      (.update none patch.originalContents none patch.newContents)
    .ok { s with affected.modified := s.affected.modified ++ [affectedPath] }

/-- The branch of `Hunk::UpdateFile`. -/
def applyUpdate (cwd path : P) (movePath : Option Text) (chunks : List UpdateFileChunk)
    (affectedPath : Text) (s : Applying P spot) : Applied P spot :=
  let s := noteExistingPathDeltaSupport path s
  let (result, world) := s.world.readFileText path
  let s := { s with world }
  match deriveNewContentsFromChunks env path result chunks with
  | .error error => .error (error, s)
  | .ok patch =>
    match movePath with
    | none => applyInPlace env path patch affectedPath s
    | some dest =>
      match env.join cwd dest with
      | none => .error (.pathUri, s)
      | some dest => applyMove env path dest patch affectedPath s

/-- One turn of the loop of `apply_hunks_to_files`. -/
def applyHunk (cwd : P) (s : Applying P spot) (hunk : Hunk) : Applied P spot :=
  match env.join cwd hunk.sourcePath with
  | none => .error (.pathUri, s)
  | some path =>
    match hunk with
    | .addFile _ contents => applyAdd env path contents hunk.path s
    | .deleteFile _ => applyDelete env path hunk.path s
    | .updateFile _ movePath chunks => applyUpdate env cwd path movePath chunks hunk.path s

/-- The loop of `apply_hunks_to_files`. -/
def applyHunks (cwd : P) : List Hunk → Applying P spot → Applied P spot
  | [], s => .ok s
  | hunk :: hunks, s =>
    match applyHunk env cwd s hunk with
    | .error failure => .error failure
    | .ok s => applyHunks cwd hunks s

def applyHunksToFiles (cwd : P) (hunks : List Hunk) (world : World P spot) : Applied P spot :=
  if hunks = [] then .error (.bail "No files were modified.".toList, .start world)
  else applyHunks env cwd hunks (.start world)

end

end NovumAgent.ApplyPatch
