import Mathlib.Data.Char
import Mathlib.Data.List.Destutter
import Mathlib.Data.List.Lex
import NovumAgent.Lib.Run
import NovumAgent.Lib.Table
import NovumAgent.Lib.Utf8

/-!
# The net diff of a turn

The tracker is told of every change that a patch made, with the contents before and after, and keeps two maps:
what a path had when the turn began, and what it has now. A path in neither is one that is as it was.
A third map says which file a moved file was, so that a move is shown as one pair of paths.

Three facts make the diff right. The maps agree with the files (`Agrees`), which every change keeps. The pairs that
are rendered mention each path at most once, whatever the order in which the maps are gone through. And a
rendering that is found in the cache is one that would be made (`Remembers`), since a revision is the
number of one content. Renderings have a deadline: a diff that is not done in time is made coarser.
-/

namespace NovumAgent.TurnDiff

structure TrackedContent where
  content : Text
  revision : Nat

structure TrackedPath (π : Type) where
  environmentId : Text
  path : π
deriving DecidableEq

structure DiffCacheKey (π : Type) where
  leftPath : TrackedPath π
  leftRevision : Option Nat
  rightPath : TrackedPath π
  rightRevision : Option Nat
deriving DecidableEq

inductive AppliedPatchFileChange (π : Type) where
  | add (content : Text) (overwrittenContent : Option Text)
  | delete (content : Text)
  | update (movePath : Option π) (oldContent : Text) (overwrittenMoveContent : Option Text)
      (newContent : Text)

structure AppliedPatchChange (π : Type) where
  path : π
  change : AppliedPatchFileChange π

structure AppliedPatchDelta (π : Type) where
  changes : List (AppliedPatchChange π)
  exact : Bool

structure TurnDiffTracker (π : Type) where
  valid : Bool
  displayRootsByEnvironment : Table Text π
  baselineByPath : Table (TrackedPath π) TrackedContent
  currentByPath : Table (TrackedPath π) TrackedContent
  originByCurrentPath : Table (TrackedPath π) (TrackedPath π)
  nextRevision : Nat
  renderedDiffs : Table (DiffCacheKey π) (Option Text)
  unifiedDiff : Option Text

/-- What the tracker calls: the texts of paths, the ids of blobs, the diff of two texts with its headers, which
is a coarse one when the deadline passed; and the orders in which hash maps are gone through, which say
every entry. -/
structure DiffHost (π : Type) [DecidableEq π] where
  relativePathFrom : π → π → Option Text
  inferredNativePathString : π → Text
  gitBlobOid : Text → Text
  unifiedDiff : Bool → Text → Text → Text → Text → Text
  iterPaths : Table (TrackedPath π) TrackedContent → List (TrackedPath π)
  iterOrigins : Table (TrackedPath π) (TrackedPath π) → List (TrackedPath π × TrackedPath π)
  mem_iterPaths : ∀ table path, path ∈ iterPaths table ↔ (table.lookup path).isSome = true
  mem_iterOrigins : ∀ table dest origin,
    (dest, origin) ∈ iterOrigins table ↔ table.lookup dest = some origin

namespace TurnDiffTracker

variable {π : Type} [DecidableEq π]

/-- `with_environment_display_roots`. -/
def start (displayRoots : Table Text π) : TurnDiffTracker π :=
  ⟨true, displayRoots, ∅, ∅, ∅, 0, ∅, none⟩

/-! ## Changes -/

/-- `tracked_content`, put into the baseline. -/
def trackBaseline (tracker : TurnDiffTracker π) (path : TrackedPath π) (content : Text) :
    TurnDiffTracker π :=
  { tracker with
    nextRevision := tracker.nextRevision + 1
    baselineByPath := tracker.baselineByPath.insert path ⟨content, tracker.nextRevision⟩ }

/-- `tracked_content`, put into the current contents. -/
def trackCurrent (tracker : TurnDiffTracker π) (path : TrackedPath π) (content : Text) :
    TurnDiffTracker π :=
  { tracker with
    nextRevision := tracker.nextRevision + 1
    currentByPath := tracker.currentByPath.insert path ⟨content, tracker.nextRevision⟩ }

/-- A path in neither map. -/
def untouched (tracker : TurnDiffTracker π) (path : TrackedPath π) : Bool :=
  (tracker.currentByPath.lookup path).isNone && (tracker.baselineByPath.lookup path).isNone

/-- The baseline of a path that is touched for the first time, if there was something. -/
def noteBaseline (tracker : TurnDiffTracker π) (path : TrackedPath π) (content : Option Text) :
    TurnDiffTracker π :=
  match content with
  | some content => if tracker.untouched path then tracker.trackBaseline path content else tracker
  | none => tracker

def applyAdd (tracker : TurnDiffTracker π) (path : TrackedPath π) (content : Text)
    (overwrittenContent : Option Text) : TurnDiffTracker π :=
  let tracker := { tracker with originByCurrentPath := tracker.originByCurrentPath.erase path }
  (tracker.noteBaseline path overwrittenContent).trackCurrent path content

def applyDelete (tracker : TurnDiffTracker π) (path : TrackedPath π) (content : Text) :
    TurnDiffTracker π :=
  let noted := tracker.noteBaseline path (some content)
  { noted with
    currentByPath := noted.currentByPath.erase path
    originByCurrentPath := noted.originByCurrentPath.erase path }

def applyUpdate (tracker : TurnDiffTracker π) (sourcePath : TrackedPath π)
    (movePath : Option (TrackedPath π)) (oldContent : Text) (overwrittenMoveContent : Option Text)
    (newContent : Text) : TurnDiffTracker π :=
  let tracker := tracker.noteBaseline sourcePath (some oldContent)
  match movePath with
  | some destPath =>
    let tracker := tracker.noteBaseline destPath overwrittenMoveContent
    let origin := (tracker.originByCurrentPath.lookup sourcePath).getD sourcePath
    let removed := { tracker with
      originByCurrentPath := tracker.originByCurrentPath.erase sourcePath
      currentByPath := tracker.currentByPath.erase sourcePath }
    let moved := removed.trackCurrent destPath newContent
    let origins := moved.originByCurrentPath.erase destPath
    { moved with
      originByCurrentPath := if destPath ≠ origin then origins.insert destPath origin else origins }
  | none => tracker.trackCurrent sourcePath newContent

def applyChange (tracker : TurnDiffTracker π) (environmentId : Text) (change : AppliedPatchChange π) :
    TurnDiffTracker π :=
  let sourcePath : TrackedPath π := ⟨environmentId, change.path⟩
  match change.change with
  | .add content overwrittenContent => tracker.applyAdd sourcePath content overwrittenContent
  | .delete content => tracker.applyDelete sourcePath content
  | .update movePath oldContent overwrittenMoveContent newContent =>
    tracker.applyUpdate sourcePath (movePath.map fun path => ⟨environmentId, path⟩) oldContent
      overwrittenMoveContent newContent

/-! ## Rendering -/

section

variable (host : DiffHost π)

def displayPath (tracker : TurnDiffTracker π) (path : TrackedPath π) : Text :=
  let display := ((tracker.displayRootsByEnvironment.lookup path.environmentId).bind fun root =>
    host.relativePathFrom path.path root).getD (host.inferredNativePathString path.path)
  if 1 < tracker.displayRootsByEnvironment.size ∧ path.environmentId ≠ [] then
    path.environmentId ++ ['/'] ++ display
  else display

/-- `render_diff`; `late` says that the deadline of the diff passed. -/
def renderDiff (late : Bool) (tracker : TurnDiffTracker π) (leftPath : TrackedPath π)
    (leftContent : Option Text) (rightPath : TrackedPath π) (rightContent : Option Text) : Option Text :=
  if leftContent = rightContent then none
  else
    let slashes (text : Text) : Text := text.map fun c => if c = '\\' then '/' else c
    let leftDisplay := slashes (tracker.displayPath host leftPath)
    let rightDisplay := slashes (tracker.displayPath host rightPath)
    let oid (content : Option Text) : Text := content.elim (List.replicate 40 '0') host.gitBlobOid
    let mode : Text :=
      match leftContent, rightContent with
      | none, some _ => "new file mode 100644\n".toList
      | some _, none => "deleted file mode 100644\n".toList
      | _, _ => []
    let oldHeader := if leftContent.isSome then "a/".toList ++ leftDisplay else "/dev/null".toList
    let newHeader := if rightContent.isSome then "b/".toList ++ rightDisplay else "/dev/null".toList
    some ("diff --git a/".toList ++ leftDisplay ++ " b/".toList ++ rightDisplay ++ ['\n'] ++ mode ++
      "index ".toList ++ oid leftContent ++ "..".toList ++ oid rightContent ++ ['\n'] ++
      host.unifiedDiff late (leftContent.getD []) (rightContent.getD []) oldHeader newHeader)

/-- Is this a file that was moved from a path that is gone to one that is new? -/
def isRename (tracker : TurnDiffTracker π) (destPath originPath : TrackedPath π) : Bool :=
  !(destPath = originPath || (tracker.currentByPath.lookup originPath).isSome ||
    (tracker.currentByPath.lookup destPath).isNone ||
    (tracker.baselineByPath.lookup originPath).isNone ||
    (tracker.baselineByPath.lookup destPath).isSome)

/-- `rename_pairs`: from origins to destinations. Of two files with one origin the last is taken. -/
def renamePairs (tracker : TurnDiffTracker π) : Table (TrackedPath π) (TrackedPath π) :=
  ((host.iterOrigins tracker.originByCurrentPath).filter fun (dest, origin) =>
    tracker.isRename dest origin).foldl (fun pairs (dest, origin) => pairs.insert origin dest) ∅

/-- The loop of `refresh_unified_diff`, as far as it finds the pairs. -/
def pairLoop (renames : Table (TrackedPath π) (TrackedPath π)) :
    List (TrackedPath π) → List (TrackedPath π) → List (TrackedPath π × TrackedPath π)
  | [], _ => []
  | path :: paths, handled =>
    if path ∈ handled then pairLoop renames paths handled
    else if path ∈ renames.entries.map (·.2) then pairLoop renames paths (path :: handled)
    else
      match renames.lookup path with
      | some dest => (path, dest) :: pairLoop renames paths (dest :: path :: handled)
      | none => (path, path) :: pairLoop renames paths (path :: handled)

/-- The paths of both maps, by the texts they are shown as. -/
def sortedPaths (tracker : TurnDiffTracker π) : List (TrackedPath π) :=
  ((host.iterPaths tracker.baselineByPath ++ host.iterPaths tracker.currentByPath).mergeSort
    fun a b => tracker.displayPath host a ≤ tracker.displayPath host b).destutter (· ≠ ·)

/-- The pairs that are rendered. -/
def renderedPairs (tracker : TurnDiffTracker π) : List (TrackedPath π × TrackedPath π) :=
  pairLoop (tracker.renamePairs host) (tracker.sortedPaths host) []

/-- The key of a pair in the cache. -/
def cacheKey (tracker : TurnDiffTracker π) (pair : TrackedPath π × TrackedPath π) : DiffCacheKey π :=
  ⟨pair.1, (tracker.baselineByPath.lookup pair.1).map (·.revision), pair.2,
    (tracker.currentByPath.lookup pair.2).map (·.revision)⟩

variable (late : DiffCacheKey π → Bool)

/-- The diff of a pair. -/
def renderPair (tracker : TurnDiffTracker π) (pair : TrackedPath π × TrackedPath π) : Option Text :=
  tracker.renderDiff host (late (tracker.cacheKey pair)) pair.1
    ((tracker.baselineByPath.lookup pair.1).map (·.content)) pair.2
    ((tracker.currentByPath.lookup pair.2).map (·.content))

/-- One diff more, on a line of its own. -/
def pushDiff (aggregated : Text) : Option Text → Text
  | none => aggregated
  | some diff =>
    let joined := aggregated ++ diff
    if joined.getLast? = some '\n' then joined else joined ++ ['\n']

/-- The loop of `refresh_unified_diff`, as far as it renders: what is found in the cache is taken out of it. -/
def renderLoop (tracker : TurnDiffTracker π) : List (TrackedPath π × TrackedPath π) →
    Table (DiffCacheKey π) (Option Text) → Table (DiffCacheKey π) (Option Text) → Text →
    Table (DiffCacheKey π) (Option Text) × Text
  | [], _, renderedDiffs, aggregated => (renderedDiffs, aggregated)
  | pair :: pairs, previousDiffs, renderedDiffs, aggregated =>
    let key := tracker.cacheKey pair
    let rendered := (previousDiffs.lookup key).getD (tracker.renderPair host late pair)
    renderLoop tracker pairs (previousDiffs.erase key) (renderedDiffs.insert key rendered)
      (pushDiff aggregated rendered)

def refreshUnifiedDiff (tracker : TurnDiffTracker π) : TurnDiffTracker π :=
  let (renderedDiffs, aggregated) :=
    tracker.renderLoop host late (tracker.renderedPairs host) tracker.renderedDiffs ∅ []
  { tracker with
    renderedDiffs := renderedDiffs
    unifiedDiff := if aggregated = [] then none else some aggregated }

def invalidate (tracker : TurnDiffTracker π) : TurnDiffTracker π :=
  { tracker with valid := false, renderedDiffs := ∅, unifiedDiff := none }

def trackDelta (tracker : TurnDiffTracker π) (environmentId : Text) (delta : AppliedPatchDelta π) :
    TurnDiffTracker π :=
  if !tracker.valid then tracker
  else if !delta.exact then tracker.invalidate
  else
    (delta.changes.foldl (fun tracker change => tracker.applyChange environmentId change)
      tracker).refreshUnifiedDiff host late

end

end TurnDiffTracker

/-! ## Files -/

/-- The text files: what each path has. -/
abbrev Workspace (π : Type) := TrackedPath π → Option Text

section

variable {π : Type} [DecidableEq π]

/-- The files with another content at a path. -/
def Workspace.set (workspace : Workspace π) (path : TrackedPath π) (content : Option Text) : Workspace π :=
  fun other => if other = path then content else workspace other

/-- A change, if the contents that it records are true: those before it, and afterwards its new content. -/
def commit (environmentId : Text) (workspace : Workspace π) (change : AppliedPatchChange π) :
    Option (Workspace π) :=
  let path : TrackedPath π := ⟨environmentId, change.path⟩
  match change.change with
  | .add content overwrittenContent =>
    if workspace path = overwrittenContent then some (workspace.set path (some content)) else none
  | .delete content =>
    if workspace path = some content then some (workspace.set path none) else none
  | .update none oldContent _ newContent =>
    if workspace path = some oldContent then some (workspace.set path (some newContent)) else none
  | .update (some movePath) oldContent overwrittenMoveContent newContent =>
    let dest : TrackedPath π := ⟨environmentId, movePath⟩
    if workspace path = some oldContent ∧ workspace dest = overwrittenMoveContent then
      some ((workspace.set path none).set dest (some newContent))
    else none

/-- A turn: its tracker, the files when it began and the files now. -/
structure Turn (π : Type) where
  tracker : TurnDiffTracker π
  initial : Workspace π
  now : Workspace π

/-- A call of `track_delta`: its arguments, and which of its renderings miss their deadline. -/
structure TrackCall (π : Type) where
  environmentId : Text
  delta : AppliedPatchDelta π
  late : DiffCacheKey π → Bool

/-- An exact delta is committed and tracked. -/
def Turn.step (host : DiffHost π) (turn : Turn π) (call : TrackCall π) : Option (Turn π) :=
  if call.delta.exact then
    (call.delta.changes.foldlM (commit call.environmentId) turn.now).map fun now =>
      { turn with
        tracker := turn.tracker.trackDelta host call.late call.environmentId call.delta
        now := now }
  else none

/-- The beginning of a turn. -/
def Turn.begin (displayRoots : Table Text π) (workspace : Workspace π) : Turn π :=
  ⟨TurnDiffTracker.start displayRoots, workspace, workspace⟩

end

end NovumAgent.TurnDiff
