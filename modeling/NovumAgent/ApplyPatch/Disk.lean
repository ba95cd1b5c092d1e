import Mathlib.Logic.Function.Basic
import NovumAgent.ApplyPatch.FileUpdate

/-!
# The file system a patch is applied to

A disk is a map from places to what stands there. Paths are of any type: the way a text of the patch
becomes a path, and the directories above a path, belong to the environment. A path leads to a place
of the same type, the path without links among its directories; no operation makes or removes such a
link, so the places of paths are fixed (`spot`). What is a link at its place is a node of the disk,
which reads and writes follow and a removal does not.

An operation may fail. The failures are a script, one entry for each operation in the order in which
they are asked for, so that a statement about every script is one about every pattern of failures.
A failed write leaves any contents at its target, or none; a failed removal may have removed. What
is read reports `notFound` only of what is not there. A missing directory above a file is one of the
failures a write may meet; the disk has no opinion about it.
-/

namespace NovumAgent.ApplyPatch

/-- What apply-patch needs to know about paths, and the diff it shows of an update. -/
structure Env (P : Type) where
  /-- `PathUri::join`; `none` is its error. -/
  join : P → Text → Option P
  /-- The directories above a path, the nearest first. -/
  parents : P → List P
  /-- `PathUri::inferred_native_path_string`. -/
  nativePath : P → Text
  /-- The unified diff of two texts, with so many lines of context. -/
  unifiedDiff : Nat → Text → Text → Text

/-- An error of the file system: the kind the code tells apart, the one it makes itself ("path is a
directory"), and the rest. -/
inductive IoError where
  | notFound
  | isDirectory
  | other
deriving DecidableEq

/-- The bytes of a regular file, told apart by whether they read as text. -/
inductive Contents where
  | text (content : Text)
  | binary (bytes : Bytes)
deriving DecidableEq

/-- What stands at a place. A link leads to another place; a device is a thing that is neither a file
nor a directory, with what reading it gives. -/
inductive Node (P : Type) where
  | regular (contents : Contents)
  | link (target : P)
  | device (reads : Option Text)
  | directory
deriving DecidableEq

/-- A regular file of this text. -/
abbrev Node.text {P : Type} (content : Text) : Node P := .regular (.text content)

/-- The parts of `FileMetadata` that the code looks at. -/
structure Metadata where
  isDirectory : Bool
  isFile : Bool
  isSymlink : Bool

/-- The metadata of a node that was reached through a link or not. -/
def Node.metadata {P : Type} (isSymlink : Bool) : Node P → Metadata
  | .regular _ => ⟨false, true, isSymlink⟩
  | .link _ | .device _ => ⟨false, false, isSymlink⟩
  | .directory => ⟨true, false, isSymlink⟩

/-- What `read_file_text` gives of a node. -/
def Node.read {P : Type} : Node P → Except IoError Text
  | .regular (.text content) | .device (some content) => .ok content
  | .regular (.binary _) | .link _ | .device none | .directory => .error .other

/-- A disk. -/
abbrev Disk (P : Type) := P → Option (Node P)

/-- How an operation fails: the error, what a write leaves at its target, and whether a removal
removed. -/
structure Fault where
  error : IoError
  left : Option Contents
  removed : Bool
deriving DecidableEq

section Operations

variable {P : Type} {spot : P → P} [DecidableEq P]

/-- The disk of a map from paths to texts. -/
def Disk.ofTexts (texts : P → Option Text) : Disk P := fun p => (texts p).map Node.text

/-- The disk with its directories left out: what a patch can change. -/
def Disk.files (disk : Disk P) : Disk P := fun p => (disk p).filter (· ≠ .directory)

/-- The place that links lead to, with fuel for one more place than links are followed. -/
def Disk.follow (disk : Disk P) : Nat → P → Option P
  | 0, _ => none
  | fuel + 1, place =>
    match disk place with
    | some (.link target) => disk.follow fuel target
    | _ => some place

/-- The place that is opened: at most forty links are followed. -/
def Disk.target (disk : Disk P) (place : P) : Option P := disk.follow 41 place

/-- Whether a link stands at the place. -/
def Disk.isLink (disk : Disk P) (place : P) : Bool :=
  match disk place with
  | some (.link _) => true
  | _ => false

/-- `get_metadata` that does not fail. A link is followed, and still reported as one. -/
def Disk.metadata (disk : Disk P) (place : P) : Except IoError Metadata :=
  match disk.target place with
  | none => .error .other
  | some target =>
    match disk target with
    | none => .error .notFound
    | some node => .ok (node.metadata (disk.isLink place))

/-- `read_file_text` that does not fail. -/
def Disk.read (disk : Disk P) (place : P) : Except IoError Text :=
  match disk.target place with
  | none => .error .other
  | some target =>
    match disk target with
    | none => .error .notFound
    | some node => node.read

/-- The disk once the place that is opened holds something else. -/
def Disk.put (disk : Disk P) (place : P) (node : Option (Node P)) : Disk P :=
  match disk.target place with
  | none => disk
  | some target => Function.update disk target node

/-- The disk and the failures still to come, where paths lead to these places. -/
structure World (P : Type) (spot : P → P) where
  disk : Disk P
  faults : List (Option Fault)

/-- What becomes of the next operation. -/
def World.fault (w : World P spot) : Option Fault := w.faults.head?.join

/-- The world once an operation took its entry of the script and left this disk. -/
def World.after (disk : Disk P) (w : World P spot) : World P spot := ⟨disk, w.faults.tail⟩

def World.getMetadata (path : P) (w : World P spot) : Except IoError Metadata × World P spot :=
  let result := match w.fault with
    | some _ => .error .other
    | none => w.disk.metadata (spot path)
  (result, w.after w.disk)

def World.readFileText (path : P) (w : World P spot) : Except IoError Text × World P spot :=
  let result := match w.fault with
    | some _ => .error .other
    | none => w.disk.read (spot path)
  (result, w.after w.disk)

/-- `ExecutorFileSystem::write_file`. A device takes what is written to it. -/
def World.writeFile (path : P) (content : Text) (w : World P spot) :
    Except IoError Unit × World P spot :=
  match w.fault, w.disk.target (spot path) with
  | some fault, _ =>
    (.error fault.error, w.after (w.disk.put (spot path) (fault.left.map .regular)))
  | none, none => (.error .other, w.after w.disk)
  | none, some target =>
    match w.disk target with
    | some .directory => (.error .other, w.after w.disk)
    | some (.device _) => (.ok (), w.after w.disk)
    | _ => (.ok (), w.after (w.disk.put (spot path) (some (.text content))))

/-- `ExecutorFileSystem::create_directory`, recursive: the first of the directories is the one asked
for and the others are those above it. -/
def World.createDirectory (directories : List P) (w : World P spot) :
    Except IoError Unit × World P spot :=
  match w.fault with
  | some fault => (.error fault.error, w.after w.disk)
  | none =>
    if directories.all fun d => w.disk (spot d) == none ||
        (w.disk.target (spot d)).bind w.disk == some .directory then
      (.ok (), w.after fun p =>
        if w.disk p = none ∧ p ∈ directories.map spot then some .directory else w.disk p)
    else (.error .other, w.after w.disk)

/-- `ExecutorFileSystem::remove`, neither recursive nor forced. A link is removed itself. -/
def World.remove (path : P) (w : World P spot) : Except IoError Unit × World P spot :=
  match w.fault, w.disk (spot path) with
  | some fault, _ =>
    (.error fault.error,
      w.after (if fault.removed then Function.update w.disk (spot path) none else w.disk))
  | none, none => (.error .notFound, w.after w.disk)
  | none, some .directory => (.error .other, w.after w.disk)
  | none, some _ => (.ok (), w.after (Function.update w.disk (spot path) none))

end Operations

end NovumAgent.ApplyPatch
