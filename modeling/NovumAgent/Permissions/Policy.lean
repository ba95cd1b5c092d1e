import NovumAgent.PathUri.Uri

/-!
# File system policies

A policy is a list of entries, each of which gives or denies access to a path, to a glob, or to a
place that only the executor knows. The entries that apply to a path are compared by depth, and at one
depth by access: a denial wins over a write, and a write over a read. Beside that, the metadata
directories at the top of a writable root are kept from writes, unless an entry of their own opens
them.
-/

namespace NovumAgent.Permissions

open Text

/-! ## Entries -/

inductive FileSystemAccessMode where
  | read
  | write
  | deny
deriving DecidableEq, Repr

namespace FileSystemAccessMode

/-- The order of the variants, in which conflicts are settled. -/
def rank : FileSystemAccessMode → Nat
  | read => 0
  | write => 1
  | deny => 2

def canWrite (access : FileSystemAccessMode) : Bool := access = write

end FileSystemAccessMode

inductive FileSystemSpecialPath where
  | root
  | minimal
  | projectRoots (subpath : Option Text)
  | tmpdir
  | slashTmp
  | unknown (path : Text) (subpath : Option Text)
deriving DecidableEq, Repr

inductive FileSystemPath where
  | path (path : PathUri)
  | globPattern (pattern : Text)
  | special (value : FileSystemSpecialPath)
deriving DecidableEq, Repr

/-- `FileSystemSandboxEntry`, without its behaviour on missing paths. -/
structure FileSystemSandboxEntry where
  path : FileSystemPath
  access : FileSystemAccessMode
deriving DecidableEq, Repr

def FileSystemSandboxEntry.new (path : FileSystemPath) (access : FileSystemAccessMode) :
    FileSystemSandboxEntry :=
  ⟨path, access⟩

inductive FileSystemSandboxKind where
  | restricted
  | unrestricted
  | externalSandbox
deriving DecidableEq, Repr

structure FileSystemSandboxPolicy where
  kind : FileSystemSandboxKind
  globScanMaxDepth : Option Nat
  entries : List FileSystemSandboxEntry

def FileSystemSandboxPolicy.restricted (entries : List FileSystemSandboxEntry) :
    FileSystemSandboxPolicy :=
  ⟨.restricted, none, entries⟩

structure FileSystemSandboxPolicyContext where
  cwd : PathUri
  workspaceRoots : List PathUri
  userHomeDir : Option PathUri
  temporaryDirectories : Option (List PathUri)

def fileSystemRoot (context : FileSystemSandboxPolicyContext) : Option PathUri :=
  context.cwd.lexicalDepth.map fun _ => context.cwd.root

section Resolution

variable (url : UrlCrate) (context : FileSystemSandboxPolicyContext)

/-! ## What entries stand for -/

/-- The paths that an entry of `resolved_entries` stands for, before those of another convention are
dropped. -/
def entryPaths : FileSystemPath → List PathUri
  | .path path => [path]
  | .globPattern _ => []
  | .special .root => (fileSystemRoot context).toList
  | .special (.projectRoots none) => context.workspaceRoots
  | .special (.projectRoots (some subpath)) =>
    context.workspaceRoots.filterMap fun root => root.join url subpath
  | .special .tmpdir => context.temporaryDirectories.getD []
  | .special .slashTmp =>
    if context.cwd.inferPathConvention = some .posix then
      (context.cwd.join url "/tmp".toList).toList
    else []
  | .special .minimal => []
  | .special (.unknown _ _) => []

/-- One entry of `resolved_entries`. -/
def resolveEntry (entry : FileSystemSandboxEntry) : List (PathUri × FileSystemAccessMode) :=
  ((entryPaths url context entry.path).filter
    (·.inferPathConvention = context.cwd.inferPathConvention)).map (·, entry.access)

def resolvedEntries (policy : FileSystemSandboxPolicy) : List (PathUri × FileSystemAccessMode) :=
  policy.entries.flatMap (resolveEntry url context)

/-! ## Access -/

/-- Whether the key of one entry is at most that of another, by depth and then by access. -/
def keyLe (a b : FileSystemAccessMode × Nat) : Bool :=
  a.2 < b.2 ∨ a.2 = b.2 ∧ a.1.rank ≤ b.1.rank

/-- `max_by_key`: the last of the largest. -/
def maxByKey (entries : List (FileSystemAccessMode × Nat)) : Option (FileSystemAccessMode × Nat) :=
  entries.foldl (fun best entry =>
    match best with
    | none => some entry
    | some best => if keyLe best entry then some entry else some best) none

/-- The depth of a resolved entry. A path that is kept as bytes is passed over, any other path
without a depth makes the whole resolution fail. -/
def entryDepths : List (PathUri × FileSystemAccessMode) →
    Option (List (PathUri × FileSystemAccessMode × Nat))
  | [] => some []
  | (root, access) :: entries =>
    match root.lexicalDepth with
    | some depth => (entryDepths entries).map ((root, access, depth) :: ·)
    | none => if root.isOpaque then entryDepths entries else none

def resolveAccess (policy : FileSystemSandboxPolicy) (path : PathUri) : FileSystemAccessMode :=
  if policy.kind ≠ .restricted then .write
  else
    match context.cwd.inferPathConvention with
    | none => .deny
    | some convention =>
      if path.inferPathConvention ≠ some convention ∨ path.lexicalDepth = none ∨
          context.cwd.lexicalDepth = none then .deny
      else
        match entryDepths (resolvedEntries url context policy) with
        | none => .deny
        | some entries =>
          match maxByKey ((entries.filter fun entry => path.startsWith entry.1).map (·.2)) with
          | some (access, _) => access
          | none => .deny

end Resolution

/-! ## Writing everywhere -/

def hasRootAccess (policy : FileSystemSandboxPolicy) (predicate : FileSystemAccessMode → Bool) :
    Bool :=
  policy.kind = .restricted ∧
    policy.entries.any fun entry => entry.path = .special .root ∧ predicate entry.access

def specialPathMatchesPathUri (value : FileSystemSpecialPath) (path : PathUri) : Bool :=
  match value with
  | .root => path.lexicalDepth.isSome ∧ path.parent = none
  | .slashTmp =>
    path.inferPathConvention = some .posix ∧ path.lexicalDepth = some 1 ∧
      path.basename = some (Utf8.encode "tmp".toList)
  | _ => false

/-- `file_system_paths_share_target`. Two special paths share a target when they are the same token:
`special_paths_share_target`. -/
def fileSystemPathsShareTarget (left right : FileSystemPath) (convention : PathConvention) : Bool :=
  match left, right with
  | .path left, .path right => left.same right
  | .special left, .special right => left = right
  | .path path, .special value =>
    path.inferPathConvention = some convention ∧ specialPathMatchesPathUri value path
  | .special value, .path path =>
    path.inferPathConvention = some convention ∧ specialPathMatchesPathUri value path
  | .globPattern left, .globPattern right => left = right
  | .globPattern _, _ => false
  | _, .globPattern _ => false

def hasSameTargetWriteOverride (policy : FileSystemSandboxPolicy) (entry : FileSystemSandboxEntry)
    (convention : PathConvention) : Bool :=
  policy.entries.any fun candidate =>
    candidate.access.canWrite ∧ entry.access.rank < candidate.access.rank ∧
      fileSystemPathsShareTarget candidate.path entry.path convention

def hasWriteNarrowingEntries (policy : FileSystemSandboxPolicy) (convention : PathConvention) :
    Bool :=
  policy.kind = .restricted ∧ policy.entries.any fun entry =>
      if entry.access.canWrite then false
      else
        match entry.path with
        | .path _ => !hasSameTargetWriteOverride policy entry convention
        | .globPattern _ => true
        | .special .root => entry.access = .deny
        | .special .minimal => false
        | .special (.unknown _ _) => false
        | .special .slashTmp =>
          convention = .posix ∧ !hasSameTargetWriteOverride policy entry convention
        | .special _ => !hasSameTargetWriteOverride policy entry convention

def hasFullDiskWriteAccessForConvention (policy : FileSystemSandboxPolicy)
    (convention : Option PathConvention) : Bool :=
  policy.kind ≠ .restricted ∨ convention.any fun convention =>
      hasRootAccess policy (·.canWrite) ∧ !hasWriteNarrowingEntries policy convention

def hasFullDiskWriteAccessWithContext (policy : FileSystemSandboxPolicy)
    (context : FileSystemSandboxPolicyContext) : Bool :=
  hasFullDiskWriteAccessForConvention policy context.cwd.inferPathConvention

/-! ## Metadata -/

def protectedMetadataPathNames : List Text :=
  [".git".toList, ".agents".toList, ".codex".toList, ".aws".toList]

section Metadata

variable (url : UrlCrate) (context : FileSystemSandboxPolicyContext)
  (policy : FileSystemSandboxPolicy) (path : PathUri)

/-- The roots that a policy gives writes to. -/
def writeRoots : List PathUri :=
  ((resolvedEntries url context policy).filter (·.2.canWrite)).map (·.1)

/-- The metadata directory of a root that a path is in, with its name. -/
def protectedOver (root : PathUri) : Option (PathUri × Text) :=
  protectedMetadataPathNames.findSome? fun name =>
    match root.joinDescendant url name with
    | some protectedDir => if path.startsWith protectedDir then some (protectedDir, name) else none
    | none => none

/-- Whether a write entry at or below a metadata directory covers a path. -/
def opened (protectedDir : PathUri) : Bool :=
  (writeRoots url context policy).any fun root =>
    path.startsWith root ∧ root.startsWith protectedDir

def metadataWriteDenial : Option Text :=
  if policy.kind ≠ .restricted then none
  else
    match (writeRoots url context policy).findSome? (protectedOver url path) with
    | none => none
    | some (protectedDir, name) =>
      if opened url context policy path protectedDir then none else some name

def canWritePath : Bool :=
  (resolveAccess url context policy path).canWrite ∧
    (hasFullDiskWriteAccessWithContext policy context ∨
      metadataWriteDenial url context policy path = none)

end Metadata

/-- What the host makes of a native path and a working directory: the path as a URI, and the context
that `with_local_policy_context` evaluates it in. -/
structure LocalHost where
  localPolicyContext : Text → Text → Option (PathUri × FileSystemSandboxPolicyContext)

def forbiddenAgentMetadataWrite (url : UrlCrate) (host : LocalHost) (path cwd : Text)
    (policy : FileSystemSandboxPolicy) : Option Text :=
  if policy.kind ≠ .restricted then none
  else
    (host.localPolicyContext path cwd).bind fun (path, context) =>
      (metadataWriteDenial url context policy path).filter fun _ =>
        !canWritePath url context policy path

end NovumAgent.Permissions
