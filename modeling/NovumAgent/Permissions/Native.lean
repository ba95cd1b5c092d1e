import NovumAgent.Permissions.Policy

/-!
# Native paths

The paths of the host that the code runs on, a Unix system: lists of names below the root. A relative
path is read against a base, and a tilde at its front stands for the home directory.
-/

namespace NovumAgent.Permissions

open Text Utf8

/-- A name in a native path: some bytes, without a slash, and no dots that stand for a directory. -/
def Name : Type := { bytes : Bytes // bytes ≠ [] ∧ 47 ∉ bytes ∧ bytes ≠ [46] ∧ bytes ≠ [46, 46] }
deriving DecidableEq

/-- `std::path::Component`, of an absolute path behind its root and without the current directory. -/
inductive Component where
  | parentDir
  | normal (name : Name)

/-- `Path::components` of the text between slashes. -/
def component (bytes : Bytes) : Option Component :=
  if bytes = [46, 46] then some .parentDir
  else if h : bytes ≠ [] ∧ 47 ∉ bytes ∧ bytes ≠ [46] ∧ bytes ≠ [46, 46] then
    some (.normal ⟨bytes, h⟩)
  else none

def components (bytes : Bytes) : List Component := (bytes.splitOnP (· = 47)).filterMap component

/-- `AbsolutePathBuf`: a path from the root that has no dots in it. -/
structure AbsolutePathBuf where
  names : List Name
deriving DecidableEq

namespace AbsolutePathBuf

def components (path : AbsolutePathBuf) : List Component := path.names.map .normal

end AbsolutePathBuf

/-- One turn of the loop of `normalize_path`. -/
def pushComponent (names : List Name) : Component → List Name
  | .parentDir => names.dropLast
  | .normal name => names ++ [name]

/-- `normalize_path`, of an absolute path. -/
def normalizePath (path : List Component) : AbsolutePathBuf := ⟨path.foldl pushComponent []⟩

/-- `AbsolutePathBuf::resolve_path_against_base`, with the home directory that a tilde stands for. -/
def resolvePathAgainstBase (home : Option (List Component)) (path : Text) (base : AbsolutePathBuf) :
    AbsolutePathBuf :=
  let plain :=
    if path.head? = some '/' then normalizePath (components (encode path))
    else normalizePath (base.components ++ components (encode path))
  match path, home with
  | ['~'], some home => normalizePath home
  | '~' :: '/' :: rest, some home =>
    normalizePath (home ++ components (encode (rest.dropWhile (· = '/'))))
  | _, _ => plain

end NovumAgent.Permissions
