import Mathlib.Logic.Function.Iterate
import NovumAgent.Lib.Text

/-!
# File URIs

The paths of an executor, which need not run on this host, are file URIs. A URI is read by its shape:
with an authority, or with a drive as its first segment, it is a Windows path, otherwise a POSIX path.
A native path that no URI can spell is kept as its bytes.

The path of a URI is a list of percent-encoded segments, as the `url` crate lists them: at least one,
and any of them may be empty. What the crate writes for a name, and what it takes for a host, are
parameters.
-/

namespace NovumAgent

open Text Utf8

inductive PathConvention where
  | posix
  | windows
deriving DecidableEq, Repr

/-- `PathUri`: the bytes of a native path, which the source keeps in a URI of its own kind, or an
ordinary file URI with its authority and its path. -/
inductive PathUri where
  | fallback (bytes : Bytes)
  | file (host : Option Text) (segments : List Text)
deriving DecidableEq, Repr

/-- What the source takes from the `url` crate: the spelling of a name that is pushed to a path, by
whether it is the first, and the host that is set from a text, if it is one. -/
structure UrlCrate where
  encodeSegment : Bool → Text → Text
  setHost : Text → Option Text

/-! ## Percent encoding -/

/-- The value of a hexadecimal digit. -/
def hexDigit (c : Char) : Option Nat :=
  if '0' ≤ c ∧ c ≤ '9' then some (c.toNat - 48)
  else if 'A' ≤ c ∧ c ≤ 'F' then some (c.toNat - 55)
  else if 'a' ≤ c ∧ c ≤ 'f' then some (c.toNat - 87)
  else none

def decodeBinary : Text → Bytes
  | '%' :: a :: b :: rest =>
    match hexDigit a, hexDigit b with
    | some high, some low => UInt8.ofNat (16 * high + low) :: decodeBinary rest
    | none, _ => encode ['%', a] ++ decodeBinary (b :: rest)
    | some _, none => encode ['%', a, b] ++ decodeBinary rest
  | c :: rest => String.utf8EncodeChar c ++ decodeBinary rest
  | [] => []

/-- Whether bytes are the encoding of a text. -/
def isUtf8 (bytes : Bytes) : Bool := encode (fromUtf8Lossy bytes) == bytes

/-- `decode_uri_path`, as bytes: the decoded segment if it is a text, otherwise its spelling. -/
def decodeUriPath (segment : Text) : Bytes :=
  if isUtf8 (decodeBinary segment) then decodeBinary segment else encode segment

/-- `u8::to_ascii_lowercase`. -/
def asciiLowercaseByte (b : UInt8) : UInt8 := if 65 ≤ b ∧ b ≤ 90 then b + 32 else b

def eqIgnoreAsciiCase (a b : Bytes) : Bool := a.map asciiLowercaseByte == b.map asciiLowercaseByte

def isAsciiAlphabetic (c : Char) : Bool := ('A' ≤ c ∧ c ≤ 'Z') ∨ ('a' ≤ c ∧ c ≤ 'z')

def isWindowsDriveUriSegment : Text → Bool
  | [drive, ':'] => isAsciiAlphabetic drive
  | [drive, '%', '3', 'A'] => isAsciiAlphabetic drive
  | [drive, '%', '3', 'a'] => isAsciiAlphabetic drive
  | _ => false

/-! ## Path segments of the `url` crate -/

/-- The segments that are not empty. -/
def names (segments : List Text) : List Text := segments.filter (· ≠ [])

/-- `Url::path`. -/
def pathText (segments : List Text) : Text := segments.flatMap ('/' :: ·)

def popIfEmpty (segments : List Text) : List Text :=
  if 1 < segments.length ∧ segments.getLast? = some [] then segments.dropLast else segments

/-- `PathSegmentsMut::pop`. -/
def popSegment (segments : List Text) : List Text :=
  if 1 < segments.length then segments.dropLast else [[]]

/-- `PathSegmentsMut::push`, of a name that is no dot. -/
def pushSegment (url : UrlCrate) (segments : List Text) (name : Text) : List Text :=
  if segments = [[]] then [url.encodeSegment true name]
  else segments ++ [url.encodeSegment false name]

/-! ## Conventions -/

namespace PathConvention

/-- The number of segments that make up a root. -/
def anchorDepth : PathConvention → Nat
  | posix => 0
  | windows => 1

def isSeparator : PathConvention → Char → Bool
  | posix, c => c = '/'
  | windows, c => c = '/' ∨ c = '\\'

def pathSegments (convention : PathConvention) (path : Text) : List Text :=
  path.splitOnP convention.isSeparator

end PathConvention

def inferOpaquePathConvention : Bytes → Option PathConvention
  | [] => none
  | first :: rest =>
    if first = 47 ∧ rest.head? ≠ some 0 then some .posix
    else if rest.length % 2 = 0 then none
    else
      match rest with
      | second :: third :: fourth :: _ =>
        let isDrive (b : UInt8) : Bool := (65 ≤ b ∧ b ≤ 90) ∨ (97 ≤ b ∧ b ≤ 122)
        let isSeparator (b : UInt8) : Bool := b = 92 ∨ b = 47
        -- The bytes are pairs, the low one first; a character of ASCII has a high byte of zero.
        let hasDrive := second = 0 ∧ isDrive first ∧ third = 58 ∧ fourth = 0
        let hasUncPrefix := second = 0 ∧ isSeparator first ∧ fourth = 0 ∧ isSeparator third
        if hasDrive ∨ hasUncPrefix then some .windows else none
      | _ => none

namespace PathUri

def inferPathConvention : PathUri → Option PathConvention
  | fallback bytes => inferOpaquePathConvention bytes
  | file host segments =>
    if host.isSome then some .windows
    else if (names segments).head?.any isWindowsDriveUriSegment then some .windows
    else some .posix

/-- `Url::host_str`. -/
def host : PathUri → Option Text
  | fallback _ => none
  | file host _ => host

def isOpaque : PathUri → Bool
  | fallback _ => true
  | file _ _ => false

/-- The bytes that stand between segments in a native path. -/
def isSeparatorByte (convention : PathConvention) (b : UInt8) : Bool :=
  b = 47 ∨ convention = .windows ∧ b = 92

def containmentPathSegments (segments : List Text) (convention : PathConvention) :
    Option (List Text) :=
  if (names segments).any fun segment => (decodeBinary segment).any (isSeparatorByte convention) then
    none
  else some (names segments)

/-- When two segments name the same. -/
def sameSegment (convention : PathConvention) (path base : Text) : Bool :=
  match convention with
  | .posix => decodeBinary path == decodeBinary base
  | .windows =>
    eqIgnoreAsciiCase (encode path) (encode base) ||
      eqIgnoreAsciiCase (decodeUriPath path) (decodeUriPath base)

def nativePathSegmentsStartWith (convention : PathConvention) (path base : List Text) : Bool :=
  base.length ≤ path.length ∧ (path.zip base).all fun (p, b) => sameSegment convention p b

def windowsIdentityPathBytes : PathUri → Option Bytes
  | fallback _ => none
  | file host segments =>
    if (file host segments).inferPathConvention ≠ some .windows ∨
        segments.any fun segment => (decodeBinary segment).any (isSeparatorByte .windows) then none
    else some (decodeBinary (pathText segments))

/-- `PathUri::eq`. The source's equality is coarser than that of URIs: the case of Windows paths does
not count. -/
def same (a b : PathUri) : Bool :=
  a == b ||
    match a.windowsIdentityPathBytes, b.windowsIdentityPathBytes with
    | some bytesA, some bytesB => a.host == b.host && eqIgnoreAsciiCase bytesA bytesB
    | _, _ => false

def startsWith (path base : PathUri) : Bool :=
  path.same base ||
    match path, base with
    | file host segments, file baseHost baseSegments =>
      if host ≠ baseHost then false
      else if (file host segments).inferPathConvention ≠
          (file baseHost baseSegments).inferPathConvention then false
      else
        let convention := (file host segments).inferPathConvention.getD .posix
        match containmentPathSegments segments convention,
          containmentPathSegments baseSegments convention with
        | some segments, some baseSegments =>
          nativePathSegmentsStartWith convention segments baseSegments
        | _, _ => false
    | _, _ => false

def lexicalDepth : PathUri → Option Nat
  | fallback _ => none
  | file host segments =>
    (file host segments).inferPathConvention.bind fun convention =>
      (containmentPathSegments segments convention).map (·.length)

def parent : PathUri → Option PathUri
  | fallback _ => none
  | file host segments =>
    (file host segments).inferPathConvention.bind fun convention =>
      if (names segments).length ≤ convention.anchorDepth then none
      else some (file host (popSegment (popIfEmpty segments)))

/-- The last of `ancestors`, a step for each segment. -/
def lastAncestor : Nat → PathUri → PathUri
  | 0, path => path
  | steps + 1, path =>
    match path.parent with
    | some parent => lastAncestor steps parent
    | none => path

/-- The last of `ancestors`: what is left when no parent is. -/
def root : PathUri → PathUri
  | fallback bytes => fallback bytes
  | file host segments => lastAncestor (segments.length + 1) (file host segments)

/-- `basename`, as bytes. -/
def basename : PathUri → Option Bytes
  | fallback _ => none
  | file _ segments => (names segments).getLast?.map decodeUriPath

/-! ## Parsing native paths -/

def withNormalizedWindowsDriveLetter (host : Option Text) (segments : List Text) : List Text :=
  if host.isSome then segments
  else
    let leading := segments.takeWhile (· = [])
    match segments.dropWhile (· = []) with
    | (drive :: rest) :: segments =>
      if isWindowsDriveUriSegment (drive :: rest) ∧ 'a' ≤ drive then
        leading ++ (Char.ofNat (drive.toNat - 32) :: rest) :: segments
      else leading ++ (drive :: rest) :: segments
    | _ => segments

/-- `TryFrom<Url>`, of a file URL without credentials, port, query and fragment. -/
def ofUrl (host : Option Text) (segments : List Text) : Option PathUri :=
  if 0 ∈ decodeBinary (pathText segments) then none
  else
    let host := if host = some "localhost".toList then none else host
    some (file host (withNormalizedWindowsDriveLetter host segments))

/-- One turn of the loop of `path_uri_from_segments`: the segments so far, and whether the path ends
in a separator. -/
def normalizeSegment (anchorDepth : Nat) (state : List Text × Bool) (segment : Text) :
    List Text × Bool :=
  if segment = [] then (state.1, true)
  else if segment = ['.'] then (state.1, false)
  else if segment = ['.', '.'] then
    (if anchorDepth < state.1.length then state.1.dropLast else state.1, false)
  else (state.1 ++ [segment], false)

/-- `path_uri_from_segments`. -/
def ofSegments (url : UrlCrate) (convention : PathConvention) (host : Option Text)
    (segments : List Text) : Option PathUri :=
  let parsed : Option (Option Text) :=
    match host with
    | some host => (url.setHost host).map some
    | none => some none
  parsed.bind fun urlHost =>
    let (normalized, trailing) :=
      segments.foldl (normalizeSegment convention.anchorDepth) ([], false)
    let trailing := trailing ∨
      convention = .windows ∧ host = none ∧ normalized.length = convention.anchorDepth
    let pushed := normalized.foldl (pushSegment url) [[]]
    ofUrl urlHost (if trailing ∧ pushed ≠ [[]] then pushed ++ [[]] else pushed)

def parsePosixPath (url : UrlCrate) : Text → Option PathUri
  | '/' :: path =>
    if '\x00' ∈ path then some (fallback (encode ('/' :: path)))
    else ofSegments url .posix none (path.splitOnP (· = '/'))
  | _ => none

/-- `char::encode_utf16`, with the bytes of each unit in little-endian order. -/
def encodeUtf16Le (c : Char) : Bytes :=
  let unit (n : Nat) : Bytes := [UInt8.ofNat (n % 256), UInt8.ofNat (n / 256)]
  if c.toNat < 0x10000 then unit c.toNat
  else unit (0xD800 + (c.toNat - 0x10000) / 1024) ++ unit (0xDC00 + (c.toNat - 0x10000) % 1024)

def windowsOpaquePathUri (path : Text) : PathUri := fallback (path.flatMap encodeUtf16Le)

def isWindowsSeparator (c : Char) : Bool := PathConvention.windows.isSeparator c

def isWindowsDriveAbsolutePath : Text → Bool
  | drive :: ':' :: separator :: _ => isAsciiAlphabetic drive ∧ isWindowsSeparator separator
  | _ => false

def normalizeWindowsDevicePath (path : Text) : Option Text :=
  match stripPrefix "\\\\?\\UNC\\".toList path with
  | some unc => some ("\\\\".toList ++ unc)
  | none =>
    match stripPrefix "\\\\.\\UNC\\".toList path with
    | some unc => some ("\\\\".toList ++ unc)
    | none =>
      match (stripPrefix "\\\\?\\".toList path).filter isWindowsDriveAbsolutePath with
      | some path => some path
      | none => (stripPrefix "\\\\.\\".toList path).filter isWindowsDriveAbsolutePath

/-- A component that names no host and no share. -/
def isDotOrEmpty (component : Option Text) : Bool :=
  component ∈ [none, some [], some ['.'], some ['.', '.']]

def parseUnnormalizedWindowsPath (url : UrlCrate) (path : Text) : Option PathUri :=
  let usesNamespace : Bool :=
    match path with
    | first :: second :: device :: separator :: _ =>
      isWindowsSeparator first ∧ isWindowsSeparator second ∧ isWindowsSeparator separator ∧
        (device = '.' ∨ device = '?')
    | _ => false
  if usesNamespace ∨ '\x00' ∈ path then some (windowsOpaquePathUri path)
  else if isWindowsDriveAbsolutePath path then
    ofSegments url .windows none (path.take 2 :: (path.drop 3).splitOnP isWindowsSeparator)
  else if (path.take 2).length = 2 ∧ (path.take 2).all isWindowsSeparator then
    match (path.drop 2).splitOnP isWindowsSeparator with
    | host :: share :: components =>
      if host = [] ∨ share = [] then none
      else if isDotOrEmpty (some host) ∨ isDotOrEmpty (some share) then
        some (windowsOpaquePathUri path)
      else
        match ofSegments url .windows (some host) (share :: components) with
        | some (file (some parsed) segments) =>
          if eqIgnoreAsciiCase (encode parsed) (encode host) then some (file (some parsed) segments)
          else some (windowsOpaquePathUri path)
        | _ => some (windowsOpaquePathUri path)
    | _ => none
  else none

def parseWindowsPath (url : UrlCrate) (path : Text) : Option PathUri :=
  match normalizeWindowsDevicePath path with
  | none => parseUnnormalizedWindowsPath url path
  | some normalized =>
    let isUnc := (stripPrefix "\\\\".toList normalized).isSome
    let components := ((stripPrefix "\\\\".toList normalized).getD []).splitOnP isWindowsSeparator
    if isUnc ∧ (isDotOrEmpty components[0]? ∨ isDotOrEmpty components[1]?) then
      some (windowsOpaquePathUri path)
    else
      match parseUnnormalizedWindowsPath url normalized with
      | some (file host segments) =>
        if (file host segments).inferPathConvention = some .windows ∧
            (¬ isUnc ∨ host.any (· ≠ [])) then some (file host segments)
        else some (windowsOpaquePathUri path)
      | _ => some (windowsOpaquePathUri path)

def fromAbsoluteNativePath (url : UrlCrate) (path : Text) (convention : PathConvention) :
    Option PathUri :=
  let parsed :=
    match convention with
    | .posix => parsePosixPath url path
    | .windows => parseWindowsPath url path
  parsed.map fun uri =>
    if uri.host ≠ some [] ∧ uri.inferPathConvention = some convention then uri
    else
      match convention with
      | .posix => fallback (encode path)
      | .windows => windowsOpaquePathUri path

/-! ## Joining -/

/-- One turn of the loop of `join`: the segments so far, and the count of names that the source keeps
beside them. -/
def joinComponent (url : UrlCrate) (anchorDepth : Nat) (state : List Text × Nat) (component : Text) :
    List Text × Nat :=
  if component = [] ∨ component = ['.'] then state
  else if component = ['.', '.'] then
    if anchorDepth < state.2 then (popSegment state.1, state.2 - 1) else state
  else (pushSegment url state.1 component, state.2 + 1)

/-- The relative part of a path that may start with a drive: a drive other than that of the base has
no known directory. -/
def withoutDrive (convention : PathConvention) (segments : List Text) (path : Text) : Option Text :=
  match path with
  | drive :: ':' :: rest =>
    if convention = .windows ∧ isAsciiAlphabetic drive then
      match (names segments).head? with
      | some (baseDrive :: base) =>
        if isWindowsDriveUriSegment (baseDrive :: base) ∧
            eqIgnoreAsciiCase (encode [baseDrive]) (encode [drive]) then some rest
        else none
      | _ => none
    else some path
  | _ => some path

/-- Whether a relative Windows path starts at the root of its drive. -/
def isRootRelative (convention : PathConvention) (path : Text) : Bool :=
  convention = .windows ∧ path.head?.any isWindowsSeparator ∧ ¬ path.tail.head?.any isWindowsSeparator

/-- `join`, as far as it succeeds. -/
def join (url : UrlCrate) (base : PathUri) (path : Text) : Option PathUri :=
  if '\x00' ∈ path then none
  else if path = [] then some base
  else
    base.inferPathConvention.bind fun convention =>
      match fromAbsoluteNativePath url path convention with
      | some absolute => some absolute
      | none =>
        match base with
        | fallback _ => none
        | file host segments =>
          (withoutDrive convention segments path).bind fun path =>
            let depth := (names segments).length
            let start :=
              if isRootRelative convention path then
                (popSegment^[depth - convention.anchorDepth] (popIfEmpty segments),
                  min depth convention.anchorDepth)
              else (popIfEmpty segments, depth)
            ofUrl host ((convention.pathSegments path).foldl
              (joinComponent url convention.anchorDepth) start).1

/-- `join_descendant`, as far as it succeeds. -/
def joinDescendant (url : UrlCrate) (base : PathUri) (path : Text) : Option PathUri :=
  (base.join url path).bind fun descendant =>
    let isWindows := base.inferPathConvention = some .windows
    if path.head? = some '/' ∨ isWindows ∧ (path.head? = some '\\' ∨
          (PathConvention.windows.pathSegments path).any (':' ∈ ·)) ∨
        ¬ descendant.startsWith base then none
    else some descendant

end PathUri

end NovumAgent
