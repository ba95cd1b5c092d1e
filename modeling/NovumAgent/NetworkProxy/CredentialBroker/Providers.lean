import NovumAgent.Lib.Table
import NovumAgent.NetworkProxy.AuthorizationPath
import NovumAgent.NetworkProxy.Domains

/-!
# Providers of credentials

A credential belongs to a provider, which knows where a credential stands in the headers of a request and how a
stand-in for it is exchanged for the real one, and it is bound to hosts: to names, to name patterns, or to the
destinations of a configuration, which also have a scheme, a port and a path.

The crates for headers, URLs and base64 are parameters (`Wire`). A built-in provider is known by its name; a
configured one by its address, since that is what the source compares.
-/

namespace NovumAgent.NetworkProxy.CredentialBroker

open Text

/-! ## Headers and URLs -/

/-- `HeaderName`, in the lower case it is kept in. -/
abbrev HeaderName := Text

abbrev HeaderValue := Bytes

abbrev HeaderMap := Table HeaderName (List HeaderValue)

/-- `HeaderMap::get`: the first value. -/
def HeaderMap.get (headers : HeaderMap) (name : HeaderName) : Option HeaderValue :=
  (headers.lookup name).bind (·.head?)

/-- `HeaderMap::insert`: the one value. -/
def HeaderMap.put (headers : HeaderMap) (name : HeaderName) (value : HeaderValue) : HeaderMap :=
  AList.insert name [value] headers

def authorization : HeaderName := "authorization".toList

/-- What is read of a `Url`. -/
structure Url where
  scheme : Text
  hostStr : Option Text
  portOrKnownDefault : Option Nat
  path : Text

/-- The crates: `HeaderValue::from_str` and `to_str`, base64 in both directions, `Url::parse`, and the path of a
text that is parsed as a `Uri`. -/
structure Wire extends Crates where
  fromStr : Text → Option HeaderValue
  toStr : HeaderValue → Option Text
  encode64 : Bytes → Text
  decode64 : Text → Option Bytes
  parseUrl : Text → Option Url
  parseUriPath : Text → Option Text

/-- `str::eq_ignore_ascii_case`. -/
def sameIgnoringCase (a b : Text) : Bool := toAsciiLowercase a = toAsciiLowercase b

/-- What stands before and behind the first colon. -/
def splitColon (bytes : Bytes) : Option (Bytes × Bytes) :=
  match bytes.dropWhile (· ≠ 58) with
  | [] => none
  | _ :: behind => some (bytes.takeWhile (· ≠ 58), behind)

/-! ## Bindings to hosts -/

inductive CredentialDestinationScheme where
  | http
  | https

def CredentialDestinationScheme.asStr : CredentialDestinationScheme → Text
  | .http => "http".toList
  | .https => "https".toList

def CredentialDestinationScheme.defaultPort : CredentialDestinationScheme → Nat
  | .http => 80
  | .https => 443

structure CredentialDestination where
  scheme : CredentialDestinationScheme
  host : Text
  wildcard : Bool
  port : Nat
  pathPrefix : Text

namespace CredentialDestination

def matchesHost (destination : CredentialDestination) (host : Text) (port : Nat) : Bool :=
  if destination.port ≠ port then false
  else if destination.wildcard then
    destination.host.isSuffixOf host &&
      (host.take (host.length - destination.host.length)).getLast? = some '.'
  else host = destination.host

def matchesRequest (destination : CredentialDestination) (host : Text) : Option Url → Bool
  | none => false
  | some request =>
    if request.scheme ≠ destination.scheme.asStr || !destination.matchesHost host
          (request.portOrKnownDefault.getD destination.scheme.defaultPort) then false
    else if !isSafeForAuthorization request.path then false
    else
      destination.pathPrefix = ['/'] || request.path = destination.pathPrefix ||
        match stripPrefix destination.pathPrefix request.path with
        | some rest => destination.pathPrefix.getLast? = some '/' || rest.head? = some '/'
        | none => false

end CredentialDestination

inductive CredentialHostBinding where
  | exactHost (host : Text)
  | exactHosts (hosts : List Text)
  | hostPattern (exactHosts suffixes : List Text)
  | configuredHosts (destinations : List CredentialDestination)

namespace CredentialHostBinding

def matchesHost (binding : CredentialHostBinding) (host : Text) (port : Nat) : Bool :=
  match binding with
  | exactHost expected => host = expected
  | exactHosts expected => host ∈ expected
  | hostPattern names suffixes => host ∈ names || suffixes.any fun tail => tail.isSuffixOf host
  | configuredHosts destinations => destinations.any fun destination => destination.matchesHost host port

def matchesRequest (binding : CredentialHostBinding) (host : Text) (request : Option Url) : Bool :=
  match binding with
  | configuredHosts destinations =>
    destinations.any fun destination => destination.matchesRequest host request
  | binding =>
    request.all (fun request => request.scheme = "https".toList) &&
      binding.matchesHost host ((request.bind (·.portOrKnownDefault)).getD 443)

end CredentialHostBinding

/-! ## Providers -/

/-- The built-in providers, `github::PROVIDER` and `openai::PROVIDER`. -/
inductive BuiltinProvider where
  | github
  | openai
deriving DecidableEq

inductive CredentialAuthMethod where
  | bearer
  | token
  | basic
  | header

/-- What is read of a `ConfiguredCredentialProvider` when headers are translated, and the address it is known by. -/
structure ConfiguredCredentialProvider where
  address : Nat
  auth : List CredentialAuthMethod
  headerPrefix : Option Text
  header : Option HeaderName

inductive BrokeredCredentialProvider where
  | builtin (provider : BuiltinProvider)
  | configured (provider : ConfiguredCredentialProvider)

section

variable (wire : Wire)

/-- The basic credentials with a stand-in exchanged: all of them, the user or the password. -/
def translateBasic (decoded expected replacement : Bytes) : Option Bytes :=
  if decoded = expected then some replacement
  else
    match splitColon decoded with
    | none => none
    | some (username, password) =>
      if username ≠ expected ∧ password ≠ expected then none
      else
        some ((if username = expected then replacement else username) ++ [58] ++
          (if password = expected then replacement else password))

/-- `github::translate_request_header`, which is also `translate_standard_request_header`. -/
def translateStandardRequestHeader (headers : HeaderMap) (expected replacement : Text) :
    Option HeaderValue :=
  match (headers.get authorization).bind wire.toStr with
  | none => none
  | some header =>
    match splitOnce [' '] header with
    | none => none
    | some (scheme, value) =>
      let value := trim value
      if sameIgnoringCase scheme "basic".toList then
        match wire.decode64 value with
        | none => none
        | some decoded =>
          (translateBasic decoded (Utf8.encode expected) (Utf8.encode replacement)).bind fun translated =>
            wire.fromStr (scheme ++ [' '] ++ wire.encode64 translated)
      else if (sameIgnoringCase scheme "bearer".toList || sameIgnoringCase scheme "token".toList) &&
          value = expected then
        wire.fromStr (scheme ++ [' '] ++ replacement)
      else none

/-- `openai::translate_request_header`. -/
def translateOpenaiRequestHeader (headers : HeaderMap) (expected replacement : Text) :
    Option HeaderValue :=
  match (headers.get authorization).bind wire.toStr with
  | none => none
  | some header =>
    if (splitOnce expected header).isSome then wire.fromStr ("Bearer ".toList ++ replacement) else none

namespace ConfiguredCredentialProvider

def authMethods (provider : ConfiguredCredentialProvider) : List CredentialAuthMethod :=
  if provider.auth = [] then [.bearer] else provider.auth

/-- The scheme of a method that is written into the authorization header. -/
def expectedScheme : CredentialAuthMethod → Option Text
  | .bearer => some "bearer".toList
  | .token => some "token".toList
  | .basic => some "basic".toList
  | .header => none

/-- A translated header, if there is none of its name yet. -/
def pushTranslated (translated : List (HeaderName × HeaderValue)) (name : HeaderName) :
    Option HeaderValue → List (HeaderName × HeaderValue)
  | none => translated
  | some value => if translated.any (·.1 = name) then translated else translated ++ [(name, value)]

/-- The body of the loop of `translate_request_headers`. -/
def translateMethod (provider : ConfiguredCredentialProvider) (headers : HeaderMap)
    (expected replacement : Text) (translated : List (HeaderName × HeaderValue))
    (method : CredentialAuthMethod) : List (HeaderName × HeaderValue) :=
  match expectedScheme method with
  | some expectedScheme =>
    match ((headers.get authorization).bind wire.toStr).bind (splitOnce [' ']) with
    | none => translated
    | some (scheme, _) =>
      if !sameIgnoringCase scheme expectedScheme then translated
      else pushTranslated translated authorization
        (translateStandardRequestHeader wire headers expected replacement)
  | none =>
    match provider.header with
    | none => translated
    | some header =>
      match (headers.get header).bind wire.toStr with
      | none => translated
      | some value =>
        let start := provider.headerPrefix.getD []
        if value = start ++ expected then
          pushTranslated translated header (wire.fromStr (start ++ replacement))
        else translated

def translateRequestHeaders (provider : ConfiguredCredentialProvider) (headers : HeaderMap)
    (expected replacement : Text) : List (HeaderName × HeaderValue) :=
  provider.authMethods.foldl (provider.translateMethod wire headers expected replacement) []

end ConfiguredCredentialProvider

namespace BrokeredCredentialProvider

def sameProvider : BrokeredCredentialProvider → BrokeredCredentialProvider → Bool
  | builtin left, builtin right => left = right
  | configured left, configured right => left.address = right.address
  | _, _ => false

/-- Is the provider a configured one? -/
def isConfigured : BrokeredCredentialProvider → Bool
  | builtin _ => false
  | configured _ => true

def translateRequestHeaders (provider : BrokeredCredentialProvider) (headers : HeaderMap)
    (expected replacement : Text) : List (HeaderName × HeaderValue) :=
  match provider with
  | builtin .github =>
    ((translateStandardRequestHeader wire headers expected replacement).map (authorization, ·)).toList
  | builtin .openai =>
    ((translateOpenaiRequestHeader wire headers expected replacement).map (authorization, ·)).toList
  | configured provider => provider.translateRequestHeaders wire headers expected replacement

/-- `insert_request_header`: the built-in providers have the one header. -/
def insertRequestHeader (provider : BrokeredCredentialProvider) (headers : HeaderMap)
    (name : HeaderName) (value : HeaderValue) : HeaderMap :=
  match provider with
  | builtin _ => headers.put authorization value
  | configured _ => headers.put name value

end BrokeredCredentialProvider

end

end NovumAgent.NetworkProxy.CredentialBroker
