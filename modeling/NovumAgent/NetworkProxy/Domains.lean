import NovumAgent.Lib.Glob

/-!
# Domain patterns

The proxy reads a pattern of its domain lists in two ways. To match hosts, a pattern is normalized
like a host (white space, brackets, a port, trailing dots and letter case go) and expanded into
globs. To compare two lists, a pattern is parsed into one of three forms, with its domain part put
through the host parser of the `url` crate, unless it has a wildcard in it.

The crates the source leans on are parameters: which texts are IP addresses, what the host parser of
`url` makes of a text, and what `globset` builds from a glob.
-/

namespace NovumAgent.NetworkProxy

open Text

/-! ## Texts -/

/-- `char::to_ascii_lowercase`. -/
def asciiLowercase (c : Char) : Char :=
  if 'A' ≤ c ∧ c ≤ 'Z' then Char.ofNat (c.toNat + 32) else c

def toAsciiLowercase (t : Text) : Text := t.map asciiLowercase

/-- `str::trim_end_matches`, of dots. -/
def trimEndDots (t : Text) : Text := t.rdropWhile (· = '.')

/-- `str::split_once`: what is before and behind the first occurrence of a text. -/
def splitOnce (delimiter : Text) : Text → Option (Text × Text)
  | [] => if delimiter = [] then some ([], []) else none
  | c :: t =>
    match stripPrefix delimiter (c :: t) with
    | some rest => some ([], rest)
    | none => (splitOnce delimiter t).map fun (before, behind) => (c :: before, behind)

/-! ## The crates -/

/-- What the source takes from elsewhere: `str::parse::<IpAddr>`, `url::Host::parse` with the display
of its result, and the matcher that `GlobBuilder` builds, case insensitively, and `GlobSetBuilder`. -/
structure Crates where
  isIpAddr : Text → Bool
  parseUrlHost : Text → Option Text
  buildGlob : Text → Option (Text → Bool)
  buildGlobSet : List (Text → Bool) → Option (Text → Bool)

variable (crates : Crates)

/-! ## Normal forms -/

def normalizeIpLiteral (host : Text) : Option Text :=
  if crates.isIpAddr host then some host
  else
    ["%25".toList, "%".toList].findSome? fun delimiter =>
      match splitOnce delimiter host with
      | some (ip, scope) => if crates.isIpAddr ip then some (ip ++ '%' :: scope) else none
      | none => none

def normalizeDnsHostOrIpLiteral (host : Text) : Text :=
  let host := trimEndDots (toAsciiLowercase host)
  (normalizeIpLiteral crates host).getD host

/-- The part of a host in brackets, if it starts with one and has the other. -/
def bracketed (host : Text) : Option Text :=
  match host with
  | '[' :: rest => if ']' ∈ rest then some (rest.takeWhile (· ≠ ']')) else none
  | _ => none

def normalizeHost (host : Text) : Text :=
  let host := trim host
  match bracketed host with
  | some inner => normalizeDnsHostOrIpLiteral crates inner
  | none =>
    if host.count ':' = 1 then normalizeDnsHostOrIpLiteral crates (host.takeWhile (· ≠ ':'))
    else normalizeDnsHostOrIpLiteral crates host

def normalizePattern (pattern : Text) : Text :=
  let pattern := trim pattern
  if pattern = ['*'] then ['*']
  else
    match stripPrefix "**.".toList pattern with
    | some domain => "**.".toList ++ normalizeHost crates domain
    | none =>
      match stripPrefix "*.".toList pattern with
      | some domain => "*.".toList ++ normalizeHost crates domain
      | none => normalizeHost crates pattern

/-! ## Forms of a pattern -/

inductive DomainPattern where
  | apexAndSubdomains (domain : Text)
  | subdomainsOnly (domain : Text)
  | exact (domain : Text)
deriving DecidableEq

namespace DomainPattern

def parseDomain (domain : Text) (build : Text → DomainPattern) : DomainPattern :=
  if trim domain = [] then exact [] else build (trim domain)

def parse (input : Text) : DomainPattern :=
  let input := trim input
  if input = [] then exact []
  else
    match stripPrefix "**.".toList input with
    | some domain => parseDomain domain apexAndSubdomains
    | none =>
      match stripPrefix "*.".toList input with
      | some domain => parseDomain domain subdomainsOnly
      | none => exact input

end DomainPattern

def parseDomainForConstraints (domain : Text) : Text :=
  let domain := trimEndDots (trim domain)
  if domain = [] then []
  else
    let host :=
      if domain.head? = some '[' ∧ domain.getLast? = some ']' then domain.tail.dropLast else domain
    if '*' ∈ host ∨ '?' ∈ host ∨ '%' ∈ host then domain
    else (crates.parseUrlHost host).getD []

def DomainPattern.parseForConstraints (input : Text) : DomainPattern :=
  let input := trim input
  if input = [] then exact []
  else
    match stripPrefix "**.".toList input with
    | some domain => apexAndSubdomains (parseDomainForConstraints crates domain)
    | none =>
      match stripPrefix "*.".toList input with
      | some domain => subdomainsOnly (parseDomainForConstraints crates domain)
      | none => exact (parseDomainForConstraints crates input)

def expandDomainPattern (pattern : Text) : List Text :=
  match DomainPattern.parse pattern with
  | .exact domain => [domain]
  | .subdomainsOnly domain => ["?*.".toList ++ domain]
  | .apexAndSubdomains domain => [domain, "?*.".toList ++ domain]

def isGlobalWildcardDomainPattern (pattern : Text) : Bool :=
  (expandDomainPattern (normalizePattern crates pattern)).any (· = ['*'])

def normalizeDomain (domain : Text) : Text := toAsciiLowercase (trimEndDots domain)

def domainEq (left right : Text) : Bool := normalizeDomain left = normalizeDomain right

def isSubdomainOrEqual (child parent : Text) : Bool :=
  normalizeDomain child = normalizeDomain parent ∨
    ('.' :: normalizeDomain parent).isSuffixOf (normalizeDomain child)

def isStrictSubdomain (child parent : Text) : Bool :=
  normalizeDomain child ≠ normalizeDomain parent ∧
    ('.' :: normalizeDomain parent).isSuffixOf (normalizeDomain child)

def DomainPattern.allows : DomainPattern → DomainPattern → Bool
  | exact domain, exact candidate => domainEq candidate domain
  | exact _, _ => false
  | subdomainsOnly domain, exact candidate => isStrictSubdomain candidate domain
  | subdomainsOnly domain, subdomainsOnly candidate => isSubdomainOrEqual candidate domain
  | subdomainsOnly domain, apexAndSubdomains candidate => isStrictSubdomain candidate domain
  | apexAndSubdomains domain, exact candidate => isSubdomainOrEqual candidate domain
  | apexAndSubdomains domain, subdomainsOnly candidate => isSubdomainOrEqual candidate domain
  | apexAndSubdomains domain, apexAndSubdomains candidate => isSubdomainOrEqual candidate domain

/-! ## Glob sets -/

inductive GlobalWildcard where
  | allow
  | reject
deriving DecidableEq

/-- The ways in which a list of patterns does not compile. -/
inductive GlobSetError where
  | globalWildcard
  | invalidGlob (candidate : Text)
  | tooLarge
deriving DecidableEq

/-- The inner loop of `compile_globset_with_policy`: the candidates of a pattern that were not seen
yet are built and added. -/
def addCandidates (seen : List Text) (globs : List (Text → Bool)) : List Text →
    Except GlobSetError (List Text × List (Text → Bool))
  | [] => .ok (seen, globs)
  | candidate :: candidates =>
    if candidate ∈ seen then addCandidates seen globs candidates
    else
      match crates.buildGlob candidate with
      | none => .error (.invalidGlob candidate)
      | some glob => addCandidates (candidate :: seen) (globs ++ [glob]) candidates

/-- The outer loop of `compile_globset_with_policy`. -/
def addPatterns (globalWildcard : GlobalWildcard) (seen : List Text) (globs : List (Text → Bool)) :
    List Text → Except GlobSetError (List (Text → Bool))
  | [] => .ok globs
  | pattern :: patterns =>
    if globalWildcard = .reject ∧ isGlobalWildcardDomainPattern crates pattern then
      .error .globalWildcard
    else
      match addCandidates crates seen globs
          (expandDomainPattern (normalizePattern crates pattern)) with
      | .error error => .error error
      | .ok (seen, globs) => addPatterns globalWildcard seen globs patterns

/-- `compile_globset_with_policy`. A set of globs is what it matches. -/
def compileGlobsetWithPolicy (patterns : List Text) (globalWildcard : GlobalWildcard) :
    Except GlobSetError (Text → Bool) :=
  match addPatterns crates globalWildcard [] [] patterns with
  | .error error => .error error
  | .ok globs =>
    match crates.buildGlobSet globs with
    | none => .error .tooLarge
    | some set => .ok set

def compileAllowlistGlobset (patterns : List Text) : Except GlobSetError (Text → Bool) :=
  compileGlobsetWithPolicy crates patterns .allow

def compileDenylistGlobset (patterns : List Text) : Except GlobSetError (Text → Bool) :=
  compileGlobsetWithPolicy crates patterns .reject

end NovumAgent.NetworkProxy
