import NovumAgent.NetworkProxy.Domains

/-!
# Configurations and constraints

What a user configures for the proxy, what an administrator constrains, the check of the one against
the other, and the state that is built from a configuration that passed.

The hooks and the certificate authority of the intercepting proxy are opaque, and so are the functions
that check and compile them: they read the configuration and fail or not.
-/

namespace NovumAgent.NetworkProxy

open Text

/-! ## Domain permissions -/

inductive NetworkDomainPermission where
  | none
  | allow
  | deny
deriving DecidableEq, Repr

/-- The order of the variants: a later one wins. -/
def NetworkDomainPermission.rank : NetworkDomainPermission → Nat
  | none => 0
  | allow => 1
  | deny => 2

structure NetworkDomainPermissionEntry where
  pattern : Text
  permission : NetworkDomainPermission
deriving DecidableEq, Repr

/-- One turn of the loop of `effective_entries`: the first entry of a pattern fixes its place, and
the strongest its permission. -/
def upsertEntry (entry : NetworkDomainPermissionEntry) :
    List NetworkDomainPermissionEntry → List NetworkDomainPermissionEntry
  | [] => [entry]
  | e :: entries =>
    if e.pattern = entry.pattern then
      (if e.permission.rank < entry.permission.rank then entry else e) :: entries
    else e :: upsertEntry entry entries

def effectiveEntries (entries : List NetworkDomainPermissionEntry) :
    List NetworkDomainPermissionEntry :=
  entries.foldl (fun effective entry => upsertEntry entry effective) []

/-! ## The configuration -/

inductive NetworkUnixSocketPermission where
  | allow
  | deny
deriving DecidableEq, Repr

inductive NetworkMode where
  | limited
  | full
deriving DecidableEq, Repr

def networkModeRank : NetworkMode → Nat
  | .limited => 0
  | .full => 1

inductive Platform where
  | linux
  | macos
  | windows
  | unknown
deriving DecidableEq, Repr

/-- `NetworkProxyConfig`, as far as the check and the state depend on it. The entries of a map are
listed in the order of their keys. -/
structure NetworkProxyConfig (Hook Ca : Type) where
  enabled : Bool
  allowUpstreamProxy : Bool
  dangerouslyAllowNonLoopbackProxy : Bool
  dangerouslyAllowAllUnixSockets : Option Bool
  mode : NetworkMode
  domains : Option (List NetworkDomainPermissionEntry)
  unixSockets : Option (List (Text × NetworkUnixSocketPermission))
  allowLocalBinding : Option Bool
  mitm : Bool
  mitmCa : Option Ca
  credentialBroker : Bool
  mitmHooks : List Hook

namespace NetworkProxyConfig

variable {Hook Ca : Type} (config : NetworkProxyConfig Hook Ca)

def domainEntries (permission : NetworkDomainPermission) : Option (List Text) :=
  (config.domains.map fun domains =>
    ((effectiveEntries domains).filter (·.permission = permission)).map (·.pattern)).filter (· ≠ [])

def allowedDomains : Option (List Text) := config.domainEntries .allow

def deniedDomains : Option (List Text) := config.domainEntries .deny

def allowUnixSockets : List Text :=
  match config.unixSockets with
  | some sockets => (sockets.filter (·.2 = .allow)).map (·.1)
  | none => []

def setDomainEntries (entries : List Text) (permission : NetworkDomainPermission) :
    NetworkProxyConfig Hook Ca :=
  let kept := (config.domains.getD []).filter (·.permission ≠ permission)
  let domains := entries.foldl (fun domains pattern =>
    if (⟨pattern, permission⟩ : NetworkDomainPermissionEntry) ∈ domains then domains
    else domains ++ [⟨pattern, permission⟩]) kept
  { config with domains := if domains = [] then none else some domains }

def setAllowedDomains (allowedDomains : List Text) : NetworkProxyConfig Hook Ca :=
  config.setDomainEntries allowedDomains .allow

end NetworkProxyConfig

structure NetworkProxyConstraints where
  enabled : Option Bool
  mode : Option NetworkMode
  allowUpstreamProxy : Option Bool
  dangerouslyAllowNonLoopbackProxy : Option Bool
  dangerouslyAllowAllUnixSockets : Option Bool
  allowedDomains : Option (List Text)
  allowlistExpansionEnabled : Option Bool
  deniedDomains : Option (List Text)
  denylistExpansionEnabled : Option Bool
  allowUnixSockets : Option (List Text)
  allowLocalBinding : Option Bool

def NetworkProxyConstraints.default : NetworkProxyConstraints :=
  ⟨none, none, none, none, none, none, none, none, none, none, none⟩

/-! ## The check -/

/-- `NetworkProxyConstraintError::InvalidValue`. -/
structure NetworkProxyConstraintError where
  fieldName : Text
  candidate : Text
  allowed : Text
deriving DecidableEq, Repr

/-- What the check and the state take from the rest of the proxy and from the standard library: the
check and the compilation of the hooks, the state of the intercepting proxy, and the debug format of
a list of strings. -/
structure Outside (Hook Ca Hooks Mitm : Type) extends Crates where
  validateMitmHookConfig : NetworkProxyConfig Hook Ca → Except Text Unit
  compileMitmHooks : NetworkProxyConfig Hook Ca → Except Text Hooks
  mitmState : Bool → Option Ca → Except Text Mitm
  socketPathIsAbsolute : Platform → Text → Bool
  debug : List Text → Text

section Check

variable {Hook Ca Hooks Mitm : Type} (outside : Outside Hook Ca Hooks Mitm)

def validateNonGlobalWildcardDomainPatterns (fieldName : Text) (patterns : List Text) :
    Except NetworkProxyConstraintError Unit :=
  match patterns.find? (isGlobalWildcardDomainPattern outside.toCrates) with
  | some pattern =>
    .error ⟨fieldName, trim pattern,
      "exact hosts or scoped wildcards like *.example.com or **.example.com".toList⟩
  | none => .ok ()

/-- A flag that managed configuration may switch off. -/
def validateFlag (fieldName : Text) (candidate allowed : Bool) :
    Except NetworkProxyConstraintError Unit :=
  if candidate ∧ ¬ allowed then
    .error ⟨fieldName, "true".toList, "false (disabled by managed config)".toList⟩
  else .ok ()

/-- The mode may not be wider than the managed one. -/
def validateMode (candidate : NetworkMode) (maxMode : Option NetworkMode) :
    Except NetworkProxyConstraintError Unit :=
  match maxMode with
  | some maxMode =>
    if networkModeRank maxMode < networkModeRank candidate then
      let name : NetworkMode → Text
        | .limited => "Limited".toList
        | .full => "Full".toList
      .error ⟨"network.mode".toList, name candidate, name maxMode ++ " or more restrictive".toList⟩
    else .ok ()
  | none => .ok ()

/-- The texts of a list in lower case, each once, as the sets of the check hold them. -/
def lowercased (entries : List Text) : List Text := (entries.map toAsciiLowercase).eraseDups

/-- The allowed domains of a configuration against the managed ones. The sets of the source are lists
here, which are compared as sets; the order in which a set lists what is missing is not fixed. -/
def validateAllowedDomains (candidate denied allowedDomains : List Text) (expansion : Option Bool) :
    Except NetworkProxyConstraintError Unit :=
  match expansion with
  | some true =>
    let missing := (lowercased allowedDomains).filter fun entry =>
      entry ∉ lowercased candidate ∧ entry ∉ lowercased denied
    if missing = [] then .ok ()
    else
      .error ⟨"network.allowed_domains".toList, "missing managed allowed_domains entries".toList,
        outside.debug missing⟩
  | some false =>
    let expected := (lowercased allowedDomains).filter (· ∉ lowercased denied)
    if lowercased candidate ⊆ expected ∧ expected ⊆ lowercased candidate then .ok ()
    else
      .error ⟨"network.allowed_domains".toList, outside.debug candidate,
        "must match managed allowed_domains".toList⟩
  | none =>
    let managed := allowedDomains.map (DomainPattern.parseForConstraints outside.toCrates)
    let invalid := candidate.filter fun entry =>
      ¬ managed.any fun pattern =>
        pattern.allows (DomainPattern.parseForConstraints outside.toCrates entry)
    if invalid = [] then .ok ()
    else
      .error ⟨"network.allowed_domains".toList, outside.debug invalid,
        "subset of managed allowed_domains".toList⟩

/-- The denied domains of a configuration against the managed ones. -/
def validateDeniedDomains (candidate deniedDomains : List Text) (expansion : Option Bool) :
    Except NetworkProxyConstraintError Unit :=
  match expansion with
  | some false =>
    if lowercased candidate ⊆ lowercased deniedDomains ∧
        lowercased deniedDomains ⊆ lowercased candidate then .ok ()
    else
      .error ⟨"network.denied_domains".toList, outside.debug candidate,
        "must match managed denied_domains".toList⟩
  | some true | none =>
    let missing := (lowercased deniedDomains).filter (· ∉ lowercased candidate)
    if missing = [] then .ok ()
    else
      .error ⟨"network.denied_domains".toList, "missing managed denied_domains entries".toList,
        outside.debug missing⟩

/-- The sockets of a configuration against the managed ones. -/
def validateUnixSockets (candidate allowUnixSockets : List Text) :
    Except NetworkProxyConstraintError Unit :=
  let invalid := candidate.filter (toAsciiLowercase · ∉ lowercased allowUnixSockets)
  if invalid = [] then .ok ()
  else
    .error ⟨"network.allow_unix_sockets".toList, outside.debug invalid,
      "subset of managed allow_unix_sockets".toList⟩

def validatePolicyAgainstConstraints (config : NetworkProxyConfig Hook Ca)
    (constraints : NetworkProxyConstraints) : Except NetworkProxyConstraintError Unit := do
  let allowed := config.allowedDomains.getD []
  let denied := config.deniedDomains.getD []
  match outside.validateMitmHookConfig config with
  | .error error =>
    throw ⟨"network.mitm_hooks".toList, error, "valid MITM hook configuration".toList⟩
  | .ok () => pure ()
  validateNonGlobalWildcardDomainPatterns outside "network.denied_domains".toList denied
  validateFlag "network.enabled".toList config.enabled (constraints.enabled.getD true)
  validateMode config.mode constraints.mode
  validateFlag "network.allow_upstream_proxy".toList config.allowUpstreamProxy
    (constraints.allowUpstreamProxy.getD true)
  validateFlag "network.dangerously_allow_non_loopback_proxy".toList
    config.dangerouslyAllowNonLoopbackProxy
    (constraints.dangerouslyAllowNonLoopbackProxy.getD true)
  validateFlag "network.dangerously_allow_all_unix_sockets".toList
    (config.dangerouslyAllowAllUnixSockets.getD false)
    (constraints.dangerouslyAllowAllUnixSockets.getD constraints.allowUnixSockets.isNone)
  validateFlag "network.allow_local_binding".toList (config.allowLocalBinding.getD false)
    (constraints.allowLocalBinding.getD true)
  match constraints.allowedDomains with
  | some allowedDomains =>
    validateNonGlobalWildcardDomainPatterns outside "network.allowed_domains".toList allowedDomains
    validateAllowedDomains outside allowed denied allowedDomains
      constraints.allowlistExpansionEnabled
  | none => pure ()
  match constraints.deniedDomains with
  | some deniedDomains =>
    validateNonGlobalWildcardDomainPatterns outside "network.denied_domains".toList deniedDomains
    validateDeniedDomains outside denied deniedDomains constraints.denylistExpansionEnabled
  | none => pure ()
  match constraints.allowUnixSockets with
  | some allowUnixSockets => validateUnixSockets outside config.allowUnixSockets allowUnixSockets
  | none => pure ()

/-! ## The state -/

/-- `ConfigState`, without the log of blocked requests. -/
structure ConfigState (Hook Ca Hooks Mitm : Type) where
  executorOs : Platform
  config : NetworkProxyConfig Hook Ca
  brokerageCreatedDefaultAllowlist : Bool
  allowSet : Text → Bool
  denySet : Text → Bool
  mitm : Option Mitm
  mitmHooks : Hooks
  constraints : NetworkProxyConstraints

/-- The ways in which a state is not built. -/
inductive BuildError where
  | unixSocket (index : Nat) (path : Text)
  | credentialBroker
  | mitmCa
  | constraint (error : NetworkProxyConstraintError)
  | globSet (error : GlobSetError)
  | mitm (message : Text)

def validateUnixSocketAllowlistPaths (config : NetworkProxyConfig Hook Ca) (executorOs : Platform) :
    Except BuildError Unit :=
  match config.allowUnixSockets.zipIdx.find? fun (path, _) =>
      ¬ (outside.socketPathIsAbsolute executorOs path ∧ '\x00' ∉ path) with
  | some (path, index) => .error (.unixSocket index path)
  | none => .ok ()

/-- What `build_config_state` makes of a configuration before it compiles it, and whether brokerage
created its allow list. -/
def brokered (config : NetworkProxyConfig Hook Ca) (constraints : NetworkProxyConstraints) :
    NetworkProxyConfig Hook Ca × Bool :=
  let config :=
    if constraints.enabled = some false then { config with credentialBroker := false } else config
  let createdProxy := config.credentialBroker && !config.enabled
  let createdAllowlist :=
    createdProxy && config.allowedDomains.isNone && constraints.allowedDomains.isNone
  let config := if createdProxy then { config with enabled := true } else config
  (if createdAllowlist then config.setAllowedDomains [['*']] else config, createdAllowlist)

def buildConfigState (config : NetworkProxyConfig Hook Ca) (constraints : NetworkProxyConstraints)
    (executorOs : Platform) : Except BuildError (ConfigState Hook Ca Hooks Mitm) := do
  let (config, createdAllowlist) := brokered config constraints
  validateUnixSocketAllowlistPaths outside config executorOs
  if config.credentialBroker ∧ ¬ config.mitm then throw .credentialBroker
  if config.mitmCa.isSome ∧ ¬ config.mitm then throw .mitmCa
  let allowed := config.allowedDomains.getD []
  let denied := config.deniedDomains.getD []
  (validateNonGlobalWildcardDomainPatterns outside "network.denied_domains".toList denied).mapError
    .constraint
  let denySet ← (compileDenylistGlobset outside.toCrates denied).mapError .globSet
  let allowSet ← (compileAllowlistGlobset outside.toCrates allowed).mapError .globSet
  let mitmHooks ← (outside.compileMitmHooks config).mapError .mitm
  let mitm ← if config.mitm then
      (outside.mitmState config.allowUpstreamProxy config.mitmCa).mapError BuildError.mitm
        |>.map some
    else pure none
  return ⟨executorOs, config, createdAllowlist, allowSet, denySet, mitm, mitmHooks, constraints⟩

end Check

end NovumAgent.NetworkProxy
