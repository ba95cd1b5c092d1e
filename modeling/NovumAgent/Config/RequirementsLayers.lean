import NovumAgent.Config.Merge
import NovumAgent.Lib.Dedup
import NovumAgent.Lib.Outcome

/-!
# Layers of requirements

Requirements come in layers, from the administrator's cloud to a file on the machine, and most fields of
them are merged like configuration: the highest layer that sets a field wins. For the fields that forbid
something this would let one layer lift what another forbids. So those are taken out of each layer before
the merge, and put together in another way, from the highest layer to the lowest: the patterns of files
that may not be read are united, the rules and hooks of all layers are kept one behind the other, and two
layers that name different directories for managed hooks are an error.

Reading a document and decoding it into requirements are parameters. Of the fields that requirements
decode into, those are spelt out that the composition looks at; the others are one value.
-/

namespace NovumAgent.Config

open Outcome

/-! ## Sources -/

/-- The variants of `RequirementSource` that stand for one place. -/
inductive SingleSource where
  | unknown
  | mdmManagedPreferences (domain key : Text)
  | enterpriseManaged (id name : Text)
  | systemRequirementsToml (file : Text)
  | legacyManagedConfigTomlFromFile (file : Text)
  | legacyManagedConfigTomlFromMdm
deriving DecidableEq, Repr

inductive RequirementSource where
  | single (source : SingleSource)
  | composite (sources : List RequirementSource)

namespace RequirementSource

mutual

/-- The equality of sources, decided. -/
def decEq : ∀ a b : RequirementSource, Decidable (a = b)
  | single a, single b => decidable_of_iff (a = b) (by simp)
  | composite a, composite b =>
    have := decEqList a b
    decidable_of_iff (a = b) (by simp)
  | single _, composite _ | composite _, single _ => isFalse nofun

/-- The equality of lists of sources, decided. -/
def decEqList : ∀ a b : List RequirementSource, Decidable (a = b)
  | [], [] => isTrue rfl
  | a :: as, b :: bs =>
    have := decEq a b
    have := decEqList as bs
    decidable_of_iff (a = b ∧ as = bs) (by simp)
  | [], _ :: _ | _ :: _, [] => isFalse nofun

end

instance : DecidableEq RequirementSource := decEq

mutual

def appendToComposite (flattened : List RequirementSource) : RequirementSource → List RequirementSource
  | composite sources => appendAllToComposite flattened sources
  | single source => if single source ∈ flattened then flattened else flattened ++ [single source]

/-- The loop of `append_to_composite` and of `composite`. -/
def appendAllToComposite (flattened : List RequirementSource) :
    List RequirementSource → List RequirementSource
  | [] => flattened
  | source :: sources => appendAllToComposite (appendToComposite flattened source) sources

end

/-- `RequirementSource::composite`. -/
def ofSources (sources : List RequirementSource) : RequirementSource :=
  match appendAllToComposite [] sources with
  | [] => single .unknown
  | [source] => source
  | flattened => composite flattened

end RequirementSource

open RequirementSource (single ofSources)

structure Sourced (α : Type) where
  value : α
  source : RequirementSource

def mergeOutputSource (existing incoming : RequirementSource) : RequirementSource :=
  if existing ≠ incoming then ofSources [existing, incoming] else existing

/-! ## Requirements -/

/-- The events that hooks run on, each with a field in `HookEventsToml`. -/
inductive HookEvent where
  | preToolUse
  | permissionRequest
  | postToolUse
  | preCompact
  | postCompact
  | sessionStart
  | sessionEnd
  | userPromptSubmit
  | subagentStart
  | subagentStop
  | stop
  | interrupt
deriving DecidableEq, Repr

/-- The events in the order of the fields. -/
def HookEvent.all : List HookEvent :=
  [preToolUse, permissionRequest, postToolUse, preCompact, postCompact, sessionStart, sessionEnd,
   userPromptSubmit, subagentStart, subagentStop, stop, interrupt]

theorem HookEvent.mem_all (event : HookEvent) : event ∈ all := by
  cases event <;> decide

inductive HookDirectoryField where
  | managedDir
  | windowsManagedDir
deriving DecidableEq, Repr

namespace HookDirectoryField

def currentPlatform (platform : Platform) : HookDirectoryField :=
  if platform.windows then windowsManagedDir else managedDir

def fieldName : HookDirectoryField → Text
  | managedDir => "hooks.managed_dir".toList
  | windowsManagedDir => "hooks.windows_managed_dir".toList

def inactive : HookDirectoryField → HookDirectoryField
  | managedDir => windowsManagedDir
  | windowsManagedDir => managedDir

end HookDirectoryField

/-- What decoding makes of the parts of requirements that the composition only passes on: patterns of
files, rules, groups of hooks, paths, sandbox modes, permission profiles, and all other fields. -/
structure Parts where
  Pattern : Type
  Rule : Type
  Group : Type
  Path : Type
  Modes : Type
  Profiles : Type
  Rest : Type
  [decPattern : DecidableEq Pattern]
  [decPath : DecidableEq Path]

attribute [instance] Parts.decPattern Parts.decPath

variable {σ : Type} {P : Parts}

/-- `ManagedHooksRequirementsToml`: a directory for each platform, and groups of hooks for each event. -/
structure ManagedHooks (P : Parts) where
  dir : HookDirectoryField → Option P.Path
  hooks : HookEvent → List P.Group

def ManagedHooks.isEmpty (hooks : ManagedHooks P) : Bool :=
  (hooks.dir .managedDir).isNone && (hooks.dir .windowsManagedDir).isNone &&
    HookEvent.all.all fun event => (hooks.hooks event).isEmpty

/-- `PermissionsRequirementsToml`, with `FilesystemRequirementsToml` in it. -/
structure PermissionsRequirements (P : Parts) where
  filesystem : Option (Option (List P.Pattern))
  profiles : P.Profiles

/-- `AutoReviewRequirementsToml`. -/
structure AutoReviewRequirements where
  requiredOnModels : Option (List Text)
  ignoreRules : Option (List Text)

/-- `RemoteSandboxConfigToml`. -/
structure RemoteSandboxConfig (P : Parts) where
  hostnamePatterns : List Text
  allowedSandboxModes : P.Modes

/-- `ConfigRequirementsToml`. -/
structure Requirements (P : Parts) where
  sqliteHome : Option P.Path
  logDir : Option P.Path
  modelCatalogJson : Option P.Path
  allowedSandboxModes : Option P.Modes
  remoteSandboxConfig : Option (List (RemoteSandboxConfig P))
  hooks : Option (ManagedHooks P)
  rules : Option (List P.Rule)
  permissions : Option (PermissionsRequirements P)
  autoReview : Option AutoReviewRequirements
  rest : P.Rest

/-- The patterns that permissions deny reading. -/
def denyReadOf (permissions : Option (PermissionsRequirements P)) : List P.Pattern :=
  ((permissions.bind (·.filesystem)).bind id).getD []

/-- The groups of hooks for an event. -/
def groupsOf (hooks : Option (ManagedHooks P)) (event : HookEvent) : List P.Group :=
  (hooks.map (·.hooks event)).getD []

/-- The directory of managed hooks for a platform. -/
def dirOf (hooks : Option (ManagedHooks P)) (field : HookDirectoryField) : Option P.Path :=
  hooks.bind (·.dir field)

/-- `RequirementsCompositionError`. -/
inductive CompositionError where
  | parse (layerSource : RequirementSource) (message : Text)
  | composedParse (message : Text)
  | conflict (field : Text) (existingSource incomingSource : RequirementSource) (message : Text)

/-! ## Layers -/

/-- `RequirementsLayerToml`: the text of a document, or a document. -/
inductive LayerToml (σ : Type) where
  | string (contents : Text)
  | value (document : TomlTable σ)

/-- `RequirementsLayerEntry`. -/
structure LayerEntry (σ : Type) (P : Parts) where
  source : RequirementSource
  toml : LayerToml σ
  baseDir : Option P.Path
  pathContext : Option Text

/-- What the composition takes from elsewhere: reading a document, decoding requirements and paths with
the base directory and the path context that apply, encoding paths and modes, the name of the host,
whether it matches patterns, how a path is displayed, what no profiles are, and whether the other fields
of requirements are empty. -/
structure Environment (σ : Type) (P : Parts) where
  platform : Platform
  parseToml : Text → Except Text (TomlTable σ)
  decode : Option P.Path → Option Text → Toml σ → Except Text (Requirements P)
  decodePath : Option P.Path → Toml σ → Except Text P.Path
  encodePath : P.Path → Except Text (Toml σ)
  encodeModes : P.Modes → Except Text (Toml σ)
  hostName : Option Text
  normalizeHostname : Text → Option Text
  hostnameMatchesAnyPattern : Text → List Text → Bool
  displayPath : P.Path → Text
  defaultProfiles : P.Profiles
  restIsEmpty : P.Rest → Bool

/-- `DomainMergedRequirementsFields`. -/
structure DomainFields (P : Parts) where
  rules : Option (List P.Rule)
  hooks : Option (ManagedHooks P)
  permissions : Option (PermissionsRequirements P)
  autoReview : Option AutoReviewRequirements

/-- `ComposableRequirementsLayer`. -/
structure ComposableLayer (σ : Type) (P : Parts) where
  source : RequirementSource
  regularToml : TomlTable σ
  domainFields : DomainFields P

def localOnlyAuthRequirements : List Text :=
  ["allowed_login_methods".toList, "allowed_chatgpt_workspaces".toList,
   "cli_auth_credentials_store".toList, "chatgpt_base_url".toList]

def stripCloudAuthRequirements (source : RequirementSource) (document : TomlTable σ) : TomlTable σ :=
  match source with
  | single (.enterpriseManaged _ _) => localOnlyAuthRequirements.foldl .erase document
  | _ => document

/-- A value in place of the one at a key. -/
def replaceAt (value : Toml σ) (key : Text) (child : Toml σ) : Toml σ :=
  match value.asTable with
  | some table => .ofTable (table.insert key child)
  | none => value

def removeNestedFieldAndPruneEmpty : List Text → TomlTable σ → TomlTable σ
  | [], table => table
  | [key], table => table.erase key
  | key :: path, table =>
    let table := match (table.get? key).bind Toml.asTable with
      | some child => table.insert key (.ofTable (removeNestedFieldAndPruneEmpty path child))
      | none => table
    if ((table.get? key).bind Toml.asTable).any (·.isEmpty) then table.erase key else table

/-- Where the patterns of files that may not be read are. -/
def denyReadPath : List Text := ["permissions".toList, "filesystem".toList, "deny_read".toList]

def stripSpecialFields (document : TomlTable σ) : TomlTable σ :=
  let document := (document.erase "rules".toList).erase "hooks".toList
  let document := removeNestedFieldAndPruneEmpty denyReadPath document
  removeNestedFieldAndPruneEmpty ["auto_review".toList, "required_on_models".toList] document

variable (env : Environment σ P)

def tomlValueFromSerializable {α : Type} (encode : α → Except Text (Toml σ)) (value : α) :
    Except CompositionError (Toml σ) :=
  (encode value).mapError .composedParse

def parseLayerToml (toml : LayerToml σ) (source : RequirementSource) :
    Except CompositionError (TomlTable σ) :=
  match toml with
  | .string contents => (env.parseToml contents).mapError (.parse source)
  | .value document => pure document

/-- One turn of the loop that resolves the directories of providers. -/
def resolveProviderPath (source : RequirementSource) (baseDir : Option P.Path) (providers : TomlTable σ)
    (id : Text) : Except CompositionError (TomlTable σ) :=
  match providers.get? id with
  | none => pure providers
  | some provider =>
    match provider.get "auth".toList with
    | none => pure providers
    | some auth =>
      match auth.get "cwd".toList with
      | none => pure providers
      | some cwd => do
        let resolved ← (env.decodePath baseDir cwd).mapError fun message =>
          .parse source ("model_providers.".toList ++ id ++ ".auth.cwd: ".toList ++ message)
        let cwd ← tomlValueFromSerializable env.encodePath resolved
        pure (providers.insert id (replaceAt provider "auth".toList (replaceAt auth "cwd".toList cwd)))

/-- The loop of `from_entry` that resolves the directories of providers. -/
def resolveProviderPaths (source : RequirementSource) (baseDir : Option P.Path) (document : TomlTable σ) :
    Except CompositionError (TomlTable σ) :=
  match (document.get? "model_providers".toList).bind Toml.asTable with
  | none => pure document
  | some providers => do
    let providers ← providers.keys.foldlM (resolveProviderPath env source baseDir) providers
    pure (document.insert "model_providers".toList (.ofTable providers))

/-- The first part of `from_entry`: a layer's document, and the requirements that it decodes into by
itself. -/
def readLayer (entry : LayerEntry σ P) : Except CompositionError (TomlTable σ × Requirements P) := do
  let document ← parseLayerToml env entry.toml entry.source
  let document ← resolveProviderPaths env entry.source entry.baseDir
    (stripCloudAuthRequirements entry.source document)
  let requirements ← (env.decode entry.baseDir entry.pathContext
    (.ofTable (document.erase "model_providers".toList))).mapError (.parse entry.source)
  pure (document, requirements)

/-- `apply_remote_sandbox_config`: the modes that are allowed on this host. -/
def remoteSandboxModes (requirements : Requirements P) : Option P.Modes :=
  let matched := requirements.remoteSandboxConfig.bind fun configs =>
    (env.hostName.bind env.normalizeHostname).bind fun hostname =>
      configs.find? fun config => env.hostnameMatchesAnyPattern hostname config.hostnamePatterns
  match matched with
  | some config => some config.allowedSandboxModes
  | none => requirements.allowedSandboxModes

/-- A field of a document, set if there is a value. -/
def materialize {α : Type} (encode : α → Except Text (Toml σ)) (key : Text) (value : Option α)
    (document : TomlTable σ) : Except CompositionError (TomlTable σ) :=
  match value with
  | none => pure document
  | some value => do
    let encoded ← tomlValueFromSerializable encode value
    pure (document.insert key encoded)

/-- The aliases of the feature requirements, under one key. -/
def mergeFeatureAlias (document : TomlTable σ) : TomlTable σ :=
  match document.get? "feature_requirements".toList with
  | some features => (document.erase "feature_requirements".toList).insert "features".toList features
  | none => document

def fromEntry (entry : LayerEntry σ P) : Except CompositionError (ComposableLayer σ P) := do
  let (document, requirements) ← readLayer env entry
  let modes := remoteSandboxModes env requirements
  let document ← materialize env.encodePath "sqlite_home".toList requirements.sqliteHome
    (mergeFeatureAlias document)
  let document ← materialize env.encodePath "log_dir".toList requirements.logDir document
  let document ← materialize env.encodePath "model_catalog_json".toList requirements.modelCatalogJson
    document
  let document ← materialize env.encodeModes "allowed_sandbox_modes".toList modes
    (document.erase "remote_sandbox_config".toList)
  pure
    { source := entry.source
      regularToml := stripSpecialFields document
      domainFields := ⟨requirements.rules, requirements.hooks, requirements.permissions,
        requirements.autoReview⟩ }

/-! ## Composition -/

/-- `ConfigRequirementsWithSources`. -/
structure ComposedRequirements (P : Parts) where
  sqliteHome : Option (Sourced P.Path)
  logDir : Option (Sourced P.Path)
  modelCatalogJson : Option (Sourced P.Path)
  allowedSandboxModes : Option (Sourced P.Modes)
  hooks : Option (Sourced (ManagedHooks P))
  rules : Option (Sourced (List P.Rule))
  permissions : Option (Sourced (PermissionsRequirements P))
  autoReview : Option (Sourced AutoReviewRequirements)
  rest : P.Rest

def sourceForTopLevelKeys (layers : List (ComposableLayer σ P)) (keys : List Text) : RequirementSource :=
  let matching := layers.filterMap fun layer =>
    (keys.findSome? layer.regularToml.get?).map fun value => (layer.source, value)
  match matching.getLast? with
  | none => single .unknown
  | some (winningSource, winningValue) =>
    if winningValue.isTable then
      let tableSources := (matching.reverse.filter (·.2.isTable)).map (·.1)
      if 1 < tableSources.length then ofSources tableSources else winningSource
    else winningSource

/-- One field of `populate_merged_regular_fields_with_sources`. -/
def setSourced {α : Type} (layers : List (ComposableLayer σ P)) (key : Text) (value : Option α) :
    Option (Sourced α) :=
  value.map fun value => ⟨value, sourceForTopLevelKeys layers [key]⟩

/-- `rules::merge`. -/
def mergeRules (target : Option (Sourced (List P.Rule))) (incoming : Option (List P.Rule))
    (source : RequirementSource) : Option (Sourced (List P.Rule)) :=
  match incoming, target with
  | none, target => target
  | some incoming, none => some ⟨incoming, source⟩
  | some incoming, some existing =>
    some ⟨existing.value ++ incoming, mergeOutputSource existing.source source⟩

/-- `HookMergeState`, with the hooks it is building. -/
structure HookMerge (P : Parts) where
  dirSources : HookDirectoryField → Option RequirementSource
  target : Option (Sourced (ManagedHooks P))

/-- A source noted for a field, unless there is one. -/
def trackSource (dirSources : HookDirectoryField → Option RequirementSource) (field : HookDirectoryField)
    (source : RequirementSource) : HookDirectoryField → Option RequirementSource :=
  Function.update dirSources field ((dirSources field).or (some source))

def trackSingletonSource (dirSources : HookDirectoryField → Option RequirementSource)
    (field : HookDirectoryField) (value : Option P.Path) (source : RequirementSource) :
    HookDirectoryField → Option RequirementSource :=
  if value.isSome then trackSource dirSources field source else dirSources

/-- `HookMergeState::fill_singleton`: the directory, the sources, and whether there is a change. -/
def fillSingleton (dirSources : HookDirectoryField → Option RequirementSource) (field : HookDirectoryField)
    (existing incoming : Option P.Path) (incomingSource : RequirementSource) :
    Option P.Path × (HookDirectoryField → Option RequirementSource) × Bool :=
  match existing, incoming with
  | none, some incoming => (some incoming, trackSource dirSources field incomingSource, true)
  | existing, _ => (existing, dirSources, false)

def mergeActiveSingleton (dirSources : HookDirectoryField → Option RequirementSource)
    (field : HookDirectoryField) (existing incoming : Option P.Path) (incomingSource : RequirementSource) :
    Except CompositionError (Option P.Path × (HookDirectoryField → Option RequirementSource) × Bool) :=
  match existing, incoming with
  | some existing, some incoming =>
    if existing ≠ incoming then
      throw (.conflict field.fieldName ((dirSources field).getD incomingSource) incomingSource
        ("\x60".toList ++ env.displayPath existing ++ "\x60 conflicts with \x60".toList ++
          env.displayPath incoming ++ "\x60".toList))
    else pure (some existing, dirSources, false)
  | none, some incoming => pure (some incoming, trackSource dirSources field incomingSource, true)
  | existing, none => pure (existing, dirSources, false)

/-- The two directories, each in its field. -/
def withDirs (active : HookDirectoryField) (activeDir inactiveDir : Option P.Path) :
    HookDirectoryField → Option P.Path :=
  fun field => if field = active then activeDir else inactiveDir

/-- `HookMergeState::merge`, with `append_hook_events`. -/
def HookMerge.merge (active : HookDirectoryField) (state : HookMerge P)
    (incoming : Option (ManagedHooks P)) (source : RequirementSource) :
    Except CompositionError (HookMerge P) :=
  match incoming.filter (!·.isEmpty) with
  | none => pure state
  | some incoming =>
    match state.target with
    | none =>
      let dirSources := trackSingletonSource state.dirSources .managedDir (incoming.dir .managedDir) source
      pure ⟨trackSingletonSource dirSources .windowsManagedDir (incoming.dir .windowsManagedDir) source,
        some ⟨incoming, source⟩⟩
    | some existing => do
      let (activeDir, dirSources, activeChanged) ← mergeActiveSingleton env state.dirSources active
        (existing.value.dir active) (incoming.dir active) source
      let (inactiveDir, dirSources, inactiveChanged) := fillSingleton dirSources active.inactive
        (existing.value.dir active.inactive) (incoming.dir active.inactive) source
      let hooks := fun event => existing.value.hooks event ++ incoming.hooks event
      let changed := activeChanged || inactiveChanged ||
        HookEvent.all.any fun event => !(incoming.hooks event).isEmpty
      pure ⟨dirSources, some ⟨⟨withDirs active activeDir inactiveDir, hooks⟩,
        if changed then mergeOutputSource existing.source source else existing.source⟩⟩

/-- A list to be united, with where its entries came from: `DenyReadMergeState` and
`AutoReviewModelsMergeState`. -/
structure UnionMerge (α : Type) where
  entries : List α
  source : Option RequirementSource

/-- One turn of the loop of `merge`. -/
def UnionMerge.push {α : Type} [DecidableEq α] (source : RequirementSource) (state : UnionMerge α)
    (entry : α) : UnionMerge α :=
  if entry ∈ state.entries then state
  else ⟨Dedup.pushNew state.entries entry, some ((state.source.map (mergeOutputSource · source)).getD source)⟩

/-- `DenyReadMergeState::merge` and `AutoReviewModelsMergeState::merge`. -/
def UnionMerge.merge {α : Type} [DecidableEq α] (state : UnionMerge α) (incoming : List α)
    (source : RequirementSource) : UnionMerge α :=
  incoming.foldl (.push source) state

/-- `DenyReadMergeState::apply_to`. -/
def applyDenyRead (state : UnionMerge P.Pattern)
    (target : Option (Sourced (PermissionsRequirements P))) :
    Option (Sourced (PermissionsRequirements P)) :=
  if state.entries = [] then target
  else
    let source := state.source.getD (single .unknown)
    match target with
    | none => some ⟨⟨some (some state.entries), env.defaultProfiles⟩, source⟩
    | some existing =>
      let denyRead := state.entries.foldl Dedup.pushNew ((existing.value.filesystem.bind id).getD [])
      some ⟨{ existing.value with filesystem := some (some denyRead) },
        mergeOutputSource existing.source source⟩

/-- `AutoReviewModelsMergeState::apply_to`. -/
def applyAutoReviewModels (state : UnionMerge Text) (target : Option (Sourced AutoReviewRequirements)) :
    Option (Sourced AutoReviewRequirements) :=
  if state.entries = [] then target
  else
    let source := state.source.getD (single .unknown)
    match target with
    | none => some ⟨⟨some state.entries, none⟩, source⟩
    | some existing =>
      some ⟨{ existing.value with requiredOnModels := some state.entries },
        mergeOutputSource existing.source source⟩

/-- What the loop of `compose` over the layers carries. -/
structure DomainMerge (P : Parts) where
  rules : Option (Sourced (List P.Rule))
  hooks : HookMerge P
  denyRead : UnionMerge P.Pattern
  autoReviewModels : UnionMerge Text

/-- Before the first layer. -/
def DomainMerge.start : DomainMerge P := ⟨none, ⟨fun _ => none, none⟩, ⟨[], none⟩, ⟨[], none⟩⟩

/-- One turn of the loop of `compose`. -/
def DomainMerge.step (active : HookDirectoryField) (state : DomainMerge P) (layer : ComposableLayer σ P) :
    Except CompositionError (DomainMerge P) := do
  let hooks ← state.hooks.merge env active layer.domainFields.hooks layer.source
  pure
    { rules := mergeRules state.rules layer.domainFields.rules layer.source
      hooks := hooks
      denyRead := state.denyRead.merge (denyReadOf layer.domainFields.permissions) layer.source
      autoReviewModels := state.autoReviewModels.merge
        ((layer.domainFields.autoReview.bind (·.requiredOnModels)).getD []) layer.source }

/-- `ConfigRequirementsToml::is_empty`, of the requirements with their sources taken off. -/
def ComposedRequirements.isEmpty (output : ComposedRequirements P) : Bool :=
  output.sqliteHome.isNone && output.logDir.isNone && output.modelCatalogJson.isNone &&
    output.allowedSandboxModes.isNone && output.hooks.all (·.value.isEmpty) && output.rules.isNone &&
    output.permissions.isNone &&
    output.autoReview.all (fun autoReview =>
      autoReview.value.ignoreRules.all (·.isEmpty) && autoReview.value.requiredOnModels.all (·.isEmpty)) &&
    env.restIsEmpty output.rest

def compose (active : HookDirectoryField) (layers : List (ComposableLayer σ P)) :
    Except CompositionError (Option (ComposedRequirements P)) := do
  let merged := layers.foldl (fun merged layer => mergeTomlValues env.platform merged (.ofTable layer.regularToml))
    (.ofTable .empty)
  let requirements ← (env.decode none none merged).mapError .composedParse
  let domain ← layers.reverse.foldlM (DomainMerge.step env active) .start
  let output : ComposedRequirements P :=
    { sqliteHome := setSourced layers "sqlite_home".toList requirements.sqliteHome
      logDir := setSourced layers "log_dir".toList requirements.logDir
      modelCatalogJson := setSourced layers "model_catalog_json".toList requirements.modelCatalogJson
      allowedSandboxModes := setSourced layers "allowed_sandbox_modes".toList requirements.allowedSandboxModes
      hooks := domain.hooks.target
      rules := domain.rules
      permissions := applyDenyRead env domain.denyRead
        (setSourced layers "permissions".toList requirements.permissions)
      autoReview := applyAutoReviewModels domain.autoReviewModels
        (setSourced layers "auto_review".toList requirements.autoReview)
      rest := requirements.rest }
  pure (if output.isEmpty env then none else some output)

def composeRequirements (entries : List (LayerEntry σ P)) :
    Except CompositionError (Option (ComposedRequirements P)) := do
  let layers ← entries.mapM (fromEntry env)
  compose env (.currentPlatform env.platform) layers

end NovumAgent.Config
