import NovumAgent.Config.Toml
import NovumAgent.NetworkProxy.Domains

/-!
# Merging layers of configuration

A layer of configuration is put over the layers below it: tables are merged key by key, anything else is
replaced. Before that, keys that were renamed are read under their new names. At a few paths the merge
does more. Host names and filter patterns are keys that are compared in a normal form, so both tables are
rewritten to it. The two forms of the filters of the shell environment displace each other. A feature
that is a table below and a boolean above, or the other way round, is taken for a table with `enabled`.
And a credential provider is dropped when a layer above takes one of its variables for another provider.
-/

namespace NovumAgent.Config

open NetworkProxy (Crates normalizeHost toAsciiLowercase)

variable {σ : Type}

/-! ## Renamed keys -/

structure ConfigKeyAlias where
  legacy : List Text
  canonical : List Text

def configKeyAliases : List ConfigKeyAlias :=
  [⟨["tui".toList, "whimsy".toList], ["tui".toList, "effects".toList, "starfield".toList]⟩,
   ⟨["memories".toList, "no_memories_if_mcp_or_web_search".toList],
    ["memories".toList, "disable_on_external_context".toList]⟩,
   ⟨["agents".toList, "max_threads".toList],
    ["agents".toList, "max_concurrent_threads_per_session".toList]⟩]

/-- The value put at a path below a table, unless there is one or something that is no table is in the
way. -/
def insertIfAbsent : List Text → Text → Toml σ → TomlTable σ → TomlTable σ
  | [], key, value, destination =>
    if (destination.get? key).isSome then destination else destination.insert key value
  | parent :: parents, key, value, destination =>
    match destination.get? parent with
    | none => destination.insert parent (.ofTable (insertIfAbsent parents key value .empty))
    | some child =>
      match child.asTable with
      | some child => destination.insert parent (.ofTable (insertIfAbsent parents key value child))
      | none => destination

/-- `slice::split_last`, with what is before the last element first. -/
def splitLast {α : Type} (path : List α) : Option (List α × α) := path.getLast?.map fun key => (path.dropLast, key)

/-- One turn of the loop of `normalize_table_key_aliases`. -/
def normalizeTableKeyAlias (path : List Text) (table : TomlTable σ) (keyAlias : ConfigKeyAlias) : TomlTable σ :=
  match splitLast keyAlias.legacy with
  | none => table
  | some (tablePath, legacyKey) =>
    if path = tablePath ∧ tablePath <+: keyAlias.canonical then
      match table.get? legacyKey with
      | none => table
      | some value =>
        match splitLast (keyAlias.canonical.drop tablePath.length) with
        | none => table.erase legacyKey
        | some (parents, key) => insertIfAbsent parents key value (table.erase legacyKey)
    else table

def normalizeTableKeyAliases (path : List Text) (table : TomlTable σ) : TomlTable σ :=
  configKeyAliases.foldl (normalizeTableKeyAlias path) table

/-- Whether a renamed key is at or below a path. -/
def aliasBelow (path : List Text) : Bool := configKeyAliases.any fun keyAlias => path <+: keyAlias.legacy

def normalizeKeyAliasesAtPath : Toml σ → List Text → Toml σ
  | .table keys nodup value, path =>
    if aliasBelow path then
      .ofTable (normalizeTableKeyAliases path
        ⟨keys, nodup, fun key => normalizeKeyAliasesAtPath (value key) (path ++ [key.1])⟩)
    else .table keys nodup value
  | .array length items, path =>
    if aliasBelow path then .array length fun i => normalizeKeyAliasesAtPath (items i) path
    else .array length items
  | value, _ => value

def normalizeKeyAliases (value : Toml σ) : Toml σ := normalizeKeyAliasesAtPath value []

def normalizeBaseKeyAliases (base : Toml σ) : Toml σ → List Text → Toml σ
  | .table keys _ value, path =>
    match base.asTable with
    | some base =>
      .ofTable ((normalizeTableKeyAliases path base).map fun key existing =>
        if h : key ∈ keys then normalizeBaseKeyAliases existing (value ⟨key, h⟩) (path ++ [key])
        else existing)
    | none => base
  | _, _ => base

/-! ## Special paths -/

/-- `ShellEnvironmentPolicyFilterRepresentation`. -/
inductive FilterRepresentation where
  | filters
  | legacy

def FilterRepresentation.fromPolicy (policy : TomlTable σ) : Option FilterRepresentation :=
  if (policy.get? "filters".toList).isSome then some filters
  else if (policy.get? "exclude".toList).isSome ∨ (policy.get? "include_only".toList).isSome then
    some legacy
  else none

def FilterRepresentation.displacedFields : FilterRepresentation → List Text
  | filters => ["exclude".toList, "include_only".toList]
  | legacy => ["filters".toList]

def isStructuredFeaturePath (path : List Text) : Bool :=
  let structured features feature :=
    features = "features".toList ∧
      feature ∈ ["code_mode".toList, "multi_agent_v2".toList, "network_proxy".toList, "sleep_tool".toList]
  match path with
  | [profiles, _, features, feature] => profiles = "profiles".toList ∧ structured features feature
  | [features, feature] => structured features feature
  | _ => false

def isNetworkDomainsPath : List Text → Bool
  | [permissions, _, network, domains] =>
    permissions = "permissions".toList ∧ network = "network".toList ∧ domains = "domains".toList
  | [application, network, domains] =>
    application = "application".toList ∧ network = "network".toList ∧ domains = "domains".toList
  | _ => false

def isShellEnvironmentFiltersPath (path : List Text) : Bool :=
  path = ["shell_environment_policy".toList, "filters".toList]

/-- Whether the providers of credentials are at a path. -/
def isCredentialsPath (path : List Text) : Bool :=
  match splitLast path with
  | some (featurePath, field) => field = "credentials".toList ∧ isStructuredFeaturePath featurePath
  | none => false

/-- What the merge takes from elsewhere: the crates behind `normalize_host`, `str::to_lowercase`, and
whether the program was built for Windows. -/
structure Platform where
  crates : Crates
  toLowercase : Text → Text
  windows : Bool

variable (platform : Platform)

/-- What becomes of a key of a table at a path: `normalize_network_domain_keys` and
`normalize_case_insensitive_keys` where they apply. -/
def normalizeKeyAt (path : List Text) (key : Text) : Text :=
  let key := if isNetworkDomainsPath path then normalizeHost platform.crates key else key
  if isShellEnvironmentFiltersPath path then platform.toLowercase key else key

/-- The keys of a table at a path, rewritten there, each with the key it stood for. -/
def normalizeKeysAt (path : List Text) (keys : List Text) (nodup : keys.Nodup) :
    OrderedMap Text {key // key ∈ keys} :=
  if isNetworkDomainsPath path ∨ isShellEnvironmentFiltersPath path then
    .rekey keys (normalizeKeyAt platform path)
  else ⟨keys, nodup, id⟩

/-- A table at a path, with its keys rewritten there. -/
def normalizeTableAt (path : List Text) : TomlTable σ → TomlTable σ
  | ⟨keys, nodup, value⟩ => (normalizeKeysAt platform path keys nodup).map fun _ key => value key

/-- The variables that a provider of credentials is read from. -/
def providerSources (provider : Toml σ) : Option (List Text) :=
  ((provider.get "env".toList).bind Toml.asArray).map (·.filterMap Toml.asStr)

/-- Whether two names of variables are taken for one. -/
def sameSource (a b : Text) : Bool :=
  a = b ∨ (platform.windows = true ∧ toAsciiLowercase a = toAsciiLowercase b)

/-- Whether a provider below the layer stays, which another provider of the layer may have taken a
variable from. -/
def keepsProvider (overlay : TomlTable σ) (existingId : Text) (existing : Toml σ) : Bool :=
  overlay.keys.all fun providerId =>
    match (overlay.get? providerId).bind providerSources with
    | none => true
    | some overlaySources =>
      existingId = providerId ∨
        ¬ (((((overlay.get? existingId).bind (·.get "env".toList)).or (existing.get "env".toList)).bind
          Toml.asArray).any fun existingSources =>
            (existingSources.filterMap Toml.asStr).any fun existingSource =>
              overlaySources.any (sameSource platform existingSource)) = true

/-- `replace_shell_environment_policy_filter_representation`, of a base table. -/
def replaceFilterRepresentation (path : List Text) (base overlay : TomlTable σ) : TomlTable σ :=
  if path = ["shell_environment_policy".toList] then
    match FilterRepresentation.fromPolicy overlay with
    | some representation => representation.displacedFields.foldl .erase base
    | none => base
  else base

/-- The table that a feature switch stands for. -/
def enabledTable (enabled : Bool) : TomlTable σ := OrderedMap.empty.insert "enabled".toList (.boolean enabled)

/-- The table that a table at a path is put over, if there is one: what is below, with the fields that the
overlay displaces gone, or the table that a feature switch stands for. -/
def baseTableAt (path : List Text) (base : Toml σ) (overlay : TomlTable σ) : Option (TomlTable σ) :=
  match base with
  | .table keys nodup value => some (replaceFilterRepresentation path ⟨keys, nodup, value⟩ overlay)
  | .boolean enabled => if isStructuredFeaturePath path then some (enabledTable enabled) else none
  | _ => none

/-- The entries below a table that stay when it is put over them. -/
def retainedAt (path : List Text) (base overlay : TomlTable σ) : TomlTable σ :=
  if isCredentialsPath path then base.retain (keepsProvider platform overlay) else base

def mergeTomlValuesAtPath (path : List Text) (base : Toml σ) : Toml σ → Toml σ
  | .table keys nodup value =>
    match baseTableAt path base ⟨keys, nodup, value⟩ with
    | some baseTable =>
      let overlayKeys := normalizeKeysAt platform path keys nodup
      let kept := retainedAt platform path (normalizeTableAt platform path baseTable)
        (normalizeTableAt platform path ⟨keys, nodup, value⟩)
      .ofTable (kept.overlay overlayKeys fun key existing source =>
        match existing with
        | some existing => mergeTomlValuesAtPath (path ++ [key]) existing (value source)
        | none => value source)
    | none => .table keys nodup value
  | .boolean enabled =>
    match base.asTable with
    | some baseTable =>
      if isStructuredFeaturePath path then .ofTable (baseTable.insert "enabled".toList (.boolean enabled))
      else .boolean enabled
    | none => .boolean enabled
  | overlay => overlay

def mergeTomlValues (base overlay : Toml σ) : Toml σ :=
  let overlay := normalizeKeyAliases overlay
  mergeTomlValuesAtPath platform [] (normalizeBaseKeyAliases base overlay []) overlay

/-! ## Paths without special rules

At most paths the merge does what a reader expects, and the lemmas below say so key by key.
-/

/-- No key of a table at the path was renamed. -/
def NotRenamedAt (path : List Text) : Prop := ∀ keyAlias ∈ configKeyAliases, path ≠ keyAlias.legacy.dropLast

instance (path : List Text) : Decidable (NotRenamedAt path) :=
  inferInstanceAs (Decidable (∀ keyAlias ∈ configKeyAliases, path ≠ keyAlias.legacy.dropLast))

/-- No rule of the merge is about tables at the path. -/
structure PlainAt (path : List Text) : Prop where
  notRenamed : NotRenamedAt path
  notPolicy : path ≠ ["shell_environment_policy".toList]
  notFeature : isStructuredFeaturePath path = false
  notDomains : isNetworkDomainsPath path = false
  notFilters : isShellEnvironmentFiltersPath path = false
  notCredentials : isCredentialsPath path = false

variable {platform} {path : List Text} {base value : Toml σ}

theorem normalizeTableKeyAliases_eq_self (h : NotRenamedAt path) (table : TomlTable σ) :
    normalizeTableKeyAliases path table = table := by
  have hstep : ∀ aliases : List ConfigKeyAlias, (∀ keyAlias ∈ aliases, path ≠ keyAlias.legacy.dropLast) →
      aliases.foldl (normalizeTableKeyAlias path) table = table := by
    intro aliases haliases
    induction aliases with
    | nil => rfl
    | cons keyAlias rest ih =>
      have hself : normalizeTableKeyAlias path table keyAlias = table := by
        unfold normalizeTableKeyAlias splitLast
        cases keyAlias.legacy.getLast? with
        | none => rfl
        | some key => exact if_neg fun hpath => haliases keyAlias List.mem_cons_self hpath.1
      rw [List.foldl_cons, hself]
      exact ih fun keyAlias hmem => haliases keyAlias (List.mem_cons_of_mem _ hmem)
  exact hstep configKeyAliases h

open OrderedMap

theorem get_normalizeKeyAliasesAtPath (h : NotRenamedAt path) (key : Text) :
    (normalizeKeyAliasesAtPath value path).get key =
      if aliasBelow path then (value.get key).map (normalizeKeyAliasesAtPath · (path ++ [key]))
      else value.get key := by
  cases value with
  | table keys nodup fields =>
    rw [normalizeKeyAliasesAtPath]
    split
    next =>
      rw [normalizeTableKeyAliases_eq_self h]
      exact get?_map ⟨keys, nodup, fields⟩
        (fun key child => normalizeKeyAliasesAtPath child (path ++ [key])) key
    next => rfl
  | array length items =>
    rw [normalizeKeyAliasesAtPath]
    split <;> rfl
  | scalar _ | string _ | boolean _ =>
    simp only [normalizeKeyAliasesAtPath]
    split <;> rfl

theorem get_normalizeBaseKeyAliases (h : NotRenamedAt path) (overlay : Toml σ) (key : Text) :
    (normalizeBaseKeyAliases base overlay path).get key =
      (base.get key).map fun existing => match overlay.get key with
        | some child => normalizeBaseKeyAliases existing child (path ++ [key])
        | none => existing := by
  cases overlay with
  | table keys nodup fields =>
    rw [normalizeBaseKeyAliases]
    cases hbase : base.asTable with
    | none => simp [Toml.get, hbase]
    | some baseTable =>
      have hget : base.get key = baseTable.get? key := by rw [Toml.get, hbase, Option.bind_some]
      rw [Toml.get_ofTable, normalizeTableKeyAliases_eq_self h, get?_map, hget]
      congr 1
      funext existing
      show _ = match get? ⟨keys, nodup, fields⟩ key with
        | some child => normalizeBaseKeyAliases existing child (path ++ [key])
        | none => existing
      by_cases hkey : key ∈ keys
      · rw [dif_pos hkey, get?_of_mem (m := ⟨keys, nodup, fields⟩) hkey]
      · rw [dif_neg hkey, get?_of_notMem (m := ⟨keys, nodup, fields⟩) hkey]
  | scalar _ | string _ | boolean _ | array _ _ => simp [normalizeBaseKeyAliases, Toml.get, Toml.asTable]

theorem PlainAt.normalizeKeysAt_eq (h : PlainAt path) (keys : List Text) (nodup : keys.Nodup) :
    normalizeKeysAt platform path keys nodup = ⟨keys, nodup, id⟩ := by
  unfold normalizeKeysAt
  rw [if_neg (by simp [h.notDomains, h.notFilters])]

theorem PlainAt.normalizeTableAt_eq (h : PlainAt path) (table : TomlTable σ) :
    normalizeTableAt platform path table = table := by
  obtain ⟨keys, nodup, value⟩ := table
  rw [normalizeTableAt, h.normalizeKeysAt_eq]
  rfl

theorem PlainAt.retainedAt_eq (h : PlainAt path) (table overlay : TomlTable σ) :
    retainedAt platform path table overlay = table := by
  unfold retainedAt
  rw [if_neg (by simp [h.notCredentials])]

theorem PlainAt.baseTableAt_eq (h : PlainAt path) (base : Toml σ) (overlay : TomlTable σ) :
    baseTableAt path base overlay = base.asTable := by
  cases base with
  | table keys nodup fields =>
    rw [baseTableAt, replaceFilterRepresentation, if_neg h.notPolicy]
    rfl
  | boolean enabled =>
    rw [baseTableAt, if_neg (by simp [h.notFeature])]
    rfl
  | scalar _ | string _ | array _ _ => rfl

theorem get_mergeTomlValuesAtPath (h : PlainAt path) (overlay : Toml σ) (key : Text) :
    (mergeTomlValuesAtPath platform path base overlay).get key =
      match overlay.asTable with
      | none => none
      | some table => match table.get? key with
        | none => base.get key
        | some child => match base.get key with
          | some existing => some (mergeTomlValuesAtPath platform (path ++ [key]) existing child)
          | none => some child := by
  cases overlay with
  | table keys nodup fields =>
    rw [mergeTomlValuesAtPath, h.baseTableAt_eq]
    cases hbase : base.asTable with
    | none =>
      have hget : base.get key = none := by rw [Toml.get, hbase, Option.bind_none]
      rw [hget]
      show get? ⟨keys, nodup, fields⟩ key =
        match get? ⟨keys, nodup, fields⟩ key with
        | none => none
        | some child => some child
      cases get? ⟨keys, nodup, fields⟩ key with
      | none => rfl
      | some child => rfl
    | some baseTable =>
      have hget : base.get key = baseTable.get? key := by rw [Toml.get, hbase, Option.bind_some]
      simp only [h.normalizeKeysAt_eq, h.normalizeTableAt_eq, h.retainedAt_eq, Toml.get_ofTable,
        get?_overlay, hget, Toml.asTable]
      by_cases hkey : key ∈ keys
      · rw [get?_of_mem (m := ⟨keys, nodup, id⟩) hkey,
          get?_of_mem (m := ⟨keys, nodup, fields⟩) hkey]
        cases baseTable.get? key with
        | none => rfl
        | some existing => rfl
      · rw [get?_of_notMem (m := ⟨keys, nodup, id⟩) hkey,
          get?_of_notMem (m := ⟨keys, nodup, fields⟩) hkey]
  | boolean enabled =>
    rw [mergeTomlValuesAtPath]
    cases base.asTable with
    | none => rfl
    | some baseTable =>
      simp only [h.notFeature, Bool.false_eq_true, if_false]
      rfl
  | scalar _ | string _ | array _ _ =>
    simp only [mergeTomlValuesAtPath]
    rfl

theorem mergeTomlValues_ofTable (base overlay : TomlTable σ) :
    ∃ merged, mergeTomlValues platform (.ofTable base) (.ofTable overlay) = .ofTable merged := by
  obtain ⟨above, habove⟩ : ∃ above, normalizeKeyAliases (.ofTable overlay) = .ofTable above := ⟨_, rfl⟩
  obtain ⟨below, hbelow⟩ : ∃ below, normalizeBaseKeyAliases (.ofTable base) (.ofTable above) [] =
      .ofTable below := ⟨_, rfl⟩
  rw [mergeTomlValues, habove, hbelow]
  exact ⟨_, rfl⟩

/-! ## What no layer has

A path that nothing is at in two layers, and that no special rule is about, has nothing at it after the
merge.
-/

variable {rest : List Text} {overlay : Toml σ}

theorem plain_cons {P : List Text → Prop} {key : Text}
    (h : ∀ before key', before ++ [key'] <+: key :: rest → P (path ++ before)) :
    P path ∧ ∀ before key', before ++ [key'] <+: rest → P (path ++ [key] ++ before) := by
  refine ⟨by simpa using h [] key (by simp), fun before key' hbefore => ?_⟩
  have := h (key :: before) key' (by simpa using hbefore)
  simpa using this

theorem at?_normalizeKeyAliasesAtPath
    (hplain : ∀ before key, before ++ [key] <+: rest → NotRenamedAt (path ++ before))
    (h : value.at? rest = none) : (normalizeKeyAliasesAtPath value path).at? rest = none := by
  induction rest generalizing value path with
  | nil => exact nomatch h
  | cons key rest ih =>
    obtain ⟨hpath, htail⟩ := plain_cons hplain
    rw [Toml.at?_cons] at h ⊢
    rw [get_normalizeKeyAliasesAtPath hpath]
    split
    next =>
      cases hget : value.get key with
      | none => rfl
      | some child =>
        rw [hget] at h
        exact ih htail h
    next => exact h

theorem at?_normalizeBaseKeyAliases
    (hplain : ∀ before key, before ++ [key] <+: rest → NotRenamedAt (path ++ before))
    (h : base.at? rest = none) : (normalizeBaseKeyAliases base overlay path).at? rest = none := by
  induction rest generalizing base overlay path with
  | nil => exact nomatch h
  | cons key rest ih =>
    obtain ⟨hpath, htail⟩ := plain_cons hplain
    rw [Toml.at?_cons] at h ⊢
    rw [get_normalizeBaseKeyAliases hpath]
    cases hget : base.get key with
    | none => rfl
    | some existing =>
      rw [hget] at h
      cases overlay.get key with
      | none => exact h
      | some child => exact ih htail h

theorem at?_mergeTomlValuesAtPath
    (hplain : ∀ before key, before ++ [key] <+: rest → PlainAt (path ++ before))
    (hbase : base.at? rest = none) (hoverlay : overlay.at? rest = none) :
    (mergeTomlValuesAtPath platform path base overlay).at? rest = none := by
  induction rest generalizing base overlay path with
  | nil => exact nomatch hbase
  | cons key rest ih =>
    obtain ⟨hpath, htail⟩ := plain_cons hplain
    rw [Toml.at?_cons] at hbase hoverlay ⊢
    rw [get_mergeTomlValuesAtPath hpath]
    rw [Toml.get] at hoverlay
    cases htable : overlay.asTable with
    | none => rfl
    | some table =>
      rw [htable, Option.bind_some] at hoverlay
      dsimp only
      cases hchild : table.get? key with
      | none => exact hbase
      | some child =>
        rw [hchild] at hoverlay
        cases hexisting : base.get key with
        | none => exact hoverlay
        | some existing =>
          rw [hexisting] at hbase
          exact ih htail hbase hoverlay

/-- **The merge makes nothing up.** -/
theorem at?_mergeTomlValues (hplain : ∀ before key, before ++ [key] <+: rest → PlainAt before)
    (hbase : base.at? rest = none) (hoverlay : overlay.at? rest = none) :
    (mergeTomlValues platform base overlay).at? rest = none := by
  have hrenamed : ∀ before key, before ++ [key] <+: rest → NotRenamedAt ([] ++ before) :=
    fun before key hbefore => (hplain before key hbefore).notRenamed
  exact at?_mergeTomlValuesAtPath hplain (at?_normalizeBaseKeyAliases hrenamed hbase)
    (at?_normalizeKeyAliasesAtPath hrenamed hoverlay)

end NovumAgent.Config
