import NovumAgent.Config.RequirementsLayers

/-!
# Restrictions of requirements add up

No layer of requirements can cancel what another forbids (`composed_restrictions_kept`), for any list of
layers. There are two ways in which it could. The merge of the layers' documents, where the higher layer
wins, could bring back a field that was taken out of them; it does not, because nothing that no layer has
comes out of a merge (`at?_mergeTomlValues`). And the fold over the layers could drop, double or reorder
something; what it has built after some layers is exactly what they say (`Restricts`), layer by layer.
What a layer says is read off its document as it was given, before anything is taken out of it: of the
decoder it is assumed that it reads each of these fields from its own place (`ReadsFields`).
-/

namespace NovumAgent.Config

open List Outcome Toml OrderedMap

variable {σ : Type} {P : Parts} (env : Environment σ P)

/-! ## What is taken out stays out -/

theorem at?_erase {table : TomlTable σ} (key : Text) (path : List Text)
    (h : (ofTable table).at? path = none) : (ofTable (table.erase key)).at? path = none := by
  cases path with
  | nil => exact nomatch h
  | cons first rest =>
    rw [at?_cons, get_ofTable] at h ⊢
    rw [get?_erase]
    split
    next => rfl
    next => exact h

theorem at?_removeNested_self {path : List Text} (hpath : path ≠ []) (table : TomlTable σ) :
    (ofTable (removeNestedFieldAndPruneEmpty path table)).at? path = none := by
  induction path generalizing table with
  | nil => exact absurd rfl hpath
  | cons key rest ih =>
    cases rest with
    | nil =>
      rw [removeNestedFieldAndPruneEmpty, at?_cons, get_ofTable, get?_erase, if_pos rfl]
      rfl
    | cons next rest =>
      have hbelow : ∀ table : TomlTable σ, (ofTable table).at? (key :: next :: rest) = none →
          (ofTable (if ((table.get? key).bind asTable).any (·.isEmpty) then table.erase key
            else table)).at? (key :: next :: rest) = none := by
        intro table htable
        split
        next => exact at?_erase key _ htable
        next => exact htable
      rw [removeNestedFieldAndPruneEmpty]
      · apply hbelow
        cases hchild : (table.get? key).bind asTable with
        | none =>
          rw [at?_cons, get_ofTable]
          dsimp only
          cases hget : table.get? key with
          | none => rfl
          | some child =>
            rw [hget, Option.bind_some] at hchild
            rw [Option.bind_some, Toml.at?_cons, Toml.get, hchild]
            rfl
        | some child =>
          rw [at?_cons, get_ofTable, get?_insert, if_pos rfl]
          exact ih (cons_ne_nil next rest) child
      · exact cons_ne_nil next rest

theorem get?_removeNested_of_ne {key first : Text} (hne : first ≠ key) (rest : List Text)
    (table : TomlTable σ) :
    (removeNestedFieldAndPruneEmpty (key :: rest) table).get? first = table.get? first := by
  cases rest with
  | nil => rw [removeNestedFieldAndPruneEmpty, get?_erase, if_neg hne]
  | cons next rest =>
    have hprune : ∀ table : TomlTable σ, get? (if ((table.get? key).bind asTable).any
        (·.isEmpty) then table.erase key else table) first = table.get? first := by
      intro table
      split
      next => rw [get?_erase, if_neg hne]
      next => rfl
    rw [removeNestedFieldAndPruneEmpty, hprune]
    · split
      next => rw [get?_insert, if_neg hne]
      next => rfl
    · exact cons_ne_nil next rest

theorem at?_stripSpecialFields (document : TomlTable σ) :
    (ofTable (stripSpecialFields document)).at? denyReadPath = none := by
  have hne : "permissions".toList ≠ "auto_review".toList := by decide
  unfold stripSpecialFields
  rw [denyReadPath, at?_cons, get_ofTable, get?_removeNested_of_ne hne, ← get_ofTable, ← at?_cons]
  exact at?_removeNested_self (cons_ne_nil _ _) _

theorem plainAt_denyRead (before : List Text) (key : Text) (h : before ++ [key] <+: denyReadPath) :
    PlainAt before := by
  have hlength := h.length_le
  have htake : before = denyReadPath.take before.length :=
    prefix_iff_eq_take.mp ((prefix_append before [key]).trans h)
  have hcases : before.length = 0 ∨ before.length = 1 ∨ before.length = 2 := by
    rw [length_append, length_singleton, show denyReadPath.length = 3 from rfl] at hlength
    omega
  rcases hcases with hlen | hlen | hlen
  all_goals
    rw [hlen] at htake
    rw [htake]
    constructor <;> decide

variable {layers : List (ComposableLayer σ P)} {α : Type} {active : HookDirectoryField}

/-- **The merged layers deny no reading**, since that was taken out of each. -/
theorem at?_merged (hlayers : ∀ layer ∈ layers, (ofTable layer.regularToml).at? denyReadPath = none)
    {base : TomlTable σ} (hbase : (ofTable base).at? denyReadPath = none) :
    ∃ merged, layers.foldl (fun merged layer =>
        mergeTomlValues env.platform merged (.ofTable layer.regularToml)) (.ofTable base) = .ofTable merged ∧
      (ofTable merged).at? denyReadPath = none := by
  induction layers generalizing base with
  | nil => exact ⟨base, rfl, hbase⟩
  | cons layer layers ih =>
    obtain ⟨next, hnext⟩ := @mergeTomlValues_ofTable σ env.platform base layer.regularToml
    rw [foldl_cons, hnext]
    apply ih
    · intro other hother
      exact hlayers other (mem_cons_of_mem _ hother)
    · rw [← hnext]
      exact at?_mergeTomlValues plainAt_denyRead hbase (hlayers layer mem_cons_self)

/-! ## What a layer says -/

/-- How the rules, the hooks and the patterns are read from what is at their places in a document, with the
base directory and the path context that apply. -/
structure FieldReaders (σ : Type) (P : Parts) where
  rules : Option P.Path → Option Text → Option (Toml σ) → Option (List P.Rule)
  hooks : Option P.Path → Option Text → Option (Toml σ) → Option (ManagedHooks P)
  denyRead : Option P.Path → Option Text → Option (Toml σ) → List P.Pattern

/-- The decoder of requirements, which is derived field by field, reads these fields from their own places,
and no patterns where there are none. -/
structure ReadsFields (env : Environment σ P) (readers : FieldReaders σ P) : Prop where
  decoded : ∀ baseDir pathContext document requirements,
    env.decode baseDir pathContext (.ofTable document) = .ok requirements →
    requirements.rules = readers.rules baseDir pathContext (document.get? "rules".toList) ∧
      requirements.hooks = readers.hooks baseDir pathContext (document.get? "hooks".toList) ∧
      denyReadOf requirements.permissions =
        readers.denyRead baseDir pathContext ((ofTable document).at? denyReadPath)
  nothing : ∀ baseDir pathContext, readers.denyRead baseDir pathContext none = []

namespace FieldReaders

variable (readers : FieldReaders σ P) (entry : LayerEntry σ P) (document : TomlTable σ)

/-- The rules that a layer with this document asks for. -/
def rulesIn : List P.Rule :=
  (readers.rules entry.baseDir entry.pathContext (document.get? "rules".toList)).getD []

/-- The hooks of a layer. -/
def hooksIn : Option (ManagedHooks P) :=
  readers.hooks entry.baseDir entry.pathContext (document.get? "hooks".toList)

/-- The patterns that a layer denies reading. -/
def patternsIn : List P.Pattern :=
  readers.denyRead entry.baseDir entry.pathContext ((ofTable document).at? denyReadPath)

end FieldReaders

theorem get?_foldl_erase {key : Text} {keys : List Text} (hkey : key ∉ keys) (document : TomlTable σ) :
    (keys.foldl .erase document).get? key = document.get? key := by
  induction keys generalizing document with
  | nil => rfl
  | cons first keys ih =>
    obtain ⟨hfirst, hkey⟩ := not_or.mp (mt mem_cons.mpr hkey)
    rw [foldl_cons, ih hkey, get?_erase, if_neg hfirst]

theorem get?_stripCloudAuthRequirements {key : Text} (hkey : key ∉ localOnlyAuthRequirements)
    (source : RequirementSource) (document : TomlTable σ) :
    (stripCloudAuthRequirements source document).get? key = document.get? key := by
  unfold stripCloudAuthRequirements
  split
  next => exact get?_foldl_erase hkey document
  next => rfl

theorem get?_resolveProviderPaths {source : RequirementSource} {baseDir : Option P.Path}
    {document resolved : TomlTable σ} (h : resolveProviderPaths env source baseDir document = .ok resolved)
    {key : Text} (hkey : key ≠ "model_providers".toList) : resolved.get? key = document.get? key := by
  unfold resolveProviderPaths at h
  split at h
  next => rw [pure_eq_ok.mp h]
  next =>
    obtain ⟨providers, -, hinsert⟩ := bind_eq_ok.mp h
    rw [← pure_eq_ok.mp hinsert, get?_insert, if_neg hkey]

variable {env} {readers : FieldReaders σ P} {entry : LayerEntry σ P} {layer : ComposableLayer σ P}

/-- What was taken from a layer is what its document says. -/
structure Says (readers : FieldReaders σ P) (layer : ComposableLayer σ P)
    (said : LayerEntry σ P × TomlTable σ) : Prop where
  rules : layer.domainFields.rules.getD [] = readers.rulesIn said.1 said.2
  hooks : layer.domainFields.hooks = readers.hooksIn said.1 said.2
  patterns : denyReadOf layer.domainFields.permissions = readers.patternsIn said.1 said.2

/-- **A layer is taken as its document says**, and its patterns are gone from what is merged. -/
theorem fromEntry_says (hreads : ReadsFields env readers) (h : fromEntry env entry = .ok layer) :
    ∃ document, parseLayerToml env entry.toml entry.source = .ok document ∧
      Says readers layer (entry, document) ∧ (ofTable layer.regularToml).at? denyReadPath = none := by
  simp only [fromEntry, readLayer, bind_eq_ok, pure_eq_ok, mapError_eq_ok] at h
  obtain ⟨_, ⟨document, hparse, resolved, hresolve, requirements, hdecode, rfl⟩, _, -, _, -, _, -, final, -,
    rfl⟩ := h
  -- nothing is changed at the places of these fields before the document is decoded
  have hplace : ∀ key ∈ ["rules".toList, "hooks".toList, "permissions".toList],
      (resolved.erase "model_providers".toList).get? key = document.get? key := by
    intro key hmem
    have hproviders : key ≠ "model_providers".toList := fun heq => by
      subst heq
      exact absurd hmem (by decide)
    have hauth : key ∉ localOnlyAuthRequirements := by
      revert key
      decide
    rw [get?_erase, if_neg hproviders, get?_resolveProviderPaths env hresolve hproviders,
      get?_stripCloudAuthRequirements hauth]
  obtain ⟨hrules, hhooks, hpatterns⟩ := hreads.decoded _ _ _ _ hdecode
  refine ⟨document, hparse, ⟨?_, ?_, ?_⟩, at?_stripSpecialFields final⟩
  · dsimp only [FieldReaders.rulesIn]
    rw [hrules, hplace _ (by decide)]
  · dsimp only [FieldReaders.hooksIn]
    rw [hhooks, hplace _ (by decide)]
  · dsimp only [FieldReaders.patternsIn]
    rw [hpatterns, denyReadPath, at?_cons, get_ofTable, hplace _ (by decide), ← get_ofTable, ← at?_cons]

variable (env)

/-! ## The fold over the layers -/

theorem UnionMerge.entries_push [DecidableEq α] (source : RequirementSource)
    (state : UnionMerge α) (entry : α) :
    (state.push source entry).entries = Dedup.pushNew state.entries entry := by
  unfold UnionMerge.push
  split
  next h => rw [Dedup.pushNew, if_pos h]
  next => rfl

theorem UnionMerge.entries_merge [DecidableEq α] (state : UnionMerge α) (incoming : List α)
    (source : RequirementSource) :
    (state.merge incoming source).entries = incoming.foldl Dedup.pushNew state.entries := by
  unfold UnionMerge.merge
  induction incoming generalizing state with
  | nil => rfl
  | cons entry incoming ih =>
    rw [foldl_cons, foldl_cons, ih, UnionMerge.entries_push]

theorem mergeRules_value (target : Option (Sourced (List P.Rule))) (incoming : Option (List P.Rule))
    (source : RequirementSource) :
    ((mergeRules target incoming source).map (·.value)).getD [] =
      (target.map (·.value)).getD [] ++ incoming.getD [] := by
  cases incoming with
  | none => simp [mergeRules]
  | some incoming => cases target <;> simp [mergeRules]

open ManagedHooks

theorem ManagedHooks.groups_of_isEmpty {hooks : ManagedHooks P} (h : hooks.isEmpty = true)
    (event : HookEvent) : hooks.hooks event = [] := by
  simp only [isEmpty, Bool.and_eq_true, List.all_eq_true, List.isEmpty_iff] at h
  exact h.2 event event.mem_all

theorem ManagedHooks.dir_of_isEmpty {hooks : ManagedHooks P} (h : hooks.isEmpty = true)
    (field : HookDirectoryField) : hooks.dir field = none := by
  simp only [isEmpty, Bool.and_eq_true, Option.isNone_iff_eq_none] at h
  cases field with
  | managedDir => exact h.1.1
  | windowsManagedDir => exact h.1.2

/-- The hooks built so far. -/
def HookMerge.built (state : HookMerge P) : Option (ManagedHooks P) := state.target.map (·.value)

/-- What a layer's hooks do to the hooks built so far: the groups go behind those that are there, and a
directory for the active platform is taken over, or is the one that is there. -/
structure HooksAdded (active : HookDirectoryField) (before incoming after : Option (ManagedHooks P)) :
    Prop where
  groups : ∀ event, groupsOf after event = groupsOf before event ++ groupsOf incoming event
  kept : ∀ dir, dirOf before active = some dir → dirOf after active = some dir
  taken : ∀ dir, dirOf incoming active = some dir → dirOf after active = some dir

theorem mergeActiveSingleton_eq_ok {dirSources : HookDirectoryField → Option RequirementSource}
    {field : HookDirectoryField} {existing incoming : Option P.Path} {source : RequirementSource}
    {result : Option P.Path × (HookDirectoryField → Option RequirementSource) × Bool}
    (h : mergeActiveSingleton env dirSources field existing incoming source = .ok result) :
    (∀ dir, existing = some dir → result.1 = some dir) ∧ ∀ dir, incoming = some dir → result.1 = some dir := by
  cases existing with
  | none =>
    cases incoming with
    | none =>
      cases h
      exact ⟨nofun, nofun⟩
    | some incoming =>
      cases h
      exact ⟨nofun, fun dir hdir => hdir⟩
  | some existing =>
    cases incoming with
    | none =>
      cases h
      exact ⟨fun dir hdir => hdir, nofun⟩
    | some incoming =>
      simp only [mergeActiveSingleton, ite_throw_eq_ok, pure_eq_ok, ne_eq, not_not] at h
      obtain ⟨rfl, rfl⟩ := h
      exact ⟨fun dir hdir => hdir, fun dir hdir => hdir⟩

theorem HookMerge.merge_eq_ok {state state' : HookMerge P}
    {incoming : Option (ManagedHooks P)} {source : RequirementSource}
    (h : state.merge env active incoming source = .ok state') :
    HooksAdded active state.built incoming state'.built := by
  unfold HookMerge.merge at h
  cases hincoming : incoming.filter (!·.isEmpty) with
  | none =>
    rw [hincoming] at h
    cases h
    -- hooks without groups and directories are as good as none
    have hempty : ∀ hooks, incoming = some hooks → hooks.isEmpty = true := by
      intro hooks hhooks
      rw [hhooks] at hincoming
      simpa [Option.filter] using hincoming
    refine ⟨fun event => ?_, fun dir hdir => hdir, fun dir hdir => ?_⟩
    · cases incoming with
      | none => exact (append_nil _).symm
      | some hooks =>
        rw [show groupsOf (some hooks) event = hooks.hooks event from rfl,
          groups_of_isEmpty (hempty hooks rfl), append_nil]
    · cases incoming with
      | none => exact nomatch hdir
      | some hooks =>
        rw [show dirOf (some hooks) active = hooks.dir active from rfl,
          dir_of_isEmpty (hempty hooks rfl)] at hdir
        exact nomatch hdir
  | some hooks =>
    have hsome : incoming = some hooks := (Option.filter_eq_some_iff.mp hincoming).1
    rw [hincoming] at h
    rw [hsome]
    unfold HookMerge.built
    cases htarget : state.target with
    | none =>
      rw [htarget] at h
      cases h
      exact ⟨fun event => rfl, nofun, fun dir hdir => hdir⟩
    | some existing =>
      rw [htarget] at h
      simp only [bind_eq_ok, pure_eq_ok] at h
      obtain ⟨⟨activeDir, dirSources, activeChanged⟩, hactive, rfl⟩ := h
      obtain ⟨hkept, htaken⟩ := mergeActiveSingleton_eq_ok env hactive
      refine ⟨fun event => rfl, fun dir hdir => ?_, fun dir hdir => ?_⟩
      · exact (if_pos rfl).trans (hkept dir hdir)
      · exact (if_pos rfl).trans (htaken dir hdir)

/-- What the loop has built of the layers it has seen, the highest first. -/
structure Restricts (active : HookDirectoryField) (seen : List (ComposableLayer σ P))
    (state : DomainMerge P) : Prop where
  denyRead : state.denyRead.entries =
    (seen.flatMap fun layer => denyReadOf layer.domainFields.permissions).eraseDups
  rules : (state.rules.map (·.value)).getD [] = seen.flatMap fun layer => layer.domainFields.rules.getD []
  groups : ∀ event, groupsOf state.hooks.built event =
    seen.flatMap fun layer => groupsOf layer.domainFields.hooks event
  dirs : ∀ layer ∈ seen, ∀ dir, dirOf layer.domainFields.hooks active = some dir →
    dirOf state.hooks.built active = some dir

theorem restricts_start (active : HookDirectoryField) :
    Restricts active ([] : List (ComposableLayer σ P)) .start where
  denyRead := rfl
  rules := rfl
  groups _ := rfl
  dirs _ h := absurd h not_mem_nil

theorem DomainMerge.step_restricts {seen : List (ComposableLayer σ P)}
    {state state' : DomainMerge P} {layer : ComposableLayer σ P} (hseen : Restricts active seen state)
    (h : state.step env active layer = .ok state') : Restricts active (seen ++ [layer]) state' := by
  simp only [DomainMerge.step, bind_eq_ok, pure_eq_ok] at h
  obtain ⟨hooks, hmerge, rfl⟩ := h
  have hadded := HookMerge.merge_eq_ok env hmerge
  constructor
  · rw [flatMap_append, flatMap_singleton, ← Dedup.foldl_pushNew, ← hseen.denyRead]
    exact UnionMerge.entries_merge _ _ _
  · rw [flatMap_append, flatMap_singleton, ← hseen.rules]
    exact mergeRules_value _ _ _
  · intro event
    rw [flatMap_append, flatMap_singleton, ← hseen.groups]
    exact hadded.groups event
  · intro other hother dir hdir
    rcases mem_append.mp hother with hother | hother
    · exact hadded.kept dir (hseen.dirs other hother dir hdir)
    · rw [mem_singleton.mp hother] at hdir
      exact hadded.taken dir hdir

theorem foldlM_step_restricts {seen : List (ComposableLayer σ P)}
    {state state' : DomainMerge P} (hseen : Restricts active seen state)
    (h : layers.foldlM (DomainMerge.step env active) state = .ok state') :
    Restricts active (seen ++ layers) state' := by
  induction layers generalizing seen state with
  | nil =>
    cases h
    rwa [append_nil]
  | cons layer layers ih =>
    rw [foldlM_cons, bind_eq_ok] at h
    obtain ⟨next, hstep, hrest⟩ := h
    have hnext := ih (DomainMerge.step_restricts env hseen hstep) hrest
    rwa [append_assoc] at hnext

/-! ## The composed requirements -/

/-- The patterns that composed requirements deny reading. -/
def composedDenyRead (output : Option (ComposedRequirements P)) : List P.Pattern :=
  denyReadOf ((output.bind (·.permissions)).map (·.value))

/-- The prefix rules of composed requirements. -/
def composedRules (output : Option (ComposedRequirements P)) : List P.Rule :=
  ((output.bind (·.rules)).map (·.value)).getD []

/-- The groups of hooks that composed requirements have for an event. -/
def composedGroups (output : Option (ComposedRequirements P)) (event : HookEvent) : List P.Group :=
  groupsOf ((output.bind (·.hooks)).map (·.value)) event

theorem denyReadOf_applyDenyRead {state : UnionMerge P.Pattern} (hstate : state.entries.Nodup)
    {target : Option (Sourced (PermissionsRequirements P))}
    (htarget : denyReadOf (target.map (·.value)) = []) :
    denyReadOf ((applyDenyRead env state target).map (·.value)) = state.entries := by
  unfold applyDenyRead
  split
  next h => rw [h, htarget]
  next =>
    cases target with
    | none => rfl
    | some existing =>
      have hexisting : (existing.value.filesystem.bind id).getD [] = [] := htarget
      show state.entries.foldl Dedup.pushNew ((existing.value.filesystem.bind id).getD []) = state.entries
      rw [hexisting, ← eraseDups_nil, Dedup.foldl_pushNew, nil_append,
        Dedup.eraseDups_of_nodup hstate]

theorem denyReadOf_setSourced (layers : List (ComposableLayer σ P)) (key : Text)
    (permissions : Option (PermissionsRequirements P)) :
    denyReadOf ((setSourced layers key permissions).map (·.value)) = denyReadOf permissions := by
  cases permissions <;> rfl

/-- Requirements that are left out because they are empty had nothing in these fields. -/
theorem composed_of_isEmpty {output : ComposedRequirements P} (h : output.isEmpty env = true) :
    composedDenyRead (some output) = [] ∧ composedRules (some output) = [] ∧
      ∀ event, composedGroups (some output) event = [] := by
  simp only [ComposedRequirements.isEmpty, Bool.and_eq_true, Option.isNone_iff_eq_none] at h
  obtain ⟨⟨⟨⟨⟨-, hhooks⟩, hrules⟩, hpermissions⟩, -⟩, -⟩ := h
  refine ⟨?_, ?_, fun event => ?_⟩
  · simp [composedDenyRead, hpermissions, denyReadOf]
  · simp [composedRules, hrules]
  · unfold composedGroups
    rw [Option.bind_some]
    cases hsome : output.hooks with
    | none => rfl
    | some hooks =>
      rw [hsome] at hhooks
      exact groups_of_isEmpty hhooks event

theorem compose_eq_ok (hreads : ReadsFields env readers) {output : Option (ComposedRequirements P)}
    (hlayers : ∀ layer ∈ layers, (ofTable layer.regularToml).at? denyReadPath = none)
    (h : compose env active layers = .ok output) :
    ∃ state, Restricts active layers.reverse state ∧ composedDenyRead output = state.denyRead.entries ∧
      composedRules output = (state.rules.map (·.value)).getD [] ∧
      ∀ event, composedGroups output event = groupsOf state.hooks.built event := by
  simp only [compose, bind_eq_ok, mapError_eq_ok, pure_eq_ok] at h
  obtain ⟨requirements, hrequirements, state, hstate, houtput⟩ := h
  have hrestricts : Restricts active ([] ++ layers.reverse) state :=
    foldlM_step_restricts env (restricts_start active) hstate
  rw [nil_append] at hrestricts
  obtain ⟨merged, hmerged, hpath⟩ := @at?_merged σ P env layers hlayers .empty rfl
  rw [hmerged] at hrequirements
  have hnone : denyReadOf requirements.permissions = [] := by
    rw [(hreads.decoded none none merged _ hrequirements).2.2, hpath]
    exact hreads.nothing none none
  have hnodup : state.denyRead.entries.Nodup := by
    rw [hrestricts.denyRead]
    exact Dedup.nodup_eraseDups _
  refine ⟨state, hrestricts, ?_⟩
  rw [← denyReadOf_setSourced layers "permissions".toList] at hnone
  have hdeny := denyReadOf_applyDenyRead env hnodup hnone
  split at houtput
  next hempty =>
    obtain ⟨hdenyRead, hrules, hgroups⟩ := composed_of_isEmpty env hempty
    subst houtput
    exact ⟨hdenyRead.symm.trans hdeny, hrules.symm, fun event => (hgroups event).symm⟩
  next =>
    subst houtput
    exact ⟨hdeny, rfl, fun event => rfl⟩

/-- The layers that were taken, each with its entry and its document. -/
theorem exists_taken (hreads : ReadsFields env readers) {entries : List (LayerEntry σ P)}
    (h : List.Forall₂ (fun entry layer => fromEntry env entry = .ok layer) entries layers) :
    ∃ taken : List (ComposableLayer σ P × LayerEntry σ P × TomlTable σ), taken.map (·.1) = layers ∧
      taken.map (·.2.1) = entries ∧ ∀ one ∈ taken,
        parseLayerToml env one.2.1.toml one.2.1.source = .ok one.2.2 ∧ Says readers one.1 one.2 ∧
          (ofTable one.1.regularToml).at? denyReadPath = none := by
  induction h with
  | nil => exact ⟨[], rfl, rfl, fun _ h => absurd h not_mem_nil⟩
  | @cons entry layer entries layers hlayer _ ih =>
    obtain ⟨taken, rfl, rfl, htaken⟩ := ih
    obtain ⟨document, hone⟩ := fromEntry_says hreads hlayer
    exact ⟨(layer, entry, document) :: taken, rfl, rfl, forall_mem_cons.mpr ⟨hone, htaken⟩⟩

theorem flatMap_taken {taken : List (ComposableLayer σ P × LayerEntry σ P × TomlTable σ)}
    (h : ∀ one ∈ taken, Says readers one.1 one.2) {f : ComposableLayer σ P → List α}
    {g : LayerEntry σ P × TomlTable σ → List α}
    (hfg : ∀ layer pair, Says readers layer pair → f layer = g pair) :
    (taken.map (·.1)).reverse.flatMap f = (taken.map (·.2)).reverse.flatMap g := by
  rw [← map_reverse, ← map_reverse, flatMap_map, flatMap_map]
  exact flatMap_congr fun one hone => hfg _ _ (h one (mem_reverse.mp hone))

/-- **No layer of requirements cancels a restriction of another.** When the layers can be composed, each of
them has a document, and the composed requirements deny reading every pattern in every document, once, in
the order of first occurrence from the highest layer to the lowest; the rules and the hooks of each event
are those of all documents from the highest to the lowest. And two layers whose documents name different
directories of managed hooks for the platform cannot be composed. Layers are listed from the lowest to the
highest. -/
theorem composed_restrictions_kept (σ : Type) (P : Parts) (env : Environment σ P)
    (readers : FieldReaders σ P) (hreads : ReadsFields env readers) (entries : List (LayerEntry σ P)) :
    (∀ output, composeRequirements env entries = .ok output →
      ∃ layers : List (LayerEntry σ P × TomlTable σ), layers.map (·.1) = entries ∧
        (∀ layer ∈ layers, parseLayerToml env layer.1.toml layer.1.source = .ok layer.2) ∧
        composedDenyRead output =
          (layers.reverse.flatMap fun layer => readers.patternsIn layer.1 layer.2).eraseDups ∧
        (composedDenyRead output).Nodup ∧
        (∀ pattern, pattern ∈ composedDenyRead output ↔
          ∃ layer ∈ layers, pattern ∈ readers.patternsIn layer.1 layer.2) ∧
        composedRules output = (layers.reverse.flatMap fun layer => readers.rulesIn layer.1 layer.2) ∧
        ∀ event, composedGroups output event =
          layers.reverse.flatMap fun layer => groupsOf (readers.hooksIn layer.1 layer.2) event) ∧
    ∀ entry ∈ entries, ∀ entry' ∈ entries, ∀ document document',
      parseLayerToml env entry.toml entry.source = .ok document →
      parseLayerToml env entry'.toml entry'.source = .ok document' →
      ∀ dir dir', dirOf (readers.hooksIn entry document) (.currentPlatform env.platform) = some dir →
        dirOf (readers.hooksIn entry' document') (.currentPlatform env.platform) = some dir' → dir ≠ dir' →
        ∃ error, composeRequirements env entries = .error error := by
  constructor
  · intro output houtput
    rw [composeRequirements, bind_eq_ok] at houtput
    obtain ⟨layers, hlayers, hcompose⟩ := houtput
    obtain ⟨taken, rfl, rfl, htaken⟩ := exists_taken env hreads (forall₂_of_mapM_eq_ok hlayers)
    obtain ⟨state, hstate, hdeny, hrules, hgroups⟩ := compose_eq_ok env hreads
      (forall_mem_map.mpr fun one hone => (htaken one hone).2.2) hcompose
    have hsays : ∀ one ∈ taken, Says readers one.1 one.2 := fun one hone => (htaken one hone).2.1
    have hdenyRead : composedDenyRead output = ((taken.map (·.2)).reverse.flatMap fun layer =>
        readers.patternsIn layer.1 layer.2).eraseDups := by
      rw [hdeny, hstate.denyRead, flatMap_taken hsays fun _ _ h => h.patterns]
    refine ⟨taken.map (·.2), map_map .., forall_mem_map.mpr fun one hone => (htaken one hone).1, hdenyRead,
      ?_, fun pattern => ?_, ?_, fun event => ?_⟩
    · rw [hdenyRead]
      exact Dedup.nodup_eraseDups _
    · rw [hdenyRead, mem_eraseDups, mem_flatMap]
      simp only [mem_reverse]
    · rw [hrules, hstate.rules, flatMap_taken hsays fun _ _ h => h.rules]
    · rw [hgroups, hstate.groups, flatMap_taken hsays fun _ _ h => by rw [h.hooks]]
  · intro entry hentry entry' hentry' document document' hparse hparse' dir dir' hdir hdir' hne
    cases hresult : composeRequirements env entries with
    | error error => exact ⟨error, rfl⟩
    | ok output =>
      rw [composeRequirements, bind_eq_ok] at hresult
      obtain ⟨layers, hlayers, hcompose⟩ := hresult
      obtain ⟨taken, rfl, rfl, htaken⟩ := exists_taken env hreads (forall₂_of_mapM_eq_ok hlayers)
      obtain ⟨state, hstate, -⟩ := compose_eq_ok env hreads
        (forall_mem_map.mpr fun one hone => (htaken one hone).2.2) hcompose
      -- each directory that a document names is the one the fold ends with
      have hnamed : ∀ entry ∈ taken.map (·.2.1), ∀ document,
          parseLayerToml env entry.toml entry.source = .ok document → ∀ dir,
          dirOf (readers.hooksIn entry document) (.currentPlatform env.platform) = some dir →
          dirOf state.hooks.built (.currentPlatform env.platform) = some dir := by
        intro entry hentry document hparse dir hdir
        obtain ⟨one, hone, rfl⟩ := mem_map.mp hentry
        obtain ⟨hparsed, hsaid, -⟩ := htaken one hone
        cases hparsed.symm.trans hparse
        exact hstate.dirs one.1 (mem_reverse.mpr (mem_map_of_mem hone)) dir (by rw [hsaid.hooks, hdir])
      have hsame := (hnamed _ hentry _ hparse _ hdir).symm.trans (hnamed _ hentry' _ hparse' _ hdir')
      exact absurd (Option.some.inj hsame) hne

/-- Requirements whose parts are texts. -/
def textParts : Parts := ⟨Text, Text, Text, Text, Unit, Unit, Unit⟩

/-- The texts of an array at a path. -/
def textsAt (value : Option (Toml Unit)) (path : List Text) : Option (List Text) :=
  ((value.bind (·.at? path)).bind asArray).map (·.filterMap asStr)

/-- Fields that are read as texts. -/
def textReaders : FieldReaders Unit textParts where
  rules _ _ value := textsAt value ["prefix_rules".toList]
  hooks _ _ value := value.map fun value =>
    { dir := fun field =>
        if field = .managedDir then (Toml.at? value ["managed_dir".toList]).bind asStr else none
      hooks := fun event => if event = .stop then (textsAt value ["Stop".toList]).getD [] else [] }
  denyRead _ _ value := (textsAt value []).getD []

/-- A decoder that reads texts where the fields are. -/
def decodeTexts (document : TomlTable Unit) : Requirements textParts where
  sqliteHome := none
  logDir := none
  modelCatalogJson := none
  allowedSandboxModes := none
  remoteSandboxConfig := none
  hooks := textReaders.hooks none none (document.get? "hooks".toList)
  rules := textReaders.rules none none (document.get? "rules".toList)
  permissions := some ⟨some (some (textReaders.denyRead none none ((ofTable document).at? denyReadPath))), ()⟩
  autoReview := none
  rest := ()

/-- An environment for requirements of texts. -/
def textEnvironment : Environment Unit textParts where
  platform := ⟨⟨fun _ => false, fun _ => none, fun _ => none, fun _ => none⟩, id, false⟩
  parseToml _ := .error []
  decode _ _ value := (value.asTable.map fun document => .ok (decodeTexts document)).getD (.error [])
  decodePath _ _ := .error []
  encodePath _ := .error []
  encodeModes _ := .error []
  hostName := none
  normalizeHostname _ := none
  hostnameMatchesAnyPattern _ _ := false
  displayPath := id
  defaultProfiles := ()
  restIsEmpty _ := true

theorem textEnvironment_reads : ReadsFields textEnvironment textReaders := by
  refine ⟨fun baseDir pathContext document requirements hdecode => ?_, fun _ _ => rfl⟩
  cases hdecode
  exact ⟨rfl, rfl, rfl⟩

/-- A layer with a document that denies reading some patterns and has rules, hooks that run at the end, and a
directory for them. -/
def restricting (patterns rules groups : List Text) (dir : Text) : LayerEntry Unit textParts :=
  let texts (l : List Text) : Toml Unit := .array l.length fun i => .string (l.get i)
  let one (key : Text) (value : Toml Unit) : TomlTable Unit := OrderedMap.empty.insert key value
  let permissions := one "filesystem".toList (.ofTable (one "deny_read".toList (texts patterns)))
  let hooks := (one "Stop".toList (texts groups)).insert "managed_dir".toList (.string dir)
  ⟨.single .unknown, .value (((one "permissions".toList (.ofTable permissions)).insert "rules".toList
    (.ofTable (one "prefix_rules".toList (texts rules)))).insert "hooks".toList (.ofTable hooks)), none, none⟩

theorem composed_restrictions_kept_two :
    let low := restricting [['a'], ['b']] [['r']] [['g']] ['/', 'd']
    let high := restricting [['b'], ['c']] [['s']] [['h']] ['/', 'd']
    let other := restricting [] [] [] ['/', 'e']
    (composeRequirements textEnvironment [low, high]).toOption.map (fun output =>
        ((composedDenyRead output : List Text), (composedRules output : List Text),
          (composedGroups output .stop : List Text))) =
      some ([['b'], ['c'], ['a']], [['s'], ['r']], [['h'], ['g']]) ∧
    (∀ output, composeRequirements textEnvironment [low, high] = .ok output →
      (composedDenyRead output).Nodup) ∧
    ∃ error, composeRequirements textEnvironment [low, other] = .error error := by
  intro low high other
  have hkept := composed_restrictions_kept Unit textParts textEnvironment textReaders textEnvironment_reads
  refine ⟨by decide +kernel, fun output houtput => ?_, ?_⟩
  · obtain ⟨layers, -, -, -, hnodup, -⟩ := (hkept [low, high]).1 output houtput
    exact hnodup
  · exact (hkept [low, other]).2 low (by simp) other (by simp) _ _ rfl rfl ['/', 'd'] ['/', 'e']
      (by decide +kernel) (by decide +kernel) (show (['/', 'd'] : Text) ≠ ['/', 'e'] by decide)

end NovumAgent.Config
