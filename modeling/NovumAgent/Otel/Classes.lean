import NovumAgent.Lib.Retain
import NovumAgent.Otel.TraceSanitizer

/-!
# What may be told of an event

The policy of the sanitizer, stated on its own: each key that may be exported has a *kind* of value,
and a value of that kind falls into a *class*, which is all that may be told of it. The name of an
event is its class; a count or a flag is its own class; any other string falls into one of finitely
many labelled categories.

The sanitizer follows the policy: what it leaves of an attribute is built from the class, and so is
what it leaves of an event.
-/

namespace NovumAgent.Otel

open List Option

/-! ## Kinds and classes -/

/-- Categories with their labels. A label is in the category it labels, and what is in no category is
labelled `other`. -/
structure Labels where
  entries : List (String × String)
  settled : ∀ p ∈ entries, entries.lookup p.2 = some p.2
  other : ∀ label, entries.lookup "other" = some label → label = "other"

/-- The label of a string. -/
def Labels.label (labels : Labels) (value : String) : String :=
  (labels.entries.lookup value).getD "other"

/-- What kind of value a key has. -/
inductive Kind where
  | eventName
  | integer
  | boolean
  | category (labels : Labels)

/-- What may be told of a value. -/
inductive ValueClass where
  | eventName (name : String)
  | integer (value : Int)
  | boolean (value : Bool)
  | category (label : String)
deriving DecidableEq

/-- The class of a value under the kind of its key, in an event of a given name. Numbers and flags
may be spelled out as strings. -/
def Kind.classify (name : String) : Kind → Value → Option ValueClass
  | eventName, .string value => if value = name then some (.eventName name) else none
  | integer, .i64 value => if 0 ≤ value then some (.integer value) else none
  | integer, .string value => (parseU64 value).map fun n => .integer (min n i64Max : Nat)
  | boolean, .bool value => some (.boolean value)
  | boolean, .string value =>
    if value = "true" then some (.boolean true)
    else if value = "false" then some (.boolean false)
    else none
  | category labels, .string value => some (.category (labels.label value))
  | _, _ => none

/-! ## The policy -/

section Lookup

variable {β γ : Type*} {key : String}

theorem lookup_cons_ite (k : String) (b : β) (entries : List (String × β)) :
    ((k, b) :: entries).lookup key = if key = k then some b else entries.lookup key := by
  rw [lookup_cons]
  cases h : key == k with
  | true => rw [if_pos (eq_of_beq h)]
  | false => rw [if_neg (ne_of_beq_false h)]

theorem lookup_map_key (f : String → β) (keys : List String) :
    (keys.map fun k => (k, f k)).lookup key = if key ∈ keys then some (f key) else none := by
  induction keys with
  | nil => rfl
  | cons k keys ih =>
    rw [map_cons, lookup_cons_ite, ih]
    by_cases h : key = k <;> simp [h]

theorem lookup_map_entry (f : β → γ) (entries : List (String × β)) :
    (entries.map fun p => (p.1, f p.2)).lookup key = (entries.lookup key).map f := by
  induction entries with
  | nil => rfl
  | cons entry entries ih =>
    obtain ⟨k, b⟩ := entry
    rw [map_cons, lookup_cons_ite, lookup_cons_ite, ih]
    by_cases h : key = k <;> simp [h]

theorem mem_of_lookup {entries : List (String × β)} {b : β} (h : entries.lookup key = some b) :
    (key, b) ∈ entries := by
  obtain ⟨l, m, rfl, _⟩ := lookup_eq_some_iff.mp h
  exact mem_append_right l mem_cons_self

end Lookup

/-- Values that are each a category of their own. -/
def Labels.each (values : List String) : Labels where
  entries := values.map fun v => (v, v)
  settled := by
    intro p hp
    obtain ⟨v, hv, rfl⟩ := mem_map.mp hp
    rw [lookup_map_key, if_pos hv]
  other := by
    intro label h
    rw [lookup_map_key] at h
    split at h
    · exact (Option.some.inj h).symm
    · cases h

/-- The service tiers. -/
def Labels.serviceTier : Labels where
  entries := [("fast", "priority"), ("priority", "priority"), ("flex", "flex"), ("default", "default")]
  settled := by decide
  other := by decide

/-- The reasoning efforts. -/
def Labels.reasoningEffort : Labels :=
  .each ["none", "minimal", "low", "medium", "high", "xhigh", "max", "ultra"]

/-- **The policy**: what may be exported, key by key. -/
def policy : List (String × Kind) :=
  ("event.name", .eventName) :: integerKeys.map (·, .integer) ++ booleanKeys.map (·, .boolean) ++
    [("service_tier", .category .serviceTier),
      ("model_reasoning_effort", .category .reasoningEffort),
      ("reasoning_effort", .category .reasoningEffort)] ++
    approvedValues.map fun p => (p.1, .category (.each p.2))

/-- What may be told of an attribute: its key, and the class of its value. -/
def KeyValue.classify (name : String) (kv : KeyValue) : Option (String × ValueClass) :=
  (policy.lookup kv.key).bind fun kind => (kind.classify name kv.value).map (kv.key, ·)

/-! ## The sanitizer follows the policy -/

/-- The value that shows a class. -/
def ValueClass.value : ValueClass → Value
  | eventName name => .string name
  | integer value => .i64 value
  | boolean value => .bool value
  | category label => .string label

/-- The attribute that shows a key and a class. -/
def KeyValue.build : String × ValueClass → KeyValue
  | (key, cls) => ⟨key, cls.value⟩

open Labels KeyValue Kind

theorem Labels.label_each (values : List String) (value : String) :
    (each values).label value = if value ∈ values then value else "other" := by
  rw [label, each, lookup_map_key]
  split <;> rfl

theorem boundedValue_eq (value : String) (approved : List String) :
    boundedValue value approved = (each approved).label value := by
  rw [label_each, boundedValue]
  cases hfind : approved.find? (· = value) with
  | none =>
    rw [if_neg, getD_none]
    intro hmem
    simpa using find?_eq_none.mp hfind value hmem
  | some v =>
    have hv : v = value := by simpa using find?_some hfind
    rw [if_pos (hv ▸ mem_of_find?_eq_some hfind), hv, getD_some]

theorem boundedServiceTierCategory_eq (value : String) :
    boundedServiceTierCategory value = serviceTier.label value := by
  unfold boundedServiceTierCategory label serviceTier
  simp only [lookup_cons_ite, lookup_nil]
  split <;> simp_all

theorem boundedReasoningEffortCategory_eq (value : String) :
    boundedReasoningEffortCategory value = reasoningEffort.label value := by
  rw [reasoningEffort, label_each]
  unfold boundedReasoningEffortCategory
  split <;> simp_all

/-- **A label labels itself.** -/
theorem Labels.label_label (labels : Labels) (value : String) :
    labels.label (labels.label value) = labels.label value := by
  unfold label
  cases h : labels.entries.lookup value with
  | some label => rw [getD_some, labels.settled _ (mem_of_lookup h), getD_some]
  | none =>
    rw [getD_none]
    cases hother : labels.entries.lookup "other" with
    | none => rfl
    | some label => exact labels.other label hother

theorem lookup_policy (key : String) : policy.lookup key =
      if key = "event.name" then some .eventName
      else if key ∈ integerKeys then some .integer
      else if key ∈ booleanKeys then some .boolean
      else if key = "service_tier" then some (.category .serviceTier)
      else if key = "model_reasoning_effort" ∨ key = "reasoning_effort" then
        some (.category .reasoningEffort)
      else (approvedValues.lookup key).map fun values => .category (.each values) := by
  unfold policy
  rw [cons_append, cons_append, cons_append, lookup_cons_ite]
  simp only [lookup_append, lookup_map_key, lookup_cons_ite, lookup_nil]
  split
  · rfl
  · split
    · rfl
    · split
      · rfl
      · split
        · rfl
        · by_cases hmodel : key = "model_reasoning_effort"
          · rw [if_pos hmodel, if_pos (.inl hmodel)]
            rfl
          · by_cases heffort : key = "reasoning_effort"
            · rw [if_neg hmodel, if_pos heffort, if_pos (.inr heffort)]
              rfl
            · rw [if_neg hmodel, if_neg heffort, if_neg (not_or.mpr ⟨hmodel, heffort⟩)]
              exact lookup_map_entry (fun values => category (.each values)) approvedValues

theorem mem_approvedEventAttributeKeys (key : String) :
    key ∈ approvedEventAttributeKeys ↔ key ∈ policy.map Prod.fst := by
  have hmp : ∀ key ∈ approvedEventAttributeKeys, key ∈ policy.map Prod.fst := by decide +kernel
  have hmpr : ∀ key ∈ policy.map Prod.fst, key ∈ approvedEventAttributeKeys := by decide +kernel
  exact ⟨hmp key, hmpr key⟩

theorem lookup_policy_of_notMem {key : String} (h : key ∉ approvedEventAttributeKeys) :
    policy.lookup key = none := by
  cases hkind : policy.lookup key with
  | none => rfl
  | some kind =>
    exact absurd ((mem_approvedEventAttributeKeys key).mpr (mem_map_of_mem (mem_of_lookup hkind))) h

section Kinds

variable (name key : String) (value : Value)

/-- The attribute that shows the class of a value. -/
def Kind.sanitize (kind : Kind) : Option KeyValue :=
  (kind.classify name value).map fun cls => ⟨key, cls.value⟩

theorem sanitize_eventName : (if value = .string name then some ⟨key, value⟩ else none) =
      Kind.eventName.sanitize name key value := by
  cases value with
  | string v => by_cases h : v = name <;> simp [Kind.sanitize, Kind.classify, ValueClass.value, h]
  | _ => rfl

theorem sanitizeNonnegativeInteger_eq :
    sanitizeNonnegativeInteger ⟨key, value⟩ = Kind.integer.sanitize name key value := by
  cases value with
  | i64 v =>
    by_cases h : 0 ≤ v <;>
      simp [sanitizeNonnegativeInteger, Kind.sanitize, Kind.classify, ValueClass.value, h]
  | string v =>
    rw [sanitizeNonnegativeInteger, Kind.sanitize, Kind.classify, Option.map_map]
    rfl
  | _ => rfl

theorem sanitizeBoolean_eq :
    sanitizeBoolean ⟨key, value⟩ = Kind.boolean.sanitize name key value := by
  cases value with
  | string v =>
    unfold sanitizeBoolean Kind.sanitize Kind.classify
    by_cases htrue : v = "true"
    · simp [htrue, ValueClass.value]
    · by_cases hfalse : v = "false" <;> simp [htrue, hfalse, ValueClass.value]
  | _ => rfl

theorem sanitizeCategoryAttribute_eq {labels : Labels}
    (h : ∀ v, categoryOf key v = some (labels.label v)) :
    sanitizeCategoryAttribute ⟨key, value⟩ = (category labels).sanitize name key value := by
  cases value with
  | string v => simp [sanitizeCategoryAttribute, h, Kind.sanitize, Kind.classify, ValueClass.value]
  | _ => rfl

end Kinds

/-- **The sanitizer leaves of an attribute what shows its class.** -/
theorem sanitizeEventAttribute_eq (name : String) (kv : KeyValue) :
    sanitizeEventAttribute name kv = (kv.classify name).map KeyValue.build := by
  obtain ⟨key, value⟩ := kv
  have hclassify : (classify name ⟨key, value⟩).map build =
      (policy.lookup key).bind fun kind => kind.sanitize name key value := by
    rw [KeyValue.classify]
    cases policy.lookup key with
    | none => rfl
    | some kind => exact map_map ..
  rw [hclassify, sanitizeEventAttribute]
  by_cases happroved : key ∈ approvedEventAttributeKeys
  · have hcategory : key ≠ "service_tier" →
        ¬ (key = "model_reasoning_effort" ∨ key = "reasoning_effort") →
        sanitizeCategoryAttribute ⟨key, value⟩ =
          ((approvedValues.lookup key).map fun values => category (.each values)).bind
            fun kind => kind.sanitize name key value := by
      intro htier heffort
      cases hvalues : approvedValues.lookup key with
      | none =>
        cases value <;> simp [sanitizeCategoryAttribute, categoryOf, htier, heffort, hvalues]
      | some values =>
        exact sanitizeCategoryAttribute_eq name key value fun v => by
          rw [categoryOf, if_neg htier, if_neg heffort, hvalues, map_some, boundedValue_eq]
    rw [if_neg (not_not.mpr happroved), lookup_policy]
    split
    · exact sanitize_eventName name key value
    split
    · exact sanitizeNonnegativeInteger_eq name key value
    split
    · exact sanitizeBoolean_eq name key value
    split
    next htier =>
      exact sanitizeCategoryAttribute_eq name key value fun v => by
        rw [categoryOf, if_pos htier, boundedServiceTierCategory_eq]
    next htier =>
      split
      next heffort =>
        exact sanitizeCategoryAttribute_eq name key value fun v => by
          rw [categoryOf, if_neg htier, if_pos heffort, boundedReasoningEffortCategory_eq]
      next heffort => exact hcategory htier heffort
  · rw [if_pos happroved, lookup_policy_of_notMem happroved]
    rfl

/-- The classes that values of a kind may fall into. -/
inductive Kind.Allows (name : String) : Kind → ValueClass → Prop where
  | eventName : Allows name .eventName (.eventName name)
  | integer {value : Int} : 0 ≤ value → Allows name .integer (.integer value)
  | boolean (value : Bool) : Allows name .boolean (.boolean value)
  | category (labels : Labels) (value : String) :
    Allows name (.category labels) (.category (labels.label value))

variable {name : String}

theorem Kind.allows_of_classify {kind : Kind} {value : Value} {cls : ValueClass}
    (h : kind.classify name value = some cls) : kind.Allows name cls := by
  unfold classify at h
  split at h
  next v =>
    split at h
    next => cases h; exact .eventName
    next => cases h
  next v =>
    split at h
    next hv => cases h; exact .integer hv
    next => cases h
  next v =>
    obtain ⟨n, _, rfl⟩ := map_eq_some_iff.mp h
    exact .integer (Int.natCast_nonneg _)
  next v => cases h; exact .boolean v
  next v =>
    split at h
    next => cases h; exact .boolean true
    next =>
      split at h
      next => cases h; exact .boolean false
      next => cases h
  next labels v => cases h; exact .category labels v
  next => cases h

theorem Kind.Allows.classify_value {kind : Kind} {cls : ValueClass}
    (h : kind.Allows name cls) : kind.classify name cls.value = some cls := by
  cases h with
  | eventName => exact if_pos rfl
  | integer hvalue => exact if_pos hvalue
  | boolean value => rfl
  | category labels value => simp [ValueClass.value, classify, labels.label_label]

/-- **Attributes are retained by their class.** -/
theorem retains_attribute (name : String) :
    Retains (sanitizeEventAttribute name) (KeyValue.classify name) KeyValue.build where
  builds := sanitizeEventAttribute_eq name
  views := by
    rintro ⟨key, value⟩ ⟨key', cls⟩ h
    obtain ⟨kind, hkind, hcls⟩ := bind_eq_some_iff.mp h
    obtain ⟨cls', hcls, heq⟩ := map_eq_some_iff.mp hcls
    cases heq
    simp [KeyValue.classify, KeyValue.build, hkind, (Kind.allows_of_classify hcls).classify_value]

/-! ## Events -/

/-- What may be told of an event: when it was, its name, and what may be told of its attributes. -/
structure EventClass where
  timestamp : Nat
  name : String
  attributes : List (String × ValueClass)
deriving DecidableEq

/-- The class of an event, if its name is approved. -/
def Event.classify (e : Event) : Option EventClass :=
  (eventName e.attributes).bind fun name =>
    if name ∈ approvedEventNames then
      some ⟨e.timestamp, name, e.attributes.filterMap (KeyValue.classify name)⟩
    else none

/-- The class of an event, and the number of the attributes it lost before it got here. -/
def Event.view (e : Event) : Option (EventClass × Nat) :=
  e.classify.map (·, e.droppedAttributesCount)

/-- The event that shows a class and a number of lost attributes. -/
def Event.build : EventClass × Nat → Event
  | (cls, dropped) => ⟨cls.name, cls.timestamp, cls.attributes.map KeyValue.build, dropped⟩

theorem sanitizeEventAttribute_of_eventName {kv : KeyValue}
    (h : kv.eventName? = some name) : sanitizeEventAttribute name kv = some kv := by
  obtain ⟨key, value⟩ := kv
  obtain ⟨hkey, h⟩ := Option.ite_none_right_eq_some.mp h
  obtain rfl : key = "event.name" := hkey
  cases value with
  | string v =>
    cases h
    have happroved : "event.name" ∈ approvedEventAttributeKeys := by decide
    rw [sanitizeEventAttribute, if_neg (not_not.mpr happroved), if_pos rfl, if_pos rfl]
  | _ => cases h

theorem eventName?_of_sanitizeEventAttribute {kv kv' : KeyValue}
    (hnone : kv.eventName? = none) (h : sanitizeEventAttribute name kv = some kv') :
    kv'.eventName? = none := by
  by_cases hkey : kv.key = "event.name"
  · unfold sanitizeEventAttribute at h
    split at h
    next => cases h
    next =>
      split at h
      next hvalue =>
        rw [eventName?, if_pos hkey, hvalue] at hnone
        cases hnone
      next => cases h
  · rw [sanitizeEventAttribute_eq] at h
    obtain ⟨b, hb, rfl⟩ := map_eq_some_iff.mp h
    obtain ⟨kind, _, hcls⟩ := bind_eq_some_iff.mp hb
    obtain ⟨cls, _, rfl⟩ := map_eq_some_iff.mp hcls
    exact if_neg hkey

theorem eventName_filterMap {kvs : List KeyValue} (h : eventName kvs = some name) :
    eventName (kvs.filterMap (sanitizeEventAttribute name)) = some name := by
  unfold eventName at h ⊢
  induction kvs with
  | nil => cases h
  | cons kv kvs ih =>
    rw [findSome?_cons] at h
    cases hname : kv.eventName? with
    | some v =>
      rw [hname] at h
      cases h
      rw [filterMap_cons, sanitizeEventAttribute_of_eventName hname, findSome?_cons, hname]
    | none =>
      rw [hname] at h
      rw [filterMap_cons]
      cases hkept : sanitizeEventAttribute name kv with
      | none => exact ih h
      | some kv' =>
        rw [findSome?_cons, eventName?_of_sanitizeEventAttribute hname hkept]
        exact ih h

/-- **Events are retained by their class.** -/
theorem retains_event : Retains sanitizeEvent Event.view Event.build where
  builds := by
    intro e
    unfold sanitizeEvent Event.view Event.classify
    cases eventName e.attributes with
    | none => rfl
    | some name =>
      by_cases happroved : name ∈ approvedEventNames
      · simp [happroved, Event.build, (retains_attribute name).filterMap_eq]
      · simp [happroved]
  views := by
    intro e b h
    obtain ⟨cls, hcls, rfl⟩ := map_eq_some_iff.mp h
    obtain ⟨name, hname, hcls⟩ := bind_eq_some_iff.mp hcls
    obtain ⟨happroved, ⟨⟩⟩ := Option.ite_none_right_eq_some.mp hcls
    have hkept := eventName_filterMap hname
    simp only [Event.view, Event.build, Event.classify, hkept, bind_some, if_pos happroved,
      map_some, ← (retains_attribute name).filterMap_eq,
      (retains_attribute name).filterMap_view]

end NovumAgent.Otel
