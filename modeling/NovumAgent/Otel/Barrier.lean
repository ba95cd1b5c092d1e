import NovumAgent.Otel.Classes

/-!
# The sanitizer as a barrier

Two spans of the same class differ in nothing that may be told of them. The sanitizer should make
them equal, and leave no string that is not known beforehand. It falls short of both in one place:
a span context carries a trace state, a list of strings that came with a request from elsewhere, and
neither that of the span nor those of its links are touched. What else passes is meant to: the code of
the status, and the counts of what was dropped before the span got here.
-/

namespace NovumAgent.Otel

open List Event

/-! ## Classes of spans -/

/-- The ids and flags of a span context. -/
def SpanContext.ids (c : SpanContext) : Nat × Nat × Nat × Bool :=
  (c.traceId, c.spanId, c.traceFlags, c.isRemote)

/-- The name of a span, if it is approved. -/
def SpanData.approvedName (s : SpanData) : Option String :=
  if s.name ∈ approvedSpanNames then some s.name else none

/-- A status without its description. -/
inductive StatusCode where
  | unset
  | error
  | ok

def Status.code : Status → StatusCode
  | unset => .unset
  | error _ => .error
  | ok => .ok

/-- **Spans of the same class** agree on their ids, flags, times and kind, on the ids and flags of
their links, and on what may be told of their names and their events. -/
structure SameClass (s t : SpanData) : Prop where
  ids : s.spanContext.ids = t.spanContext.ids
  parentSpanId : s.parentSpanId = t.parentSpanId
  parentSpanIsRemote : s.parentSpanIsRemote = t.parentSpanIsRemote
  spanKind : s.spanKind = t.spanKind
  name : s.approvedName = t.approvedName
  startTime : s.startTime = t.startTime
  endTime : s.endTime = t.endTime
  events : s.events.events.filterMap Event.classify = t.events.events.filterMap Event.classify
  links : s.links.links.map (·.spanContext.ids) = t.links.links.map (·.spanContext.ids)

/-- How many attributes the events that stay had lost. -/
def SpanEvents.keptDrops (es : SpanEvents) : List Nat :=
  es.events.filterMap fun e => e.classify.map fun _ => e.droppedAttributesCount

/-- **What passes besides the class**: the trace states of the span and of its links, the code of its
status, and the numbers of attributes, events and links that were dropped. -/
structure SamePassed (s t : SpanData) : Prop where
  traceState : s.spanContext.traceState = t.spanContext.traceState
  linkTraceStates :
    s.links.links.map (·.spanContext.traceState) = t.links.links.map (·.spanContext.traceState)
  status : s.status.code = t.status.code
  droppedAttributes : s.droppedAttributesCount = t.droppedAttributesCount
  droppedEvents : s.events.droppedCount = t.events.droppedCount
  droppedLinks : s.links.droppedCount = t.links.droppedCount
  eventDrops : s.events.keptDrops = t.events.keptDrops
  linkDrops :
    s.links.links.map (·.droppedAttributesCount) = t.links.links.map (·.droppedAttributesCount)

/-! ## Equal results -/

theorem map_prod_eq {α β γ : Type*} {f : α → β} {g : α → γ} {l m : List α}
    (hf : l.map f = m.map f) (hg : l.map g = m.map g) :
    l.map (fun a => (f a, g a)) = m.map fun a => (f a, g a) := by
  rw [← zip_map', ← zip_map', hf, hg]

theorem SpanContext.ext_ids {c d : SpanContext} (hids : c.ids = d.ids)
    (hstate : c.traceState = d.traceState) : c = d := by
  obtain ⟨_, _, _, _, _⟩ := c
  obtain ⟨_, _, _, _, _⟩ := d
  simp only [SpanContext.ids, Prod.mk.injEq] at hids hstate
  obtain ⟨rfl, rfl, rfl, rfl⟩ := hids
  cases hstate
  rfl

theorem filterMap_view_eq {es fs : SpanEvents}
    (hclass : es.events.filterMap classify = fs.events.filterMap classify)
    (hdrops : es.keptDrops = fs.keptDrops) :
    es.events.filterMap view = fs.events.filterMap view := by
  have hfst : ∀ es : SpanEvents, (es.events.filterMap view).map Prod.fst =
      es.events.filterMap classify := by
    intro es
    rw [map_filterMap]
    exact congrArg (filterMap · _) (funext fun e => by simp [view, Function.comp_def])
  have hsnd : ∀ es : SpanEvents, (es.events.filterMap view).map Prod.snd = es.keptDrops := by
    intro es
    rw [map_filterMap]
    exact congrArg (filterMap · _) (funext fun e => by simp [view, Function.comp_def])
  rw [← map_id (es.events.filterMap view), ← map_id (fs.events.filterMap view)]
  exact map_prod_eq (by rw [hfst, hfst, hclass]) (by rw [hsnd, hsnd, hdrops])

theorem map_sanitizeLink_eq {ls ms : List Link}
    (hids : ls.map (·.spanContext.ids) = ms.map (·.spanContext.ids))
    (hstates : ls.map (·.spanContext.traceState) = ms.map (·.spanContext.traceState))
    (hdrops : ls.map (·.droppedAttributesCount) = ms.map (·.droppedAttributesCount)) :
    ls.map sanitizeLink = ms.map sanitizeLink := by
  have hbuild := congrArg
    (map fun p : (Nat × Nat × Nat × Bool) × List (String × String) × Nat =>
      Link.mk ⟨p.1.1, p.1.2.1, p.1.2.2.1, p.1.2.2.2, p.2.1⟩ [] p.2.2)
    (map_prod_eq hids (map_prod_eq hstates hdrops))
  rw [map_map, map_map] at hbuild
  exact hbuild

theorem sanitizeStatus_eq {s t : Status} (h : s.code = t.code) :
    sanitizeStatus s = sanitizeStatus t := by
  cases s <;> cases t <;> first | rfl | cases h

theorem code_sanitizeStatus (s : Status) : (sanitizeStatus s).code = s.code := by
  cases s <;> rfl

theorem SpanEvents.keptDrops_eq (es : SpanEvents) :
    es.keptDrops = (es.events.filterMap sanitizeEvent).map (·.droppedAttributesCount) := by
  rw [map_filterMap]
  refine congrArg (filterMap · _) (funext fun e => ?_)
  rw [retains_event.builds, Option.map_map, view, Option.map_map]
  rfl

/-- **What passes the barrier.** Spans of the same class are made equal if and only if they agree on
their trace states, on the codes of their status and on the counts of what was dropped. -/
theorem sanitizeSpan_eq_iff {s t : SpanData} (h : SameClass s t) :
    sanitizeSpan s = sanitizeSpan t ↔ SamePassed s t := by
  constructor
  · intro heq
    have hlinks : ∀ {β : Type} (f : Link → β), (∀ link, f (sanitizeLink link) = f link) →
        s.links.links.map f = t.links.links.map f := by
      intro β f hf
      have hmap := congrArg (fun s => s.links.links.map f) heq
      simpa only [sanitizeSpan, map_map, Function.comp_def, hf] using hmap
    exact {
      traceState := congrArg (·.spanContext.traceState) heq
      linkTraceStates := hlinks _ fun _ => rfl
      status := by
        rw [← code_sanitizeStatus s.status, ← code_sanitizeStatus t.status]
        exact congrArg (·.status.code) heq
      droppedAttributes := congrArg (·.droppedAttributesCount) heq
      droppedEvents := congrArg (·.events.droppedCount) heq
      droppedLinks := congrArg (·.links.droppedCount) heq
      eventDrops := by
        rw [SpanEvents.keptDrops_eq, SpanEvents.keptDrops_eq]
        exact congrArg (fun s => s.events.events.map (·.droppedAttributesCount)) heq
      linkDrops := hlinks _ fun _ => rfl }
  · intro hp
    have hname : ∀ s : SpanData, (if s.name ∈ approvedSpanNames then s.name else "codex.operation") =
        s.approvedName.getD "codex.operation" := by
      intro s
      unfold SpanData.approvedName
      split <;> rfl
    unfold sanitizeSpan
    rw [SpanContext.ext_ids h.ids hp.traceState, h.parentSpanId, h.parentSpanIsRemote, h.spanKind,
      hname, hname, h.name, h.startTime, h.endTime, hp.droppedAttributes, hp.droppedEvents,
      hp.droppedLinks, map_sanitizeLink_eq h.links hp.linkTraceStates hp.linkDrops,
      retains_event.filterMap_congr (filterMap_view_eq h.events hp.eventDrops),
      sanitizeStatus_eq hp.status]

/-- **Sanitizing twice is sanitizing once.** -/
theorem sanitizeSpan_sanitizeSpan (s : SpanData) : sanitizeSpan (sanitizeSpan s) = sanitizeSpan s := by
  have hstatus : sanitizeStatus (sanitizeStatus s.status) = sanitizeStatus s.status := by
    cases s.status <;> rfl
  unfold sanitizeSpan
  simp only [hstatus, retains_event.filterMap_idem, map_map]
  by_cases h : s.name ∈ approvedSpanNames <;> simp [h] <;> exact fun _ _ => rfl

/-! ## The vocabulary -/

/-- The labels of a kind. -/
def Kind.labels : Kind → List String
  | category labels => labels.entries.map Prod.snd
  | _ => []

/-- **The vocabulary**: the approved names and keys, the labels, and what stands in for the rest. -/
def vocabulary : List String :=
  approvedSpanNames ++ approvedEventNames ++ approvedEventAttributeKeys ++
    policy.flatMap (fun p => p.2.labels) ++ ["codex.operation", "codex", "other", ""]

theorem mem_vocabulary {x : String} :
    x ∈ vocabulary ↔ x ∈ approvedSpanNames ∨ x ∈ approvedEventNames ∨
      x ∈ approvedEventAttributeKeys ∨ (∃ p ∈ policy, x ∈ p.2.labels) ∨
      x ∈ ["codex.operation", "codex", "other", ""] := by
  simp only [vocabulary, mem_append, mem_flatMap, or_assoc]

theorem Labels.label_mem (labels : Labels) (value : String) :
    labels.label value ∈ (Kind.category labels).labels ∨ labels.label value = "other" := by
  unfold Labels.label
  cases h : labels.entries.lookup value with
  | none => exact .inr rfl
  | some label => exact .inl (mem_map_of_mem (mem_of_lookup h))

theorem Kind.Allows.mem_vocabulary {name key : String} {kind : Kind} {cls : ValueClass}
    (h : kind.Allows name cls) (hname : name ∈ approvedEventNames)
    (hkind : policy.lookup key = some kind) : ∀ x ∈ cls.value.strings, x ∈ vocabulary := by
  intro x hx
  rw [Otel.mem_vocabulary]
  cases h with
  | eventName =>
    obtain rfl := mem_singleton.mp hx
    exact .inr (.inl hname)
  | integer | boolean => cases hx
  | category labels value =>
    obtain rfl := mem_singleton.mp hx
    rcases labels.label_mem value with hmem | hother
    · exact .inr (.inr (.inr (.inl ⟨_, mem_of_lookup hkind, hmem⟩)))
    · rw [hother]
      exact .inr (.inr (.inr (.inr (by decide))))

theorem mem_vocabulary_of_sanitizeEvent {e e' : Event} (h : sanitizeEvent e = some e') :
    ∀ x ∈ e'.strings, x ∈ vocabulary := by
  rw [retains_event.builds] at h
  obtain ⟨_, hview, rfl⟩ := Option.map_eq_some_iff.mp h
  obtain ⟨_, hcls, rfl⟩ := Option.map_eq_some_iff.mp hview
  obtain ⟨name, _, hcls⟩ := Option.bind_eq_some_iff.mp hcls
  obtain ⟨happroved, ⟨⟩⟩ := Option.ite_none_right_eq_some.mp hcls
  intro x hx
  rcases mem_cons.mp hx with rfl | hx
  · exact mem_vocabulary.mpr (.inr (.inl happroved))
  · obtain ⟨kv, hkv, hx⟩ := mem_flatMap.mp hx
    obtain ⟨b, hb, rfl⟩ := mem_map.mp hkv
    obtain ⟨kv, _, hb⟩ := mem_filterMap.mp hb
    obtain ⟨kind, hkind, hb⟩ := Option.bind_eq_some_iff.mp hb
    obtain ⟨cls, hcls, rfl⟩ := Option.map_eq_some_iff.mp hb
    rcases mem_cons.mp hx with rfl | hx
    · refine mem_vocabulary.mpr (.inr (.inr (.inl ?_)))
      exact (mem_approvedEventAttributeKeys _).mpr (mem_map_of_mem (mem_of_lookup hkind))
    · exact (Kind.allows_of_classify hcls).mem_vocabulary happroved hkind x hx

/-- **Only trace states bring strings from outside the vocabulary.** -/
theorem strings_sanitizeSpan_iff (s : SpanData) : (∀ x ∈ (sanitizeSpan s).strings, x ∈ vocabulary) ↔
      ∀ x ∈ s.traceStateStrings, x ∈ vocabulary := by
  have hlinks : (s.links.links.map sanitizeLink).flatMap Link.strings =
      s.links.links.flatMap fun l => l.spanContext.strings := by
    simp [flatMap_map, sanitizeLink, Link.strings]
  have hstatus : ∀ x ∈ (sanitizeStatus s.status).strings, x = "" := by
    cases s.status <;> simp [sanitizeStatus, Status.strings]
  constructor
  · intro h x hx
    apply h x
    simp only [SpanData.strings, sanitizeSpan, hlinks, mem_cons, mem_append]
    rcases mem_append.mp hx with hx | hx
    · exact .inr (.inl (.inl (.inl (.inl (.inl hx)))))
    · exact .inr (.inl (.inl (.inr hx)))
  · intro h x hx
    simp only [SpanData.strings, sanitizeSpan, hlinks, mem_cons, mem_append] at hx
    rcases hx with rfl | ((((hx | hx) | hx) | hx) | hx) | hx
    · apply mem_vocabulary.mpr
      split
      next happroved => exact .inl happroved
      next => exact .inr (.inr (.inr (.inr (by decide))))
    · exact h x (mem_append_left _ hx)
    · cases hx
    · obtain ⟨e', he', hx⟩ := mem_flatMap.mp hx
      obtain ⟨e, _, he⟩ := mem_filterMap.mp he'
      exact mem_vocabulary_of_sanitizeEvent he x hx
    · exact h x (mem_append_right _ hx)
    · rw [hstatus x hx]
      exact mem_vocabulary.mpr (.inr (.inr (.inr (.inr (by decide)))))
    · obtain rfl : x = "codex" := by simpa [InstrumentationScope.strings] using hx
      exact mem_vocabulary.mpr (.inr (.inr (.inr (.inr (by decide)))))

/-- **The sanitizer is a barrier but for trace states.** Spans of the same class are made equal if and
only if what passes besides the class agrees: the trace states of the span and its links, the code of
its status, and the counts of what was dropped. What is left of a span has only strings of the vocabulary if and only if
its trace states have. And sanitizing twice is sanitizing once. -/
theorem sanitizeSpan_barrier (s : SpanData) :
    (∀ t, SameClass s t → (sanitizeSpan s = sanitizeSpan t ↔ SamePassed s t)) ∧
      ((∀ x ∈ (sanitizeSpan s).strings, x ∈ vocabulary) ↔
        ∀ x ∈ s.traceStateStrings, x ∈ vocabulary) ∧
      sanitizeSpan (sanitizeSpan s) = sanitizeSpan s :=
  ⟨fun _ => sanitizeSpan_eq_iff, strings_sanitizeSpan_iff s, sanitizeSpan_sanitizeSpan s⟩

/-- A span of a prompt, with its text, its length and a trace state. -/
def promptSpan (prompt length : String) (traceState : List (String × String)) : SpanData where
  spanContext := ⟨1, 2, 1, false, traceState⟩
  parentSpanId := 0
  parentSpanIsRemote := false
  spanKind := .internal
  name := prompt
  startTime := 3
  endTime := 5
  attributes := [⟨"prompt", .string prompt⟩]
  droppedAttributesCount := 0
  events := ⟨[⟨prompt, 4, [⟨"event.name", .string "codex.user_prompt"⟩, ⟨"prompt", .string prompt⟩,
    ⟨"prompt_length", .string length⟩, ⟨"service_tier", .string "fast"⟩], 0⟩], 0⟩
  links := ⟨[], 0⟩
  status := .error prompt
  instrumentationScope := ⟨"codex", none, none, []⟩

/-- Two prompts of one length are made the same span. -/
theorem sanitizeSpan_prompts :
    sanitizeSpan (promptSpan "my secret" "9" []) = sanitizeSpan (promptSpan "no secret" "+9" []) :=
  ((sanitizeSpan_barrier (promptSpan "my secret" "9" [])).1 (promptSpan "no secret" "+9" [])
    ⟨rfl, rfl, rfl, rfl, by decide +kernel, rfl, rfl, by decide +kernel, rfl⟩).mpr
    ⟨rfl, rfl, rfl, rfl, rfl, rfl, by decide +kernel, rfl⟩

/-- A secret in the trace state is exported: spans of one class, that differ in their trace states
only, are told apart, and what is left of them has a string from outside the vocabulary. -/
theorem sanitizeSpan_traceState_leaks :
    SameClass (promptSpan "hello" "5" [("vendor", "secret")]) (promptSpan "hello" "5" []) ∧
      sanitizeSpan (promptSpan "hello" "5" [("vendor", "secret")]) ≠
        sanitizeSpan (promptSpan "hello" "5" []) ∧
      "secret" ∈ (sanitizeSpan (promptSpan "hello" "5" [("vendor", "secret")])).strings ∧
      "secret" ∉ vocabulary := by
  refine ⟨⟨rfl, rfl, rfl, rfl, rfl, rfl, rfl, rfl, rfl⟩, ?_, ?_, ?_⟩
  · intro h
    cases congrArg (·.spanContext.traceState) h
  · decide +kernel
  · decide +kernel

end NovumAgent.Otel
