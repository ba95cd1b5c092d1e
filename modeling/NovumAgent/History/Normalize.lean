import NovumAgent.Lib.Positions
import NovumAgent.Lib.Utf8

/-!
# Normalising a history

Before a history is sent to the model its tool calls and their outputs are paired up. A call whose output
is missing gets a synthetic one right behind it, and an output whose call is missing is taken out. Four
kinds of calls share three kinds of outputs: the output of a local shell call is that of a function.

The functions here are those of the source: they collect the ids that are there, note positions, and
edit the list at the noted positions. `ensureCallOutputsPresent_eq` and `removeOrphanOutputs_eq` say what
the edits come to, and `normalized_history` what holds of every history after both.
-/

namespace NovumAgent.History

open List

/-! ## Items -/

/-- `FunctionCallOutputPayload`. The items of a structured body are not looked at here. -/
structure FunctionCallOutputPayload (ρ : Type*) where
  body : Text ⊕ ρ
  success : Option Bool

def FunctionCallOutputPayload.fromText {ρ : Type*} (content : Text) : FunctionCallOutputPayload ρ :=
  ⟨.inl content, none⟩

/-- `ResponseItem`. The fields of calls that the passes do not look at, and the items that are
neither calls nor outputs, are of a type `ρ`. -/
inductive ResponseItem (ρ : Type*) where
  | functionCall (id : Option Text) (callId : Text) (rest : ρ)
  | localShellCall (id : Option Text) (callId : Option Text) (rest : ρ)
  | toolSearchCall (id : Option Text) (callId : Option Text) (rest : ρ)
  | customToolCall (id : Option Text) (callId : Text) (rest : ρ)
  | functionCallOutput (id callId name nameSpace : Option Text)
      (output : FunctionCallOutputPayload ρ) (passthrough : Option ρ)
  | customToolCallOutput (id : Option Text) (callId : Text) (name : Option Text)
      (output : FunctionCallOutputPayload ρ) (passthrough : Option ρ)
  | toolSearchOutput (id callId : Option Text) (status execution : Text) (tools : List ρ)
      (passthrough : Option ρ)
  | other (rest : ρ)

structure ResponseItemEnvelope (ρ : Type*) where
  item : ResponseItem ρ
  metadata : Option ρ

def ResponseItemEnvelope.new {ρ : Type*} (item : ResponseItem ρ) : ResponseItemEnvelope ρ :=
  ⟨item, none⟩

/-- The kinds of outputs. -/
inductive OutputKind where
  | function
  | toolSearch
  | customTool
deriving DecidableEq

namespace ResponseItem

variable {ρ : Type*}

/-- The kind of output that a call with an id is answered by, and the id. -/
def call : ResponseItem ρ → Option (OutputKind × Text)
  | functionCall _ callId _ => some (.function, callId)
  | localShellCall _ (some callId) _ => some (.function, callId)
  | toolSearchCall _ (some callId) _ => some (.toolSearch, callId)
  | customToolCall _ callId _ => some (.customTool, callId)
  | _ => none

/-- The kind of an output with a call id, and the id. -/
def output : ResponseItem ρ → Option (OutputKind × Text)
  | functionCallOutput _ (some callId) _ _ _ _ => some (.function, callId)
  | toolSearchOutput _ (some callId) _ _ _ _ => some (.toolSearch, callId)
  | customToolCallOutput _ callId _ _ _ => some (.customTool, callId)
  | _ => none

/-- Is this the output of a tool search that the server ran? -/
def isServerToolSearch : ResponseItem ρ → Bool
  | toolSearchOutput _ _ _ execution _ _ => execution = "server".toList
  | _ => false

end ResponseItem

/-! ## The passes -/

section Passes

variable {ρ : Type*} (uuidV5 : Text → Text)

/-- `synthetic_output_id`. The name-based UUIDs of the fixed namespace are a parameter. -/
def syntheticOutputId (pre : Text) (itemId : Option Text) : Option Text :=
  (itemId.filter (· ≠ [])).map fun sourceId => pre ++ "_".toList ++ uuidV5 (pre ++ ":".toList ++ sourceId)

/-- The ids of the outputs of one kind. -/
def outputIds (kind : OutputKind) (items : List (ResponseItemEnvelope ρ)) : List Text :=
  items.filterMap fun envelope => (envelope.item.output.filter (·.1 = kind)).map (·.2)

/-- The ids of the calls that one kind of outputs answers. -/
def callIds (kind : OutputKind) (items : List (ResponseItemEnvelope ρ)) : List Text :=
  items.filterMap fun envelope => (envelope.item.call.filter (·.1 = kind)).map (·.2)

/-- The output that stands in for the missing one of a call. -/
def missingOutput (functionOutputIds toolSearchOutputIds customToolOutputIds : List Text) :
    ResponseItem ρ → Option (ResponseItem ρ)
  | .functionCall id callId _ =>
    if callId ∈ functionOutputIds then none
    else some (.functionCallOutput (syntheticOutputId uuidV5 "fco".toList id) (some callId) none none
      (.fromText "aborted".toList) none)
  | .toolSearchCall id (some callId) _ =>
    if callId ∈ toolSearchOutputIds then none
    else some (.toolSearchOutput (syntheticOutputId uuidV5 "tso".toList id) (some callId)
      "completed".toList "client".toList [] none)
  | .customToolCall id callId _ =>
    if callId ∈ customToolOutputIds then none
    else some (.customToolCallOutput (syntheticOutputId uuidV5 "ctco".toList id) callId none
      (.fromText "aborted".toList) none)
  | .localShellCall id (some callId) _ =>
    if callId ∈ functionOutputIds then none
    else some (.functionCallOutput (syntheticOutputId uuidV5 "fco".toList id) (some callId) none none
      (.fromText "aborted".toList) none)
  | _ => none

def ensureCallOutputsPresent (items : List (ResponseItemEnvelope ρ)) :
    List (ResponseItemEnvelope ρ) :=
  let functionOutputIds := outputIds .function items
  let toolSearchOutputIds := outputIds .toolSearch items
  let customToolOutputIds := outputIds .customTool items
  let missing := fun envelope : ResponseItemEnvelope ρ =>
    (missingOutput uuidV5 functionOutputIds toolSearchOutputIds customToolOutputIds envelope.item).map
      ResponseItemEnvelope.new
  Positions.insertBehind items (Positions.collect missing items 0)

/-- Is an output to be taken out? -/
def isOrphan (functionCallIds toolSearchCallIds customToolCallIds : List Text) :
    ResponseItem ρ → Bool
  | .functionCallOutput _ (some callId) _ _ _ _ => callId ∉ functionCallIds
  | .customToolCallOutput _ callId _ _ _ => callId ∉ customToolCallIds
  | .toolSearchOutput _ (some callId) _ execution _ _ =>
    execution ≠ "server".toList ∧ callId ∉ toolSearchCallIds
  | _ => false

def removeOrphanOutputs (items : List (ResponseItemEnvelope ρ)) : List (ResponseItemEnvelope ρ) :=
  let functionCallIds := callIds .function items
  let toolSearchCallIds := callIds .toolSearch items
  let customToolCallIds := callIds .customTool items
  let orphanPositions := (Positions.collect (fun envelope : ResponseItemEnvelope ρ =>
      if isOrphan functionCallIds toolSearchCallIds customToolCallIds envelope.item then some ()
      else none) items 0).map (·.1)
  if orphanPositions ≠ [] then Positions.retainBut orphanPositions 0 items else items

end Passes

/-! ## What the passes come to -/

section Pairing

variable {ρ : Type*} (uuidV5 : Text → Text) {items : List (ResponseItemEnvelope ρ)}
  {envelope : ResponseItemEnvelope ρ} {kind : OutputKind} {callId : Text}

/-- There is an output of the kind with the id. -/
def Answered (items : List (ResponseItemEnvelope ρ)) (kind : OutputKind) (callId : Text) : Prop :=
  ∃ envelope ∈ items, envelope.item.output = some (kind, callId)

/-- There is a call with the id that the kind of outputs answers. -/
def Called (items : List (ResponseItemEnvelope ρ)) (kind : OutputKind) (callId : Text) : Prop :=
  ∃ envelope ∈ items, envelope.item.call = some (kind, callId)

/-- An output without a call, other than of a tool search on the server. -/
def Orphan (items : List (ResponseItemEnvelope ρ)) (item : ResponseItem ρ) : Prop :=
  item.isServerToolSearch = false ∧
    ∃ kind callId, item.output = some (kind, callId) ∧ ¬ Called items kind callId

theorem mem_outputIds : callId ∈ outputIds kind items ↔ Answered items kind callId := by
  unfold outputIds Answered
  rw [mem_filterMap]
  refine exists_congr fun envelope => and_congr_right fun _ => ?_
  rcases envelope.item.output with - | ⟨kind', callId'⟩
  · simp
  · by_cases hkind : kind' = kind
    · simp [hkind]
    · simp [hkind, Option.filter_some]

theorem mem_callIds : callId ∈ callIds kind items ↔ Called items kind callId := by
  unfold callIds Called
  rw [mem_filterMap]
  refine exists_congr fun envelope => and_congr_right fun _ => ?_
  rcases envelope.item.call with - | ⟨kind', callId'⟩
  · simp
  · by_cases hkind : kind' = kind
    · simp [hkind]
    · simp [hkind, Option.filter_some]

/-- The synthetic output of a call, if its output is missing. -/
def missingIn (items : List (ResponseItemEnvelope ρ)) (item : ResponseItem ρ) :
    Option (ResponseItem ρ) :=
  missingOutput uuidV5 (outputIds .function items) (outputIds .toolSearch items)
    (outputIds .customTool items) item

variable {item : ResponseItem ρ}

theorem missingIn_isSome : (missingIn uuidV5 items item).isSome = true ↔
      ∃ kind callId, item.call = some (kind, callId) ∧ ¬ Answered items kind callId := by
  have hids : ∀ kind callId (o : ResponseItem ρ),
      (if callId ∈ outputIds kind items then none else some o).isSome = true ↔
        ¬ Answered items kind callId := by
    intro kind callId o
    rw [← mem_outputIds]
    split <;> simp_all
  have hcall : ∀ {item : ResponseItem ρ} {kind callId}, item.call = some (kind, callId) →
      (¬ Answered items kind callId ↔
        ∃ kind callId, item.call = some (kind, callId) ∧ ¬ Answered items kind callId) := by
    intro item kind callId hitem
    refine ⟨fun h => ⟨kind, callId, hitem, h⟩, ?_⟩
    rintro ⟨_, _, heq, h⟩
    cases hitem.symm.trans heq
    exact h
  have hnone : ∀ {item : ResponseItem ρ}, item.call = none →
      ((none : Option (ResponseItem ρ)).isSome = true ↔
        ∃ kind callId, item.call = some (kind, callId) ∧ ¬ Answered items kind callId) := by
    intro item hitem
    refine ⟨nofun, ?_⟩
    rintro ⟨_, _, heq, -⟩
    cases hitem.symm.trans heq
  cases item with
  | functionCall id callId rest => exact (hids _ _ _).trans (hcall rfl)
  | localShellCall id callId rest =>
    cases callId with
    | none => exact hnone rfl
    | some callId => exact (hids _ _ _).trans (hcall rfl)
  | toolSearchCall id callId rest =>
    cases callId with
    | none => exact hnone rfl
    | some callId => exact (hids _ _ _).trans (hcall rfl)
  | customToolCall id callId rest => exact (hids _ _ _).trans (hcall rfl)
  | _ => exact hnone rfl

theorem missingIn_spec {out : ResponseItem ρ} (h : missingIn uuidV5 items item = some out) :
    out.output = item.call ∧ out.call = none ∧ out.isServerToolSearch = false := by
  have hclient : decide ("client".toList = "server".toList) = false := by decide +kernel
  have hids : ∀ {p : Prop} [Decidable p] {o : ResponseItem ρ},
      (if p then none else some o) = some out → o = out := by
    intro p _ o ho
    split at ho
    · cases ho
    · exact Option.some.inj ho
  cases item with
  | functionCall id callId rest =>
    cases hids h
    exact ⟨rfl, rfl, rfl⟩
  | localShellCall id callId rest =>
    cases callId with
    | none => cases h
    | some callId =>
      cases hids h
      exact ⟨rfl, rfl, rfl⟩
  | toolSearchCall id callId rest =>
    cases callId with
    | none => cases h
    | some callId =>
      cases hids h
      exact ⟨rfl, rfl, hclient⟩
  | customToolCall id callId rest =>
    cases hids h
    exact ⟨rfl, rfl, rfl⟩
  | _ => cases h

theorem isOrphan_iff :
    isOrphan (callIds .function items) (callIds .toolSearch items) (callIds .customTool items) item =
      true ↔ Orphan items item := by
  unfold Orphan isOrphan
  cases item with
  | functionCallOutput id callId name nameSpace output passthrough =>
    cases callId <;> simp [ResponseItem.output, ResponseItem.isServerToolSearch, mem_callIds]
  | customToolCallOutput id callId name output passthrough =>
    simp [ResponseItem.output, ResponseItem.isServerToolSearch, mem_callIds]
  | toolSearchOutput id callId status execution tools passthrough =>
    cases callId <;> simp [ResponseItem.output, ResponseItem.isServerToolSearch, mem_callIds]
  | _ => simp [ResponseItem.output]

instance (items : List (ResponseItemEnvelope ρ)) (item : ResponseItem ρ) :
    Decidable (Orphan items item) :=
  decidable_of_iff _ isOrphan_iff

open ResponseItemEnvelope Positions

/-- **Missing outputs stand behind their calls.** -/
theorem ensureCallOutputsPresent_eq (items : List (ResponseItemEnvelope ρ)) :
    ensureCallOutputsPresent uuidV5 items = items.flatMap fun envelope =>
        envelope :: ((missingIn uuidV5 items envelope.item).map new).toList :=
  insertBehind_collect _ items

/-- **Orphans are taken out.** -/
theorem removeOrphanOutputs_eq (items : List (ResponseItemEnvelope ρ)) :
    removeOrphanOutputs items = items.filter fun envelope => ¬ Orphan items envelope.item := by
  have hwalk := retainBut_collect
    (fun envelope : ResponseItemEnvelope ρ => isOrphan (callIds .function items)
      (callIds .toolSearch items) (callIds .customTool items) envelope.item) items 0
  simp only [← isOrphan_iff, Bool.not_eq_true, Bool.decide_eq_false]
  rw [← hwalk]
  unfold removeOrphanOutputs
  dsimp only
  split
  next => rfl
  next hnone => rw [not_not.mp hnone, retainBut_nil]

/-! ## Pairing -/

theorem mem_ensureCallOutputsPresent : envelope ∈ ensureCallOutputsPresent uuidV5 items ↔
      envelope ∈ items ∨ ∃ call ∈ items, ∃ out, missingIn uuidV5 items call.item = some out ∧
        envelope = .new out := by
  rw [ensureCallOutputsPresent_eq, mem_flatMap]
  constructor
  · rintro ⟨call, hcall, hmem⟩
    rcases mem_cons.mp hmem with rfl | hmem
    · exact .inl hcall
    · obtain ⟨out, hout, heq⟩ := Option.map_eq_some_iff.mp (Option.mem_toList.mp hmem)
      exact .inr ⟨call, hcall, out, hout, heq.symm⟩
  · rintro (hmem | ⟨call, hcall, out, hout, rfl⟩)
    · exact ⟨envelope, hmem, mem_cons_self⟩
    · refine ⟨call, hcall, mem_cons_of_mem _ (Option.mem_toList.mpr ?_)⟩
      rw [hout]
      rfl

theorem called_ensureCallOutputsPresent :
    Called (ensureCallOutputsPresent uuidV5 items) kind callId ↔ Called items kind callId := by
  constructor
  · rintro ⟨envelope, hmem, hcall⟩
    rcases (mem_ensureCallOutputsPresent uuidV5).mp hmem with hmem | ⟨_, -, out, hout, rfl⟩
    · exact ⟨envelope, hmem, hcall⟩
    · cases (missingIn_spec uuidV5 hout).2.1.symm.trans hcall
  · rintro ⟨envelope, hmem, hcall⟩
    exact ⟨envelope, (mem_ensureCallOutputsPresent uuidV5).mpr (.inl hmem), hcall⟩

theorem orphan_ensureCallOutputsPresent :
    Orphan (ensureCallOutputsPresent uuidV5 items) item ↔ Orphan items item := by
  unfold Orphan
  simp only [called_ensureCallOutputsPresent]

theorem not_orphan_of_call (h : item.call = some (kind, callId)) : ¬ Orphan items item := by
  rintro ⟨-, kind', callId', hout, -⟩
  cases item with
  | functionCall => cases hout
  | localShellCall => cases hout
  | toolSearchCall => cases hout
  | customToolCall => cases hout
  | _ => cases h

theorem not_orphan_of_missing {out : ResponseItem ρ} (hmem : envelope ∈ items)
    (h : missingIn uuidV5 items envelope.item = some out) : ¬ Orphan items out := by
  rintro ⟨-, kind, callId, hout, hcalled⟩
  rw [(missingIn_spec uuidV5 h).1] at hout
  exact hcalled ⟨envelope, hmem, hout⟩

/-- The history after the two passes. -/
def pairedHistory (items : List (ResponseItemEnvelope ρ)) : List (ResponseItemEnvelope ρ) :=
  removeOrphanOutputs (ensureCallOutputsPresent uuidV5 items)

/-- **What the two passes leave**: the items that are no orphans, in their order, each call whose output
was missing followed by its synthetic output. -/
theorem pairedHistory_eq (items : List (ResponseItemEnvelope ρ)) : pairedHistory uuidV5 items =
      (items.filter fun envelope => ¬ Orphan items envelope.item).flatMap fun envelope =>
        envelope :: ((missingIn uuidV5 items envelope.item).map new).toList := by
  rw [pairedHistory, removeOrphanOutputs_eq]
  simp only [orphan_ensureCallOutputsPresent]
  rw [ensureCallOutputsPresent_eq]
  apply filter_flatMap_of_keeps
  intro envelope hmem
  cases hmissing : missingIn uuidV5 items envelope.item with
  | none => by_cases horphan : Orphan items envelope.item <;> simp [horphan]
  | some out =>
    have hcall : ¬ Orphan items envelope.item := by
      obtain ⟨kind, callId, hcall, -⟩ := (missingIn_isSome uuidV5).mp (by rw [hmissing]; rfl)
      exact not_orphan_of_call hcall
    have hout : ¬ Orphan items out := not_orphan_of_missing uuidV5 hmem hmissing
    simp [hcall, hout, new]

theorem mem_pairedHistory : envelope ∈ pairedHistory uuidV5 items ↔
      envelope ∈ ensureCallOutputsPresent uuidV5 items ∧ ¬ Orphan items envelope.item := by
  rw [pairedHistory, removeOrphanOutputs_eq]
  simp [mem_filter, orphan_ensureCallOutputsPresent]

theorem called_pairedHistory :
    Called (pairedHistory uuidV5 items) kind callId ↔ Called items kind callId := by
  constructor
  · rintro ⟨envelope, hmem, hcall⟩
    exact (called_ensureCallOutputsPresent uuidV5).mp
      ⟨envelope, ((mem_pairedHistory uuidV5).mp hmem).1, hcall⟩
  · rintro ⟨envelope, hmem, hcall⟩
    refine ⟨envelope, (mem_pairedHistory uuidV5).mpr ⟨?_, not_orphan_of_call hcall⟩, hcall⟩
    exact (mem_ensureCallOutputsPresent uuidV5).mpr (.inl hmem)

theorem answered_pairedHistory (hcalled : Called (pairedHistory uuidV5 items) kind callId) :
    Answered (pairedHistory uuidV5 items) kind callId := by
  have hcalled := (called_pairedHistory uuidV5).mp hcalled
  by_cases hanswered : Answered items kind callId
  · obtain ⟨envelope, hmem, hout⟩ := hanswered
    refine ⟨envelope, (mem_pairedHistory uuidV5).mpr ⟨?_, ?_⟩, hout⟩
    · exact (mem_ensureCallOutputsPresent uuidV5).mpr (.inl hmem)
    · rintro ⟨-, kind', callId', hout', hnone⟩
      cases hout.symm.trans hout'
      exact hnone hcalled
  · obtain ⟨envelope, hmem, hcall⟩ := hcalled
    have hsome : (missingIn uuidV5 items envelope.item).isSome = true :=
      (missingIn_isSome uuidV5).mpr ⟨kind, callId, hcall, hanswered⟩
    obtain ⟨out, hmissing⟩ := Option.isSome_iff_exists.mp hsome
    refine ⟨.new out, (mem_pairedHistory uuidV5).mpr ⟨?_, ?_⟩, ?_⟩
    · exact (mem_ensureCallOutputsPresent uuidV5).mpr (.inr ⟨envelope, hmem, out, hmissing, rfl⟩)
    · exact not_orphan_of_missing uuidV5 hmem hmissing
    · exact (missingIn_spec uuidV5 hmissing).1.trans hcall

theorem pairedHistory_of_paired
    (hanswered : ∀ kind callId, Called items kind callId → Answered items kind callId)
    (horphan : ∀ envelope ∈ items, ¬ Orphan items envelope.item) :
    pairedHistory uuidV5 items = items := by
  rw [pairedHistory_eq, filter_eq_self.mpr fun envelope hmem => decide_eq_true (horphan envelope hmem)]
  refine Eq.trans (flatMap_congr fun envelope hmem => ?_) (flatMap_singleton' items)
  have hnone : missingIn uuidV5 items envelope.item = none := by
    rw [← Option.not_isSome_iff_eq_none, missingIn_isSome]
    rintro ⟨kind, callId, hcall, hmissing⟩
    exact hmissing (hanswered kind callId ⟨envelope, hmem, hcall⟩)
  rw [hnone]
  rfl

/-- **A normalised history is paired, and nothing else of it is disturbed.** Every call with an id is
answered by an output of its kind; every output with a call id, other than of a tool search on the
server, has a call of its kind; the history is the items that are no orphans, in their order, with every
synthetic output right behind its call; and normalising it again changes nothing. -/
theorem normalized_history (uuidV5 : Text → Text) (items : List (ResponseItemEnvelope ρ)) :
    (∀ kind callId, Called (pairedHistory uuidV5 items) kind callId →
      Answered (pairedHistory uuidV5 items) kind callId) ∧
    (∀ envelope ∈ pairedHistory uuidV5 items, envelope.item.isServerToolSearch = false →
      ∀ kind callId, envelope.item.output = some (kind, callId) →
        Called (pairedHistory uuidV5 items) kind callId) ∧
    (pairedHistory uuidV5 items =
      (items.filter fun envelope => ¬ Orphan items envelope.item).flatMap fun envelope =>
        envelope :: ((missingIn uuidV5 items envelope.item).map ResponseItemEnvelope.new).toList) ∧
    (∀ item out, missingIn uuidV5 items item = some out → out.output = item.call ∧
        ∃ kind callId, item.call = some (kind, callId) ∧ ¬ Answered items kind callId) ∧
    pairedHistory uuidV5 (pairedHistory uuidV5 items) = pairedHistory uuidV5 items := by
  have hanswered := fun kind callId => @answered_pairedHistory _ uuidV5 items kind callId
  have hcalled : ∀ envelope ∈ pairedHistory uuidV5 items, envelope.item.isServerToolSearch = false →
      ∀ kind callId, envelope.item.output = some (kind, callId) →
        Called (pairedHistory uuidV5 items) kind callId := by
    intro envelope hmem hserver kind callId hout
    by_contra hnone
    rw [called_pairedHistory] at hnone
    exact ((mem_pairedHistory uuidV5).mp hmem).2 ⟨hserver, kind, callId, hout, hnone⟩
  refine ⟨hanswered, hcalled, pairedHistory_eq uuidV5 items, fun item out hmissing => ?_, ?_⟩
  · refine ⟨(missingIn_spec uuidV5 hmissing).1, (missingIn_isSome uuidV5).mp ?_⟩
    rw [hmissing]
    rfl
  · refine pairedHistory_of_paired uuidV5 hanswered fun envelope hmem => ?_
    rintro ⟨hserver, kind, callId, hout, hnone⟩
    exact hnone (hcalled envelope hmem hserver kind callId hout)

end Pairing

end NovumAgent.History
