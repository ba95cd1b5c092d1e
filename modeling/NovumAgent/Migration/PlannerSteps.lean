import NovumAgent.Migration.RollbackPlan

/-!
# What one record does to the rollback planner

Three kinds of steps. A calm step notes a record and moves no other one. A step that starts a boundary
puts it on the stack and gives it the records that were waiting. A step that rolls back takes boundaries
from the top of the stack, and they are dead from then on.

Only what the response items depend on is said here. The owners of other records may change in any step.
-/

namespace NovumAgent.Migration

open List

variable {readers : Readers} {ν : Type}

namespace RollbackPlanner

variable {before p : RollbackPlanner}

/-- The boundary that owns a record. -/
def owner (p : RollbackPlanner) (index : Nat) : Option Nat := p.recordBoundaries[index]?.join

/-- Whether a boundary is alive. -/
def aliveAt (p : RollbackPlanner) (boundary : Nat) : Bool := p.boundaries[boundary]?.any (·.alive)

/-- Whether no dead boundary owns a record. -/
def keepsAt (p : RollbackPlanner) (index : Nat) : Bool := (p.owner index).all p.aliveAt

theorem aliveAt_lt {boundary : Nat} (h : p.aliveAt boundary = true) :
    boundary < p.boundaries.length := by
  by_contra hlt
  rw [aliveAt, getElem?_eq_none (Nat.le_of_not_lt hlt)] at h
  cases h

theorem getElem?_foldl_setOwner (o : Option Nat) (indices : List Nat) (records : List (Option Nat))
    (i : Nat) :
    (indices.foldl (setOwner o) records)[i]? =
      if i ∈ indices ∧ i < records.length then some o else records[i]? := by
  induction indices generalizing records with
  | nil => simp
  | cons j indices ih =>
    rw [foldl_cons, ih, setOwner, length_set, getElem?_set]
    by_cases hmem : i ∈ indices
    · by_cases hlt : i < records.length
      · simp [hmem, hlt]
      · simp only [hmem, hlt, and_false, if_false, mem_cons, or_true]
        by_cases hij : j = i
        · subst hij
          rw [if_pos rfl, if_neg hlt, getElem?_eq_none (Nat.le_of_not_lt hlt)]
        · rw [if_neg hij]
    · by_cases hij : j = i
      · subst hij
        by_cases hlt : j < records.length
        · simp [hmem, hlt]
        · simp [hmem, hlt]
      · simp [hmem, hij, Ne.symm hij]

theorem length_foldl_setOwner (o : Option Nat) (indices : List Nat) (records : List (Option Nat)) :
    (indices.foldl (setOwner o) records).length = records.length := by
  induction indices generalizing records with
  | nil => rfl
  | cons j indices ih => rw [foldl_cons, ih, setOwner, length_set]

/-! ## Calm steps -/

/-- **A calm step**: one more record, and of those that wait for the next boundary at most this one is
new. -/
structure CalmStep (before : RollbackPlanner) (contexts : List Nat) (p : RollbackPlanner) : Prop where
  size : p.recordBoundaries.length = before.recordBoundaries.length + 1
  owner_eq : ∀ i, i < before.recordBoundaries.length → p.owner i = before.owner i
  boundaries_eq : p.boundaries = before.boundaries
  stack_eq : p.boundaryStack = before.boundaryStack
  contexts_eq : p.pendingContextRecords = before.pendingContextRecords ++ contexts
  turnRecords : ∀ i ∈ p.pendingTurnRecords,
    i ∈ before.pendingTurnRecords ∨ i = before.recordBoundaries.length
  undelivered : p.pendingDeliveryBoundary = none

theorem calmStep_pushRecord (before : RollbackPlanner) : CalmStep before [] before.pushRecord where
  size := by simp [pushRecord]
  owner_eq := by
    intro i hi
    rw [owner, pushRecord, getElem?_append_left hi]
    rfl
  boundaries_eq := rfl
  stack_eq := rfl
  contexts_eq := (append_nil _).symm
  turnRecords := fun _ hi => .inl hi
  undelivered := rfl

theorem owner_pushRecord (before : RollbackPlanner) :
    before.pushRecord.owner before.recordBoundaries.length = before.boundaryStack.getLast? := by
  simp [owner, pushRecord]

section

variable (h : CalmStep before [] p)
include h

theorem CalmStep.setOwner (o : Option Nat) : CalmStep before [] { p with
      recordBoundaries := setOwner o p.recordBoundaries before.recordBoundaries.length } where
  __ := h
  size := by simpa only [RollbackPlanner.setOwner, length_set] using h.size
  owner_eq := by
    intro i hi
    rw [← h.owner_eq i hi, owner, RollbackPlanner.setOwner, getElem?_set_ne (by omega)]
    rfl

theorem CalmStep.wait : CalmStep before [] { p with
      pendingTurnRecords := p.pendingTurnRecords ++ [before.recordBoundaries.length] } where
  __ := h
  turnRecords := by
    exact forall_mem_append.mpr ⟨h.turnRecords, forall_mem_singleton.mpr (.inr rfl)⟩

theorem CalmStep.assignTargetedRecord (turnId : Option Text) :
    CalmStep before [] (p.assignTargetedRecord before.recordBoundaries.length turnId) := by
  unfold RollbackPlanner.assignTargetedRecord
  split
  next boundary _ => exact h.setOwner (some boundary)
  next =>
    split
    next => exact h.wait
    next => exact h

theorem CalmStep.endTurn (turnId : Text) : CalmStep before [] (p.endTurn turnId) := by
  unfold RollbackPlanner.endTurn
  split
  next =>
    exact { h with turnRecords := fun i hi => absurd hi not_mem_nil }
  next => exact h

theorem CalmStep.startTurn (turnId : Text) : CalmStep before [] { p with
      activeTurnId := some turnId, pendingTurnRecords := [before.recordBoundaries.length] } where
  __ := h
  turnRecords := fun _ hi => .inr (mem_singleton.mp hi)

end

end RollbackPlanner

open RollbackPlanner

/-! ## Records of the old format -/

/-- The records of a rollout of the old format: no communication between agents, and no order of
acceptance. -/
def Legacy : RolloutItem ν → Bool
  | .response response => response.acceptanceOrder.isNone
  | .interAgentCommunication | .interAgentCommunicationMetadata => false
  | _ => true

/-- Whether a record says nothing about turns that are counted: it is no response item, no marker, and no
message of the user without its response item. -/
def calm (p : RollbackPlanner) : RolloutItem ν → Bool
  | .response _ => false
  | .event (.threadRolledBack numTurns) => numTurns = 0
  | .event (.userMessage event) => (p.pairedUserBoundary event).isSome
  | _ => true

variable {before : RollbackPlanner}

/-- **A record that is calm makes a calm step.** -/
theorem calmStep_observe {item : RolloutItem ν} (hlegacy : Legacy item = true)
    (hcalm : calm before item = true) : CalmStep before [] (before.observe readers item) := by
  have hpush := calmStep_pushRecord before
  cases item with
  | sessionMeta | securityRiskScore => exact hpush.setOwner none
  | response response => cases hcalm
  | interAgentCommunication | interAgentCommunicationMetadata => cases hlegacy
  | worldState => exact hpush
  | realtimeItem => exact hpush
  | tokenUsageRecord turnId => exact hpush.assignTargetedRecord (some turnId)
  | turnContext =>
    simp only [observe]
    split
    next => exact hpush.wait
    next => exact hpush
  | event event =>
    cases event with
    | threadRolledBack numTurns =>
      have hzero : numTurns = 0 := of_decide_eq_true hcalm
      subst hzero
      exact hpush
    | turnStarted turnId => exact hpush.startTurn turnId
    | turnComplete turnId => exact (hpush.assignTargetedRecord (some turnId)).endTurn turnId
    | turnAborted turnId =>
      cases turnId with
      | none => exact hpush.assignTargetedRecord none
      | some turnId => exact (hpush.assignTargetedRecord (some turnId)).endTurn turnId
    | userMessage event =>
      obtain ⟨boundary, hboundary⟩ := Option.isSome_iff_exists.mp hcalm
      simp only [observe, observeEvent, hboundary]
      exact hpush.setOwner (some boundary)
    | itemCompleted turnId => exact hpush.assignTargetedRecord (some turnId)
    | other turnId => exact hpush.assignTargetedRecord (turnId.filter (· ≠ []))

theorem pairedDeliveryBoundary_eq_none (hdelivery : before.pendingDeliveryBoundary = none)
    (response : Response ν) : before.pairedDeliveryBoundary response = none := by
  unfold pairedDeliveryBoundary
  split
  next => exact hdelivery
  next => rfl
  next => rfl
  next => rfl

theorem calmStep_response {response : Response ν}
    (hdelivery : before.pendingDeliveryBoundary = none)
    (hboundary : countsAsBoundary readers response.item = false) :
    CalmStep before
        (if isPreTurnContextUpdate readers response.item then [before.recordBoundaries.length] else [])
        (before.observe readers (.response response)) ∧
      (before.observe readers (.response response)).owner before.recordBoundaries.length =
        before.boundaryStack.getLast? ∧
      (before.observe readers (.response response)).pendingTurnRecords = before.pendingTurnRecords := by
  have hpush := calmStep_pushRecord before
  have hpaired := pairedDeliveryBoundary_eq_none hdelivery response
  simp only [observe, hpaired, observeResponse, hboundary, Bool.false_eq_true, if_false]
  split
  next =>
    split
    next =>
      exact ⟨⟨hpush.size, hpush.owner_eq, rfl, rfl, rfl, hpush.turnRecords, rfl⟩,
        owner_pushRecord before, rfl⟩
    next =>
      exact ⟨⟨hpush.size, hpush.owner_eq, rfl, rfl, rfl, hpush.turnRecords, rfl⟩,
        owner_pushRecord before, rfl⟩
  next =>
    split
    next =>
      exact ⟨⟨hpush.size, hpush.owner_eq, rfl, rfl, hpush.contexts_eq, hpush.turnRecords, rfl⟩,
        owner_pushRecord before, rfl⟩
    next => exact ⟨hpush, owner_pushRecord before, rfl⟩

/-! ## Steps that start a boundary -/

namespace RollbackPlanner

variable {before p : RollbackPlanner}

/-- **A step that starts a boundary**: it gets the new record, and the records that were waiting. -/
structure StartStep (before p : RollbackPlanner) : Prop where
  size : p.recordBoundaries.length = before.recordBoundaries.length + 1
  owner_eq : ∀ i, i < before.recordBoundaries.length → p.owner i =
    if (before.boundaryStack ≠ [] ∧ i ∈ before.pendingContextRecords) ∨ i ∈ before.pendingTurnRecords
    then some before.boundaries.length else before.owner i
  owner_new : p.owner before.recordBoundaries.length = some before.boundaries.length
  boundaries_eq : p.boundaries = before.boundaries ++ [⟨none, true⟩]
  stack_eq : p.boundaryStack = before.boundaryStack ++ [before.boundaries.length]
  contexts_eq : p.pendingContextRecords = []
  turnRecords_eq : p.pendingTurnRecords = []
  undelivered : p.pendingDeliveryBoundary = none

theorem StartStep.congr {q : RollbackPlanner} (h : StartStep before p)
    (hrecords : q.recordBoundaries = p.recordBoundaries) (hboundaries : q.boundaries = p.boundaries)
    (hstack : q.boundaryStack = p.boundaryStack)
    (hcontexts : q.pendingContextRecords = p.pendingContextRecords)
    (hturns : q.pendingTurnRecords = p.pendingTurnRecords)
    (hdelivery : q.pendingDeliveryBoundary = p.pendingDeliveryBoundary) : StartStep before q where
  size := by rw [hrecords, h.size]
  owner_eq := by
    intro i hi
    rw [owner, hrecords]
    exact h.owner_eq i hi
  owner_new := by
    rw [owner, hrecords]
    exact h.owner_new
  boundaries_eq := by rw [hboundaries, h.boundaries_eq]
  stack_eq := by rw [hstack, h.stack_eq]
  contexts_eq := by rw [hcontexts, h.contexts_eq]
  turnRecords_eq := by rw [hturns, h.turnRecords_eq]
  undelivered := by rw [hdelivery, h.undelivered]

theorem bindActiveTurn_eq (p : RollbackPlanner) (boundary : Nat) :
    ∃ turnBoundaries, p.bindActiveTurn boundary = { p with turnBoundaries := turnBoundaries } := by
  unfold bindActiveTurn
  split
  next => exact ⟨_, rfl⟩
  next => exact ⟨p.turnBoundaries, rfl⟩

theorem startStep_startBoundary (before : RollbackPlanner)
    (hrecords : p.recordBoundaries = before.recordBoundaries ++ [before.boundaryStack.getLast?])
    (hboundaries : p.boundaries = before.boundaries) (hstack : p.boundaryStack = before.boundaryStack)
    (hcontexts : p.pendingContextRecords = before.pendingContextRecords)
    (hturns : p.pendingTurnRecords = before.pendingTurnRecords)
    (hdelivery : p.pendingDeliveryBoundary = none) :
    StartStep before (p.startBoundary before.recordBoundaries.length) := by
  obtain ⟨turnBoundaries, hbind⟩ := bindActiveTurn_eq
    { p with
      boundaries := p.boundaries ++ [⟨none, true⟩]
      recordBoundaries := ((if p.boundaryStack = [] then [] else p.pendingContextRecords) ++
        p.pendingTurnRecords ++ [before.recordBoundaries.length]).foldl
          (RollbackPlanner.setOwner (some p.boundaries.length)) p.recordBoundaries
      pendingContextRecords := []
      pendingTurnRecords := []
      boundaryStack := p.boundaryStack ++ [p.boundaries.length] } p.boundaries.length
  have hrun : p.startBoundary before.recordBoundaries.length = _ := hbind
  rw [hrun]
  have hlength : p.recordBoundaries.length = before.recordBoundaries.length + 1 := by
    rw [hrecords, length_append, length_singleton]
  constructor
  case size => exact (length_foldl_setOwner _ _ _).trans hlength
  case owner_eq =>
    intro i hi
    have hne : i ≠ before.recordBoundaries.length := ne_of_lt hi
    have hlt : i < p.recordBoundaries.length := by omega
    have hold : p.recordBoundaries[i]? = before.recordBoundaries[i]? := by
      rw [hrecords, getElem?_append_left hi]
    simp only [owner, getElem?_foldl_setOwner, hlt, and_true, hold]
    by_cases hnil : before.boundaryStack = []
    · by_cases hturn : i ∈ before.pendingTurnRecords
      · simp [hstack, hnil, hturns, hturn, hboundaries]
      · simp [hstack, hnil, hturns, hturn, hne]
    · by_cases hturn : i ∈ before.pendingTurnRecords
      · simp [hturns, hturn, hboundaries]
      · by_cases hcontext : i ∈ before.pendingContextRecords
        · simp [hstack, hnil, hcontexts, hcontext, hboundaries]
        · simp [hstack, hnil, hturns, hturn, hcontexts, hcontext, hne]
  case owner_new =>
    have hmem : before.recordBoundaries.length ∈
        (if p.boundaryStack = [] then [] else p.pendingContextRecords) ++ p.pendingTurnRecords ++
          [before.recordBoundaries.length] := mem_append_right _ (mem_singleton.mpr rfl)
    simp only [owner]
    rw [getElem?_foldl_setOwner, if_pos ⟨hmem, by omega⟩, hboundaries]
    rfl
  case boundaries_eq => exact congrArg (· ++ _) hboundaries
  case stack_eq => simp only [hstack, hboundaries]
  case contexts_eq => rfl
  case turnRecords_eq => rfl
  case undelivered => exact hdelivery

end RollbackPlanner

theorem modify_new_boundary (boundaries : List InstructionBoundary) :
    (boundaries ++ [InstructionBoundary.mk none true]).modify boundaries.length
        (fun b => { b with acceptanceOrder := none }) =
      boundaries ++ [InstructionBoundary.mk none true] := by
  induction boundaries with
  | nil => rfl
  | cons b boundaries ih =>
    rw [cons_append, length_cons, modify_succ_cons, ih]

/-- The content of the user message that a record starts a turn with. -/
def announced (readers : Readers) : RolloutItem ν → Option (List ContentItem)
  | .response ⟨.message role content data, _⟩ =>
    if role = "user".toList ∧ countsAsBoundary readers (.message role content data) = true
    then some content else none
  | _ => none

/-- **A response item that starts a turn**; a user message waits for its event. -/
theorem startStep_response {response : Response ν}
    (hlegacy : Legacy (.response response) = true) (hdelivery : before.pendingDeliveryBoundary = none)
    (hboundary : countsAsBoundary readers response.item = true) :
    StartStep before (before.observe readers (.response response)) ∧
      ∀ content, announced readers (.response response) = some content →
        (before.observe readers (.response response)).pendingUserResponse =
          some ⟨before.boundaries.length, content⟩ := by
  have horder : response.acceptanceOrder = none := Option.isNone_iff_eq_none.mp hlegacy
  have hpaired := pairedDeliveryBoundary_eq_none hdelivery response
  -- the noted fact changes nothing that the start of a boundary reads
  obtain ⟨facts, hfacts⟩ : ∃ facts : RollbackPlanner, facts =
      if isFact response.item then
        { before.pushRecord with retainedFactSources := before.pushRecord.retainedFactSources ++
            [⟨before.recordBoundaries.length, response.acceptanceOrder⟩] }
      else before.pushRecord := ⟨_, rfl⟩
  have hsame : facts.recordBoundaries = before.recordBoundaries ++ [before.boundaryStack.getLast?] ∧
      facts.boundaries = before.boundaries ∧ facts.boundaryStack = before.boundaryStack ∧
      facts.pendingContextRecords = before.pendingContextRecords ∧
      facts.pendingTurnRecords = before.pendingTurnRecords ∧ facts.pendingDeliveryBoundary = none := by
    rw [hfacts]
    split
    next => exact ⟨rfl, rfl, rfl, rfl, rfl, rfl⟩
    next => exact ⟨rfl, rfl, rfl, rfl, rfl, rfl⟩
  obtain ⟨hrecords, hboundaries, hstack, hcontexts, hturns, hnone⟩ := hsame
  have hstart := startStep_startBoundary before hrecords hboundaries hstack hcontexts hturns hnone
  have hmodify : ((facts.startBoundary before.recordBoundaries.length).boundaries.modify
      facts.boundaries.length fun b => { b with acceptanceOrder := response.acceptanceOrder }) =
      (facts.startBoundary before.recordBoundaries.length).boundaries := by
    rw [hstart.boundaries_eq, hboundaries, horder, modify_new_boundary]
  simp only [observe, hpaired, observeResponse, hboundary, if_true, ← hfacts, hmodify]
  cases response with
  | mk item metadata =>
    cases item with
    | message role content data =>
      dsimp only
      by_cases hrole : role = "user".toList
      · rw [if_pos hrole]
        refine ⟨hstart.congr rfl rfl rfl rfl rfl rfl, ?_⟩
        intro announcedContent hannounced
        obtain ⟨-, ⟨⟩⟩ := Option.ite_none_right_eq_some.mp hannounced
        rw [hboundaries]
      · rw [if_neg hrole]
        refine ⟨hstart.congr rfl rfl rfl rfl rfl rfl, ?_⟩
        intro announcedContent hannounced
        rw [announced, if_neg fun h => hrole h.1] at hannounced
        cases hannounced
    | agentMessage data => exact ⟨hstart.congr rfl rfl rfl rfl rfl rfl, fun _ h => by cases h⟩
    | functionCall data => cases hboundary
    | other data => cases hboundary

/-! ## Steps that roll back -/

namespace RollbackPlanner

variable {before p : RollbackPlanner}

/-- **A step that rolls back**: the stack is split, and what was on top is dead. -/
structure RollbackStep (before : RollbackPlanner) (count : Nat) (p : RollbackPlanner) : Prop where
  size : p.recordBoundaries.length = before.recordBoundaries.length + 1
  owner_eq : ∀ i, i < before.recordBoundaries.length → p.owner i = before.owner i
  length_eq : p.boundaries.length = before.boundaries.length
  unordered : (∀ b ∈ before.boundaries, b.acceptanceOrder = none) →
    ∀ b ∈ p.boundaries, b.acceptanceOrder = none
  popped : ∃ removed, before.boundaryStack = p.boundaryStack ++ removed ∧
    p.boundaryStack.length = before.boundaryStack.length - count ∧
    ∀ b, p.aliveAt b = (before.aliveAt b && decide (b ∉ removed))
  contexts_eq : p.pendingContextRecords = []
  turnRecords_eq : p.pendingTurnRecords = []
  undelivered : p.pendingDeliveryBoundary = none

/-- A boundary that is taken from the stack. -/
def kill (p : RollbackPlanner) (boundary : Nat) : RollbackPlanner :=
  { p with
    boundaryStack := p.boundaryStack.dropLast
    boundaries := p.boundaries.modify boundary fun b => { b with alive := false } }

theorem aliveAt_kill (p : RollbackPlanner) (boundary b : Nat) :
    (p.kill boundary).aliveAt b = (p.aliveAt b && decide (b ≠ boundary)) := by
  rw [aliveAt, aliveAt, kill, getElem?_modify]
  cases hget : p.boundaries[b]? with
  | none => rfl
  | some found =>
    by_cases h : boundary = b
    · simp [h]
    · simp [h, Ne.symm h]

theorem unordered_kill (boundary : Nat) (h : ∀ b ∈ p.boundaries, b.acceptanceOrder = none) :
    ∀ b ∈ (p.kill boundary).boundaries, b.acceptanceOrder = none := by
  intro b hb
  obtain ⟨i, hget⟩ := mem_iff_getElem?.mp hb
  rw [kill, getElem?_modify] at hget
  obtain ⟨found, hfound, rfl⟩ := Option.map_eq_some_iff.mp hget
  have := h found (mem_of_getElem? hfound)
  split
  next => exact this
  next => exact this

/-- **The loop over the stack.** -/
theorem popTurns_spec (count : Nat) (p : RollbackPlanner) (first : Option Nat) : ∃ removed,
      p.boundaryStack = (popTurns count p first).1.boundaryStack ++ removed ∧
      (popTurns count p first).1.boundaryStack.length = p.boundaryStack.length - count ∧
      (∀ b, (popTurns count p first).1.aliveAt b = (p.aliveAt b && decide (b ∉ removed))) ∧
      (popTurns count p first).1.recordBoundaries = p.recordBoundaries ∧
      (popTurns count p first).1.boundaries.length = p.boundaries.length ∧
      ((∀ b ∈ p.boundaries, b.acceptanceOrder = none) →
        ∀ b ∈ (popTurns count p first).1.boundaries, b.acceptanceOrder = none) := by
  induction count generalizing p first with
  | zero => exact ⟨[], by simp [popTurns], rfl, by simp [popTurns], rfl, rfl, id⟩
  | succ count ih =>
    cases htop : p.boundaryStack.getLast? with
    | none =>
      have hnil : p.boundaryStack = [] := getLast?_eq_none_iff.mp htop
      have hend : popTurns (count + 1) p first = (p, first) := by simp only [popTurns, htop]
      rw [hend]
      exact ⟨[], by simp, by simp [hnil], by simp, rfl, rfl, id⟩
    | some boundary =>
      have hnext : popTurns (count + 1) p first = popTurns count (p.kill boundary) (some boundary) := by
        simp only [popTurns, htop, kill]
      rw [hnext]
      obtain ⟨rest, hrest⟩ := getLast?_eq_some_iff.mp htop
      obtain ⟨removed, hstack, hlength, halive, hrecords, hcount, hunordered⟩ :=
        ih (p.kill boundary) (some boundary)
      have hdrop : (p.kill boundary).boundaryStack = rest := by
        rw [kill, hrest, dropLast_concat]
      refine ⟨removed ++ [boundary], ?_, ?_, ?_, hrecords, ?_, ?_⟩
      · rw [hrest, ← hdrop, ← append_assoc]
        exact congrArg (· ++ [boundary]) hstack
      · rw [hrest, length_append, length_singleton, Nat.add_sub_add_right, ← hdrop]
        exact hlength
      · intro b
        refine (halive b).trans ?_
        rw [aliveAt_kill]
        by_cases hb : b = boundary
        · simp [hb]
        · simp [hb]
      · exact hcount.trans (by rw [kill, length_modify])
      · exact fun h => hunordered (unordered_kill boundary h)

theorem removeAccepted_eq (h : ∀ b ∈ p.boundaries, b.acceptanceOrder = none) (first : Option Nat) :
    p.removeAccepted first = p := by
  cases first with
  | none => rfl
  | some boundary =>
    cases hget : p.boundaries[boundary]? with
    | none => simp only [removeAccepted, hget, Option.bind_none]
    | some found =>
      simp only [removeAccepted, hget, Option.bind_some, h found (mem_of_getElem? hget)]

end RollbackPlanner

/-- **A marker rolls back.** -/
theorem rollbackStep_observe {count : Nat} (hcount : count ≠ 0)
    (hunordered : ∀ b ∈ before.boundaries, b.acceptanceOrder = none) :
    RollbackStep before count
      (before.observe readers (.event (.threadRolledBack count) : RolloutItem ν)) := by
  obtain ⟨removed, hstack, hlength, halive, hrecords, hsize, hordered⟩ :=
    popTurns_spec count before.pushRecord none
  have hnone := hordered hunordered
  have haccepted := removeAccepted_eq hnone (popTurns count before.pushRecord none).2
  simp only [observe, observeEvent, applyRollback, if_neg hcount, haccepted]
  exact {
    size := (congrArg length hrecords).trans (calmStep_pushRecord before).size
    owner_eq := by
      intro i hi
      rw [owner, hrecords]
      exact (calmStep_pushRecord before).owner_eq i hi
    length_eq := hsize
    unordered := fun _ => hnone
    popped := ⟨removed, hstack, hlength, halive⟩
    contexts_eq := rfl
    turnRecords_eq := rfl
    undelivered := rfl }

end NovumAgent.Migration
