import Mathlib.Data.List.Chain
import NovumAgent.Migration.PlannerSteps

/-!
# What a migration keeps of the history

The plan is a replay too, with another cut (`keptItems_eq_planReplay`). At a marker, the replay from the
start takes the context away that stands right before the first removed instruction. The plan takes away
all context of the turn before it, because all of it was waiting for the next instruction. So the two agree
along a rollout exactly if no marker cuts behind a turn with context in its middle (`history_kept_iff`).

The invariant (`Tracks`) says what the planner knows of the history that is kept: the boundaries on the
stack are its instructions, every item in it has the owner that its place gives it, and every other
response item has a dead owner.
-/

namespace NovumAgent.Migration

open List Turns RollbackPlanner

variable {ν : Type} (readers : Readers)

/-! ## The rollouts and the markers -/

/-- Whether a record can stand behind another one: a user message that starts a turn is followed by its
event, and such an event stands nowhere else. -/
def follows (first second : RolloutItem ν) : Bool :=
  match announced readers first, second with
  | some content, .event (.userMessage event) => userResponseMatchesEvent content event
  | some _, _ => false
  | none, .event (.userMessage _) => false
  | none, _ => true

/-- Every user message that starts a turn is recorded with its event. -/
def Paired (lines : List (RolloutItem ν)) : Prop :=
  List.IsChain (fun first second => follows readers first second = true) (.sessionMeta :: lines)

/-- **A safe marker** on a history: between context of the turn before the first removed instruction and
that instruction, there is only context. -/
def SafeRollback (history : List (ResponseItem ν)) (count : Nat) : Prop :=
  ∀ before message between start back, history = before ++ message :: between ++ start :: back →
    countsAsBoundary readers start = true → back.countP (countsAsBoundary readers) + 1 = count →
    before.countP (countsAsBoundary readers) ≠ 0 → isPreTurnContextUpdate readers message = true →
    between.countP (countsAsBoundary readers) = 0 →
    ∀ item ∈ between, isPreTurnContextUpdate readers item = true

variable {readers}

theorem countsAsBoundary_of_context {item : ResponseItem ν}
    (h : isPreTurnContextUpdate readers item = true) : countsAsBoundary readers item = false := by
  cases item with
  | message role content data =>
    have hcontext := of_decide_eq_true h
    refine decide_eq_false ?_
    rintro (⟨huser, hknown⟩ | ⟨hassistant, -⟩)
    · rcases hcontext with ⟨-, hcontext⟩ | ⟨hdeveloper, -⟩
      · exact hknown hcontext
      · rw [huser] at hdeveloper
        exact absurd hdeveloper (by decide)
    · rcases hcontext with ⟨huser, -⟩ | ⟨hdeveloper, -⟩
      · rw [hassistant] at huser
        exact absurd huser (by decide)
      · rw [hassistant] at hdeveloper
        exact absurd hdeveloper (by decide)
  | agentMessage data => cases h
  | functionCall data => cases h
  | other data => cases h

/-! ## Response items with their places -/

/-- A response item with the number of its record. -/
def responseAt (x : RolloutItem ν × Nat) : Option (Nat × ResponseItem ν) :=
  match x.1 with
  | .response response => some (x.2, response.item)
  | _ => none

/-- All response items of a rollout. -/
def responses (lines : List (RolloutItem ν)) : List (Nat × ResponseItem ν) :=
  lines.zipIdx.filterMap responseAt

theorem responses_concat (lines : List (RolloutItem ν)) (line : RolloutItem ν) :
    responses (lines ++ [line]) = responses lines ++ (responseAt (line, lines.length)).toList := by
  rw [responses, zipIdx_append, filterMap_append, zero_add, zipIdx_singleton]
  cases h : responseAt (line, lines.length) with
  | none => simp [h, responses]
  | some x => simp [h, responses]

variable {lines : List (RolloutItem ν)} {line : RolloutItem ν} {i : Nat}

theorem place_of_responseAt {x : Nat × ResponseItem ν}
    (h : x ∈ (responseAt (line, i)).toList) : x.1 = i := by
  cases line with
  | response response =>
    cases mem_singleton.mp h
    rfl
  | _ => cases h

theorem lt_of_mem_responses {x : Nat × ResponseItem ν}
    (h : x ∈ responses lines) : x.1 < lines.length := by
  obtain ⟨⟨line, i⟩, hmem, hx⟩ := mem_filterMap.mp h
  have hlt := (mem_zipIdx hmem).2.1
  cases line with
  | response response =>
    cases hx
    simpa using hlt
  | _ => cases hx

theorem nodup_responses (lines : List (RolloutItem ν)) : ((responses lines).map Prod.fst).Nodup := by
  induction lines using reverseRecOn with
  | nil => exact nodup_nil
  | append_singleton lines line ih =>
    rw [responses_concat, map_append]
    refine nodup_append.mpr ⟨ih, ?_, ?_⟩
    · cases responseAt (line, lines.length) with
      | none => exact nodup_nil
      | some x => exact nodup_singleton _
    · intro i hi j hj hij
      obtain ⟨x, hx, rfl⟩ := mem_map.mp hi
      obtain ⟨y, hy, rfl⟩ := mem_map.mp hj
      rw [place_of_responseAt hy] at hij
      exact ne_of_lt (lt_of_mem_responses hx) hij

variable (readers) in
/-- Whether a response item with its place starts a turn. -/
abbrev starts : Nat × ResponseItem ν → Bool := countsAsBoundary readers ∘ Prod.snd

variable (readers) in
/-- Whether a response item with its place is context. -/
abbrev updates : Nat × ResponseItem ν → Bool := isPreTurnContextUpdate readers ∘ Prod.snd

/-! ## The plan as a replay -/

variable (readers) in
/-- One record of the replay with the cut that the plan makes. -/
def planLine (history : List (ResponseItem ν)) : RolloutItem ν → List (ResponseItem ν)
  | .response response => history ++ [response.item]
  | .event (.threadRolledBack count) =>
    dropTurnsWithContext (countsAsBoundary readers) (isPreTurnContextUpdate readers) history count
  | _ => history

variable (readers) in
/-- **The history that the plan keeps**, as a replay of the rollout. -/
def planReplay (lines : List (RolloutItem ν)) : List (ResponseItem ν) :=
  lines.foldl (planLine readers) []

variable (readers) in
/-- The same record, with the places of the items. -/
def placedLine (history : List (Nat × ResponseItem ν)) (x : RolloutItem ν × Nat) :
    List (Nat × ResponseItem ν) :=
  match x.1 with
  | .response response => history ++ [(x.2, response.item)]
  | .event (.threadRolledBack count) =>
    dropTurnsWithContext (starts readers) (updates readers) history count
  | _ => history

variable (readers) in
/-- The same history, with the places of the items. -/
def placed (lines : List (RolloutItem ν)) : List (Nat × ResponseItem ν) :=
  lines.zipIdx.foldl (placedLine readers) []

section

variable (lines : List (RolloutItem ν))

variable (line : RolloutItem ν)

theorem placed_concat :
    placed readers (lines ++ [line]) = placedLine readers (placed readers lines) (line, lines.length) := by
  rw [placed, zipIdx_append, foldl_append, zero_add, zipIdx_singleton]
  rfl

theorem planReplay_concat :
    planReplay readers (lines ++ [line]) = planLine readers (planReplay readers lines) line := by
  rw [planReplay, foldl_append]
  rfl

theorem replay_concat :
    replay readers (lines ++ [line]) = replayLine readers (replay readers lines) line := by
  rw [replay, foldl_append]
  rfl

theorem planned_concat :
    planned readers (lines ++ [line]) = (planned readers lines).observe readers line := by
  rw [planned, foldl_append]
  rfl

theorem map_placed : (placed readers lines).map Prod.snd = planReplay readers lines := by
  induction lines using reverseRecOn with
  | nil => rfl
  | append_singleton lines line ih =>
    rw [placed_concat, planReplay_concat]
    cases line with
    | response response =>
      rw [placedLine, planLine, map_append, ih]
      rfl
    | event event =>
      cases event with
      | threadRolledBack count =>
        rw [placedLine, planLine, ← ih]
        exact dropTurnsWithContext_map Prod.snd _ count
      | _ => exact ih
    | _ => exact ih

end

theorem eq_of_apply_eq {plan : RollbackPlan} {kept : RolloutItem ν}
    (h : plan.apply i line = .ok (some kept)) : kept = line := by
  unfold RollbackPlan.apply at h
  split at h
  next => cases h
  next =>
    split at h
    next => cases h
    next =>
      split at h
      next => cases h
      next =>
        cases h
        rfl

/-- **The plan keeps the response items that no dead boundary owns.** -/
theorem keptItems_eq (hsize : (planned readers lines).recordBoundaries.length = lines.length) :
    keptItems readers lines =
      ((responses lines).filter fun x => (planned readers lines).keepsAt x.1).map Prod.snd := by
  rw [keptItems, responses, filter_filterMap, map_filterMap]
  refine filterMap_congr fun x hx => ?_
  obtain ⟨line, i⟩ := x
  have hlt : i < (planned readers lines).recordBoundaries.length := by
    have := (mem_zipIdx hx).2.1
    omega
  obtain ⟨owner, howner⟩ : ∃ owner, (planned readers lines).recordBoundaries[i]? = some owner :=
    ⟨_, getElem?_eq_getElem hlt⟩
  have hkeeps : (planned readers lines).keepsAt i =
      !(owner.any fun b => !(planned readers lines).finish.boundaryAlive.getD b false) := by
    rw [keepsAt, RollbackPlanner.owner, howner]
    cases owner with
    | none => rfl
    | some b =>
      simp only [Option.join_some, Option.all_some, Option.any_some, Bool.not_not, aliveAt, finish,
        getD_eq_getElem?_getD, getElem?_map]
      cases (planned readers lines).boundaries[b]? with
      | none => rfl
      | some found => rfl
  have hplan : (planned readers lines).finish.recordBoundaries[i]? = some owner := howner
  cases line with
  | response response =>
    simp only [RollbackPlan.apply, hplan, responseAt, Option.filter_some, hkeeps]
    cases owner.any fun b => !(planned readers lines).finish.boundaryAlive.getD b false with
    | true => rfl
    | false => rfl
  | _ =>
    dsimp only [responseAt]
    split
    next hkept => cases eq_of_apply_eq hkept
    next => rfl

/-! ## The invariant -/

variable (readers) in
/-- **What the planner knows of the history that is kept.** -/
structure Tracks (p : RollbackPlanner) (lines : List (RolloutItem ν))
    (history : List (Nat × ResponseItem ν)) : Prop where
  size : p.recordBoundaries.length = lines.length
  undelivered : p.pendingDeliveryBoundary = none
  unordered : ∀ b ∈ p.boundaries, b.acceptanceOrder = none
  nodup : p.boundaryStack.Nodup
  alive : ∀ b, p.aliveAt b = true ↔ b ∈ p.boundaryStack
  bounded : ∀ x ∈ responses lines, ∀ b, p.owner x.1 = some b → b < p.boundaries.length
  count : history.countP (starts readers) = p.boundaryStack.length
  owned : history.map (fun x => p.owner x.1) =
    owners (starts readers) (updates readers) none p.boundaryStack history
  kept : (responses lines).filter (fun x => p.keepsAt x.1) = history
  contexts : p.boundaryStack ≠ [] → p.pendingContextRecords =
    ((history.rtakeWhile fun x => !starts readers x).filter (updates readers)).map Prod.fst
  turnRecords : ∀ i ∈ p.pendingTurnRecords, i < lines.length ∧ ∀ x ∈ responses lines, x.1 ≠ i

section Steps

variable {p p' : RollbackPlanner} {lines : List (RolloutItem ν)} {history : List (Nat × ResponseItem ν)}
variable {line : RolloutItem ν} {response : Response ν}

section

variable (h : Tracks readers p lines history)
include h

theorem Tracks.mem_responses {x : Nat × ResponseItem ν}
    (hx : x ∈ history) : x ∈ responses lines := by
  rw [← h.kept] at hx
  exact mem_of_mem_filter hx

theorem Tracks.lt {x : Nat × ResponseItem ν}
    (hx : x ∈ responses lines) : x.1 < p.recordBoundaries.length := by
  rw [h.size]
  exact lt_of_mem_responses hx

theorem Tracks.nodup_places : (history.map Prod.fst).Nodup := by
  rw [← h.kept]
  exact (nodup_responses lines).sublist (filter_sublist.map _)

end

theorem keepsAt_congr {j : Nat} (howner : p'.owner i = p.owner j)
    (halive : ∀ b, p.owner j = some b → p'.aliveAt b = p.aliveAt b) : p'.keepsAt i = p.keepsAt j := by
  rw [keepsAt, keepsAt, howner]
  cases hb : p.owner j with
  | none => rfl
  | some b => exact halive b hb

theorem aliveAt_eq_of_boundaries (h : p'.boundaries = p.boundaries) (b : Nat) :
    p'.aliveAt b = p.aliveAt b := by
  rw [aliveAt, aliveAt, h]

section

variable (h : Tracks readers p lines history)
include h

/-- **A calm step**, with the response item that its record may be: it starts no turn. -/
theorem Tracks.extend {added : List (Nat × ResponseItem ν)}
    (hadded : (responseAt (line, lines.length)).toList = added)
    (hstep : CalmStep p ((added.filter (updates readers)).map Prod.fst) p')
    (hplain : added.countP (starts readers) = 0)
    (hnew : ∀ x ∈ added, p'.owner x.1 = p.boundaryStack.getLast?)
    (hturns : added = [] ∨ p'.pendingTurnRecords = p.pendingTurnRecords) :
    Tracks readers p' (lines ++ [line]) (history ++ added) := by
  have hresponses : responses (lines ++ [line]) = responses lines ++ added := by
    rw [responses_concat, hadded]
  have howner : ∀ x ∈ responses lines, p'.owner x.1 = p.owner x.1 :=
    fun x hx => hstep.owner_eq x.1 (h.lt hx)
  have halive := aliveAt_eq_of_boundaries hstep.boundaries_eq
  have htop : ∀ x ∈ added, ∀ b, p'.owner x.1 = some b → p.aliveAt b = true := by
    intro x hx b hb
    rw [hnew x hx] at hb
    exact (h.alive b).mpr (mem_of_getLast? hb)
  constructor
  case size => rw [hstep.size, h.size, length_append, length_singleton]
  case undelivered => exact hstep.undelivered
  case unordered =>
    rw [hstep.boundaries_eq]
    exact h.unordered
  case nodup =>
    rw [hstep.stack_eq]
    exact h.nodup
  case alive =>
    intro b
    rw [hstep.stack_eq, halive]
    exact h.alive b
  case bounded =>
    intro x hx b hb
    rw [hstep.boundaries_eq]
    rw [hresponses] at hx
    rcases mem_append.mp hx with hx | hx
    · rw [howner x hx] at hb
      exact h.bounded x hx b hb
    · exact aliveAt_lt (htop x hx b hb)
  case count => rw [hstep.stack_eq, countP_append, h.count, hplain, add_zero]
  case owned =>
    rw [hstep.stack_eq, owners_concat h.count hplain, ← h.owned, map_append]
    congr 1
    · exact map_congr_left fun x hx => howner x (h.mem_responses hx)
    · exact map_congr_left hnew
  case kept =>
    rw [hresponses, filter_append]
    congr 1
    · rw [← h.kept]
      exact filter_congr fun x hx => keepsAt_congr (howner x hx) fun b _ => halive b
    · refine filter_eq_self.mpr fun x hx => ?_
      rw [keepsAt, Option.all_eq_true]
      intro b hb
      rw [halive]
      exact htop x hx b hb
  case contexts =>
    intro hne
    rw [hstep.stack_eq] at hne
    rw [hstep.contexts_eq, h.contexts hne]
    cases hresponse : responseAt (line, lines.length) with
    | none => simp [← hadded, hresponse]
    | some x =>
      have hx : ¬ starts readers x = true :=
        countP_eq_zero.mp hplain x (by rw [← hadded, hresponse]; exact mem_cons_self)
      rw [← hadded, hresponse, Option.toList_some,
        rtakeWhile_concat_pos _ _ _ (by simpa using hx), filter_append, map_append]
  case turnRecords =>
    intro i hi
    rw [hresponses, length_append, length_singleton]
    rcases hstep.turnRecords i hi with hold | hlast
    · obtain ⟨hlt, hother⟩ := h.turnRecords i hold
      refine ⟨Nat.lt_succ_of_lt hlt, fun x hx => ?_⟩
      rcases mem_append.mp hx with hx | hx
      · exact hother x hx
      · rw [← hadded] at hx
        rw [place_of_responseAt hx]
        exact ne_of_gt hlt
    · rcases hturns with rfl | hsame
      · rw [hlast, h.size, append_nil]
        exact ⟨Nat.lt_succ_self _, fun x hx => ne_of_lt (lt_of_mem_responses hx)⟩
      · rw [hsame] at hi
        rw [hlast, h.size] at hi
        exact absurd (h.turnRecords _ hi).1 (lt_irrefl _)

theorem Tracks.calm (hstep : CalmStep p [] p')
    (hline : responseAt (line, lines.length) = none) : Tracks readers p' (lines ++ [line]) history := by
  rw [← append_nil history]
  exact h.extend (by rw [hline, Option.toList_none]) hstep rfl nofun (.inl rfl)

theorem Tracks.item (hstep : CalmStep p
      (if isPreTurnContextUpdate readers response.item then [p.recordBoundaries.length] else []) p')
    (hnew : p'.owner p.recordBoundaries.length = p.boundaryStack.getLast?)
    (hturns : p'.pendingTurnRecords = p.pendingTurnRecords)
    (hboundary : countsAsBoundary readers response.item = false) :
    Tracks readers p' (lines ++ [.response response]) (history ++ [(lines.length, response.item)]) := by
  rw [h.size] at hstep hnew
  refine h.extend rfl ?_ (by simp [starts, hboundary]) (by simpa using hnew) (.inr hturns)
  by_cases hcontext : isPreTurnContextUpdate readers response.item = true
  · simpa [updates, hcontext] using hstep
  · simpa [updates, hcontext] using hstep

/-- Context that waits is kept so far. -/
theorem Tracks.keepsAt_pending (hstack : p.boundaryStack ≠ []) (hi : i ∈ p.pendingContextRecords) :
    p.keepsAt i = true := by
  rw [h.contexts hstack] at hi
  obtain ⟨x, hx, rfl⟩ := mem_map.mp hi
  have hmem : x ∈ history := (rtakeWhile_suffix _ history).subset (mem_of_mem_filter hx)
  rw [← h.kept] at hmem
  exact (mem_filter.mp hmem).2

theorem Tracks.mem_pending {front turn : List (Nat × ResponseItem ν)}
    {last : Nat × ResponseItem ν} (hhistory : history = front ++ last :: turn)
    (hlast : starts readers last = true) (hturn : turn.countP (starts readers) = 0)
    (hstack : p.boundaryStack ≠ []) {x : Nat × ResponseItem ν} (hx : x ∈ history) :
    x.1 ∈ p.pendingContextRecords ↔ x ∈ turn ∧ updates readers x = true := by
  have htail : (history.rtakeWhile fun x => !starts readers x) = turn := by
    rw [hhistory]
    exact rtakeWhile_of_last hlast hturn
  rw [h.contexts hstack, htail]
  constructor
  · intro hmem
    obtain ⟨y, hy, hxy⟩ := mem_map.mp hmem
    obtain ⟨hyturn, hyupdate⟩ := mem_filter.mp hy
    have hyhistory : y ∈ history := by
      rw [hhistory]
      exact mem_append_right _ (mem_cons_of_mem _ hyturn)
    rw [← inj_on_of_nodup_map h.nodup_places hyhistory hx hxy]
    exact ⟨hyturn, hyupdate⟩
  · rintro ⟨hxturn, hxupdate⟩
    exact mem_map.mpr ⟨x, mem_filter.mpr ⟨hxturn, hxupdate⟩, rfl⟩

theorem Tracks.owners_start {boundary : Nat} (howner : ∀ x ∈ responses lines, p'.owner x.1 =
      if p.boundaryStack ≠ [] ∧ x.1 ∈ p.pendingContextRecords then some boundary else p.owner x.1) :
    history.map (fun x => p'.owner x.1) =
      owners (starts readers) (updates readers) none (p.boundaryStack ++ [boundary]) history := by
  by_cases hnil : p.boundaryStack = []
  · -- before the first start, nothing goes to a boundary
    have hnone : history.countP (starts readers) = 0 := by rw [h.count, hnil, length_nil]
    have hsame : history.map (fun x => p'.owner x.1) = history.map (fun x => p.owner x.1) := by
      refine map_congr_left fun x hx => ?_
      rw [howner x (h.mem_responses hx), if_neg fun hpending => hpending.1 hnil]
    rw [hsame, h.owned, owners_of_no_boundary _ _ hnone, owners_of_no_boundary _ _ hnone]
    simp
  · have hcount : history.countP (starts readers) ≠ 0 := by
      rw [h.count]
      exact fun hzero => hnil (length_eq_zero_iff.mp hzero)
    obtain ⟨front, last, turn, hhistory, hlast, hturn⟩ := exists_last hcount
    have hfront : front.countP (starts readers) + 1 = p.boundaryStack.length := by
      rw [← h.count, hhistory, countP_append, countP_cons_of_pos hlast, hturn]
    have howned := h.owned
    have hbefore := @owners_last_turn _ (starts readers) (updates readers) front turn last _
      p.boundaryStack [] hlast hfront hturn
    rw [append_nil, ← hhistory] at hbefore
    have hafter := @owners_last_turn _ (starts readers) (updates readers) front turn last _
      p.boundaryStack [boundary] hlast hfront hturn
    rw [← hhistory] at hafter
    have hsplit : history = (front ++ [last]) ++ turn := by
      rw [hhistory]
      simp
    rw [hbefore, hsplit, map_append] at howned
    obtain ⟨hearlier, hlater⟩ := append_inj' howned (by simp)
    rw [hafter, ← hearlier]
    refine (congrArg (map _) hsplit).trans ?_
    rw [map_append]
    have hpending := fun {x} => @Tracks.mem_pending _ _ _ _ _ h front turn last hhistory hlast hturn hnil x
    have hplaces := h.nodup_places
    rw [hsplit, map_append] at hplaces
    congr 1
    · refine map_congr_left fun x hx => ?_
      have hmem : x ∈ history := by
        rw [hsplit]
        exact mem_append_left _ hx
      rw [howner x (h.mem_responses hmem), if_neg]
      rintro ⟨-, hwaits⟩
      have hxturn := ((hpending hmem).mp hwaits).1
      exact (nodup_append.mp hplaces).2.2 x.1 (mem_map_of_mem hx) x.1 (mem_map_of_mem hxturn) rfl
    · refine map_congr_left fun x hx => ?_
      have hmem : x ∈ history := by
        rw [hsplit]
        exact mem_append_right _ hx
      have hold := map_inj_left.mp hlater x hx
      rw [howner x (h.mem_responses hmem)]
      by_cases hupdate : updates readers x = true
      · rw [if_pos ⟨hnil, (hpending hmem).mpr ⟨hx, hupdate⟩⟩, if_pos hupdate]
        rfl
      · rw [if_neg fun hwaits => hupdate ((hpending hmem).mp hwaits.2).2, if_neg hupdate, hold,
          if_neg hupdate]

theorem Tracks.start (hstep : StartStep p p')
    (hboundary : countsAsBoundary readers response.item = true) :
    Tracks readers p' (lines ++ [.response response]) (history ++ [(lines.length, response.item)]) := by
  have hresponses : responses (lines ++ [.response response]) =
      responses lines ++ [(lines.length, response.item)] := by
    rw [responses_concat]
    rfl
  have hstarts : starts readers (lines.length, response.item) = true := hboundary
  have halive : ∀ b, p'.aliveAt b = true ↔ b ∈ p.boundaryStack ∨ b = p.boundaries.length := by
    intro b
    rw [← h.alive, aliveAt, aliveAt, hstep.boundaries_eq]
    rcases Nat.lt_trichotomy b p.boundaries.length with hlt | rfl | hgt
    · rw [getElem?_append_left hlt]
      exact ⟨.inl, fun hb => hb.resolve_right (ne_of_lt hlt)⟩
    · simp
    · have hnone : p.boundaries[b]? = none := getElem?_eq_none (le_of_lt hgt)
      have hnone' : (p.boundaries ++ [InstructionBoundary.mk none true])[b]? = none := by
        refine getElem?_eq_none ?_
        rw [length_append, length_singleton]
        exact hgt
      rw [hnone, hnone']
      exact ⟨.inl, fun hb => hb.resolve_right (ne_of_gt hgt)⟩
  have hnew : p'.owner lines.length = some p.boundaries.length := by
    rw [← h.size]
    exact hstep.owner_new
  -- of the response items, only the context behind the last start was waiting
  have howner : ∀ x ∈ responses lines, p'.owner x.1 =
      if p.boundaryStack ≠ [] ∧ x.1 ∈ p.pendingContextRecords then some p.boundaries.length
      else p.owner x.1 := by
    intro x hx
    rw [hstep.owner_eq x.1 (h.lt hx)]
    have hturn : x.1 ∉ p.pendingTurnRecords := fun hmem => (h.turnRecords x.1 hmem).2 x hx rfl
    simp only [hturn, or_false]
  have hfresh : p.boundaries.length ∉ p.boundaryStack := by
    intro hmem
    exact lt_irrefl _ (aliveAt_lt ((h.alive _).mpr hmem))
  constructor
  case size => rw [hstep.size, h.size, length_append, length_singleton]
  case undelivered => exact hstep.undelivered
  case unordered =>
    rw [hstep.boundaries_eq]
    exact forall_mem_append.mpr ⟨h.unordered, forall_mem_singleton.mpr rfl⟩
  case nodup =>
    rw [hstep.stack_eq]
    exact nodup_append.mpr ⟨h.nodup, nodup_singleton _, fun b hb b' hb' hsame =>
      hfresh (by rwa [← mem_singleton.mp hb', ← hsame])⟩
  case alive =>
    intro b
    rw [halive, hstep.stack_eq, mem_append, mem_singleton]
  case bounded =>
    intro x hx b hb
    rw [hstep.boundaries_eq, length_append, length_singleton]
    rw [hresponses] at hx
    rcases mem_append.mp hx with hx | hx
    · rw [howner x hx] at hb
      split at hb
      next =>
        cases hb
        exact Nat.lt_succ_self _
      next => exact Nat.lt_succ_of_lt (h.bounded x hx b hb)
    · cases mem_singleton.mp hx
      rw [hnew] at hb
      cases hb
      exact Nat.lt_succ_self _
  case count =>
    rw [hstep.stack_eq, countP_append, h.count, countP_singleton, if_pos hstarts,
      length_append, length_singleton]
  case owned =>
    rw [hstep.stack_eq, map_append]
    have hlast := @owners_append _ (starts readers) (updates readers) history
      [(lines.length, response.item)] _ none p.boundaryStack [p.boundaries.length] h.count
    rw [hlast]
    congr 1
    · exact h.owners_start howner
    · simp only [owners, hstarts, if_true, head?_cons]
      exact congrArg (fun o => [o]) hnew
  case kept =>
    rw [hresponses, filter_append]
    congr 1
    · rw [← h.kept]
      refine filter_congr fun x hx => ?_
      by_cases hpending : p.boundaryStack ≠ [] ∧ x.1 ∈ p.pendingContextRecords
      · have hbefore : p.keepsAt x.1 = true := h.keepsAt_pending hpending.1 hpending.2
        rw [hbefore, keepsAt, howner x hx, if_pos hpending]
        exact (halive _).mpr (.inr rfl)
      · refine keepsAt_congr ((howner x hx).trans (if_neg hpending)) ?_
        intro b hb
        have hlt := h.bounded x hx b hb
        rw [Bool.eq_iff_iff, halive, h.alive]
        exact ⟨fun hmem => hmem.resolve_right (ne_of_lt hlt), .inl⟩
    · refine filter_eq_self.mpr fun x hx => ?_
      cases mem_singleton.mp hx
      rw [keepsAt, hnew]
      exact (halive _).mpr (.inr rfl)
  case contexts =>
    intro _
    rw [hstep.contexts_eq, rtakeWhile_concat_neg _ _ _ (by simp [hboundary])]
    rfl
  case turnRecords =>
    rw [hstep.turnRecords_eq]
    exact fun i hi => absurd hi not_mem_nil

/-- **A marker**: the response items that are left are those of the cut. -/
theorem Tracks.rollback {count : Nat} (hcount : count ≠ 0) (hstep : RollbackStep p count p') :
    Tracks readers p' (lines ++ [.event (.threadRolledBack count)])
      (dropTurnsWithContext (starts readers) (updates readers) history count) := by
  have hresponses : responses (lines ++ [.event (.threadRolledBack count)]) = responses lines := by
    rw [responses_concat]
    exact append_nil _
  have howner : ∀ x ∈ responses lines, p'.owner x.1 = p.owner x.1 :=
    fun x hx => hstep.owner_eq x.1 (h.lt hx)
  obtain ⟨removed, hstack, hlength, hremoved⟩ := hstep.popped
  have hnodup := h.nodup
  rw [hstack] at hnodup
  have halive : ∀ b, p'.aliveAt b = decide (b ∈ p'.boundaryStack) := by
    intro b
    rw [hremoved, Bool.eq_iff_iff, Bool.and_eq_true, h.alive, decide_eq_true_iff, decide_eq_true_iff,
      hstack, mem_append]
    constructor
    · rintro ⟨hmem, hnot⟩
      exact hmem.resolve_right hnot
    · intro hmem
      exact ⟨.inl hmem, fun hgone => (nodup_append.mp hnodup).2.2 b hmem b hgone rfl⟩
  -- what is left of all response items is left of the history
  have hkeeps : (responses lines).filter (fun x => p'.keepsAt x.1) =
      history.filter fun x => (p.owner x.1).all (· ∈ p'.boundaryStack) := by
    rw [← h.kept, filter_filter]
    refine filter_congr fun x hx => ?_
    rw [keepsAt, howner x hx, keepsAt]
    cases hb : p.owner x.1 with
    | none => rfl
    | some b =>
      rw [Option.all_some, Option.all_some, Option.all_some, halive, Bool.eq_iff_iff, Bool.and_eq_true,
        h.alive, decide_eq_true_iff, hstack]
      exact ⟨fun hmem => ⟨hmem, mem_append_left _ hmem⟩, And.left⟩
  -- the cut, and the owners of what is left
  generalize hcut : dropTurnsWithContext (starts readers) (updates readers) history count = left
  obtain ⟨hleft, howned, hsame, hcontexts⟩ :
      history.filter (fun x => (p.owner x.1).all (· ∈ p'.boundaryStack)) = left ∧
        left.map (fun x => p.owner x.1) =
          owners (starts readers) (updates readers) none p'.boundaryStack left ∧
        left.countP (starts readers) = p'.boundaryStack.length ∧
        (p'.boundaryStack ≠ [] →
          (left.rtakeWhile fun x => !starts readers x).filter (updates readers) = []) := by
    by_cases hle : history.countP (starts readers) ≤ count
    · have hnil : p'.boundaryStack = [] := by
        rw [h.count] at hle
        exact length_eq_zero_iff.mp (by omega)
      rw [dropTurnsWithContext, if_neg hcount, if_pos hle] at hcut
      rw [← hcut, hnil]
      refine ⟨?_, owners_takeWhile h.count h.owned, ?_, fun hne => absurd rfl hne⟩
      · rw [← filter_unowned h.count h.owned]
        refine filter_congr fun x _ => ?_
        cases p.owner x.1 with
        | none => rfl
        | some b => simp
      · refine countP_eq_zero.mpr fun x hx => ?_
        simpa using mem_takeWhile_imp hx
    · obtain ⟨front, start, back, hhistory, hstart, hback⟩ :=
        exists_turn (Nat.pos_of_ne_zero hcount) (Nat.le_of_not_le hle)
      have htotal := h.count
      rw [hhistory, countP_append, countP_cons_of_pos hstart] at htotal
      have hsizes : p.boundaryStack.length = p'.boundaryStack.length + removed.length := by
        rw [hstack, length_append]
      rw [h.count] at hle
      obtain ⟨earlier, last, turn, rfl, hlast, hturn⟩ :=
        @exists_last _ (starts readers) front (by omega)
      rw [countP_append, countP_cons_of_pos hlast, hturn] at htotal
      cases removed with
      | nil =>
        rw [length_nil] at hsizes
        omega
      | cons b removed =>
        rw [length_cons] at hsizes
        have hfound := h.owned
        rw [hstack, hhistory] at hfound
        obtain ⟨hfilter, howners⟩ := filter_owned hlast hturn hstart (by omega) (by omega) hnodup hfound
        rw [hhistory, ← hback, dropTurnsWithContext_append hlast hturn hstart] at hcut
        have hrest : (turn.filter fun x => !updates readers x).countP (starts readers) = 0 := by
          refine countP_eq_zero.mpr fun x hx => ?_
          exact countP_eq_zero.mp hturn x (mem_of_mem_filter hx)
        rw [← hcut]
        refine ⟨?_, howners, ?_, fun _ => ?_⟩
        · rw [hhistory]
          exact hfilter
        · rw [countP_append, countP_cons_of_pos hlast, hrest]
          omega
        · rw [rtakeWhile_of_last hlast hrest, filter_filter]
          exact filter_eq_nil_iff.mpr fun x _ => by simp
  constructor
  case size => rw [hstep.size, h.size, length_append, length_singleton]
  case undelivered => exact hstep.undelivered
  case unordered => exact hstep.unordered h.unordered
  case nodup => exact (nodup_append.mp hnodup).1
  case alive =>
    intro b
    rw [halive, decide_eq_true_iff]
  case bounded =>
    intro x hx b hb
    rw [hresponses] at hx
    rw [howner x hx] at hb
    rw [hstep.length_eq]
    exact h.bounded x hx b hb
  case count => exact hsame
  case owned =>
    rw [← howned]
    refine map_congr_left fun x hx => howner x (h.mem_responses ?_)
    rw [← hleft] at hx
    exact mem_of_mem_filter hx
  case kept => rw [hresponses, hkeeps, hleft]
  case contexts =>
    intro hne
    rw [hstep.contexts_eq, hcontexts hne]
    rfl
  case turnRecords =>
    rw [hstep.turnRecords_eq]
    exact fun i hi => absurd hi not_mem_nil

end

end Steps

/-! ## Along a rollout -/

theorem tracks_new : Tracks readers RollbackPlanner.new ([] : List (RolloutItem ν)) [] where
  size := rfl
  undelivered := rfl
  unordered := fun b hb => absurd hb not_mem_nil
  nodup := nodup_nil
  alive := by
    intro b
    refine ⟨fun hb => ?_, fun hb => absurd hb not_mem_nil⟩
    cases hb
  bounded := fun x hx => absurd hx not_mem_nil
  count := rfl
  owned := rfl
  kept := rfl
  contexts := fun hne => absurd rfl hne
  turnRecords := fun i hi => absurd hi not_mem_nil

theorem Paired.of_concat (h : Paired readers (lines ++ [line])) :
    Paired readers lines ∧ ∀ last ∈ ((.sessionMeta : RolloutItem ν) :: lines).getLast?,
      follows readers last line = true := by
  unfold Paired at h
  rw [← cons_append] at h
  obtain ⟨hlines, -, hlast⟩ := isChain_append.mp h
  exact ⟨hlines, fun last hmem => hlast last hmem line rfl⟩

/-- A user message that starts a turn has just been noted. -/
def Awaits (readers : Readers) (p : RollbackPlanner) (line : RolloutItem ν) : Prop :=
  ∀ content, announced readers line = some content →
    ∃ boundary, p.pendingUserResponse = some ⟨boundary, content⟩

theorem announced_of_plain {response : Response ν}
    (h : countsAsBoundary readers response.item = false) :
    announced readers (.response response) = none := by
  cases response with
  | mk item metadata =>
    cases item with
    | message role content data =>
      have hnot : ¬ (role = "user".toList ∧
          countsAsBoundary readers (.message role content data) = true) := by
        rintro ⟨-, hboundary⟩
        exact Bool.false_ne_true (h.symm.trans hboundary)
      rw [announced, if_neg hnot]
    | _ => rfl

theorem pairedUserBoundary_of_follows {p : RollbackPlanner} {last : RolloutItem ν}
    {event : UserMessageEvent} (hawaits : Awaits readers p last)
    (hfollows : follows readers last (.event (.userMessage event) : RolloutItem ν) = true) :
    (p.pairedUserBoundary event).isSome = true := by
  unfold follows at hfollows
  cases hcontent : announced readers last with
  | none =>
    rw [hcontent] at hfollows
    cases hfollows
  | some content =>
    rw [hcontent] at hfollows
    obtain ⟨boundary, hpending⟩ := hawaits content hcontent
    simp only [pairedUserBoundary, hpending, if_pos hfollows, Option.isSome_some]

/-- **The planner tracks the history that the plan keeps.** -/
theorem tracks_planned (hlegacy : ∀ line ∈ lines, Legacy line = true)
    (hpaired : Paired readers lines) :
    Tracks readers (planned readers lines) lines (placed readers lines) ∧
      ∀ last ∈ ((.sessionMeta : RolloutItem ν) :: lines).getLast?,
        Awaits readers (planned readers lines) last := by
  induction lines using reverseRecOn with
  | nil =>
    refine ⟨tracks_new, ?_⟩
    intro last hlast content hcontent
    cases hlast
    cases hcontent
  | append_singleton lines line ih =>
    have hline : Legacy line = true := hlegacy line (by simp)
    obtain ⟨hlines, hfollows⟩ := hpaired.of_concat
    obtain ⟨hbefore, hawaits⟩ := ih (fun x hx => hlegacy x (mem_append_left _ hx)) hlines
    rw [planned_concat, placed_concat]
    simp only [← cons_append, getLast?_concat, Option.mem_some_iff, forall_eq']
    cases line with
    | response response =>
      by_cases hboundary : countsAsBoundary readers response.item = true
      · obtain ⟨hstep, hpending⟩ := startStep_response hline hbefore.undelivered hboundary
        exact ⟨hbefore.start hstep hboundary, fun content hcontent => ⟨_, hpending content hcontent⟩⟩
      · have hplain : countsAsBoundary readers response.item = false := by simpa using hboundary
        obtain ⟨hstep, hnew, hturns⟩ := calmStep_response hbefore.undelivered hplain
        refine ⟨hbefore.item hstep hnew hturns hplain, ?_⟩
        intro content hcontent
        rw [announced_of_plain hplain] at hcontent
        cases hcontent
    | event event =>
      refine ⟨?_, fun content hcontent => by cases hcontent⟩
      cases event with
      | threadRolledBack count =>
        by_cases hcount : count = 0
        · subst hcount
          exact hbefore.calm (calmStep_observe rfl rfl) rfl
        · exact hbefore.rollback hcount (rollbackStep_observe hcount hbefore.unordered)
      | userMessage event =>
        obtain ⟨last, hlast⟩ : ∃ last, ((.sessionMeta : RolloutItem ν) :: lines).getLast? = some last :=
          ⟨_, getLast?_cons⟩
        have hsome := pairedUserBoundary_of_follows (hawaits last hlast) (hfollows last hlast)
        exact hbefore.calm (calmStep_observe rfl hsome) rfl
      | _ => exact hbefore.calm (calmStep_observe rfl rfl) rfl
    | interAgentCommunication => cases hline
    | interAgentCommunicationMetadata => cases hline
    | _ =>
      refine ⟨hbefore.calm (calmStep_observe rfl rfl) rfl, ?_⟩
      intro content hcontent
      cases hcontent

/-- **The plan is a replay** with the cut that takes all context of a turn. -/
theorem keptItems_eq_planReplay
    (hlegacy : ∀ line ∈ lines, Legacy line = true) (hpaired : Paired readers lines) :
    keptItems readers lines = planReplay readers lines := by
  have htracks := (tracks_planned hlegacy hpaired).1
  rw [keptItems_eq htracks.size, htracks.kept, map_placed]

theorem planReplay_eq_replay
    (hsafe : ∀ seen count, seen ++ [.event (.threadRolledBack count)] <+: lines →
      SafeRollback readers (replay readers seen) count) :
    planReplay readers lines = replay readers lines := by
  induction lines using reverseRecOn with
  | nil => rfl
  | append_singleton lines line ih =>
    have hbefore := ih fun seen count hseen => hsafe seen count (hseen.trans (prefix_append _ _))
    rw [planReplay_concat, replay_concat, hbefore]
    cases line with
    | event event =>
      cases event with
      | threadRolledBack count =>
        exact (dropTurnsWithContext_eq_iff (fun _ => countsAsBoundary_of_context) _ count).mpr
          (hsafe lines count (prefix_refl _))
      | _ => rfl
    | _ => rfl

theorem Paired.of_prefix {seen : List (RolloutItem ν)} (h : Paired readers lines)
    (hseen : seen <+: lines) : Paired readers seen := by
  obtain ⟨rest, rfl⟩ := hseen
  unfold Paired at h
  rw [← cons_append] at h
  exact (isChain_append.mp h).1

/-- **When a migration keeps the history.** The response items that the plan of a rollout keeps are the
items of the replayed history, all along the rollout, exactly if all its markers are safe. -/
theorem history_kept_iff (readers : Readers) (lines : List (RolloutItem ν))
    (hlegacy : ∀ line ∈ lines, Legacy line = true) (hpaired : Paired readers lines) :
    (∀ seen, seen <+: lines → keptItems readers seen = replay readers seen) ↔
      ∀ seen count, seen ++ [.event (.threadRolledBack count)] <+: lines →
        SafeRollback readers (replay readers seen) count := by
  have hkept : ∀ seen, seen <+: lines → keptItems readers seen = planReplay readers seen :=
    fun seen hseen => keptItems_eq_planReplay (fun line hline => hlegacy line (hseen.subset hline))
      (hpaired.of_prefix hseen)
  constructor
  · intro hagree seen count hmarker
    have hseen : seen <+: lines := (prefix_append _ _).trans hmarker
    have hbefore : planReplay readers seen = replay readers seen :=
      (hkept seen hseen).symm.trans (hagree seen hseen)
    have hafter := (hkept _ hmarker).symm.trans (hagree _ hmarker)
    rw [planReplay_concat, replay_concat, hbefore] at hafter
    exact (dropTurnsWithContext_eq_iff (fun _ => countsAsBoundary_of_context) _ count).mp hafter
  · intro hsafe seen hseen
    rw [hkept seen hseen]
    exact planReplay_eq_replay fun earlier count hmarker => hsafe earlier count (hmarker.trans hseen)

/-! A turn with a message of context before its answer or behind it, and a second turn that is rolled
back. -/

/-- Readers that know no hook prompts and no communication between agents. -/
def plainReaders : Readers := ⟨fun _ => false, fun _ => false⟩

/-- A message with one text. -/
def messageOf (role text : Text) : RolloutItem Unit :=
  .response ⟨.message role [.inputText text] (), none⟩

/-- The event of a user message with one text. -/
def userEventOf (text : Text) : RolloutItem Unit :=
  .event (.userMessage ⟨text, none, none, [], none, [], []⟩)

/-- A message of context. -/
def skillMessage : RolloutItem Unit := messageOf "user".toList "<skill></skill>".toList

/-- Two turns; the first one has these messages behind its instruction. -/
def twoTurns (messages : List (RolloutItem Unit)) : List (RolloutItem Unit) :=
  [messageOf "user".toList "a".toList, userEventOf "a".toList] ++ messages ++
    [messageOf "user".toList "b".toList, userEventOf "b".toList]

theorem history_kept_two_turns :
    Paired plainReaders (twoTurns [messageOf "assistant".toList "ok".toList, skillMessage] ++
        [.event (.threadRolledBack 1)]) ∧
      ∀ seen, seen <+: twoTurns [messageOf "assistant".toList "ok".toList, skillMessage] ++
          [.event (.threadRolledBack 1)] →
        keptItems plainReaders seen = replay plainReaders seen := by
  refine ⟨?paired, (history_kept_iff plainReaders _ (by decide +kernel) ?paired).mpr ?_⟩
  · unfold Paired
    decide +kernel
  intro seen count hmarker
  rcases prefix_concat_iff.mp hmarker with hend | hearlier
  · obtain ⟨rfl, hcount⟩ := append_inj' hend rfl
    cases hcount
    exact (dropTurnsWithContext_eq_iff (fun _ => countsAsBoundary_of_context) _ 1).mp (by decide +kernel)
  · have hmem : (.event (.threadRolledBack count) : RolloutItem Unit) ∈
        twoTurns [messageOf "assistant".toList "ok".toList, skillMessage] :=
      hearlier.subset (mem_append_right _ (mem_singleton.mpr rfl))
    simp [twoTurns, messageOf, userEventOf, skillMessage] at hmem

theorem context_in_turn_lost :
    (∀ line ∈ twoTurns [skillMessage, messageOf "assistant".toList "ok".toList] ++
        [.event (.threadRolledBack 1)], Legacy line = true) ∧
      Paired plainReaders (twoTurns [skillMessage, messageOf "assistant".toList "ok".toList] ++
        [.event (.threadRolledBack 1)]) ∧
      keptItems plainReaders (twoTurns [skillMessage, messageOf "assistant".toList "ok".toList] ++
          [.event (.threadRolledBack 1)]) ≠
        replay plainReaders (twoTurns [skillMessage, messageOf "assistant".toList "ok".toList] ++
          [.event (.threadRolledBack 1)]) := by
  refine ⟨by decide +kernel, ?_, by decide +kernel⟩
  unfold Paired
  decide +kernel

end NovumAgent.Migration
