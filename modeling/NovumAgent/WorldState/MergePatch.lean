import NovumAgent.WorldState.Json

/-!
# Merge patches of the world state

A rollout records the world state as one full snapshot and a patch for each change. A patch is a JSON
merge patch: it names the fields that changed, nested objects are patched in turn, and a null stands for
the removal of a field. Since a null cannot then be the value of a field, snapshots are freed of null
fields when they are made (`removeNullObjectFields`). Arrays are replaced whole, so what is inside them
is free.

A patch between two snapshots leads from the first to the second (`snapshot_patch_replays`), whatever
the first was, and so does the replay of all the records of a session.
-/

namespace NovumAgent.WorldState

open Json FinMap

variable {ν : Type}

/-! ## Patches -/

def removeNullObjectFields : Json ν → Json ν
  | .object keys fields =>
    .ofMap (.ofGet keys fun key =>
      if h : key ∈ keys then
        if (fields ⟨key, h⟩).isNull then none else some (removeNullObjectFields (fields ⟨key, h⟩))
      else none)
  | value => value

def createMergePatch [DecidableEq ν] (previous : Json ν) : Json ν → Option (Json ν)
  | .object keys fields =>
    if previous = .object keys fields then none
    else
      let previousFields := previous.asObject.getD .empty
      some (.ofMap (.ofGet (previousFields.keys ∪ keys) fun key =>
        if h : key ∈ keys then
          match previousFields.get? key with
          | none => some (fields ⟨key, h⟩)
          | some previousValue => createMergePatch previousValue (fields ⟨key, h⟩)
        else if key ∈ previousFields.keys then some .null
        else none))
  | current => if previous = current then none else some current

def applyMergePatchValue (target : Json ν) : Json ν → Json ν
  | .object keys patch =>
    -- A value that is not an object is replaced by an empty one first.
    let targetFields := target.asObject.getD .empty
    .ofMap (.ofGet (targetFields.keys ∪ keys) fun key =>
      if h : key ∈ keys then
        if (patch ⟨key, h⟩).isNull then none
        else some (applyMergePatchValue ((targetFields.get? key).getD .null) (patch ⟨key, h⟩))
      else targetFields.get? key)
  | patch => patch

/-! ## Snapshots -/

/-- `WorldStateSnapshot`: the sections by name. -/
abbrev WorldStateSnapshot (ν : Type) := FinMap Text (Json ν)

def mergePatchFrom [DecidableEq ν] (current previous : WorldStateSnapshot ν) : Option (FinMap Text (Json ν)) :=
  let patch : FinMap Text (Json ν) := .ofGet (previous.keys ∪ current.keys) fun key =>
    match current.get? key with
    | none => if key ∈ previous.keys then some .null else none
    | some value =>
      match previous.get? key with
      | some previousValue => createMergePatch previousValue value
      | none => some value
  if patch.keys = ∅ then none else some patch

def applyMergePatch (snapshot : WorldStateSnapshot ν) (patch : FinMap Text (Json ν)) :
    WorldStateSnapshot ν :=
  .ofGet (snapshot.keys ∪ patch.keys) fun key =>
    match patch.get? key with
    | none => snapshot.get? key
    | some value =>
      if value.isNull then none
      else some (applyMergePatchValue ((snapshot.get? key).getD .null) value)

structure WorldStateItem (ν : Type) where
  full : Bool
  state : FinMap Text (Json ν)

/-- `world_state_item`: what is recorded when the baseline moves on to a snapshot. -/
def worldStateItem [DecidableEq ν] (baseline : Option (WorldStateSnapshot ν)) (snapshot : WorldStateSnapshot ν) :
    Option (WorldStateItem ν) :=
  match baseline with
  | none => some ⟨true, snapshot⟩
  | some previous => (mergePatchFrom snapshot previous).map (⟨false, ·⟩)

/-- One step of the replay in `reconstruct_history_from_rollout`. -/
def replayItem (baseline : Option (WorldStateSnapshot ν)) (item : WorldStateItem ν) :
    Option (WorldStateSnapshot ν) :=
  if item.full then some item.state else baseline.map (applyMergePatch · item.state)

/-! ## Values without null fields -/

/-- No field of the value is null, outside of arrays. -/
def NoNullFields : Json ν → Prop
  | .object _ fields => ∀ key, (fields key).isNull = false ∧ NoNullFields (fields key)
  | _ => True

theorem noNullFields_ofMap {fields : FinMap Text (Json ν)} : NoNullFields (.ofMap fields) ↔
      ∀ key value, fields.get? key = some value → value.isNull = false ∧ NoNullFields value := by
  constructor
  · intro h key value hvalue
    have hmem : key ∈ fields.keys := get?_isSome.mp (by rw [hvalue]; rfl)
    rw [get?_of_mem hmem] at hvalue
    cases hvalue
    exact h ⟨key, hmem⟩
  · intro h key
    exact h key.1 _ (get?_of_mem key.2)

theorem isNull_removeNullObjectFields (value : Json ν) :
    (removeNullObjectFields value).isNull = value.isNull := by
  cases value <;> rfl

/-- **What is taken out of a snapshot** leaves no null field. -/
theorem noNullFields_removeNullObjectFields (value : Json ν) :
    NoNullFields (removeNullObjectFields value) := by
  induction value with
  | object keys fields ih =>
    rw [removeNullObjectFields, noNullFields_ofMap]
    intro key value hvalue
    rw [get?_ofGet fun k hk => by by_contra hmem; simp [hmem] at hk] at hvalue
    split at hvalue
    next hmem =>
      obtain ⟨hnull, ⟨⟩⟩ := Option.ite_none_left_eq_some.mp hvalue
      rw [isNull_removeNullObjectFields]
      exact ⟨Bool.eq_false_iff.mpr hnull, ih ⟨key, hmem⟩⟩
    next => cases hvalue
  | _ => trivial

/-! ## Patching -/

section Patching

variable {current previous : FinMap Text (Json ν)} {value patch : Json ν}

theorem get?_applyMergePatch (snapshot patch : FinMap Text (Json ν)) (key : Text) :
    (applyMergePatch snapshot patch).get? key =
      match patch.get? key with
      | none => snapshot.get? key
      | some value =>
        if value.isNull then none
        else some (applyMergePatchValue ((snapshot.get? key).getD .null) value) := by
  refine get?_ofGet (fun k hk => ?_) key
  by_contra hmem
  obtain ⟨hsnapshot, hpatch⟩ := not_or.mp (mt Finset.mem_union.mpr hmem)
  simp [get?_of_notMem hsnapshot, get?_of_notMem hpatch] at hk

theorem applyMergePatchValue_ofMap (target : Json ν) (patch : FinMap Text (Json ν)) :
    applyMergePatchValue target (.ofMap patch) =
      .ofMap (applyMergePatch (target.asObject.getD .empty) patch) := by
  refine congrArg (fun f => Json.ofMap (.ofGet ((target.asObject.getD .empty).keys ∪ patch.keys) f)) ?_
  funext key
  by_cases hmem : key ∈ patch.keys
  · rw [dif_pos hmem, get?_of_mem hmem]
  · rw [dif_neg hmem, get?_of_notMem hmem]

theorem applyMergePatchValue_null (hvalue : NoNullFields value) :
    applyMergePatchValue .null value = value := by
  induction value with
  | object keys fields ih =>
    rw [eq_ofMap, applyMergePatchValue_ofMap, ofMap_inj]
    apply ext_get?
    intro key
    rw [get?_applyMergePatch]
    by_cases hmem : key ∈ keys
    · rw [get?_of_mem (m := ⟨keys, fields⟩) hmem]
      obtain ⟨hnull, hfields⟩ := hvalue ⟨key, hmem⟩
      simp only [hnull, Bool.false_eq_true, if_false]
      exact congrArg some (ih ⟨key, hmem⟩ hfields)
    · rw [get?_of_notMem (m := ⟨keys, fields⟩) hmem]
      exact get?_empty key
  | _ => rfl

variable [DecidableEq ν]

/-- The entries of the patch between two maps. -/
def patchAt (current previous : FinMap Text (Json ν)) (key : Text) : Option (Json ν) :=
  match current.get? key with
  | none => if key ∈ previous.keys then some .null else none
  | some value =>
    match previous.get? key with
    | some previousValue => createMergePatch previousValue value
    | none => some value

/-- The patch between two maps. -/
def patchBetween (current previous : FinMap Text (Json ν)) : FinMap Text (Json ν) :=
  .ofGet (previous.keys ∪ current.keys) (patchAt current previous)

theorem mergePatchFrom_eq (current previous : WorldStateSnapshot ν) :
    mergePatchFrom current previous =
      if (patchBetween current previous).keys = ∅ then none
      else some (patchBetween current previous) := rfl

theorem createMergePatch_ofMap (previous : Json ν) (current : FinMap Text (Json ν)) :
    createMergePatch previous (.ofMap current) =
      if previous = .ofMap current then none
      else some (.ofMap (patchBetween current (previous.asObject.getD .empty))) := by
  show createMergePatch previous (.object current.keys current.value) = _
  rw [createMergePatch]
  refine congrArg (fun f => if previous = Json.ofMap current then none
    else some (Json.ofMap (.ofGet ((previous.asObject.getD .empty).keys ∪ current.keys) f))) ?_
  funext key
  unfold patchAt
  by_cases hmem : key ∈ current.keys
  · rw [dif_pos hmem, get?_of_mem hmem]
    cases (previous.asObject.getD .empty).get? key with
    | none => rfl
    | some previousValue => rfl
  · rw [dif_neg hmem, get?_of_notMem hmem]

theorem patchAt_mem {key : Text} (h : (patchAt current previous key).isSome = true) :
    key ∈ previous.keys ∪ current.keys := by
  by_contra hmem
  obtain ⟨hprevious, hcurrent⟩ := not_or.mp (mt Finset.mem_union.mpr hmem)
  simp [patchAt, get?_of_notMem hcurrent, hprevious] at h

theorem get?_patchBetween (key : Text) :
    (patchBetween current previous).get? key = patchAt current previous key :=
  get?_ofGet (fun _ => patchAt_mem) key

theorem createMergePatch_eq_none (previous value : Json ν) :
    createMergePatch previous value = none ↔ previous = value := by
  cases value with
  | object keys fields => rw [createMergePatch]; split <;> simp_all
  | _ => rw [createMergePatch]; all_goals first | (split <;> simp_all) | nofun

/-- **There is nothing to patch** exactly between equal maps. -/
theorem patchBetween_keys_eq_empty :
    (patchBetween current previous).keys = ∅ ↔ previous = current := by
  rw [patchBetween, ofGet_keys_eq_empty fun _ => patchAt_mem]
  constructor
  · intro h
    apply ext_get?
    intro key
    have hkey := h key
    unfold patchAt at hkey
    split at hkey
    next hcurrent =>
      split at hkey
      next => cases hkey
      next hprevious => rw [get?_of_notMem hprevious, hcurrent]
    next value hcurrent =>
      split at hkey
      next previousValue hprevious =>
        rw [hprevious, hcurrent, (createMergePatch_eq_none _ _).mp hkey]
      next => cases hkey
  · rintro rfl key
    unfold patchAt
    by_cases hmem : key ∈ previous.keys
    · rw [get?_of_mem hmem]
      exact (createMergePatch_eq_none _ _).mpr rfl
    · rw [get?_of_notMem hmem]
      exact if_neg hmem

/-- No section is null, and no section has a null field. -/
def NoNulls (snapshot : FinMap Text (Json ν)) : Prop :=
  ∀ key value, snapshot.get? key = some value → value.isNull = false ∧ NoNullFields value

theorem applyMergePatch_patchBetween (hcurrent : NoNulls current)
    (hvalues : ∀ key value, current.get? key = some value → ∀ previous patch,
      createMergePatch previous value = some patch →
        patch.isNull = false ∧ applyMergePatchValue previous patch = value) :
    applyMergePatch previous (patchBetween current previous) = current := by
  apply ext_get?
  intro key
  rw [get?_applyMergePatch, get?_patchBetween]
  unfold patchAt
  cases hkey : current.get? key with
  | none =>
    by_cases hmem : key ∈ previous.keys
    · simp [hmem, isNull]
    · simp [hmem, get?_of_notMem hmem]
  | some value =>
    obtain ⟨hnull, hfields⟩ := hcurrent key value hkey
    cases hprevious : previous.get? key with
    | none => simp [hnull, applyMergePatchValue_null hfields]
    | some previousValue =>
      cases hpatch : createMergePatch previousValue value with
      | none =>
        simp only [hpatch]
        rw [(createMergePatch_eq_none _ _).mp hpatch]
      | some patch =>
        obtain ⟨hpatchNull, happly⟩ := hvalues key value hkey previousValue patch hpatch
        simp [hpatch, hpatchNull, happly]

/-- **A patch between values leads from the first to the second.** -/
theorem applyMergePatchValue_createMergePatch (hnull : value.isNull = false)
    (hvalue : NoNullFields value) (previous : Json ν)
    (hpatch : createMergePatch previous value = some patch) :
    patch.isNull = false ∧ applyMergePatchValue previous patch = value := by
  induction value generalizing previous patch with
  | object keys fields ih =>
    rw [eq_ofMap, createMergePatch_ofMap] at hpatch
    obtain ⟨-, ⟨⟩⟩ := Option.ite_none_left_eq_some.mp hpatch
    refine ⟨rfl, ?_⟩
    rw [applyMergePatchValue_ofMap, eq_ofMap keys fields, ofMap_inj]
    refine applyMergePatch_patchBetween (noNullFields_ofMap.mp hvalue) ?_
    intro key value hkey previous patch hpatch
    have hmem : key ∈ keys := get?_isSome.mp (by rw [hkey]; rfl)
    rw [get?_of_mem hmem] at hkey
    cases hkey
    obtain ⟨hfieldNull, hfieldFields⟩ := hvalue ⟨key, hmem⟩
    exact ih ⟨key, hmem⟩ hfieldNull hfieldFields previous hpatch
  | null => cases hnull
  | _ =>
    rw [createMergePatch] at hpatch
    · split at hpatch
      · cases hpatch
      · cases hpatch
        exact ⟨hnull, rfl⟩
    · nofun

end Patching

/-! ## Replay -/

section Replay

variable [DecidableEq ν]

/-- What a session records as its snapshots follow each other. -/
def recordAll (baseline : Option (WorldStateSnapshot ν)) :
    List (WorldStateSnapshot ν) → List (WorldStateItem ν)
  | [] => []
  | snapshot :: snapshots =>
    (worldStateItem baseline snapshot).toList ++ recordAll (some snapshot) snapshots

theorem mergePatchFrom_eq_none (current previous : WorldStateSnapshot ν) :
    mergePatchFrom current previous = none ↔ previous = current := by
  rw [mergePatchFrom_eq, ← patchBetween_keys_eq_empty]
  split
  next h => simp [h]
  next h => simp [h]

theorem applyMergePatch_mergePatchFrom {current previous : WorldStateSnapshot ν}
    (h : NoNulls current) {patch : FinMap Text (Json ν)}
    (hpatch : mergePatchFrom current previous = some patch) :
    applyMergePatch previous patch = current := by
  rw [mergePatchFrom_eq] at hpatch
  obtain ⟨-, ⟨⟩⟩ := Option.ite_none_left_eq_some.mp hpatch
  refine applyMergePatch_patchBetween h fun key value hkey previous patch hpatch => ?_
  obtain ⟨hnull, hfields⟩ := h key value hkey
  exact applyMergePatchValue_createMergePatch hnull hfields previous hpatch

theorem replay_worldStateItem (baseline : Option (WorldStateSnapshot ν))
    {snapshot : WorldStateSnapshot ν} (h : NoNulls snapshot) :
    (worldStateItem baseline snapshot).toList.foldl replayItem baseline = some snapshot := by
  cases baseline with
  | none => rfl
  | some previous =>
    cases hpatch : mergePatchFrom snapshot previous with
    | none =>
      rw [worldStateItem, hpatch, (mergePatchFrom_eq_none _ _).mp hpatch]
      rfl
    | some patch =>
      rw [worldStateItem, hpatch]
      exact congrArg some (applyMergePatch_mergePatchFrom h hpatch)

theorem replay_recordAll (baseline : Option (WorldStateSnapshot ν))
    (snapshots : List (WorldStateSnapshot ν)) (h : ∀ snapshot ∈ snapshots, NoNulls snapshot) :
    (recordAll baseline snapshots).foldl replayItem baseline = snapshots.getLast?.or baseline := by
  induction snapshots generalizing baseline with
  | nil => rfl
  | cons snapshot snapshots ih =>
    rw [recordAll, List.foldl_append, replay_worldStateItem baseline (h snapshot List.mem_cons_self),
      ih (some snapshot) fun s hs => h s (List.mem_cons_of_mem _ hs), List.getLast?_cons]
    cases snapshots.getLast? with
    | none => rfl
    | some last => rfl

/-- **Patches replay to the live state.** Between snapshots without nulls in the second there is no
patch exactly when they are equal, and otherwise the patch leads from the first to the second. So the
replay of what a session recorded ends in its last snapshot. -/
theorem snapshot_patch_replays (ν : Type) [DecidableEq ν] :
    (∀ previous current : WorldStateSnapshot ν, NoNulls current →
      (mergePatchFrom current previous = none ↔ previous = current) ∧
      ∀ patch, mergePatchFrom current previous = some patch →
        applyMergePatch previous patch = current) ∧
    ∀ snapshots : List (WorldStateSnapshot ν), (∀ snapshot ∈ snapshots, NoNulls snapshot) →
      (recordAll none snapshots).foldl replayItem none = snapshots.getLast? := by
  constructor
  · intro previous current h
    exact ⟨mergePatchFrom_eq_none current previous, fun patch hpatch =>
      applyMergePatch_mergePatchFrom h hpatch⟩
  · intro snapshots h
    rw [replay_recordAll none snapshots h]
    cases snapshots.getLast? with
    | none => rfl
    | some last => rfl

/-- A snapshot with one section. -/
def oneSection (value : Json Nat) : WorldStateSnapshot Nat :=
  .ofGet {"cwd".toList} fun key => if key = "cwd".toList then some value else none

theorem oneSection_noNulls {value : Json Nat} (hnull : value.isNull = false)
    (hvalue : NoNullFields value) : NoNulls (oneSection value) := by
  intro key found hfound
  rw [oneSection, get?_ofGet fun k hk => by by_contra hmem; simp_all] at hfound
  obtain ⟨-, ⟨⟩⟩ := Option.ite_none_right_eq_some.mp hfound
  exact ⟨hnull, hvalue⟩

/-- An object that becomes a string is replaced. -/
theorem snapshot_patch_replays_cwd : NoNulls (oneSection (.string "/w".toList)) ∧
      ∃ patch, mergePatchFrom (oneSection (.string "/w".toList)) (oneSection (.ofMap .empty)) =
        some patch ∧
        applyMergePatch (oneSection (.ofMap .empty)) patch = oneSection (.string "/w".toList) := by
  have hcurrent : NoNulls (oneSection (.string "/w".toList)) := oneSection_noNulls rfl trivial
  obtain ⟨hnone, hreplays⟩ := (snapshot_patch_replays Nat).1 (oneSection (.ofMap .empty)) _ hcurrent
  have hdiffer : oneSection (.ofMap .empty) ≠ oneSection (.string "/w".toList) := by
    intro h
    cases congrArg (FinMap.get? · "cwd".toList) h
  obtain ⟨patch, hpatch⟩ := Option.ne_none_iff_exists'.mp (hdiffer ∘ hnone.mp)
  exact ⟨hcurrent, patch, hpatch, hreplays patch hpatch⟩

end Replay

end NovumAgent.WorldState
