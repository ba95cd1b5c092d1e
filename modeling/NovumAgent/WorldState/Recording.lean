import NovumAgent.WorldState.MergePatch

/-!
# What a session records of its world state

The sections of the world state are rendered into a snapshot; the session moves its baseline on to it, and later
writes the record of the change. A compaction starts anew, and a resumed session takes its baseline from the
records that were written. A task that is aborted between the two steps, or a write that fails, loses the record.
As long as none is lost, the records written and those still to be written replay to the baseline, whatever the
sections render, nulls included (`records_replay`).
-/

namespace NovumAgent.WorldState

open Json FinMap List

variable {ν : Type}

/-- What a section renders: no snapshot, one of a typed section, which may be kept out of the records or fail to
serialize, or one of an extension. -/
inductive Rendered (ν : Type) where
  | skipped
  | typed (shouldPersist : Bool) (serialized : Option (Json ν))
  | extension (snapshot : Json ν)

def sectionSnapshot (shouldPersist : Bool) (serialized : Option (Json ν)) : Option (Json ν) :=
  if !shouldPersist then none else (serialized.map removeNullObjectFields).filter (!·.isNull)

/-- The snapshot of `render_diff`. -/
def Rendered.snapshot : Rendered ν → Option (Json ν)
  | .skipped => none
  | .typed shouldPersist serialized => some ((sectionSnapshot shouldPersist serialized).getD .null)
  | .extension snapshot => some (removeNullObjectFields snapshot)

/-- `render_with`, with what each section renders. -/
def renderWith (stored : Option (WorldStateSnapshot ν)) (sections : FinMap Text (Rendered ν)) :
    WorldStateSnapshot ν :=
  .ofGet sections.keys fun id =>
    ((sections.get? id).bind fun rendered =>
      rendered.snapshot.or (stored.bind (·.get? id))).filter (!·.isNull)

/-- The records that the replay looks at. -/
inductive RolloutItem (ν : Type) where
  | compacted
  | worldState (item : WorldStateItem ν)

/-- A session: its baseline, the records it has written and those it has still to write. -/
structure Recording (ν : Type) where
  baseline : Option (WorldStateSnapshot ν)
  records : List (RolloutItem ν)
  unwritten : List (RolloutItem ν)

/-- The baseline that `reconstruct_history_from_rollout` finds. -/
def replayRecords (records : List (RolloutItem ν)) : Option (WorldStateSnapshot ν) :=
  records.foldl (fun baseline record =>
    match record with
    | .compacted => none
    | .worldState item => replayItem baseline item) none

/-- What happens to a session: the world state is updated, injected in full, or rendered in full behind a
compaction; the next record is written, or lost; or the session is resumed. -/
inductive RecordingEvent (ν : Type) where
  | update (sections : FinMap Text (Rendered ν))
  | full (sections : FinMap Text (Rendered ν))
  | compact (sections : FinMap Text (Rendered ν))
  | persist
  | lose
  | resume

/-- `set_world_state_baseline`, with the records of it still to be written. -/
def Recording.move (recording : Recording ν) (snapshot : WorldStateSnapshot ν) (items : List (RolloutItem ν)) :
    Recording ν :=
  { recording with baseline := some snapshot, unwritten := recording.unwritten ++ items }

def Recording.step [DecidableEq ν] (recording : Recording ν) : RecordingEvent ν → Recording ν
  | .update sections =>
    let snapshot := renderWith recording.baseline sections
    recording.move snapshot ((worldStateItem recording.baseline snapshot).toList.map .worldState)
  | .full sections =>
    let snapshot := renderWith none sections
    recording.move snapshot [.worldState ⟨true, snapshot⟩]
  | .compact sections =>
    let snapshot := renderWith none sections
    recording.move snapshot [.compacted, .worldState ⟨true, snapshot⟩]
  | .persist =>
    { recording with
      records := recording.records ++ recording.unwritten.take 1
      unwritten := recording.unwritten.drop 1 }
  | .lose => { recording with unwritten := recording.unwritten.drop 1 }
  | .resume => ⟨replayRecords recording.records, recording.records, []⟩

theorem Rendered.noNullFields {rendered : Rendered ν} {value : Json ν} (h : rendered.snapshot = some value) :
    NoNullFields value := by
  cases rendered with
  | skipped => cases h
  | extension snapshot =>
    cases h
    exact noNullFields_removeNullObjectFields snapshot
  | typed shouldPersist serialized =>
    cases h
    cases hsection : sectionSnapshot shouldPersist serialized with
    | none => trivial
    | some value =>
      obtain ⟨-, hsection⟩ := Option.ite_none_left_eq_some.mp hsection
      obtain ⟨snapshot, -, rfl⟩ := Option.map_eq_some_iff.mp (Option.filter_eq_some_iff.mp hsection).1
      exact noNullFields_removeNullObjectFields snapshot

/-- Whatever is rendered, a snapshot has no nulls, if the stored one has none. -/
theorem noNulls_renderWith {stored : Option (WorldStateSnapshot ν)}
    (h : ∀ snapshot, stored = some snapshot → NoNulls snapshot) (sections : FinMap Text (Rendered ν)) :
    NoNulls (renderWith stored sections) := by
  intro id value hvalue
  rw [renderWith, get?_ofGet fun id hid => by by_contra hmem; simp [get?_of_notMem hmem] at hid] at hvalue
  obtain ⟨hvalue, hnull⟩ := Option.filter_eq_some_iff.mp hvalue
  refine ⟨Bool.not_eq_true' _ ▸ hnull, ?_⟩
  obtain ⟨rendered, -, hvalue⟩ := Option.bind_eq_some_iff.mp hvalue
  obtain hrendered | ⟨-, hstored⟩ := Option.or_eq_some_iff.mp hvalue
  · exact rendered.noNullFields hrendered
  · obtain ⟨snapshot, rfl, hsnapshot⟩ := Option.bind_eq_some_iff.mp hstored
    exact (h snapshot rfl id value hsnapshot).2

variable [DecidableEq ν]

/-- The records replay to the baseline, and no beginning of them to one with nulls. -/
structure Replays (records : List (RolloutItem ν)) (baseline : Option (WorldStateSnapshot ν)) : Prop where
  replays : replayRecords records = baseline
  noNulls : ∀ front rest snapshot, records = front ++ rest → replayRecords front = some snapshot →
    NoNulls snapshot

section

variable {records : List (RolloutItem ν)} {record : RolloutItem ν} {baseline : Option (WorldStateSnapshot ν)}
  {snapshot : WorldStateSnapshot ν}

omit [DecidableEq ν] in
theorem Replays.front {rest : List (RolloutItem ν)} (h : Replays (records ++ rest) baseline) :
    Replays records (replayRecords records) := by
  refine ⟨rfl, fun front middle snapshot hsplit => h.noNulls front (middle ++ rest) snapshot ?_⟩
  rw [hsplit, append_assoc]

omit [DecidableEq ν] in
/-- **One record more.** -/
theorem Replays.concat (h : Replays records baseline)
    (hnoNulls : ∀ snapshot, replayRecords (records ++ [record]) = some snapshot → NoNulls snapshot) :
    Replays (records ++ [record]) (replayRecords (records ++ [record])) := by
  refine ⟨rfl, fun front rest snapshot hsplit hreplay => ?_⟩
  obtain rfl | ⟨middle, last, rfl⟩ := eq_nil_or_concat' rest
  · rw [append_nil] at hsplit
    exact hnoNulls snapshot (hsplit ▸ hreplay)
  · rw [← append_assoc] at hsplit
    exact h.noNulls front middle snapshot (append_inj' hsplit rfl).1 hreplay

omit [DecidableEq ν] in
theorem Replays.full (h : Replays records baseline) (hnoNulls : NoNulls snapshot) :
    Replays (records ++ [.worldState ⟨true, snapshot⟩]) (some snapshot) := by
  have hreplay : replayRecords (records ++ [.worldState ⟨true, snapshot⟩]) = some snapshot := by
    rw [replayRecords, foldl_append]
    rfl
  exact hreplay ▸ h.concat fun _ hsnapshot => Option.some.inj (hreplay.symm.trans hsnapshot) ▸ hnoNulls

theorem Replays.update (h : Replays records baseline) (hnoNulls : NoNulls snapshot) :
    Replays (records ++ (worldStateItem baseline snapshot).toList.map .worldState) (some snapshot) := by
  have hreplay : replayRecords (records ++ (worldStateItem baseline snapshot).toList.map .worldState) =
      some snapshot := by
    rw [replayRecords, foldl_append, foldl_map, ← replayRecords, h.replays]
    exact replay_worldStateItem baseline hnoNulls
  cases hitem : worldStateItem baseline snapshot with
  | none =>
    rw [hitem] at hreplay
    exact ⟨hreplay, by simpa using h.noNulls⟩
  | some item =>
    rw [hitem] at hreplay
    exact hreplay ▸ h.concat fun _ hsnapshot => Option.some.inj (hreplay.symm.trans hsnapshot) ▸ hnoNulls

end

/-- What was written and what is still to be written, together. -/
def Recording.Sound (recording : Recording ν) : Prop :=
  Replays (recording.records ++ recording.unwritten) recording.baseline

theorem Recording.Sound.step {recording : Recording ν} {event : RecordingEvent ν} (h : recording.Sound)
    (hkept : event ≠ .lose) : (recording.step event).Sound := by
  have hfull : ∀ sections : FinMap Text (Rendered ν), NoNulls (renderWith none sections) :=
    noNulls_renderWith fun _ h => by cases h
  unfold Recording.Sound at h ⊢
  cases event with
  | update sections =>
    have hnoNulls := noNulls_renderWith (fun snapshot hsnapshot =>
      h.noNulls _ [] snapshot (append_nil _).symm (h.replays.trans hsnapshot)) sections
    dsimp only [Recording.step, Recording.move]
    rw [← append_assoc]
    exact h.update hnoNulls
  | full sections =>
    dsimp only [Recording.step, Recording.move]
    rw [← append_assoc]
    exact h.full (hfull sections)
  | compact sections =>
    have hcompacted : replayRecords (recording.records ++ recording.unwritten ++ [.compacted]) = none := by
      rw [replayRecords, foldl_append]
      rfl
    have hempty := h.concat fun snapshot hsnapshot => by cases hcompacted.symm.trans hsnapshot
    dsimp only [Recording.step, Recording.move]
    rw [← append_assoc, ← singleton_append, ← append_assoc]
    exact hempty.full (hfull sections)
  | persist =>
    dsimp only [Recording.step]
    rw [append_assoc, take_append_drop]
    exact h
  | lose => exact absurd rfl hkept
  | resume =>
    dsimp only [Recording.step]
    rw [append_nil]
    exact h.front

/-- **The records of a session replay to its baseline**, whatever its sections render, however often it is
compacted and resumed and wherever it is interrupted, as long as no record is lost: those that are written, with
those still to be written, give the baseline. So a session that has written all of them is resumed as if it had not
been interrupted. -/
theorem records_replay (events : List (RecordingEvent ν)) (hkept : .lose ∉ events) :
    replayRecords ((events.foldl Recording.step ⟨none, [], []⟩).records ++
        (events.foldl Recording.step ⟨none, [], []⟩).unwritten) =
      (events.foldl Recording.step ⟨none, [], []⟩).baseline := by
  have hsound : (events.foldl Recording.step (⟨none, [], []⟩ : Recording ν)).Sound := by
    refine foldlRecOn events Recording.step ⟨rfl, fun front rest snapshot hsplit hreplay => ?_⟩ ?_
    · rw [(append_eq_nil_iff.mp hsplit.symm).1] at hreplay
      cases hreplay
    · intro recording h event hmem
      exact h.step fun hlose => hkept (hlose ▸ hmem)
  exact hsound.replays

/-- One section, rendered as this value. -/
def rendersCwd (value : Json Nat) : FinMap Text (Rendered Nat) :=
  ⟨{"cwd".toList}, fun _ => .extension value⟩

/-- A session is interrupted before a change is written, and goes on from the records. -/
def interrupted : List (RecordingEvent Nat) :=
  [.full (rendersCwd (.string "/v".toList)), .persist, .update (rendersCwd (.string "/w".toList)), .resume,
    .update (rendersCwd .null), .persist]

theorem records_replay_interrupted :
    let recording := interrupted.foldl Recording.step ⟨none, [], []⟩
    recording.unwritten = [] ∧ replayRecords (recording.records ++ recording.unwritten) = recording.baseline := by
  have hwritten : ∀ item : Option (WorldStateItem Nat), (item.toList.map RolloutItem.worldState).drop 1 = [] := by
    rintro (_ | item) <;> rfl
  exact ⟨hwritten _, records_replay interrupted (by simp [interrupted])⟩

end NovumAgent.WorldState
