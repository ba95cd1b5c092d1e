import NovumAgent.ToolOutput.Recoverable

/-!
# What failed calls leave behind

The table of outputs and the session's directory are changed at different moments, so a call that
fails in between has to take back what it has done. It does for the table. For the directory it
does not: `start_stream` creates its file before it looks for room in the table and leaves it there
when there is none, and `store_text` takes its entry back after a failed write but not the part of
the file that was written.

Behind each handle there is at most one ground for a file: a text that was stored, a stream about to
be entered, an entry of a stream, or a `remove_output` that has taken the entry out and has still to
unlink the file (`grounds`). While no step leaves a file behind (`Leaves`), a file is there exactly
when there is a ground for it (`grounded_step`); a file that was left behind stays for good
(`left_step`). So when all calls have returned, the files are the paths of the entries if and only
if no step of the run left one behind.
-/

namespace NovumAgent.ToolOutput

open Utf8 AList List

/-! ## One call -/

/-- `start_stream`, as far as the call itself goes: what creating the file came to, and the store
after it. -/
def startStream (limits : Limits) (uuid : String) (created : Bool) (world : World) :
    Except StoreError String × World :=
  let handle := handleOf uuid
  if created then
    let files := world.files.insert (pathOf handle) []
    match insertStream limits handle world.state with
    | .error e => (.error e, { world with files })
    | .ok state => (.ok handle, ⟨state, files⟩)
  else (.error .storageFailed, world)

/-- The same table, the same total and the same files. -/
structure SameStore (world world' : World) : Prop where
  outputs : ∀ handle, world'.state.outputs.lookup handle = world.state.outputs.lookup handle
  totalBytes : world'.state.totalBytes = world.state.totalBytes
  files : ∀ path, (world'.files.lookup path).isSome = (world.files.lookup path).isSome

/-- The handle is new: nothing is stored behind it. -/
structure Fresh (handle : String) (world : World) : Prop where
  entry : world.state.outputs.lookup handle = none
  file : world.files.lookup (pathOf handle) = none

theorem SameStore.refl (world : World) : SameStore world world := ⟨fun _ => rfl, rfl, fun _ => rfl⟩

variable {state state' : StoreState} {handle : String} {event : Event} {limits : Limits} {task : Task}

theorem removeEntry_reserveText {n : Nat} (hfresh : state.outputs.lookup handle = none)
    (h : reserveText limits handle n state = .ok state') (other : String) :
    (removeEntry handle state').1.outputs.lookup other = state.outputs.lookup other ∧
      (removeEntry handle state').1.totalBytes = state.totalBytes := by
  obtain ⟨-, -, rfl⟩ := reserveText_ok h
  rw [removeEntry_of_some (lookup_insert _)]
  refine ⟨?_, Nat.add_sub_cancel ..⟩
  dsimp only
  by_cases heq : other = handle
  · rw [heq, lookup_erase, hfresh]
  · rw [lookup_erase_ne heq, lookup_insert_ne heq]

/-- A `store_text` refuses this text before it writes: it is too large by itself, there are as many
outputs as there may be, or there is no room for its bytes. -/
def RefusesText (limits : Limits) (content : Text) (state : StoreState) : Prop :=
  limits.maxOutputBytes < byteLen content ∨ limits.maxOutputs ≤ state.outputs.size ∨
    limits.maxTotalOutputBytes < saturatingAdd state.totalBytes (byteLen content)

theorem reserveText_error {e : StoreError} {content : Text}
    (h : reserveText limits handle (byteLen content) state = .error e) :
    RefusesText limits content state := by
  unfold reserveText at h
  split_ifs at h with hfull
  exact .inr hfull

theorem not_refusesText {content : Text} (hlarge : ¬ limits.maxOutputBytes < byteLen content)
    (h : reserveText limits handle (byteLen content) state = .ok state') :
    ¬ RefusesText limits content state := by
  unfold reserveText at h
  split_ifs at h with hfull
  exact not_or_intro hlarge hfull

/-- **A `store_text` that failed leaves no trace just if the store refused its text**, or its write left
no file. -/
theorem storeText_sameStore_iff {uuid : String} {write : WriteResult}
    {content : Text} {world world' : World} {e : StoreError} (hfresh : Fresh (handleOf uuid) world)
    (h : storeText limits uuid write content world = (.error e, world')) :
    SameStore world world' ↔ RefusesText limits content world.state ∨ write = .failed none := by
  unfold storeText at h
  split_ifs at h with hlarge
  · cases h
    exact iff_of_true (.refl _) (.inl (.inl hlarge))
  · cases hreserve : reserveText limits (handleOf uuid) (byteLen content) world.state with
    | error e' =>
      simp only [hreserve] at h
      cases h
      exact iff_of_true (.refl _) (.inl (reserveText_error hreserve))
    | ok state =>
      simp only [hreserve] at h
      cases write with
      | ok => cases h
      | failed left =>
        cases h
        have hback := removeEntry_reserveText hfresh.entry hreserve
        cases left with
        | none =>
          refine iff_of_true ⟨fun other => (hback other).1, (hback "").2, fun path => ?_⟩ (.inr rfl)
          by_cases hpath : path = pathOf (handleOf uuid)
          · rw [hpath, hfresh.file]
            simp only [writeFile, lookup_erase]
          · simp only [writeFile, lookup_erase_ne hpath]
        | some left =>
          refine iff_of_false (fun hsame => ?_) (not_or_intro (not_refusesText hlarge hreserve) nofun)
          have hfile := hsame.files (pathOf (handleOf uuid))
          rw [hfresh.file] at hfile
          simp only [writeFile, lookup_insert] at hfile
          cases hfile

/-- **A `start_stream` that failed leaves no trace just if it did not create its file in a full
store.** -/
theorem startStream_sameStore_iff {uuid : String} {created : Bool}
    {world world' : World} {e : StoreError} (hfresh : Fresh (handleOf uuid) world)
    (h : startStream limits uuid created world = (.error e, world')) :
    SameStore world world' ↔ ¬ (created = true ∧ limits.maxOutputs ≤ world.state.outputs.size) := by
  unfold startStream at h
  cases created with
  | false =>
    cases h
    exact iff_of_true (.refl _) nofun
  | true =>
    simp only [if_true] at h
    cases hinsert : insertStream limits (handleOf uuid) world.state with
    | ok state =>
      simp only [hinsert] at h
      cases h
    | error e' =>
      simp only [hinsert] at h
      cases h
      unfold insertStream at hinsert
      split_ifs at hinsert with hfull
      refine iff_of_false (fun hsame => ?_) fun hnot => hnot ⟨rfl, hfull⟩
      have hfile := hsame.files (pathOf (handleOf uuid))
      rw [hfresh.file] at hfile
      simp only [lookup_insert] at hfile
      cases hfile

/-! ## The grounds for a file -/

/-- There is a file behind the handle. -/
def present (handle : String) (world : World) : Bool := (world.files.lookup (pathOf handle)).isSome

/-- One if the handle is in the table. -/
def entries (handle : String) (state : StoreState) : Nat :=
  (state.outputs.lookup handle).isSome.toNat

/-- The entry is out and the file is still to be unlinked. -/
def RemovePc.unlinks : RemovePc → Bool
  | .locking => false
  | .unlinking _ => true

/-- The same of the closing of a stream. -/
def ClosePc.unlinks : ClosePc → Bool
  | .disabling => false
  | .removing pc => pc.unlinks

/-- The same of a call. -/
def Task.unlinks : Task → Bool
  | .append _ (.closing pc) => pc.unlinks
  | .discard (some pc) => pc.unlinks
  | _ => false

/-- The same of the writer. -/
def Writer.unlinks : Writer → Bool
  | .failing _ pc => pc.unlinks
  | .closing _ pc => pc.unlinks
  | _ => false

/-- How many are about to unlink the file of a stream. -/
def Stream.unlinkers (stream : Stream) : Nat :=
  stream.writer.unlinks.toNat + stream.tasks.countP Task.unlinks

/-- The grounds for a file behind a handle. -/
def grounds (handle : String) (state : StoreState) : Option Object → Nat
  | some (.text _ (.returned (.ok _))) => 1
  | some (.opening .inserting) => 1
  | some (.stream stream) => entries handle state + stream.unlinkers
  | _ => 0

/-- What an object says of the entry behind its handle; with a stream there is one ground for its
file at most. -/
def Entered (handle : String) (state : StoreState) : Option Object → Prop
  | some (.text _ .writing) | some (.text _ .releasing) | some (.text _ (.returned (.ok _))) =>
    entries handle state = 1
  | some (.stream stream) => entries handle state + stream.unlinkers ≤ 1
  | _ => entries handle state = 0

/-- A step that leaves a file behind: a write that failed and left one, a stream that finds no room
for its entry, or an unlinking that failed. -/
def leaves (limits : Limits) (state : StoreState) : Event → Option Object → Bool
  | .text _ (.failed (some _)), some (.text _ .writing) => true
  | .opening _ _, some (.opening .inserting) => limits.maxOutputs ≤ state.outputs.size
  | .task _ i .failed, some (.stream stream) => (stream.tasks[i]?).any Task.unlinks
  | .writer _ .failed, some (.stream stream) => stream.writer.unlinks
  | _, _ => false

/-- What `remove_output` does: the lock section hands the ground over from the entry to the caller,
and the unlinking uses it up. -/
def Moves (handle : String) (outcome : Outcome) (unlinks unlinks' : Bool) (world world' : World) :
    Prop :=
  if unlinks then
    entries handle world'.state = entries handle world.state ∧ unlinks' = false ∧
      present handle world' = (present handle world && outcome == .failed)
  else
    entries handle world'.state + unlinks'.toNat = entries handle world.state ∧
      present handle world' = present handle world

section Moves

variable {limits : Limits} {handle : String} {outcome : Outcome} {world world' : World}
  {stream stream' : Stream} {i : Nat} {task task' : Task}

theorem Moves.still (hentry : entries handle world'.state = entries handle world.state)
    (hfile : present handle world' = present handle world) :
    Moves handle outcome false false world world' := ⟨hentry, hfile⟩

theorem Moves.refl : Moves handle outcome false false world world := .still rfl rfl

variable {unlinks : Bool}

theorem moves_stepRemove {pc : RemovePc} (hok : pc.Ok handle world.state)
    (hnext : unlinks = (stepRemove handle outcome world pc).2.any RemovePc.unlinks) :
    Moves handle outcome pc.unlinks unlinks world (stepRemove handle outcome world pc).1 := by
  subst hnext
  cases pc with
  | locking =>
    cases hlookup : world.state.outputs.lookup handle with
    | none =>
      simp only [stepRemove, removeEntry_of_none hlookup]
      exact Moves.refl
    | some output =>
      simp only [stepRemove, removeEntry_of_some hlookup]
      refine ⟨?_, rfl⟩
      simp [entries, hlookup, RemovePc.unlinks]
  | unlinking path =>
    obtain ⟨rfl, -⟩ := hok
    cases outcome with
    | ok more => exact ⟨rfl, rfl, by simp [stepRemove, present]⟩
    | failed => exact ⟨rfl, rfl, by simp [stepRemove]⟩

theorem moves_stepClose {pc : ClosePc} (hok : pc.Ok handle world.state)
    (hnext : unlinks = (stepClose handle outcome world stream pc).2.2.any ClosePc.unlinks) :
    Moves handle outcome pc.unlinks unlinks world (stepClose handle outcome world stream pc).1 := by
  subst hnext
  cases pc with
  | disabling => exact Moves.refl
  | removing pc =>
    refine moves_stepRemove hok ?_
    show ((stepRemove handle outcome world pc).2.map ClosePc.removing).any ClosePc.unlinks = _
    rw [Option.any_map]
    rfl

theorem moves_stepTask (hok : task.Ok handle world.state)
    (h : TaskStep handle i outcome world stream task world' stream' task') :
    Moves handle outcome task.unlinks task'.unlinks world world' ∧
      stream'.writer = stream.writer := by
  cases h with
  | @closing bytes pc =>
    refine ⟨moves_stepClose hok ?_, writer_stepClose handle outcome world pc⟩
    cases (stepClose handle outcome world stream pc).2.2 <;> rfl
  | @discarding pc =>
    refine ⟨moves_stepClose hok ?_, writer_stepClose handle outcome world pc⟩
    cases (stepClose handle outcome world stream pc).2.2 <;> rfl
  | _ => exact ⟨Moves.refl, rfl⟩

theorem moves_stepWriter (hok : stream.writer.Ok handle world.state)
    (h : WriterStep limits handle outcome world stream world' stream') :
    Moves handle outcome stream.writer.unlinks stream'.writer.unlinks world world' := by
  cases h with
  | reserved hwriter hreserve =>
    obtain ⟨output, hlookup, -, -, -, hstate⟩ := reserveAppend_ok hreserve
    rw [hwriter]
    refine Moves.still ?_ rfl
    simp only [entries, hstate, lookup_insert, hlookup, Option.isSome_some]
  | @failing chunk pc hwriter =>
    rw [hwriter] at hok ⊢
    refine moves_stepRemove hok ?_
    cases (stepRemove handle outcome world pc).2 <;> rfl
  | @closing chunk pc hwriter =>
    rw [hwriter] at hok ⊢
    refine moves_stepClose hok ?_
    cases (stepClose handle outcome world stream pc).2.2 <;> rfl
  | received hwriter | skipped hwriter | admitted hwriter | refused hwriter | unopened hwriter
  | opened hwriter | wrote hwriter | broke hwriter | handed hwriter | finished hwriter =>
    rw [hwriter]
    exact Moves.refl

/-- A background write creates and removes nothing. -/
theorem present_stepBackground {slot : Option Nat} (handle : String)
    (h : BackgroundStep outcome world stream slot world' stream') :
    present handle world' = present handle world := by
  have happend : ∀ path bytes, ((appendFile path bytes world.files).lookup (pathOf handle)).isSome =
      (world.files.lookup (pathOf handle)).isSome := by
    intro path bytes
    by_cases hpath : pathOf handle = path
    · subst hpath
      cases hfile : world.files.lookup (pathOf handle) with
      | none => simp only [appendFile, hfile]
      | some content => rw [lookup_appendFile hfile, Option.isSome_some, Option.isSome_some]
    · rw [lookup_appendFile_ne hpath]
  cases h with
  | landed | arrived => exact happend _ _
  | _ => rfl

theorem unlinkers_stepBackground {slot : Option Nat}
    (h : BackgroundStep outcome world stream slot world' stream') :
    stream'.unlinkers = stream.unlinkers := by
  cases h with
  | landed hwriter | unseen hwriter | seen hwriter =>
    rw [Stream.unlinkers, Stream.unlinkers, hwriter]
    rfl
  | arrived | lost => rfl

end Moves

/-! ## One step -/

/-- A file is there exactly when there is a ground for it. -/
def Grounded (handle : String) (world : World) (object : Option Object) : Prop :=
  present handle world = true ↔ 0 < grounds handle world.state object

/-- An object that creates no file any more. -/
def Object.Spent : Object → Prop
  | .text _ .releasing | .text _ (.returned (.error _)) | .opening (.failed _) | .stream _ => True
  | _ => False

/-- A file that was left behind. -/
structure Left (handle : String) (world : World) (object : Object) : Prop where
  file : present handle world = true
  groundless : grounds handle world.state (some object) = 0
  spent : object.Spent

section Object

variable {limits : Limits} {handle : String} {outcome : Outcome} {world world' : World}
  {stream stream' : Stream} {object object' : Object}

/-- What a step of a stream does to the grounds for its file: nothing, or an unlinking uses up the
last one. -/
structure StreamMoves (handle : String) (outcome : Outcome) (unlinks : Bool) (world world' : World)
    (stream stream' : Stream) : Prop where
  still : unlinks = false →
    entries handle world'.state + stream'.unlinkers = entries handle world.state + stream.unlinkers ∧
      present handle world' = present handle world
  used : unlinks = true → entries handle world.state + stream.unlinkers =
        entries handle world'.state + stream'.unlinkers + 1 ∧
      present handle world' = (present handle world && outcome == .failed)

theorem Moves.streamMoves {unlinks' : Bool} {others : Nat}
    (h : Moves handle outcome unlinks unlinks' world world')
    (hbefore : stream.unlinkers = unlinks.toNat + others)
    (hafter : stream'.unlinkers = unlinks'.toNat + others) :
    StreamMoves handle outcome unlinks world world' stream stream' := by
  constructor
  · rintro rfl
    obtain ⟨hentry, hfile⟩ := h
    rw [hbefore, hafter]
    exact ⟨by rw [← hentry, Bool.toNat_false]; omega, hfile⟩
  · rintro rfl
    obtain ⟨hentry, rfl, hfile⟩ := h
    rw [hbefore, hafter]
    exact ⟨by rw [hentry, Bool.toNat_true, Bool.toNat_false]; omega, hfile⟩

theorem streamMoves_stepTask {i : Nat} {task' : Task} (hi : stream.tasks[i]? = some task)
    (hok : task.Ok handle world.state)
    (h : TaskStep handle i outcome world stream task world' stream' task') :
    StreamMoves handle outcome task.unlinks world world' stream
      { stream' with tasks := stream'.tasks.set i task' } := by
  obtain ⟨hmoves, hwriter⟩ := moves_stepTask hok h
  have hset := Slots.countP_set Task.unlinks hi task'
  obtain ⟨others, hothers⟩ : ∃ others, stream.unlinkers = task.unlinks.toNat + others ∧
      stream.writer.unlinks.toNat + (stream.tasks.set i task').countP Task.unlinks =
        task'.unlinks.toNat + others := by
    refine ⟨stream.unlinkers - task.unlinks.toNat, ?_⟩
    have hmem : task.unlinks.toNat ≤ stream.tasks.countP Task.unlinks := by
      cases hunlinks : task.unlinks with
      | false => exact Nat.zero_le _
      | true => exact countP_pos_iff.mpr ⟨task, mem_of_getElem? hi, hunlinks⟩
    unfold Stream.unlinkers
    cases hunlinks : task.unlinks <;> cases hunlinks' : task'.unlinks <;>
      simp only [hunlinks, hunlinks', Bool.toNat_true, Bool.toNat_false, if_true,
        Bool.false_eq_true, if_false] at hset hmem ⊢ <;> omega
  refine hmoves.streamMoves hothers.1 ?_
  rw [← hothers.2]
  simp only [Stream.unlinkers, hwriter, tasks_stepTask h]

theorem unlinkers_push (h : task.unlinks = false) :
    ({ stream with tasks := stream.tasks ++ [task] } : Stream).unlinkers = stream.unlinkers := by
  simp [Stream.unlinkers, countP_append, h]

theorem unlinkers_respond (totalBytes : Nat) (policy : TruncationPolicy) :
    (stream.respond totalBytes policy).unlinkers = stream.unlinkers := by
  unfold Stream.respond
  split_ifs
  · exact unlinkers_push rfl
  · exact unlinkers_push rfl
  · rfl

/-- What a step does: the object stays in step with the entry; a file that was grounded is so after
it, or was left behind by it; and one that was left behind stays. -/
structure Traced (limits : Limits) (event : Event) (world world' : World) (before : Option Object)
    (object : Object) : Prop where
  entered : Entered event.handle world'.state (some object)
  kept : leaves limits world.state event before = false → Grounded event.handle world before →
    Grounded event.handle world' (some object)
  left : leaves limits world.state event before = true → Grounded event.handle world before →
    Left event.handle world' object
  stays : ∀ spent, before = some spent → Left event.handle world spent →
    Left event.handle world' object

theorem traced_of_streamMoves (hentered : Entered event.handle world.state (some (.stream stream)))
    (hmoves : StreamMoves event.handle outcome unlinks world world' stream stream')
    (hleaves : leaves limits world.state event (some (.stream stream)) =
      (unlinks && outcome == .failed)) :
    Traced limits event world world' (some (.stream stream)) (.stream stream') := by
  have hle : entries event.handle world.state + stream.unlinkers ≤ 1 := hentered
  cases unlinks with
  | false =>
    obtain ⟨hgrounds, hfile⟩ := hmoves.still rfl
    refine ⟨hgrounds.trans_le hle, fun _ hgrounded => ?_, fun hleft => ?_,
      fun spent hspent hleft => ?_⟩
    · show present event.handle world' = true ↔ 0 < _ + stream'.unlinkers
      rw [hfile, hgrounds]
      exact hgrounded
    · rw [hleaves] at hleft
      cases hleft
    · cases hspent
      exact ⟨hfile.trans hleft.file, hgrounds.trans hleft.groundless, trivial⟩
  | true =>
    obtain ⟨hgrounds, hfile⟩ := hmoves.used rfl
    have hnone : entries event.handle world'.state + stream'.unlinkers = 0 := by omega
    have hone : 0 < entries event.handle world.state + stream.unlinkers := by omega
    refine ⟨?_, fun hnot hgrounded => ?_, fun hleft hgrounded => ?_, fun spent hspent hleft => ?_⟩
    · exact hnone.trans_le (Nat.zero_le 1)
    · rw [hleaves, Bool.true_and] at hnot
      rw [hnot, Bool.and_false] at hfile
      show present event.handle world' = true ↔ 0 < _ + stream'.unlinkers
      rw [hfile, hnone]
      exact iff_of_false nofun (lt_irrefl 0)
    · rw [hleaves, Bool.true_and] at hleft
      have hpresent : present event.handle world = true := hgrounded.mpr hone
      rw [hleft, hpresent] at hfile
      exact ⟨hfile, hnone, trivial⟩
    · cases hspent
      have hzero : entries event.handle world.state + stream.unlinkers = 0 := hleft.groundless
      omega

theorem traced_of_still (hentered : Entered event.handle world.state (some (.stream stream)))
    (hleaves : leaves limits world.state event (some (.stream stream)) = false)
    (hstate : world'.state = world.state)
    (hfile : present event.handle world' = present event.handle world)
    (hunlinkers : stream'.unlinkers = stream.unlinkers) :
    Traced limits event world world' (some (.stream stream)) (.stream stream') := by
  have hstill : Moves event.handle .failed false false world world' := .still (hstate ▸ rfl) hfile
  have hbefore : stream.unlinkers = false.toNat + stream.unlinkers := (zero_add _).symm
  exact traced_of_streamMoves hentered (hstill.streamMoves hbefore (hunlinkers.trans hbefore)) hleaves

theorem Traced.of_unspent (hspent : ¬ object.Spent)
    (hentered : Entered event.handle world'.state (some object'))
    (hkept : leaves limits world.state event (some object) = false →
      Grounded event.handle world (some object) → Grounded event.handle world' (some object'))
    (hleft : leaves limits world.state event (some object) = true →
      Grounded event.handle world (some object) → Left event.handle world' object') :
    Traced limits event world world' (some object) object' := by
  refine ⟨hentered, hkept, hleft, ?_⟩
  rintro _ ⟨⟩ hbefore
  exact absurd hbefore.spent hspent

theorem writing_of_leaves {write : WriteResult} {content : Text} {pc : TextPc}
    (h : leaves limits state (.text handle write) (some (.text content pc)) = true) : pc = .writing := by
  unfold leaves at h
  split at h
  next heq =>
    cases heq
    rfl
  next heq => cases heq
  next heq => cases heq
  next heq => cases heq
  next => cases h

/-- **Every step is traced.** -/
theorem traced_stepObject {before : Option Object} {gives : List String}
    (hentered : Entered event.handle world.state before) (hheld : Held False event.handle world before)
    (h : ObjectStep limits world event before world' object gives) :
    Traced limits event world world' before object := by
  cases h with
  | storeText | startStream => exact ⟨hentered, fun _ hgrounded => hgrounded, nofun, nofun⟩
  | textRefused hreserve =>
    exact .of_unspent id hentered (fun _ hgrounded => hgrounded) fun hleft => nomatch writing_of_leaves hleft
  | @textReserved handle _ _ state hreserve =>
    obtain ⟨-, -, hstate⟩ := reserveText_ok hreserve
    refine .of_unspent id ?_ (fun _ hgrounded => hgrounded) fun hleft => nomatch writing_of_leaves hleft
    show entries handle state = 1
    simp [entries, hstate]
  | @textWritten handle =>
    refine .of_unspent id hentered (fun _ _ => ?_) nofun
    show present handle _ = true ↔ 0 < 1
    simp [present]
  | @textFailed handle _ left =>
    cases left with
    | none =>
      refine .of_unspent id hentered (fun _ _ => ?_) nofun
      show present handle _ = true ↔ 0 < 0
      simp [present, writeFile]
    | some left =>
      refine .of_unspent id hentered nofun fun _ _ => ⟨?_, rfl, trivial⟩
      show present handle _ = true
      simp [present, writeFile]
  | @textReleased handle =>
    refine ⟨?_, fun _ hgrounded => hgrounded, fun hleft => (nomatch writing_of_leaves hleft), ?_⟩
    · show entries handle (removeEntry handle world.state).1 = 0
      cases hlookup : world.state.outputs.lookup handle with
      | none => simp [entries, removeEntry_of_none hlookup, hlookup]
      | some output => simp [entries, removeEntry_of_some hlookup]
    · rintro _ ⟨⟩ hleft
      exact ⟨hleft.file, rfl, trivial⟩
  | @created handle =>
    refine .of_unspent id hentered (fun _ _ => ?_) nofun
    show present handle _ = true ↔ 0 < 1
    simp [present]
  | uncreated => exact .of_unspent id hentered (fun _ hgrounded => hgrounded) nofun
  | refused hinsert =>
    unfold insertStream at hinsert
    split_ifs at hinsert with hfull
    refine .of_unspent id hentered (fun hnot => ?_) fun _ hgrounded => ⟨?_, rfl, trivial⟩
    · exact absurd hfull (of_decide_eq_false hnot)
    · exact hgrounded.mpr Nat.one_pos
  | @inserted handle _ state hinsert =>
    obtain ⟨hroom, rfl⟩ := insertStream_ok hinsert
    have hone : grounds handle ⟨world.state.outputs.insert handle ⟨pathOf handle, 0⟩,
        world.state.totalBytes⟩ (some (.stream .new)) = 1 := by
      simp [grounds, entries, Stream.unlinkers, Stream.new, Writer.unlinks]
    refine .of_unspent id (le_of_eq hone) (fun _ hgrounded => ?_) fun hleft => ?_
    · show present handle world = true ↔ 0 < grounds handle _ _
      rw [hone]
      exact hgrounded
    · exact absurd (of_decide_eq_true hleft) (not_le.mpr hroom)
  | append => exact traced_of_still hentered rfl rfl rfl (unlinkers_push rfl)
  | exit => exact traced_of_still hentered rfl rfl rfl rfl
  | respond => exact traced_of_still hentered rfl rfl rfl (unlinkers_respond _ _)
  | background hstep =>
    exact traced_of_still hentered rfl (state_stepBackground hstep)
      (present_stepBackground _ hstep) (unlinkers_stepBackground hstep)
  | @task handle i outcome stream task _ _ _ hi hstep =>
    have hok := hheld.filed.task task (mem_of_getElem? hi)
    refine traced_of_streamMoves hentered (streamMoves_stepTask hi hok hstep) ?_
    cases outcome with
    | ok more => exact (Bool.and_false _).symm
    | failed =>
      show (stream.tasks[i]?).any Task.unlinks = _
      rw [hi]
      exact (Bool.and_true _).symm
  | @writer handle outcome _ _ _ hstep =>
    have hmoves := (moves_stepWriter hheld.filed.writer hstep).streamMoves rfl (by
      rw [Stream.unlinkers, tasks_stepWriter hstep])
    refine traced_of_streamMoves hentered hmoves ?_
    cases outcome with
    | ok more => exact (Bool.and_false _).symm
    | failed => exact (Bool.and_true _).symm

end Object

/-! ## Every run -/

/-- All that is known of a session whatever its steps left behind: its objects are in step with the
table, an entry has the path of its handle, and a file is behind the handle of an object. -/
structure Tidy (limits : Limits) (session : Session) : Prop where
  kept : Kept (fun _ => False) limits session
  entered : ∀ handle, Entered handle session.world.state (session.objects.lookup handle)
  path : ∀ handle output, session.world.state.outputs.lookup handle = some output →
    output.path = pathOf handle
  owner : ∀ path, (session.world.files.lookup path).isSome →
    ∃ handle object, path = pathOf handle ∧ session.objects.lookup handle = some object

/-- The step leaves a file behind. -/
def Leaves (limits : Limits) (session : Session) (event : Event) : Prop :=
  leaves limits session.world.state event (session.objects.lookup event.handle) = true

instance (limits : Limits) (session : Session) (event : Event) :
    Decidable (Leaves limits session event) :=
  inferInstanceAs (Decidable (leaves limits session.world.state event _ = true))

/-- Every file of the session is grounded. -/
def Session.Grounded (session : Session) : Prop :=
  ∀ handle, ToolOutput.Grounded handle session.world (session.objects.lookup handle)

/-- A file of the session was left behind. -/
def Session.Left (session : Session) : Prop :=
  ∃ handle object, session.objects.lookup handle = some object ∧
    ToolOutput.Left handle session.world object

section Run

variable {limits : Limits} {session session' : Session} {event : Event} {events : List Event}

theorem Section.path (hsec : Section limits handle state state')
    (hpath : ∀ other output, state.outputs.lookup other = some output → output.path = pathOf other) :
    ∀ other output, state'.outputs.lookup other = some output → output.path = pathOf other := by
  cases hsec with
  | none => exact hpath
  | text habsent hlen h =>
    obtain ⟨-, -, rfl⟩ := reserveText_ok h
    exact Table.forall_insert hpath rfl
  | stream habsent h =>
    obtain ⟨-, rfl⟩ := insertStream_ok h
    exact Table.forall_insert hpath rfl
  | append h =>
    obtain ⟨found, hfound, -, -, -, rfl⟩ := reserveAppend_ok h
    exact Table.forall_insert hpath (hpath handle found hfound)
  | remove =>
    cases hfound : state.outputs.lookup handle with
    | none =>
      rw [removeEntry_of_none hfound]
      exact hpath
    | some found =>
      rw [removeEntry_of_some hfound]
      exact Table.forall_erase hpath

theorem Entered.congr {object : Option Object} (hentered : Entered handle state object)
    (h : state'.outputs.lookup handle = state.outputs.lookup handle) :
    Entered handle state' object := by
  unfold Entered entries at hentered ⊢
  rw [h]
  exact hentered

theorem grounds_congr (object : Option Object)
    (h : state'.outputs.lookup handle = state.outputs.lookup handle) :
    grounds handle state' object = grounds handle state object := by
  unfold grounds entries
  rw [h]

theorem tidy_step_cases (htidy : Tidy limits session) (h : step limits session event = some session') :
    (∃ object, session'.objects.lookup event.handle = some object ∧
      Traced limits event session.world session'.world (session.objects.lookup event.handle)
        object) ∧
    Section limits event.handle session.world.state session'.world.state ∧
    ∀ other, other ≠ event.handle → session'.objects.lookup other = session.objects.lookup other ∧
      session'.world.state.outputs.lookup other = session.world.state.outputs.lookup other ∧
      present other session'.world = present other session.world := by
  obtain ⟨world, object, gives, hobject, rfl⟩ := step_some h
  have hheld := htidy.kept.held event.handle
  obtain ⟨hsec, -⟩ := section_stepObject (htidy.kept.sound.unentered event.handle) hobject
  refine ⟨⟨object, lookup_insert _,
    traced_stepObject (htidy.entered event.handle) hheld hobject⟩, hsec, fun other hne => ?_⟩
  refine ⟨lookup_insert_ne hne, hsec.lookup_ne hne, ?_⟩
  unfold present
  rw [files_stepObject hheld hobject fun hpath => hne (pathOf_injective hpath)]

theorem tidy_step (htidy : Tidy limits session) (h : step limits session event = some session') :
    Tidy limits session' := by
  obtain ⟨⟨object, hobject, htraced⟩, hsec, hothers⟩ := tidy_step_cases htidy h
  refine ⟨kept_step htidy.kept nofun h, fun other => ?_, hsec.path htidy.path, fun path hpath => ?_⟩
  · by_cases hne : other = event.handle
    · subst hne
      rw [hobject]
      exact htraced.entered
    · obtain ⟨hlookup, hentry, -⟩ := hothers other hne
      rw [hlookup]
      exact (htidy.entered other).congr hentry
  · by_cases hown : path = pathOf event.handle
    · exact ⟨event.handle, object, hown, hobject⟩
    · obtain ⟨world, object', gives, hstep, rfl⟩ := step_some h
      rw [files_stepObject (htidy.kept.held event.handle) hstep hown] at hpath
      obtain ⟨handle, owner, rfl, howner⟩ := htidy.owner path hpath
      have hne : handle ≠ event.handle := fun heq => hown (congrArg pathOf heq)
      exact ⟨handle, owner, rfl, (lookup_insert_ne hne).trans howner⟩

theorem tidy_new (limits : Limits) : Tidy limits .new := by
  refine ⟨kept_new _ limits, fun handle => ?_, nofun, nofun⟩
  show Entered handle _ ((∅ : Table String Object).lookup handle)
  rw [lookup_empty]
  rfl

/-- **A step that leaves nothing behind keeps every file grounded.** -/
theorem grounded_step (htidy : Tidy limits session) (hgrounded : session.Grounded)
    (hleaves : ¬ Leaves limits session event) (h : step limits session event = some session') :
    session'.Grounded := by
  obtain ⟨⟨object, hobject, htraced⟩, -, hothers⟩ := tidy_step_cases htidy h
  intro other
  by_cases hne : other = event.handle
  · subst hne
    rw [hobject]
    exact htraced.kept (Bool.not_eq_true _ ▸ hleaves) (hgrounded event.handle)
  · obtain ⟨hlookup, hentry, hfile⟩ := hothers other hne
    rw [hlookup, ToolOutput.Grounded, hfile, grounds_congr _ hentry]
    exact hgrounded other

theorem left_of_leaves (htidy : Tidy limits session) (hgrounded : session.Grounded)
    (hleaves : Leaves limits session event) (h : step limits session event = some session') :
    session'.Left := by
  obtain ⟨⟨object, hobject, htraced⟩, -, -⟩ := tidy_step_cases htidy h
  exact ⟨event.handle, object, hobject, htraced.left hleaves (hgrounded event.handle)⟩

/-- **A file that was left behind stays.** -/
theorem left_step (htidy : Tidy limits session) (hleft : session.Left)
    (h : step limits session event = some session') : session'.Left := by
  obtain ⟨⟨object, hobject, htraced⟩, -, hothers⟩ := tidy_step_cases htidy h
  obtain ⟨handle, spent, hspent, hleft⟩ := hleft
  by_cases hne : handle = event.handle
  · subst hne
    exact ⟨event.handle, object, hobject, htraced.stays spent hspent hleft⟩
  · obtain ⟨hlookup, hentry, hfile⟩ := hothers handle hne
    exact ⟨handle, spent, hlookup.trans hspent, hfile.trans hleft.file,
      (grounds_congr _ hentry).trans hleft.groundless, hleft.spent⟩

theorem run_cases {start : Session} (htidy : Tidy limits start)
    (hgrounded : start.Grounded) (hrun : Machine.run (step limits) start events = some session) :
    (Machine.Along (step limits) (fun s e => ¬ Leaves limits s e) start events ∧ session.Grounded) ∨
      (¬ Machine.Along (step limits) (fun s e => ¬ Leaves limits s e) start events ∧
        session.Left) := by
  induction events generalizing start with
  | nil =>
    cases hrun
    exact .inl ⟨trivial, hgrounded⟩
  | cons event events ih =>
    obtain ⟨next, hstep, hrest⟩ := Machine.run_cons_eq_some.mp hrun
    have hnext := tidy_step htidy hstep
    by_cases hleaves : Leaves limits start event
    · refine .inr ⟨fun halong => halong.1 hleaves, ?_⟩
      have hinv : ∀ s e s', (Tidy limits s ∧ s.Left) → step limits s e = some s' →
          Tidy limits s' ∧ s'.Left := fun s e s' hs h => ⟨tidy_step hs.1 h, left_step hs.1 hs.2 h⟩
      exact (Machine.run_invariant hinv ⟨hnext, left_of_leaves htidy hgrounded hleaves hstep⟩
        hrest).2
    · rcases ih hnext (grounded_step htidy hgrounded hleaves hstep) hrest with
        ⟨halong, hend⟩ | ⟨halong, hend⟩
      · refine .inl ⟨⟨hleaves, fun s hs => ?_⟩, hend⟩
        cases hstep.symm.trans hs
        exact halong
      · exact .inr ⟨fun hall => halong (hall.2 next hstep), hend⟩

end Run

/-! ## When all calls have returned -/

/-- The call has returned. -/
def Task.hasReturned : Task → Bool
  | .append _ .returned | .discard none | .recoverable _ (.returned _) => true
  | _ => false

/-- Nothing is going on behind a handle. -/
def Object.AtRest : Object → Prop
  | .text _ (.returned _) | .opening (.failed _) => True
  | .stream s => s.writer = .idle ∧ ∀ task ∈ s.tasks, task.hasReturned = true
  | _ => False

/-- Nothing is going on in the session. -/
def Session.Quiescent (session : Session) : Prop :=
  ∀ handle object, session.objects.lookup handle = some object → object.AtRest

/-- The files in the directory are the paths of the entries. -/
def Session.FilesMatch (session : Session) : Prop :=
  ∀ path, (session.world.files.lookup path).isSome ↔
    ∃ handle output, session.world.state.outputs.lookup handle = some output ∧ output.path = path

section Quiescent

variable {limits : Limits} {session : Session}

theorem unlinks_of_hasReturned (h : task.hasReturned = true) : task.unlinks = false := by
  cases task with
  | append bytes pc =>
    cases pc with
    | returned => rfl
    | _ => cases h
  | discard pc =>
    cases pc with
    | none => rfl
    | some pc => cases h
  | recoverable before pc => rfl

theorem grounds_of_atRest {object : Object}
    (hrest : object.AtRest) (hentered : Entered handle state (some object)) :
    grounds handle state (some object) = entries handle state := by
  match object, hrest, hentered with
  | .text _ (.returned (.ok _)), _, hentered => exact hentered.symm
  | .text _ (.returned (.error _)), _, hentered => exact hentered.symm
  | .opening (.failed _), _, hentered => exact hentered.symm
  | .stream s, ⟨hidle, htasks⟩, _ =>
    have hnone : s.tasks.countP Task.unlinks = 0 := by
      apply countP_eq_zero.mpr
      intro task htask hunlinks
      rw [unlinks_of_hasReturned (htasks task htask)] at hunlinks
      cases hunlinks
    simp [grounds, Stream.unlinkers, hidle, hnone, Writer.unlinks]

theorem entries_pos_iff :
    0 < entries handle state ↔ ∃ output, state.outputs.lookup handle = some output := by
  unfold entries
  cases state.outputs.lookup handle with
  | none => simp
  | some output => simp

theorem grounds_eq_entries (htidy : Tidy limits session) (hquiet : session.Quiescent)
    (handle : String) :
    grounds handle session.world.state (session.objects.lookup handle) =
      entries handle session.world.state := by
  have hentered := htidy.entered handle
  cases hobject : session.objects.lookup handle with
  | none =>
    rw [hobject] at hentered
    exact hentered.symm
  | some object =>
    rw [hobject] at hentered
    exact grounds_of_atRest (hquiet handle object hobject) hentered

theorem filesMatch_of_grounded (htidy : Tidy limits session) (hquiet : session.Quiescent)
    (hgrounded : session.Grounded) : session.FilesMatch := by
  have hiff : ∀ handle, present handle session.world = true ↔
      ∃ output, session.world.state.outputs.lookup handle = some output := by
    intro handle
    rw [← entries_pos_iff, ← grounds_eq_entries htidy hquiet handle]
    exact hgrounded handle
  intro path
  constructor
  · intro hpath
    obtain ⟨handle, object, rfl, -⟩ := htidy.owner path hpath
    obtain ⟨output, houtput⟩ := (hiff handle).mp hpath
    exact ⟨handle, output, houtput, htidy.path handle output houtput⟩
  · rintro ⟨handle, output, houtput, rfl⟩
    rw [htidy.path handle output houtput]
    exact (hiff handle).mpr ⟨output, houtput⟩

theorem not_filesMatch_of_left (htidy : Tidy limits session) (hquiet : session.Quiescent)
    (hleft : session.Left) : ¬ session.FilesMatch := by
  intro hmatch
  obtain ⟨handle, object, hobject, hleft⟩ := hleft
  obtain ⟨other, output, houtput, hpath⟩ := (hmatch (pathOf handle)).mp hleft.file
  rw [htidy.path other output houtput] at hpath
  rw [pathOf_injective hpath] at houtput
  have hnone := grounds_eq_entries htidy hquiet handle
  rw [hobject, hleft.groundless] at hnone
  exact absurd (entries_pos_iff.mpr ⟨output, houtput⟩) (hnone ▸ lt_irrefl 0)

end Quiescent

/-- **When failed calls leave no trace.** A `store_text` that failed leaves the store as it was just
if the store refused its text or its write left no file; a `start_stream` that failed, just if it did
not create its file in a full store; and in every run, when nothing is going on any more, the files are
the paths of the entries just if no step of the run left a file behind. -/
theorem failed_calls_traceless_iff (limits : Limits) :
    (∀ uuid write content world e world', Fresh (handleOf uuid) world →
      storeText limits uuid write content world = (.error e, world') →
        (SameStore world world' ↔ RefusesText limits content world.state ∨ write = .failed none)) ∧
    (∀ uuid created world e world', Fresh (handleOf uuid) world →
      startStream limits uuid created world = (.error e, world') →
        (SameStore world world' ↔
          ¬ (created = true ∧ limits.maxOutputs ≤ world.state.outputs.size))) ∧
    ∀ events session, Machine.run (step limits) .new events = some session → session.Quiescent →
      (session.FilesMatch ↔
        Machine.Along (step limits) (fun s e => ¬ Leaves limits s e) .new events) := by
  refine ⟨fun uuid write content world e world' hfresh h => storeText_sameStore_iff hfresh h,
    fun uuid created world e world' hfresh h => startStream_sameStore_iff hfresh h,
    fun events session hrun hquiet => ?_⟩
  have hinv : ∀ s e s', Tidy limits s → step limits s e = some s' → Tidy limits s' :=
    fun s e s' hs h => tidy_step hs h
  have htidy : Tidy limits session := Machine.run_invariant hinv (tidy_new limits) hrun
  have hgrounded : Session.new.Grounded := by
    intro handle
    show ToolOutput.Grounded handle _ ((∅ : Table String Object).lookup handle)
    rw [lookup_empty]
    exact iff_of_false nofun (lt_irrefl 0)
  rcases run_cases (tidy_new limits) hgrounded hrun with ⟨halong, hend⟩ | ⟨halong, hend⟩
  · exact iff_of_true (filesMatch_of_grounded htidy hquiet hend) halong
  · exact iff_of_false (not_filesMatch_of_left htidy hquiet hend) halong

/-- The write of a text fails and leaves no file, and the call takes its entry back. -/
def unwritten : List Event :=
  [.storeText "a" "text".toList, .text "out_a" .ok, .text "out_a" (.failed none), .text "out_a" .ok]

/-- The failed call leaves an empty store as it was, and a session of nothing but this call ends with
files that are the paths of its entries. -/
theorem failed_calls_traceless_unwritten : ∃ world session,
      storeText .default "a" (.failed none) "text".toList .empty = (.error .storageFailed, world) ∧
      SameStore .empty world ∧
      Machine.run (step .default) .new unwritten = some session ∧ session.FilesMatch := by
  obtain ⟨session, hrun, content, hobjects⟩ : ∃ session,
      Machine.run (step .default) .new unwritten = some session ∧
      ∃ content : Text, session.objects =
        insert "out_a" (.text content (.returned (.error .storageFailed)))
          (insert "out_a" (.text content .releasing) (insert "out_a" (.text content .writing)
            (insert "out_a" (.text content .reserving) ∅))) :=
    ⟨_, rfl, _, rfl⟩
  obtain ⟨world, hcall⟩ : ∃ world, storeText .default "a" (.failed none) "text".toList .empty =
      (.error .storageFailed, world) := ⟨_, rfl⟩
  refine ⟨world, session, hcall, ?_, hrun, ?_⟩
  · exact ((failed_calls_traceless_iff .default).1 _ _ _ _ _ _ ⟨rfl, rfl⟩ hcall).mpr (.inr rfl)
  · refine ((failed_calls_traceless_iff .default).2.2 _ session hrun
      fun handle object hobject => ?_).mpr (by decide +kernel)
    by_cases hhandle : handle = "out_a"
    · rw [hobjects, hhandle, lookup_insert] at hobject
      cases hobject
      trivial
    · rw [hobjects, lookup_insert_ne hhandle, lookup_insert_ne hhandle, lookup_insert_ne hhandle,
        lookup_insert_ne hhandle, lookup_empty] at hobject
      cases hobject

/-- A store at its default limit: as many streams as there may be outputs. -/
def fullStore : World :=
  (range maxOutputs).foldl (fun world i =>
    (startStream .default (String.ofList (replicate (i + 1) 'a')) true world).2) .empty

/-- **The file of a refused stream stays**: `start_stream` fails because the store is full, and the
file it created for the new handle is in the directory after the call. -/
theorem startStream_leaves_file : fullStore.files.lookup (pathOf (handleOf "b")) = none ∧
      (startStream .default "b" true fullStore).1 = .error .storageFull ∧
      (startStream .default "b" true fullStore).2.state.outputs.lookup (handleOf "b") = none ∧
      (startStream .default "b" true fullStore).2.files.lookup (pathOf (handleOf "b")) =
        some [] := by
  decide +kernel

end NovumAgent.ToolOutput
