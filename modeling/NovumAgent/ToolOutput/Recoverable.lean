import NovumAgent.ToolOutput.Capture

/-!
# Recoverable output in every run

The invariants of one stream, carried to a whole session. A step is about one handle, and what it
does to the table and to the directory it does behind that handle (`files_stepObject`), so the
streams of all other handles keep their invariants unread. What remains is the moment at which a
`recoverable_output` returns a handle: it is a lookup that found the entry, and the entry of a prompt
stream vouches for the file.

Of a stream that is not prompt it vouches for nothing but that there is a file. The source counts a
chunk as flushed when `write_all` returns, and `recoverable_output_outrun` is a run in which the handle
of a finished process is given out while its file is still empty.
-/

namespace NovumAgent.ToolOutput

open List Utf8 Machine AList

theorem pathOf_injective {a b : String} (h : pathOf a = pathOf b) : a = b := by
  have hlist := congrArg String.toList h
  simp only [pathOf, String.toList_append, append_left_inj] at hlist
  exact String.toList_inj.mp hlist

/-- Does the event outrun a write of the stream it is about? -/
def outrunsObject (event : Event) : Option Object → Bool
  | some (.stream stream) => outruns stream event
  | _ => false

/-- The event does not outrun a write of the stream of a handle. -/
def Lands (handle : String) (session : Session) (event : Event) : Prop :=
  event.handle = handle → outrunsObject event (session.objects.lookup event.handle) = false

instance (handle : String) (session : Session) (event : Event) :
    Decidable (Lands handle session event) :=
  inferInstanceAs (Decidable (_ → _))

/-- What an object says of the file behind its handle. -/
def Held (prompt : Prop) (handle : String) (world : World) : Option Object → Prop
  | some (.stream stream) => Captured prompt handle world stream
  | some (.opening .inserting) => world.files.lookup (pathOf handle) = some []
  | _ => True

section Object

variable {prompt : Prop} {limits : Limits} {handle : String} {outcome : Outcome}
  {world world' : World} {stream stream' : Stream} {i : Nat} {task task' : Task}

/-! ## Only the handle's own file -/

variable {path : String} {object : Object} {gives : List String}

theorem files_stepRemove {pc : RemovePc} (hok : pc.Ok handle world.state) (outcome : Outcome)
    (hne : path ≠ pathOf handle) :
    (stepRemove handle outcome world pc).1.files.lookup path = world.files.lookup path := by
  cases pc with
  | locking => rfl
  | unlinking own =>
    obtain ⟨rfl, -⟩ := hok
    cases outcome with
    | ok more => exact lookup_erase_ne hne
    | failed => rfl

theorem files_stepClose {pc : ClosePc} (hok : pc.Ok handle world.state) (outcome : Outcome)
    (hne : path ≠ pathOf handle) :
    (stepClose handle outcome world stream pc).1.files.lookup path = world.files.lookup path := by
  cases pc with
  | disabling => rfl
  | removing pc => exact files_stepRemove hok outcome hne

theorem files_stepTask (hf : Filed prompt handle world stream) (hi : stream.tasks[i]? = some task)
    (h : TaskStep handle i outcome world stream task world' stream' task') (hne : path ≠ pathOf handle) :
    world'.files.lookup path = world.files.lookup path := by
  have hok := hf.task task (mem_of_getElem? hi)
  cases h with
  | closing | discarding => exact files_stepClose hok outcome hne
  | _ => rfl

theorem files_stepWriter (hf : Filed prompt handle world stream)
    (h : WriterStep limits handle outcome world stream world' stream') (hne : path ≠ pathOf handle) :
    world'.files.lookup path = world.files.lookup path := by
  have hok := hf.writer
  cases h with
  | failing hwriter =>
    rw [hwriter] at hok
    exact files_stepRemove hok outcome hne
  | closing hwriter =>
    rw [hwriter] at hok
    exact files_stepClose hok outcome hne
  | _ => rfl

theorem lookup_appendFile_ne {own : String} {bytes : Bytes} {files : Files} (hne : path ≠ own) :
    (appendFile own bytes files).lookup path = files.lookup path := by
  unfold appendFile
  cases files.lookup own with
  | none => rfl
  | some content => exact lookup_insert_ne hne

theorem files_stepBackground {slot : Option Nat} (hf : Filed prompt handle world stream)
    (h : BackgroundStep outcome world stream slot world' stream') (hne : path ≠ pathOf handle) :
    world'.files.lookup path = world.files.lookup path := by
  have hok := hf.writer
  cases h with
  | @landed chunk own byte flight rest more hwriter =>
    rw [hwriter] at hok
    exact lookup_appendFile_ne (hok ▸ hne)
  | @arrived j own byte bytes more hj =>
    have hown : own = pathOf handle := (hf.straggler _ (mem_of_getElem? hj)).1
    exact lookup_appendFile_ne (hown ▸ hne)
  | _ => rfl

theorem files_stepObject {event : Event} {before : Option Object}
    (hheld : Held prompt event.handle world before)
    (h : ObjectStep limits world event before world' object gives)
    (hne : path ≠ pathOf event.handle) :
    world'.files.lookup path = world.files.lookup path := by
  cases h with
  | textWritten => exact lookup_insert_ne hne
  | @textFailed _ _ left =>
    cases left with
    | none => exact lookup_erase_ne hne
    | some left => exact lookup_insert_ne hne
  | created => exact lookup_insert_ne hne
  | task hi hstep => exact files_stepTask hheld.filed hi hstep hne
  | writer hstep => exact files_stepWriter hheld.filed hstep hne
  | background hstep => exact files_stepBackground hheld.filed hstep hne
  | _ => rfl

/-! ## The handle's own object -/

theorem mem_completed {a : Nat} (h : a ∈ stream.completed) :
    ∃ bytes, stream.tasks[a]? = some (.append bytes .returned) := by
  have hmatch := (mem_filter.mp h).2
  split at hmatch
  · next bytes heq => exact ⟨bytes, heq⟩
  · cases hmatch

theorem completed_mem {a : Nat} {bytes : Bytes}
    (h : stream.tasks[a]? = some (.append bytes .returned)) : a ∈ stream.completed := by
  refine List.mem_filter.mpr ⟨List.mem_range.mpr (List.getElem?_eq_some_iff.mp h).1, ?_⟩
  rw [h]

theorem Captured.push (hs : Captured prompt handle world stream) (hcount : task.counted = false)
    (hreturned : task.isReturned = false) (hgaveUp : task.gaveUp = false)
    (hseen : ∀ before pc, task = .recoverable before pc → Seen stream before pc)
    (hok : task.Ok handle world.state) :
    Captured prompt handle world { stream with tasks := stream.tasks ++ [task] } :=
  ⟨hs.counted.push hcount hreturned hgaveUp, hs.written.push hseen, hs.filed.push hok⟩

theorem Captured.exit (hs : Captured prompt handle world stream) :
    Captured prompt handle world { stream with exited := true } :=
  hs.aside ⟨hs.filed.entry, hs.filed.task, hs.filed.writer, hs.filed.straggler⟩

theorem Captured.respond (hs : Captured prompt handle world stream) (totalBytes : Nat)
    (policy : TruncationPolicy) :
    Captured prompt handle world (stream.respond totalBytes policy) := by
  unfold Stream.respond
  split_ifs with hbig hexited
  · refine hs.push rfl rfl rfl ?_ trivial
    intro before pc heq
    cases heq
    exact fun a ha => mem_completed ha
  · exact hs.push rfl rfl rfl nofun trivial
  · exact hs

theorem captured_new (hfile : world.files.lookup (pathOf handle) = some []) {state : StoreState}
    (hinsert : insertStream limits handle world.state = .ok state) :
    Captured prompt handle { world with state } .new := by
  refine ⟨⟨rfl, rfl, nodup_nil, nofun, nofun, nofun⟩,
    ⟨List.nil_prefix, nofun, fun _ => rfl, nofun, nofun⟩, ⟨?_, nofun, trivial, nofun⟩⟩
  obtain ⟨-, rfl⟩ := insertStream_ok hinsert
  intro output hlookup
  rw [lookup_insert] at hlookup
  cases hlookup
  exact ⟨rfl, [], hfile, fun _ => ⟨[], rfl, rfl⟩⟩

theorem held_stepObject {event : Event} {before : Option Object}
    (hheld : Held prompt event.handle world before)
    (hlands : prompt → outrunsObject event before = false)
    (h : ObjectStep limits world event before world' object gives) :
    Held prompt event.handle world' (some object) := by
  cases h with
  | created => exact lookup_insert _
  | inserted hinsert => exact captured_new hheld hinsert
  | append => exact hheld.push rfl rfl rfl nofun trivial
  | exit => exact hheld.exit
  | respond => exact hheld.respond _ _
  | task hi hstep => exact captured_stepTask hheld hi hstep
  | writer hstep => exact captured_stepWriter hheld hlands hstep
  | background hstep => exact captured_stepBackground hheld hlands hstep
  | _ => trivial

theorem Held.congr {object : Option Object} (hheld : Held prompt handle world object)
    (hentry : world'.state.outputs.lookup handle = world.state.outputs.lookup handle)
    (hfile : world'.files.lookup (pathOf handle) = world.files.lookup (pathOf handle)) :
    Held prompt handle world' object := by
  match object, hheld with
  | none, _ => trivial
  | some (.text _ _), _ => trivial
  | some (.opening .creating), _ => trivial
  | some (.opening (.failed _)), _ => trivial
  | some (.opening .inserting), h => exact hfile.trans h
  | some (.stream stream), hs =>
    refine ⟨hs.counted, hs.written, ?_, ?_, ?_, hs.filed.straggler⟩
    · intro output hlookup
      rw [hentry] at hlookup
      rw [hfile]
      exact hs.filed.entry output hlookup
    · intro task hmem
      exact (hs.filed.task task hmem).mono fun hgone => hentry.trans hgone
    · exact hs.filed.writer.mono fun hgone => hentry.trans hgone

end Object

/-! ## Every run -/

/-- A session keeps its accounts and every object of it its invariant; `prompt` says of which handles
the streams are prompt. -/
structure Kept (prompt : String → Prop) (limits : Limits) (session : Session) : Prop where
  sound : Sound limits session
  held : ∀ handle, Held (prompt handle) handle session.world (session.objects.lookup handle)

section Run

variable {prompt : String → Prop} {limits : Limits} {session session' : Session} {event : Event} {events : List Event}
  {handle : String} {outcome : Outcome} {world world' : World} {stream stream' : Stream} {i : Nat}
  {task task' : Task}

theorem kept_step (hkept : Kept prompt limits session)
    (hlands : prompt event.handle →
      outrunsObject event (session.objects.lookup event.handle) = false)
    (h : step limits session event = some session') : Kept prompt limits session' := by
  refine ⟨sound_step hkept.sound h, ?_⟩
  obtain ⟨world, object, gives, hobject, rfl⟩ := step_some h
  intro other
  by_cases heq : other = event.handle
  · subst heq
    rw [lookup_insert]
    exact held_stepObject (hkept.held event.handle) hlands hobject
  · obtain ⟨hsec, -⟩ := section_stepObject (hkept.sound.unentered event.handle) hobject
    rw [lookup_insert_ne heq]
    refine (hkept.held other).congr (hsec.lookup_ne heq) ?_
    exact files_stepObject (hkept.held event.handle) hobject
      fun hpath => heq (pathOf_injective hpath)

theorem kept_new (prompt : String → Prop) (limits : Limits) : Kept prompt limits .new := by
  refine ⟨sound_new limits, fun handle => ?_⟩
  show Held _ handle _ ((∅ : Table String Object).lookup handle)
  rw [lookup_empty]
  trivial

theorem kept_run (hlands : Along (step limits) (Lands handle) .new events)
    (hrun : run (step limits) .new events = some session) : Kept (· = handle) limits session :=
  run_invariant_along (fun _ _ _ hkept hstep h => kept_step hkept hstep h) (kept_new _ limits) hlands hrun

/-! ## A call keeps its place -/

theorem tasks_stepTask (h : TaskStep handle i outcome world stream task world' stream' task') :
    stream'.tasks = stream.tasks := by
  cases h with
  | closing | discarding => exact tasks_stepClose handle outcome world _
  | _ => rfl

theorem tasks_stepWriter (h : WriterStep limits handle outcome world stream world' stream') :
    stream'.tasks = stream.tasks := by
  cases h with
  | closing hwriter => exact tasks_stepClose handle outcome world _
  | _ => rfl

/-- Which call a task is, wherever it stands. -/
inductive Call where
  | append (bytes : Bytes)
  | discard
  | recoverable (before : List Nat)

/-- The call of a task. -/
def Task.call : Task → Call
  | .append bytes _ => .append bytes
  | .discard _ => .discard
  | .recoverable before _ => .recoverable before

theorem call_stepTask (h : TaskStep handle i outcome world stream task world' stream' task') :
    task'.call = task.call := by
  cases h with
  | _ => rfl

/-- The stream of a handle has this call in this slot. -/
def Session.Called (handle : String) (i : Nat) (call : Call) (session : Session) : Prop :=
  ∃ stream task, session.objects.lookup handle = some (.stream stream) ∧
    stream.tasks[i]? = some task ∧ task.call = call

theorem tasks_stepBackground {slot : Option Nat}
    (h : BackgroundStep outcome world stream slot world' stream') : stream'.tasks = stream.tasks := by
  cases h with
  | _ => rfl

theorem called_stepObject (hi : stream.tasks[i]? = some task)
    (h : ObjectStep limits world event (some (.stream stream)) world' object gives) :
    ∃ stream' task', object = .stream stream' ∧
      stream'.tasks[i]? = some task' ∧ task'.call = task.call := by
  cases h with
  | append => exact ⟨_, task, rfl, Slots.getElem?_append_of_some hi _, rfl⟩
  | exit => exact ⟨_, task, rfl, hi, rfl⟩
  | respond =>
    refine ⟨_, task, rfl, ?_, rfl⟩
    unfold Stream.respond
    split_ifs
    · exact Slots.getElem?_append_of_some hi _
    · exact Slots.getElem?_append_of_some hi _
    · exact hi
  | @task _ j _ _ _ _ _ task₁ hj hstep =>
    have htasks := tasks_stepTask hstep
    by_cases hij : i = j
    · subst hij
      rw [hi] at hj
      cases hj
      rw [← htasks] at hi
      exact ⟨_, task₁, rfl, Slots.getElem?_set_same hi _, call_stepTask hstep⟩
    · refine ⟨_, task, rfl, ?_, rfl⟩
      dsimp only
      rw [htasks, getElem?_set_ne (Ne.symm hij)]
      exact hi
  | writer hstep => exact ⟨_, task, rfl, (tasks_stepWriter hstep).symm ▸ hi, rfl⟩
  | background hstep => exact ⟨_, task, rfl, (tasks_stepBackground hstep).symm ▸ hi, rfl⟩

theorem called_step {call : Call} (hcalled : session.Called handle i call)
    (h : step limits session event = some session') : session'.Called handle i call := by
  obtain ⟨stream, task, hlookup, hi, rfl⟩ := hcalled
  obtain ⟨world, object, gives, hobject, rfl⟩ := step_some h
  by_cases heq : handle = event.handle
  · subst heq
    rw [hlookup] at hobject
    obtain ⟨stream', task', rfl, hi', hcall⟩ := called_stepObject hi hobject
    exact ⟨stream', task', lookup_insert _, hi', hcall⟩
  · exact ⟨stream, task, (lookup_insert_ne heq).trans hlookup, hi, rfl⟩

theorem called_run {call : Call} (hcalled : session.Called handle i call)
    (hrun : run (step limits) session events = some session') :
    session'.Called handle i call :=
  run_invariant (fun _ _ _ hs h => called_step hs h) hcalled hrun

/-! ## The returned handle -/

theorem Writer.Partly.held {writer : Writer} {part : Bytes} (h : writer.Partly part) :
    part = [] ∨ ∃ chunk, writer.appending = true ∧ writer.held = [chunk] ∧ part <+: chunk.bytes := by
  cases writer with
  | writing chunk path flight rest =>
    exact .inr ⟨chunk, rfl, rfl, flight ++ rest, (append_assoc ..).symm.trans h⟩
  | failing chunk pc => exact .inr ⟨chunk, rfl, rfl, h⟩
  | closing chunk pc => exact .inr ⟨chunk, rfl, rfl, h⟩
  | _ => exact .inl h

/-- The entry of a prompt stream vouches for the file: it holds the chunks written so far, which head
the queue's history, and a part of the next one. -/
theorem Captured.file (hs : Captured True handle world stream) {output : StoredOutput}
    (hentry : world.state.outputs.lookup handle = some output) :
    ∃ rest part, stream.sent = stream.written ++ rest ∧
      world.files.lookup (pathOf handle) = some (bytesOf stream.written ++ part) ∧
      (part = [] ∨ ∃ chunk later, rest = chunk :: later ∧ part <+: chunk.bytes) := by
  obtain ⟨-, content, hfile, hwhole⟩ := hs.filed.entry output hentry
  obtain ⟨part, rfl, hpart⟩ := hwhole trivial
  have hsent := hs.counted.sent
  rcases hpart.held with rfl | ⟨chunk, happending, hheld, hprefix⟩
  · obtain ⟨tail, htail⟩ := hs.written.prefixed
    refine ⟨tail ++ stream.queue, [], ?_, hfile, .inl rfl⟩
    rw [hsent, ← htail, append_assoc]
  · refine ⟨chunk :: stream.queue, part, ?_, hfile, .inr ⟨chunk, stream.queue, rfl, hprefix⟩⟩
    rw [hsent, hheld, hs.written.appending happending, append_assoc]
    rfl

theorem step_returned {before : List Nat} {output : StoredToolOutput}
    (hlookup : session.objects.lookup handle = some (.stream stream))
    (hi : stream.tasks[i]? = some task)
    (h : step limits session (.task handle i outcome) = some session')
    (hlookup' : session'.objects.lookup handle = some (.stream stream'))
    (hi' : stream'.tasks[i]? = some (.recoverable before (.returned (some output)))) :
    task = .recoverable before .looking ∧ streamOutput handle session.world.state = some output ∧
      session'.world = session.world ∧
      stream' = { stream with tasks := stream.tasks.set i (.recoverable before
        (.returned (some output))) } := by
  obtain ⟨world, object, gives, hobject, rfl⟩ := step_some h
  rw [show (Event.task handle i outcome).handle = handle from rfl, hlookup] at hobject
  rw [show (Event.task handle i outcome).handle = handle from rfl, lookup_insert] at hlookup'
  cases hlookup'
  cases hobject with
  | task hmoved hmoves =>
    cases hi.symm.trans hmoved
    dsimp only at hi'
    rw [Slots.getElem?_set_same (tasks_stepTask hmoves ▸ hi)] at hi'
    have htask := Option.some.inj hi'
    cases hmoves with
    | looked =>
      rw [Task.recoverable.injEq, RecoverPc.returned.injEq] at htask
      obtain ⟨rfl, houtput⟩ := htask
      exact ⟨rfl, houtput, rfl, by rw [houtput]⟩
    | _ => cases htask

/-- **Stream capture is all or nothing as long as the writer does not outrun its writes.** In every
such run, when a `recoverable_output` called in the state `called` returns a handle, the backing file
holds the chunks that head the queue's order up to some chunk, each once, and a part of the next one;
and the chunk of every append that had returned in `called` is among them. -/
theorem recoverable_output_complete {early later : List Event} {called before after : Session}
    {stream₀ stream : Stream} {totalBytes : Nat} {policy : TruncationPolicy} {appends : List Nat}
    {output : StoredToolOutput}
    (hlands : Machine.Along (step limits) (Lands handle) .new
      (early ++ .respond handle totalBytes policy :: later))
    (hearly : Machine.run (step limits) .new early = some called)
    (hcalled : called.objects.lookup handle = some (.stream stream₀))
    (hbig : policy.tokenBudget < approxTokensFromByteCount totalBytes)
    (hlater : Machine.run (step limits) called (.respond handle totalBytes policy :: later) =
      some before)
    (hstep : step limits before (.task handle stream₀.tasks.length outcome) = some after)
    (hafter : after.objects.lookup handle = some (.stream stream))
    (hreturned : stream.tasks[stream₀.tasks.length]? =
      some (.recoverable appends (.returned (some output)))) :
    output.handle = handle ∧ ∃ written rest part, stream.sent = written ++ rest ∧
        after.world.files.lookup (pathOf handle) = some (bytesOf written ++ part) ∧
        (part = [] ∨ ∃ chunk later, rest = chunk :: later ∧ part <+: chunk.bytes) ∧
        (written.map Chunk.sender).Nodup ∧
        ∀ a bytes, stream₀.tasks[a]? = some (.append bytes .returned) → ⟨a, bytes⟩ ∈ written := by
  have hrun : run (step limits) .new
      (early ++ .respond handle totalBytes policy :: later) = some before := by
    rw [run_append, hearly]
    exact hlater
  have hkept := kept_run hlands hrun
  -- The call is in its slot from the response on, with the appends returned by then.
  have hslot : before.Called handle stream₀.tasks.length (.recoverable stream₀.completed) := by
    obtain ⟨asked, hask, hrest⟩ := run_cons_eq_some.mp hlater
    refine called_run ?_ hrest
    obtain ⟨world, object, gives, hobject, rfl⟩ := step_some hask
    rw [show (Event.respond handle totalBytes policy).handle = handle from rfl, hcalled] at hobject
    cases hobject
    refine ⟨_, .recoverable stream₀.completed .waiting, lookup_insert _, ?_, rfl⟩
    unfold Stream.respond
    rw [if_pos hbig]
    exact getElem?_concat_length
  obtain ⟨streamB, task, hlookup, hi, hcall⟩ := hslot
  obtain ⟨rfl, houtput, hworld, rfl⟩ := step_returned hlookup hi hstep hafter hreturned
  cases hcall
  have hs : Captured True handle before.world streamB := by
    have hheld := hkept.held handle
    rwa [hlookup, eq_self] at hheld
  obtain ⟨entry, hentry, hmade⟩ := Option.map_eq_some_iff.mp houtput
  obtain ⟨rest, part, hsent, hfile, hpart⟩ := hs.file hentry
  refine ⟨hmade ▸ rfl, streamB.written, rest, part, hsent, hworld ▸ hfile, hpart, ?_, ?_⟩
  · have hnodup := hs.counted.senders
    rw [hsent, map_append] at hnodup
    exact (nodup_append'.mp hnodup).1
  · intro a bytes ha
    have hcalledA : called.Called handle a (.append bytes) := ⟨stream₀, _, hcalled, ha, rfl⟩
    obtain ⟨streamA, taskA, hlookupA, hiA, hcallA⟩ := called_run hcalledA hlater
    rw [hlookup] at hlookupA
    cases hlookupA
    obtain ⟨bytes', hi', hmem⟩ := hs.written.reader _ _ _ hi a (completed_mem ha)
    rw [hiA] at hi'
    cases hi'
    cases hcallA
    exact hmem

end Run

/-- What the process prints: two tokens' worth. -/
def eightBytes : Bytes := [7, 7, 7, 7, 7, 7, 7, 7]

/-- A stream is started and its process prints eight bytes, which reach the queue. -/
def printed : List Event :=
  [.startStream "b", .opening "out_b" (.ok 0), .opening "out_b" (.ok 0), .append "out_b" eightBytes,
    .task "out_b" 0 (.ok 0), .task "out_b" 0 (.ok 0), .task "out_b" 0 (.ok 0)]

/-- The writer takes the bytes and hands them all over. -/
def handedOver : List Event :=
  [.writer "out_b" (.ok 0), .writer "out_b" (.ok 0), .writer "out_b" (.ok 0),
    .writer "out_b" (.ok 0), .writer "out_b" (.ok 7)]

/-- The writer goes on, and a waiting call gets as far as its lookup. -/
def counted : List Event :=
  [.writer "out_b" (.ok 0), .writer "out_b" (.ok 0), .task "out_b" 1 (.ok 0), .task "out_b" 1 (.ok 0)]

/-- The same with the bytes in the file before the writer goes on. -/
def flushed : List Event := handedOver ++ .background "out_b" none (.ok 7) :: counted

theorem recoverable_output_printed : ∃ called before after stream₀ stream output,
      Machine.run (step .default) .new printed = some called ∧
      called.objects.lookup "out_b" = some (.stream stream₀) ∧
      Machine.run (step .default) called (.respond "out_b" 8 (.tokens 1) :: flushed) = some before ∧
      step .default before (.task "out_b" 1 (.ok 0)) = some after ∧
      after.objects.lookup "out_b" = some (.stream stream) ∧
      stream.tasks[1]? = some (.recoverable [0] (.returned (some output))) ∧
      output.handle = "out_b" ∧
      ∃ written rest part, stream.sent = written ++ rest ∧
        after.world.files.lookup (pathOf "out_b") = some (bytesOf written ++ part) ∧
        (part = [] ∨ ∃ chunk later, rest = chunk :: later ∧ part <+: chunk.bytes) ∧
        (written.map Chunk.sender).Nodup ∧
        ∀ a bytes, stream₀.tasks[a]? = some (.append bytes .returned) → ⟨a, bytes⟩ ∈ written := by
  refine ⟨_, _, _, _, _, _, rfl, rfl, rfl, rfl, rfl, rfl, ?_⟩
  exact recoverable_output_complete (show Along (step .default) (Lands "out_b") .new
      (printed ++ .respond "out_b" 8 (.tokens 1) :: flushed) by decide +kernel)
    (show run (step .default) .new printed = _ from rfl)
    rfl (show TruncationPolicy.tokenBudget (.tokens 1) < approxTokensFromByteCount 8 by decide)
    (show run (step .default) _ (.respond "out_b" 8 (.tokens 1) :: flushed) = _ from rfl)
    (show step .default _ (.task "out_b" 1 (.ok 0)) = _ from rfl) rfl rfl

/-- **A writer that outruns its write gives out an empty file**: the append of eight bytes has returned
when the call is made, the bytes are in flight when it returns the handle, and nothing is in the file. -/
theorem recoverable_output_outrun : ∃ called after stream₀ stream output,
      Machine.run (step .default) .new printed = some called ∧
      called.objects.lookup "out_b" = some (.stream stream₀) ∧
      stream₀.tasks[0]? = some (.append eightBytes .returned) ∧
      Machine.run (step .default) called (.respond "out_b" 8 (.tokens 1) :: handedOver ++ counted ++
        [.task "out_b" 1 (.ok 0)]) = some after ∧
      after.objects.lookup "out_b" = some (.stream stream) ∧
      stream.tasks[1]? = some (.recoverable [0] (.returned (some output))) ∧
      output.handle = "out_b" ∧ after.world.files.lookup (pathOf "out_b") = some [] :=
  ⟨_, _, _, _, _, rfl, rfl, rfl, rfl, rfl, rfl, rfl, rfl⟩

end NovumAgent.ToolOutput
