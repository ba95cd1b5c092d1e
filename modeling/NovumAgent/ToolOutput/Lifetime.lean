import NovumAgent.ToolOutput.Recoverable

/-!
# How long a handle lives

A handle that a response carried to the model is meant to stay readable as long as the session
lives. The source takes it back in two ways. A stream whose capture fails (a full queue, a quota, a
file operation) removes its output whether or not its handle was given out; and every response
decides by its own output alone, so that a process which has exited after printing little since the
last response has its stream discarded, with all the output an earlier response has promised.

A handle is safe as long as no step of its stream starts such a removal (`loses`) once it is given,
and it was not given while one was under way (`Steady`). In every run that keeps to this, every
given handle reads (`given_handle_readable`).
-/

namespace NovumAgent.ToolOutput

open List

/-- Is the call on its way to removing the output? -/
def Task.closing : Task → Bool
  | .append _ .uncounting | .append _ (.closing _) | .discard (some _) => true
  | _ => false

/-- Is the writer on its way to removing the output? -/
def Writer.removing : Writer → Bool
  | .failing _ _ | .closing _ _ => true
  | _ => false

/-- No removal of the stream's output is under way. -/
def Stream.Steady (stream : Stream) : Prop :=
  (∀ task ∈ stream.tasks, task.closing = false) ∧ stream.writer.removing = false

instance (stream : Stream) : Decidable stream.Steady :=
  inferInstanceAs (Decidable ((∀ task ∈ stream.tasks, task.closing = false) ∧ _))

/-- Does the event start a removal of the stream's output? It does as a response that finds the
process gone and its output small, as an append that finds the queue full, as a chunk over a quota
and as a failed file operation of the writer. -/
def loses (limits : Limits) (world : World) (stream : Stream) : Event → Bool
  | .respond _ totalBytes policy =>
    decide (approxTokensFromByteCount totalBytes ≤ policy.tokenBudget) && stream.exited
  | .task _ i _ =>
    match stream.tasks[i]? with
    | some (.append _ .sending) => decide (streamCaptureQueueCapacity ≤ stream.queue.length)
    | _ => false
  | .writer handle outcome =>
    match stream.writer with
    | .reserving chunk =>
      match reserveAppend limits handle chunk.bytes.length world.state with
      | .error _ => true
      | .ok _ => false
    | .opening _ _ => decide (outcome = .failed)
    | .writing _ _ _ (_ :: _) => decide (outcome = .failed)
    | _ => false
  | .background _ none .failed =>
    match stream.writer with
    | .writing _ _ _ (_ :: _) => true
    | _ => false
  | _ => false

/-- Is the event the lookup of a `recoverable_output`? -/
def looks (stream : Stream) : Event → Bool
  | .task _ i _ =>
    match stream.tasks[i]? with
    | some (.recoverable _ .looking) => true
    | _ => false
  | _ => false

/-- The event does not start to take back the stream's handle once it was given, and does not look
it up for a response while it is being taken back. -/
def KeepsObject (limits : Limits) (handle : String) (session : Session) (event : Event) :
    Option Object → Prop
  | some (.stream stream) =>
    (handle ∈ session.given → loses limits session.world stream event = false) ∧
      (looks stream event = true → stream.Steady)
  | _ => True

/-- The same of the object behind a handle, and of the events that are about it. -/
def Keeps (limits : Limits) (handle : String) (session : Session) (event : Event) : Prop :=
  event.handle = handle → KeepsObject limits handle session event (session.objects.lookup handle)

instance (limits : Limits) (handle : String) (session : Session) (event : Event) :
    ∀ object, Decidable (KeepsObject limits handle session event object)
  | some (.stream _) => inferInstanceAs (Decidable ((_ → _) ∧ (_ → _)))
  | some (.text _ _) => isTrue trivial
  | some (.opening _) => isTrue trivial
  | none => isTrue trivial

instance (limits : Limits) (handle : String) (session : Session) (event : Event) :
    Decidable (Keeps limits handle session event) :=
  inferInstanceAs (Decidable (_ → _))

section Lifetime

variable {limits : Limits} {handle : String} {outcome : Outcome} {world world' : World}
  {stream stream' : Stream} {i : Nat} {task task' : Task}

/-! ## One step of a steady stream -/

theorem Stream.Steady.set (hsteady : stream.Steady) (i : Nat) {task' : Task} {pending : Nat}
    {queue sent : List Chunk} (htask : task'.closing = false) :
    Stream.Steady { stream with pending, queue, sent, tasks := stream.tasks.set i task' } :=
  ⟨Slots.forall_mem_set hsteady.1 htask, hsteady.2⟩

theorem Stream.Steady.push (hsteady : stream.Steady) (htask : task.closing = false) :
    Stream.Steady { stream with tasks := stream.tasks ++ [task] } := by
  refine ⟨?_, hsteady.2⟩
  exact forall_mem_append.mpr ⟨hsteady.1, forall_mem_singleton.mpr htask⟩

theorem steady_stepTask (hsteady : stream.Steady) (hi : stream.tasks[i]? = some task)
    (hkeeps : loses limits world stream (.task handle i outcome) = false)
    (h : TaskStep handle i outcome world stream task world' stream' task') :
    world' = world ∧ Stream.Steady { stream' with tasks := stream'.tasks.set i task' } := by
  have hclosing := hsteady.1 task (mem_of_getElem? hi)
  cases h with
  | full hfull =>
    simp only [loses, hi, decide_eq_false_iff_not] at hkeeps
    exact absurd hfull hkeeps
  | uncounted => cases hclosing
  | closing => cases hclosing
  | discarding => cases hclosing
  | _ => exact ⟨rfl, hsteady.set i rfl⟩

/-- A step of a steady stream's writer that does not fail leaves it steady and its entry in place.
The file is there to be opened because the entry is. -/
theorem steady_stepWriter (hs : Captured False handle world stream) (hsteady : stream.Steady)
    (hentry : ∃ output, world.state.outputs.lookup handle = some output)
    (hkeeps : loses limits world stream (.writer handle outcome) = false)
    (h : WriterStep limits handle outcome world stream world' stream') :
    (∃ output, world'.state.outputs.lookup handle = some output) ∧ stream'.Steady := by
  have hremoving := hsteady.2
  cases h with
  | refused hwriter hreserve => simp [loses, hwriter, hreserve] at hkeeps
  | reserved hwriter hreserve =>
    obtain ⟨output, -, -, -, -, hstate⟩ := reserveAppend_ok hreserve
    refine ⟨?_, hsteady.1, rfl⟩
    rw [hstate]
    exact ⟨_, AList.lookup_insert _⟩
  | unopened hwriter hfailed =>
    simp only [loses, hwriter, decide_eq_false_iff_not] at hkeeps
    obtain ⟨output, houtput⟩ := hentry
    obtain ⟨-, content, hfile, -⟩ := hs.filed.entry output houtput
    have hpath := hs.filed.writer
    rw [hwriter] at hpath
    rw [show _ = pathOf handle from hpath, hfile] at hfailed
    exact absurd hfailed (not_or_intro hkeeps nofun)
  | broke hwriter hfailed => simp [loses, hwriter, hfailed] at hkeeps
  | failing hwriter | closing hwriter =>
    rw [hwriter] at hremoving
    cases hremoving
  | _ => exact ⟨hentry, hsteady.1, rfl⟩

theorem steady_stepBackground {slot : Option Nat} (hsteady : stream.Steady)
    (hkeeps : loses limits world stream (.background handle slot outcome) = false)
    (h : BackgroundStep outcome world stream slot world' stream') : stream'.Steady := by
  cases h with
  | seen hwriter hfailed => simp [loses, hwriter, hfailed] at hkeeps
  | arrived | lost => exact hsteady
  | _ => exact ⟨hsteady.1, rfl⟩

theorem steady_stepObject {event : Event} {object : Object} {gives : List String}
    (hs : Captured False event.handle world stream) (hsteady : stream.Steady)
    (hentry : ∃ output, world.state.outputs.lookup event.handle = some output)
    (hkeeps : loses limits world stream event = false)
    (h : ObjectStep limits world event (some (.stream stream)) world' object gives) :
    ∃ stream', object = .stream stream' ∧ stream'.Steady ∧
      ∃ output, world'.state.outputs.lookup event.handle = some output := by
  cases h with
  | append => exact ⟨_, rfl, hsteady.push rfl, hentry⟩
  | exit => exact ⟨_, rfl, hsteady, hentry⟩
  | respond =>
    refine ⟨_, rfl, ?_, hentry⟩
    unfold Stream.respond
    split_ifs with hbig hexited
    · exact hsteady.push rfl
    · simp [loses, hexited, not_lt.mp hbig] at hkeeps
    · exact hsteady
  | task hi hstep =>
    obtain ⟨rfl, hsteady'⟩ := steady_stepTask hsteady hi hkeeps hstep
    exact ⟨_, rfl, hsteady', hentry⟩
  | writer hstep =>
    obtain ⟨hentry', hsteady'⟩ := steady_stepWriter hs hsteady hentry hkeeps hstep
    exact ⟨_, rfl, hsteady', hentry'⟩
  | background hstep =>
    rw [state_stepBackground hstep]
    exact ⟨_, rfl, steady_stepBackground hsteady hkeeps hstep, hentry⟩

/-! ## The moment a handle is given -/

theorem gives_stepObject {event : Event} {before : Option Object} {object : Object}
    {gives : List String} {given : String} (hgiven : given ∈ gives)
    (h : ObjectStep limits world event before world' object gives) :
    given = event.handle ∧ ∃ stream i appends outcome output,
      before = some (.stream stream) ∧ event = .task event.handle i outcome ∧
      stream.tasks[i]? = some (.recoverable appends .looking) ∧
      world.state.outputs.lookup event.handle = some output ∧ world' = world ∧
      object = .stream { stream with
        tasks := stream.tasks.set i (.recoverable appends
          (.returned (streamOutput event.handle world.state))) } := by
  cases h with
  | @task handle i outcome stream _ _ _ _ hi hstep =>
    cases hstep with
    | @looked appends =>
      cases hlookup : world.state.outputs.lookup handle with
      | none =>
        simp only [streamOutput, hlookup, Option.map_none] at hgiven
        cases hgiven
      | some output =>
        simp only [streamOutput, hlookup, Option.map_some, Task.gives, mem_singleton] at hgiven
        exact ⟨hgiven, stream, i, appends, outcome, output, rfl, rfl, hi, hlookup, rfl, rfl⟩
    | _ => cases hgiven
  | _ => cases hgiven

/-! ## Every run -/

/-- A given handle has a steady stream and an entry. -/
def Alive (handle : String) (session : Session) : Prop :=
  handle ∈ session.given → ∃ stream, session.objects.lookup handle = some (.stream stream) ∧
    stream.Steady ∧ ∃ output, session.world.state.outputs.lookup handle = some output

/-- What a run that keeps a handle keeps. -/
structure Living (limits : Limits) (handle : String) (session : Session) : Prop where
  kept : Kept (fun _ => False) limits session
  alive : Alive handle session

theorem alive_step {session session' : Session} {event : Event} (hkept : Kept (fun _ => False) limits session)
    (halive : Alive handle session) (hkeeps : Keeps limits handle session event)
    (h : step limits session event = some session') : Alive handle session' := by
  obtain ⟨world, object, gives, hobject, rfl⟩ := step_some h
  intro hgiven
  by_cases heq : event.handle = handle
  · subst heq
    rw [AList.lookup_insert]
    rcases mem_append.mp hgiven with hold | hnew
    · obtain ⟨stream, hlookup, hsteady, hentry⟩ := halive hold
      have hs : Captured False event.handle session.world stream := by
        have hheld := hkept.held event.handle
        rwa [hlookup] at hheld
      have hkeeps := hkeeps rfl
      rw [hlookup] at hobject hkeeps
      obtain ⟨stream', rfl, hsteady', hentry'⟩ :=
        steady_stepObject hs hsteady hentry (hkeeps.1 hold) hobject
      exact ⟨stream', rfl, hsteady', hentry'⟩
    · obtain ⟨-, stream, i, appends, outcome, output, hlookup, hevent, hi, hentry, rfl, rfl⟩ :=
        gives_stepObject hnew hobject
      have hkeeps := hkeeps rfl
      rw [hlookup] at hkeeps
      have hsteady : stream.Steady := hkeeps.2 (by rw [hevent]; simp only [looks, hi])
      exact ⟨_, rfl, hsteady.set i rfl, output, hentry⟩
  · have hne : handle ≠ event.handle := fun h => heq h.symm
    obtain ⟨hsec, -⟩ := section_stepObject (hkept.sound.unentered event.handle) hobject
    rw [AList.lookup_insert_ne hne, hsec.lookup_ne hne]
    rcases mem_append.mp hgiven with hold | hnew
    · exact halive hold
    · exact absurd (gives_stepObject hnew hobject).1 hne

end Lifetime

/-- **A given handle stays readable** in every run whose steps neither start to take it back once
it is given nor give it while it is being taken back. -/
theorem given_handle_readable {limits : Limits} {handle : String} {events : List Event}
    {session : Session}
    (hkeeps : Machine.Along (step limits) (Keeps limits handle) .new events)
    (hrun : Machine.run (step limits) .new events = some session)
    (hgiven : handle ∈ session.given) (offset maxTokens : Nat) :
    ∃ page, read handle offset maxTokens session.world = .ok page := by
  have hliving : Living limits handle session :=
    Machine.run_invariant_along
      (fun _ _ _ hs hQ h => ⟨kept_step hs.kept nofun h, alive_step hs.kept hs.alive hQ h⟩)
      ⟨kept_new _ limits, nofun⟩ hkeeps hrun
  obtain ⟨stream, hlookup, -, output, hentry⟩ := hliving.alive hgiven
  have hs : Captured False handle session.world stream := by
    have hheld := hliving.kept.held handle
    rwa [hlookup] at hheld
  obtain ⟨hpath, content, hfile, -⟩ := hs.filed.entry output hentry
  rw [← hpath] at hfile
  refine ⟨readPage (Utf8.fromUtf8Lossy content) offset maxTokens, ?_⟩
  simp only [read, readContent, hentry, hfile, Except.map]

/-- A response gives the handle of a stream that printed eight bytes, and it reads. -/
theorem given_handle_readable_printed : ∃ session, Machine.run (step .default) .new
        (printed ++ .respond "out_b" 8 (.tokens 1) :: flushed ++ [.task "out_b" 1 (.ok 0)]) =
          some session ∧
      "out_b" ∈ session.given ∧ ∃ page, read "out_b" 0 1 session.world = .ok page := by
  refine ⟨_, rfl, by decide, ?_⟩
  exact given_handle_readable (show Machine.Along (step .default) (Keeps .default "out_b") .new
    (printed ++ .respond "out_b" 8 (.tokens 1) :: flushed ++ [.task "out_b" 1 (.ok 0)]) by decide)
    rfl (by decide) 0 1

/-- A response gives the handle of a stream that printed eight bytes; the process exits, and the
next response finds nothing new and discards the stream. -/
def givenAndDiscarded : List Event :=
  printed ++ .respond "out_b" 8 (.tokens 1) :: flushed ++
    [.task "out_b" 1 (.ok 0), .exit "out_b", .respond "out_b" 0 (.tokens 1),
      .task "out_b" 2 (.ok 0), .task "out_b" 2 (.ok 0), .task "out_b" 2 (.ok 0)]

theorem given_handle_lost :
    ∃ session, Machine.run (step .default) .new givenAndDiscarded = some session ∧
      "out_b" ∈ session.given ∧ read "out_b" 0 1 session.world = .error .unavailable :=
  ⟨_, rfl, by decide, rfl⟩

end NovumAgent.ToolOutput
