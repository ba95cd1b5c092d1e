import NovumAgent.Lib.Run
import NovumAgent.ToolOutput.Store

/-!
# A session's outputs, step by step

Every call on the store is cut here at the points where another task can run: each lock section,
each atomic load, store, addition and subtraction, each file operation and each operation on a
stream's queue is one step. A session is the store, the session's directory and, for each handle
drawn so far, the object that drew it: a call of `store_text`, a call of `start_stream` or the
stream that came of one. `step` lets any one of them take its next step; a run is any interleaving.

Three things are left to the environment and appear as arguments of an event. The random part of a
handle is one that no object of the session has drawn. A file operation succeeds or fails. A waiting
`recoverable_output` may look at the counter again at any time, which allows every order of wake-ups
the source's notification allows and more.

`append_stream` writes through an asynchronous file and never flushes it. Such a file takes some of
the bytes, hands them to a background thread and returns; only the next write on the same file waits
for the thread and reports its error. So `write_all` returns when its last bytes are handed over:
they may still be in flight while the writer goes on, the file is dropped without waiting for them,
and their failure is seen by nobody. What a dropped file has left in flight is a `Straggler`.

`sent`, `handled` and `written` are histories: no step reads them.
-/

namespace NovumAgent.ToolOutput

open Utf8

/-! ## Streams -/

/-- What a file operation came to. A write that succeeds takes one byte and `more` behind it. -/
inductive Outcome where
  | ok (more : Nat)
  | failed
deriving DecidableEq, Repr

/-- A chunk in a stream's queue, with the position of the `append` that sent it. -/
structure Chunk where
  sender : Nat
  bytes : Bytes

/-- Where a call of `remove_output` stands: before its lock section, or with the entry taken out
and the file still there. -/
inductive RemovePc where
  | locking
  | unlinking (path : String)

/-- Where the closing of a stream stands, which is all of `discard` and the end of an `append` or
a write that failed: set `disabled`, then `remove_output`. -/
inductive ClosePc where
  | disabling
  | removing (pc : RemovePc)

/-- Where a call of `append` stands. -/
inductive AppendPc where
  | start
  | counting
  | sending
  | uncounting
  | closing (pc : ClosePc)
  | returned

/-- Where a call of `recoverable_output` stands. -/
inductive RecoverPc where
  | waiting
  | checking
  | looking
  | returned (output : Option StoredToolOutput)

/-- A call on a stream. A `recoverable` call keeps the positions of the appends that had returned
when it was made; a `discard` without a position has returned. -/
inductive Task where
  | append (bytes : Bytes) (pc : AppendPc)
  | discard (pc : Option ClosePc)
  | recoverable (before : List Nat) (pc : RecoverPc)

/-- Where the writer task of a stream stands. From `reserving` to `failing` it is inside
`append_stream`. In `writing` the file has taken `flight`, which its background thread has still to
put into the file, and `rest` is not handed over yet. -/
inductive Writer where
  | idle
  | received (chunk : Chunk)
  | reserving (chunk : Chunk)
  | opening (chunk : Chunk) (path : String)
  | writing (chunk : Chunk) (path : String) (flight rest : Bytes)
  | failing (chunk : Chunk) (pc : RemovePc)
  | closing (chunk : Chunk) (pc : ClosePc)
  | finishing (chunk : Chunk)

/-- Bytes that were still in flight when their file was dropped. -/
structure Straggler where
  path : String
  bytes : Bytes

/-- `ToolOutputStream`, with its writer, the calls made on it and the process that feeds it. -/
structure Stream where
  disabled : Bool
  pending : Nat
  queue : List Chunk
  writer : Writer
  tasks : List Task
  exited : Bool
  stragglers : List Straggler
  /-- What the queue has accepted, in its order. -/
  sent : List Chunk
  /-- What the writer is through with, written or not. -/
  handled : List Chunk
  /-- What the writer has handed over to the last byte. -/
  written : List Chunk

/-- A stream as `start_stream` returns it. -/
def Stream.new : Stream := ⟨false, 0, [], .idle, [], false, [], [], [], []⟩

/-- One step of `remove_output`; no position is left when it is through. -/
def stepRemove (handle : String) (outcome : Outcome) (world : World) :
    RemovePc → World × Option RemovePc
  | .locking =>
    let (state, path) := removeEntry handle world.state
    ({ world with state }, path.map .unlinking)
  | .unlinking path =>
    match outcome with
    | .ok _ => ({ world with files := world.files.erase path }, none)
    | .failed => (world, none)

/-- One step of the closing of a stream. -/
def stepClose (handle : String) (outcome : Outcome) (world : World) (stream : Stream) :
    ClosePc → World × Stream × Option ClosePc
  | .disabling => (world, { stream with disabled := true }, some (.removing .locking))
  | .removing pc =>
    let (world, next) := stepRemove handle outcome world pc
    (world, stream, next.map .removing)

/-- One step of `append`, as the call at position `i`. -/
def stepAppend (handle : String) (i : Nat) (bytes : Bytes) (outcome : Outcome) (world : World)
    (stream : Stream) : AppendPc → Option (World × Stream × AppendPc)
  | .start => some (world, stream, if stream.disabled then .returned else .counting)
  | .counting => some (world, { stream with pending := stream.pending + 1 }, .sending)
  | .sending =>
    if stream.queue.length < streamCaptureQueueCapacity then
      some (world, { stream with
        queue := stream.queue ++ [⟨i, bytes⟩], sent := stream.sent ++ [⟨i, bytes⟩] }, .returned)
    else some (world, stream, .uncounting)
  | .uncounting =>
    some (world, { stream with pending := stream.pending - 1 }, .closing .disabling)
  | .closing pc =>
    let (world, stream, next) := stepClose handle outcome world stream pc
    some (world, stream, (next.map .closing).getD .returned)
  | .returned => none

/-- One step of `recoverable_output`. -/
def stepRecover (handle : String) (world : World) (stream : Stream) : RecoverPc → Option RecoverPc
  | .waiting => if stream.pending = 0 then some .checking else none
  | .checking => some (if stream.disabled then .returned none else .looking)
  | .looking => some (.returned (streamOutput handle world.state))
  | .returned _ => none

/-- One step of the call at position `i`. -/
def stepTask (handle : String) (i : Nat) (outcome : Outcome) (world : World) (stream : Stream) :
    Task → Option (World × Stream × Task)
  | .append bytes pc =>
    (stepAppend handle i bytes outcome world stream pc).map fun (world, stream, pc) =>
      (world, stream, .append bytes pc)
  | .discard none => none
  | .discard (some pc) =>
    let (world, stream, next) := stepClose handle outcome world stream pc
    some (world, stream, .discard next)
  | .recoverable before pc =>
    (stepRecover handle world stream pc).map fun pc => (world, stream, .recoverable before pc)

/-- One step of the writer task. -/
def stepWriter (limits : Limits) (handle : String) (outcome : Outcome) (world : World)
    (stream : Stream) : Option (World × Stream) :=
  match stream.writer with
  | .idle =>
    match stream.queue with
    | [] => none
    | chunk :: queue => some (world, { stream with queue, writer := .received chunk })
  | .received chunk =>
    some (world, { stream with
      writer := if stream.disabled then .finishing chunk else .reserving chunk })
  | .reserving chunk =>
    match reserveAppend limits handle chunk.bytes.length world.state with
    | .error _ => some (world, { stream with writer := .closing chunk .disabling })
    | .ok (state, path) => some ({ world with state }, { stream with writer := .opening chunk path })
  | .opening chunk path =>
    -- Opening for appending does not create the file.
    if outcome = .failed ∨ world.files.lookup path = none then
      some (world, { stream with writer := .failing chunk .locking })
    else some (world, { stream with writer := .writing chunk path [] chunk.bytes })
  | .writing chunk path flight [] =>
    -- `write_all` returns without a look at the bytes in flight, and the file is dropped.
    some (world, { stream with
      writer := .finishing chunk
      written := stream.written ++ [chunk]
      stragglers := stream.stragglers ++ [⟨path, flight⟩] })
  | .writing _ _ (_ :: _) (_ :: _) => none
  | .writing chunk path [] (byte :: rest) =>
    match outcome with
    | .failed => some (world, { stream with writer := .failing chunk .locking })
    | .ok more => some (world, { stream with
        writer := .writing chunk path (byte :: rest.take more) (rest.drop more) })
  | .failing chunk pc =>
    let (world, next) := stepRemove handle outcome world pc
    some (world, { stream with
      writer := (next.map (.failing chunk)).getD (.closing chunk .disabling) })
  | .closing chunk pc =>
    let (world, stream, next) := stepClose handle outcome world stream pc
    some (world, { stream with writer := (next.map (.closing chunk)).getD (.finishing chunk) })
  | .finishing chunk =>
    some (world, { stream with
      pending := stream.pending - 1, writer := .idle, handled := stream.handled ++ [chunk] })

/-- The files after a background write. One unlinked since it was opened still takes the bytes, out of
sight. -/
def appendFile (path : String) (bytes : Bytes) (files : Files) : Files :=
  match files.lookup path with
  | none => files
  | some content => files.insert path (content ++ bytes)

/-- One step of a background thread: of the one behind the writer's own file, or of one that a dropped
file has left. A failure goes to the next write on the file, if there is one. -/
def stepBackground (slot : Option Nat) (outcome : Outcome) (world : World) (stream : Stream) :
    Option (World × Stream) :=
  match slot with
  | none =>
    match stream.writer, outcome with
    | .writing chunk path (byte :: flight) rest, .ok more =>
      some ({ world with files := appendFile path (byte :: flight.take more) world.files },
        { stream with writer := .writing chunk path (flight.drop more) rest })
    | .writing chunk path (_ :: _) [], .failed =>
      some (world, { stream with writer := .writing chunk path [] [] })
    | .writing chunk _ (_ :: _) (_ :: _), .failed =>
      some (world, { stream with writer := .failing chunk .locking })
    | _, _ => none
  | some i =>
    match stream.stragglers[i]?, outcome with
    | some ⟨path, byte :: bytes⟩, .ok more =>
      some ({ world with files := appendFile path (byte :: bytes.take more) world.files },
        { stream with stragglers := stream.stragglers.set i ⟨path, bytes.drop more⟩ })
    | some ⟨path, _ :: _⟩, .failed =>
      some (world, { stream with stragglers := stream.stragglers.set i ⟨path, []⟩ })
    | _, _ => none

/-! ## Sessions -/

/-- Where a call of `store_text` stands once it has drawn its handle. -/
inductive TextPc where
  | reserving
  | writing
  | releasing
  | returned (result : Except StoreError StoredToolOutput)

/-- Where a call of `start_stream` stands until it returns a stream. -/
inductive OpeningPc where
  | creating
  | inserting
  | failed (error : StoreError)

/-- What has drawn a handle. -/
inductive Object where
  | text (content : Text) (pc : TextPc)
  | opening (pc : OpeningPc)
  | stream (stream : Stream)

/-- A session: the store and its directory, the objects by their handles, and the handles that
responses have carried to the model. -/
structure Session where
  world : World
  objects : Table String Object
  given : List String

/-- A session that has just begun. -/
def Session.new : Session := ⟨.empty, ∅, []⟩

/-- What can happen next. -/
inductive Event where
  /-- A call of `store_text` that draws its handle. -/
  | storeText (uuid : String) (content : Text)
  /-- A call of `start_stream` that draws its handle. -/
  | startStream (uuid : String)
  /-- The process of a stream printed a chunk. -/
  | append (handle : String) (bytes : Bytes)
  /-- The process of a stream exited. -/
  | exit (handle : String)
  /-- A response of `exec_command` or `write_stdin` that collected so many bytes. -/
  | respond (handle : String) (totalBytes : Nat) (policy : TruncationPolicy)
  /-- The next step of a `store_text`. -/
  | text (handle : String) (write : WriteResult)
  /-- The next step of a `start_stream`. -/
  | opening (handle : String) (outcome : Outcome)
  /-- The next step of a call on a stream. -/
  | task (handle : String) (i : Nat) (outcome : Outcome)
  /-- The next step of a stream's writer. -/
  | writer (handle : String) (outcome : Outcome)
  /-- The next step of a background write of a stream, its writer's own or a straggler's. -/
  | background (handle : String) (slot : Option Nat) (outcome : Outcome)

/-- One step of `store_text`. -/
def stepText (limits : Limits) (handle : String) (content : Text) (write : WriteResult)
    (world : World) : TextPc → Option (World × TextPc)
  | .reserving =>
    match reserveText limits handle (byteLen content) world.state with
    | .error e => some (world, .returned (.error e))
    | .ok state => some ({ world with state }, .writing)
  | .writing =>
    let files := writeFile (pathOf handle) (encode content) write world.files
    match write with
    | .ok => some ({ world with files }, .returned (.ok
        { handle, byteLen := byteLen content, tokenCount := approxTokenCount content }))
    | .failed _ => some ({ world with files }, .releasing)
  | .releasing =>
    some ({ world with state := (removeEntry handle world.state).1 },
      .returned (.error .storageFailed))
  | .returned _ => none

/-- One step of `start_stream`, which ends with a stream. -/
def stepOpening (limits : Limits) (handle : String) (outcome : Outcome) (world : World) :
    OpeningPc → Option (World × Object)
  | .creating =>
    match outcome with
    | .failed => some (world, .opening (.failed .storageFailed))
    | .ok _ => some ({ world with files := world.files.insert (pathOf handle) [] },
        .opening .inserting)
  | .inserting =>
    match insertStream limits handle world.state with
    | .error e => some (world, .opening (.failed e))
    | .ok state => some ({ world with state }, .stream .new)
  | .failed _ => none

/-- The positions of the appends that have returned. -/
def Stream.completed (stream : Stream) : List Nat :=
  (List.range stream.tasks.length).filter fun i =>
    match stream.tasks[i]? with
    | some (.append _ .returned) => true
    | _ => false

/-- What a response does with the stream behind its output: more than the model may be shown makes
the stream recoverable, and a process that is gone has its stream discarded otherwise. -/
def Stream.respond (totalBytes : Nat) (policy : TruncationPolicy) (stream : Stream) : Stream :=
  if policy.tokenBudget < approxTokensFromByteCount totalBytes then
    { stream with tasks := stream.tasks ++ [.recoverable stream.completed .waiting] }
  else if stream.exited then
    { stream with tasks := stream.tasks ++ [.discard (some .disabling)] }
  else stream

/-- The handle that a call has just returned to a response. -/
def Task.gives : Task → List String
  | .recoverable _ (.returned (some output)) => [output.handle]
  | _ => []

/-- The handle an event is about. -/
def Event.handle : Event → String
  | .storeText uuid _ => handleOf uuid
  | .startStream uuid => handleOf uuid
  | .append handle _ => handle
  | .exit handle => handle
  | .respond handle _ _ => handle
  | .text handle _ => handle
  | .opening handle _ => handle
  | .task handle _ _ => handle
  | .writer handle _ => handle
  | .background handle _ _ => handle

/-- What an event does with the object behind its handle and with the store, and the handle it
gives to the model. A handle is drawn once: the events that draw one find no object behind it. A
text over the limit is refused before it draws a handle, and nothing happens. -/
def stepObject (limits : Limits) (world : World) :
    Event → Option Object → Option (World × Object × List String)
  | .storeText _ content, none =>
    if limits.maxOutputBytes < byteLen content then none
    else some (world, .text content .reserving, [])
  | .startStream _, none => some (world, .opening .creating, [])
  | .text handle write, some (.text content pc) =>
    (stepText limits handle content write world pc).map fun (world, pc) =>
      (world, .text content pc, [])
  | .opening handle outcome, some (.opening pc) =>
    (stepOpening limits handle outcome world pc).map fun (world, object) => (world, object, [])
  | .append _ bytes, some (.stream stream) =>
    some (world, .stream { stream with tasks := stream.tasks ++ [.append bytes .start] }, [])
  | .exit _, some (.stream stream) => some (world, .stream { stream with exited := true }, [])
  | .respond _ totalBytes policy, some (.stream stream) =>
    some (world, .stream (stream.respond totalBytes policy), [])
  | .task handle i outcome, some (.stream stream) =>
    (stream.tasks[i]?).bind fun task =>
      (stepTask handle i outcome world stream task).map fun (world, stream, task) =>
        (world, .stream { stream with tasks := stream.tasks.set i task }, task.gives)
  | .writer handle outcome, some (.stream stream) =>
    (stepWriter limits handle outcome world stream).map fun (world, stream) =>
      (world, .stream stream, [])
  | .background _ slot outcome, some (.stream stream) =>
    (stepBackground slot outcome world stream).map fun (world, stream) => (world, .stream stream, [])
  | _, _ => none

/-- One step of a session. -/
def step (limits : Limits) (session : Session) (event : Event) : Option Session :=
  (stepObject limits session.world event (session.objects.lookup event.handle)).map
    fun (world, object, gives) =>
      ⟨world, session.objects.insert event.handle object, session.given ++ gives⟩

/-! ## What a step can do -/

section

variable (limits : Limits) (handle : String) (i : Nat) (outcome : Outcome) (world : World) (stream : Stream)

/-- What a step of a call can do. -/
inductive TaskStep : Task → World → Stream → Task → Prop where
  | skipped {bytes} (h : stream.disabled = true) :
    TaskStep (.append bytes .start) world stream (.append bytes .returned)
  | started {bytes} : TaskStep (.append bytes .start) world stream (.append bytes .counting)
  | counted {bytes} : TaskStep (.append bytes .counting) world
      { stream with pending := stream.pending + 1 } (.append bytes .sending)
  | sent {bytes} : TaskStep (.append bytes .sending) world { stream with
      queue := stream.queue ++ [⟨i, bytes⟩], sent := stream.sent ++ [⟨i, bytes⟩] } (.append bytes .returned)
  | full {bytes} (h : streamCaptureQueueCapacity ≤ stream.queue.length) :
    TaskStep (.append bytes .sending) world stream (.append bytes .uncounting)
  | uncounted {bytes} : TaskStep (.append bytes .uncounting) world
      { stream with pending := stream.pending - 1 } (.append bytes (.closing .disabling))
  | closing {bytes pc} : TaskStep (.append bytes (.closing pc))
      (stepClose handle outcome world stream pc).1 (stepClose handle outcome world stream pc).2.1
      (.append bytes (((stepClose handle outcome world stream pc).2.2.map .closing).getD .returned))
  | discarding {pc} : TaskStep (.discard (some pc))
      (stepClose handle outcome world stream pc).1 (stepClose handle outcome world stream pc).2.1
      (.discard (stepClose handle outcome world stream pc).2.2)
  | waited {before} (h : stream.pending = 0) :
    TaskStep (.recoverable before .waiting) world stream (.recoverable before .checking)
  | refused {before} :
    TaskStep (.recoverable before .checking) world stream (.recoverable before (.returned none))
  | checked {before} (h : stream.disabled = false) :
    TaskStep (.recoverable before .checking) world stream (.recoverable before .looking)
  | looked {before} : TaskStep (.recoverable before .looking) world stream
      (.recoverable before (.returned (streamOutput handle world.state)))

/-- What a step of the writer can do. -/
inductive WriterStep : World → Stream → Prop where
  | received {chunk queue} (hwriter : stream.writer = .idle) (hqueue : stream.queue = chunk :: queue) :
    WriterStep world { stream with queue, writer := .received chunk }
  | skipped {chunk} (hwriter : stream.writer = .received chunk) (h : stream.disabled = true) :
    WriterStep world { stream with writer := .finishing chunk }
  | admitted {chunk} (hwriter : stream.writer = .received chunk) (h : stream.disabled = false) :
    WriterStep world { stream with writer := .reserving chunk }
  | refused {chunk e} (hwriter : stream.writer = .reserving chunk)
      (h : reserveAppend limits handle chunk.bytes.length world.state = .error e) :
    WriterStep world { stream with writer := .closing chunk .disabling }
  | reserved {chunk state path} (hwriter : stream.writer = .reserving chunk)
      (h : reserveAppend limits handle chunk.bytes.length world.state = .ok (state, path)) :
    WriterStep { world with state } { stream with writer := .opening chunk path }
  | unopened {chunk path} (hwriter : stream.writer = .opening chunk path)
      (h : outcome = .failed ∨ world.files.lookup path = none) :
    WriterStep world { stream with writer := .failing chunk .locking }
  | opened {chunk path} (hwriter : stream.writer = .opening chunk path) :
    WriterStep world { stream with writer := .writing chunk path [] chunk.bytes }
  | wrote {chunk path flight} (hwriter : stream.writer = .writing chunk path flight []) :
    WriterStep world { stream with
      writer := .finishing chunk
      written := stream.written ++ [chunk]
      stragglers := stream.stragglers ++ [⟨path, flight⟩] }
  | broke {chunk path byte rest} (hwriter : stream.writer = .writing chunk path [] (byte :: rest))
      (h : outcome = .failed) : WriterStep world { stream with writer := .failing chunk .locking }
  | handed {chunk path byte rest more} (hwriter : stream.writer = .writing chunk path [] (byte :: rest)) :
    WriterStep world { stream with
      writer := .writing chunk path (byte :: rest.take more) (rest.drop more) }
  | failing {chunk pc} (hwriter : stream.writer = .failing chunk pc) :
    WriterStep (stepRemove handle outcome world pc).1 { stream with writer :=
      ((stepRemove handle outcome world pc).2.map (.failing chunk)).getD (.closing chunk .disabling) }
  | closing {chunk pc} (hwriter : stream.writer = .closing chunk pc) :
    WriterStep (stepClose handle outcome world stream pc).1
      { (stepClose handle outcome world stream pc).2.1 with writer :=
        ((stepClose handle outcome world stream pc).2.2.map (.closing chunk)).getD (.finishing chunk) }
  | finished {chunk} (hwriter : stream.writer = .finishing chunk) :
    WriterStep world { stream with
      pending := stream.pending - 1, writer := .idle, handled := stream.handled ++ [chunk] }

/-- What a step of a background write can do. -/
inductive BackgroundStep : Option Nat → World → Stream → Prop where
  | landed {chunk path byte flight rest more}
      (hwriter : stream.writer = .writing chunk path (byte :: flight) rest) :
    BackgroundStep none
      { world with files := appendFile path (byte :: flight.take more) world.files }
      { stream with writer := .writing chunk path (flight.drop more) rest }
  | unseen {chunk path byte flight} (hwriter : stream.writer = .writing chunk path (byte :: flight) [])
      (h : outcome = .failed) :
    BackgroundStep none world { stream with writer := .writing chunk path [] [] }
  | seen {chunk path byte flight next rest}
      (hwriter : stream.writer = .writing chunk path (byte :: flight) (next :: rest))
      (h : outcome = .failed) :
    BackgroundStep none world { stream with writer := .failing chunk .locking }
  | arrived {j path byte bytes more} (hj : stream.stragglers[j]? = some ⟨path, byte :: bytes⟩) :
    BackgroundStep (some j)
      { world with files := appendFile path (byte :: bytes.take more) world.files }
      { stream with stragglers := stream.stragglers.set j ⟨path, bytes.drop more⟩ }
  | lost {j path byte bytes} (hj : stream.stragglers[j]? = some ⟨path, byte :: bytes⟩) :
    BackgroundStep (some j) world
      { stream with stragglers := stream.stragglers.set j ⟨path, []⟩ }

end

section

variable (limits : Limits) (world : World)

/-- What a step of an object can do. -/
inductive ObjectStep : Event → Option Object → World → Object → List String → Prop where
  | storeText {uuid content} (h : byteLen content ≤ limits.maxOutputBytes) :
    ObjectStep (.storeText uuid content) none world (.text content .reserving) []
  | startStream {uuid} : ObjectStep (.startStream uuid) none world (.opening .creating) []
  | textRefused {handle write content e}
      (h : reserveText limits handle (byteLen content) world.state = .error e) :
    ObjectStep (.text handle write) (some (.text content .reserving)) world
      (.text content (.returned (.error e))) []
  | textReserved {handle write content state}
      (h : reserveText limits handle (byteLen content) world.state = .ok state) :
    ObjectStep (.text handle write) (some (.text content .reserving)) { world with state }
      (.text content .writing) []
  | textWritten {handle content stored} :
    ObjectStep (.text handle .ok) (some (.text content .writing))
      { world with files := world.files.insert (pathOf handle) (encode content) }
      (.text content (.returned (.ok stored))) []
  | textFailed {handle content left} :
    ObjectStep (.text handle (.failed left)) (some (.text content .writing))
      { world with files := writeFile (pathOf handle) (encode content) (.failed left) world.files }
      (.text content .releasing) []
  | textReleased {handle write content} :
    ObjectStep (.text handle write) (some (.text content .releasing))
      { world with state := (removeEntry handle world.state).1 }
      (.text content (.returned (.error .storageFailed))) []
  | created {handle more} :
    ObjectStep (.opening handle (.ok more)) (some (.opening .creating))
      { world with files := world.files.insert (pathOf handle) [] } (.opening .inserting) []
  | uncreated {handle} :
    ObjectStep (.opening handle .failed) (some (.opening .creating)) world
      (.opening (.failed .storageFailed)) []
  | refused {handle outcome e} (h : insertStream limits handle world.state = .error e) :
    ObjectStep (.opening handle outcome) (some (.opening .inserting)) world (.opening (.failed e)) []
  | inserted {handle outcome state} (h : insertStream limits handle world.state = .ok state) :
    ObjectStep (.opening handle outcome) (some (.opening .inserting)) { world with state }
      (.stream .new) []
  | append {handle bytes stream} :
    ObjectStep (.append handle bytes) (some (.stream stream)) world
      (.stream { stream with tasks := stream.tasks ++ [.append bytes .start] }) []
  | exit {handle stream} :
    ObjectStep (.exit handle) (some (.stream stream)) world (.stream { stream with exited := true }) []
  | respond {handle totalBytes policy stream} :
    ObjectStep (.respond handle totalBytes policy) (some (.stream stream)) world
      (.stream (stream.respond totalBytes policy)) []
  | task {handle i outcome stream task world' stream' task'} (hi : stream.tasks[i]? = some task)
      (h : TaskStep handle i outcome world stream task world' stream' task') :
    ObjectStep (.task handle i outcome) (some (.stream stream)) world'
      (.stream { stream' with tasks := stream'.tasks.set i task' }) task'.gives
  | writer {handle outcome stream world' stream'}
      (h : WriterStep limits handle outcome world stream world' stream') :
    ObjectStep (.writer handle outcome) (some (.stream stream)) world' (.stream stream') []
  | background {handle slot outcome stream world' stream'}
      (h : BackgroundStep outcome world stream slot world' stream') :
    ObjectStep (.background handle slot outcome) (some (.stream stream)) world' (.stream stream') []

end

section

variable {limits : Limits} {handle : String} {i : Nat} {outcome : Outcome} {world world' : World}
  {stream stream' : Stream} {task task' : Task}

theorem stepTask_cases
    (h : stepTask handle i outcome world stream task = some (world', stream', task')) :
    TaskStep handle i outcome world stream task world' stream' task' := by
  cases task with
  | append bytes pc =>
    obtain ⟨⟨world₁, stream₁, pc'⟩, happend, heq⟩ := Option.map_eq_some_iff.mp h
    cases heq
    cases pc with
    | start =>
      cases happend
      split_ifs with hdisabled
      · exact .skipped hdisabled
      · exact .started
    | counting =>
      cases happend
      exact .counted
    | sending =>
      simp only [stepAppend] at happend
      split_ifs at happend with hroom
      · cases happend
        exact .sent
      · cases happend
        exact .full (not_lt.mp hroom)
    | uncounting =>
      cases happend
      exact .uncounted
    | closing pc =>
      cases happend
      exact .closing
    | returned => cases happend
  | discard pc =>
    cases pc with
    | none => cases h
    | some pc =>
      cases h
      exact .discarding
  | recoverable before pc =>
    obtain ⟨pc', hrecover, heq⟩ := Option.map_eq_some_iff.mp h
    cases heq
    cases pc with
    | waiting =>
      simp only [stepRecover] at hrecover
      split_ifs at hrecover with hpending
      cases hrecover
      exact .waited hpending
    | checking =>
      cases hrecover
      split_ifs with hdisabled
      · exact .refused
      · exact .checked (Bool.eq_false_iff.mpr hdisabled)
    | looking =>
      cases hrecover
      exact .looked
    | returned output => cases hrecover

theorem stepWriter_cases (h : stepWriter limits handle outcome world stream = some (world', stream')) :
    WriterStep limits handle outcome world stream world' stream' := by
  unfold stepWriter at h
  cases hwriter : stream.writer with
  | idle =>
    cases hqueue : stream.queue with
    | nil => simp [hwriter, hqueue] at h
    | cons chunk queue =>
      simp only [hwriter, hqueue] at h
      cases h
      exact .received hwriter hqueue
  | received chunk =>
    simp only [hwriter] at h
    cases h
    split_ifs with hdisabled
    · exact .skipped hwriter hdisabled
    · exact .admitted hwriter (Bool.eq_false_iff.mpr hdisabled)
  | reserving chunk =>
    cases hreserve : reserveAppend limits handle chunk.bytes.length world.state with
    | error e =>
      simp only [hwriter, hreserve] at h
      cases h
      exact .refused hwriter hreserve
    | ok result =>
      simp only [hwriter, hreserve] at h
      cases h
      exact .reserved hwriter hreserve
  | opening chunk path =>
    simp only [hwriter] at h
    split_ifs at h with hfailed
    · cases h
      exact .unopened hwriter hfailed
    · cases h
      exact .opened hwriter
  | writing chunk path flight rest =>
    simp only [hwriter] at h
    cases rest with
    | nil =>
      cases h
      exact .wrote hwriter
    | cons byte rest =>
      cases flight with
      | cons next flight => cases h
      | nil =>
        cases outcome with
        | failed =>
          cases h
          exact .broke hwriter rfl
        | ok more =>
          cases h
          exact .handed hwriter
  | failing chunk pc =>
    simp only [hwriter] at h
    cases h
    exact .failing hwriter
  | closing chunk pc =>
    simp only [hwriter] at h
    cases h
    exact .closing hwriter
  | finishing chunk =>
    simp only [hwriter] at h
    cases h
    exact .finished hwriter

theorem stepBackground_cases {slot : Option Nat}
    (h : stepBackground slot outcome world stream = some (world', stream')) :
    BackgroundStep outcome world stream slot world' stream' := by
  unfold stepBackground at h
  cases slot with
  | none =>
    dsimp only at h
    split at h
    next hwriter =>
      cases h
      exact .landed hwriter
    next hwriter =>
      cases h
      exact .unseen hwriter rfl
    next hwriter =>
      cases h
      exact .seen hwriter rfl
    next => cases h
  | some j =>
    dsimp only at h
    split at h
    next hj =>
      cases h
      exact .arrived hj
    next hj =>
      cases h
      exact .lost hj
    next => cases h

theorem stepObject_cases {event : Event} {before : Option Object} {object : Object} {gives : List String}
    (h : stepObject limits world event before = some (world', object, gives)) :
    ObjectStep limits world event before world' object gives := by
  unfold stepObject at h
  split at h
  · split_ifs at h with hlarge
    cases h
    exact .storeText (not_lt.mp hlarge)
  · cases h
    exact .startStream
  next handle write content pc =>
    obtain ⟨⟨world₁, pc'⟩, htext, heq⟩ := Option.map_eq_some_iff.mp h
    cases heq
    cases pc with
    | reserving =>
      simp only [stepText] at htext
      split at htext
      next hreserve =>
        cases htext
        exact .textRefused hreserve
      next hreserve =>
        cases htext
        exact .textReserved hreserve
    | writing =>
      cases write with
      | ok =>
        cases htext
        exact .textWritten
      | failed left =>
        cases htext
        exact .textFailed
    | releasing =>
      cases htext
      exact .textReleased
    | returned result => cases htext
  next handle outcome pc =>
    obtain ⟨⟨world₁, object₁⟩, hopening, heq⟩ := Option.map_eq_some_iff.mp h
    cases heq
    cases pc with
    | creating =>
      cases outcome with
      | ok more =>
        cases hopening
        exact .created
      | failed =>
        cases hopening
        exact .uncreated
    | inserting =>
      simp only [stepOpening] at hopening
      split at hopening
      next hinsert =>
        cases hopening
        exact .refused hinsert
      next hinsert =>
        cases hopening
        exact .inserted hinsert
    | failed e => cases hopening
  · cases h
    exact .append
  · cases h
    exact .exit
  · cases h
    exact .respond
  · obtain ⟨task, hi, htask⟩ := Option.bind_eq_some_iff.mp h
    obtain ⟨⟨world₁, stream₁, task₁⟩, hstep, heq⟩ := Option.map_eq_some_iff.mp htask
    cases heq
    exact .task hi (stepTask_cases hstep)
  · obtain ⟨⟨world₁, stream₁⟩, hstep, heq⟩ := Option.map_eq_some_iff.mp h
    cases heq
    exact .writer (stepWriter_cases hstep)
  · obtain ⟨⟨world₁, stream₁⟩, hstep, heq⟩ := Option.map_eq_some_iff.mp h
    cases heq
    exact .background (stepBackground_cases hstep)
  · cases h

end

theorem step_some {limits : Limits} {session session' : Session} {event : Event}
    (h : step limits session event = some session') :
    ∃ world object gives,
      ObjectStep limits session.world event (session.objects.lookup event.handle) world object gives ∧
      session' = ⟨world, session.objects.insert event.handle object, session.given ++ gives⟩ := by
  obtain ⟨⟨world, object, gives⟩, hobject, heq⟩ := Option.map_eq_some_iff.mp h
  exact ⟨world, object, gives, stepObject_cases hobject, heq.symm⟩

end NovumAgent.ToolOutput
