import NovumAgent.Lib.Run
import NovumAgent.Lib.Utf8

/-!
# The body of a streamed response

The executor sends the body of a response in numbered deltas. On the client a table has a sender for every
request, a handler of each notification puts the delta into the channel of its request, and the consumer
takes the deltas out one `recv` at a time. There are many ways for this to end before the body does: the
bytes that are queued for all requests have a budget, a channel has 256 places, the transport can fail,
and the consumer can go away. Where an end is not in the channel it is written to a second table, which
the consumer looks at when its channel is closed.

The machine below is one request. A table's entry for the request is a field, other requests show in the
budget only, and every section that holds the lock of the tables is one step, as is every use of the
channel. `Ended` is the fact that carries the result: when the sender leaves the table for whatever
reason, the reason is in the channel or in the second table.
-/

namespace NovumAgent.ExecServer

open List

/-- `MAX_QUEUED_HTTP_BODY_BYTES`: the budget of all the requests together. -/
def maxQueuedHttpBodyBytes : Nat := 16 * 1024 * 1024

def maxHttpBodyDeltaBytes : Nat := 1024 * 1024

def httpBodyDeltaChannelCapacity : Nat := 256

/-- `HttpRequestBodyDeltaNotification`, for the request. -/
structure BodyDelta where
  seq : Nat
  delta : Bytes
  done : Bool
  error : Option Text
deriving DecidableEq

/-- Is it the last delta of its body? -/
def BodyDelta.terminal (delta : BodyDelta) : Bool := delta.done || delta.error.isSome

/-- The bytes a delta takes of the budget. -/
def BodyDelta.queuedBytes (delta : BodyDelta) : Nat :=
  saturatingAdd delta.delta.length ((delta.error.map fun e => (Utf8.encode e).length).getD 0)

/-- `QueuedHttpBodyDelta`: a delta in the channel and the permit it holds. -/
structure QueuedBodyDelta where
  notification : BodyDelta
  permit : Nat

/-- A notification that is being handled, with its copy of the sender. -/
inductive DeltaHandler where
  | loaded (delta : BodyDelta)
  | recording (message : Text)
  | removing
deriving DecidableEq

/-- What `recv` returns. -/
inductive Received where
  | chunk (bytes : Bytes)
  | eof
  | error (message : Text)
deriving DecidableEq

/-- Where a call of `recv` waits: nowhere, for the lock to remove the route, with the answer it has or
without one, or for the lock to look for a recorded failure. -/
inductive Receiving where
  | idle
  | finishing (answer : Option Received)
  | taking
deriving DecidableEq

/-- A request with a streamed response. The last two fields are its history: the notifications that came in
for it, and what the calls of `recv` returned. -/
structure BodyStream where
  requestId : Text
  route : Bool
  failure : Option Text
  failing : Option Text
  handlers : List DeltaHandler
  removers : Nat
  queue : List QueuedBodyDelta
  budget : Nat
  alive : Bool
  nextSeq : Nat
  pendingEof : Bool
  closed : Bool
  receiving : Receiving
  notified : List BodyDelta
  received : List Received

/-- One step of a handler, of `fail_all_http_body_streams`, of `recv`, or of the other requests. -/
inductive BodyEvent where
  | notify (delta : BodyDelta)
  | offer (index : Nat)
  | record (index : Nat)
  | remove (index : Nat)
  | abort (index : Nat)
  | failAll (message : Text)
  | deliverFailure
  | receive
  | finish
  | take
  | dropStream
  | removeRoute
  | budget (available : Nat)

namespace BodyStream

/-- A request that was just registered. -/
def start (requestId : Text) (budget : Nat) : BodyStream :=
  ⟨requestId, true, none, none, [], 0, [], budget, true, 1, false, false, .idle, [], []⟩

/-- Is a sender of the channel left? -/
def hasSender (stream : BodyStream) : Bool :=
  stream.route || stream.handlers ≠ [] || stream.failing.isSome

/-! ## Notifications -/

/-- `handle_http_body_delta_notification`, up to the copy of the sender. -/
def notify (stream : BodyStream) (delta : BodyDelta) : BodyStream :=
  let handlers :=
    if maxHttpBodyDeltaBytes < delta.delta.length ∨ ¬ stream.route then stream.handlers
    else stream.handlers ++ [.loaded delta]
  { stream with notified := stream.notified ++ [delta], handlers := handlers }

/-- A handler moves on. -/
def handle (stream : BodyStream) (index : Nat) (handler : DeltaHandler) : BodyStream :=
  { stream with handlers := stream.handlers.set index handler }

/-- A handler ends and drops its sender. -/
def leave (stream : BodyStream) (index : Nat) : BodyStream :=
  { stream with handlers := stream.handlers.eraseIdx index }

/-- The use of the budget and `try_send`. -/
def offer (stream : BodyStream) (index : Nat) (delta : BodyDelta) : BodyStream :=
  let bytes := delta.queuedBytes
  if 0 < bytes ∧ ¬ (bytes < 2 ^ 32 ∧ bytes ≤ stream.budget) then
    stream.handle index (.recording
      ("queued body deltas exceed ".toList ++ (toString maxQueuedHttpBodyBytes).toList ++
        " bytes".toList))
  else if ¬ stream.alive then stream.handle index .removing
  else if stream.queue.length < httpBodyDeltaChannelCapacity then
    let sent : BodyStream :=
      { stream with
        queue := stream.queue ++ [⟨delta, bytes⟩]
        budget := stream.budget - bytes }
    if delta.terminal then sent.handle index .removing else sent.leave index
  else stream.handle index (.recording "body delta channel filled before delivery".toList)

/-- The end that `fail_all_http_body_streams` sends. -/
def failureDelta (message : Text) : BodyDelta := ⟨1, [], true, some message⟩

/-- The rest of `fail_all_http_body_streams`, which holds the lock. -/
def deliverFailure (stream : BodyStream) (message : Text) : BodyStream :=
  if stream.alive ∧ stream.queue.length < httpBodyDeltaChannelCapacity then
    { stream with failing := none, queue := stream.queue ++ [⟨failureDelta message, 0⟩] }
  else { stream with failing := none, failure := some message }

/-! ## The consumer -/

/-- The text of a failure. -/
def failedText (stream : BodyStream) (error : Text) : Text :=
  "http response stream `".toList ++ stream.requestId ++ "` failed: ".toList ++ error

/-- The text of a gap. -/
def gapText (stream : BodyStream) (seq : Nat) : Text :=
  "http response stream `".toList ++ stream.requestId ++ "` received seq ".toList ++
    (toString seq).toList ++ ", expected ".toList ++ (toString stream.nextSeq).toList

/-- `recv` behind `finish_remote_stream`: it returns, or it looks for a failure. -/
def conclude (stream : BodyStream) : Option Received → BodyStream
  | some answer => { stream with receiving := .idle, received := stream.received ++ [answer] }
  | none => { stream with receiving := .taking }

/-- `recv` at `finish_remote_stream`, which waits for the lock the first time only. -/
def finishWith (stream : BodyStream) (answer : Option Received) : BodyStream :=
  if stream.closed then stream.conclude answer
  else { stream with closed := true, receiving := .finishing answer }

/-- `recv` with a delta of the channel. -/
def accept (stream : BodyStream) (delta : BodyDelta) : BodyStream :=
  if delta.seq ≠ stream.nextSeq then stream.finishWith (some (.error (stream.gapText delta.seq)))
  else
    let next : BodyStream := { stream with nextSeq := stream.nextSeq + 1 }
    match delta.error with
    | some error => next.finishWith (some (.error (stream.failedText error)))
    | none =>
      if delta.done then
        if delta.delta = [] then next.finishWith (some .eof)
        else { next with pendingEof := true }.finishWith (some (.chunk delta.delta))
      else next.conclude (some (.chunk delta.delta))

/-- `recv_inner`, up to its first wait for the lock. It waits while the channel is empty and a sender is
left. -/
def receive (stream : BodyStream) : Option BodyStream :=
  if stream.pendingEof then some ({ stream with pendingEof := false }.finishWith (some .eof))
  else
    match stream.queue with
    | queued :: queue =>
      some ({ stream with queue := queue, budget := stream.budget + queued.permit }.accept
        queued.notification)
    | [] => if stream.hasSender then none else some (stream.finishWith none)

/-- `take_http_body_stream_failure`, and what `recv` makes of it. -/
def take (stream : BodyStream) : BodyStream :=
  match stream.failure with
  | some error =>
    { stream with failure := none }.conclude (some (.error (stream.failedText error)))
  | none => stream.conclude (some .eof)

/-- One step. A section that needs the lock waits for `fail_all_http_body_streams` to end. -/
def step (stream : BodyStream) : BodyEvent → Option BodyStream
  | .notify delta => some (stream.notify delta)
  | .offer index =>
    match stream.handlers[index]? with
    | some (.loaded delta) => some (stream.offer index delta)
    | _ => none
  | .record index =>
    match stream.handlers[index]?, stream.failing with
    | some (.recording message), none =>
      some ({ stream with failure := some message }.handle index .removing)
    | _, _ => none
  | .remove index =>
    match stream.handlers[index]?, stream.failing with
    | some .removing, none => some ({ stream with route := false }.leave index)
    | _, _ => none
  | .abort index => some (stream.leave index)
  | .failAll message =>
    match stream.failing with
    | none =>
      if stream.route then some { stream with route := false, failing := some message }
      else some stream
    | some _ => none
  | .deliverFailure =>
    match stream.failing with
    | some message => some (stream.deliverFailure message)
    | none => none
  | .receive =>
    if stream.alive then
      match stream.receiving with
      | .idle => stream.receive
      | _ => none
    else none
  | .finish =>
    match stream.receiving, stream.failing with
    | .finishing answer, none => some ({ stream with route := false }.conclude answer)
    | _, _ => none
  | .take =>
    match stream.receiving, stream.failing with
    | .taking, none => some stream.take
    | _, _ => none
  | .dropStream =>
    match stream.receiving with
    | .idle =>
      some
        { stream with
          alive := false
          queue := []
          budget := stream.budget + (stream.queue.map QueuedBodyDelta.permit).sum
          closed := true
          removers := if stream.closed then stream.removers else stream.removers + 1 }
    | _ => none
  | .removeRoute =>
    match stream.failing with
    | none =>
      if 0 < stream.removers then
        some { stream with route := false, removers := stream.removers - 1 }
      else none
    | some _ => none
  | .budget available => some { stream with budget := available }

/-! ## The table and the channel -/

/-- There is a reason for the channel to end: the consumer has seen one, one is in the channel, or one is
recorded or about to be. -/
def Ended (stream : BodyStream) : Prop :=
  stream.closed = true ∨ (∃ queued ∈ stream.queue, queued.notification.terminal = true) ∨
    stream.failure.isSome = true ∨ stream.failing.isSome = true

/-- What holds of the table and the channel: the sender leaves the table for a reason, a consumer that is
gone or has someone remove the route has closed its side, and the channel has deltas of the request and
failures. -/
structure Routed (stream : BodyStream) : Prop where
  ended : stream.route = false ∨ .removing ∈ stream.handlers → Ended stream
  dead : stream.alive = false ∨ 0 < stream.removers → stream.closed = true
  loaded : ∀ delta, .loaded delta ∈ stream.handlers → delta ∈ stream.notified
  queued : ∀ queued ∈ stream.queue,
    queued.notification ∈ stream.notified ∨ queued.notification.error.isSome = true

variable {stream next : BodyStream} {index : Nat}

theorem routed_start (requestId : Text) (budget : Nat) : Routed (start requestId budget) where
  ended := by
    rintro (hroute | hhandler)
    · cases hroute
    · cases hhandler
  dead := by
    rintro (halive | hremovers)
    · cases halive
    · exact absurd hremovers (Nat.lt_irrefl _)
  loaded := nofun
  queued := nofun

theorem Ended.mono (h : Ended stream) (hclosed : stream.closed = true → next.closed = true)
    (hqueue : stream.queue ⊆ next.queue)
    (hfailure : stream.failure.isSome = true → next.failure.isSome = true)
    (hfailing : stream.failing.isSome = true → Ended next) : Ended next := by
  obtain hend | ⟨queued, hmem, hterminal⟩ | hrecorded | hpending := h
  · exact .inl (hclosed hend)
  · exact .inr (.inl ⟨queued, hqueue hmem, hterminal⟩)
  · exact .inr (.inr (.inl (hfailure hrecorded)))
  · exact hfailing hpending

section

variable (h : Routed stream)
include h

theorem Routed.recording (message : Text) : Routed (stream.handle index (.recording message)) := by
  have hhandlers : ∀ handler, handler ≠ .recording message →
      handler ∈ (stream.handle index (.recording message)).handlers → handler ∈ stream.handlers := by
    intro handler hne hmem
    obtain hold | hnew := mem_or_eq_of_mem_set hmem
    · exact hold
    · exact absurd hnew hne
  refine ⟨?_, h.dead, fun delta hmem => h.loaded delta (hhandlers _ nofun hmem), h.queued⟩
  rintro (hroute | hhandler)
  · exact h.ended (.inl hroute)
  · exact h.ended (.inr (hhandlers _ nofun hhandler))

theorem Routed.removing (hended : Ended stream) : Routed (stream.handle index .removing) := by
  refine ⟨fun _ => hended, h.dead, fun delta hmem => ?_, h.queued⟩
  obtain hold | hnew := mem_or_eq_of_mem_set hmem
  · exact h.loaded delta hold
  · cases hnew

theorem Routed.leave : Routed (stream.leave index) := by
  have hhandlers : (stream.leave index).handlers ⊆ stream.handlers := eraseIdx_subset
  refine ⟨?_, h.dead, fun delta hmem => h.loaded delta (hhandlers hmem), h.queued⟩
  rintro (hroute | hhandler)
  · exact h.ended (.inl hroute)
  · exact h.ended (.inr (hhandlers hhandler))

theorem Routed.unroute (hended : Ended stream) : Routed { stream with route := false } :=
  ⟨fun _ => hended, h.dead, h.loaded, h.queued⟩

variable {delta : BodyDelta}

theorem Routed.push (permit budget : Nat)
    (hdelta : delta ∈ stream.notified ∨ delta.error.isSome = true) :
    Routed { stream with queue := stream.queue ++ [⟨delta, permit⟩], budget := budget } := by
  refine ⟨fun hgone => ?_, h.dead, h.loaded,
    forall_mem_append.mpr ⟨h.queued, forall_mem_singleton.mpr hdelta⟩⟩
  exact (h.ended hgone).mono id (subset_append_left _ _) id fun hfailing =>
    .inr (.inr (.inr hfailing))

theorem Routed.notify (delta : BodyDelta) : Routed (stream.notify delta) := by
  have hhandlers : ∀ handler ∈ (stream.notify delta).handlers,
      handler ∈ stream.handlers ∨ handler = .loaded delta := by
    intro handler hmem
    unfold BodyStream.notify at hmem
    dsimp only at hmem
    split at hmem
    · exact .inl hmem
    · obtain hold | hnew := mem_append.mp hmem
      · exact .inl hold
      · exact .inr (mem_singleton.mp hnew)
  refine ⟨?_, h.dead, fun other hother => ?_, fun queued hmem => ?_⟩
  · rintro (hroute | hhandler)
    · exact h.ended (.inl hroute)
    · obtain hold | hnew := hhandlers _ hhandler
      · exact h.ended (.inr hold)
      · cases hnew
  · obtain hold | hnew := hhandlers _ hother
    · exact mem_append_left _ (h.loaded other hold)
    · cases hnew
      exact mem_append_right _ (mem_singleton.mpr rfl)
  · obtain hnotified | herror := h.queued queued hmem
    · exact .inl (mem_append_left _ hnotified)
    · exact .inr herror

theorem Routed.offer
    (hmem : stream.handlers[index]? = some (.loaded delta)) : Routed (stream.offer index delta) := by
  have hnotified := h.loaded delta (mem_of_getElem? hmem)
  unfold BodyStream.offer
  dsimp only
  split
  · exact h.recording _
  · split
    next hdead => exact h.removing (.inl (h.dead (.inl ((Bool.not_eq_true _).mp hdead))))
    next =>
      split
      · have hpushed := h.push delta.queuedBytes (stream.budget - delta.queuedBytes) (.inl hnotified)
        split
        next hterminal =>
          refine hpushed.removing (.inr (.inl ⟨⟨delta, delta.queuedBytes⟩, ?_, hterminal⟩))
          exact mem_append_right _ (mem_singleton.mpr rfl)
        next => exact hpushed.leave
      · exact h.recording _

theorem Routed.record (message : Text) :
    Routed ({ stream with failure := some message }.handle index .removing) := by
  have hrecorded : Ended { stream with failure := some message } := .inr (.inr (.inl rfl))
  exact Routed.removing ⟨fun _ => hrecorded, h.dead, h.loaded, h.queued⟩ hrecorded

theorem Routed.deliverFailure (message : Text) : Routed (stream.deliverFailure message) := by
  unfold BodyStream.deliverFailure
  split
  · have hpushed : Routed { stream with queue := stream.queue ++ [⟨failureDelta message, 0⟩] } :=
      h.push 0 stream.budget (.inr rfl)
    refine ⟨fun _ => .inr (.inl ⟨⟨failureDelta message, 0⟩, ?_, rfl⟩), h.dead, h.loaded,
      hpushed.queued⟩
    exact mem_append_right _ (mem_singleton.mpr rfl)
  · exact ⟨fun _ => .inr (.inr (.inl rfl)), h.dead, h.loaded, h.queued⟩

theorem Routed.read (hroute : next.route = stream.route)
    (hhandlers : next.handlers = stream.handlers) (halive : next.alive = stream.alive)
    (hremovers : next.removers = stream.removers) (hnotified : next.notified = stream.notified)
    (hqueue : next.queue ⊆ stream.queue)
    (hended : next.closed = true ∨ (next.closed = stream.closed ∧ next.failure = stream.failure ∧
      next.failing = stream.failing ∧
        ∀ queued ∈ stream.queue, queued.notification.terminal = true → queued ∈ next.queue)) :
    Routed next := by
  refine ⟨fun hgone => ?_, fun hdead => ?_, ?_, fun queued hmem => ?_⟩
  · rw [hroute, hhandlers] at hgone
    obtain hclosed | ⟨hclosed, hfailure, hfailing, hkept⟩ := hended
    · exact .inl hclosed
    · obtain hend | ⟨queued, hmem, hterminal⟩ | hrecorded | hpending := h.ended hgone
      · exact .inl (hclosed.trans hend)
      · exact .inr (.inl ⟨queued, hkept queued hmem hterminal, hterminal⟩)
      · exact .inr (.inr (.inl (hfailure ▸ hrecorded)))
      · exact .inr (.inr (.inr (hfailing ▸ hpending)))
  · rw [halive, hremovers] at hdead
    obtain hclosed | ⟨hclosed, -⟩ := hended
    · exact hclosed
    · exact hclosed.trans (h.dead hdead)
  · rw [hhandlers, hnotified]
    exact h.loaded
  · rw [hnotified]
    exact h.queued queued (hqueue hmem)

end

/-! ## The consumer's story -/

/-- Deltas of the request that are not its last, numbered from one. -/
def InOrder (notified deltas : List BodyDelta) : Prop :=
  ∀ i delta, deltas[i]? = some delta →
    delta.seq = i + 1 ∧ delta.error = none ∧ delta.done = false ∧ delta ∈ notified

/-- The delta of the request that ends its body without an error, behind so many others. -/
def IsLast (notified : List BodyDelta) (count : Nat) (last : BodyDelta) : Prop :=
  last.seq = count + 1 ∧ last.error = none ∧ last.done = true ∧ last ∈ notified

/-- **The chunks are the whole body**: those of the deltas from the first to the one marked as done. That one
brings no chunk of its own if it is empty. -/
def Complete (notified : List BodyDelta) (chunks : List Bytes) : Prop :=
  ∃ deltas last, InOrder notified deltas ∧ IsLast notified deltas.length last ∧
    chunks = deltas.map BodyDelta.delta ++ if last.delta = [] then [] else [last.delta]

/-- The first answer that is not a chunk is an error, or the end behind the whole body. -/
def Settled (notified : List BodyDelta) (received : List Received) : Prop :=
  ∃ chunks answer rest, received = chunks.map Received.chunk ++ answer :: rest ∧
    (∀ bytes, answer ≠ .chunk bytes) ∧ (answer = .eof → Complete notified chunks)

/-- The chunks of deltas, as answers. -/
def answers (deltas : List BodyDelta) : List Received :=
  (deltas.map BodyDelta.delta).map Received.chunk

/-- Where the consumer is. -/
inductive Story (stream : BodyStream) : Prop where
  /-- It has the chunks of the first deltas and may go on. -/
  | reading (deltas : List BodyDelta) (horder : InOrder stream.notified deltas)
      (hnext : stream.nextSeq = deltas.length + 1) (hidle : stream.receiving = .idle)
      (hopen : stream.closed = false) (hmore : stream.pendingEof = false)
      (hreceived : stream.received = answers deltas)
  /-- It has the last chunk in hand, or has returned it. -/
  | lastChunk (deltas : List BodyDelta) (last : BodyDelta)
      (horder : InOrder stream.notified deltas) (hlast : IsLast stream.notified deltas.length last)
      (hchunk : last.delta ≠ []) (hclosed : stream.closed = true)
      (hpending : stream.pendingEof = true)
      (hreceived : stream.receiving = .finishing (some (.chunk last.delta)) ∧
          stream.received = answers deltas ∨
        stream.receiving = .idle ∧ stream.received = answers (deltas ++ [last]))
  /-- It has seen the end, which brought no chunk. -/
  | ending (deltas : List BodyDelta) (last : BodyDelta)
      (horder : InOrder stream.notified deltas) (hlast : IsLast stream.notified deltas.length last)
      (hchunk : last.delta = []) (hclosed : stream.closed = true)
      (hreceiving : stream.receiving = .finishing (some .eof))
      (hreceived : stream.received = answers deltas)
  /-- It is about to return an error. -/
  | failing (deltas : List BodyDelta) (message : Text) (hclosed : stream.closed = true)
      (hreceiving : stream.receiving = .finishing (some (.error message)))
      (hreceived : stream.received = answers deltas)
  /-- Its channel is closed, and a failure is recorded. -/
  | lost (deltas : List BodyDelta) (hclosed : stream.closed = true)
      (hreceiving : stream.receiving = .finishing none ∨ stream.receiving = .taking)
      (hfailure : stream.failure.isSome = true) (hreceived : stream.received = answers deltas)
  /-- It has dropped the stream before the end. -/
  | dropped (deltas : List BodyDelta) (hclosed : stream.closed = true)
      (hidle : stream.receiving = .idle) (hdead : stream.alive = false)
      (hreceived : stream.received = answers deltas)
  /-- It has returned what is no chunk. -/
  | settled (hclosed : stream.closed = true) (h : Settled stream.notified stream.received)

theorem story_start (requestId : Text) (budget : Nat) : Story (start requestId budget) :=
  .reading [] (fun _ _ h => nomatch h) rfl rfl rfl rfl rfl

section

variable {notified more deltas : List BodyDelta} {last delta : BodyDelta} {chunks : List Bytes}
  {received : List Received}

theorem InOrder.mono (h : InOrder notified deltas) (hmore : notified ⊆ more) : InOrder more deltas :=
  fun i delta hdelta =>
    have hall := h i delta hdelta
    ⟨hall.1, hall.2.1, hall.2.2.1, hmore hall.2.2.2⟩

theorem IsLast.mono {count : Nat} (h : IsLast notified count last) (hmore : notified ⊆ more) :
    IsLast more count last :=
  ⟨h.1, h.2.1, h.2.2.1, hmore h.2.2.2⟩

theorem Complete.mono (h : Complete notified chunks) (hmore : notified ⊆ more) :
    Complete more chunks := by
  obtain ⟨deltas, last, horder, hlast, hchunks⟩ := h
  exact ⟨deltas, last, horder.mono hmore, hlast.mono hmore, hchunks⟩

theorem Settled.mono (h : Settled notified received) (hmore : notified ⊆ more)
    (later : List Received) : Settled more (received ++ later) := by
  obtain ⟨chunks, answer, rest, rfl, hanswer, hcomplete⟩ := h
  refine ⟨chunks, answer, rest ++ later, ?_, hanswer, fun heof => (hcomplete heof).mono hmore⟩
  rw [append_assoc]
  rfl

theorem InOrder.push (h : InOrder notified deltas) (hseq : delta.seq = deltas.length + 1)
    (herror : delta.error = none) (hdone : delta.done = false) (hmem : delta ∈ notified) :
    InOrder notified (deltas ++ [delta]) := by
  intro i other hother
  rw [getElem?_append] at hother
  split at hother
  next => exact h i other hother
  next hend =>
    rw [getElem?_singleton] at hother
    obtain ⟨hzero, ⟨⟩⟩ := Option.ite_none_right_eq_some.mp hother
    exact ⟨by omega, herror, hdone, hmem⟩

theorem answers_concat (deltas : List BodyDelta) (delta : BodyDelta) :
    answers (deltas ++ [delta]) = answers deltas ++ [.chunk delta.delta] := by
  unfold answers
  rw [map_append, map_append]
  rfl

theorem settled_error (deltas : List BodyDelta) (message : Text) :
    Settled notified (answers deltas ++ [.error message]) :=
  ⟨_, .error message, [], rfl, nofun, nofun⟩

end

/-- A step that is not the consumer's: what it knows stays, or becomes more. -/
structure SameReader (stream next : BodyStream) : Prop where
  nextSeq : next.nextSeq = stream.nextSeq
  pendingEof : next.pendingEof = stream.pendingEof
  closed : next.closed = stream.closed
  receiving : next.receiving = stream.receiving
  received : next.received = stream.received
  alive : next.alive = stream.alive
  notified : stream.notified ⊆ next.notified
  failure : stream.failure.isSome = true → next.failure.isSome = true

theorem Story.frame (h : Story stream) (hsame : SameReader stream next) : Story next := by
  obtain ⟨hseq, hpending, hclosed, hreceiving, hreceived, halive, hnotified, hfailure⟩ := hsame
  cases h with
  | reading deltas horder hnext hidle hopen hmore hall =>
    exact .reading deltas (horder.mono hnotified) (hseq.trans hnext) (hreceiving.trans hidle)
      (hclosed.trans hopen) (hpending.trans hmore) (hreceived.trans hall)
  | lastChunk deltas last horder hlast hchunk hend hpend hall =>
    refine .lastChunk deltas last (horder.mono hnotified) (hlast.mono hnotified) hchunk
      (hclosed.trans hend) (hpending.trans hpend) ?_
    rw [hreceiving, hreceived]
    exact hall
  | ending deltas last horder hlast hchunk hend hwait hall =>
    exact .ending deltas last (horder.mono hnotified) (hlast.mono hnotified) hchunk
      (hclosed.trans hend) (hreceiving.trans hwait) (hreceived.trans hall)
  | failing deltas message hend hwait hall =>
    exact .failing deltas message (hclosed.trans hend) (hreceiving.trans hwait) (hreceived.trans hall)
  | lost deltas hend hwait hrecorded hall =>
    refine .lost deltas (hclosed.trans hend) ?_ (hfailure hrecorded) (hreceived.trans hall)
    rw [hreceiving]
    exact hwait
  | dropped deltas hend hidle hdead hall =>
    exact .dropped deltas (hclosed.trans hend) (hreceiving.trans hidle) (halive.trans hdead)
      (hreceived.trans hall)
  | settled hend hsettled =>
    have hmono := hsettled.mono hnotified []
    rw [append_nil] at hmono
    exact .settled (hclosed.trans hend) (hreceived ▸ hmono)

theorem finishWith_of_open (h : stream.closed = false) (answer : Option Received) :
    stream.finishWith answer = { stream with closed := true, receiving := .finishing answer } :=
  if_neg (by rw [h]; exact Bool.false_ne_true)

/-- The consumer's moves leave the table and the channel alone, and what it received stays. -/
structure Untouched (stream next : BodyStream) : Prop where
  route : next.route = stream.route
  handlers : next.handlers = stream.handlers
  alive : next.alive = stream.alive
  removers : next.removers = stream.removers
  notified : next.notified = stream.notified
  queue : next.queue = stream.queue
  failure : next.failure = stream.failure
  failing : next.failing = stream.failing
  closed : next.closed = true ∨ next.closed = stream.closed
  received : ∃ later, next.received = stream.received ++ later

theorem Untouched.refl (stream : BodyStream) : Untouched stream stream :=
  ⟨rfl, rfl, rfl, rfl, rfl, rfl, rfl, rfl, .inr rfl, [], (append_nil _).symm⟩

section

variable {reader : BodyStream} (h : Untouched stream reader)
include h

theorem Untouched.conclude (answer : Option Received) :
    Untouched stream (reader.conclude answer) := by
  cases answer with
  | some answer =>
    obtain ⟨later, hlater⟩ := h.received
    refine { h with received := ⟨later ++ [answer], ?_⟩ }
    rw [← append_assoc, ← hlater]
    rfl
  | none => exact { h with }

theorem Untouched.finishWith (answer : Option Received) :
    Untouched stream (reader.finishWith answer) := by
  unfold BodyStream.finishWith
  split
  · exact h.conclude answer
  · exact { h with closed := .inl rfl }

theorem Untouched.advance (nextSeq : Nat) (pendingEof : Bool) :
    Untouched stream { reader with nextSeq := nextSeq, pendingEof := pendingEof } :=
  { h with }

theorem Untouched.accept (delta : BodyDelta) : Untouched stream (reader.accept delta) := by
  unfold BodyStream.accept
  split
  · exact h.finishWith _
  · dsimp only
    split
    · exact (h.advance _ _).finishWith _
    · split
      · split
        · exact (h.advance _ _).finishWith _
        · exact (h.advance _ _).finishWith _
      · exact (h.advance _ _).conclude _

end

theorem Untouched.still_closed (hsame : Untouched stream next) (hclosed : stream.closed = true) :
    next.closed = true :=
  hsame.closed.elim id fun heq => heq.trans hclosed

theorem Untouched.settled (hsame : Untouched stream next) (hclosed : stream.closed = true)
    (h : Settled stream.notified stream.received) : Story next := by
  obtain ⟨later, hlater⟩ := hsame.received
  refine .settled (hsame.still_closed hclosed) ?_
  rw [hsame.notified, hlater]
  exact h.mono (List.Subset.refl _) later

/-- **The next delta**, for a consumer that has those before it. -/
theorem story_accept {deltas : List BodyDelta}
    (horder : InOrder stream.notified deltas) (hnext : stream.nextSeq = deltas.length + 1)
    (hopen : stream.closed = false)
    (hmore : stream.pendingEof = false) (hreceived : stream.received = answers deltas)
    (hdelta : delta ∈ stream.notified ∨ delta.error.isSome = true) : Story (stream.accept delta) := by
  unfold accept
  split
  next =>
    rw [finishWith_of_open hopen]
    exact .failing deltas _ rfl rfl hreceived
  next hseq =>
    have hseq : delta.seq = deltas.length + 1 := by
      rw [← hnext]
      exact not_not.mp hseq
    dsimp only
    split
    next error herror =>
      rw [finishWith_of_open (by exact hopen)]
      exact .failing deltas _ rfl rfl hreceived
    next hnone =>
      have hmem : delta ∈ stream.notified := by
        obtain hmem | herror := hdelta
        · exact hmem
        · rw [hnone] at herror
          cases herror
      split
      next hdone =>
        have hlast : IsLast stream.notified deltas.length delta := ⟨hseq, hnone, hdone, hmem⟩
        split
        next hempty =>
          rw [finishWith_of_open (by exact hopen)]
          exact .ending deltas delta horder hlast hempty rfl rfl hreceived
        next hchunk =>
          rw [finishWith_of_open (by exact hopen)]
          exact .lastChunk deltas delta horder hlast hchunk rfl rfl (.inl ⟨rfl, hreceived⟩)
      next hdone =>
        refine .reading (deltas ++ [delta])
          (horder.push hseq hnone ((Bool.not_eq_true _).mp hdone) hmem) ?_ rfl hopen hmore ?_
        · show stream.nextSeq + 1 = _
          rw [hnext, length_append]
          rfl
        · show stream.received ++ _ = _
          rw [hreceived, answers_concat]

theorem Story.receive (h : Story stream) (hrouted : Routed stream) (hidle : stream.receiving = .idle)
    (halive : stream.alive = true) (hstep : stream.receive = some next) : Story next := by
  unfold BodyStream.receive at hstep
  cases h with
  | reading deltas horder hnext _ hopen hmore hreceived =>
    rw [if_neg (by rw [hmore]; exact Bool.false_ne_true)] at hstep
    split at hstep
    next queued queue hqueue =>
      cases hstep
      refine story_accept horder hnext hopen hmore hreceived ?_
      exact hrouted.queued queued (hqueue ▸ mem_cons_self)
    next hqueue =>
      obtain ⟨hsender, ⟨⟩⟩ := Option.ite_none_left_eq_some.mp hstep
      -- no sender is left, so the route is gone, and the reason is neither seen nor in the channel
      have hgone : stream.route = false ∧ stream.failing.isSome = false := by
        simp only [hasSender, Bool.or_eq_true, not_or, Bool.not_eq_true] at hsender
        exact ⟨hsender.1.1, hsender.2⟩
      have hfailure : stream.failure.isSome = true := by
        obtain hclosed | ⟨queued, hmem, -⟩ | hrecorded | hpending := hrouted.ended (.inl hgone.1)
        · rw [hopen] at hclosed
          cases hclosed
        · rw [hqueue] at hmem
          cases hmem
        · exact hrecorded
        · rw [hgone.2] at hpending
          cases hpending
      rw [finishWith_of_open hopen]
      exact .lost deltas rfl (.inl rfl) hfailure hreceived
  | lastChunk deltas last horder hlast hchunk hclosed hpending hreceived =>
    rw [if_pos hpending] at hstep
    cases hstep
    obtain ⟨hwait, -⟩ | ⟨-, hall⟩ := hreceived
    · cases hidle.symm.trans hwait
    · rw [finishWith, if_pos (by exact hclosed)]
      refine .settled hclosed ⟨(deltas ++ [last]).map BodyDelta.delta, .eof, [], ?_, nofun, fun _ => ?_⟩
      · show stream.received ++ _ = _
        rw [hall]
        rfl
      · refine ⟨deltas, last, horder, hlast, ?_⟩
        rw [if_neg hchunk, map_append]
        rfl
  | ending _ _ _ _ _ _ hwait _ | failing _ _ _ hwait _ =>
    cases hidle.symm.trans hwait
  | lost _ _ hwait _ _ =>
    rw [hidle] at hwait
    obtain hwait | hwait := hwait <;> cases hwait
  | dropped _ _ _ hdead _ =>
    rw [halive] at hdead
    cases hdead
  | settled hclosed hsettled =>
    split at hstep
    · cases hstep
      exact ((Untouched.refl _).finishWith _).settled hclosed hsettled
    · split at hstep
      · cases hstep
        exact ((Untouched.refl _).accept _).settled hclosed hsettled
      · obtain ⟨-, ⟨⟩⟩ := Option.ite_none_left_eq_some.mp hstep
        exact ((Untouched.refl _).finishWith _).settled hclosed hsettled

theorem Story.finish (h : Story stream) {answer : Option Received}
    (hwait : stream.receiving = .finishing answer) :
    Story ({ stream with route := false }.conclude answer) := by
  cases h with
  | reading _ _ _ hidle _ _ _ | dropped _ _ hidle _ _ =>
    cases hidle.symm.trans hwait
  | lastChunk deltas last horder hlast hchunk hclosed hpending hreceived =>
    obtain ⟨hwaiting, hall⟩ | ⟨hidle, -⟩ := hreceived
    · cases hwaiting.symm.trans hwait
      refine .lastChunk deltas last horder hlast hchunk hclosed hpending (.inr ⟨rfl, ?_⟩)
      show stream.received ++ _ = _
      rw [hall, answers_concat]
    · cases hidle.symm.trans hwait
  | ending deltas last horder hlast hchunk hclosed hwaiting hall =>
    cases hwaiting.symm.trans hwait
    refine .settled hclosed ⟨deltas.map BodyDelta.delta, .eof, [], ?_, nofun, fun _ => ?_⟩
    · show stream.received ++ _ = _
      rw [hall]
      rfl
    · refine ⟨deltas, last, horder, hlast, ?_⟩
      rw [if_pos hchunk, append_nil]
  | failing deltas message hclosed hwaiting hall =>
    cases hwaiting.symm.trans hwait
    refine .settled hclosed ?_
    show Settled _ (stream.received ++ _)
    rw [hall]
    exact settled_error deltas message
  | lost deltas hclosed hwaiting hfailure hall =>
    obtain hwaiting | hwaiting := hwaiting
    · cases hwaiting.symm.trans hwait
      exact .lost deltas hclosed (.inr rfl) hfailure hall
    · cases hwaiting.symm.trans hwait
  | settled hclosed hsettled =>
    exact ((Untouched.refl _).conclude _).settled hclosed hsettled

theorem Story.take (h : Story stream) (hwait : stream.receiving = .taking) : Story stream.take := by
  cases h with
  | reading _ _ _ hidle _ _ _ | dropped _ _ hidle _ _ =>
    cases hidle.symm.trans hwait
  | lastChunk _ _ _ _ _ _ _ hreceived =>
    obtain ⟨hwaiting, -⟩ | ⟨hidle, -⟩ := hreceived
    · cases hwaiting.symm.trans hwait
    · cases hidle.symm.trans hwait
  | ending _ _ _ _ _ _ hwaiting _ | failing _ _ _ hwaiting _ =>
    cases hwaiting.symm.trans hwait
  | lost deltas hclosed _ hfailure hall =>
    obtain ⟨error, herror⟩ := Option.isSome_iff_exists.mp hfailure
    unfold BodyStream.take
    rw [herror]
    refine .settled hclosed ?_
    show Settled _ (stream.received ++ _)
    rw [hall]
    exact settled_error deltas _
  | settled hclosed hsettled =>
    unfold BodyStream.take
    split
    · exact ((Untouched.refl _).conclude _).settled hclosed hsettled
    · exact ((Untouched.refl _).conclude _).settled hclosed hsettled

/-! ## Every step -/

theorem closed_finishWith (answer : Option Received) : (stream.finishWith answer).closed = true := by
  unfold finishWith
  split
  next h => exact ((Untouched.refl stream).conclude answer).still_closed h
  next => rfl

theorem closed_accept (h : delta.terminal = true) : (stream.accept delta).closed = true := by
  unfold accept
  split
  · exact closed_finishWith _
  · dsimp only
    split
    · exact closed_finishWith _
    next hnone =>
      have hdone : delta.done = true := by
        unfold BodyDelta.terminal at h
        rw [hnone] at h
        exact (Bool.or_false _).symm.trans h
      rw [if_pos hdone]
      split
      · exact closed_finishWith _
      · exact closed_finishWith _

/-- The consumer has closed its side, so there is a reason for any end. -/
theorem Routed.concluded (h : Routed stream) (hclosed : next.closed = true)
    (hsame : Untouched stream next) : Routed next := by
  refine h.read hsame.route hsame.handlers hsame.alive hsame.removers hsame.notified ?_ (.inl hclosed)
  rw [hsame.queue]
  exact List.Subset.refl _

theorem Routed.conclude (h : Routed stream) (hclosed : stream.closed = true)
    (answer : Option Received) : Routed (stream.conclude answer) :=
  have hsame := (Untouched.refl stream).conclude answer
  h.concluded (hsame.still_closed hclosed) hsame

theorem Routed.receive (h : Routed stream) (hstep : stream.receive = some next) : Routed next := by
  unfold BodyStream.receive at hstep
  split at hstep
  next =>
    cases hstep
    exact h.concluded (closed_finishWith _)
      (((Untouched.refl stream).advance stream.nextSeq false).finishWith (some .eof))
  next =>
    split at hstep
    next queued queue hqueue =>
      cases hstep
      have hsame := (Untouched.refl { stream with
        queue := queue, budget := stream.budget + queued.permit }).accept queued.notification
      refine h.read hsame.route hsame.handlers hsame.alive hsame.removers hsame.notified ?_ ?_
      · rw [hsame.queue, hqueue]
        exact subset_cons_self _ _
      · by_cases hterminal : queued.notification.terminal = true
        · exact .inl (closed_accept hterminal)
        · obtain hclosed | hclosed := hsame.closed
          · exact .inl hclosed
          · refine .inr ⟨hclosed, hsame.failure, hsame.failing, fun other hother hend => ?_⟩
            rw [hsame.queue]
            rw [hqueue] at hother
            obtain rfl | hlater := mem_cons.mp hother
            · exact absurd hend hterminal
            · exact hlater
    next =>
      obtain ⟨-, ⟨⟩⟩ := Option.ite_none_left_eq_some.mp hstep
      exact h.concluded (closed_finishWith _) ((Untouched.refl stream).finishWith none)

theorem Story.closed (h : Story stream) (hwait : stream.receiving ≠ .idle) : stream.closed = true := by
  cases h with
  | reading _ _ _ hidle _ _ _ => exact absurd hidle hwait
  | lastChunk _ _ _ _ _ hclosed _ _ => exact hclosed
  | ending _ _ _ _ _ hclosed _ _ => exact hclosed
  | failing _ _ hclosed _ _ => exact hclosed
  | lost _ hclosed _ _ _ => exact hclosed
  | dropped _ hclosed _ _ _ => exact hclosed
  | settled hclosed _ => exact hclosed

theorem Story.drop (h : Story stream) (hidle : stream.receiving = .idle)
    (hpending : next.pendingEof = stream.pendingEof) (hclosed : next.closed = true)
    (hreceiving : next.receiving = stream.receiving) (hreceived : next.received = stream.received)
    (hnotified : next.notified = stream.notified) (hdead : next.alive = false) : Story next := by
  cases h with
  | reading deltas _ _ _ _ _ hall | dropped deltas _ _ _ hall =>
    exact .dropped deltas hclosed (hreceiving.trans hidle) hdead (hreceived.trans hall)
  | lastChunk deltas last horder hlast hchunk _ hpend hall =>
    refine .lastChunk deltas last (hnotified ▸ horder) (hnotified ▸ hlast) hchunk hclosed
      (hpending.trans hpend) ?_
    rw [hreceiving, hreceived]
    exact hall
  | ending _ _ _ _ _ _ hwait _ | failing _ _ _ hwait _ =>
    cases hidle.symm.trans hwait
  | lost _ _ hwait _ _ =>
    rw [hidle] at hwait
    obtain hwait | hwait := hwait <;> cases hwait
  | settled _ hsettled =>
    refine .settled hclosed ?_
    rw [hnotified, hreceived]
    exact hsettled

/-- The table, the channel and the consumer. -/
structure Sound (stream : BodyStream) : Prop where
  routed : Routed stream
  story : Story stream

theorem sameReader_offer (delta : BodyDelta) : SameReader stream (stream.offer index delta) := by
  unfold offer
  dsimp only
  repeat' split
  all_goals exact ⟨rfl, rfl, rfl, rfl, rfl, rfl, List.Subset.refl _, id⟩

theorem sameReader_deliverFailure (message : Text) :
    SameReader stream (stream.deliverFailure message) := by
  unfold deliverFailure
  split
  · exact ⟨rfl, rfl, rfl, rfl, rfl, rfl, List.Subset.refl _, id⟩
  · exact ⟨rfl, rfl, rfl, rfl, rfl, rfl, List.Subset.refl _, fun _ => rfl⟩

theorem Sound.other (h : Sound stream) (hrouted : Routed next) (hsame : SameReader stream next) :
    Sound next :=
  ⟨hrouted, h.story.frame hsame⟩

/-- **Every step** keeps the table, the channel and the consumer in order. -/
theorem Sound.step {event : BodyEvent} (h : Sound stream) (hstep : stream.step event = some next) :
    Sound next := by
  cases event with
  | notify delta =>
    cases hstep
    exact h.other (h.routed.notify delta) ⟨rfl, rfl, rfl, rfl, rfl, rfl, subset_append_left _ _, id⟩
  | offer index =>
    simp only [BodyStream.step] at hstep
    split at hstep
    next delta hhandler =>
      cases hstep
      exact h.other (h.routed.offer hhandler) (sameReader_offer delta)
    next => cases hstep
  | record index =>
    simp only [BodyStream.step] at hstep
    split at hstep
    next message _ _ =>
      cases hstep
      exact h.other (h.routed.record message)
        ⟨rfl, rfl, rfl, rfl, rfl, rfl, List.Subset.refl _, fun _ => rfl⟩
    next => cases hstep
  | remove index =>
    simp only [BodyStream.step] at hstep
    split at hstep
    next hhandler _ =>
      cases hstep
      have hended := h.routed.ended (.inr (mem_of_getElem? hhandler))
      exact h.other (h.routed.unroute hended).leave ⟨rfl, rfl, rfl, rfl, rfl, rfl, List.Subset.refl _, id⟩
    next => cases hstep
  | abort index =>
    cases hstep
    exact h.other h.routed.leave ⟨rfl, rfl, rfl, rfl, rfl, rfl, List.Subset.refl _, id⟩
  | failAll message =>
    simp only [BodyStream.step] at hstep
    split at hstep
    next =>
      split at hstep
      next =>
        cases hstep
        refine h.other ?_ ⟨rfl, rfl, rfl, rfl, rfl, rfl, List.Subset.refl _, id⟩
        exact ⟨fun _ => .inr (.inr (.inr rfl)), h.routed.dead, h.routed.loaded, h.routed.queued⟩
      next =>
        cases hstep
        exact h
    next => cases hstep
  | deliverFailure =>
    simp only [BodyStream.step] at hstep
    split at hstep
    next message _ =>
      cases hstep
      exact h.other (h.routed.deliverFailure message) (sameReader_deliverFailure message)
    next => cases hstep
  | receive =>
    obtain ⟨halive, hstep⟩ := Option.ite_none_right_eq_some.mp hstep
    split at hstep
    next hidle =>
      exact ⟨h.routed.receive hstep, h.story.receive h.routed hidle halive hstep⟩
    next => cases hstep
  | finish =>
    simp only [BodyStream.step] at hstep
    split at hstep
    next answer hwait _ =>
      cases hstep
      have hclosed := h.story.closed (by rw [hwait]; exact nofun)
      refine ⟨?_, h.story.finish hwait⟩
      exact (h.routed.unroute (.inl hclosed)).conclude hclosed answer
    next => cases hstep
  | take =>
    simp only [BodyStream.step] at hstep
    split at hstep
    next hwait _ =>
      cases hstep
      have hclosed := h.story.closed (by rw [hwait]; exact nofun)
      refine ⟨?_, h.story.take hwait⟩
      unfold BodyStream.take
      split
      · have htaken : Routed { stream with failure := none } :=
          ⟨fun _ => .inl hclosed, h.routed.dead, h.routed.loaded, h.routed.queued⟩
        exact htaken.conclude hclosed _
      · exact h.routed.conclude hclosed _
    next => cases hstep
  | dropStream =>
    simp only [BodyStream.step] at hstep
    split at hstep
    next hidle =>
      cases hstep
      refine ⟨⟨fun _ => .inl rfl, fun _ => rfl, h.routed.loaded, nofun⟩, ?_⟩
      exact h.story.drop hidle rfl rfl rfl rfl rfl rfl
    next => cases hstep
  | removeRoute =>
    simp only [BodyStream.step] at hstep
    split at hstep
    next =>
      obtain ⟨hremovers, ⟨⟩⟩ := Option.ite_none_right_eq_some.mp hstep
      have hclosed := h.routed.dead (.inr hremovers)
      refine h.other ?_ ⟨rfl, rfl, rfl, rfl, rfl, rfl, List.Subset.refl _, id⟩
      exact ⟨fun _ => .inl hclosed, fun _ => hclosed, h.routed.loaded, h.routed.queued⟩
    next => cases hstep
  | budget available =>
    cases hstep
    refine h.other ?_ ⟨rfl, rfl, rfl, rfl, rfl, rfl, List.Subset.refl _, id⟩
    exact ⟨h.routed.ended, h.routed.dead, h.routed.loaded, h.routed.queued⟩

theorem chunks_eq {chunks others : List Bytes} {answer other : Received} {rest more : List Received}
    (hanswer : ∀ bytes, answer ≠ .chunk bytes) (hother : ∀ bytes, other ≠ .chunk bytes)
    (h : chunks.map Received.chunk ++ answer :: rest = others.map Received.chunk ++ other :: more) :
    chunks = others ∧ answer = other := by
  induction chunks generalizing others with
  | nil =>
    cases others with
    | nil =>
      cases h
      exact ⟨rfl, rfl⟩
    | cons bytes others =>
      cases h
      exact absurd rfl (hanswer bytes)
  | cons bytes chunks ih =>
    cases others with
    | nil =>
      cases h
      exact absurd rfl (hother bytes)
    | cons bytes' others =>
      simp only [map_cons, cons_append, cons.injEq, Received.chunk.injEq] at h
      obtain ⟨rfl, hrest⟩ := h
      obtain ⟨rfl, heq⟩ := ih hrest
      exact ⟨rfl, heq⟩

theorem answers_ne {deltas : List BodyDelta} {chunks : List Bytes} {rest : List Received} :
    answers deltas ≠ chunks.map Received.chunk ++ .eof :: rest := by
  intro h
  have hmem : Received.eof ∈ answers deltas := h ▸ mem_append_right _ mem_cons_self
  obtain ⟨bytes, -, heq⟩ := mem_map.mp hmem
  cases heq

/-- **A streamed body is not silently truncated.** In every run of a request, whatever its notifications,
failures and removals and however they interleave: where the calls of `recv` returned chunks and then the
end, with no error before it, the chunks are those of the deltas 1 to n that were notified for the
request, in order, up to the one marked as done and without an error. -/
theorem body_not_truncated (requestId : Text) (budget : Nat) (events : List BodyEvent)
    (final : BodyStream)
    (hrun : Machine.run BodyStream.step (start requestId budget) events = some final)
    (chunks : List Bytes) (rest : List Received)
    (hreceived : final.received = chunks.map Received.chunk ++ .eof :: rest) :
    Complete final.notified chunks := by
  have hsound : Sound final := Machine.run_invariant (fun _ _ _ h hstep => h.step hstep)
    ⟨routed_start requestId budget, story_start requestId budget⟩ hrun
  obtain ⟨-, hstory⟩ := hsound
  cases hstory with
  | reading _ _ _ _ _ _ hall | ending _ _ _ _ _ _ _ hall | failing _ _ _ _ hall
  | lost _ _ _ _ hall | dropped _ _ _ _ hall =>
    exact absurd (hall.symm.trans hreceived) answers_ne
  | lastChunk _ _ _ _ _ _ _ hall =>
    obtain ⟨-, hall⟩ | ⟨-, hall⟩ := hall
    · exact absurd (hall.symm.trans hreceived) answers_ne
    · exact absurd (hall.symm.trans hreceived) answers_ne
  | settled _ hsettled =>
    obtain ⟨others, answer, more, hothers, hanswer, hcomplete⟩ := hsettled
    have heof : ∀ bytes, Received.eof ≠ .chunk bytes := nofun
    obtain ⟨rfl, rfl⟩ := chunks_eq hanswer heof (hothers.symm.trans hreceived)
    exact hcomplete rfl

/-- Two deltas, the second marked as done: the consumer gets both chunks, and then the end. -/
theorem body_not_truncated_twoDeltas : ∃ final, Machine.run BodyStream.step (start ['r'] 16)
      [.notify ⟨1, [7], false, none⟩, .offer 0, .notify ⟨2, [8], true, none⟩, .receive, .offer 0,
        .remove 0, .receive, .finish, .receive] = some final ∧
      final.received = [[7], [8]].map Received.chunk ++ [.eof] ∧
      Complete final.notified [[7], [8]] := by
  refine ⟨?final, ?run, ?received, body_not_truncated ['r'] 16 _ _ ?run [[7], [8]] [] ?received⟩
  case run => rfl
  case received => rfl

/-- **After an error `recv` reports an end.** The transport fails behind the first delta. The consumer gets
its chunk, then the error; when it asks again it gets the end, and no delta was marked as done. -/
theorem body_end_after_error : ∃ final message, Machine.run BodyStream.step (start ['r'] 16)
      [.notify ⟨1, [7], false, none⟩, .offer 0, .failAll ['x'], .deliverFailure, .receive, .receive,
        .finish, .receive, .take] = some final ∧
      final.received = [.chunk [7], .error message, .eof] ∧
      ¬ Complete final.notified [[7]] := by
  refine ⟨_, _, rfl, rfl, ?_⟩
  rintro ⟨deltas, last, -, ⟨-, -, hdone, hmem⟩, -⟩
  cases mem_singleton.mp hmem
  cases hdone

end BodyStream

end NovumAgent.ExecServer
