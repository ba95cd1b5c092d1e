import NovumAgent.Lib.Dedup
import NovumAgent.Lib.Run
import NovumAgent.Lib.Table
import NovumAgent.RemoteControl.Segments

/-!
# The outbound buffer of remote control

Between the server and a remote client stands a websocket that comes and goes. Everything the server
sends gets a sequence id of its stream and stays in a buffer until the client acknowledges it. When a
connection is made, the writer first writes the whole buffer again and then takes new messages.

A step is what happens without the state being unlocked: a message is taken, gets its id, is split, and
its envelopes go into the buffer; the writer writes an envelope; a connection is lost or made; an
acknowledgement arrives, at any time. The state has a history besides: the messages that got an id, the
envelopes written so far, and the acknowledgements.
-/

namespace NovumAgent.RemoteControl

variable {μ : Type}

def channelCapacity : Nat := 128

/-- `u64::MAX`. -/
def u64Max : Nat := 2 ^ 64 - 1

structure QueuedServerEnvelope (μ : Type) where
  event : ServerEvent μ
  clientId : Text
  streamId : Text

/-- The arguments of `BoundedOutboundBuffer::ack`. -/
structure Ack where
  key : StreamKey
  seqId : Nat
  segmentId : Option Nat

/-- The order of tuples. -/
def cursorLe (a b : Nat × Nat) : Prop := a.1 < b.1 ∨ (a.1 = b.1 ∧ a.2 ≤ b.2)

instance (a b : Nat × Nat) : Decidable (cursorLe a b) :=
  inferInstanceAs (Decidable (a.1 < b.1 ∨ (a.1 = b.1 ∧ a.2 ≤ b.2)))

/-- The place of an envelope in its stream. -/
def ServerEnvelope.cursor (envelope : ServerEnvelope μ) : Nat × Nat := (envelope.seqId, envelope.segment)

/-- How far an acknowledgement reaches: without a segment, to the end of a message. -/
def Ack.cursor (ack : Ack) : Nat × Nat := (ack.seqId, ack.segmentId.getD usizeMax)

/-- An acknowledgement is for an envelope. -/
def Ack.Covers (ack : Ack) (envelope : ServerEnvelope μ) : Prop :=
  envelope.key = ack.key ∧ cursorLe envelope.cursor ack.cursor

instance (ack : Ack) (envelope : ServerEnvelope μ) : Decidable (ack.Covers envelope) :=
  inferInstanceAs (Decidable (_ ∧ _))

/-- `WebsocketState`, as far as it is about what goes out, with the writer: the envelopes it has still to
write before it takes another message, or none when there is no connection. -/
structure Outbound (μ : Type) where
  nextSeqIdByStream : Table StreamKey Nat
  bufferByStream : Table StreamKey (List (ServerEnvelope μ))
  used : Nat
  writer : Option (List (ServerEnvelope μ))
  accepted : List (ServerEnvelope μ)
  wire : List (ServerEnvelope μ)
  acks : List Ack

namespace Outbound

/-- Before the first connection. -/
def initial : Outbound μ := ⟨∅, ∅, 0, none, [], [], []⟩

/-- The next sequence id of a stream. -/
def nextOf (s : Outbound μ) (key : StreamKey) : Nat := (s.nextSeqIdByStream.lookup key).getD 1

/-- The buffer of a stream. -/
def bufferOf (s : Outbound μ) (key : StreamKey) : List (ServerEnvelope μ) :=
  (s.bufferByStream.lookup key).getD []

/-- `BoundedOutboundBuffer::insert`. -/
def insertEnvelope (s : Outbound μ) (envelope : ServerEnvelope μ) : Outbound μ :=
  { s with
    bufferByStream := s.bufferByStream.insert envelope.key (s.bufferOf envelope.key ++ [envelope])
    used := s.used + 1 }

def ack (s : Outbound μ) (a : Ack) : Outbound μ :=
  let s := { s with acks := s.acks ++ [a] }
  match s.bufferByStream.lookup a.key with
  | none => s
  | some buffer =>
    let kept := buffer.filter fun envelope => ¬ cursorLe envelope.cursor a.cursor
    { s with
      bufferByStream :=
        if kept = [] then s.bufferByStream.erase a.key else s.bufferByStream.insert a.key kept
      used := s.used - (buffer.length - kept.length) }

variable (serializer : Serializer μ)

/-- Whether `serde_json::to_string` writes an envelope. -/
def serializes (envelope : ServerEnvelope μ) : Bool :=
  match serializer.toString envelope with
  | .ok _ => true
  | .error _ => false

/-- The envelopes that a message goes out in. -/
def parts (envelope : ServerEnvelope μ) : List (ServerEnvelope μ) :=
  match splitServerEnvelopeForTransport serializer envelope with
  | .ok envelopes => envelopes.filter (serializes serializer)
  | .error _ => []

/-- The envelope of a queued message, with the id that it would get. -/
def envelopeFor (s : Outbound μ) (queued : QueuedServerEnvelope μ) : ServerEnvelope μ :=
  ⟨queued.event, queued.clientId, queued.streamId, s.nextOf (queued.clientId, queued.streamId)⟩

/-- The turn of the loop of `run_server_writer_inner` that takes a message, as far as the state is
locked. -/
def accept (s : Outbound μ) (queued : QueuedServerEnvelope μ) : Outbound μ :=
  let envelope := s.envelopeFor queued
  -- the entry of the id is made before the split
  let s := { s with nextSeqIdByStream := s.nextSeqIdByStream.insert envelope.key envelope.seqId }
  match splitServerEnvelopeForTransport serializer envelope with
  | .error _ => s
  | .ok _ =>
    let s := (parts serializer envelope).foldl insertEnvelope s
    { s with
      nextSeqIdByStream := s.nextSeqIdByStream.insert envelope.key (min (envelope.seqId + 1) u64Max)
      writer := some (parts serializer envelope)
      accepted := s.accepted ++ [envelope] }

/-- What happens to the outbound side. -/
inductive Event (μ : Type) where
  | message (queued : QueuedServerEnvelope μ)
  | write
  | disconnect
  | reconnect (order : List StreamKey)
  | ack (a : Ack)

/-- One step. A new message is only taken when all that was to be written is, and when the buffer has
room. A new connection starts with the buffer, its streams in any order. -/
def step (s : Outbound μ) : Event μ → Option (Outbound μ)
  | .message queued =>
    match s.writer with
    | some [] => if s.used < channelCapacity then some (s.accept serializer queued) else none
    | _ => none
  | .write =>
    match s.writer with
    | some (envelope :: rest) => some { s with writer := some rest, wire := s.wire ++ [envelope] }
    | _ => none
  | .disconnect => if s.writer.isSome then some { s with writer := none } else none
  | .reconnect order =>
    match s.writer with
    | none =>
      if order.Perm s.bufferByStream.keys then
        some { s with writer := some ((order.flatMap s.bufferOf).filter (serializes serializer)) }
      else none
    | some _ => none
  | .ack a => some (s.ack a)

/-! ## Views of the history -/

/-- The messages of a stream that got an id. -/
def acceptedOn (s : Outbound μ) (key : StreamKey) : List (ServerEnvelope μ) :=
  s.accepted.filter (·.key = key)

/-- The envelopes of a stream that were handed to the writer. -/
def issuedOn (s : Outbound μ) (key : StreamKey) : List (ServerEnvelope μ) :=
  (s.acceptedOn key).flatMap (parts serializer)

/-- What was written of a stream, with what was written again. -/
def wireOn (s : Outbound μ) (key : StreamKey) : List (ServerEnvelope μ) := s.wire.filter (·.key = key)

/-- No acknowledgement for the envelope has come. -/
def Unacked (s : Outbound μ) (envelope : ServerEnvelope μ) : Prop := ∀ a ∈ s.acks, ¬ a.Covers envelope

instance (s : Outbound μ) (envelope : ServerEnvelope μ) : Decidable (s.Unacked envelope) :=
  inferInstanceAs (Decidable (∀ a ∈ s.acks, ¬ a.Covers envelope))

end Outbound

end NovumAgent.RemoteControl
