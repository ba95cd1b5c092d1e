import Mathlib.Data.List.Pairwise
import NovumAgent.Lib.Outcome
import NovumAgent.Lib.Utf8

/-!
# Splitting server messages for transport

What the server has to say to a remote client travels in envelopes. A message whose envelope is larger
than a segment may be is cut into chunks, each in an envelope of its own, with as few chunks as fit. Some
messages cannot be sent at all: one that is larger than a client will put together again, or one whose
envelope has no room for a chunk. Those become no envelope, with a warning and without an error.

All envelopes of a message have its sequence id, and chunks are numbered in order (`splitsInto_split`).
How values are written as JSON is a parameter.
-/

namespace NovumAgent.RemoteControl

open List Outcome

inductive PongStatus where
  | active
  | unknown
deriving DecidableEq, Repr

inductive ServerEvent (μ : Type) where
  | serverMessage (message : μ)
  | serverMessageChunk (segmentId segmentCount messageSizeBytes : Nat) (messageChunkBase64 : Text)
  | ack
  | pong (status : PongStatus)
deriving DecidableEq, Repr

def ServerEvent.segmentId {μ : Type} : ServerEvent μ → Option Nat
  | serverMessageChunk segmentId _ _ _ => some segmentId
  | serverMessage _ | ack | pong _ => none

structure ServerEnvelope (μ : Type) where
  event : ServerEvent μ
  clientId : Text
  streamId : Text
  seqId : Nat
deriving DecidableEq, Repr

/-- `(ClientId, StreamId)`. -/
abbrev StreamKey := Text × Text

variable {μ : Type}

/-- The stream that an envelope belongs to. -/
def ServerEnvelope.key (envelope : ServerEnvelope μ) : StreamKey := (envelope.clientId, envelope.streamId)

/-- The place of an envelope among those of its message. -/
def ServerEnvelope.segment (envelope : ServerEnvelope μ) : Nat := envelope.event.segmentId.getD 0

/-- `REMOTE_CONTROL_SEGMENT_TARGET_BYTES`. -/
def segmentTargetBytes : Nat := 100 * 1024

/-- `REMOTE_CONTROL_SEGMENT_MAX_BYTES`. -/
def segmentMaxBytes : Nat := 150 * 1024

/-- `REMOTE_CONTROL_REASSEMBLED_MAX_BYTES`. -/
def reassembledMaxBytes : Nat := 100 * 1024 * 1024

/-- `REMOTE_CONTROL_SEGMENT_COUNT_MAX`. -/
def segmentCountMax : Nat := 1024

/-- What the source takes from elsewhere: `serde_json` for envelopes and for messages, the error that is
sent in place of a response that cannot be written (for what is a response), and base 64. -/
structure Serializer (μ : Type) where
  toString : ServerEnvelope μ → Except Text Text
  messageToVec : μ → Except Text Bytes
  responseSerializationError : μ → Text → Option μ
  base64 : Bytes → Text

variable (serializer : Serializer μ)

def serializedLen (envelope : ServerEnvelope μ) : Except Text Nat :=
  (serializer.toString envelope).map Utf8.byteLen

def buildChunkEnvelope (envelope : ServerEnvelope μ) (segmentId segmentCount messageSizeBytes : Nat)
    (chunk : Bytes) : Except Text (ServerEnvelope μ) :=
  if segmentCount > segmentCountMax then throw "remote-control segment count exceeds maximum".toList
  else pure { envelope with
    event := .serverMessageChunk segmentId segmentCount messageSizeBytes (serializer.base64 chunk) }

def serializedChunkLen (envelope : ServerEnvelope μ) (segmentId segmentCount messageSizeBytes : Nat)
    (chunk : Bytes) : Except Text Nat :=
  buildChunkEnvelope serializer envelope segmentId segmentCount messageSizeBytes chunk >>=
    serializedLen serializer

def divCeil (a b : Nat) : Nat := (a + b - 1) / b

/-- The size of a chunk when there are to be so many. -/
def chunkSizeFor (messageSizeBytes segmentCount : Nat) : Nat := max 1 (divCeil messageSizeBytes segmentCount)

/-- Whether every chunk of a size fits into a segment. -/
def segmentsFit (envelope : ServerEnvelope μ) (raw : Bytes) (chunkSize : Nat) : Bool :=
  (raw.toChunks chunkSize).zipIdx.all fun (chunk, segmentId) =>
    match serializedChunkLen serializer envelope segmentId (divCeil raw.length chunkSize) raw.length chunk with
    | .ok size => size ≤ segmentMaxBytes
    | .error _ => false

/-- The number of segments that is tried next: one more, or as many as there are bytes if one more makes
no difference. -/
def nextSegmentCount (messageSizeBytes chunkSize : Nat) : Nat :=
  let next := divCeil messageSizeBytes chunkSize + 1
  if chunkSizeFor messageSizeBytes next = chunkSize then messageSizeBytes else next

theorem divCeil_le_iff {a b c : Nat} (hb : 0 < b) : divCeil a b ≤ c ↔ a ≤ b * c := by
  unfold divCeil
  rw [← Nat.lt_succ_iff, Nat.div_lt_iff_lt_mul hb, Nat.succ_mul, Nat.mul_comm c b]
  omega

theorem chunkSizeFor_nextSegmentCount {size chunkSize : Nat} (h : 1 < chunkSize) :
    chunkSizeFor size (nextSegmentCount size chunkSize) < chunkSize := by
  unfold nextSegmentCount
  dsimp only
  split
  next =>
    have hone : divCeil size size ≤ 1 := by
      rcases Nat.eq_zero_or_pos size with rfl | hpos
      · simp [divCeil]
      · exact (divCeil_le_iff hpos).mpr (by omega)
    unfold chunkSizeFor
    omega
  next hne =>
    have hcount : size ≤ chunkSize * divCeil size chunkSize :=
      (divCeil_le_iff (by omega)).mp (Nat.le_refl _)
    have hle : divCeil size (divCeil size chunkSize + 1) ≤ chunkSize := by
      refine (divCeil_le_iff (by omega)).mpr (Nat.le_trans hcount ?_)
      rw [Nat.mul_comm]
      exact Nat.mul_le_mul_right _ (by omega)
    unfold chunkSizeFor at hne ⊢
    omega

/-- The loop of `split_server_envelope_for_transport`. -/
def splitLoop (envelope : ServerEnvelope μ) (raw : Bytes) (segmentCount : Nat) :
    Except Text (List (ServerEnvelope μ)) :=
  let chunkSize := chunkSizeFor raw.length segmentCount
  if segmentsFit serializer envelope raw chunkSize then
    (raw.toChunks chunkSize).zipIdx.mapM fun (chunk, segmentId) =>
      buildChunkEnvelope serializer envelope segmentId (divCeil raw.length chunkSize) raw.length chunk
  else if _h : 1 < chunkSizeFor raw.length segmentCount then
    splitLoop envelope raw (nextSegmentCount raw.length chunkSize)
  else pure []
termination_by chunkSizeFor raw.length segmentCount
decreasing_by exact chunkSizeFor_nextSegmentCount _h

/-- The part of `split_server_envelope_for_transport` for a message that is too large for one segment. -/
def splitMessage (envelope : ServerEnvelope μ) (message : μ) : Except Text (List (ServerEnvelope μ)) :=
  serializer.messageToVec message >>= fun raw =>
    if raw.length > reassembledMaxBytes then pure []
    else
      serializedChunkLen serializer envelope 0 (min (max raw.length 1) segmentCountMax) raw.length
          (raw.take 1) >>= fun minimalSize =>
        if minimalSize > segmentMaxBytes then pure []
        else splitLoop serializer envelope raw (max 2 (divCeil raw.length segmentTargetBytes))

def splitServerEnvelopeForTransport (envelope : ServerEnvelope μ) :
    Except Text (List (ServerEnvelope μ)) :=
  match envelope.event with
  | .serverMessage message =>
    match serializedLen serializer envelope with
    | .error err =>
      match serializer.responseSerializationError message err with
      | none => throw err
      | some message => pure [{ envelope with event := .serverMessage message }]
    | .ok size =>
      if size ≤ segmentMaxBytes then pure [envelope] else splitMessage serializer envelope message
  | .serverMessageChunk _ _ _ _ | .ack | .pong _ => pure [envelope]

/-! ## What a split gives -/

/-- Envelopes of one message: of its stream, with its sequence id, their places ascending. -/
structure SplitsInto (envelope : ServerEnvelope μ) (parts : List (ServerEnvelope μ)) : Prop where
  same : ∀ part ∈ parts, part.key = envelope.key ∧ part.seqId = envelope.seqId
  ascending : parts.Pairwise fun a b => a.segment < b.segment

variable {serializer} {envelope : ServerEnvelope μ} {parts : List (ServerEnvelope μ)}

theorem splitsInto_nil : SplitsInto envelope [] :=
  ⟨fun _ h => absurd h not_mem_nil, .nil⟩

theorem splitsInto_singleton {part : ServerEnvelope μ} (hkey : part.key = envelope.key)
    (hseq : part.seqId = envelope.seqId) : SplitsInto envelope [part] := by
  refine ⟨fun other hother => ?_, pairwise_singleton _ _⟩
  rw [mem_singleton.mp hother]
  exact ⟨hkey, hseq⟩

theorem SplitsInto.filter (h : SplitsInto envelope parts) (p : ServerEnvelope μ → Bool) :
    SplitsInto envelope (parts.filter p) :=
  ⟨fun part hpart => h.same part ((mem_filter.mp hpart).1), h.ascending.filter p⟩

theorem splitsInto_chunks {chunks : List Bytes} {start segmentCount size : Nat}
    (h : (chunks.zipIdx start).mapM (fun chunk =>
      buildChunkEnvelope serializer envelope chunk.2 segmentCount size chunk.1) = .ok parts) :
    SplitsInto envelope parts ∧ ∀ part ∈ parts, start ≤ part.segment := by
  induction chunks generalizing start parts with
  | nil =>
    cases h
    exact ⟨splitsInto_nil, fun _ h => absurd h not_mem_nil⟩
  | cons chunk chunks ih =>
    simp only [zipIdx_cons, mapM_cons, bind_eq_ok, pure_eq_ok] at h
    obtain ⟨first, hfirst, rest, hrest, rfl⟩ := h
    simp only [buildChunkEnvelope, ite_throw_eq_ok, pure_eq_ok] at hfirst
    obtain ⟨-, rfl⟩ := hfirst
    obtain ⟨hsplits, hstart⟩ := ih hrest
    refine ⟨⟨fun part hpart => ?_, pairwise_cons.mpr ⟨fun part hpart => ?_, hsplits.ascending⟩⟩,
      fun part hpart => ?_⟩
    · rcases mem_cons.mp hpart with rfl | hpart
      · exact ⟨rfl, rfl⟩
      · exact hsplits.same part hpart
    · exact hstart part hpart
    · rcases mem_cons.mp hpart with rfl | hpart
      · exact Nat.le_refl start
      · exact Nat.le_of_succ_le (hstart part hpart)

theorem splitsInto_splitLoop {raw : Bytes} {segmentCount : Nat}
    (h : splitLoop serializer envelope raw segmentCount = .ok parts) : SplitsInto envelope parts := by
  induction segmentCount using splitLoop.induct serializer envelope raw with
  | case1 segmentCount chunkSize hfit =>
    rw [splitLoop, if_pos hfit] at h
    exact (splitsInto_chunks h).1
  | case2 segmentCount chunkSize hfit hsize ih =>
    rw [splitLoop, if_neg hfit, dif_pos hsize] at h
    exact ih h
  | case3 segmentCount chunkSize hfit hsize =>
    rw [splitLoop, if_neg hfit, dif_neg hsize] at h
    cases h
    exact splitsInto_nil

/-- **The envelopes of a message carry its sequence id, in order.** -/
theorem splitsInto_split (h : splitServerEnvelopeForTransport serializer envelope = .ok parts) :
    SplitsInto envelope parts := by
  unfold splitServerEnvelopeForTransport at h
  cases hevent : envelope.event with
  | serverMessage message =>
    rw [hevent] at h
    dsimp only at h
    cases hlen : serializedLen serializer envelope with
    | error err =>
      rw [hlen] at h
      dsimp only at h
      cases hresponse : serializer.responseSerializationError message err with
      | none =>
        rw [hresponse] at h
        cases h
      | some message =>
        rw [hresponse] at h
        cases h
        exact splitsInto_singleton rfl rfl
    | ok size =>
      rw [hlen] at h
      dsimp only at h
      split at h
      next =>
        cases h
        exact splitsInto_singleton rfl rfl
      next =>
        rw [splitMessage, bind_eq_ok] at h
        obtain ⟨raw, -, h⟩ := h
        split at h
        next =>
          cases h
          exact splitsInto_nil
        next =>
          rw [bind_eq_ok] at h
          obtain ⟨minimalSize, -, h⟩ := h
          split at h
          next =>
            cases h
            exact splitsInto_nil
          next => exact splitsInto_splitLoop h
  | serverMessageChunk _ _ _ _ | ack | pong _ =>
    rw [hevent] at h
    cases h
    exact splitsInto_singleton rfl rfl

theorem split_oversized {message : μ} {text : Text} {raw : Bytes}
    (hevent : envelope.event = .serverMessage message)
    (htext : serializer.toString envelope = .ok text) (hsize : segmentMaxBytes < Utf8.byteLen text)
    (hraw : serializer.messageToVec message = .ok raw) (hlength : reassembledMaxBytes < raw.length) :
    splitServerEnvelopeForTransport serializer envelope = .ok [] := by
  have hlen : serializedLen serializer envelope = .ok (Utf8.byteLen text) := by
    rw [serializedLen, htext]
    rfl
  simp only [splitServerEnvelopeForTransport, hevent, hlen]
  rw [if_neg (by omega), splitMessage, hraw]
  exact if_pos hlength

end NovumAgent.RemoteControl
