import NovumAgent.Lib.Utf8

/-!
# Messages in a byte stream

The relay carries messages of up to 64 MiB in records of up to 60 KiB. Each message is written behind its
length, the messages follow each other in one byte stream, and the stream is cut into records wherever
it may. The receiver keeps the bytes that do not make a whole message yet.

`push_stream` is what one record does to a receiver that is somewhere inside a stream of valid messages:
it hands out the messages that are now complete, and nothing else.
-/

namespace NovumAgent.Relay

open List

def lengthPrefixBytes : Nat := 4

def maxNoiseJsonrpcMessageLen : Nat := 64 * 1024 * 1024

def noiseRecordPlaintextLen : Nat := 60 * 1024

/-- `u32::to_be_bytes`, of a length cast to `u32`. -/
def toBeBytes (n : Nat) : Bytes :=
  [UInt8.ofNat (n / 2 ^ 24), UInt8.ofNat (n / 2 ^ 16), UInt8.ofNat (n / 2 ^ 8), UInt8.ofNat n]

def fromBeBytes (a b c d : UInt8) : Nat :=
  a.toNat * 2 ^ 24 + b.toNat * 2 ^ 16 + c.toNat * 2 ^ 8 + d.toNat

def messageLengthPrefix (messageLen : Nat) : Except Text Bytes :=
  if messageLen = 0 ∨ maxNoiseJsonrpcMessageLen < messageLen then
    .error "Noise relay JSON-RPC message exceeds maximum length".toList
  else .ok (toBeBytes messageLen)

def frameMessage (message : Bytes) : Except Text Bytes :=
  (messageLengthPrefix message.length).map (· ++ message)

structure MessageDecoder where
  buffered : Bytes

/-- The loop of `MessageDecoder::push`: the messages that are complete, and the bytes that are left. A
message takes more than one byte off the buffer, so its length bounds the rounds. -/
def takeMessages : Nat → Bytes → Bytes × Except Text (List Bytes)
  | 0, buffered => (buffered, .ok [])
  | rounds + 1, a :: b :: c :: d :: rest =>
    let messageLen := fromBeBytes a b c d
    if messageLen = 0 ∨ maxNoiseJsonrpcMessageLen < messageLen then
      (a :: b :: c :: d :: rest, .error "Noise relay JSON-RPC message has invalid length".toList)
    else if rest.length < messageLen then (a :: b :: c :: d :: rest, .ok [])
    else
      let (left, messages) := takeMessages rounds (rest.drop messageLen)
      (left, messages.map (rest.take messageLen :: ·))
  | _ + 1, buffered => (buffered, .ok [])

def MessageDecoder.push (decoder : MessageDecoder) (plaintextRecord : Bytes) :
    MessageDecoder × Except Text (List Bytes) :=
  if noiseRecordPlaintextLen < plaintextRecord.length then
    (decoder, .error "Noise relay plaintext record exceeds maximum length".toList)
  else
    let buffered := decoder.buffered ++ plaintextRecord
    match takeMessages buffered.length buffered with
    | (left, .error error) => (⟨left⟩, .error error)
    | (left, .ok messages) =>
      if lengthPrefixBytes + maxNoiseJsonrpcMessageLen < left.length then
        (⟨left⟩, .error "Noise relay JSON-RPC reassembly buffer exceeds maximum length".toList)
      else (⟨left⟩, .ok messages)

/-! ## Streams of messages -/

/-- A message that can be sent. -/
def Sendable (message : Bytes) : Prop :=
  message ≠ [] ∧ message.length ≤ maxNoiseJsonrpcMessageLen

/-- The bytes of a message in the stream. -/
def framed (message : Bytes) : Bytes := toBeBytes message.length ++ message

/-- The byte stream of some messages. -/
def stream (messages : List Bytes) : Bytes := messages.flatMap framed

variable {message record rest : Bytes} {messages : List Bytes}

theorem frameMessage_eq (h : Sendable message) : frameMessage message = .ok (framed message) := by
  have hlen : ¬ (message.length = 0 ∨ maxNoiseJsonrpcMessageLen < message.length) := by
    rintro (hzero | hlong)
    · exact h.1 (length_eq_zero_iff.mp hzero)
    · exact absurd h.2 (Nat.not_le.mpr hlong)
  rw [frameMessage, messageLengthPrefix, if_neg hlen]
  rfl

theorem fromBeBytes_toBeBytes {n : Nat} (h : n < 2 ^ 32) :
    fromBeBytes (UInt8.ofNat (n / 2 ^ 24)) (UInt8.ofNat (n / 2 ^ 16)) (UInt8.ofNat (n / 2 ^ 8))
      (UInt8.ofNat n) = n := by
  unfold fromBeBytes
  simp only [UInt8.toNat_ofNat']
  omega

theorem length_framed (message : Bytes) : (framed message).length = 4 + message.length := by
  rw [framed, length_append]
  rfl

theorem stream_cons (message : Bytes) (messages : List Bytes) :
    stream (message :: messages) = framed message ++ stream messages := rfl

theorem takeMessages_framed (h : Sendable message) (rounds : Nat) (rest : Bytes) :
    takeMessages (rounds + 1) (framed message ++ rest) =
      ((takeMessages rounds rest).1, (takeMessages rounds rest).2.map (message :: ·)) := by
  have hlen : message.length < 2 ^ 32 := Nat.lt_of_le_of_lt h.2 (by decide)
  have hzero : message.length ≠ 0 := fun hzero => h.1 (length_eq_zero_iff.mp hzero)
  have hvalid : ¬ (message.length = 0 ∨ maxNoiseJsonrpcMessageLen < message.length) := by
    rintro (hnone | hlong)
    · exact hzero hnone
    · exact absurd h.2 (Nat.not_le.mpr hlong)
  have hthere : ¬ (message ++ rest).length < message.length := by
    rw [length_append]
    omega
  have htake : (message ++ rest).take message.length = message := take_left
  have hdrop : (message ++ rest).drop message.length = rest := drop_left
  unfold framed toBeBytes
  simp only [cons_append, nil_append, takeMessages, fromBeBytes_toBeBytes hlen]
  rw [if_neg hvalid, if_neg hthere, htake, hdrop]

theorem takeMessages_partial (h : Sendable message) (rounds : Nat) {buffered missing : Bytes}
    (hframed : buffered ++ missing = framed message) (hmissing : missing ≠ []) :
    takeMessages rounds buffered = (buffered, .ok []) := by
  cases rounds with
  | zero => rfl
  | succ rounds =>
    match buffered with
    | [] | [_] | [_, _] | [_, _, _] => rfl
    | a :: b :: c :: d :: rest =>
      unfold framed toBeBytes at hframed
      simp only [cons_append, nil_append, cons.injEq] at hframed
      obtain ⟨rfl, rfl, rfl, rfl, hrest⟩ := hframed
      have hlen : message.length < 2 ^ 32 := Nat.lt_of_le_of_lt h.2 (by decide)
      have hvalid : ¬ (message.length = 0 ∨ maxNoiseJsonrpcMessageLen < message.length) := by
        rintro (hnone | hlong)
        · exact h.1 (length_eq_zero_iff.mp hnone)
        · exact absurd h.2 (Nat.not_le.mpr hlong)
      have hshort : rest.length < message.length := by
        rw [← hrest, length_append]
        have := length_pos_iff.mpr hmissing
        omega
      simp only [takeMessages, fromBeBytes_toBeBytes hlen]
      rw [if_neg hvalid, if_pos hshort]

theorem whole_or_inside {α : Type*} {read later first others : List α}
    (h : read ++ later = first ++ others) :
    (∃ rest, read = first ++ rest ∧ rest ++ later = others) ∨
      ∃ missing, missing ≠ [] ∧ read ++ missing = first := by
  obtain ⟨missing, hfirst, hlater⟩ | ⟨rest, hread, hrest⟩ := append_eq_append_iff.mp h
  · by_cases hmissing : missing = []
    · subst hmissing
      refine .inl ⟨[], ?_, hlater⟩
      rw [hfirst, append_nil, append_nil]
    · exact .inr ⟨missing, hmissing, hfirst.symm⟩
  · exact .inl ⟨rest, hread, hrest.symm⟩

/-- **What the loop takes off the front of a stream**: whole messages, as many as are there. -/
theorem takeMessages_stream (hmessages : ∀ message ∈ messages, Sendable message)
    {buffered later : Bytes} (hstream : buffered ++ later = stream messages) {rounds : Nat}
    (hrounds : buffered.length ≤ rounds) :
    ∃ taken left rest, messages = taken ++ left ∧
      takeMessages rounds buffered = (rest, .ok taken) ∧ rest ++ later = stream left ∧
      ∀ message ∈ left.head?, rest.length < 4 + message.length := by
  induction messages generalizing buffered rounds with
  | nil =>
    have hempty : buffered = [] := (append_eq_nil_iff.mp hstream).1
    subst hempty
    refine ⟨[], [], [], rfl, ?_, hstream, nofun⟩
    cases rounds with
    | zero => rfl
    | succ rounds => rfl
  | cons message messages ih =>
    have hsendable := hmessages message mem_cons_self
    rw [stream_cons] at hstream
    -- either the first message is whole, or the buffer ends inside it
    obtain ⟨rest, hbuffered, hrest⟩ | ⟨missing, hmissing, hframed⟩ := whole_or_inside hstream
    · have hlength : buffered.length = 4 + message.length + rest.length := by
        rw [hbuffered, length_append, length_framed]
      obtain ⟨rounds, rfl⟩ : ∃ fewer, rounds = fewer + 1 := ⟨rounds - 1, by omega⟩
      obtain ⟨taken, left, kept, rfl, htake, hkept, hshort⟩ :=
        ih (fun other hother => hmessages other (mem_cons_of_mem _ hother)) hrest
          (show rest.length ≤ rounds by omega)
      refine ⟨message :: taken, left, kept, rfl, ?_, hkept, hshort⟩
      rw [hbuffered, takeMessages_framed hsendable, htake]
      rfl
    · refine ⟨[], message :: messages, buffered, rfl,
        takeMessages_partial hsendable rounds hframed hmissing, ?_, ?_⟩
      · rw [stream_cons, hstream]
      · rintro _ ⟨⟩
        have := length_pos_iff.mpr hmissing
        rw [← length_framed, ← hframed, length_append]
        omega

/-- A decoder inside a stream: with the bytes still to come it has the given messages before it, and it
holds less than the whole of the first. -/
structure MessageDecoder.Awaits (decoder : MessageDecoder) (later : Bytes) (messages : List Bytes) :
    Prop where
  stream_eq : decoder.buffered ++ later = stream messages
  short : ∀ message ∈ messages.head?, decoder.buffered.length < 4 + message.length

theorem awaits_start (messages : List Bytes) :
    MessageDecoder.Awaits ⟨[]⟩ (stream messages) messages := by
  refine ⟨rfl, fun message _ => ?_⟩
  rw [length_nil]
  omega

theorem MessageDecoder.Awaits.eq_nil {decoder : MessageDecoder} (h : decoder.Awaits [] messages) :
    messages = [] := by
  cases messages with
  | nil => rfl
  | cons message messages =>
    have hshort := h.short message rfl
    have hwhole := congrArg length h.stream_eq
    rw [append_nil, stream_cons, length_append, length_framed] at hwhole
    omega

/-- **One record of a stream.** The decoder hands out the messages that are complete now and keeps less
than a whole one. -/
theorem push_stream (hmessages : ∀ message ∈ messages, Sendable message) {decoder : MessageDecoder}
    {later : Bytes} (hrecord : record.length ≤ noiseRecordPlaintextLen)
    (hawaits : decoder.Awaits (record ++ later) messages) :
    ∃ taken left next, messages = taken ++ left ∧ decoder.push record = (next, .ok taken) ∧
      next.Awaits later left := by
  obtain ⟨taken, left, rest, rfl, htake, hrest, hshort⟩ :=
    takeMessages_stream hmessages ((append_assoc _ _ _).trans hawaits.stream_eq) (Nat.le_refl _)
  have hbound : rest.length ≤ lengthPrefixBytes + maxNoiseJsonrpcMessageLen := by
    cases left with
    | nil =>
      rw [(append_eq_nil_iff.mp hrest).1]
      exact Nat.zero_le _
    | cons message left =>
      have hlong := hmessages message (mem_append_right _ mem_cons_self)
      have := hshort message rfl
      have := hlong.2
      unfold lengthPrefixBytes
      omega
  refine ⟨taken, left, ⟨rest⟩, rfl, ?_, hrest, hshort⟩
  unfold MessageDecoder.push
  rw [if_neg (Nat.not_lt.mpr hrecord)]
  dsimp only
  rw [htake]
  exact if_neg (Nat.not_lt.mpr hbound)

/-! ## How much a decoder holds -/

/-- Bytes that are no whole message yet: less than a length, or a length that may be and less than it
announces. -/
def Incomplete (buffered : Bytes) : Prop :=
  ∀ a b c d rest, buffered = a :: b :: c :: d :: rest →
    fromBeBytes a b c d ≤ maxNoiseJsonrpcMessageLen ∧ rest.length < fromBeBytes a b c d

variable {buffered : Bytes} {rounds : Nat}

theorem incomplete_nil : Incomplete [] := fun _ _ _ _ _ h => (by cases h)

theorem Incomplete.length_le (h : Incomplete buffered) :
    buffered.length ≤ lengthPrefixBytes + maxNoiseJsonrpcMessageLen := by
  match buffered with
  | [] | [_] | [_, _] | [_, _, _] =>
    unfold lengthPrefixBytes
    simp only [length_cons, length_nil]
    omega
  | a :: b :: c :: d :: rest =>
    obtain ⟨hvalid, hshort⟩ := h a b c d rest rfl
    unfold lengthPrefixBytes
    simp only [length_cons]
    omega

/-- **The loop adds nothing to the buffer**, and if it meets no bad length it leaves no whole message. -/
theorem takeMessages_left (hrounds : buffered.length ≤ rounds) :
    (takeMessages rounds buffered).1.length ≤ buffered.length ∧
      ∀ messages, (takeMessages rounds buffered).2 = .ok messages →
        Incomplete (takeMessages rounds buffered).1 := by
  induction rounds generalizing buffered with
  | zero =>
    rw [length_eq_zero_iff.mp (Nat.le_zero.mp hrounds)]
    exact ⟨Nat.le_refl _, fun _ _ => incomplete_nil⟩
  | succ rounds ih =>
    match buffered with
    | [] | [_] | [_, _] | [_, _, _] => exact ⟨Nat.le_refl _, fun _ _ _ _ _ _ _ h => (by cases h)⟩
    | a :: b :: c :: d :: rest =>
      simp only [length_cons] at hrounds
      by_cases hvalid : fromBeBytes a b c d = 0 ∨ maxNoiseJsonrpcMessageLen < fromBeBytes a b c d
      · simp only [takeMessages, if_pos hvalid]
        exact ⟨Nat.le_refl _, fun _ h => (by cases h)⟩
      · by_cases hshort : rest.length < fromBeBytes a b c d
        · simp only [takeMessages, if_neg hvalid, if_pos hshort]
          refine ⟨Nat.le_refl _, fun _ _ _ _ _ _ _ h => ?_⟩
          cases h
          exact ⟨Nat.not_lt.mp (not_or.mp hvalid).2, hshort⟩
        · simp only [takeMessages, if_neg hvalid, if_neg hshort]
          have hdrop : (rest.drop (fromBeBytes a b c d)).length ≤ rest.length := by
            rw [length_drop]
            omega
          obtain ⟨hlength, hleft⟩ := @ih (rest.drop (fromBeBytes a b c d)) (by omega)
          refine ⟨by simp only [length_cons]; omega, fun messages h => ?_⟩
          cases hmore : (takeMessages rounds (rest.drop (fromBeBytes a b c d))).2 with
          | error error =>
            rw [hmore] at h
            cases h
          | ok more => exact hleft more hmore

/-- A bad length is met within the record, but for three bytes before it. -/
theorem takeMessages_error (h : Incomplete buffered) {error : Text}
    (hrounds : (buffered ++ record).length ≤ rounds)
    (herror : (takeMessages rounds (buffered ++ record)).2 = .error error) :
    (takeMessages rounds (buffered ++ record)).1.length ≤ 3 + record.length := by
  match buffered with
  | [] | [_] | [_, _] | [_, _, _] =>
    refine Nat.le_trans (takeMessages_left hrounds).1 ?_
    simp only [length_append, length_cons, length_nil]
    omega
  | a :: b :: c :: d :: rest =>
    obtain ⟨hvalid, hshort⟩ := h a b c d rest rfl
    simp only [cons_append, length_cons, length_append] at hrounds
    obtain ⟨rounds, rfl⟩ : ∃ fewer, rounds = fewer + 1 := ⟨rounds - 1, by omega⟩
    simp only [cons_append, takeMessages] at herror ⊢
    rw [if_neg (by omega)] at herror ⊢
    split at herror
    next => cases herror
    next hthere =>
      rw [if_neg hthere]
      refine Nat.le_trans (takeMessages_left ?_).1 ?_ <;> rw [length_drop, length_append] <;> omega

/-- **What any record leaves in a decoder**, whether it is taken or refused: at most one message. -/
theorem push_left {decoder : MessageDecoder} (h : Incomplete decoder.buffered) (record : Bytes) :
    (decoder.push record).1.buffered.length ≤ lengthPrefixBytes + maxNoiseJsonrpcMessageLen ∧
      ∀ messages, (decoder.push record).2 = .ok messages →
        Incomplete (decoder.push record).1.buffered := by
  unfold MessageDecoder.push
  split
  next => exact ⟨h.length_le, fun _ h => (by cases h)⟩
  next hrecord =>
    have hleft := (takeMessages_left (Nat.le_refl (decoder.buffered ++ record).length)).2
    have herror := @takeMessages_error record _ (decoder.buffered ++ record).length h
    dsimp only
    rcases htake : takeMessages (decoder.buffered ++ record).length (decoder.buffered ++ record)
      with ⟨left, error | messages⟩
    · rw [htake] at herror
      refine ⟨Nat.le_trans (herror (Nat.le_refl _) rfl) ?_, fun _ h => (by cases h)⟩
      unfold noiseRecordPlaintextLen at hrecord
      unfold lengthPrefixBytes maxNoiseJsonrpcMessageLen
      omega
    · rw [htake] at hleft
      have hincomplete : Incomplete left := hleft messages rfl
      simp only [if_neg (Nat.not_lt.mpr hincomplete.length_le)]
      exact ⟨hincomplete.length_le, fun _ _ => hincomplete⟩

end NovumAgent.Relay
