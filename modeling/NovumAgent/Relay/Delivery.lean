import NovumAgent.Lib.Outcome
import NovumAgent.Relay.Framing
import NovumAgent.Relay.Ordered

/-!
# From the messages sent to the messages received

The two stages of the receiver put together, with encryption taken as the identity: the frames of the relay go
through the ordering buffer, and the records it releases through the message decoder. The first error of
either ends the stream, as it does in the tasks that read the relay.

`relay_delivers` is the contract of the channel. A delivery that repeats and reorders the frames of one
sender within the window gives the receiver the messages sent, in order and once each; and whatever
frames arrive, the buffers stay within their bounds and every number is released at most once.
-/

namespace NovumAgent.Relay

open List OrderedCiphertextFrames

/-! ## The sender -/

/-- `take_next_sequence`: the number to use, and the one after it. -/
def takeNextSequence (nextSeq : Nat) : Except Text (Nat × Nat) :=
  if nextSeq < u32Max then .ok (nextSeq, nextSeq + 1)
  else .error "Noise relay sequence number exhausted".toList

/-- The frames of some records, numbered from the given number on. -/
def number (nextSeq : Nat) : List Bytes → Except Text (List Frame)
  | [] => .ok []
  | record :: records => do
    let (seq, next) ← takeNextSequence nextSeq
    let frames ← number next records
    pure ((seq, record) :: frames)

/-! ## The receiver -/

/-- The receiving half of a relayed stream. -/
structure Receiver where
  ordered : OrderedCiphertextFrames
  decoder : MessageDecoder

/-- A receiver before its first frame. -/
def Receiver.start : Receiver := ⟨OrderedCiphertextFrames.start, ⟨[]⟩⟩

/-- The messages in some records. -/
def decodeAll (decoder : MessageDecoder) : List Bytes → Except Text (MessageDecoder × List Bytes)
  | [] => .ok (decoder, [])
  | record :: records => do
    let messages ← (decoder.push record).2
    let (final, later) ← decodeAll (decoder.push record).1 records
    pure (final, messages ++ later)

/-- One frame of the relay. -/
def Receiver.receive (receiver : Receiver) (frame : Frame) : Except Text (Receiver × List Bytes) := do
  let ready ← (receiver.ordered.push frame.1 frame.2).2
  let (decoder, messages) ← decodeAll receiver.decoder ready
  pure (⟨(receiver.ordered.push frame.1 frame.2).1, decoder⟩, messages)

/-- A delivery: the frames in the order of their arrival. -/
def Receiver.receiveAll (receiver : Receiver) : List Frame → Except Text (Receiver × List Bytes)
  | [] => .ok (receiver, [])
  | frame :: later => do
    let (next, messages) ← receiver.receive frame
    let (final, others) ← next.receiveAll later
    pure (final, messages ++ others)

/-! ## Deliveries -/

/-- The lowest number of which no frame has arrived. -/
def FirstMissing (arrived : List Frame) (next : Nat) : Prop :=
  (∀ seq < next, seq ∈ arrived.map Prod.fst) ∧ next ∉ arrived.map Prod.fst

/-- A delivery within the reorder window: no frame is more than the reorder distance ahead of the first one
missing, and the distinct frames ahead of it fit the buffer. -/
def WithinWindow (delivery : List Frame) : Prop :=
  ∀ arrived frame later, delivery = arrived ++ frame :: later → ∀ next, FirstMissing arrived next →
    frame.1 ≤ next + maxReorderDistance ∧
      ∑ other ∈ insert frame arrived.toFinset with next < other.1, other.2.length ≤ maxPendingBytes

variable {records messages : List Bytes} {frames delivery : List Frame}

theorem number_spec {nextSeq : Nat} (h : number nextSeq records = .ok frames)
    (hlast : nextSeq ≤ u32Max) :
    nextSeq + records.length ≤ u32Max ∧ ∀ seq payload, (seq, payload) ∈ frames ↔
        nextSeq ≤ seq ∧ records[seq - nextSeq]? = some payload := by
  induction records generalizing nextSeq frames with
  | nil =>
    cases h
    exact ⟨hlast, by simp⟩
  | cons record records ih =>
    obtain ⟨⟨seq, next⟩, htake, hrest⟩ := Outcome.bind_eq_ok.mp h
    obtain ⟨others, hothers, hpure⟩ := Outcome.bind_eq_ok.mp hrest
    unfold takeNextSequence at htake
    split at htake
    next hlt =>
      cases htake
      cases hpure
      obtain ⟨hlength, hmem⟩ := ih hothers hlt
      refine ⟨by rw [length_cons]; omega, fun seq payload => ?_⟩
      rw [mem_cons, Prod.mk.injEq, hmem]
      obtain hless | rfl | hmore := Nat.lt_trichotomy seq nextSeq
      · exact ⟨by omega, by omega⟩
      · rw [Nat.sub_self, getElem?_cons_zero, Option.some.injEq]
        constructor
        · rintro (⟨-, rfl⟩ | ⟨hle, -⟩)
          · exact ⟨le_refl _, rfl⟩
          · exact absurd hle (Nat.not_succ_le_self _)
        · rintro ⟨-, rfl⟩
          exact .inl ⟨rfl, rfl⟩
      · obtain ⟨ahead, rfl⟩ := Nat.exists_eq_add_of_lt hmore
        rw [add_assoc, Nat.add_sub_cancel_left, getElem?_cons_succ,
          show nextSeq + (ahead + 1) - (nextSeq + 1) = ahead by omega]
        constructor
        · rintro (⟨heq, -⟩ | ⟨-, hpayload⟩)
          · omega
          · exact ⟨Nat.le_add_right _ _, hpayload⟩
        · rintro ⟨-, hpayload⟩
          exact .inr ⟨by omega, hpayload⟩
    next => cases htake

theorem decodeAll_awaits {decoder : MessageDecoder} {later : Bytes}
    (hmessages : ∀ message ∈ messages, Sendable message)
    (hrecords : ∀ record ∈ records, record.length ≤ noiseRecordPlaintextLen)
    (hawaits : decoder.Awaits (records.flatten ++ later) messages) :
    ∃ taken left next, messages = taken ++ left ∧ decodeAll decoder records = .ok (next, taken) ∧
      next.Awaits later left := by
  induction records generalizing decoder messages with
  | nil => exact ⟨[], messages, decoder, rfl, rfl, hawaits⟩
  | cons record records ih =>
    rw [flatten_cons, append_assoc] at hawaits
    obtain ⟨taken, left, next, rfl, hpush, hnext⟩ :=
      push_stream hmessages (hrecords record mem_cons_self) hawaits
    obtain ⟨taken', left', next', rfl, hdecode, hend⟩ :=
      ih (fun message hmem => hmessages message (mem_append_right _ hmem))
        (fun record hmem => hrecords record (mem_cons_of_mem _ hmem)) hnext
    refine ⟨taken ++ taken', left', next', (append_assoc _ _ _).symm, ?_, hend⟩
    unfold decodeAll
    rw [hpush]
    dsimp only
    rw [hdecode]
    rfl

theorem decodeAll_incomplete {decoder next : MessageDecoder} (h : Incomplete decoder.buffered)
    (hdecode : decodeAll decoder records = .ok (next, messages)) : Incomplete next.buffered := by
  induction records generalizing decoder messages with
  | nil =>
    cases hdecode
    exact h
  | cons record records ih =>
    obtain ⟨taken, htaken, hrest⟩ := Outcome.bind_eq_ok.mp hdecode
    obtain ⟨⟨final, later⟩, hlater, hpure⟩ := Outcome.bind_eq_ok.mp hrest
    cases hpure
    exact ih ((push_left h record).2 taken htaken) hlater

/-- A receiver in the middle of a delivery: the buffer holds what arrived and is not due, and the decoder
is where the released records end, with the given messages before it. -/
structure Receiver.Follows (receiver : Receiver) (records : List Bytes) (arrived : List Frame)
    (left : List Bytes) : Prop where
  sent : SentFrom records arrived.toFinset
  holds : Holds arrived.toFinset receiver.ordered
  settled : receiver.ordered.Settled
  awaits : receiver.decoder.Awaits (records.drop receiver.ordered.nextSeq).flatten left

namespace Receiver.Follows

variable {receiver : Receiver} {arrived : List Frame} {left : List Bytes}

section

variable (h : receiver.Follows records arrived left)
include h

theorem firstMissing : FirstMissing arrived receiver.ordered.nextSeq := by
  constructor
  · intro seq hseq
    obtain ⟨payload, hmem⟩ := h.holds.below seq hseq
    exact mem_map.mpr ⟨_, mem_toFinset.mp hmem, rfl⟩
  · intro hmem
    obtain ⟨⟨seq, payload⟩, hframe, hseq⟩ := mem_map.mp hmem
    have hheld := (h.holds.lookup seq payload).mpr ⟨mem_toFinset.mpr hframe, le_of_eq hseq.symm⟩
    dsimp only at hseq
    rw [hseq, h.settled] at hheld
    cases hheld

/-- **One frame of the sender within the window**: no error, and the messages that are complete now. -/
theorem receive (hlast : records.length ≤ u32Max) (hleft : ∀ message ∈ left, Sendable message)
    (hrecords : ∀ record ∈ records, record.length ≤ noiseRecordPlaintextLen) {frame : Frame}
    (hframe : records[frame.1]? = some frame.2)
    (hnear : frame.1 ≤ receiver.ordered.nextSeq + maxReorderDistance)
    (hroom : ∑ other ∈ insert frame arrived.toFinset with receiver.ordered.nextSeq < other.1,
      other.2.length ≤ maxPendingBytes) :
    ∃ next taken later, left = taken ++ later ∧ receiver.receive frame = .ok (next, taken) ∧
      next.Follows records (arrived ++ [frame]) later := by
  obtain ⟨ordered, due, hpush, hholds, hsettled, hdrop⟩ :=
    push_holds h.sent hlast hframe h.holds h.settled hnear hroom
  have hawaits := h.awaits
  rw [hdrop, flatten_append] at hawaits
  have hdue : ∀ record ∈ due, record.length ≤ noiseRecordPlaintextLen := by
    intro record hmem
    have hthere : record ∈ records.drop receiver.ordered.nextSeq := hdrop ▸ mem_append_left _ hmem
    exact hrecords record (mem_of_mem_drop hthere)
  obtain ⟨taken, later, decoder, rfl, hdecode, hnext⟩ := decodeAll_awaits hleft hdue hawaits
  have hset : (arrived ++ [frame]).toFinset = insert frame arrived.toFinset := by
    rw [toFinset_append, toFinset_cons, toFinset_nil, insert_empty_eq,
      Finset.union_comm, ← Finset.insert_eq]
  refine ⟨⟨ordered, decoder⟩, taken, later, rfl, ?_, ?_, hset ▸ hholds, hsettled, hnext⟩
  · unfold Receiver.receive
    rw [hpush]
    dsimp only
    show (decodeAll receiver.decoder due >>= _) = _
    rw [hdecode]
    rfl
  · intro other hother
    rw [hset] at hother
    obtain rfl | hold := Finset.mem_insert.mp hother
    · exact hframe
    · exact h.sent other hold

/-- **A whole delivery**, frame by frame. -/
theorem receiveAll (hlast : records.length ≤ u32Max) (hleft : ∀ message ∈ left, Sendable message)
    (hrecords : ∀ record ∈ records, record.length ≤ noiseRecordPlaintextLen) {coming : List Frame}
    (hcoming : ∀ frame ∈ coming, records[frame.1]? = some frame.2)
    (hwindow : WithinWindow (arrived ++ coming)) :
    ∃ next taken later, left = taken ++ later ∧ receiver.receiveAll coming = .ok (next, taken) ∧
      next.Follows records (arrived ++ coming) later := by
  induction coming generalizing receiver arrived left with
  | nil =>
    refine ⟨receiver, [], left, rfl, rfl, ?_⟩
    rw [append_nil]
    exact h
  | cons frame coming ih =>
    obtain ⟨hnear, hroom⟩ := hwindow arrived frame coming rfl _ h.firstMissing
    obtain ⟨next, taken, later, rfl, hreceive, hnext⟩ :=
      h.receive hlast hleft hrecords (hcoming frame mem_cons_self) hnear hroom
    have happend : arrived ++ [frame] ++ coming = arrived ++ frame :: coming := by
      rw [append_assoc]
      rfl
    obtain ⟨final, others, rest, rfl, hall, hend⟩ :=
      ih hnext (fun message hmem => hleft message (mem_append_right _ hmem))
        (fun frame hmem => hcoming frame (mem_cons_of_mem _ hmem)) (happend ▸ hwindow)
    refine ⟨final, taken ++ others, rest, (append_assoc _ _ _).symm, ?_, happend ▸ hend⟩
    unfold Receiver.receiveAll
    rw [hreceive]
    show (next.receiveAll coming >>= _) = _
    rw [hall]
    rfl

theorem eq_nil
    (hall : ∀ seq payload, records[seq]? = some payload → (seq, payload) ∈ arrived) : left = [] := by
  have hend : records.length ≤ receiver.ordered.nextSeq := by
    refine not_lt.mp fun hlt => ?_
    have hmem := hall _ _ (getElem?_eq_getElem hlt)
    exact h.firstMissing.2 (mem_map.mpr ⟨_, hmem, rfl⟩)
  have hawaits := h.awaits
  rw [drop_eq_nil_of_le hend] at hawaits
  exact hawaits.eq_nil

end

end Receiver.Follows

theorem mapM_frameMessage (hmessages : ∀ message ∈ messages, Sendable message) :
    messages.mapM frameMessage = .ok (messages.map framed) := by
  induction messages with
  | nil => rfl
  | cons message messages ih =>
    rw [mapM_cons, frameMessage_eq (hmessages message mem_cons_self),
      ih fun other hother => hmessages other (mem_cons_of_mem _ hother)]
    rfl

/-- **The relay delivers exactly the messages sent.** Non-empty messages of at most 64 MiB are framed, their
bytes cut into records of at most 60 KiB anywhere, and the records numbered. Every delivery of these
frames, with any repetition and any order within the window, is received without an error and gives
the messages in order. For any frames at all, also after errors, the payload released as the `k`-th
was pushed under number `k`, the buffer reaches at most 64 numbers ahead and holds at most 64 frames and
1 MiB. And for any records at all the decoder holds at most one message, as long as no push has failed
and behind the first that fails. -/
theorem relay_delivers : (∀ messages : List Bytes,
      (∀ message ∈ messages, message ≠ [] ∧ message.length ≤ 64 * 1024 * 1024) →
      ∃ bytes, messages.mapM frameMessage = .ok bytes ∧
        ∀ records : List Bytes, records.flatten = bytes.flatten →
          (∀ record ∈ records, record.length ≤ 60 * 1024) →
          ∀ frames, number 0 records = .ok frames →
          ∀ delivery : List Frame, (∀ frame, frame ∈ delivery ↔ frame ∈ frames) →
            WithinWindow delivery →
            ∃ receiver, Receiver.start.receiveAll delivery = .ok (receiver, messages)) ∧
    (∀ pushes : List Frame,
      (∀ k payload, (start.pushAll pushes).2[k]? = some payload → (k, payload) ∈ pushes) ∧
      (start.pushAll pushes).2.length ≤ (start.pushAll pushes).1.nextSeq ∧
      (∀ seq payload, (start.pushAll pushes).1.pending.lookup seq = some payload →
        (start.pushAll pushes).1.nextSeq < seq ∧ seq ≤ (start.pushAll pushes).1.nextSeq + 64) ∧
      (start.pushAll pushes).1.pending.size ≤ 64 ∧
      Table.sumBy length (start.pushAll pushes).1.pending ≤ 1024 * 1024) ∧
    (∀ records decoder messages, decodeAll ⟨[]⟩ records = .ok (decoder, messages) →
      decoder.buffered.length ≤ 4 + 64 * 1024 * 1024 ∧
        ∀ record, (decoder.push record).1.buffered.length ≤ 4 + 64 * 1024 * 1024) := by
  refine ⟨fun messages hmessages => ?_, fun pushes => ?_, fun records decoder messages h => ?_⟩
  · refine ⟨_, mapM_frameMessage hmessages, fun records hflat hrecords frames hnumber delivery hsame
      hwindow => ?_⟩
    obtain ⟨hlast, hmem⟩ := number_spec hnumber (Nat.zero_le _)
    rw [zero_add] at hlast
    have hstart : Receiver.start.Follows records [] messages := by
      refine ⟨fun frame h => absurd h (Finset.notMem_empty _), holds_start, rfl, ?_⟩
      show MessageDecoder.Awaits ⟨[]⟩ records.flatten messages
      rw [hflat, ← flatMap_def]
      exact awaits_start messages
    have hsent : ∀ frame ∈ delivery, records[frame.1]? = some frame.2 := by
      intro frame hframe
      exact ((hmem frame.1 frame.2).mp ((hsame frame).mp hframe)).2
    obtain ⟨receiver, taken, later, rfl, hreceive, hend⟩ :=
      hstart.receiveAll hlast hmessages hrecords hsent hwindow
    have hnone : later = [] := by
      refine hend.eq_nil fun seq payload hpayload => ?_
      exact (hsame _).mpr ((hmem seq payload).mpr ⟨Nat.zero_le _, hpayload⟩)
    rw [hnone, append_nil]
    exact ⟨receiver, hreceive⟩
  · have hstart : start.Settled := rfl
    obtain ⟨hsettled, htraced⟩ := pushAll_traced pushes hstart traced_start
    rw [nil_append, nil_append] at htraced
    refine ⟨htraced.numbered, htraced.few, fun seq payload hheld => ?_, htraced.size_le hsettled, ?_⟩
    · obtain ⟨hlow, hhigh, -⟩ := htraced.held seq payload hheld
      refine ⟨Nat.lt_of_le_of_ne hlow ?_, hhigh⟩
      rintro rfl
      exact Option.some_ne_none _ (hheld.symm.trans hsettled)
    · rw [← htraced.bytes]
      exact htraced.within
  · have hincomplete := decodeAll_incomplete incomplete_nil h
    exact ⟨hincomplete.length_le, fun record => (push_left hincomplete record).1⟩

/-- A message of one byte in two records, the length cut in the middle: the second record arrives first. -/
theorem relay_delivers_swapped :
    ∃ receiver, Receiver.start.receiveAll [(1, [0, 1, 7]), (0, [0, 0])] = .ok (receiver, [[7]]) := by
  have hmessages : ∀ message ∈ [([7] : Bytes)],
      message ≠ [] ∧ message.length ≤ 64 * 1024 * 1024 := by
    intro message hmem
    cases mem_singleton.mp hmem
    exact ⟨cons_ne_nil _ _, by decide⟩
  obtain ⟨bytes, hframed, hrelay⟩ := relay_delivers.1 [[7]] hmessages
  cases hframed
  refine hrelay [[0, 0], [0, 1, 7]] (by decide) ?_ [(0, [0, 0]), (1, [0, 1, 7])] rfl _ ?_ ?_
  · intro record hmem
    simp only [mem_cons, not_mem_nil, or_false] at hmem
    obtain rfl | rfl := hmem <;> decide
  · intro frame
    simp only [mem_cons, not_mem_nil, or_false]
    exact or_comm
  · intro arrived frame later hsplit next hmissing
    have hzero : 0 ∉ arrived.map Prod.fst → next = 0 := fun h =>
      Nat.eq_zero_of_not_pos fun hpos => h (hmissing.1 0 hpos)
    cases arrived with
    | nil =>
      cases hsplit
      cases hzero (by decide)
      decide
    | cons first arrived =>
      cases arrived with
      | nil =>
        cases hsplit
        cases hzero (by decide)
        decide
      | cons second arrived =>
        have hlength := congrArg length hsplit
        simp only [length_cons, length_append, length_nil] at hlength
        omega

/-- A record behind a length of zero is kept, and refused again. -/
theorem push_zeros {rest record : Bytes} (h : record.length ≤ noiseRecordPlaintextLen) :
    (MessageDecoder.push ⟨[0, 0, 0, 0] ++ rest⟩ record).1 = ⟨[0, 0, 0, 0] ++ (rest ++ record)⟩ := by
  unfold MessageDecoder.push
  rw [if_neg (Nat.not_lt.mpr h)]
  rfl

/-- The decoder behind some records, whether they were taken or not. -/
def pushAll (decoder : MessageDecoder) (records : List Bytes) : MessageDecoder :=
  records.foldl (fun decoder record => (decoder.push record).1) decoder

theorem length_pushAll_zeros {record : Bytes} (h : record.length ≤ noiseRecordPlaintextLen)
    (count : Nat) (rest : Bytes) :
    (pushAll ⟨[0, 0, 0, 0] ++ rest⟩ (replicate count record)).buffered.length =
      4 + rest.length + count * record.length := by
  induction count generalizing rest with
  | zero =>
    rw [replicate_zero, pushAll, foldl_nil, length_append, Nat.zero_mul]
    rfl
  | succ count ih =>
    rw [replicate_succ, pushAll, foldl_cons, push_zeros h]
    refine (ih (rest ++ record)).trans ?_
    rw [length_append, Nat.succ_mul]
    omega

/-- Behind a refused length the buffer grows with every further record, past its bound. -/
theorem refused_decoder_grows : 4 + 64 * 1024 * 1024 < (pushAll ⟨[]⟩
    ([0, 0, 0, 0] :: replicate 1093 (replicate (60 * 1024) 0))).buffered.length := by
  have hfirst : (MessageDecoder.push ⟨[]⟩ [0, 0, 0, 0]).1 = ⟨[0, 0, 0, 0] ++ []⟩ := rfl
  rw [pushAll, foldl_cons, hfirst]
  refine Nat.lt_of_lt_of_eq ?_ (length_pushAll_zeros (le_of_eq length_replicate) 1093 []).symm
  rw [length_replicate]
  decide

end NovumAgent.Relay
