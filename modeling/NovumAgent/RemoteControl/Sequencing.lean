import NovumAgent.RemoteControl.Outbound

/-!
# Sequence ids on the wire

As long as every message that gets an id also goes out, the ids that are written on a stream count up
from one, in the order in which they first appear; an id always stands for the same message; the buffer
has the envelopes that were handed to the writer and are not acknowledged, in order; and the usage counter
is their number. An acknowledgement never takes an envelope out that it does not reach, in any state.

The id of a message is taken before the message is split, and counted up afterwards even when the split
gives no envelope. A message that is too large to be sent at all leaves a gap in the ids on the wire
(`oversized_leaves_gap`). The other ways to break the sequence are outside the program: a client that
acknowledges what was never written to it, and a counter at its end.
-/

namespace NovumAgent.RemoteControl

open List Machine Table

namespace Outbound

variable {μ : Type} {serializer : Serializer μ} {s s' : Outbound μ}

/-! ## The parts of a message -/

variable {envelope part : ServerEnvelope μ} {key : StreamKey} {a : Ack} {queued : QueuedServerEnvelope μ}

theorem splitsInto_parts (serializer : Serializer μ) (envelope : ServerEnvelope μ) :
    SplitsInto envelope (parts serializer envelope) := by
  unfold parts
  split
  next envelopes h => exact (splitsInto_split h).filter _
  next => exact splitsInto_nil

theorem serializes_of_mem_parts (h : part ∈ parts serializer envelope) :
    serializes serializer part = true := by
  unfold parts at h
  split at h
  next => exact (mem_filter.mp h).2
  next => exact absurd h not_mem_nil

theorem filter_parts (serializer : Serializer μ) (envelope : ServerEnvelope μ) (key : StreamKey) :
    (parts serializer envelope).filter (·.key = key) =
      if envelope.key = key then parts serializer envelope else [] := by
  have hsame := (splitsInto_parts serializer envelope).same
  split
  next h =>
    refine filter_eq_self.mpr fun part hpart => ?_
    rw [decide_eq_true_eq, (hsame part hpart).1, h]
  next h =>
    refine filter_eq_nil_iff.mpr fun part hpart => ?_
    rw [decide_eq_true_eq, (hsame part hpart).1]
    exact h

theorem nodup_parts (serializer : Serializer μ) (envelope : ServerEnvelope μ) :
    (parts serializer envelope).Nodup := by
  refine (splitsInto_parts serializer envelope).ascending.imp ?_
  intro a b hlt hab
  rw [hab] at hlt
  exact lt_irrefl _ hlt

theorem mem_issuedOn : part ∈ s.issuedOn serializer key ↔
      ∃ message ∈ s.accepted, message.key = key ∧ part ∈ parts serializer message := by
  simp only [issuedOn, acceptedOn, mem_flatMap, mem_filter, decide_eq_true_eq]
  constructor
  · intro h
    obtain ⟨message, ⟨hmem, hkey⟩, hpart⟩ := h
    exact ⟨message, hmem, hkey, hpart⟩
  · intro h
    obtain ⟨message, hmem, hkey, hpart⟩ := h
    exact ⟨message, ⟨hmem, hkey⟩, hpart⟩

theorem key_of_mem_issuedOn (h : part ∈ s.issuedOn serializer key) : part.key = key := by
  obtain ⟨message, -, hkey, hpart⟩ := mem_issuedOn.mp h
  rw [((splitsInto_parts serializer message).same part hpart).1, hkey]

theorem serializes_of_mem_issuedOn
    (h : part ∈ s.issuedOn serializer key) : serializes serializer part = true := by
  obtain ⟨message, -, -, hpart⟩ := mem_issuedOn.mp h
  exact serializes_of_mem_parts hpart

/-! ## Inserting -/

theorem bufferOf_insertEnvelope (s : Outbound μ) (envelope : ServerEnvelope μ) (key : StreamKey) :
    (s.insertEnvelope envelope).bufferOf key =
      s.bufferOf key ++ if envelope.key = key then [envelope] else [] := by
  unfold bufferOf insertEnvelope
  rw [lookup_insert_eq]
  by_cases h : key = envelope.key
  · rw [if_pos h, if_pos h.symm, h]
    rfl
  · rw [if_neg h, if_neg (Ne.symm h), append_nil]

theorem sumBy_insertEnvelope (s : Outbound μ) (envelope : ServerEnvelope μ) :
    (s.insertEnvelope envelope).bufferByStream.sumBy length =
      s.bufferByStream.sumBy length + 1 := by
  have hinsert := sumBy_insert_elim (f := length) (t := s.bufferByStream) envelope.key
    (s.bufferOf envelope.key ++ [envelope])
  have hlength : (s.bufferByStream.lookup envelope.key).elim 0 length =
      (s.bufferOf envelope.key).length := by
    unfold bufferOf
    cases s.bufferByStream.lookup envelope.key with
    | none => rfl
    | some buffer => rfl
  rw [hlength, length_append, length_singleton] at hinsert
  show sumBy length (s.bufferByStream.insert envelope.key _) = _
  omega

/-- What a loop of insertions changes. -/
structure Inserted (s s' : Outbound μ) (envelopes : List (ServerEnvelope μ)) : Prop where
  buffer : ∀ key, s'.bufferOf key = s.bufferOf key ++ envelopes.filter (·.key = key)
  used : s'.used = s.used + envelopes.length
  sum : s'.bufferByStream.sumBy length = s.bufferByStream.sumBy length + envelopes.length
  next : s'.nextSeqIdByStream = s.nextSeqIdByStream
  accepted : s'.accepted = s.accepted
  wire : s'.wire = s.wire
  acks : s'.acks = s.acks

theorem inserted_foldl (s : Outbound μ) (envelopes : List (ServerEnvelope μ)) :
    Inserted s (envelopes.foldl insertEnvelope s) envelopes := by
  induction envelopes generalizing s with
  | nil => exact ⟨fun key => (append_nil _).symm, rfl, rfl, rfl, rfl, rfl, rfl⟩
  | cons envelope envelopes ih =>
    have hrest := ih (s.insertEnvelope envelope)
    rw [foldl_cons]
    refine ⟨fun key => ?_, ?_, ?_, hrest.next, hrest.accepted, hrest.wire, hrest.acks⟩
    · rw [hrest.buffer, bufferOf_insertEnvelope, append_assoc, filter_cons]
      by_cases h : envelope.key = key
      · simp [h]
      · simp [h]
    · rw [hrest.used, length_cons]
      show s.used + 1 + envelopes.length = _
      omega
    · rw [hrest.sum, sumBy_insertEnvelope, length_cons]
      omega

theorem filter_flatMap_bufferOf {order : List StreamKey} (hnodup : order.Nodup)
    (hkeys : ∀ key, ∀ envelope ∈ s.bufferOf key, envelope.key = key) (key : StreamKey) :
    (order.flatMap s.bufferOf).filter (·.key = key) = if key ∈ order then s.bufferOf key else [] := by
  have hone : ∀ other, (s.bufferOf other).filter (·.key = key) = if other = key then s.bufferOf key else [] := by
    intro other
    split
    next heq =>
      rw [heq]
      refine filter_eq_self.mpr fun envelope henvelope => ?_
      rw [decide_eq_true_eq]
      exact hkeys key envelope henvelope
    next hne =>
      refine filter_eq_nil_iff.mpr fun envelope henvelope => ?_
      rw [decide_eq_true_eq, hkeys other envelope henvelope]
      exact hne
  induction order with
  | nil => rfl
  | cons other order ih =>
    obtain ⟨hnotMem, hrest⟩ := nodup_cons.mp hnodup
    rw [flatMap_cons, filter_append, hone, ih hrest]
    by_cases heq : other = key
    · subst heq
      simp [hnotMem]
    · simp [heq, Ne.symm heq]

/-! ## Acknowledging -/

theorem bufferByStream_ack {buffer : List (ServerEnvelope μ)}
    (h : s.bufferByStream.lookup a.key = some buffer) :
    (s.ack a).bufferByStream =
      if (buffer.filter fun envelope => ¬ cursorLe envelope.cursor a.cursor) = [] then
        s.bufferByStream.erase a.key
      else
        s.bufferByStream.insert a.key (buffer.filter fun envelope => ¬ cursorLe envelope.cursor a.cursor) := by
  simp only [ack, h]

theorem ack_of_none (h : s.bufferByStream.lookup a.key = none) :
    s.ack a = { s with acks := s.acks ++ [a] } := by
  simp only [ack, h]

theorem bufferOf_ack (s : Outbound μ) (a : Ack) (key : StreamKey) : (s.ack a).bufferOf key =
      (s.bufferOf key).filter fun envelope => ¬ (key = a.key ∧ cursorLe envelope.cursor a.cursor) := by
  cases hlookup : s.bufferByStream.lookup a.key with
  | none =>
    rw [ack_of_none hlookup]
    by_cases hkey : key = a.key
    · have hempty : s.bufferOf key = [] := by
        rw [bufferOf, hkey, hlookup]
        rfl
      rw [hempty]
      exact hempty
    · simp [hkey, bufferOf]
  | some buffer =>
    rw [bufferOf, bufferByStream_ack hlookup]
    by_cases hkey : key = a.key
    · have hbuffer : s.bufferOf a.key = buffer := by
        rw [bufferOf, hlookup]
        rfl
      subst hkey
      simp only [hbuffer, true_and]
      split
      next hkept =>
        rw [lookup_erase_eq, if_pos rfl]
        exact hkept.symm
      next =>
        rw [lookup_insert_eq, if_pos rfl]
        rfl
    · simp only [hkey, false_and, not_false_eq_true, decide_true, filter_true]
      split
      next => rw [lookup_erase_eq, if_neg hkey, bufferOf]
      next => rw [lookup_insert_eq, if_neg hkey, bufferOf]

/-- **An acknowledgement takes out only what it reaches.** -/
theorem covers_of_acked
    (hbefore : envelope ∈ s.bufferOf key) (hafter : envelope ∉ (s.ack a).bufferOf key) :
    key = a.key ∧ cursorLe envelope.cursor a.cursor := by
  rw [bufferOf_ack, mem_filter, decide_eq_true_eq] at hafter
  by_contra hnot
  exact hafter ⟨hbefore, hnot⟩

theorem used_ack (h : s.used = s.bufferByStream.sumBy length) (a : Ack) :
    (s.ack a).used = (s.ack a).bufferByStream.sumBy length := by
  cases hlookup : s.bufferByStream.lookup a.key with
  | none =>
    rw [ack_of_none hlookup]
    exact h
  | some buffer =>
    rw [bufferByStream_ack hlookup]
    simp only [ack, hlookup]
    have hle := length_filter_le (fun envelope => ¬ cursorLe envelope.cursor a.cursor) buffer
    split
    next hkept =>
      have hsum := sumBy_erase (f := length) hlookup
      rw [hkept, length_nil]
      omega
    next =>
      have hsum : sumBy length (s.bufferByStream.insert a.key
          (buffer.filter fun envelope => ¬ cursorLe envelope.cursor a.cursor)) + _ = _ :=
        sumBy_insert hlookup
      omega

theorem ack_eq (s : Outbound μ) (a : Ack) :
    (s.ack a).nextSeqIdByStream = s.nextSeqIdByStream ∧ (s.ack a).writer = s.writer ∧
      (s.ack a).accepted = s.accepted ∧ (s.ack a).wire = s.wire ∧ (s.ack a).acks = s.acks ++ [a] := by
  cases h : s.bufferByStream.lookup a.key with
  | none => simp only [ack_of_none h, and_self]
  | some buffer => simp only [ack, h, and_self]

theorem unacked_ack : (s.ack a).Unacked envelope ↔ s.Unacked envelope ∧ ¬ a.Covers envelope := by
  unfold Unacked
  rw [(ack_eq s a).2.2.2.2]
  simp only [mem_append, mem_singleton]
  constructor
  · intro h
    exact ⟨fun b hb => h b (.inl hb), h a (.inr rfl)⟩
  · intro h b hb
    rcases hb with hb | rfl
    · exact h.1 b hb
    · exact h.2

/-! ## Taking a message -/

/-- What taking a message changes. -/
structure Taken (serializer : Serializer μ) (s s' : Outbound μ) (envelope : ServerEnvelope μ) : Prop where
  accepted : s'.accepted = s.accepted ++ [envelope]
  buffer : ∀ key, s'.bufferOf key = s.bufferOf key ++ (parts serializer envelope).filter (·.key = key)
  used : s'.used = s.used + (parts serializer envelope).length
  sum : s'.bufferByStream.sumBy length =
    s.bufferByStream.sumBy length + (parts serializer envelope).length
  next : ∀ key, s'.nextOf key = if key = envelope.key then min (envelope.seqId + 1) u64Max else s.nextOf key
  writer : s'.writer = some (parts serializer envelope)
  wire : s'.wire = s.wire
  acks : s'.acks = s.acks

theorem taken_accept {envelopes : List (ServerEnvelope μ)}
    (h : splitServerEnvelopeForTransport serializer (s.envelopeFor queued) = .ok envelopes) :
    Taken serializer s (s.accept serializer queued) (s.envelopeFor queued) := by
  have hinserted := inserted_foldl
    ⟨s.nextSeqIdByStream.insert (s.envelopeFor queued).key (s.envelopeFor queued).seqId, s.bufferByStream,
      s.used, s.writer, s.accepted, s.wire, s.acks⟩ (parts serializer (s.envelopeFor queued))
  simp only [accept, h]
  refine ⟨?_, hinserted.buffer, hinserted.used, hinserted.sum, fun key => ?_, rfl, hinserted.wire,
    hinserted.acks⟩
  · show _ ++ _ = _
    rw [hinserted.accepted]
  · rw [nextOf, lookup_insert_eq]
    split
    next => rfl
    next hkey =>
      rw [hinserted.next, lookup_insert_eq, if_neg hkey]
      rfl

theorem climbs_issued {messages : List (ServerEnvelope μ)}
    (hids : messages.map (·.seqId) = range' 1 messages.length)
    (hparts : ∀ message ∈ messages, parts serializer message ≠ []) :
    Dedup.Climbs ((messages.flatMap (parts serializer)).map (·.seqId)) messages.length := by
  induction messages using reverseRecOn with
  | nil => exact Dedup.climbs_nil
  | append_singleton messages message ih =>
    rw [map_append, length_append, length_singleton, range'_1_concat, map_singleton] at hids
    obtain ⟨hids, hid⟩ := append_inj hids (by simp)
    rw [singleton_inj] at hid
    have hbefore := ih hids fun other hother => hparts other (mem_append_left _ hother)
    obtain ⟨j, hj⟩ : ∃ j, (parts serializer message).length = j + 1 :=
      Nat.exists_eq_succ_of_ne_zero fun hzero =>
        hparts message (mem_append_right _ (mem_singleton_self _)) (length_eq_zero_iff.mp hzero)
    have hblock : (parts serializer message).map (·.seqId) =
        replicate (j + 1) (messages.length + 1) := by
      rw [eq_replicate_iff, length_map]
      refine ⟨hj, fun id hmem => ?_⟩
      obtain ⟨part, hpart, rfl⟩ := mem_map.mp hmem
      rw [((splitsInto_parts serializer message).same part hpart).2, hid, add_comm]
    rw [flatMap_append, flatMap_singleton, map_append, hblock, length_append, length_singleton]
    exact hbefore.append_replicate j

/-! ## The invariant -/

variable [DecidableEq μ]

/-- How far a stream has been written: everything handed to the writer is either written or waits, what
waits comes behind what is written and is not acknowledged, and the writer has it last. -/
structure SentUpTo (serializer : Serializer μ) (s : Outbound μ) (key : StreamKey)
    (sent unsent : List (ServerEnvelope μ)) : Prop where
  issued : s.issuedOn serializer key = sent ++ unsent
  written : (s.wireOn key).eraseDups = sent
  unacked : ∀ envelope ∈ unsent, s.Unacked envelope
  waiting : ∀ envelopes, s.writer = some envelopes →
    ∃ again, envelopes.filter (·.key = key) = again ++ unsent ∧ ∀ envelope ∈ again, envelope ∈ sent

/-- What every run keeps whose steps meet the condition. -/
structure Inv (serializer : Serializer μ) (s : Outbound μ) : Prop where
  ids : ∀ key, (s.acceptedOn key).map (·.seqId) = range' 1 (s.acceptedOn key).length
  next : ∀ key, s.nextOf key = (s.acceptedOn key).length + 1
  nonempty : ∀ message ∈ s.accepted, parts serializer message ≠ []
  buffer : ∀ key, s.bufferOf key = (s.issuedOn serializer key).filter fun envelope => s.Unacked envelope
  used : s.used = s.bufferByStream.sumBy length
  acks : ∀ a ∈ s.acks, a.seqId < s.nextOf a.key
  sent : ∀ key, ∃ sent unsent, SentUpTo serializer s key sent unsent

/-- What a step has to meet for the sequence to go on: a message that is taken goes out and does not have
the last id there is; an acknowledgement is for a message that was taken, and for envelopes that were
written. -/
def Proper (serializer : Serializer μ) (s : Outbound μ) : Event μ → Prop
  | .message queued =>
    (∃ err, splitServerEnvelopeForTransport serializer (s.envelopeFor queued) = .error err) ∨
      (parts serializer (s.envelopeFor queued) ≠ [] ∧ (s.envelopeFor queued).seqId < u64Max)
  | .ack a => a.seqId < s.nextOf a.key ∧
      ∀ envelope ∈ s.issuedOn serializer a.key, a.Covers envelope → envelope ∈ s.wire
  | _ => True

theorem inv_initial (serializer : Serializer μ) : Inv serializer (initial : Outbound μ) where
  ids _ := rfl
  next _ := rfl
  nonempty _ h := absurd h not_mem_nil
  buffer _ := rfl
  used := rfl
  acks _ h := absurd h not_mem_nil
  sent _ := ⟨[], [], rfl, rfl, fun _ h => absurd h not_mem_nil, nofun⟩

section

variable (h : Inv serializer s)
include h

theorem Inv.nodup_issuedOn (key : StreamKey) : (s.issuedOn serializer key).Nodup := by
  have hids : ((s.acceptedOn key).map (·.seqId)).Nodup := by
    rw [h.ids]
    exact nodup_range'
  refine nodup_flatMap.mpr ⟨fun message _ => nodup_parts serializer message, ?_⟩
  refine (pairwise_map.mp hids).imp ?_
  intro a b hne part ha hb
  apply hne
  rw [← ((splitsInto_parts serializer a).same part ha).2, ((splitsInto_parts serializer b).same part hb).2]

/-! ## The steps -/

theorem inv_write {rest : List (ServerEnvelope μ)} (hwriter : s.writer = some (envelope :: rest)) :
    Inv serializer { s with writer := some rest, wire := s.wire ++ [envelope] } := by
  refine { h with sent := fun key => ?_ }
  obtain ⟨sent, unsent, hsent⟩ := h.sent key
  obtain ⟨again, hagain, hold⟩ := hsent.waiting _ hwriter
  have hwire : ∀ wire : List (ServerEnvelope μ), (wire ++ [envelope]).filter (·.key = key) =
      wire.filter (·.key = key) ++ if envelope.key = key then [envelope] else [] := by
    intro wire
    by_cases hkey : envelope.key = key
    · simp [hkey]
    · simp [hkey]
  by_cases hkey : envelope.key = key
  · have hfilter : (envelope :: rest).filter (·.key = key) = envelope :: rest.filter (·.key = key) := by
      simp [hkey]
    rw [hfilter] at hagain
    have hnew : ∀ sent', Dedup.pushNew sent envelope = sent' →
        ((s.wire ++ [envelope]).filter (·.key = key)).eraseDups = sent' := by
      intro sent' hpush
      rw [hwire, if_pos hkey, Dedup.eraseDups_concat, show (s.wire.filter (·.key = key)).eraseDups = sent
        from hsent.written, hpush]
    cases again with
    | nil =>
      -- the first of those that wait is written now
      rw [nil_append] at hagain
      have hnodup := h.nodup_issuedOn key
      rw [hsent.issued, ← hagain] at hnodup
      have hfresh : envelope ∉ sent := by
        intro hmem
        exact (nodup_append.mp hnodup).2.2 envelope hmem envelope mem_cons_self rfl
      refine ⟨sent ++ [envelope], rest.filter (·.key = key), ?_, hnew _ (if_neg hfresh), ?_, ?_⟩
      · rw [append_assoc, singleton_append, hagain]
        exact hsent.issued
      · intro other hother
        exact hsent.unacked other (hagain ▸ mem_cons_of_mem _ hother)
      · intro envelopes henvelopes
        cases henvelopes
        exact ⟨[], rfl, fun _ hmem => absurd hmem not_mem_nil⟩
    | cons first again =>
      -- it was written before
      rw [cons_append, cons.injEq] at hagain
      obtain ⟨rfl, hagain⟩ := hagain
      refine ⟨sent, unsent, hsent.issued, hnew _ (if_pos (hold _ mem_cons_self)), hsent.unacked, ?_⟩
      intro envelopes henvelopes
      cases henvelopes
      exact ⟨again, hagain, fun other hother => hold other (mem_cons_of_mem _ hother)⟩
  · have hfilter : (envelope :: rest).filter (·.key = key) = rest.filter (·.key = key) := by simp [hkey]
    rw [hfilter] at hagain
    refine ⟨sent, unsent, hsent.issued, ?_, hsent.unacked, ?_⟩
    · show ((s.wire ++ [envelope]).filter (·.key = key)).eraseDups = sent
      rw [hwire, if_neg hkey, append_nil]
      exact hsent.written
    · intro envelopes henvelopes
      cases henvelopes
      exact ⟨again, hagain, hold⟩

theorem inv_disconnect : Inv serializer { s with writer := none } := by
  refine { h with sent := fun key => ?_ }
  obtain ⟨sent, unsent, hsent⟩ := h.sent key
  exact ⟨sent, unsent, hsent.issued, hsent.written, hsent.unacked, nofun⟩

theorem inv_reconnect {order : List StreamKey} (horder : order.Perm s.bufferByStream.keys) :
    Inv serializer
      { s with writer := some ((order.flatMap s.bufferOf).filter (serializes serializer)) } := by
  have hmem : ∀ key, ∀ envelope ∈ s.bufferOf key, envelope ∈ s.issuedOn serializer key := by
    intro key envelope henvelope
    rw [h.buffer] at henvelope
    exact (mem_filter.mp henvelope).1
  have hserializes : (order.flatMap s.bufferOf).filter (serializes serializer) = order.flatMap s.bufferOf := by
    refine filter_eq_self.mpr fun envelope henvelope => ?_
    obtain ⟨key, -, henvelope⟩ := mem_flatMap.mp henvelope
    exact serializes_of_mem_issuedOn (hmem key envelope henvelope)
  refine { h with sent := fun key => ?_ }
  obtain ⟨sent, unsent, hsent⟩ := h.sent key
  refine ⟨sent, unsent, hsent.issued, hsent.written, hsent.unacked, fun envelopes henvelopes => ?_⟩
  cases henvelopes
  have hwhole : (order.flatMap s.bufferOf).filter (·.key = key) = s.bufferOf key := by
    rw [filter_flatMap_bufferOf (horder.nodup_iff.mpr s.bufferByStream.nodupKeys)
      (fun key envelope henvelope => key_of_mem_issuedOn (hmem key envelope henvelope))]
    split
    next => rfl
    next hnot =>
      have hnone : s.bufferByStream.lookup key = none :=
        AList.lookup_eq_none.mpr fun hkey => hnot (horder.mem_iff.mpr hkey)
      rw [bufferOf, hnone]
      rfl
  refine ⟨sent.filter fun envelope => s.Unacked envelope, ?_, fun envelope henvelope =>
    (mem_filter.mp henvelope).1⟩
  rw [hserializes, hwhole, h.buffer, hsent.issued, filter_append]
  congr 1
  exact filter_eq_self.mpr fun envelope henvelope => decide_eq_true (hsent.unacked envelope henvelope)

theorem inv_ack (hproper : Proper serializer s (.ack a)) : Inv serializer (s.ack a) := by
  obtain ⟨hnext, hwriter, haccepted, hwire, hacks⟩ := ack_eq s a
  have hacceptedOn : ∀ key, (s.ack a).acceptedOn key = s.acceptedOn key := fun key => by
    rw [acceptedOn, haccepted, acceptedOn]
  have hissuedOn : ∀ key, (s.ack a).issuedOn serializer key = s.issuedOn serializer key := fun key => by
    rw [issuedOn, hacceptedOn, issuedOn]
  have hnextOf : ∀ key, (s.ack a).nextOf key = s.nextOf key := fun key => by
    rw [nextOf, hnext, nextOf]
  refine ⟨fun key => ?_, fun key => ?_, ?_, fun key => ?_, used_ack h.used a, fun b hb => ?_, fun key => ?_⟩
  · rw [hacceptedOn, h.ids]
  · rw [hnextOf, hacceptedOn, h.next]
  · rw [haccepted]
    exact h.nonempty
  · rw [bufferOf_ack, h.buffer, hissuedOn, filter_filter]
    refine filter_congr fun envelope henvelope => ?_
    have hkey := key_of_mem_issuedOn henvelope
    rw [← Bool.decide_and, decide_eq_decide, unacked_ack, Ack.Covers, hkey]
    exact and_comm
  · rw [hnextOf]
    rw [hacks] at hb
    rcases mem_append.mp hb with hb | hb
    · exact h.acks b hb
    · rw [mem_singleton.mp hb]
      exact hproper.1
  · obtain ⟨sent, unsent, hsent⟩ := h.sent key
    refine ⟨sent, unsent, ?_, ?_, fun envelope henvelope => unacked_ack.mpr
      ⟨hsent.unacked envelope henvelope, fun hcovers => ?_⟩, fun envelopes henvelopes => ?_⟩
    · rw [hissuedOn]
      exact hsent.issued
    · rw [wireOn, hwire]
      exact hsent.written
    · -- what is acknowledged was written, so it does not wait
      have hissued : envelope ∈ s.issuedOn serializer key := by
        rw [hsent.issued]
        exact mem_append_right _ henvelope
      have hkey := key_of_mem_issuedOn hissued
      have hwritten : envelope ∈ s.wire := by
        refine hproper.2 envelope ?_ hcovers
        rw [← hcovers.1, hkey]
        exact hissued
      have hmem : envelope ∈ sent := by
        rw [← hsent.written, mem_eraseDups, wireOn, mem_filter, decide_eq_true_eq]
        exact ⟨hwritten, hkey⟩
      have hnodup := h.nodup_issuedOn key
      rw [hsent.issued] at hnodup
      exact (nodup_append.mp hnodup).2.2 envelope hmem envelope henvelope rfl
    · rw [hwriter] at henvelopes
      exact hsent.waiting envelopes henvelopes

theorem inv_accept_error {err : Text}
    (herr : splitServerEnvelopeForTransport serializer (s.envelopeFor queued) = .error err) :
    Inv serializer (s.accept serializer queued) := by
  have hnextOf : ∀ key, ((s.nextSeqIdByStream.insert (s.envelopeFor queued).key
      (s.envelopeFor queued).seqId).lookup key).getD 1 = s.nextOf key := by
    intro key
    rw [lookup_insert_eq]
    split
    next hkey =>
      rw [hkey]
      rfl
    next => rfl
  simp only [accept, herr]
  refine ⟨h.ids, fun key => (hnextOf key).trans (h.next key), h.nonempty, h.buffer, h.used,
    fun a ha => (h.acks a ha).trans_eq (hnextOf a.key).symm, fun key => ?_⟩
  obtain ⟨sent, unsent, hsent⟩ := h.sent key
  exact ⟨sent, unsent, hsent.issued, hsent.written, hsent.unacked, hsent.waiting⟩

theorem inv_taken (htaken : Taken serializer s s' envelope)
    (hwriter : s.writer = some []) (hseq : envelope.seqId = s.nextOf envelope.key)
    (hparts : parts serializer envelope ≠ []) (hlast : envelope.seqId < u64Max) : Inv serializer s' := by
  have hacceptedOn : ∀ key, s'.acceptedOn key =
      s.acceptedOn key ++ if envelope.key = key then [envelope] else [] := by
    intro key
    rw [acceptedOn, htaken.accepted, filter_append, acceptedOn]
    by_cases hkey : envelope.key = key
    · simp [hkey]
    · simp [hkey]
  have hissuedOn : ∀ key, s'.issuedOn serializer key =
      s.issuedOn serializer key ++ (parts serializer envelope).filter (·.key = key) := by
    intro key
    rw [issuedOn, hacceptedOn, flatMap_append, filter_parts, issuedOn]
    split
    next => rw [flatMap_singleton]
    next => rfl
  have hunacked : ∀ other, s'.Unacked other ↔ s.Unacked other := fun other => by
    rw [Unacked, htaken.acks, Unacked]
  -- acknowledgements that came before are for smaller ids
  have hnew : ∀ part ∈ parts serializer envelope, s.Unacked part := by
    intro part hpart a ha hcovers
    obtain ⟨hkey, hid⟩ := (splitsInto_parts serializer envelope).same part hpart
    have hpast := h.acks a ha
    rw [← hcovers.1, hkey, ← hseq, ← hid] at hpast
    rcases hcovers.2 with hlt | ⟨heq, -⟩
    · exact absurd hlt (by simp only [ServerEnvelope.cursor, Ack.cursor]; omega)
    · simp only [ServerEnvelope.cursor, Ack.cursor] at heq
      omega
  have hnext : ∀ key, s'.nextOf key = s.nextOf key + if envelope.key = key then 1 else 0 := by
    intro key
    rw [htaken.next]
    by_cases hkey : key = envelope.key
    · rw [if_pos hkey, if_pos hkey.symm, hkey, ← hseq]
      omega
    · rw [if_neg hkey, if_neg (Ne.symm hkey), add_zero]
  refine ⟨fun key => ?_, fun key => ?_, fun message hmessage => ?_, fun key => ?_, ?_, fun a ha => ?_,
    fun key => ?_⟩
  · rw [hacceptedOn]
    by_cases hkey : envelope.key = key
    · rw [if_pos hkey, map_append, length_append, length_singleton, h.ids,
        range'_1_concat, map_singleton, hseq, hkey, h.next, add_comm 1]
    · rw [if_neg hkey, append_nil, h.ids]
  · rw [hnext, hacceptedOn, h.next]
    by_cases hkey : envelope.key = key
    · simp [hkey]
    · simp [hkey]
  · rw [htaken.accepted] at hmessage
    rcases mem_append.mp hmessage with hmessage | hmessage
    · exact h.nonempty message hmessage
    · rw [mem_singleton.mp hmessage]
      exact hparts
  · simp only [hunacked]
    rw [htaken.buffer, hissuedOn, filter_append, h.buffer]
    congr 1
    refine (filter_eq_self.mpr fun part hpart => ?_).symm
    exact decide_eq_true (hnew part (mem_filter.mp hpart).1)
  · rw [htaken.used, htaken.sum, h.used]
  · rw [htaken.acks] at ha
    rw [hnext]
    exact Nat.lt_add_right _ (h.acks a ha)
  · obtain ⟨sent, unsent, hsent⟩ := h.sent key
    obtain ⟨again, hagain, -⟩ := hsent.waiting [] hwriter
    -- nothing waited, so all there was is written
    have hnone : unsent = [] := (append_eq_nil_iff.mp hagain.symm).2
    have hall := hsent.issued
    rw [hnone, append_nil] at hall
    refine ⟨sent, (parts serializer envelope).filter (·.key = key), ?_, ?_, fun part hpart => ?_,
      fun envelopes henvelopes => ?_⟩
    · rw [hissuedOn, hall]
    · rw [wireOn, htaken.wire]
      exact hsent.written
    · exact (hunacked part).mpr (hnew part (mem_filter.mp hpart).1)
    · rw [htaken.writer] at henvelopes
      cases henvelopes
      exact ⟨[], rfl, fun _ hmem => absurd hmem not_mem_nil⟩

/-- **A step that meets the condition keeps the invariant.** -/
theorem inv_step {event : Event μ} (hproper : Proper serializer s event)
    (hstep : step serializer s event = some s') : Inv serializer s' := by
  cases event with
  | message queued =>
    simp only [step] at hstep
    split at hstep
    next hwriter =>
      obtain ⟨-, ⟨⟩⟩ := Option.ite_none_right_eq_some.mp hstep
      cases hsplit : splitServerEnvelopeForTransport serializer (s.envelopeFor queued) with
      | error err => exact inv_accept_error h hsplit
      | ok envelopes =>
        rcases hproper with ⟨err, herr⟩ | ⟨hparts, hlast⟩
        · rw [hsplit] at herr
          cases herr
        · exact inv_taken h (taken_accept hsplit) hwriter rfl hparts hlast
    next => cases hstep
  | write =>
    simp only [step] at hstep
    split at hstep
    next envelope rest hwriter =>
      cases hstep
      exact inv_write h hwriter
    next => cases hstep
  | disconnect =>
    obtain ⟨-, ⟨⟩⟩ := Option.ite_none_right_eq_some.mp hstep
    exact inv_disconnect h
  | reconnect order =>
    simp only [step] at hstep
    split at hstep
    next =>
      obtain ⟨horder, ⟨⟩⟩ := Option.ite_none_right_eq_some.mp hstep
      exact inv_reconnect h horder
    next => cases hstep
  | ack a =>
    cases hstep
    exact inv_ack h hproper

end

/-! ## What holds of the ids, the buffer and the counter -/

/-- The sequence on the wire and the buffer are as they should be. -/
structure Sequenced (serializer : Serializer μ) (s : Outbound μ) : Prop where
  /-- The ids written on a stream count up from one, as they first appear. -/
  wireIds : ∀ key, ∃ n, ((s.wireOn key).map (·.seqId)).eraseDups = range' 1 n
  /-- What is written is a part of a message with that id. -/
  content : ∀ envelope ∈ s.wire, ∃ message ∈ s.accepted, envelope ∈ parts serializer message ∧
    envelope.key = message.key ∧ envelope.seqId = message.seqId
  /-- An id of a stream stands for one message. -/
  oneMessage : ∀ message ∈ s.accepted, ∀ message' ∈ s.accepted, message.key = message'.key →
    message.seqId = message'.seqId → message = message'
  /-- The buffer has what was handed to the writer and is not acknowledged, in order. -/
  buffer : ∀ key, s.bufferOf key = (s.issuedOn serializer key).filter fun envelope => s.Unacked envelope
  /-- What was handed to the writer is written, unless it still waits for it or for a connection. -/
  written : ∀ key, ∀ envelope ∈ s.issuedOn serializer key, envelope ∈ s.wire ∨ s.writer = none ∨
    ∃ envelopes, s.writer = some envelopes ∧ envelope ∈ envelopes
  /-- The usage counter counts the envelopes in the buffer. -/
  used : s.used = s.bufferByStream.sumBy length

theorem Inv.sequenced (h : Inv serializer s) : Sequenced serializer s := by
  have hwire : ∀ envelope ∈ s.wire, envelope ∈ s.issuedOn serializer envelope.key := by
    intro envelope henvelope
    obtain ⟨sent, unsent, hsent⟩ := h.sent envelope.key
    rw [hsent.issued, ← hsent.written]
    refine mem_append_left _ (mem_eraseDups.mpr ?_)
    rw [wireOn, mem_filter, decide_eq_true_eq]
    exact ⟨henvelope, rfl⟩
  refine ⟨fun key => ?_, fun envelope henvelope => ?_, fun message hmessage message' hmessage' hkey hid => ?_,
    h.buffer, fun key envelope henvelope => ?_, h.used⟩
  · obtain ⟨sent, unsent, hsent⟩ := h.sent key
    have hclimbs := climbs_issued (h.ids key) fun message hmessage =>
      h.nonempty message (mem_filter.mp hmessage).1
    rw [Dedup.eraseDups_map, hsent.written]
    refine hclimbs.2 (sent.map (·.seqId)) ?_
    rw [show (s.acceptedOn key).flatMap (parts serializer) = sent ++ unsent from hsent.issued, map_append]
    exact prefix_append _ _
  · obtain ⟨message, hmessage, -, hpart⟩ := mem_issuedOn.mp (hwire envelope henvelope)
    obtain ⟨hkey, hid⟩ := (splitsInto_parts serializer message).same envelope hpart
    exact ⟨message, hmessage, hpart, hkey, hid⟩
  · have hnodup : ((s.acceptedOn message.key).map (·.seqId)).Nodup := by
      rw [h.ids]
      exact nodup_range'
    refine inj_on_of_nodup_map hnodup ?_ ?_ hid
    · exact mem_filter.mpr ⟨hmessage, decide_eq_true rfl⟩
    · exact mem_filter.mpr ⟨hmessage', decide_eq_true hkey.symm⟩
  · obtain ⟨sent, unsent, hsent⟩ := h.sent key
    rw [hsent.issued] at henvelope
    rcases mem_append.mp henvelope with hmem | hmem
    · rw [← hsent.written, mem_eraseDups] at hmem
      exact .inl (mem_filter.mp hmem).1
    · cases hwriter : s.writer with
      | none => exact .inr (.inl rfl)
      | some envelopes =>
        obtain ⟨again, hagain, -⟩ := hsent.waiting envelopes hwriter
        have hwaits : envelope ∈ envelopes.filter (·.key = key) := by
          rw [hagain]
          exact mem_append_right _ hmem
        exact .inr (.inr ⟨envelopes, rfl, (mem_filter.mp hwaits).1⟩)

/-- **The sequence on the wire**, in every run whose steps all meet the condition, and what an
acknowledgement may take out of the buffer. -/
theorem outbound_sequenced (μ : Type) [DecidableEq μ] (serializer : Serializer μ) (events : List (Event μ))
    (s : Outbound μ) (hrun : run (step serializer) initial events = some s)
    (hproper : Along (step serializer) (Proper serializer) initial events) :
    Sequenced serializer s ∧ ∀ a key, ∀ envelope ∈ s.bufferOf key, envelope ∉ (s.ack a).bufferOf key →
      key = a.key ∧ cursorLe envelope.cursor a.cursor := by
  have hinv : Inv serializer s := run_invariant_along (fun _ _ _ hs he hstep => inv_step hs he hstep)
    (inv_initial serializer) hproper hrun
  exact ⟨hinv.sequenced, fun a key envelope hbefore hafter => covers_of_acked hbefore hafter⟩

/-! ## A message that cannot be sent -/

/-- A serializer for two messages, one of which is too large to be sent. -/
def twoSizes : Serializer Bool where
  toString envelope := match envelope.event with
    | .serverMessage true => .ok (replicate (segmentMaxBytes + 1) 'x')
    | _ => .ok []
  messageToVec
    | true => .ok (replicate (reassembledMaxBytes + 1) 0)
    | false => .ok []
  responseSerializationError _ _ := none
  base64 _ := []

/-- A message for a stream. -/
def queuedMessage (message : Bool) : QueuedServerEnvelope Bool := ⟨.serverMessage message, ['c'], ['s']⟩

theorem split_large (seqId : Nat) :
    splitServerEnvelopeForTransport twoSizes ⟨.serverMessage true, ['c'], ['s'], seqId⟩ = .ok [] := by
  have hbyteLen : ∀ n, Utf8.byteLen (replicate n 'x') = n := by
    intro n
    induction n with
    | zero => rfl
    | succ n ih =>
      rw [replicate_succ, Utf8.byteLen_cons, ih, show 'x'.utf8Size = 1 from rfl, add_comm]
  refine @split_oversized Bool twoSizes ⟨.serverMessage true, ['c'], ['s'], seqId⟩ true
    (replicate (segmentMaxBytes + 1) 'x') (replicate (reassembledMaxBytes + 1) 0) rfl rfl ?_ rfl ?_
  · rw [hbyteLen]
    exact Nat.lt_succ_self _
  · rw [length_replicate]
    exact Nat.lt_succ_self _

theorem split_small (seqId : Nat) :
    splitServerEnvelopeForTransport twoSizes ⟨.serverMessage false, ['c'], ['s'], seqId⟩ =
      .ok [⟨.serverMessage false, ['c'], ['s'], seqId⟩] := rfl

omit [DecidableEq μ] in
theorem step_message (hwriter : s.writer = some []) (hused : s.used < channelCapacity) :
    step serializer s (.message queued) = some (s.accept serializer queued) := by
  simp only [step, hwriter, if_pos hused]

/-- A message that is too large to be sent takes an id all the same: the first id that is written on the
stream is then two. -/
theorem oversized_leaves_gap :
    ∃ s, run (step twoSizes) initial [.reconnect [], .message (queuedMessage true),
        .message (queuedMessage false), .write] = some s ∧
      (s.wireOn (['c'], ['s'])).map (·.seqId) = [2] ∧ ¬ Sequenced twoSizes s := by
  obtain ⟨connected, hconnect, hwriter, hused, hwire, hnext⟩ :
      ∃ connected, step twoSizes initial (.reconnect []) = some connected ∧ connected.writer = some [] ∧
        connected.used = 0 ∧ connected.wire = [] ∧ connected.nextOf (['c'], ['s']) = 1 :=
    ⟨_, rfl, rfl, rfl, rfl, rfl⟩
  -- the message gets the id one and no envelope
  have hlarge : splitServerEnvelopeForTransport twoSizes (connected.envelopeFor (queuedMessage true)) =
      .ok [] := split_large _
  have hparts : parts twoSizes (connected.envelopeFor (queuedMessage true)) = [] := by
    rw [parts, hlarge]
    rfl
  obtain ⟨dropped, hdropped, htaken⟩ : ∃ dropped, connected.accept twoSizes (queuedMessage true) = dropped ∧
      Taken twoSizes connected dropped (connected.envelopeFor (queuedMessage true)) :=
    ⟨_, rfl, taken_accept hlarge⟩
  have hwriter' : dropped.writer = some [] := by rw [htaken.writer, hparts]
  have hused' : dropped.used = 0 := by rw [htaken.used, hparts, hused, length_nil]
  have hnext' : dropped.nextOf (['c'], ['s']) = 2 := by
    rw [htaken.next, if_pos (show (['c'], ['s']) = (connected.envelopeFor (queuedMessage true)).key from rfl),
      show (connected.envelopeFor (queuedMessage true)).seqId = 1 from hnext]
    decide
  -- so the next one gets the id two
  have henvelope : dropped.envelopeFor (queuedMessage false) = ⟨.serverMessage false, ['c'], ['s'], 2⟩ := by
    rw [← hnext']
    rfl
  have hsmall := split_small (dropped.nextOf (['c'], ['s']))
  have hparts' : parts twoSizes (dropped.envelopeFor (queuedMessage false)) =
      [⟨.serverMessage false, ['c'], ['s'], 2⟩] := by
    rw [henvelope]
    rfl
  obtain ⟨taken, htakenEq, htaken'⟩ : ∃ taken, dropped.accept twoSizes (queuedMessage false) = taken ∧
      Taken twoSizes dropped taken (dropped.envelopeFor (queuedMessage false)) :=
    ⟨_, rfl, taken_accept hsmall⟩
  obtain ⟨written, hwrite, hwritten⟩ : ∃ written, step twoSizes taken .write = some written ∧
      written.wire = taken.wire ++ [⟨.serverMessage false, ['c'], ['s'], 2⟩] := by
    simp only [step, htaken'.writer, hparts']
    exact ⟨_, rfl, rfl⟩
  have hfirst : step twoSizes connected (.message (queuedMessage true)) = some dropped := by
    rw [step_message hwriter (by rw [hused]; decide), hdropped]
  have hsecond : step twoSizes dropped (.message (queuedMessage false)) = some taken := by
    rw [step_message hwriter' (by rw [hused']; decide), htakenEq]
  have hids : (written.wireOn (['c'], ['s'])).map (·.seqId) = [2] := by
    rw [wireOn, hwritten, htaken'.wire, htaken.wire, hwire]
    rfl
  refine ⟨written, ?_, hids, fun hsequenced => ?_⟩
  · rw [run_cons, hconnect, Option.bind_some, run_cons, hfirst, Option.bind_some, run_cons, hsecond,
      Option.bind_some, run_cons, hwrite, Option.bind_some, run_nil]
  · obtain ⟨n, hn⟩ := hsequenced.wireIds (['c'], ['s'])
    rw [hids] at hn
    have hone : (2 : Nat) ∈ range' 1 n → (1 : Nat) ∈ range' 1 n := by
      rw [mem_range'_1, mem_range'_1]
      omega
    rw [← hn] at hone
    exact absurd (hone (by decide)) (by decide)

/-- A serializer for messages that fit. -/
def oneSize : Serializer Bool := ⟨fun _ => .ok [], fun _ => .ok [], fun _ _ => none, fun _ => []⟩

/-- A stream whose first message is written, lost on the way, written again and acknowledged. -/
theorem outbound_sequenced_resent :
    ∃ s, run (step oneSize) initial [.reconnect [], .message (queuedMessage false), .write, .disconnect,
        .reconnect [(['c'], ['s'])], .write, .ack ⟨(['c'], ['s']), 1, none⟩] = some s ∧
      s.wire.length = 2 ∧ Sequenced oneSize s := by
  refine ⟨?s, ?run, ?wire, (outbound_sequenced Bool oneSize _ _ ?run ?_).1⟩
  case run => rfl
  case wire => rfl
  refine ⟨trivial, fun connected h => ?_⟩
  cases h
  refine ⟨.inr ⟨by decide +kernel, by decide +kernel⟩, fun taken h => ?_⟩
  cases h
  refine ⟨trivial, fun written h => ?_⟩
  cases h
  refine ⟨trivial, fun lost h => ?_⟩
  cases h
  refine ⟨trivial, fun again h => ?_⟩
  cases h
  refine ⟨trivial, fun rewritten h => ?_⟩
  cases h
  exact ⟨⟨by decide +kernel, by decide +kernel⟩, fun _ _ => trivial⟩

end Outbound

end NovumAgent.RemoteControl
