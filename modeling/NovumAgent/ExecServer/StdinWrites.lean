import Mathlib.Data.Finset.Card
import Mathlib.Data.Finset.Dedup
import NovumAgent.Lib.Run
import NovumAgent.Lib.Slots
import NovumAgent.Lib.Utf8

/-!
# Writes to a child's standard input

A client that reconnects repeats the `process/write` it has no answer to, under the write id it had. The
server remembers the ids it has accepted, the last 4096 of them, and answers a write whose id it
remembers without sending anything.

A call waits in four places: for the process map, for the id store, for a free slot of the stdin channel, and
for the id store again. Between any two of them other calls run, and the call itself may be cancelled.
What it does behind the last wait, it does in one piece: look the id up, send, remember. The machine below
has one event for each piece, and any number of calls.

`stdin_written_at_most_once` is the guarantee. The one fact that carries it is that the store holds the last
4096 ids sent, in order (`Consistent.order_eq`).
-/

namespace NovumAgent.ExecServer

open List

/-! ## The ids that were accepted -/

@[irreducible]
def retainedStdinWriteIdsPerProcess : Nat := 4096

structure AcceptedStdinWriteIds where
  ids : Finset Text
  order : List Text
deriving DecidableEq

namespace AcceptedStdinWriteIds

/-- `AcceptedStdinWriteIds::default`. -/
def empty : AcceptedStdinWriteIds := ⟨∅, []⟩

/-- The loop of `remember`: drop the oldest ids while there are too many. -/
def evict (ids : Finset Text) : List Text → AcceptedStdinWriteIds
  | [] => ⟨ids, []⟩
  | evicted :: order =>
    if retainedStdinWriteIdsPerProcess < (evicted :: order).length then
      evict (ids.erase evicted) order
    else ⟨ids, evicted :: order⟩

def remember (accepted : AcceptedStdinWriteIds) (writeId : Text) : AcceptedStdinWriteIds :=
  if writeId ∈ accepted.ids then accepted
  else evict (insert writeId accepted.ids) (accepted.order ++ [writeId])

end AcceptedStdinWriteIds

/-! ## The calls -/

inductive WriteStatus where
  | accepted
  | unknownProcess
  | stdinClosed
  | starting
deriving DecidableEq

/-- What a call waits for, or how it ended. Behind the first wait a call has a sender of the channel; it is
a dead one if the session's own was taken away. -/
inductive Phase where
  | looking
  | checking (sender : Bool)
  | reserving (sender : Bool)
  | committing
  | returned (response : Except Text WriteStatus)
  | cancelled
deriving DecidableEq

/-- A call of `exec_write`. -/
structure Call where
  writeId : Text
  chunk : Bytes
  phase : Phase
deriving DecidableEq

/-- What a call asks for. -/
def Call.request (call : Call) : Text × Bytes := (call.writeId, call.chunk)

/-- `ProcessEntry`, with the state after its removal. -/
inductive Entry where
  | starting
  | running
  | removed
deriving DecidableEq

/-- One process: its entry in the map, its session and the channel to its stdin, the ids it accepted, all
that was sent on the channel, and the calls. -/
structure Process where
  tty : Bool
  pipeStdin : Bool
  capacity : Nat
  entry : Entry
  writer : Bool
  receiver : Bool
  queued : Nat
  accepted : AcceptedStdinWriteIds
  sent : List (Text × Bytes)
  calls : List Call
deriving DecidableEq

/-- What can happen next. -/
inductive Event where
  | call (writeId : Text) (chunk : Bytes)
  | resume (index : Nat)
  | cancel (index : Nat)
  | deliver
  | closeStdin
  | closeChannel
  | started
  | removed

namespace Process

/-- A process that was just asked for. -/
def start (tty pipeStdin : Bool) (capacity : Nat) : Process :=
  ⟨tty, pipeStdin, capacity, .starting, true, true, 0, .empty, [], []⟩

/-- The slots of the channel that are taken: queued chunks and permits. -/
def taken (process : Process) : Nat :=
  process.queued + process.calls.countP (·.phase = .committing)

/-- A call moves on. -/
def enter (process : Process) (index : Nat) (call : Call) (phase : Phase) : Process :=
  { process with calls := process.calls.set index { call with phase := phase } }

/-- `permit.send` and `remember`, with no wait between them. -/
def commit (process : Process) (index : Nat) (call : Call) : Process :=
  { process.enter index call (.returned (.ok .accepted)) with
    queued := process.queued + 1
    accepted := process.accepted.remember call.writeId
    sent := process.sent ++ [(call.writeId, call.chunk)] }

/-- The piece of `exec_write` behind each of its waits. -/
def resume (process : Process) (index : Nat) (call : Call) : Option Process :=
  match call.phase with
  | .looking =>
    match process.entry with
    | .removed => some (process.enter index call (.returned (.ok .unknownProcess)))
    | .starting => some (process.enter index call (.returned (.ok .starting)))
    | .running =>
      if !process.tty && !process.pipeStdin then
        some (process.enter index call (.returned (.ok .stdinClosed)))
      else some (process.enter index call (.checking process.writer))
  | .checking sender =>
    if call.writeId ∈ process.accepted.ids then
      some (process.enter index call (.returned (.ok .accepted)))
    else some (process.enter index call (.reserving sender))
  | .reserving sender =>
    if !sender || !process.receiver then
      some (process.enter index call (.returned (.error "failed to write to process stdin".toList)))
    else if process.taken < process.capacity then some (process.enter index call .committing)
    else none
  | .committing =>
    if call.writeId ∈ process.accepted.ids then
      some (process.enter index call (.returned (.ok .accepted)))
    else some (process.commit index call)
  | .returned _ => none
  | .cancelled => none

/-- One step. A call can be cancelled wherever it waits. -/
def step (process : Process) : Event → Option Process
  | .call writeId chunk =>
    let phase : Phase :=
      if writeId = [] then .returned (.error "writeId must not be empty".toList) else .looking
    some { process with calls := process.calls ++ [⟨writeId, chunk, phase⟩] }
  | .resume index =>
    match process.calls[index]? with
    | some call => process.resume index call
    | none => none
  | .cancel index =>
    match process.calls[index]? with
    | some call =>
      match call.phase with
      | .returned _ | .cancelled => none
      | _ => some (process.enter index call .cancelled)
    | none => none
  | .deliver =>
    if 0 < process.queued then some { process with queued := process.queued - 1 } else none
  | .closeStdin => some { process with writer := false }
  | .closeChannel => some { process with receiver := false }
  | .started => if process.entry = .starting then some { process with entry := .running } else none
  | .removed => some { process with entry := .removed }

/-- The ids under which chunks were sent, in order. -/
def sentIds (process : Process) : List Text := process.sent.map Prod.fst

end Process

/-- How many other ids were accepted since the id was. -/
def othersSince (writeId : Text) (ids : List Text) : Nat :=
  (ids.reverse.takeWhile (· ≠ writeId)).toFinset.card

/-- A call that is about to use the id does so while fewer than 4096 others were accepted since the id
was. -/
def FewOthersSince (writeId : Text) (process : Process) : Event → Prop
  | .resume index =>
    ∀ call ∈ process.calls[index]?, call.phase = .committing → call.writeId = writeId →
      writeId ∈ process.sentIds → othersSince writeId process.sentIds < 4096
  | _ => True

instance (writeId : Text) (process : Process) :
    ∀ event, Decidable (FewOthersSince writeId process event)
  | .resume index =>
    inferInstanceAs (Decidable (∀ call ∈ process.calls[index]?, call.phase = .committing →
      call.writeId = writeId → writeId ∈ process.sentIds →
        othersSince writeId process.sentIds < 4096))
  | .call _ _ | .cancel _ | .deliver | .closeStdin | .closeChannel | .started | .removed =>
    isTrue trivial

/-! ## The store -/

namespace AcceptedStdinWriteIds

theorem evict_eq {order : List Text} (h : order.Nodup) : evict order.toFinset order =
      ⟨(order.drop (order.length - retainedStdinWriteIdsPerProcess)).toFinset,
        order.drop (order.length - retainedStdinWriteIdsPerProcess)⟩ := by
  induction order with
  | nil =>
    rw [drop_nil]
    rfl
  | cons evicted order ih =>
    obtain ⟨hfresh, hrest⟩ := nodup_cons.mp h
    unfold evict
    split
    next hmany =>
      have herase : (evicted :: order).toFinset.erase evicted = order.toFinset := by
        rw [toFinset_cons, Finset.erase_insert (mt mem_toFinset.mp hfresh)]
      have hdrop : (evicted :: order).length - retainedStdinWriteIdsPerProcess =
          order.length - retainedStdinWriteIdsPerProcess + 1 := by
        rw [length_cons] at hmany ⊢
        omega
      rw [herase, ih hrest, hdrop, drop_succ_cons]
    next hfew =>
      have hdrop : (evicted :: order).length - retainedStdinWriteIdsPerProcess = 0 := by omega
      rw [hdrop, drop_zero]

end AcceptedStdinWriteIds

/-! ## Steps -/

namespace Process

variable {process next : Process} {event : Event} {index : Nat} {call : Call} {phase : Phase}

theorem enter_requests (h : process.calls[index]? = some call) :
    (process.enter index call phase).calls.map Call.request = process.calls.map Call.request := by
  obtain ⟨hlt, rfl⟩ := List.getElem?_eq_some_iff.mp h
  have hlt' : index < (process.calls.map Call.request).length := by rwa [length_map]
  have hsame : (process.calls.map Call.request)[index] = process.calls[index].request :=
    getElem_map _
  show (process.calls.set index _).map Call.request = _
  rw [map_set]
  exact hsame ▸ set_getElem_self hlt'

/-- What a step does that neither sends nor answers: the requests stay, and no call turns into an accepted
one. -/
structure Quiet (process next : Process) : Prop where
  accepted_eq : next.accepted = process.accepted
  sent_eq : next.sent = process.sent
  requests : process.calls.map Call.request ⊆ next.calls.map Call.request
  silent : ∀ call ∈ next.calls, call.phase = .returned (.ok .accepted) → call ∈ process.calls

theorem quiet_enter (h : process.calls[index]? = some call)
    (hphase : phase ≠ .returned (.ok .accepted)) : Quiet process (process.enter index call phase) where
  accepted_eq := rfl
  sent_eq := rfl
  requests := by
    rw [enter_requests h]
    exact List.Subset.refl _
  silent := Slots.forall_mem_set (fun _ hold _ => hold) (absurd · hphase)

theorem quiet_of_calls_eq (haccepted : next.accepted = process.accepted)
    (hsent : next.sent = process.sent) (hcalls : next.calls = process.calls) : Quiet process next where
  accepted_eq := haccepted
  sent_eq := hsent
  requests := hcalls ▸ List.Subset.refl _
  silent := fun _ hcall _ => hcalls ▸ hcall

theorem resume_cases (hcall : process.calls[index]? = some call)
    (h : process.resume index call = some next) :
    Quiet process next ∨ (call.writeId ∈ process.accepted.ids ∧
        next = process.enter index call (.returned (.ok .accepted))) ∨
      (call.phase = .committing ∧ call.writeId ∉ process.accepted.ids ∧
        next = process.commit index call) := by
  unfold resume at h
  split at h
  next =>
    refine .inl ?_
    split at h
    · cases h
      exact quiet_enter hcall nofun
    · cases h
      exact quiet_enter hcall nofun
    · split at h
      · cases h
        exact quiet_enter hcall nofun
      · cases h
        exact quiet_enter hcall nofun
  next =>
    split at h
    next hknown =>
      cases h
      exact .inr (.inl ⟨hknown, rfl⟩)
    next =>
      cases h
      exact .inl (quiet_enter hcall nofun)
  next =>
    refine .inl ?_
    split at h
    · cases h
      exact quiet_enter hcall nofun
    · split at h
      · cases h
        exact quiet_enter hcall nofun
      · cases h
  next hphase =>
    split at h
    next hknown =>
      cases h
      exact .inr (.inl ⟨hknown, rfl⟩)
    next hunknown =>
      cases h
      exact .inr (.inr ⟨hphase, hunknown, rfl⟩)
  next => cases h
  next => cases h

/-- **What a step can do**: neither send nor answer, answer a call whose id is remembered, or send the
chunk of a call whose id is not. -/
theorem step_cases (h : process.step event = some next) : Quiet process next ∨
      ∃ index call, event = .resume index ∧ process.calls[index]? = some call ∧
        ((call.writeId ∈ process.accepted.ids ∧
            next = process.enter index call (.returned (.ok .accepted))) ∨
          (call.phase = .committing ∧ call.writeId ∉ process.accepted.ids ∧
            next = process.commit index call)) := by
  cases event with
  | call writeId chunk =>
    cases h
    refine .inl ⟨rfl, rfl, ?_, ?_⟩
    · show _ ⊆ (process.calls ++ [_]).map Call.request
      rw [map_append]
      exact subset_append_left _ _
    · intro other hother haccepted
      obtain hold | hnew := mem_append.mp hother
      · exact hold
      · cases mem_singleton.mp hnew
        dsimp only at haccepted
        split at haccepted <;> cases haccepted
  | resume index =>
    simp only [step] at h
    split at h
    next call hcall =>
      obtain hquiet | hloud := resume_cases hcall h
      · exact .inl hquiet
      · exact .inr ⟨index, call, rfl, hcall, hloud⟩
    next => cases h
  | cancel index =>
    simp only [step] at h
    refine .inl ?_
    split at h
    next call hcall =>
      split at h
      · cases h
      · cases h
      · cases h
        exact quiet_enter hcall nofun
    next => cases h
  | deliver =>
    obtain ⟨-, ⟨⟩⟩ := Option.ite_none_right_eq_some.mp h
    exact .inl (quiet_of_calls_eq rfl rfl rfl)
  | closeStdin | closeChannel | removed =>
    cases h
    exact .inl (quiet_of_calls_eq rfl rfl rfl)
  | started =>
    obtain ⟨-, ⟨⟩⟩ := Option.ite_none_right_eq_some.mp h
    exact .inl (quiet_of_calls_eq rfl rfl rfl)

/-! ## What holds in every state -/

/-- The store holds the last ids sent, a call was answered with success only if its id was sent, and only
requested chunks are sent. -/
structure Consistent (process : Process) : Prop where
  order_eq : process.accepted.order =
    process.sentIds.drop (process.sentIds.length - retainedStdinWriteIdsPerProcess)
  ids_eq : process.accepted.ids = process.accepted.order.toFinset
  nodup : process.accepted.order.Nodup
  answered : ∀ call ∈ process.calls, call.phase = .returned (.ok .accepted) →
    call.writeId ∈ process.sentIds
  requested : ∀ chunk ∈ process.sent, chunk ∈ process.calls.map Call.request

theorem consistent_start (tty pipeStdin : Bool) (capacity : Nat) :
    Consistent (start tty pipeStdin capacity) where
  order_eq := drop_nil.symm
  ids_eq := rfl
  nodup := nodup_nil
  answered := nofun
  requested := nofun

theorem Consistent.mem_sentIds (h : Consistent process) {writeId : Text}
    (hknown : writeId ∈ process.accepted.ids) : writeId ∈ process.sentIds := by
  rw [h.ids_eq, mem_toFinset, h.order_eq] at hknown
  exact mem_of_mem_drop hknown

theorem Consistent.quiet (h : Consistent process) (hquiet : Quiet process next) : Consistent next where
  order_eq := by
    unfold sentIds
    rw [hquiet.accepted_eq, hquiet.sent_eq]
    exact h.order_eq
  ids_eq := by
    rw [hquiet.accepted_eq]
    exact h.ids_eq
  nodup := by
    rw [hquiet.accepted_eq]
    exact h.nodup
  answered := by
    intro call hcall haccepted
    unfold sentIds
    rw [hquiet.sent_eq]
    exact h.answered call (hquiet.silent call hcall haccepted) haccepted
  requested := by
    intro chunk hchunk
    rw [hquiet.sent_eq] at hchunk
    exact hquiet.requests (h.requested chunk hchunk)

theorem Consistent.acknowledge (h : Consistent process) (hcall : process.calls[index]? = some call)
    (hknown : call.writeId ∈ process.accepted.ids) :
    Consistent (process.enter index call (.returned (.ok .accepted))) where
  __ := h
  answered := Slots.forall_mem_set h.answered fun _ => h.mem_sentIds hknown
  requested := by
    intro chunk hchunk
    rw [enter_requests hcall]
    exact h.requested chunk hchunk

theorem Consistent.remember_eq (h : Consistent process) {writeId : Text}
    (hunknown : writeId ∉ process.accepted.ids) :
    process.accepted.remember writeId = ⟨((process.sentIds ++ [writeId]).drop
          (process.sentIds.length + 1 - retainedStdinWriteIdsPerProcess)).toFinset,
        (process.sentIds ++ [writeId]).drop
          (process.sentIds.length + 1 - retainedStdinWriteIdsPerProcess)⟩ ∧
      ((process.sentIds ++ [writeId]).drop
        (process.sentIds.length + 1 - retainedStdinWriteIdsPerProcess)).Nodup := by
  have hfresh : writeId ∉ process.accepted.order := by
    rw [h.ids_eq, mem_toFinset] at hunknown
    exact hunknown
  have hnodup : (process.accepted.order ++ [writeId]).Nodup := by
    rw [← concat_eq_append]
    exact h.nodup.concat hfresh
  have hset : insert writeId process.accepted.ids =
      (process.accepted.order ++ [writeId]).toFinset := by
    rw [h.ids_eq, toFinset_append, toFinset_cons, toFinset_nil, insert_empty_eq,
      Finset.union_comm, ← Finset.insert_eq]
  have hlong : process.accepted.order ++ [writeId] = (process.sentIds ++ [writeId]).drop
      (process.sentIds.length - retainedStdinWriteIdsPerProcess) := by
    rw [h.order_eq, drop_append_of_le_length (Nat.sub_le _ _)]
  have hdrop : (process.accepted.order ++ [writeId]).drop
      ((process.accepted.order ++ [writeId]).length - retainedStdinWriteIdsPerProcess) =
      (process.sentIds ++ [writeId]).drop
        (process.sentIds.length + 1 - retainedStdinWriteIdsPerProcess) := by
    rw [hlong, drop_drop, length_drop, length_append, length_singleton]
    congr 1
    omega
  rw [← hdrop]
  refine ⟨?_, hnodup.sublist (drop_sublist _ _)⟩
  unfold AcceptedStdinWriteIds.remember
  rw [if_neg hunknown, hset, AcceptedStdinWriteIds.evict_eq hnodup]

theorem commit_sentIds : (process.commit index call).sentIds = process.sentIds ++ [call.writeId] :=
  map_append

theorem Consistent.commit (h : Consistent process) (hcall : process.calls[index]? = some call)
    (hunknown : call.writeId ∉ process.accepted.ids) : Consistent (process.commit index call) := by
  obtain ⟨hremember, hnodup⟩ := h.remember_eq hunknown
  have haccepted : (process.commit index call).accepted = process.accepted.remember call.writeId := rfl
  refine ⟨?_, ?_, ?_, ?_, ?_⟩
  · rw [haccepted, hremember, commit_sentIds, length_append]
    rfl
  · rw [haccepted, hremember]
  · rw [haccepted, hremember]
    exact hnodup
  · rw [commit_sentIds]
    exact Slots.forall_mem_set (fun other hold hanswered =>
      mem_append_left _ (h.answered other hold hanswered)) fun _ => mem_append_right _ mem_cons_self
  · intro chunk hchunk
    show chunk ∈ (process.enter index call (.returned (.ok .accepted))).calls.map Call.request
    rw [enter_requests hcall]
    obtain hold | hnew := mem_append.mp hchunk
    · exact h.requested chunk hold
    · cases mem_singleton.mp hnew
      exact mem_map.mpr ⟨call, mem_of_getElem? hcall, rfl⟩

theorem Consistent.step (h : Consistent process) (hstep : process.step event = some next) :
    Consistent next := by
  obtain hquiet | ⟨index, call, -, hcall, ⟨hknown, rfl⟩ | ⟨-, hunknown, rfl⟩⟩ := step_cases hstep
  · exact h.quiet hquiet
  · exact h.acknowledge hcall hknown
  · exact h.commit hcall hunknown

theorem Consistent.many_others (h : Consistent process) {writeId : Text}
    (hsent : writeId ∈ process.sentIds) (hunknown : writeId ∉ process.accepted.ids) :
    retainedStdinWriteIdsPerProcess ≤ othersSince writeId process.sentIds := by
  have hfresh : writeId ∉ process.accepted.order := by
    rw [h.ids_eq, mem_toFinset] at hunknown
    exact hunknown
  have hsplit : process.sentIds =
      process.sentIds.take (process.sentIds.length - retainedStdinWriteIdsPerProcess) ++
        process.accepted.order := by
    rw [h.order_eq, take_append_drop]
  have hlength : retainedStdinWriteIdsPerProcess ≤ process.accepted.order.length := by
    by_contra hshort
    rw [h.order_eq, length_drop] at hshort
    have hall : process.accepted.order = process.sentIds := by
      rw [h.order_eq, show process.sentIds.length - retainedStdinWriteIdsPerProcess = 0 by omega,
        drop_zero]
    exact hfresh (hall ▸ hsent)
  have hothers : process.accepted.order.toFinset ⊆
      (process.sentIds.reverse.takeWhile (· ≠ writeId)).toFinset := by
    intro other hother
    rw [hsplit, reverse_append, takeWhile_append_of_pos]
    · simp only [toFinset_append, toFinset_reverse, Finset.mem_union]
      exact .inl hother
    · intro id hid
      rw [mem_reverse] at hid
      exact decide_eq_true fun heq => hfresh (heq ▸ hid)
  calc retainedStdinWriteIdsPerProcess ≤ process.accepted.order.length := hlength
    _ = process.accepted.order.toFinset.card := (toFinset_card_of_nodup h.nodup).symm
    _ ≤ othersSince writeId process.sentIds := Finset.card_le_card hothers

/-- **One step** sends under an id at most once, if few others were accepted since. -/
theorem count_le_one_step {writeId : Text} (h : Consistent process)
    (honce : process.sentIds.count writeId ≤ 1) (hfew : FewOthersSince writeId process event)
    (hstep : process.step event = some next) : next.sentIds.count writeId ≤ 1 := by
  obtain hquiet | ⟨index, call, rfl, hcall, ⟨-, rfl⟩ | ⟨hphase, hunknown, rfl⟩⟩ := step_cases hstep
  · unfold sentIds
    rw [hquiet.sent_eq]
    exact honce
  · exact honce
  · rw [commit_sentIds, count_append]
    by_cases hid : call.writeId = writeId
    · subst hid
      have hnot : call.writeId ∉ process.sentIds := by
        intro hsent
        have hmany := h.many_others hsent hunknown
        have hless := hfew call hcall hphase rfl hsent
        unfold retainedStdinWriteIdsPerProcess at hmany
        omega
      rw [count_eq_zero_of_not_mem hnot, count_singleton_self]
    · rw [count_cons_of_ne hid, count_nil]
      exact honce

end Process

open Process

/-- **Stdin is written at most once for each write id.** In every run of a process and its calls, however
they interleave and wherever they are cancelled: the set of remembered ids and the eviction queue hold
the same ids. And for each id of which every use finds fewer than 4096 others accepted since the id was:
its bytes were sent at most once, and when a call with it has returned `Accepted` they were sent exactly
once, the call's own bytes if the repeated calls all carry the same. -/
theorem stdin_written_at_most_once (tty pipeStdin : Bool) (capacity : Nat) (events : List Event)
    (final : Process)
    (hrun : Machine.run Process.step (start tty pipeStdin capacity) events = some final) :
    (final.accepted.ids = final.accepted.order.toFinset ∧ final.accepted.order.Nodup ∧
      final.accepted.order.length ≤ 4096) ∧
    ∀ writeId,
      Machine.Along Process.step (FewOthersSince writeId) (start tty pipeStdin capacity) events →
      (final.sent.map Prod.fst).count writeId ≤ 1 ∧
      ∀ call ∈ final.calls, call.writeId = writeId → call.phase = .returned (.ok .accepted) →
        (final.sent.map Prod.fst).count writeId = 1 ∧
        ((∀ other ∈ final.calls, other.writeId = writeId → other.chunk = call.chunk) →
          final.sent.filter (·.1 = writeId) = [(writeId, call.chunk)]) := by
  have hconsistent : Consistent final := Machine.run_invariant
    (fun _ _ _ h hstep => h.step hstep) (consistent_start tty pipeStdin capacity) hrun
  refine ⟨⟨hconsistent.ids_eq, hconsistent.nodup, ?_⟩, fun writeId hfew => ?_⟩
  · rw [hconsistent.order_eq, length_drop]
    unfold retainedStdinWriteIdsPerProcess
    omega
  have honce := @Machine.run_invariant_along _ _ _ _ _ _
    (fun process => Consistent process ∧ process.sentIds.count writeId ≤ 1) _
    (fun _ _ _ h hmeets hstep => ⟨h.1.step hstep, count_le_one_step h.1 h.2 hmeets hstep⟩)
    ⟨consistent_start tty pipeStdin capacity, Nat.zero_le _⟩ hfew hrun
  refine ⟨honce.2, fun call hcall hid haccepted => ?_⟩
  have hsent : writeId ∈ final.sentIds := hid ▸ hconsistent.answered call hcall haccepted
  have hcount : final.sentIds.count writeId = 1 := le_antisymm honce.2 (count_pos_iff.mpr hsent)
  refine ⟨hcount, fun hsame => ?_⟩
  have hlength : (final.sent.filter (·.1 = writeId)).length = 1 := by
    rw [← countP_eq_length_filter, ← hcount, sentIds, count, countP_map]
    exact countP_congr fun chunk _ => by simp
  obtain ⟨chunk, hchunk⟩ := length_eq_one_iff.mp hlength
  have hmem : chunk ∈ final.sent.filter (·.1 = writeId) := hchunk ▸ mem_singleton.mpr rfl
  obtain ⟨hthere, hchunkId⟩ := mem_filter.mp hmem
  obtain ⟨other, hother, rfl⟩ := mem_map.mp (hconsistent.requested chunk hthere)
  have hotherId : other.writeId = writeId := of_decide_eq_true hchunkId
  rw [hchunk, Call.request, hotherId, hsame other hother hotherId]

/-- The repeated write of `stdin_written_once_repeated`: both calls are past their first look at the store
when the second gets to send. -/
def repeatedWrite : List Event :=
  [.started, .call ['1'] [7], .call ['1'] [7], .resume 0, .resume 1, .resume 0, .resume 1,
    .resume 0, .resume 1, .resume 1, .resume 0]

/-- Where it ends. -/
def repeatedWriteEnd : Process :=
  { start true false 2 with
    entry := .running
    queued := 1
    accepted := ⟨{['1']}, [['1']]⟩
    sent := [(['1'], [7])]
    calls := [⟨['1'], [7], .returned (.ok .accepted)⟩, ⟨['1'], [7], .returned (.ok .accepted)⟩] }

/-- A write that is repeated while the first call waits: one chunk is sent. -/
theorem stdin_written_once_repeated :
    Machine.run Process.step (start true false 2) repeatedWrite = some repeatedWriteEnd ∧
      (repeatedWriteEnd.sent.map Prod.fst).count ['1'] = 1 := by
  refine ⟨?run, ?_⟩
  · decide +kernel
  · obtain ⟨-, hwrites⟩ := stdin_written_at_most_once true false 2 _ _ ?run
    obtain ⟨-, hanswered⟩ := hwrites ['1'] (by decide +kernel)
    exact (hanswered _ mem_cons_self rfl rfl).1

end NovumAgent.ExecServer
