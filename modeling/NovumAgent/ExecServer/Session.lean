import NovumAgent.ExecServer.ServerProcess
import NovumAgent.Lib.Outcome
import NovumAgent.Lib.Table

/-!
# The client's side of a process

The client sees the events of a process in any order and publishes them in the order of their numbers. What
is ahead of its turn waits in a bounded buffer; when the missing event comes, everything that is ready is
published.

`Follows` says how the session of a client stands to the events of the process: what it published are the
first of them, and what waits are later ones. Insertions and `publish_ready` are described by one relation,
`Has`: the numbers that were published or are waiting.
-/

namespace NovumAgent.ExecServer

open List Table

def maxPendingProcessEvents : Nat := 256

def maxPendingProcessEventBytes : Nat := 1024 * 1024

def pendingProcessEventBytes : ExecProcessEvent → Nat
  | .output chunk => chunk.chunk.length
  | .failed message => (Utf8.encode message).length
  | .exited _ _ _ | .closed _ => 0

/-- The ordered events of a `SessionState`, with what it has published. -/
structure SessionState where
  lastPublishedSeq : Nat
  pending : Table Nat ExecProcessEvent
  pendingBytes : Nat
  exitPublished : Bool
  closedPublished : Bool
  failure : Option Text
  published : List ExecProcessEvent

namespace SessionState

def new : SessionState := ⟨0, ∅, 0, false, false, none, []⟩

def insertPending (session : SessionState) (event : ExecProcessEvent) : Except Text SessionState :=
  match event.seq with
  | none => throw "cannot reorder an unsequenced process event".toList
  | some seq =>
    if (session.pending.lookup seq).isSome then pure session
    else
      let closesGap := seq = session.lastPublishedSeq + 1
      let pendingBytes := session.pendingBytes + pendingProcessEventBytes event
      if ¬ closesGap ∧ maxPendingProcessEvents ≤ session.pending.size then
        throw ("process event reorder buffer exceeds ".toList ++
          (toString maxPendingProcessEvents).toList ++ " entries".toList)
      else if maxPendingProcessEventBytes < pendingProcessEventBytes event then
        throw ("process event exceeds ".toList ++
          (toString maxPendingProcessEventBytes).toList ++ " bytes".toList)
      else if ¬ closesGap ∧ maxPendingProcessEventBytes < pendingBytes then
        throw ("process event reorder buffer exceeds ".toList ++
          (toString maxPendingProcessEventBytes).toList ++ " bytes".toList)
      else
        pure { session with pending := session.pending.insert seq event, pendingBytes := pendingBytes }

/-- One turn of `publish_ready`: the next event is published. -/
def publishNext (session : SessionState) (event : ExecProcessEvent) : SessionState :=
  { session with
    pending := session.pending.erase (session.lastPublishedSeq + 1)
    pendingBytes := session.pendingBytes - pendingProcessEventBytes event
    lastPublishedSeq := session.lastPublishedSeq + 1
    exitPublished := session.exitPublished || event.isExited
    closedPublished := session.closedPublished || event.isClosed
    published := session.published ++ [event] }

/-- The loop of `publish_ready`. -/
def publishLoop : Nat → SessionState → SessionState × Bool
  | 0, session => (session, false)
  | turns + 1, session =>
    match session.pending.lookup (session.lastPublishedSeq + 1) with
    | none => (session, false)
    | some event =>
      let (session, publishedClosed) := publishLoop turns (session.publishNext event)
      (session, event.isClosed || publishedClosed)

/-- `publish_ready`: every turn takes one event out of the buffer. -/
def publishReady (session : SessionState) : SessionState × Bool :=
  publishLoop session.pending.size session

def publishOrderedEvent (session : SessionState) (event : ExecProcessEvent) :
    Except Text (SessionState × Bool) :=
  match event.seq with
  | none => pure ({ session with published := session.published ++ [event] }, false)
  | some seq =>
    if session.failure.isSome ∨ session.closedPublished ∨ seq ≤ session.lastPublishedSeq then
      pure (session, false)
    else do
      let session ← session.insertPending event
      pure session.publishReady

def setFailure (session : SessionState) (message : Text) : SessionState :=
  if session.failure.isSome ∨ session.closedPublished then session
  else
    { session with
      failure := some message
      pending := ∅
      pendingBytes := 0
      published := session.published ++ [.failed message] }

/-! ## What was published and what waits -/

/-- A number that was published or that waits. -/
def Has (session : SessionState) (seq : Nat) : Prop :=
  seq ≤ session.lastPublishedSeq ∨ (session.pending.lookup seq).isSome = true

instance (session : SessionState) (seq : Nat) : Decidable (session.Has seq) :=
  inferInstanceAs (Decidable (_ ∨ _))

/-- The next event does not wait. -/
def Drained (session : SessionState) : Prop :=
  session.pending.lookup (session.lastPublishedSeq + 1) = none

/-- A session of a process with these events. -/
structure Follows (session : SessionState) (events : List ExecProcessEvent) : Prop where
  bound : session.lastPublishedSeq ≤ events.length
  published : session.published = events.take session.lastPublishedSeq
  waiting : ∀ seq event, session.pending.lookup seq = some event →
    session.lastPublishedSeq < seq ∧ event.seq = some seq ∧ event ∈ events
  bytes : session.pendingBytes = session.pending.sumBy pendingProcessEventBytes
  exited : session.exitPublished =
    (events.take session.lastPublishedSeq).any ExecProcessEvent.isExited
  closed : session.closedPublished =
    (events.take session.lastPublishedSeq).any ExecProcessEvent.isClosed

section

variable {session next : SessionState} {event : ExecProcessEvent} {seq : Nat}
  {events : List ExecProcessEvent}

theorem follows_new (events : List ExecProcessEvent) : Follows new events :=
  ⟨Nat.zero_le _, rfl, nofun, rfl, rfl, rfl⟩

theorem insertPending_eq_ok (hseq : event.seq = some seq)
    (h : session.insertPending event = .ok next) :
    ((session.pending.lookup seq).isSome = true ∧ next = session) ∨
      (session.pending.lookup seq = none ∧
        next = { session with
          pending := session.pending.insert seq event
          pendingBytes := session.pendingBytes + pendingProcessEventBytes event }) := by
  unfold insertPending at h
  rw [hseq] at h
  dsimp only at h
  split at h
  next hwaits =>
    cases h
    exact .inl ⟨hwaits, rfl⟩
  next hnew =>
    split at h
    · cases h
    · split at h
      · cases h
      · split at h
        · cases h
        · cases h
          exact .inr ⟨by simpa using hnew, rfl⟩

theorem insertPending_next (hseq : event.seq = some (session.lastPublishedSeq + 1))
    (hbytes : pendingProcessEventBytes event ≤ maxPendingProcessEventBytes) :
    ∃ next, session.insertPending event = .ok next := by
  unfold insertPending
  rw [hseq]
  dsimp only
  split
  · exact ⟨_, rfl⟩
  · rw [if_neg (fun h => h.1 rfl), if_neg (not_lt.mpr hbytes), if_neg (fun h => h.1 rfl)]
    exact ⟨_, rfl⟩

theorem insertPending_empty (hseq : event.seq = some seq) (hempty : session.pending = ∅)
    (hzero : session.pendingBytes = 0)
    (hbytes : pendingProcessEventBytes event ≤ maxPendingProcessEventBytes) :
    ∃ next, session.insertPending event = .ok next := by
  unfold insertPending
  rw [hseq, hempty, hzero, zero_add]
  dsimp only
  split
  · exact ⟨_, rfl⟩
  · rw [if_neg (fun h => absurd h.2 (by decide)), if_neg (not_lt.mpr hbytes),
      if_neg (fun h => not_lt.mpr hbytes h.2)]
    exact ⟨_, rfl⟩

theorem insertPending_last (hseq : event.seq = some seq)
    (h : session.insertPending event = .ok next) :
    next.lastPublishedSeq = session.lastPublishedSeq := by
  obtain ⟨-, rfl⟩ | ⟨-, rfl⟩ := insertPending_eq_ok hseq h <;> rfl

theorem insertPending_has (hseq : event.seq = some seq) (h : session.insertPending event = .ok next)
    (k : Nat) : next.Has k ↔ session.Has k ∨ k = seq := by
  obtain ⟨hwaits, rfl⟩ | ⟨-, rfl⟩ := insertPending_eq_ok hseq h
  · refine ⟨.inl, fun hhas => hhas.elim id fun heq => ?_⟩
    rw [heq]
    exact .inr hwaits
  · show _ ∨ ((session.pending.insert seq event).lookup k).isSome = true ↔ _
    rw [lookup_insert_eq]
    unfold Has
    by_cases hk : k = seq
    · simp [hk]
    · simp [hk]

theorem Follows.insertPending (hfollows : Follows session events) (hseq : event.seq = some seq)
    (hmem : event ∈ events) (hlate : session.lastPublishedSeq < seq)
    (h : session.insertPending event = .ok next) : Follows next events := by
  obtain ⟨-, rfl⟩ | ⟨hnew, rfl⟩ := insertPending_eq_ok hseq h
  · exact hfollows
  · refine { hfollows with
      waiting := forall_insert hfollows.waiting ⟨hlate, hseq, hmem⟩, bytes := ?_ }
    · show session.pendingBytes + _ = sumBy _ (session.pending.insert seq event)
      rw [sumBy_insert_of_notMem (notMem_of_lookup_none hnew), hfollows.bytes, add_comm]

theorem publishNext_has (hnext : session.pending.lookup (session.lastPublishedSeq + 1) = some event)
    (k : Nat) : (session.publishNext event).Has k ↔ session.Has k := by
  show k ≤ _ + 1 ∨ ((session.pending.erase _).lookup k).isSome = true ↔ _
  rw [lookup_erase_eq]
  unfold Has
  by_cases hk : k = session.lastPublishedSeq + 1
  · subst hk
    exact iff_of_true (.inl (le_refl _)) (.inr (Option.isSome_iff_exists.mpr ⟨_, hnext⟩))
  · rw [if_neg hk]
    have hle : k ≤ session.lastPublishedSeq + 1 ↔ k ≤ session.lastPublishedSeq := by omega
    rw [hle]

theorem Follows.publishNext (h : Follows session events) (hnumbered : Numbered events)
    (hnext : session.pending.lookup (session.lastPublishedSeq + 1) = some event) :
    Follows (session.publishNext event) events := by
  obtain ⟨-, hseq, hmem⟩ := h.waiting _ _ hnext
  obtain ⟨-, hthere⟩ := hnumbered.getElem? hmem hseq
  rw [Nat.add_sub_cancel] at hthere
  have htake : events.take (session.lastPublishedSeq + 1) =
      events.take session.lastPublishedSeq ++ [event] := by
    rw [take_add_one, hthere, Option.toList_some]
  refine ⟨(List.getElem?_eq_some_iff.mp hthere).1, ?_, ?_, ?_, ?_, ?_⟩
  · show session.published ++ [event] = events.take (session.lastPublishedSeq + 1)
    rw [htake, h.published]
  · intro k other hlookup
    have hlookup : (session.pending.erase (session.lastPublishedSeq + 1)).lookup k = some other :=
      hlookup
    rw [lookup_erase_eq] at hlookup
    split at hlookup
    next => cases hlookup
    next hk =>
      obtain ⟨hlate, hrest⟩ := h.waiting k other hlookup
      refine ⟨?_, hrest⟩
      show session.lastPublishedSeq + 1 < k
      omega
  · show session.pendingBytes - _ = sumBy _ (session.pending.erase _)
    have hsum := sumBy_erase (f := pendingProcessEventBytes) hnext
    rw [h.bytes]
    omega
  · show (session.exitPublished || event.isExited) = (events.take (session.lastPublishedSeq + 1)).any _
    rw [htake, any_append, h.exited, any_cons, any_nil, Bool.or_false]
  · show (session.closedPublished || event.isClosed) =
      (events.take (session.lastPublishedSeq + 1)).any _
    rw [htake, any_append, h.closed, any_cons, any_nil, Bool.or_false]

theorem publishLoop_spec (events : List ExecProcessEvent) (turns : Nat) (session : SessionState) :
    (∀ k, (publishLoop turns session).1.Has k ↔ session.Has k) ∧
      (publishLoop turns session).1.failure = session.failure ∧
      session.lastPublishedSeq ≤ (publishLoop turns session).1.lastPublishedSeq ∧
      (Numbered events → Follows session events → Follows (publishLoop turns session).1 events) := by
  induction turns generalizing session with
  | zero => exact ⟨fun _ => Iff.rfl, rfl, le_refl _, fun _ => id⟩
  | succ turns ih =>
    unfold publishLoop
    split
    next => exact ⟨fun _ => Iff.rfl, rfl, le_refl _, fun _ => id⟩
    next event hnext =>
      obtain ⟨hhas, hfailure, hlast, hfollows⟩ := ih (session.publishNext event)
      refine ⟨fun k => (hhas k).trans (publishNext_has hnext k), hfailure, ?_, ?_⟩
      · exact le_trans (Nat.le_succ _) hlast
      · exact fun hnumbered h => hfollows hnumbered (h.publishNext hnumbered hnext)

theorem publishLoop_drained {turns : Nat} (h : session.pending.size ≤ turns) :
    (publishLoop turns session).1.Drained := by
  induction turns generalizing session with
  | zero =>
    have hempty : session.pending.entries = [] := length_eq_zero_iff.mp (Nat.le_zero.mp h)
    have hnone : session.pending = ∅ := AList.ext hempty
    show session.pending.lookup _ = none
    rw [hnone]
    rfl
  | succ turns ih =>
    unfold publishLoop
    split
    next hnone => exact hnone
    next event hnext =>
      refine ih ?_
      have hsize := size_erase hnext
      show size (session.pending.erase _) ≤ turns
      omega

theorem publishReady_has (session : SessionState) (k : Nat) :
    session.publishReady.1.Has k ↔ session.Has k :=
  (publishLoop_spec [] _ session).1 k

theorem publishReady_drained (session : SessionState) : session.publishReady.1.Drained :=
  publishLoop_drained (le_refl _)

theorem Follows.publishReady (h : Follows session events) (hnumbered : Numbered events) :
    Follows session.publishReady.1 events :=
  (publishLoop_spec _ _ session).2.2.2 hnumbered h

theorem Follows.published_all (h : Follows session events) (hdrained : session.Drained)
    (hall : ∀ k ≤ events.length, session.Has k) :
    session.published = events ∧ session.lastPublishedSeq = events.length := by
  have hlast : session.lastPublishedSeq = events.length := by
    by_contra hne
    have hbound := h.bound
    obtain hle | hwaits := hall (session.lastPublishedSeq + 1) (by omega)
    · omega
    · unfold Drained at hdrained
      rw [hdrained] at hwaits
      cases hwaits
  refine ⟨?_, hlast⟩
  rw [h.published, hlast, take_length]

theorem Follows.concat (h : Follows session events) (event : ExecProcessEvent) :
    Follows session (events ++ [event]) := by
  have htake : (events ++ [event]).take session.lastPublishedSeq =
      events.take session.lastPublishedSeq := take_append_of_le_length h.bound
  refine ⟨?_, htake ▸ h.published, fun seq other hlookup => ?_, h.bytes, htake ▸ h.exited,
    htake ▸ h.closed⟩
  · rw [length_append]
    exact Nat.le_add_right_of_le h.bound
  · obtain ⟨hlate, hseq, hmem⟩ := h.waiting seq other hlookup
    exact ⟨hlate, hseq, mem_append_left _ hmem⟩

end

end SessionState

end NovumAgent.ExecServer
