import NovumAgent.ExecServer.Session

/-!
# Recovery after a reconnect

When a connection is lost the client reads what it missed from the process. The answer has the chunks that
are kept, the number of the next event, and flags that say whether the process has exited and was closed.
It does not have the events of the exit and of the close: the close is the last event, and where the exit
goes is inferred from the gaps between the chunks.

The inference can be wrong, when chunks were dropped. `Unseen` is why that does no harm: a wrong guess leaves
the number of the true exit open, and a recovery with an open number is an error. `recoverEvents_sound` is the
result: a recovery that succeeds has published every event of the process.
-/

namespace NovumAgent.ExecServer

open List Outcome

/-- `ExecServerError`, as far as a recovery raises it. -/
inductive ExecServerError where
  | protocol (message : Text)

/-- What a recovery returns. An error comes with the session as it was left. -/
abbrev Recovered (α : Type) := Except (ExecServerError × SessionState) α

def recoveryGapError (targetSeq : Nat) : ExecServerError :=
  .protocol ("process events are no longer retained while recovering through sequence ".toList ++
    (toString targetSeq).toList)

namespace SessionState

/-- The numbers in the buffer within bounds, in their order. -/
def pendingRange (session : SessionState) (first last : Nat) : List Nat :=
  (range' first (last + 1 - first)).filter fun seq => (session.pending.lookup seq).isSome

/-- The data of an exit that waits at a number. -/
def exitAt (session : SessionState) (seq : Nat) : Option (Nat × Nat × Int × Option Bool) :=
  match session.pending.lookup seq with
  | some (.exited number exitCode denied) => some (seq, number, exitCode, denied)
  | _ => none

/-- The exit that waits, if one does, gets the verdict of the answer. -/
def confirmExit (session : SessionState) (targetSeq : Nat) (sandboxDenied : Bool) :
    SessionState × Bool :=
  match (session.pendingRange 0 targetSeq).findSome? session.exitAt with
  | some (seq, number, exitCode, denied) =>
    let event := .exited number exitCode (some (denied.getD false || sandboxDenied))
    ({ session with pending := session.pending.insert seq event }, true)
  | none => (session, false)

/-- The loop of `first_missing_seq`. -/
def missingFrom : Nat → List Nat → Nat
  | expected, [] => expected
  | expected, seq :: rest => if seq ≠ expected then expected else missingFrom (expected + 1) rest

def firstMissingSeq (session : SessionState) (targetSeq : Nat) : Nat :=
  missingFrom (session.lastPublishedSeq + 1)
    (session.pendingRange (session.lastPublishedSeq + 1) targetSeq)

/-- How many events up to the target are neither published nor in the buffer. -/
def missingCount (session : SessionState) (targetSeq : Nat) : Nat :=
  let retainedCount :=
    if session.lastPublishedSeq + 1 ≤ targetSeq then
      (session.pendingRange (session.lastPublishedSeq + 1) targetSeq).length
    else 0
  targetSeq - session.lastPublishedSeq - retainedCount

/-- An insertion whose failure is an error of the protocol. -/
def insertRecovered (session : SessionState) (event : ExecProcessEvent) : Recovered SessionState :=
  (session.insertPending event).mapError fun message => (.protocol message, session)

/-- Insert the exit of the answer at a number. -/
def insertExited (session : SessionState) (response : ReadResponse) (seq : Nat) :
    Recovered SessionState :=
  match response.exitCode with
  | none => throw (.protocol "recovering exited process did not include its exit code".toList, session)
  | some exitCode =>
    session.insertRecovered (.exited seq exitCode (some response.sandboxDenied))

/-- The session during a recovery. -/
structure Recovering where
  session : SessionState
  exitKnown : Bool
  publishedClosed : Bool

/-- Publish what is ready. -/
def Recovering.publish (recovering : Recovering) (session : SessionState) (exitKnown : Bool) :
    Recovering :=
  ⟨session.publishReady.1, exitKnown, recovering.publishedClosed || session.publishReady.2⟩

/-- A gap before a chunk is taken for the exit, if the process has exited and the exit is not known. -/
def inferExit (response : ReadResponse) (recovering : Recovering) (chunk : ProcessOutputChunk) :
    Recovered Recovering :=
  let nextSeq := recovering.session.lastPublishedSeq + 1
  if response.exited ∧ recovering.exitKnown = false ∧ nextSeq < chunk.seq then do
    let session ← recovering.session.insertExited response nextSeq
    pure (recovering.publish session true)
  else pure recovering

/-- The output of a chunk, if it is not published yet. -/
def recoverOutput (recovering : Recovering) (chunk : ProcessOutputChunk) : Recovered Recovering :=
  if recovering.session.lastPublishedSeq < chunk.seq then do
    let session ← recovering.session.insertRecovered (.output chunk)
    pure (recovering.publish session recovering.exitKnown)
  else pure recovering

/-- One chunk of the answer. -/
def recoverChunk (response : ReadResponse) (targetSeq : Nat) (recovering : Recovering)
    (chunk : ProcessOutputChunk) : Recovered Recovering :=
  if targetSeq < chunk.seq then
    throw (.protocol ("recovered process output sequence ".toList ++ (toString chunk.seq).toList ++
      " exceeds target sequence ".toList ++ (toString targetSeq).toList), recovering.session)
  else do
    let recovering ← inferExit response recovering chunk
    recoverOutput recovering chunk

/-- The close of the answer. -/
def insertClosed (session : SessionState) (response : ReadResponse) (targetSeq : Nat) :
    Recovered SessionState :=
  if response.closed ∧ session.closedPublished = false ∧
      (session.pending.lookup targetSeq).any ExecProcessEvent.isClosed = false then
    session.insertRecovered (.closed targetSeq)
  else pure session

/-- The check that nothing is missing, or only the exit, which is inserted. -/
def fillGap (session : SessionState) (response : ReadResponse) (targetSeq : Nat) (exitKnown : Bool) :
    Recovered SessionState :=
  if response.exited ∧ exitKnown = false then
    if session.missingCount targetSeq ≠ 1 then throw (recoveryGapError targetSeq, session)
    else session.insertExited response (session.firstMissingSeq targetSeq)
  else if session.missingCount targetSeq ≠ 0 then throw (recoveryGapError targetSeq, session)
  else pure session

def recoverEvents (session : SessionState) (response : ReadResponse) :
    Recovered (SessionState × Bool) :=
  match response.failure with
  | some message => throw (.protocol ("process failed while recovering: ".toList ++ message), session)
  | none =>
    let targetSeq := response.nextSeq - 1
    if session.failure.isSome ∨ session.closedPublished ∨ targetSeq ≤ session.lastPublishedSeq then
      pure (session, false)
    else
      let (confirmed, exitPending) := session.confirmExit targetSeq response.sandboxDenied
      if response.closed ∧ ((confirmed.pending.lookup targetSeq).any (!·.isClosed) ∨
            response.chunks.any (·.seq = targetSeq)) then
        throw (.protocol ("process close sequence ".toList ++ (toString targetSeq).toList ++
          " conflicts with recovered output".toList), confirmed)
      else do
        let recovering ← response.chunks.foldlM (recoverChunk response targetSeq)
          ⟨confirmed, session.exitPublished || exitPending, false⟩
        let session ← recovering.session.insertClosed response targetSeq
        let session ← session.fillGap response targetSeq recovering.exitKnown
        let (session, publishedClosed) := session.publishReady
        pure (session, recovering.publishedClosed || publishedClosed)

/-- What a recovery does behind its first checks. -/
def recoverRest (response : ReadResponse) (targetSeq : Nat) (recovering : Recovering) :
    Recovered (SessionState × Bool) := do
  let recovering ← response.chunks.foldlM (recoverChunk response targetSeq) recovering
  let session ← recovering.session.insertClosed response targetSeq
  let session ← session.fillGap response targetSeq recovering.exitKnown
  let (session, publishedClosed) := session.publishReady
  pure (session, recovering.publishedClosed || publishedClosed)

/-! ## Missing numbers -/

section

variable {session next : SessionState} {targetSeq : Nat}

theorem missingCount_eq (session : SessionState) (targetSeq : Nat) :
    session.missingCount targetSeq =
      ((range' (session.lastPublishedSeq + 1) (targetSeq - session.lastPublishedSeq)).filter
        fun seq => !(session.pending.lookup seq).isSome).length := by
  have hspan : targetSeq + 1 - (session.lastPublishedSeq + 1) =
      targetSeq - session.lastPublishedSeq := by omega
  have hsplit := length_eq_length_filter_add
    (l := range' (session.lastPublishedSeq + 1) (targetSeq - session.lastPublishedSeq))
    fun seq => (session.pending.lookup seq).isSome
  rw [length_range'] at hsplit
  unfold missingCount pendingRange
  dsimp only
  rw [hspan]
  split <;> omega

theorem has_of_missingCount_zero (h : session.missingCount targetSeq = 0) {k : Nat}
    (hle : k ≤ targetSeq) : session.Has k := by
  by_cases hlast : k ≤ session.lastPublishedSeq
  · exact .inl hlast
  · rw [missingCount_eq, length_eq_zero_iff, filter_eq_nil_iff] at h
    have hmem : k ∈ range' (session.lastPublishedSeq + 1)
        (targetSeq - session.lastPublishedSeq) := mem_range'_1.mpr (by omega)
    exact .inr (by simpa [Option.isSome_iff_ne_none] using h k hmem)

theorem missingCount_zero (h : ∀ k ≤ targetSeq, session.Has k) : session.missingCount targetSeq = 0 := by
  rw [missingCount_eq, length_eq_zero_iff, filter_eq_nil_iff]
  intro k hmem
  obtain ⟨hfirst, hlast⟩ := mem_range'_1.mp hmem
  obtain hle | hwaits := h k (by omega)
  · omega
  · rw [hwaits]
    exact Bool.false_ne_true

variable {seq afterSeq : Nat}

theorem missingCount_one_iff (hmissing : ¬ session.Has seq) (hle : seq ≤ targetSeq) :
    session.missingCount targetSeq = 1 ↔ ∀ k ≤ targetSeq, k ≠ seq → session.Has k := by
  have hlate : session.lastPublishedSeq < seq := not_le.mp fun h => hmissing (.inl h)
  rw [missingCount_eq]
  let gaps := (range' (session.lastPublishedSeq + 1)
    (targetSeq - session.lastPublishedSeq)).filter fun seq => !(session.pending.lookup seq).isSome
  have hmem : ∀ k, k ∈ gaps ↔ k ≤ targetSeq ∧ ¬ session.Has k := by
    intro k
    show k ∈ filter _ _ ↔ _
    rw [mem_filter, mem_range'_1]
    unfold Has
    constructor
    · rintro ⟨hrange, hnone⟩
      refine ⟨by omega, ?_⟩
      rintro (hle | hwaits)
      · omega
      · rw [hwaits] at hnone
        cases hnone
    · rintro ⟨hk, hgap⟩
      push Not at hgap
      exact ⟨by omega, by simpa using hgap.2⟩
  have hnodup : gaps.Nodup := List.Nodup.filter _ (nodup_range' 1)
  have hseq : seq ∈ gaps := (hmem seq).mpr ⟨hle, hmissing⟩
  show gaps.length = 1 ↔ _
  constructor
  · intro hone k hk hne
    by_contra hgap
    obtain ⟨only, hgaps⟩ := length_eq_one_iff.mp hone
    have hk' := (hmem k).mpr ⟨hk, hgap⟩
    rw [hgaps] at hseq hk'
    exact hne ((mem_singleton.mp hk').trans (mem_singleton.mp hseq).symm)
  · intro hall
    have hsub : gaps ⊆ [seq] := by
      intro k hk
      obtain ⟨hle, hgap⟩ := (hmem k).mp hk
      by_contra hne
      exact hgap (hall k hle fun heq => hne (mem_singleton.mpr heq))
    have hbound := (subperm_of_subset hnodup hsub).length_le
    have hpos := length_pos_of_mem hseq
    rw [length_singleton] at hbound
    omega

theorem missingFrom_eq {p : Nat → Bool} (span first : Nat) (hfirst : first ≤ seq)
    (hlast : seq < first + span) (hthere : ∀ k, first ≤ k → k < seq → p k = true)
    (hmissing : p seq = false) : missingFrom first ((range' first span).filter p) = seq := by
  induction span generalizing first with
  | zero => omega
  | succ span ih =>
    rw [range'_succ]
    by_cases hhere : first = seq
    · subst hhere
      rw [filter_cons_of_neg (by rw [hmissing]; exact Bool.false_ne_true)]
      cases hrest : (range' (first + 1) span).filter p with
      | nil => rfl
      | cons other rest =>
        have hmem : other ∈ (range' (first + 1) span).filter p := hrest ▸ mem_cons_self
        have hrange := mem_range'_1.mp (mem_of_mem_filter hmem)
        unfold missingFrom
        rw [if_pos (by omega)]
    · rw [filter_cons_of_pos (hthere first (le_refl _) (by omega))]
      unfold missingFrom
      rw [if_neg (by simp)]
      exact ih (first + 1) (by omega) (by omega) fun k hk hlt => hthere k (by omega) hlt

theorem firstMissingSeq_eq (hmissing : ¬ session.Has seq) (hle : seq ≤ targetSeq)
    (hothers : ∀ k ≤ targetSeq, k ≠ seq → session.Has k) :
    session.firstMissingSeq targetSeq = seq := by
  have hlate : session.lastPublishedSeq < seq := not_le.mp fun h => hmissing (.inl h)
  refine missingFrom_eq _ _ hlate (by omega) (fun k hfirst hlt => ?_) ?_
  · obtain hle | hwaits := hothers k (by omega) (by omega)
    · omega
    · exact hwaits
  · unfold Has at hmissing
    push Not at hmissing
    exact (Bool.not_eq_true _).mp hmissing.2

end

/-! ## The exit -/

/-- The number of the exit is still open. -/
def Unseen (session : SessionState) (events : List ExecProcessEvent) : Prop :=
  ∃ event ∈ events, event.isExited = true ∧ ∃ seq, event.seq = some seq ∧ ¬ session.Has seq

section

variable {session next : SessionState} {process : RunningProcess} {response : ReadResponse}
  {event : ExecProcessEvent} {events : List ExecProcessEvent} {seq targetSeq : Nat}

theorem unseen_publishReady : session.publishReady.1.Unseen events ↔ session.Unseen events := by
  unfold Unseen
  simp only [publishReady_has]

theorem insertRecovered_eq_ok :
    session.insertRecovered event = .ok next ↔ session.insertPending event = .ok next :=
  mapError_eq_ok

theorem Unseen.insertPending (h : session.Unseen events) (hseq : event.seq = some seq)
    (hother : ∀ exit ∈ events, exit.isExited = true → exit.seq ≠ some seq)
    (hinsert : session.insertPending event = .ok next) : next.Unseen events := by
  obtain ⟨exit, hmem, hexit, number, hnumber, hopen⟩ := h
  refine ⟨exit, hmem, hexit, number, hnumber, fun hhas => ?_⟩
  obtain hold | hnew := (insertPending_has hseq hinsert number).mp hhas
  · exact hopen hold
  · exact hother exit hmem hexit (hnew ▸ hnumber)

theorem not_unseen_insertPending (h : ¬ session.Unseen events) (hseq : event.seq = some seq)
    (hinsert : session.insertPending event = .ok next) : ¬ next.Unseen events := by
  rintro ⟨exit, hmem, hexit, number, hnumber, hopen⟩
  refine h ⟨exit, hmem, hexit, number, hnumber, fun hhas => hopen ?_⟩
  exact (insertPending_has hseq hinsert number).mpr (.inl hhas)

theorem exit_seq_ne (htraced : process.Traced) (hmem : event ∈ process.events)
    (hseq : event.seq = some seq) (hother : event.isExited = false) :
    ∀ exit ∈ process.events, exit.isExited = true → exit.seq ≠ some seq := by
  intro exit hexit hexited hsame
  rw [htraced.numbered.eq_of_seq hmem hseq hexit hsame, hexited] at hother
  cases hother

theorem exitAt_eq_some {data : Nat × Nat × Int × Option Bool} :
    session.exitAt seq = some data ↔ ∃ number exitCode denied,
      session.pending.lookup seq = some (.exited number exitCode denied) ∧
        data = (seq, number, exitCode, denied) := by
  unfold exitAt
  constructor
  · intro h
    split at h
    next number exitCode denied hlookup =>
      cases h
      exact ⟨number, exitCode, denied, hlookup, rfl⟩
    next => cases h
  · rintro ⟨number, exitCode, denied, hlookup, rfl⟩
    rw [hlookup]

/-- The verdict of the answer is that of the exit: nothing changes. The flag says whether an exit waits. -/
theorem confirmExit_spec (h : Follows session process.events) (htraced : process.Traced)
    (htarget : process.events.length ≤ targetSeq) :
    ∃ pending, (session.confirmExit targetSeq process.sandboxDenied).1 =
        { session with pending := pending } ∧
      (∀ k, pending.lookup k = session.pending.lookup k) ∧
      pending.sumBy pendingProcessEventBytes = session.pending.sumBy pendingProcessEventBytes ∧
      ((session.confirmExit targetSeq process.sandboxDenied).2 = true ↔
        ∃ seq event, session.pending.lookup seq = some event ∧ event.isExited = true) := by
  unfold confirmExit
  split
  next seq number exitCode denied hfind =>
    obtain ⟨k, -, hk⟩ := exists_of_findSome?_eq_some hfind
    obtain ⟨number', exitCode', denied', hlookup, hdata⟩ := exitAt_eq_some.mp hk
    cases hdata
    obtain ⟨-, -, hmem⟩ := h.waiting _ _ hlookup
    obtain ⟨_, _, -, hexit⟩ := htraced.exited_eq hmem rfl
    cases hexit
    rw [Option.getD_some, Bool.or_self]
    refine ⟨_, rfl, fun k => ?_, ?_, iff_of_true rfl ⟨_, _, hlookup, rfl⟩⟩
    · rw [Table.lookup_insert_eq]
      split
      next hk => rw [hk, hlookup]
      next => rfl
    · exact add_right_cancel (Table.sumBy_insert hlookup)
  next hfind =>
    refine ⟨session.pending, rfl, fun _ => rfl, rfl, iff_of_false Bool.false_ne_true ?_⟩
    rintro ⟨seq, event, hlookup, hexit⟩
    obtain ⟨-, hseq, hmem⟩ := h.waiting _ _ hlookup
    have hle := (htraced.numbered.seq_le hmem hseq).2
    have hrange : seq ∈ session.pendingRange 0 targetSeq := by
      refine mem_filter.mpr ⟨mem_range'_1.mpr (by omega), ?_⟩
      rw [hlookup]
      rfl
    have hnone := findSome?_eq_none_iff.mp hfind seq hrange
    obtain ⟨number, exitCode, -, rfl⟩ := htraced.exited_eq hmem hexit
    rw [exitAt_eq_some.mpr ⟨_, _, _, hlookup, rfl⟩] at hnone
    cases hnone

/-- The flags of an answer of the process. -/
structure Answers (response : ReadResponse) (process : RunningProcess) : Prop where
  exited : response.exited = process.exitCode.isSome
  exitCode : response.exitCode = process.exitCode
  closed : response.closed = process.closed
  sandboxDenied : response.sandboxDenied = process.sandboxDenied

/-! ## A recovery that succeeds -/

/-- **What every turn keeps**: either the session follows the process and, if the exit is not known, its
number is open, or a wrong guess was made, and the number of the exit is open though it counts as known. -/
def Recovering.Sound (recovering : Recovering) (process : RunningProcess) : Prop :=
  (Follows recovering.session process.events ∧
    (recovering.exitKnown = false → process.exitCode.isSome = true →
      recovering.session.Unseen process.events)) ∨
    (recovering.exitKnown = true ∧ recovering.session.Unseen process.events)

variable {publishedClosed exitKnown : Bool}

theorem Recovering.Sound.publish {recovering : Recovering}
    (htraced : process.Traced) (h : Sound ⟨session, exitKnown, false⟩ process) :
    (recovering.publish session exitKnown).Sound process := by
  obtain ⟨hfollows, hopen⟩ | ⟨hknown, hopen⟩ := h
  · exact .inl ⟨hfollows.publishReady htraced.numbered, fun hknown hexited =>
      unseen_publishReady.mpr (hopen hknown hexited)⟩
  · exact .inr ⟨hknown, unseen_publishReady.mpr hopen⟩

theorem Recovering.Sound.insert (htraced : process.Traced)
    (h : Sound ⟨session, exitKnown, publishedClosed⟩ process) (hmem : event ∈ process.events)
    (hseq : event.seq = some seq) (hother : event.isExited = false)
    (hlate : Follows session process.events → session.lastPublishedSeq < seq)
    (hinsert : session.insertPending event = .ok next) :
    Sound ⟨next, exitKnown, false⟩ process := by
  have hne := exit_seq_ne htraced hmem hseq hother
  obtain ⟨hfollows, hopen⟩ | ⟨hknown, hopen⟩ := h
  · refine .inl ⟨hfollows.insertPending hseq hmem (hlate hfollows) hinsert, fun hknown hexited => ?_⟩
    exact (hopen hknown hexited).insertPending hseq hne hinsert
  · exact .inr ⟨hknown, hopen.insertPending hseq hne hinsert⟩

theorem Recovering.Sound.insertExited (htraced : process.Traced)
    (hanswers : Answers response process) (hexited : process.exitCode.isSome = true)
    (h : Sound ⟨session, false, publishedClosed⟩ process)
    (hlate : session.lastPublishedSeq < seq)
    (hinsert : session.insertExited response seq = .ok next) :
    Sound ⟨next, true, false⟩ process := by
  obtain ⟨exitCode, hexit⟩ := Option.isSome_iff_exists.mp hexited
  unfold SessionState.insertExited at hinsert
  rw [hanswers.exitCode, hexit, hanswers.sandboxDenied] at hinsert
  have hinsert := insertRecovered_eq_ok.mp hinsert
  obtain ⟨hfollows, hopen⟩ | ⟨hknown, -⟩ := h
  · have hopen := hopen rfl hexited
    by_cases htrue : .exited seq exitCode (some process.sandboxDenied) ∈ process.events
    · exact .inl ⟨hfollows.insertPending rfl htrue hlate hinsert, nofun⟩
    · refine .inr ⟨rfl, hopen.insertPending rfl (fun exit hmem hexited hsame => htrue ?_) hinsert⟩
      obtain ⟨number, code, hcode, rfl⟩ := htraced.exited_eq hmem hexited
      cases hsame
      rw [hexit] at hcode
      cases hcode
      exact hmem
  · cases hknown

section

variable {recovering result : Recovering} {chunk : ProcessOutputChunk}

theorem inferExit_sound (htraced : process.Traced) (hanswers : Answers response process)
    (h : recovering.Sound process) (hresult : inferExit response recovering chunk = .ok result) :
    result.Sound process := by
  unfold inferExit at hresult
  dsimp only at hresult
  split at hresult
  next hgap =>
    obtain ⟨session, hinsert, hpure⟩ := bind_eq_ok.mp hresult
    cases hpure
    have hknown : recovering = ⟨recovering.session, false, recovering.publishedClosed⟩ := by
      rw [← hgap.2.1]
    rw [hknown] at h
    have hexited : process.exitCode.isSome = true := hanswers.exited ▸ hgap.1
    exact Recovering.Sound.publish htraced
      (h.insertExited htraced hanswers hexited (Nat.lt_succ_self _) hinsert)
  next =>
    cases hresult
    exact h

theorem recoverOutput_sound (htraced : process.Traced) (h : recovering.Sound process)
    (hchunk : chunk ∈ outputsOf process.events) (hresult : recoverOutput recovering chunk = .ok result) :
    result.Sound process := by
  unfold recoverOutput at hresult
  split at hresult
  next hlate =>
    obtain ⟨session, hinsert, hpure⟩ := bind_eq_ok.mp hresult
    cases hpure
    exact Recovering.Sound.publish htraced (h.insert htraced (mem_outputsOf.mp hchunk) rfl rfl
      (fun _ => hlate) (insertRecovered_eq_ok.mp hinsert))
  next =>
    cases hresult
    exact h

/-- **The loop over the chunks** keeps it. -/
theorem recoverChunks_sound {chunks : List ProcessOutputChunk} (htraced : process.Traced)
    (hanswers : Answers response process) (h : recovering.Sound process)
    (hchunks : ∀ chunk ∈ chunks, chunk ∈ outputsOf process.events)
    (hresult : chunks.foldlM (recoverChunk response targetSeq) recovering = .ok result) :
    result.Sound process := by
  induction chunks generalizing recovering with
  | nil =>
    cases hresult
    exact h
  | cons chunk chunks ih =>
    rw [foldlM_cons] at hresult
    obtain ⟨after, hafter, hrest⟩ := bind_eq_ok.mp hresult
    unfold recoverChunk at hafter
    obtain ⟨-, hafter⟩ := ite_throw_eq_ok.mp hafter
    obtain ⟨inferred, hinferred, houtput⟩ := bind_eq_ok.mp hafter
    have hsound := recoverOutput_sound htraced (inferExit_sound htraced hanswers h hinferred)
      (hchunks chunk mem_cons_self) houtput
    exact ih hsound (fun other hmem => hchunks other (mem_cons_of_mem _ hmem)) hrest

end

theorem Follows.close_late (h : Follows session process.events) (htraced : process.Traced)
    (hclosed : process.closed = true) (hopen : session.closedPublished = false) :
    session.lastPublishedSeq < process.events.length := by
  have hbound := h.bound
  by_contra hlate
  have hlast : session.lastPublishedSeq = process.events.length := by omega
  have hany := h.closed
  rw [hlast, take_length, hopen, any_eq_true.mpr ⟨_, htraced.closed_mem hclosed, rfl⟩] at hany
  cases hany

theorem insertClosed_sound (htraced : process.Traced) (hanswers : Answers response process)
    (h : Recovering.Sound ⟨session, exitKnown, publishedClosed⟩ process)
    (hresult : session.insertClosed response process.events.length = .ok next) :
    Recovering.Sound ⟨next, exitKnown, false⟩ process := by
  unfold insertClosed at hresult
  split at hresult
  next hclose =>
    have hclosed : process.closed = true := hanswers.closed ▸ hclose.1
    exact h.insert htraced (htraced.closed_mem hclosed) rfl rfl
      (fun hfollows => hfollows.close_late htraced hclosed hclose.2.1) (insertRecovered_eq_ok.mp hresult)
  next =>
    cases hresult
    exact h

/-- **Behind the check** every number is there, and the session follows the process. -/
theorem fillGap_sound (htraced : process.Traced) (hanswers : Answers response process)
    (h : Recovering.Sound ⟨session, exitKnown, publishedClosed⟩ process)
    (hresult : session.fillGap response process.events.length exitKnown = .ok next) :
    Follows next process.events ∧ ∀ k ≤ process.events.length, next.Has k := by
  unfold fillGap at hresult
  split at hresult
  next hexit =>
    obtain ⟨hexited, hknown⟩ := hexit
    subst hknown
    have hexited : process.exitCode.isSome = true := hanswers.exited ▸ hexited
    obtain ⟨hone, hresult⟩ := ite_throw_eq_ok.mp hresult
    have hone : session.missingCount process.events.length = 1 := by simpa using hone
    obtain ⟨hfollows, hopen⟩ | ⟨hknown, -⟩ := h
    · obtain ⟨exit, hmem, hexit, seq, hseq, hmissing⟩ := hopen rfl hexited
      have hle := (htraced.numbered.seq_le hmem hseq).2
      have hothers := (missingCount_one_iff hmissing hle).mp hone
      rw [firstMissingSeq_eq hmissing hle hothers] at hresult
      obtain ⟨number, exitCode, hcode, rfl⟩ := htraced.exited_eq hmem hexit
      cases hseq
      unfold insertExited at hresult
      rw [hanswers.exitCode, hcode, hanswers.sandboxDenied] at hresult
      have hinsert := insertRecovered_eq_ok.mp hresult
      have hlate : session.lastPublishedSeq < seq := not_le.mp fun h => hmissing (.inl h)
      refine ⟨hfollows.insertPending rfl hmem hlate hinsert, fun k hk => ?_⟩
      refine (insertPending_has rfl hinsert k).mpr ?_
      by_cases hsame : k = seq
      · exact .inr hsame
      · exact .inl (hothers k hk hsame)
    · cases hknown
  next hexit =>
    obtain ⟨hzero, hresult⟩ := ite_throw_eq_ok.mp hresult
    have hzero : session.missingCount process.events.length = 0 := by simpa using hzero
    cases hresult
    have hall := fun k hk => has_of_missingCount_zero (k := k) hzero hk
    obtain ⟨hfollows, -⟩ | ⟨-, exit, hmem, hexit, seq, hseq, hmissing⟩ := h
    · exact ⟨hfollows, hall⟩
    · exact absurd (hall seq (htraced.numbered.seq_le hmem hseq).2) hmissing

theorem Follows.confirmed (h : Follows session process.events) (htraced : process.Traced)
    (htarget : process.events.length ≤ targetSeq) {confirmed : SessionState} {exitPending : Bool}
    (hconfirm : session.confirmExit targetSeq process.sandboxDenied = (confirmed, exitPending)) :
    Follows confirmed process.events ∧ (session.Drained → confirmed.Drained) ∧
      confirmed.lastPublishedSeq = session.lastPublishedSeq ∧ (∀ k, confirmed.Has k ↔ session.Has k) ∧
      ((session.exitPublished || exitPending) = false → process.exitCode.isSome = true →
        confirmed.Unseen process.events) ∧
      ((session.exitPublished || exitPending) = true → ¬ confirmed.Unseen process.events) := by
  obtain ⟨pending, heq, hlookup, hbytes, hwaits⟩ := confirmExit_spec h htraced htarget
  rw [hconfirm] at heq hwaits
  obtain rfl : confirmed = { session with pending := pending } := heq
  have hhas : ∀ k, SessionState.Has { session with pending := pending } k ↔ session.Has k := by
    intro k
    show _ ∨ (pending.lookup k).isSome = true ↔ _
    rw [hlookup k]
    rfl
  refine ⟨{ h with waiting := fun seq event hevent => ?_, bytes := ?_ }, fun hdrained => ?_, rfl, hhas,
    fun hknown hexited => ?_, fun hknown hopen => ?_⟩
  · exact h.waiting seq event ((hlookup seq).symm.trans hevent)
  · exact h.bytes.trans hbytes.symm
  · exact (hlookup _).trans hdrained
  · obtain ⟨hpublished, hpending⟩ := Bool.or_eq_false_iff.mp hknown
    obtain ⟨exit, hmem, hexit⟩ := htraced.exists_exited hexited
    obtain ⟨seq, exitCode, -, rfl⟩ := htraced.exited_eq hmem hexit
    refine ⟨_, hmem, rfl, seq, rfl, fun hthere => ?_⟩
    obtain hle | hwait := (hhas seq).mp hthere
    · have hfirst := (htraced.numbered.mem_take_iff hmem rfl).mpr hle
      have hany := h.exited
      rw [hpublished, any_eq_true.mpr ⟨_, hfirst, rfl⟩] at hany
      cases hany
    · obtain ⟨event, hevent⟩ := Option.isSome_iff_exists.mp hwait
      obtain ⟨-, hseq, hmem'⟩ := h.waiting seq event hevent
      have hsame := htraced.numbered.eq_of_seq hmem rfl hmem' hseq
      have hknown : exitPending = true := hwaits.mpr ⟨seq, event, hevent, hsame ▸ rfl⟩
      rw [hpending] at hknown
      cases hknown
  · obtain ⟨exit, hmem, hexit, seq, hseq, hmissing⟩ := hopen
    refine hmissing ((hhas seq).mpr ?_)
    obtain hpublished | hpending := (Bool.or_eq_true _ _).mp hknown
    · rw [h.exited] at hpublished
      obtain ⟨other, hother, hexit'⟩ := any_eq_true.mp hpublished
      have hsame := htraced.exited_unique hmem hexit (mem_of_mem_take hother) hexit'
      rw [← hsame] at hother
      exact .inl ((htraced.numbered.mem_take_iff hmem hseq).mp hother)
    · obtain ⟨number, other, hother, hexit'⟩ := hwaits.mp hpending
      obtain ⟨-, hnumber, hmem'⟩ := h.waiting number other hother
      have hsame := htraced.exited_unique hmem hexit hmem' hexit'
      rw [hsame, hnumber] at hseq
      cases hseq
      exact .inr (Option.isSome_iff_exists.mpr ⟨_, hother⟩)

theorem Follows.all_of_closed (h : Follows session process.events) (htraced : process.Traced)
    (hclosed : session.closedPublished = true) :
    session.lastPublishedSeq = process.events.length := by
  rw [h.closed] at hclosed
  obtain ⟨event, hmem, hclose⟩ := any_eq_true.mp hclosed
  have hbound := h.bound
  cases event with
  | closed seq =>
    have hthere := mem_of_mem_take hmem
    have hlast := (htraced.closed_seq hthere).2
    have hle := (htraced.numbered.mem_take_iff hthere rfl).mp hmem
    omega
  | output _ | exited _ _ _ | failed _ => cases hclose

section

variable (htraced : process.Traced)
include htraced

theorem answers_execRead (afterSeq : Nat) : Answers (process.execRead afterSeq none) process := by
  rw [htraced.execRead_chunks]
  exact ⟨rfl, rfl, rfl, rfl⟩

theorem execRead_target (afterSeq : Nat) :
    (process.execRead afterSeq none).nextSeq - 1 = process.events.length := by
  rw [htraced.execRead_chunks, htraced.next]
  rfl

theorem mem_execRead_chunks {chunk : ProcessOutputChunk} :
    chunk ∈ (process.execRead afterSeq none).chunks ↔ chunk ∈ process.output ∧ afterSeq < chunk.seq := by
  rw [htraced.execRead_chunks, mem_filter, decide_eq_true_iff]

theorem execRead_failure (afterSeq : Nat) : (process.execRead afterSeq none).failure = none := by
  rw [htraced.execRead_chunks]

theorem mem_outputsOf_of_read {chunk : ProcessOutputChunk}
    (h : chunk ∈ (process.execRead afterSeq none).chunks) : chunk ∈ outputsOf process.events :=
  htraced.newest.subset ((mem_execRead_chunks htraced).mp h).1

/-- **The first checks of a recovery**: there is nothing to do, or it goes on with a session that differs in the
verdict of its exit only. The close does not conflict, since it is the last event. -/
theorem recoverEvents_cases (hfollows : Follows session process.events)
    (hdrained : session.Drained) (hfailure : session.failure = none) (afterSeq : Nat) :
    (session.recoverEvents (process.execRead afterSeq none) = .ok (session, false) ∧
      session.lastPublishedSeq = process.events.length) ∨
    ∃ confirmed exitKnown, session.recoverEvents (process.execRead afterSeq none) =
        recoverRest (process.execRead afterSeq none) process.events.length ⟨confirmed, exitKnown, false⟩ ∧
      Follows confirmed process.events ∧ confirmed.Drained ∧
      confirmed.lastPublishedSeq = session.lastPublishedSeq ∧ (∀ k, confirmed.Has k ↔ session.Has k) ∧
      (exitKnown = false → process.exitCode.isSome = true → confirmed.Unseen process.events) ∧
      (exitKnown = true → ¬ confirmed.Unseen process.events) := by
  have hanswers := answers_execRead htraced afterSeq
  have htarget := execRead_target htraced afterSeq
  have hchunks := fun chunk => @mem_outputsOf_of_read process htraced afterSeq chunk
  have hnone := execRead_failure htraced afterSeq
  generalize process.execRead afterSeq none = response at *
  unfold recoverEvents
  rw [hnone]
  dsimp only
  rw [htarget, hanswers.sandboxDenied]
  split
  next hnoop =>
    refine .inl ⟨rfl, ?_⟩
    have hbound := hfollows.bound
    obtain hfailed | hclosed | hle := hnoop
    · rw [hfailure] at hfailed
      cases hfailed
    · exact hfollows.all_of_closed htraced hclosed
    · omega
  next =>
    rcases hconfirm : session.confirmExit process.events.length process.sandboxDenied with
      ⟨confirmed, exitPending⟩
    obtain ⟨hconfirmed, hdry, hlast, hhas, hopen, hknown⟩ :=
      hfollows.confirmed htraced (le_refl _) hconfirm
    have hconflict : ¬ (response.closed = true ∧
        ((confirmed.pending.lookup process.events.length).any (!·.isClosed) = true ∨
          response.chunks.any (·.seq = process.events.length) = true)) := by
      rintro ⟨hclose, hother⟩
      have hlastEvent := htraced.closed_mem (hanswers.closed ▸ hclose)
      obtain hwaits | hchunk := hother
      · cases hlookup : confirmed.pending.lookup process.events.length with
        | none =>
          rw [hlookup] at hwaits
          cases hwaits
        | some event =>
          obtain ⟨-, hseq, hevent⟩ := hconfirmed.waiting _ event hlookup
          rw [hlookup, ← htraced.numbered.eq_of_seq hlastEvent rfl hevent hseq] at hwaits
          cases hwaits
      · obtain ⟨chunk, hchunk, hseq⟩ := any_eq_true.mp hchunk
        cases htraced.numbered.eq_of_seq hlastEvent rfl (mem_outputsOf.mp (hchunks chunk hchunk))
          (congrArg some (of_decide_eq_true hseq))
    rw [if_neg hconflict]
    exact .inr ⟨confirmed, _, rfl, hconfirmed, hdry hdrained, hlast, hhas, hopen, hknown⟩

/-- **A recovery that succeeds** has published all events, in order and once, and the session follows the
process as before. -/
theorem recoverEvents_sound (hfollows : Follows session process.events) (hdrained : session.Drained)
    (hfailure : session.failure = none)
    (hresult : session.recoverEvents (process.execRead afterSeq none) = .ok (next, publishedClosed)) :
    Follows next process.events ∧ next.Drained ∧ next.published = process.events ∧
      next.lastPublishedSeq = process.events.length := by
  have hanswers := answers_execRead htraced afterSeq
  obtain ⟨hdone, hlast⟩ | ⟨confirmed, exitKnown, hrest, hconfirmed, -, -, -, hopen, -⟩ :=
    recoverEvents_cases htraced hfollows hdrained hfailure afterSeq
  · rw [hdone] at hresult
    cases hresult
    refine ⟨hfollows, hdrained, ?_, hlast⟩
    rw [hfollows.published, hlast, take_length]
  · rw [hrest] at hresult
    obtain ⟨recovering, hloop, hresult⟩ := bind_eq_ok.mp hresult
    obtain ⟨closed, hclosed, hresult⟩ := bind_eq_ok.mp hresult
    obtain ⟨filled, hfilled, hresult⟩ := bind_eq_ok.mp hresult
    have hsound := recoverChunks_sound htraced hanswers (.inl ⟨hconfirmed, hopen⟩)
      (fun _ => mem_outputsOf_of_read htraced) hloop
    obtain ⟨hfollows, hall⟩ := fillGap_sound htraced hanswers
      (insertClosed_sound htraced hanswers hsound hclosed) hfilled
    cases hresult
    have hfinal := hfollows.publishReady htraced.numbered
    exact ⟨hfinal, publishReady_drained _, hfinal.published_all (publishReady_drained _) fun k hk =>
      (publishReady_has _ k).mpr (hall k hk)⟩

theorem recoverEvents_failed (hfailure : session.failure ≠ none) :
    session.recoverEvents (process.execRead afterSeq none) = .ok (session, false) := by
  unfold recoverEvents
  rw [execRead_failure htraced]
  dsimp only
  rw [if_pos (.inl (Option.isSome_iff_ne_none.mpr hfailure))]
  rfl

end

end

end SessionState

end NovumAgent.ExecServer
