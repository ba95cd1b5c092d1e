import NovumAgent.ExecServer.Recovery

/-!
# A process, its client, and reconnects

When no chunk behind the last published event was dropped, a recovery succeeds: the chunks come in the order of
their numbers, each is the next event when its turn comes, or the exit is in between, and so nothing ever
has to wait in the buffer. `recoverEvents_complete` is that half.

The machine at the end is the process and the client: the process goes on, its events reach the client in any
order and any number of times, the connection may fail for good, and the client may recover. A recovery that
fails has published already what it took for events, a made-up exit among them, and if the process cannot be
reached any more the session goes on with that. So `recovery_exact` says what a recovery does in the states
that are reached with recoveries before which no output was dropped, and `recovery_behind_wrong_exit` what
may happen otherwise.
-/

namespace NovumAgent.ExecServer

open List Outcome SessionState

namespace SessionState

section

variable {session next : SessionState} {process : RunningProcess} {response : ReadResponse}
  {event : ExecProcessEvent} {seq : Nat}

/-- **What every turn keeps when no chunk was dropped**: all outputs still to be published are among the
chunks to come. -/
structure Recovering.Ready (recovering : Recovering) (process : RunningProcess)
    (chunks : List ProcessOutputChunk) : Prop where
  follows : Follows recovering.session process.events
  drained : recovering.session.Drained
  opened : recovering.exitKnown = false → process.exitCode.isSome = true →
    recovering.session.Unseen process.events
  known : recovering.exitKnown = true → ¬ recovering.session.Unseen process.events
  later : ∀ chunk ∈ outputsOf process.events, recovering.session.lastPublishedSeq < chunk.seq →
    chunk ∈ chunks

section

variable {recovering : Recovering} {chunk : ProcessOutputChunk} {chunks : List ProcessOutputChunk}

theorem Drained.not_has (h : session.Drained) : ¬ session.Has (session.lastPublishedSeq + 1) := by
  rintro (hle | hwaits)
  · omega
  · unfold Drained at h
    rw [h] at hwaits
    cases hwaits

theorem publishReady_last_le (session : SessionState) :
    session.lastPublishedSeq ≤ session.publishReady.1.lastPublishedSeq :=
  (publishLoop_spec [] _ session).2.2.1

theorem Recovering.Ready.comes_next (h : recovering.Ready process chunks) (htraced : process.Traced)
    (hlate : recovering.session.lastPublishedSeq < process.events.length)
    (hnone : ∀ chunk ∈ chunks, chunk.seq ≠ recovering.session.lastPublishedSeq + 1) :
    (recovering.exitKnown = false ∧ ∃ exitCode, process.exitCode = some exitCode ∧
      .exited (recovering.session.lastPublishedSeq + 1) exitCode (some process.sandboxDenied) ∈
        process.events) ∨
      recovering.session.lastPublishedSeq + 1 = process.events.length := by
  obtain ⟨event, hmem, hseq⟩ := htraced.numbered.exists_event (Nat.le_add_left 1 _) hlate
  cases event with
  | output chunk =>
    have hseq : chunk.seq = recovering.session.lastPublishedSeq + 1 := Option.some.inj hseq
    exact absurd hseq (hnone chunk (h.later chunk (mem_outputsOf.mpr hmem) (by omega)))
  | exited seq exitCode denied =>
    cases hseq
    have hopen : recovering.session.Unseen process.events :=
      ⟨_, hmem, rfl, _, rfl, h.drained.not_has⟩
    obtain ⟨_, _, hcode, hexit⟩ := htraced.exited_eq hmem rfl
    cases hexit
    refine .inl ⟨?_, exitCode, hcode, hmem⟩
    by_contra hknown
    exact h.known ((Bool.not_eq_false _).mp hknown) hopen
  | closed seq =>
    cases hseq
    exact .inr (htraced.closed_seq hmem).2
  | failed message => cases hseq

theorem Recovering.Ready.gap (h : recovering.Ready process (chunk :: chunks))
    (htraced : process.Traced) (hchunk : chunk ∈ outputsOf process.events)
    (hsorted : ∀ other ∈ chunks, chunk.seq < other.seq)
    (hlate : recovering.session.lastPublishedSeq < chunk.seq) :
    chunk.seq = recovering.session.lastPublishedSeq + 1 ∨
      (recovering.session.lastPublishedSeq + 1 < chunk.seq ∧ recovering.exitKnown = false ∧
        ∃ exitCode, process.exitCode = some exitCode ∧
        .exited (recovering.session.lastPublishedSeq + 1) exitCode (some process.sandboxDenied) ∈
          process.events) := by
  by_cases hnext : chunk.seq = recovering.session.lastPublishedSeq + 1
  · exact .inl hnext
  · have hle := (htraced.numbered.seq_le (mem_outputsOf.mp hchunk) rfl).2
    have hnone : ∀ other ∈ chunk :: chunks,
        other.seq ≠ recovering.session.lastPublishedSeq + 1 := by
      intro other hother
      obtain rfl | hrest := mem_cons.mp hother
      · exact hnext
      · have := hsorted other hrest
        omega
    obtain hexit | hend := h.comes_next htraced (by omega) hnone
    · exact .inr ⟨by omega, hexit⟩
    · omega

theorem Follows.publish_next (h : Follows session process.events) (htraced : process.Traced)
    (hmem : event ∈ process.events) (hseq : event.seq = some (session.lastPublishedSeq + 1))
    (hinsert : session.insertPending event = .ok next) :
    Follows next.publishReady.1 process.events ∧
      session.lastPublishedSeq < next.publishReady.1.lastPublishedSeq := by
  refine ⟨(h.insertPending hseq hmem (Nat.lt_succ_self _) hinsert).publishReady htraced.numbered, ?_⟩
  have hlast := insertPending_last hseq hinsert
  have hle := publishReady_last_le next
  have hhas := (publishReady_has next _).mpr ((insertPending_has hseq hinsert _).mpr (.inr rfl))
  by_contra hsame
  have hsame : next.publishReady.1.lastPublishedSeq = session.lastPublishedSeq := by omega
  rw [← hsame] at hhas
  exact (publishReady_drained next).not_has hhas

theorem inferExit_ready (hanswers : Answers response process) (htraced : process.Traced)
    (h : recovering.Ready process (chunk :: chunks)) (hchunk : chunk ∈ outputsOf process.events)
    (hsorted : ∀ other ∈ chunks, chunk.seq < other.seq) :
    ∃ result, inferExit response recovering chunk = .ok result ∧
      result.Ready process (chunk :: chunks) ∧
      (result.session.lastPublishedSeq < chunk.seq →
        chunk.seq = result.session.lastPublishedSeq + 1) := by
  unfold inferExit
  dsimp only
  split
  next hgap =>
    obtain hnext | ⟨-, -, exitCode, hcode, hmem⟩ :=
      h.gap htraced hchunk hsorted (Nat.lt_of_succ_lt hgap.2.2)
    · omega
    · obtain ⟨inserted, hinsert⟩ : ∃ inserted, recovering.session.insertPending
          (.exited (recovering.session.lastPublishedSeq + 1) exitCode (some process.sandboxDenied)) =
            .ok inserted := insertPending_next rfl (Nat.zero_le _)
      obtain ⟨hfollows, hlast⟩ := h.follows.publish_next htraced hmem rfl hinsert
      have hready : (recovering.publish inserted true).Ready process (chunk :: chunks) := by
        refine ⟨hfollows, publishReady_drained _, nofun, fun _ hopen => ?_, fun other hother hlate =>
          h.later other hother (lt_trans hlast hlate)⟩
        obtain ⟨exit, hmem', hexit, seq, hseq, hmissing⟩ := unseen_publishReady.mp hopen
        rw [← htraced.exited_unique hmem rfl hmem' hexit] at hseq
        exact hmissing ((insertPending_has rfl hinsert seq).mpr (.inr (Option.some.inj hseq).symm))
      refine ⟨recovering.publish inserted true, ?_, hready, fun hlate => ?_⟩
      · unfold insertExited insertRecovered
        rw [hanswers.exitCode, hcode, hanswers.sandboxDenied]
        dsimp only
        rw [hinsert]
        rfl
      · obtain hnext | ⟨-, hknown, -⟩ := hready.gap htraced hchunk hsorted hlate
        · exact hnext
        · cases hknown
  next hgap =>
    refine ⟨recovering, rfl, h, fun hlate => ?_⟩
    obtain hnext | ⟨hbehind, hknown, exitCode, hcode, -⟩ := h.gap htraced hchunk hsorted hlate
    · exact hnext
    · refine absurd ⟨?_, hknown, hbehind⟩ hgap
      rw [hanswers.exited, hcode]
      rfl

theorem recoverOutput_ready (htraced : process.Traced)
    (h : recovering.Ready process (chunk :: chunks)) (hchunk : chunk ∈ outputsOf process.events)
    (hbytes : chunk.chunk.length ≤ maxPendingProcessEventBytes)
    (hnext : recovering.session.lastPublishedSeq < chunk.seq →
      chunk.seq = recovering.session.lastPublishedSeq + 1) :
    ∃ result, recoverOutput recovering chunk = .ok result ∧ result.Ready process chunks := by
  have hrest : ∀ {last : Nat}, recovering.session.lastPublishedSeq ≤ last → chunk.seq ≤ last →
      ∀ other ∈ outputsOf process.events, last < other.seq → other ∈ chunks := by
    intro last hlast hdone other hother hlate
    obtain rfl | hmem := mem_cons.mp (h.later other hother (by omega))
    · omega
    · exact hmem
  unfold recoverOutput
  split
  next hlate =>
    have hmem := mem_outputsOf.mp hchunk
    have hseq : (ExecProcessEvent.output chunk).seq =
        some (recovering.session.lastPublishedSeq + 1) := congrArg some (hnext hlate)
    obtain ⟨inserted, hinsert⟩ := insertPending_next hseq hbytes
    obtain ⟨hfollows, hlast⟩ := h.follows.publish_next htraced hmem hseq hinsert
    refine ⟨recovering.publish inserted recovering.exitKnown, ?_, hfollows, publishReady_drained _,
      fun hknown hexited => ?_, fun hknown hopen => ?_, hrest (le_of_lt hlast) ?_⟩
    · unfold insertRecovered
      rw [hinsert]
      rfl
    · exact unseen_publishReady.mpr ((h.opened hknown hexited).insertPending hseq
        (exit_seq_ne htraced hmem hseq rfl) hinsert)
    · exact not_unseen_insertPending (h.known hknown) hseq hinsert (unseen_publishReady.mp hopen)
    · have := hnext hlate
      show chunk.seq ≤ inserted.publishReady.1.lastPublishedSeq
      omega
  next hdone =>
    refine ⟨recovering, rfl, h.follows, h.drained, h.opened, h.known, hrest (le_refl _) ?_⟩
    omega

/-- **The loop over the chunks** succeeds when no chunk was dropped. -/
theorem recoverChunks_ready (hanswers : Answers response process) (htraced : process.Traced)
    (h : recovering.Ready process chunks)
    (hchunks : ∀ chunk ∈ chunks, chunk ∈ outputsOf process.events ∧
      chunk.chunk.length ≤ maxPendingProcessEventBytes)
    (hsorted : chunks.Pairwise fun chunk other => chunk.seq < other.seq) :
    ∃ result, chunks.foldlM (recoverChunk response process.events.length) recovering = .ok result ∧
      result.Ready process [] := by
  induction chunks generalizing recovering with
  | nil => exact ⟨recovering, rfl, h⟩
  | cons chunk chunks ih =>
    obtain ⟨hfirst, hsorted⟩ := pairwise_cons.mp hsorted
    obtain ⟨hchunk, hbytes⟩ := hchunks chunk mem_cons_self
    have hle : ¬ process.events.length < chunk.seq :=
      not_lt.mpr (htraced.numbered.seq_le (mem_outputsOf.mp hchunk) rfl).2
    obtain ⟨inferred, hinferred, hready, hnext⟩ := inferExit_ready hanswers htraced h hchunk hfirst
    obtain ⟨after, hafter, hready⟩ := recoverOutput_ready htraced hready hchunk hbytes hnext
    obtain ⟨result, hresult, hend⟩ := ih hready (fun other hmem =>
      hchunks other (mem_cons_of_mem _ hmem)) hsorted
    refine ⟨result, ?_, hend⟩
    rw [foldlM_cons]
    refine bind_eq_ok.mpr ⟨after, ?_, hresult⟩
    unfold recoverChunk
    rw [if_neg hle]
    exact bind_eq_ok.mpr ⟨inferred, hinferred, hafter⟩

theorem Recovering.Ready.exit_next (h : recovering.Ready process []) (htraced : process.Traced)
    {exit : ExecProcessEvent} (hmem : exit ∈ process.events) (hexit : exit.isExited = true)
    (hseq : exit.seq = some seq) (hlate : recovering.session.lastPublishedSeq < seq) :
    seq = recovering.session.lastPublishedSeq + 1 := by
  have hle := (htraced.numbered.seq_le hmem hseq).2
  obtain ⟨-, exitCode, -, hmem'⟩ | hend := h.comes_next htraced (by omega) nofun
  · rw [htraced.exited_unique hmem hexit hmem' rfl] at hseq
    exact (Option.some.inj hseq).symm
  · omega

theorem insertClosed_ready (hanswers : Answers response process) (htraced : process.Traced)
    (h : recovering.Ready process []) :
    ∃ closed, recovering.session.insertClosed response process.events.length = .ok closed ∧
      closed.lastPublishedSeq = recovering.session.lastPublishedSeq ∧
      (recovering.session.Unseen process.events → closed.Unseen process.events) ∧
      (¬ recovering.session.Unseen process.events → ¬ closed.Unseen process.events) ∧
      (process.closed = true → closed.Has process.events.length) := by
  unfold insertClosed
  split
  next hclose =>
    have hclosed : process.closed = true := hanswers.closed ▸ hclose.1
    have hmem := htraced.closed_mem hclosed
    have hnone : ∀ seq, recovering.session.pending.lookup seq = none := by
      intro seq
      cases hlookup : recovering.session.pending.lookup seq with
      | none => rfl
      | some event =>
        obtain ⟨hlate, hseq, hevent⟩ := h.follows.waiting seq event hlookup
        exfalso
        cases event with
        | output chunk =>
          cases hseq
          cases h.later chunk (mem_outputsOf.mpr hevent) hlate
        | exited number exitCode denied =>
          cases hseq
          have hnext := h.exit_next htraced hevent rfl rfl hlate
          rw [hnext, h.drained] at hlookup
          cases hlookup
        | closed number =>
          cases hseq
          rw [(htraced.closed_seq hevent).2] at hlookup
          rw [hlookup] at hclose
          cases hclose.2.2
        | failed message => cases hseq
    have hempty : recovering.session.pending = ∅ := AList.ext (by
      cases hentries : recovering.session.pending.entries with
      | nil => rfl
      | cons entry entries =>
        have hthere : recovering.session.pending.lookup entry.1 = some entry.2 :=
          AList.mem_lookup_iff.mpr (hentries ▸ mem_cons_self)
        rw [hnone] at hthere
        cases hthere)
    have hzero : recovering.session.pendingBytes = 0 := by
      rw [h.follows.bytes, hempty]
      rfl
    have hseq : (ExecProcessEvent.closed process.events.length).seq =
        some process.events.length := rfl
    obtain ⟨closed, hinsert⟩ := insertPending_empty hseq hempty hzero (Nat.zero_le _)
    refine ⟨closed, insertRecovered_eq_ok.mpr hinsert, insertPending_last hseq hinsert, ?_, ?_, ?_⟩
    · exact fun hopen => hopen.insertPending hseq (exit_seq_ne htraced hmem hseq rfl) hinsert
    · exact fun hknown => not_unseen_insertPending hknown hseq hinsert
    · exact fun _ => (insertPending_has hseq hinsert _).mpr (.inr rfl)
  next hclose =>
    refine ⟨recovering.session, rfl, rfl, id, id, fun hclosed => ?_⟩
    by_cases hpublished : recovering.session.closedPublished = true
    · exact .inl (h.follows.all_of_closed htraced hpublished).ge
    · refine .inr ?_
      by_contra hnone
      have hnone : recovering.session.pending.lookup process.events.length = none := by
        simpa using hnone
      exact hclose ⟨hanswers.closed.trans hclosed, (Bool.not_eq_true _).mp hpublished, by rw [hnone]; rfl⟩

/-- **The check** succeeds when no chunk was dropped. -/
theorem fillGap_ready {closed : SessionState} (hanswers : Answers response process)
    (htraced : process.Traced) (h : recovering.Ready process [])
    (hlast : closed.lastPublishedSeq = recovering.session.lastPublishedSeq)
    (hunseen : recovering.session.Unseen process.events → closed.Unseen process.events)
    (hseen : ¬ recovering.session.Unseen process.events → ¬ closed.Unseen process.events)
    (hclosed : process.closed = true → closed.Has process.events.length) :
    ∃ filled, closed.fillGap response process.events.length recovering.exitKnown = .ok filled := by
  -- whatever number is still open is that of the exit
  have hopen : ∀ k ≤ process.events.length, ¬ closed.Has k →
      ∃ exit ∈ process.events, exit.isExited = true ∧ exit.seq = some k := by
    intro k hk hmissing
    have hlate : recovering.session.lastPublishedSeq < k :=
      hlast ▸ not_le.mp fun hle => hmissing (.inl hle)
    obtain ⟨event, hmem, hseq⟩ := htraced.numbered.exists_event (by omega) hk
    cases event with
    | output chunk =>
      cases hseq
      cases h.later chunk (mem_outputsOf.mpr hmem) hlate
    | exited number exitCode denied => exact ⟨_, hmem, rfl, hseq⟩
    | closed number =>
      cases hseq
      obtain ⟨hdone, hend⟩ := htraced.closed_seq hmem
      rw [hend] at hmissing
      exact absurd (hclosed hdone) hmissing
    | failed message => cases hseq
  unfold fillGap
  split
  next hexit =>
    have hexited : process.exitCode.isSome = true := hanswers.exited ▸ hexit.1
    obtain ⟨exit, hmem, hexited', seq, hseq, hmissing⟩ := hunseen (h.opened hexit.2 hexited)
    have hle := (htraced.numbered.seq_le hmem hseq).2
    have hothers : ∀ k ≤ process.events.length, k ≠ seq → closed.Has k := by
      intro k hk hne
      by_contra hgap
      obtain ⟨other, hother, hexit', hseq'⟩ := hopen k hk hgap
      rw [htraced.exited_unique hmem hexited' hother hexit', hseq'] at hseq
      exact hne (Option.some.inj hseq)
    have hlate : recovering.session.lastPublishedSeq < seq :=
      hlast ▸ not_le.mp fun hle => hmissing (.inl hle)
    have hnext := h.exit_next htraced hmem hexited' hseq hlate
    obtain ⟨exitCode, hcode⟩ := Option.isSome_iff_exists.mp hexited
    rw [if_neg (by rw [(missingCount_one_iff hmissing hle).mpr hothers]; exact fun hne => hne rfl),
      firstMissingSeq_eq hmissing hle hothers, hnext, ← hlast]
    unfold insertExited
    rw [hanswers.exitCode, hcode]
    exact (insertPending_next rfl (Nat.zero_le _)).imp fun _ => insertRecovered_eq_ok.mpr
  next hexit =>
    have hall : ∀ k ≤ process.events.length, closed.Has k := by
      intro k hk
      by_contra hgap
      obtain ⟨exit, hmem, hexited, hseq⟩ := hopen k hk hgap
      have hknown : ¬ recovering.session.Unseen process.events := by
        refine h.known ?_
        by_contra hunknown
        refine hexit ⟨?_, (Bool.not_eq_true _).mp hunknown⟩
        obtain ⟨_, _, hcode, -⟩ := htraced.exited_eq hmem hexited
        rw [hanswers.exited, hcode]
        rfl
      exact hseen hknown ⟨exit, hmem, hexited, k, hseq, hgap⟩
    rw [if_neg (by rw [missingCount_zero hall]; exact fun hne => hne rfl)]
    exact ⟨closed, rfl⟩

end

/-- **A recovery that misses nothing** succeeds. -/
theorem recoverEvents_complete {afterSeq : Nat} (htraced : process.Traced)
    (hfollows : Follows session process.events) (hdrained : session.Drained)
    (hfailure : session.failure = none) (hafter : afterSeq ≤ session.lastPublishedSeq)
    (hretains : process.Retains session.lastPublishedSeq) :
    ∃ result, session.recoverEvents (process.execRead afterSeq none) = .ok result := by
  have hanswers := answers_execRead htraced afterSeq
  have hchunks : ∀ chunk ∈ (process.execRead afterSeq none).chunks,
      chunk ∈ outputsOf process.events ∧ chunk.chunk.length ≤ maxPendingProcessEventBytes := by
    intro chunk hchunk
    refine ⟨mem_outputsOf_of_read htraced hchunk, ?_⟩
    have hkept := ((mem_execRead_chunks htraced).mp hchunk).1
    have hbytes := le_sum_of_mem (mem_map_of_mem (f := (·.chunk.length)) hkept)
    rw [← htraced.bytes] at hbytes
    exact le_trans hbytes htraced.within
  have hsorted : (process.execRead afterSeq none).chunks.Pairwise
      fun chunk other => chunk.seq < other.seq := by
    rw [htraced.execRead_chunks]
    exact (htraced.numbered.outputs_sorted.sublist htraced.newest.sublist).filter _
  obtain ⟨hdone, -⟩ | ⟨confirmed, exitKnown, hrest, hconfirmed, hdry, hlast, -, hopen, hknown⟩ :=
    recoverEvents_cases htraced hfollows hdrained hfailure afterSeq
  · exact ⟨_, hdone⟩
  · have hready : Recovering.Ready ⟨confirmed, exitKnown, false⟩ process
        (process.execRead afterSeq none).chunks := by
      refine ⟨hconfirmed, hdry, hopen, hknown, fun chunk hchunk hlate => ?_⟩
      have hlate : session.lastPublishedSeq < chunk.seq := hlast ▸ hlate
      exact (mem_execRead_chunks htraced).mpr
        ⟨hretains chunk hchunk hlate, lt_of_le_of_lt hafter hlate⟩
    obtain ⟨recovering, hloop, hend⟩ := recoverChunks_ready hanswers htraced hready hchunks hsorted
    obtain ⟨closed, hclosed, hlast, hunseen, hseen, hdone⟩ :=
      insertClosed_ready hanswers htraced hend
    obtain ⟨filled, hfilled⟩ := fillGap_ready hanswers htraced hend hlast hunseen hseen hdone
    rw [hrest]
    exact ⟨_, bind_eq_ok.mpr ⟨recovering, hloop, bind_eq_ok.mpr ⟨closed, hclosed,
      bind_eq_ok.mpr ⟨filled, hfilled, rfl⟩⟩⟩⟩

end

end SessionState

/-! ## Runs -/

/-- A process and the session of its client. -/
structure System where
  process : RunningProcess
  session : SessionState

/-- What happens: to the process, a notification of one of its events, the end of the connection, and a
recovery with an answer of the process. If it fails the process is terminated and the session fails with a
message, unless the transport was closed in the meantime. -/
inductive SystemEvent where
  | process (event : ProcessEvent)
  | notify (event : ExecProcessEvent)
  | fail (message : Text)
  | recover (afterSeq : Nat) (terminated : Option Text)

namespace System

/-- A process that was just started, and a new session. -/
def start (sandboxed : Bool) : System := ⟨RunningProcess.start sandboxed, SessionState.new⟩

/-- `finish_process_event`: a notification that cannot be taken is the failure of the session. -/
def notify (session : SessionState) (event : ExecProcessEvent) : SessionState :=
  match session.publishOrderedEvent event with
  | .ok (session, _) => session
  | .error message => session.setFailure message

/-- What `recover_processes` leaves of a session whose recovery failed. -/
def giveUp (session : SessionState) : Option Text → SessionState
  | some message => session.setFailure message
  | none => session

/-- One step. -/
def step (system : System) : SystemEvent → Option System
  | .process event =>
    (system.process.step event).map fun process => { system with process := process }
  | .notify event =>
    if event ∈ system.process.events then
      some { system with session := notify system.session event }
    else none
  | .fail message => some { system with session := system.session.setFailure message }
  | .recover afterSeq terminated =>
    if afterSeq ≤ system.session.lastPublishedSeq then
      match system.session.recoverEvents (system.process.execRead afterSeq none) with
      | .ok (session, _) => some { system with session := session }
      | .error (_, session) => some { system with session := giveUp session terminated }
    else none

/-- A recovery of a live session is tried only while no output behind the last published event was dropped. -/
def Retained (system : System) : SystemEvent → Prop
  | .recover _ _ => system.session.failure = none →
    system.process.Retains system.session.lastPublishedSeq
  | _ => True

/-- A session that has not failed follows its process, and nothing waits that could be published. -/
structure Tracks (system : System) : Prop where
  traced : system.process.Traced
  following : system.session.failure = none →
    system.session.Follows system.process.events ∧ system.session.Drained

section

variable {system next : System} {session : SessionState} {event : ExecProcessEvent}

theorem tracks_start (sandboxed : Bool) : Tracks (start sandboxed) :=
  ⟨RunningProcess.traced_start sandboxed, fun _ => ⟨follows_new _, rfl⟩⟩

theorem Tracks.setFailure (h : Tracks system) (message : Text) :
    Tracks { system with session := system.session.setFailure message } := by
  refine ⟨h.traced, fun hfailure => ?_⟩
  have hfailure : (system.session.setFailure message).failure = none := hfailure
  show (system.session.setFailure message).Follows _ ∧ (system.session.setFailure message).Drained
  unfold SessionState.setFailure at hfailure ⊢
  split at hfailure
  next hdone =>
    rw [if_pos hdone]
    exact h.following hfailure
  next => cases hfailure

/-- An event with a number is taken, or the session stays as it is. -/
theorem publishOrderedEvent_cases {session' : SessionState} {publishedClosed : Bool} {seq : Nat}
    (hseq : event.seq = some seq)
    (h : session.publishOrderedEvent event = .ok (session', publishedClosed)) :
    session' = session ∨ (session.failure = none ∧ session.lastPublishedSeq < seq ∧
      ∃ inserted, session.insertPending event = .ok inserted ∧ session' = inserted.publishReady.1) := by
  unfold publishOrderedEvent at h
  rw [hseq] at h
  dsimp only at h
  split at h
  next =>
    cases h
    exact .inl rfl
  next hnew =>
    push Not at hnew
    obtain ⟨inserted, hinsert, hready⟩ := bind_eq_ok.mp h
    exact .inr ⟨by simpa using hnew.1, hnew.2.2, inserted, hinsert,
      (congrArg Prod.fst (Except.ok.inj hready)).symm⟩

theorem Tracks.notify (h : Tracks system) (hmem : event ∈ system.process.events) :
    Tracks { system with session := System.notify system.session event } := by
  unfold System.notify
  split
  next session publishedClosed hpublish =>
    obtain ⟨k, hk⟩ := getElem?_of_mem hmem
    have hseq := h.traced.numbered k event hk
    obtain rfl | ⟨hlive, hlate, inserted, hinsert, rfl⟩ := publishOrderedEvent_cases hseq hpublish
    · exact h
    · have hfollows := (h.following hlive).1.insertPending hseq hmem hlate hinsert
      exact ⟨h.traced, fun _ => ⟨hfollows.publishReady h.traced.numbered, publishReady_drained _⟩⟩
  next message _ => exact h.setFailure message

/-- **A recovery where nothing was dropped** succeeds, and the session follows the process. -/
theorem Tracks.recovers {afterSeq : Nat} {terminated : Option Text} (h : Tracks system)
    (hretained : Retained system (.recover afterSeq terminated))
    (hstep : system.step (.recover afterSeq terminated) = some next) :
    ∃ session, next = { system with session := session } ∧
      ((system.session.failure = none ∧ session.Follows system.process.events ∧ session.Drained) ∨
        (system.session.failure ≠ none ∧ session = system.session)) := by
  obtain ⟨hafter, hstep⟩ := Option.ite_none_right_eq_some.mp hstep
  by_cases hlive : system.session.failure = none
  · obtain ⟨hfollows, hdrained⟩ := h.following hlive
    obtain ⟨⟨session, publishedClosed⟩, hrecover⟩ :=
      recoverEvents_complete h.traced hfollows hdrained hlive hafter (hretained hlive)
    rw [hrecover] at hstep
    obtain ⟨hfollows, hdrained, -⟩ := recoverEvents_sound h.traced hfollows hdrained hlive hrecover
    exact ⟨session, (Option.some.inj hstep).symm, .inl ⟨hlive, hfollows, hdrained⟩⟩
  · rw [recoverEvents_failed h.traced hlive] at hstep
    exact ⟨_, (Option.some.inj hstep).symm, .inr ⟨hlive, rfl⟩⟩

theorem Tracks.step {event : SystemEvent} (h : Tracks system) (hretained : Retained system event)
    (hstep : system.step event = some next) : Tracks next := by
  cases event with
  | process event =>
    obtain ⟨process, hprocess, rfl⟩ := Option.map_eq_some_iff.mp hstep
    refine ⟨h.traced.step hprocess, fun hfailure => ?_⟩
    obtain ⟨hfollows, hdrained⟩ := h.following hfailure
    refine ⟨?_, hdrained⟩
    obtain ⟨hevents, -⟩ | ⟨-, published, hevents⟩ := h.traced.step_events hprocess
    · exact hevents.symm ▸ hfollows
    · exact hevents.symm ▸ hfollows.concat published
  | notify event =>
    obtain ⟨hmem, ⟨⟩⟩ := Option.ite_none_right_eq_some.mp hstep
    exact h.notify hmem
  | fail message =>
    cases hstep
    exact h.setFailure message
  | recover afterSeq terminated =>
    obtain ⟨session, rfl, ⟨-, hfollows, hdrained⟩ | ⟨hfailed, rfl⟩⟩ := h.recovers hretained hstep
    · exact ⟨h.traced, fun _ => ⟨hfollows, hdrained⟩⟩
    · exact ⟨h.traced, fun hfailure => absurd hfailure hfailed⟩

end

/-- **A recovery is exact.** Whatever process and client have done so far, as long as the session has not failed
and none of its earlier recoveries was tried after an output it missed was dropped: a recovery that succeeds
has published the events of the process up to the answer, in order and each once; and when no output behind the
last published event was dropped, it succeeds. -/
theorem recovery_exact {sandboxed : Bool} {events : List SystemEvent} {system : System} {afterSeq : Nat}
    (hrun : Machine.run step (start sandboxed) events = some system)
    (hretained : Machine.Along step Retained (start sandboxed) events)
    (hfailure : system.session.failure = none)
    (hafter : afterSeq ≤ system.session.lastPublishedSeq) :
    (∀ session publishedClosed, system.session.recoverEvents (system.process.execRead afterSeq none) =
        .ok (session, publishedClosed) →
      session.published = system.process.events ∧ Numbered system.process.events ∧
        system.process.events.length = (system.process.execRead afterSeq none).nextSeq - 1) ∧
      (system.process.Retains system.session.lastPublishedSeq →
        ∃ result, system.session.recoverEvents (system.process.execRead afterSeq none) = .ok result) := by
  have htracks : Tracks system :=
    Machine.run_invariant_along (fun _ _ _ h hkept hstep => h.step hkept hstep) (tracks_start sandboxed)
      hretained hrun
  obtain ⟨hfollows, hdrained⟩ := htracks.following hfailure
  constructor
  · intro session publishedClosed hrecover
    obtain ⟨-, -, hpublished, -⟩ :=
      recoverEvents_sound htracks.traced hfollows hdrained hfailure hrecover
    exact ⟨hpublished, htracks.traced.numbered, (execRead_target htracks.traced afterSeq).symm⟩
  · exact recoverEvents_complete htracks.traced hfollows hdrained hfailure hafter

/-- Two outputs, of which the second is seen, the exit and an output behind it. -/
def exitBetween : List SystemEvent :=
  [.process (.output .stdout [104]), .process (.output .stdout [105]),
    .notify (.output ⟨2, .stdout, [105]⟩), .process (.exit 0 false), .process (.output .stderr [33])]

/-- A run without recoveries meets the condition on them. -/
theorem along_retained {events : List SystemEvent} (h : ∀ event ∈ events, ∀ afterSeq terminated,
    event ≠ .recover afterSeq terminated) (system : System) : Machine.Along step Retained system events := by
  induction events generalizing system with
  | nil => trivial
  | cons event events ih =>
    obtain ⟨hfirst, hrest⟩ := forall_mem_cons.mp h
    refine ⟨?_, fun next _ => ih hrest next⟩
    cases event with
    | recover afterSeq terminated => exact absurd rfl (hfirst afterSeq terminated)
    | process | notify | fail => trivial

theorem recovery_exact_exitBetween : ∃ system session publishedClosed,
    Machine.run step (start false) exitBetween = some system ∧
      system.session.recoverEvents (system.process.execRead 0 none) = .ok (session, publishedClosed) ∧
      session.published = system.process.events ∧ system.process.events.length = 4 := by
  obtain ⟨system, hrun, hfailure, hretains, hlength⟩ : ∃ system,
      Machine.run step (start false) exitBetween = some system ∧ system.session.failure = none ∧
        system.process.Retains system.session.lastPublishedSeq ∧
        system.process.events.length = 4 :=
    ⟨_, rfl, rfl, by decide, rfl⟩
  obtain ⟨hsound, hcomplete⟩ := recovery_exact hrun (along_retained (by simp [exitBetween]) _) hfailure
    (Nat.zero_le system.session.lastPublishedSeq)
  obtain ⟨⟨session, publishedClosed⟩, hrecover⟩ := hcomplete hretains
  exact ⟨system, session, publishedClosed, hrun, hrecover,
    (hsound session publishedClosed hrecover).1, hlength⟩

/-- A large output, a small one behind it, and the exit. The client recovers only now, which fails, and cannot
reach the process any more; later it is notified of the exit. -/
def exitBehind (first : Bytes) : List SystemEvent :=
  [.process (.output .stdout first), .process (.output .stdout [66]), .process (.exit 0 false),
    .recover 0 none, .notify (.exited 3 0 (some false))]

/-- The large output is dropped for the small one. -/
theorem run_large {first : Bytes} (h : first.length = retainedOutputBytesPerProcess) :
    Machine.run step (start false) ((exitBehind first).take 2) = some
      ⟨⟨[⟨2, .stdout, [66]⟩], 1, 3, none, 2, false, false, false,
        [.output ⟨1, .stdout, first⟩, .output ⟨2, .stdout, [66]⟩]⟩, SessionState.new⟩ := by
  have hone : RunningProcess.evict [⟨1, .stdout, first⟩] first.length =
      ([⟨1, .stdout, first⟩], first.length) := by
    unfold RunningProcess.evict
    rw [if_neg]
    rw [h, length_singleton]
    decide
  have htwo : RunningProcess.evict [⟨1, .stdout, first⟩, ⟨2, .stdout, [66]⟩] (first.length + 1) =
      ([⟨2, .stdout, [66]⟩], 1) := by
    unfold RunningProcess.evict
    rw [if_pos (.inl (by rw [h]; exact Nat.lt_succ_self _)), Nat.add_sub_cancel_left]
    rfl
  have hfirst : step (start false) (.process (.output .stdout first)) = some
      ⟨⟨[⟨1, .stdout, first⟩], first.length, 2, none, 2, false, false, false,
        [.output ⟨1, .stdout, first⟩]⟩, SessionState.new⟩ := by
    simp only [step, start, RunningProcess.step, RunningProcess.start, RunningProcess.pushOutput,
      nil_append, zero_add, hone]
    rfl
  refine (Machine.run_cons ..).trans ?_
  rw [hfirst, Option.bind_some]
  refine (Machine.run_cons ..).trans ?_
  simp only [step, RunningProcess.step, RunningProcess.pushOutput, cons_append, nil_append,
    length_singleton, htwo]
  rfl

/-- **A made-up exit stays.** The recovery took the gap of the dropped output for the exit and published it; the
true exit is published later, and then a recovery succeeds over a log that no process has written. -/
theorem recovery_behind_wrong_exit : ∃ first : Bytes, first.length = retainedOutputBytesPerProcess ∧
    ∃ system session publishedClosed, Machine.run step (start false) (exitBehind first) = some system ∧
      system.session.failure = none ∧
      system.session.recoverEvents (system.process.execRead 0 none) = .ok (session, publishedClosed) ∧
      session.published ≠ system.process.events := by
  obtain ⟨first, hfirst⟩ : ∃ first : Bytes, first.length = retainedOutputBytesPerProcess :=
    ⟨replicate _ 0, length_replicate⟩
  have hrun : Machine.run step (start false) ((exitBehind first).take 2 ++ (exitBehind first).drop 2) = _ :=
    Machine.run_append ..
  rw [take_append_drop, run_large hfirst] at hrun
  refine ⟨first, hfirst, _, _, _, hrun.trans rfl, rfl, rfl, fun h => ?_⟩
  cases h

/-! ## The log of a client -/

section

variable {system next : System}

/-- What a client was shown: the first events of the process, and behind them at most a failure. -/
def Logged (system : System) : Prop :=
  ∃ count ≤ system.process.events.length, ∃ failure : Option Text,
    system.session.published = system.process.events.take count ++ failure.toList.map .failed

theorem Tracks.logged (h : Tracks system) (hlive : system.session.failure = none) : Logged system := by
  obtain ⟨hfollows, -⟩ := h.following hlive
  exact ⟨_, hfollows.bound, none, hfollows.published.trans (append_nil _).symm⟩

theorem Logged.setFailure (h : Logged system) (htracks : Tracks system) (message : Text) :
    Logged { system with session := system.session.setFailure message } := by
  unfold SessionState.setFailure
  split
  next => exact h
  next hlive =>
    have hlive : system.session.failure = none := by simpa using (not_or.mp hlive).1
    obtain ⟨hfollows, -⟩ := htracks.following hlive
    exact ⟨_, hfollows.bound, some message, congrArg (· ++ _) hfollows.published⟩

theorem Logged.step {event : SystemEvent} (h : Logged system) (htracks : Tracks system)
    (hretained : Retained system event) (hstep : system.step event = some next) : Logged next := by
  have hnext := htracks.step hretained hstep
  cases event with
  | process event =>
    obtain ⟨process, hprocess, rfl⟩ := Option.map_eq_some_iff.mp hstep
    obtain ⟨count, hcount, failure, hpublished⟩ := h
    obtain ⟨hevents, -⟩ | ⟨-, published, hevents⟩ := htracks.traced.step_events hprocess
    · exact ⟨count, hevents ▸ hcount, failure, hevents ▸ hpublished⟩
    · refine ⟨count, ?_, failure, ?_⟩
      · rw [hevents, length_append]
        exact Nat.le_add_right_of_le hcount
      · rw [hevents, take_append_of_le_length hcount]
        exact hpublished
  | notify event =>
    obtain ⟨hmem, ⟨⟩⟩ := Option.ite_none_right_eq_some.mp hstep
    unfold System.notify at hnext ⊢
    split at hnext
    next session publishedClosed hpublish =>
      obtain ⟨k, hk⟩ := getElem?_of_mem hmem
      have hseq := htracks.traced.numbered k event hk
      obtain rfl | ⟨hlive, -, inserted, hinsert, rfl⟩ := publishOrderedEvent_cases hseq hpublish
      · exact h
      · refine hnext.logged ((publishLoop_spec [] _ inserted).2.1.trans ?_)
        obtain ⟨-, rfl⟩ | ⟨-, rfl⟩ := insertPending_eq_ok hseq hinsert <;> exact hlive
    next message _ => exact h.setFailure htracks message
  | fail message =>
    cases hstep
    exact h.setFailure htracks message
  | recover afterSeq terminated =>
    obtain ⟨session, rfl, ⟨-, hfollows, -⟩ | ⟨-, rfl⟩⟩ := htracks.recovers hretained hstep
    · exact ⟨_, hfollows.bound, none, hfollows.published.trans (append_nil _).symm⟩
    · exact h

end

end System

end NovumAgent.ExecServer
