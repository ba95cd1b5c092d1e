import NovumAgent.ExecServer.ServerProcess

/-!
# The transcript of a remote process

A task follows the events of a remote process and hands its output to three places: an output stream, if
there is one, the buffer of the transcript, and a broadcast. The events come from a bounded replay and a
bounded channel, so some can be missing. When the task sees a gap it reads what it missed from the
process; the reading may overtake events that are still on their way. One number, the last it has dealt
with, is all that keeps the two sources apart.

The machine below is the process and the task. The events that the task sees are any events of the process, in
any order and any number of times. `transcript_exact` is the result: as long as the reads miss nothing,
what was handed on is the output up to that number, and all of it when the task ends with the close.
-/

namespace NovumAgent.UnifiedExec

open List ExecServer ProcessOutputChunk RunningProcess

structure ProcessState where
  hasExited : Bool
  exitCode : Option Int
  failureMessage : Option Text
  sandboxDenied : Bool

namespace ProcessState

def exited (state : ProcessState) (exitCode : Option Int) : ProcessState :=
  { state with hasExited := true, exitCode := exitCode }

def failed (state : ProcessState) (message : Text) : ProcessState :=
  { state with hasExited := true, failureMessage := some message }

end ProcessState

/-- The places the output goes to. -/
inductive Sink where
  | stream
  | buffer
  | broadcast
deriving DecidableEq

/-- Where the task is: waiting for an event, waiting for a read, handing on chunks, with the answer they came
from if they were read, or at its end, which was the close of the process or a failure. -/
inductive TaskPhase where
  | receiving
  | reading
  | pushing (items : List (Sink × Bytes)) (response : Option ReadResponse)
  | ended (closed : Bool)

/-- The task of `spawn_exec_server_output_task`, with the process it follows and what it has pushed to each
place. -/
structure OutputTask where
  process : RunningProcess
  hasStream : Bool
  lastSeq : Nat
  phase : TaskPhase
  pushed : Sink → List Bytes
  state : ProcessState
  outputClosed : Bool

/-- One step of the process, or of the task. -/
inductive TaskEvent where
  | process (event : ProcessEvent)
  | recv (event : ExecProcessEvent)
  | lagged
  | streamClosed
  | read (failure : Option Text)
  | readFailed (message : Text)
  | push

namespace OutputTask

/-- A task that was just spawned. -/
def start (process : RunningProcess) (hasStream : Bool) : OutputTask :=
  ⟨process, hasStream, 0, .receiving, fun _ => [], ⟨false, none, none, false⟩, false⟩

/-- A place that the task has. -/
def hasSink (task : OutputTask) (sink : Sink) : Prop := sink = .stream → task.hasStream = true

/-- The pushes of some chunks, in the order the task makes them. -/
def itemsOf (hasStream : Bool) (chunks : List Bytes) : List (Sink × Bytes) :=
  chunks.flatMap fun bytes =>
    (if hasStream then [(Sink.stream, bytes)] else []) ++ [(.buffer, bytes), (.broadcast, bytes)]

/-- The task ends: the output is closed. -/
def finish (task : OutputTask) (closed : Bool) : OutputTask :=
  { task with phase := .ended closed, outputClosed := true }

/-- The task ends with a failure. -/
def fail (task : OutputTask) (message : Text) : OutputTask :=
  { task with state := task.state.failed message }.finish false

/-- Is this an exit that does not say whether the sandbox denied something? -/
def missingSandboxDenial : ExecProcessEvent → Bool
  | .exited _ _ none => true
  | _ => false

/-- The head of the loop, with the event it received. -/
def receive (task : OutputTask) (event : ExecProcessEvent) : OutputTask :=
  if event.seq.any (task.lastSeq + 1 < ·) || missingSandboxDenial event then
    { task with phase := .reading }
  else
    match event with
    | .output chunk =>
      if chunk.seq ≤ task.lastSeq then task
      else
        { task with
          lastSeq := chunk.seq
          phase := .pushing (itemsOf task.hasStream [chunk.chunk]) none }
    | .exited seq exitCode sandboxDenied =>
      if seq ≤ task.lastSeq then task
      else
        let denied := task.state.sandboxDenied || sandboxDenied.getD false
        { task with
          lastSeq := seq
          state := { task.state with sandboxDenied := denied }.exited (some exitCode) }
    | .closed seq => if seq ≤ task.lastSeq then task else task.finish true
    | .failed message => task.fail message

/-- A read was answered: its chunks are to be pushed. -/
def catchUp (task : OutputTask) (response : ReadResponse) : OutputTask :=
  let chunks := (response.chunks.filter (task.lastSeq < ·.seq)).map ProcessOutputChunk.chunk
  { task with phase := .pushing (itemsOf task.hasStream chunks) (some response) }

/-- The loop behind the pushes. -/
def conclude (task : OutputTask) : Option ReadResponse → OutputTask
  | none => { task with phase := .receiving }
  | some response =>
    let caught : OutputTask :=
      { task with lastSeq := max task.lastSeq (response.nextSeq - 1), phase := .receiving }
    match response.failure with
    | some message => caught.fail message
    | none =>
      let denied := { caught.state with
        sandboxDenied := caught.state.sandboxDenied || response.sandboxDenied }
      let known : OutputTask :=
        if response.sandboxDenied || response.exited then
          { caught with state := if response.exited then denied.exited response.exitCode else denied }
        else caught
      if response.closed then known.finish true else known

/-- Hand one chunk to one place. -/
def deliver (task : OutputTask) (sink : Sink) (bytes : Bytes) : Sink → List Bytes :=
  fun other => if other = sink then task.pushed other ++ [bytes] else task.pushed other

/-- Is this an event of the process? An exit may come without its flag. -/
def Occurred (process : RunningProcess) : ExecProcessEvent → Prop
  | .exited seq exitCode none => ∃ denied, .exited seq exitCode denied ∈ process.events
  | .failed _ => True
  | event => event ∈ process.events

instance (process : RunningProcess) : ∀ event, Decidable (Occurred process event)
  | .exited seq exitCode none =>
    decidable_of_iff (∃ event ∈ process.events, ∃ denied ∈ [none, some false, some true],
      event = .exited seq exitCode denied) <| by
        constructor
        · rintro ⟨_, hmem, denied, -, rfl⟩
          exact ⟨denied, hmem⟩
        · rintro ⟨denied, hmem⟩
          refine ⟨_, hmem, denied, ?_, rfl⟩
          match denied with
          | none | some false | some true => simp
  | .exited seq exitCode (some denied) =>
    inferInstanceAs (Decidable (ExecProcessEvent.exited seq exitCode (some denied) ∈ process.events))
  | .failed _ => isTrue trivial
  | .output chunk => inferInstanceAs (Decidable (ExecProcessEvent.output chunk ∈ process.events))
  | .closed seq => inferInstanceAs (Decidable (ExecProcessEvent.closed seq ∈ process.events))

/-- One step. A read is answered by the process as it is then. -/
def step (task : OutputTask) : TaskEvent → Option OutputTask
  | .process event => (task.process.step event).map fun process => { task with process := process }
  | .recv event =>
    match task.phase with
    | .receiving => if Occurred task.process event then some (task.receive event) else none
    | _ => none
  | .lagged =>
    match task.phase with
    | .receiving => some { task with phase := .reading }
    | _ => none
  | .streamClosed =>
    match task.phase with
    | .receiving => some (task.fail "exec-server process event stream closed".toList)
    | _ => none
  | .read failure =>
    match task.phase with
    | .reading =>
      some (task.catchUp { task.process.execRead task.lastSeq none with failure := failure })
    | _ => none
  | .readFailed message =>
    match task.phase with
    | .reading => some (task.fail message)
    | _ => none
  | .push =>
    match task.phase with
    | .pushing ((sink, bytes) :: items) response =>
      some { task with pushed := task.deliver sink bytes, phase := .pushing items response }
    | .pushing [] response => some (task.conclude response)
    | _ => none

/-- A read misses no output behind the last number. -/
def ReadsAll (task : OutputTask) : TaskEvent → Prop
  | .read _ => task.process.Retains task.lastSeq
  | _ => True

instance (task : OutputTask) : ∀ event, Decidable (ReadsAll task event)
  | .read _ => inferInstanceAs (Decidable (task.process.Retains task.lastSeq))
  | .process _ | .recv _ | .lagged | .streamClosed | .readFailed _ | .push => isTrue trivial

/-! ## Outputs up to a number -/

/-- The chunks of the outputs up to a number. -/
def upTo (events : List ExecProcessEvent) (last : Nat) : List Bytes :=
  ((outputsOf events).filter (·.seq ≤ last)).map ProcessOutputChunk.chunk

section

variable {events : List ExecProcessEvent} {event : ExecProcessEvent} {last : Nat}

theorem upTo_eq_take (h : Numbered events) (last : Nat) :
    upTo events last = (outputsOf (events.take last)).map chunk := by
  unfold upTo
  rw [h.outputs_le]

theorem upTo_all (h : Numbered events) (hlast : events.length ≤ last) :
    upTo events last = (outputsOf events).map chunk := by
  rw [upTo_eq_take h, take_of_length_le hlast]

theorem upTo_concat (h : Numbered (events ++ [event])) (hlast : last ≤ events.length) :
    upTo (events ++ [event]) last = upTo events last := by
  rw [upTo_eq_take h, upTo_eq_take h.init, take_append_of_le_length hlast]

theorem upTo_succ (h : Numbered events) (hmem : event ∈ events) (hseq : event.seq = some (last + 1)) :
    upTo events (last + 1) = upTo events last ++ event.chunk?.toList.map chunk := by
  obtain ⟨-, hthere⟩ := h.getElem? hmem hseq
  rw [Nat.add_sub_cancel] at hthere
  rw [upTo_eq_take h, upTo_eq_take h, take_add_one, hthere, Option.toList_some, outputsOf_concat,
    map_append]

theorem upTo_append_later (h : Numbered events) (last : Nat) : upTo events last ++
        ((outputsOf events).filter (last < ·.seq)).map chunk =
      (outputsOf events).map chunk := by
  rw [upTo_eq_take h, h.outputs_gt, ← map_append, ← outputsOf_append, take_append_drop]

theorem upTo_isPrefix (h : Numbered events) (last : Nat) :
    upTo events last <+: (outputsOf events).map chunk :=
  ⟨_, upTo_append_later h last⟩

end

/-! ## What the task has handed on -/

/-- The chunks of some pushes that go to a place. -/
def itemsFor (sink : Sink) (items : List (Sink × Bytes)) : List Bytes :=
  (items.filter (·.1 = sink)).map Prod.snd

theorem itemsFor_itemsOf {hasStream : Bool} {sink : Sink}
    (hsink : sink = .stream → hasStream = true) (chunks : List Bytes) :
    itemsFor sink (itemsOf hasStream chunks) = chunks := by
  induction chunks with
  | nil => rfl
  | cons bytes chunks ih =>
    have hcons : itemsOf hasStream (bytes :: chunks) = itemsOf hasStream [bytes] ++
        itemsOf hasStream chunks := by
      unfold itemsOf
      rw [flatMap_cons, flatMap_singleton]
    have hone : itemsFor sink (itemsOf hasStream [bytes]) = [bytes] := by
      cases sink with
      | stream =>
        rw [hsink rfl]
        rfl
      | buffer => cases hasStream <;> rfl
      | broadcast => cases hasStream <;> rfl
    unfold itemsFor at ih hone ⊢
    rw [hcons, filter_append, map_append, hone, ih]
    rfl

/-- What a place has, and what is still to be pushed to it, is the output up to the last number; behind a
read, the output up to the answer's number. When the task has ended with the close it is all. -/
def Exact (task : OutputTask) (sink : Sink) : Prop :=
  match task.phase with
  | .receiving | .reading | .ended false =>
    task.pushed sink = upTo task.process.events task.lastSeq
  | .pushing items none =>
    task.pushed sink ++ itemsFor sink items = upTo task.process.events task.lastSeq
  | .pushing items (some response) =>
    task.pushed sink ++ itemsFor sink items = upTo task.process.events (response.nextSeq - 1)
  | .ended true =>
    task.pushed sink = (outputsOf task.process.events).map ProcessOutputChunk.chunk

/-- What the task knows of the process. -/
def Informed (task : OutputTask) : Prop :=
  match task.phase with
  | .pushing _ (some response) =>
    task.lastSeq ≤ response.nextSeq - 1 ∧ response.nextSeq - 1 ≤ task.process.events.length ∧
      (response.closed = true → task.process.closed = true ∧
        response.nextSeq - 1 = task.process.events.length)
  | .ended true => task.process.closed = true
  | _ => True

/-- The task and the process it follows. -/
structure Faithful (task : OutputTask) : Prop where
  traced : task.process.Traced
  bound : task.lastSeq ≤ task.process.events.length
  informed : Informed task
  exact : ∀ sink, task.hasSink sink → Exact task sink

/-- The task is between two turns of its loop, or it has failed. -/
def AtHead (phase : TaskPhase) : Prop :=
  phase = .receiving ∨ phase = .reading ∨ phase = .ended false

section

variable {task : OutputTask} {sink : Sink} {response : ReadResponse} {event : ExecProcessEvent}

theorem exact_head (hhead : AtHead task.phase) :
    Exact task sink ↔ task.pushed sink = upTo task.process.events task.lastSeq := by
  unfold Exact
  obtain hphase | hphase | hphase := hhead <;> rw [hphase]

theorem Faithful.of_head (htraced : task.process.Traced)
    (hbound : task.lastSeq ≤ task.process.events.length) (hhead : AtHead task.phase)
    (hpushed : ∀ sink, task.hasSink sink →
      task.pushed sink = upTo task.process.events task.lastSeq) : Faithful task := by
  refine ⟨htraced, hbound, ?_, fun sink hsink => (exact_head hhead).mpr (hpushed sink hsink)⟩
  unfold Informed
  obtain hphase | hphase | hphase := hhead <;> rw [hphase] <;> trivial

section

variable (h : Faithful task)
include h

theorem Faithful.pushed_head (hhead : AtHead task.phase) (hsink : task.hasSink sink) :
    task.pushed sink = upTo task.process.events task.lastSeq :=
  (exact_head hhead).mp (h.exact sink hsink)

theorem Faithful.idle {phase : TaskPhase} {state : ProcessState} {outputClosed : Bool}
    (hhead : AtHead task.phase) (hphase : AtHead phase) :
    Faithful { task with phase := phase, state := state, outputClosed := outputClosed } :=
  Faithful.of_head h.traced h.bound hphase fun _ hsink => h.pushed_head hhead hsink

theorem Faithful.fail (hhead : AtHead task.phase) (message : Text) : Faithful (task.fail message) :=
  h.idle hhead (.inr (.inr rfl))

/-! ## Steps -/

theorem Faithful.process {event : ProcessEvent} {next : RunningProcess}
    (hstep : task.process.step event = some next) : Faithful { task with process := next } := by
  have htraced := h.traced.step hstep
  obtain ⟨hevents, hclosed⟩ | ⟨hopen, published, hevents⟩ := h.traced.step_events hstep
  · obtain ⟨-, hbound, hinformed, hexact⟩ := h
    refine ⟨htraced, hevents.symm ▸ hbound, ?_, fun sink hsink => ?_⟩
    · unfold Informed at hinformed ⊢
      dsimp only at hinformed ⊢
      rw [hevents]
      split at hinformed
      next => exact ⟨hinformed.1, hinformed.2.1, fun hdone =>
        ⟨hclosed (hinformed.2.2 hdone).1, (hinformed.2.2 hdone).2⟩⟩
      next => exact hclosed hinformed
      next => trivial
    · have hold := hexact sink hsink
      unfold Exact at hold ⊢
      dsimp only at hold ⊢
      rw [hevents]
      exact hold
  · have hnumbered := htraced.numbered
    rw [hevents] at hnumbered
    have hlength : next.events.length = task.process.events.length + 1 := by
      rw [hevents, length_append]
      rfl
    obtain ⟨-, hbound, hinformed, hexact⟩ := h
    refine ⟨htraced, by show task.lastSeq ≤ next.events.length; omega, ?_, fun sink hsink => ?_⟩
    · unfold Informed at hinformed ⊢
      dsimp only at hinformed ⊢
      split at hinformed
      next =>
        refine ⟨hinformed.1, by omega, fun hdone => ?_⟩
        rw [hopen] at hinformed
        cases (hinformed.2.2 hdone).1
      next =>
        rw [hopen] at hinformed
        cases hinformed
      next => trivial
    · have hold := hexact sink hsink
      unfold Exact at hold ⊢
      unfold Informed at hinformed
      dsimp only at hold hinformed ⊢
      rw [hevents]
      cases hphase : task.phase with
      | receiving | reading =>
        rw [hphase] at hold
        rw [upTo_concat hnumbered hbound]
        exact hold
      | pushing items answer =>
        rw [hphase] at hold hinformed
        cases answer with
        | none =>
          rw [upTo_concat hnumbered hbound]
          exact hold
        | some response =>
          show _ = upTo _ (response.nextSeq - 1)
          rw [upTo_concat hnumbered hinformed.2.1]
          exact hold
      | ended closed =>
        rw [hphase] at hold hinformed
        cases closed with
        | false =>
          rw [upTo_concat hnumbered hbound]
          exact hold
        | true =>
          rw [hopen] at hinformed
          cases hinformed

theorem Faithful.next (hhead : AtHead task.phase) (hmem : event ∈ task.process.events)
    (hseq : event.seq = some (task.lastSeq + 1)) :
    task.lastSeq + 1 ≤ task.process.events.length ∧ ∀ sink, task.hasSink sink →
      task.pushed sink ++ event.chunk?.toList.map chunk =
        upTo task.process.events (task.lastSeq + 1) := by
  constructor
  · obtain ⟨-, hthere⟩ := h.traced.numbered.getElem? hmem hseq
    exact (List.getElem?_eq_some_iff.mp hthere).1
  · intro sink hsink
    rw [upTo_succ h.traced.numbered hmem hseq, h.pushed_head hhead hsink]

theorem Faithful.receive (hphase : task.phase = .receiving)
    (hoccurred : Occurred task.process event) : Faithful (task.receive event) := by
  have hhead : AtHead task.phase := .inl hphase
  unfold OutputTask.receive
  split
  next => exact h.idle hhead (.inr (.inl rfl))
  next hlive =>
    rw [Bool.not_eq_true, Bool.or_eq_false_iff] at hlive
    obtain ⟨hgap, hdenial⟩ := hlive
    cases event with
    | output chunk =>
      have hgap : ¬ task.lastSeq + 1 < chunk.seq := of_decide_eq_false hgap
      dsimp only
      split
      next => exact h
      next hnew =>
        have hseq : chunk.seq = task.lastSeq + 1 := by omega
        obtain ⟨hbound, hpushed⟩ := h.next hhead hoccurred (congrArg some hseq)
        refine ⟨h.traced, hseq.symm ▸ hbound, trivial, fun sink hsink => ?_⟩
        show task.pushed sink ++ itemsFor sink (itemsOf _ [chunk.chunk]) = upTo _ chunk.seq
        rw [itemsFor_itemsOf hsink, hseq]
        exact hpushed sink hsink
    | exited seq exitCode sandboxDenied =>
      have hgap : ¬ task.lastSeq + 1 < seq := of_decide_eq_false hgap
      dsimp only
      split
      next => exact h
      next hnew =>
        have hseq : seq = task.lastSeq + 1 := by omega
        cases sandboxDenied with
        | none => cases hdenial
        | some denied =>
          obtain ⟨hbound, hpushed⟩ := h.next hhead hoccurred (congrArg some hseq)
          refine Faithful.of_head h.traced (hseq.symm ▸ hbound) hhead fun sink hsink => ?_
          show task.pushed sink = upTo _ seq
          rw [hseq, ← hpushed sink hsink]
          exact (append_nil _).symm
    | closed seq =>
      have hgap : ¬ task.lastSeq + 1 < seq := of_decide_eq_false hgap
      dsimp only
      split
      next => exact h
      next hnew =>
        have hseq : seq = task.lastSeq + 1 := by omega
        obtain ⟨-, hpushed⟩ := h.next hhead hoccurred (congrArg some hseq)
        obtain ⟨hclosed, hlength⟩ := h.traced.closed_seq hoccurred
        refine ⟨h.traced, h.bound, hclosed, fun sink hsink => ?_⟩
        show task.pushed sink = (outputsOf task.process.events).map _
        rw [← upTo_all h.traced.numbered hlength.ge, hseq, ← hpushed sink hsink]
        exact (append_nil _).symm
    | failed message => exact h.fail hhead message

theorem Faithful.catchUp (hphase : task.phase = .reading)
    (hretains : task.process.Retains task.lastSeq) (failure : Option Text) :
    Faithful
      (task.catchUp { task.process.execRead task.lastSeq none with failure := failure }) := by
  rw [h.traced.execRead_chunks]
  have hnext : task.process.nextSeq - 1 = task.process.events.length := by
    rw [h.traced.next]
    rfl
  refine ⟨h.traced, h.bound, ⟨?_, ?_, fun hclosed => ⟨hclosed, hnext⟩⟩, fun sink hsink => ?_⟩
  · show task.lastSeq ≤ task.process.nextSeq - 1
    rw [hnext]
    exact h.bound
  · exact le_of_eq hnext
  · have hsink : task.hasSink sink := hsink
    show task.pushed sink ++ itemsFor sink (itemsOf task.hasStream
      (((task.process.output.filter (task.lastSeq < ·.seq)).filter (task.lastSeq < ·.seq)).map _)) =
        upTo task.process.events (task.process.nextSeq - 1)
    rw [itemsFor_itemsOf hsink, hnext, upTo_all h.traced.numbered (le_refl _),
      h.pushed_head (.inr (.inl hphase)) hsink, ← upTo_append_later h.traced.numbered task.lastSeq,
      filter_filter]
    simp only [Bool.and_self]
    rw [h.traced.filter_eq hretains]

end

theorem deliver_itemsFor (task : OutputTask) (sink other : Sink) (bytes : Bytes)
    (items : List (Sink × Bytes)) :
    task.deliver other bytes sink ++ itemsFor sink items =
      task.pushed sink ++ itemsFor sink ((other, bytes) :: items) := by
  unfold deliver itemsFor
  by_cases hsame : sink = other
  · subst hsame
    rw [if_pos rfl, filter_cons, if_pos (decide_eq_true rfl), append_assoc]
    rfl
  · have hother : ¬ decide (other = sink) = true := fun heq => hsame (of_decide_eq_true heq).symm
    rw [if_neg hsame, filter_cons, if_neg hother]

theorem Faithful.push {other : Sink} {bytes : Bytes} {items : List (Sink × Bytes)}
    {answer : Option ReadResponse} (h : Faithful task)
    (hphase : task.phase = .pushing ((other, bytes) :: items) answer) :
    Faithful { task with pushed := task.deliver other bytes, phase := .pushing items answer } := by
  obtain ⟨htraced, hbound, hinformed, hexact⟩ := h
  refine ⟨htraced, hbound, ?_, fun sink hsink => ?_⟩
  · unfold Informed at hinformed ⊢
    rw [hphase] at hinformed
    cases answer <;> exact hinformed
  · have hold := hexact sink hsink
    unfold Exact at hold ⊢
    rw [hphase] at hold
    cases answer <;> exact (deliver_itemsFor task sink other bytes items).trans hold

theorem Faithful.conclude {answer : Option ReadResponse} (h : Faithful task)
    (hphase : task.phase = .pushing [] answer) : Faithful (task.conclude answer) := by
  obtain ⟨htraced, hbound, hinformed, hexact⟩ := h
  unfold Informed at hinformed
  unfold Exact at hexact
  rw [hphase] at hinformed hexact
  cases answer with
  | none =>
    refine Faithful.of_head htraced hbound (.inl rfl) fun sink hsink => ?_
    exact (append_nil _).symm.trans (hexact sink hsink)
  | some response =>
    obtain ⟨hle, hlength, hclosed⟩ := hinformed
    have hmax : max task.lastSeq (response.nextSeq - 1) = response.nextSeq - 1 := max_eq_right hle
    have hcaught : ∀ state, Faithful { task with
        lastSeq := max task.lastSeq (response.nextSeq - 1), phase := .receiving, state := state } := by
      intro state
      rw [hmax]
      refine Faithful.of_head htraced hlength (.inl rfl) fun sink hsink => ?_
      exact (append_nil _).symm.trans (hexact sink hsink)
    have hdone : ∀ state, response.closed = true → Faithful (finish { task with
        lastSeq := max task.lastSeq (response.nextSeq - 1), phase := .receiving, state := state }
        true) := by
      intro state hend
      refine ⟨htraced, (hcaught state).bound, (hclosed hend).1, fun sink hsink => ?_⟩
      show task.pushed sink = (outputsOf task.process.events).map _
      rw [← upTo_all htraced.numbered (hclosed hend).2.symm.le,
        ← (hexact sink hsink : task.pushed sink ++ itemsFor sink [] = _)]
      exact (append_nil _).symm
    unfold OutputTask.conclude
    dsimp only
    split
    next message _ => exact (hcaught task.state).fail (.inl rfl) message
    next =>
      split
      next hend =>
        split
        · exact hdone _ hend
        · exact hdone task.state hend
      next =>
        split
        · exact hcaught _
        · exact hcaught task.state

theorem Faithful.step {event : TaskEvent} {next : OutputTask} (h : Faithful task)
    (hreads : ReadsAll task event) (hstep : task.step event = some next) : Faithful next := by
  cases event with
  | process event =>
    obtain ⟨process, hprocess, rfl⟩ := Option.map_eq_some_iff.mp hstep
    exact h.process hprocess
  | recv event =>
    simp only [OutputTask.step] at hstep
    split at hstep
    next hphase =>
      obtain ⟨hoccurred, ⟨⟩⟩ := Option.ite_none_right_eq_some.mp hstep
      exact h.receive hphase hoccurred
    next => cases hstep
  | lagged =>
    simp only [OutputTask.step] at hstep
    split at hstep
    next hphase =>
      cases hstep
      exact h.idle (.inl hphase) (.inr (.inl rfl))
    next => cases hstep
  | streamClosed =>
    simp only [OutputTask.step] at hstep
    split at hstep
    next hphase =>
      cases hstep
      exact h.fail (.inl hphase) _
    next => cases hstep
  | read failure =>
    simp only [OutputTask.step] at hstep
    split at hstep
    next hphase =>
      cases hstep
      exact h.catchUp hphase hreads failure
    next => cases hstep
  | readFailed message =>
    simp only [OutputTask.step] at hstep
    split at hstep
    next hphase =>
      cases hstep
      exact h.fail (.inr (.inl hphase)) message
    next => cases hstep
  | push =>
    simp only [OutputTask.step] at hstep
    split at hstep
    next hphase =>
      cases hstep
      exact h.push hphase
    next hphase =>
      cases hstep
      exact h.conclude hphase
    next => cases hstep

theorem faithful_start (sandboxed hasStream : Bool) :
    Faithful (start (RunningProcess.start sandboxed) hasStream) :=
  Faithful.of_head (traced_start sandboxed) (Nat.zero_le _) (.inl rfl) fun _ _ => rfl

theorem Faithful.isPrefix (h : Faithful task) (hsink : task.hasSink sink) :
    task.pushed sink <+: (outputsOf task.process.events).map chunk := by
  have hexact := h.exact sink hsink
  have hpart := fun last => upTo_isPrefix h.traced.numbered last
  unfold Exact at hexact
  split at hexact
  · exact hexact ▸ hpart _
  · exact hexact ▸ hpart _
  · exact hexact ▸ hpart _
  · exact (prefix_append _ _).trans (hexact ▸ hpart _)
  · exact (prefix_append _ _).trans (hexact ▸ hpart _)
  · exact hexact ▸ prefix_rfl

end

/-- **The transcript is exact.** However the events of the process come, and are missed, and are seen again:
when no read misses an output, every place the task hands output to has whole chunks of the output from
its beginning, in order and each once. Between two turns of the loop these are the outputs up to the last
number, and when the task has ended with the close they are all outputs there are. -/
theorem transcript_exact {sandboxed hasStream : Bool} {events : List TaskEvent} {task : OutputTask}
    (hrun : Machine.run step (start (RunningProcess.start sandboxed) hasStream) events = some task)
    (hreads : Machine.Along step ReadsAll (start (RunningProcess.start sandboxed) hasStream) events)
    (sink : Sink) (hsink : task.hasSink sink) :
    task.pushed sink <+: (outputsOf task.process.events).map ProcessOutputChunk.chunk ∧
      (AtHead task.phase → task.pushed sink = upTo task.process.events task.lastSeq) ∧
      (task.phase = .ended true →
        task.pushed sink = (outputsOf task.process.events).map ProcessOutputChunk.chunk) := by
  have hfinal : Faithful task := Machine.run_invariant_along
    (fun _ _ _ h hread hstep => h.step hread hstep) (faithful_start sandboxed hasStream) hreads hrun
  refine ⟨hfinal.isPrefix hsink, fun hhead => hfinal.pushed_head hhead hsink, fun hphase => ?_⟩
  have hexact := hfinal.exact sink hsink
  unfold Exact at hexact
  rw [hphase] at hexact
  exact hexact

/-- A process says two things and ends, while its first event is seen late. -/
def lateFirst : List TaskEvent :=
  [.process (.output .stdout [104]), .process (.output .stdout [105]),
    .recv (.output ⟨2, .stdout, [105]⟩), .read none, .push, .push, .push, .push, .push,
    .recv (.output ⟨1, .stdout, [104]⟩), .process .finishOutputStream, .process .finishOutputStream,
    .process (.exit 0 false), .process .maybeEmitClosed, .recv (.exited 3 0 (some false)),
    .recv (.closed 4)]

theorem transcript_exact_lateFirst : ∃ task,
    Machine.run step (start (RunningProcess.start false) false) lateFirst = some task ∧
      Machine.Along step ReadsAll (start (RunningProcess.start false) false) lateFirst ∧
      task.pushed .buffer = [[104], [105]] := by
  obtain ⟨task, hrun, hphase, hall⟩ : ∃ task,
      Machine.run step (start (RunningProcess.start false) false) lateFirst = some task ∧
        task.phase = .ended true ∧
        (outputsOf task.process.events).map chunk = [[104], [105]] :=
    ⟨_, rfl, rfl, rfl⟩
  refine ⟨task, hrun, ?reads, ?_⟩
  · decide +kernel
  · rw [← hall]
    exact (transcript_exact hrun ?reads .buffer nofun).2.2 hphase

end OutputTask

end NovumAgent.UnifiedExec
