import Mathlib.Algebra.Order.BigOperators.Group.List
import Mathlib.Algebra.Order.Group.Nat
import Mathlib.Data.List.Induction
import NovumAgent.Lib.Run
import NovumAgent.Lib.Utf8

/-!
# A process and its events

The executor numbers what happens to a process: the chunks of output, the exit, and, when the exit has
happened and every output stream has ended, the close. It keeps the newest chunks for `process/read`, up
to a megabyte and fifty thousand of them.

`Traced` says what the state of a process is in terms of all the events it has published: the chunks that are
kept are the newest of all the chunks, and the flags say whether the exit and the close are among the
events. Reads are then about the events (`execRead_chunks`).
-/

namespace NovumAgent.ExecServer

open List

def retainedOutputBytesPerProcess : Nat := 1024 * 1024

def retainedOutputChunksPerProcess : Nat := 50000

inductive ExecOutputStream where
  | stdout
  | stderr
  | pty
deriving DecidableEq

structure ProcessOutputChunk where
  seq : Nat
  stream : ExecOutputStream
  chunk : Bytes
deriving DecidableEq

inductive ExecProcessEvent where
  | output (chunk : ProcessOutputChunk)
  | exited (seq : Nat) (exitCode : Int) (sandboxDenied : Option Bool)
  | closed (seq : Nat)
  | failed (message : Text)
deriving DecidableEq

namespace ExecProcessEvent

def seq : ExecProcessEvent → Option Nat
  | output chunk => some chunk.seq
  | exited seq _ _ => some seq
  | closed seq => some seq
  | failed _ => none

/-- The chunk of an output. -/
def chunk? : ExecProcessEvent → Option ProcessOutputChunk
  | output chunk => some chunk
  | _ => none

/-- Is it an exit? -/
def isExited : ExecProcessEvent → Bool
  | exited _ _ _ => true
  | _ => false

/-- Is it a close? -/
def isClosed : ExecProcessEvent → Bool
  | closed _ => true
  | _ => false

end ExecProcessEvent

/-- The chunks of all the outputs. -/
def outputsOf (events : List ExecProcessEvent) : List ProcessOutputChunk :=
  events.filterMap ExecProcessEvent.chunk?

structure ReadResponse where
  chunks : List ProcessOutputChunk
  nextSeq : Nat
  exited : Bool
  exitCode : Option Int
  closed : Bool
  failure : Option Text
  sandboxDenied : Bool

/-- `RunningProcess`, with all the events it has published. -/
structure RunningProcess where
  output : List ProcessOutputChunk
  retainedBytes : Nat
  nextSeq : Nat
  exitCode : Option Int
  openStreams : Nat
  closed : Bool
  sandboxed : Bool
  sandboxDenied : Bool
  events : List ExecProcessEvent

/-- What happens to a process: a chunk from one of its streams, the end of a stream, the exit with the
verdict whether the sandbox was in the way, and the check whether it is closed. -/
inductive ProcessEvent where
  | output (stream : ExecOutputStream) (chunk : Bytes)
  | finishOutputStream
  | exit (exitCode : Int) (likelyDenied : Bool)
  | maybeEmitClosed

namespace RunningProcess

/-- A process that was just started: two streams. -/
def start (sandboxed : Bool) : RunningProcess := ⟨[], 0, 1, none, 2, false, sandboxed, false, []⟩

/-- The loop that drops the oldest chunks while there are too many or they are too long. -/
def evict : List ProcessOutputChunk → Nat → List ProcessOutputChunk × Nat
  | [], retainedBytes => ([], retainedBytes)
  | evicted :: output, retainedBytes =>
    if retainedOutputBytesPerProcess < retainedBytes ∨
        retainedOutputChunksPerProcess < (evicted :: output).length then
      evict output (retainedBytes - evicted.chunk.length)
    else (evicted :: output, retainedBytes)

/-- The section of `stream_output` for a chunk. -/
def pushOutput (process : RunningProcess) (stream : ExecOutputStream) (chunk : Bytes) :
    RunningProcess :=
  let output : ProcessOutputChunk := ⟨process.nextSeq, stream, chunk⟩
  let kept := evict (process.output ++ [output]) (process.retainedBytes + chunk.length)
  { process with
    output := kept.1
    retainedBytes := kept.2
    nextSeq := process.nextSeq + 1
    events := process.events ++ [.output output] }

/-- The section of `watch_exit` that publishes the exit. -/
def exit (process : RunningProcess) (exitCode : Int) (likelyDenied : Bool) : RunningProcess :=
  let sandboxDenied := if process.sandboxed then likelyDenied else process.sandboxDenied
  { process with
    nextSeq := process.nextSeq + 1
    exitCode := some exitCode
    sandboxDenied := sandboxDenied
    events := process.events ++ [.exited process.nextSeq exitCode (some sandboxDenied)] }

def maybeEmitClosed (process : RunningProcess) : RunningProcess :=
  if process.closed ∨ process.openStreams ≠ 0 ∨ process.exitCode.isNone then process
  else
    { process with
      closed := true
      nextSeq := process.nextSeq + 1
      events := process.events ++ [.closed process.nextSeq] }

/-- One step. A chunk comes from a stream that has not ended, and a process exits once. -/
def step (process : RunningProcess) : ProcessEvent → Option RunningProcess
  | .output stream chunk =>
    if 0 < process.openStreams then some (process.pushOutput stream chunk) else none
  | .finishOutputStream =>
    if 0 < process.openStreams then some { process with openStreams := process.openStreams - 1 }
    else none
  | .exit exitCode likelyDenied =>
    if process.exitCode.isNone then some (process.exit exitCode likelyDenied) else none
  | .maybeEmitClosed => some process.maybeEmitClosed

/-- The loop of `exec_read` over the chunks behind `after_seq`: the chunks that fit, and the number behind
the last of them. -/
def readChunks (maxBytes : Nat) : Nat → List ProcessOutputChunk → Bool →
    List ProcessOutputChunk × Option Nat
  | _, [], _ => ([], none)
  | totalBytes, retained :: later, first =>
    if !first && maxBytes < totalBytes + retained.chunk.length then ([], none)
    else if maxBytes ≤ totalBytes + retained.chunk.length then ([retained], some (retained.seq + 1))
    else
      let (chunks, nextSeq) := readChunks maxBytes (totalBytes + retained.chunk.length) later false
      (retained :: chunks, nextSeq.or (some (retained.seq + 1)))

/-- `exec_read`, at the moment it answers. -/
def execRead (process : RunningProcess) (afterSeq : Nat) (maxBytes : Option Nat) : ReadResponse :=
  let (chunks, behind) := readChunks (maxBytes.getD usizeMax) 0
    (process.output.filter (afterSeq < ·.seq)) true
  let nextSeq := if maxBytes.isNone then process.nextSeq else behind.getD process.nextSeq
  ⟨chunks, nextSeq, process.exitCode.isSome, process.exitCode, process.closed, none,
    process.sandboxDenied⟩

end RunningProcess

/-! ## Numbered events -/

/-- Events under the numbers 1, 2, 3 and so on. -/
def Numbered (events : List ExecProcessEvent) : Prop :=
  ∀ k event, events[k]? = some event → event.seq = some (k + 1)

section

variable {events : List ExecProcessEvent} {event : ExecProcessEvent} {chunk : ProcessOutputChunk}

theorem Numbered.concat (h : Numbered events) (hseq : event.seq = some (events.length + 1)) :
    Numbered (events ++ [event]) := by
  intro k other hother
  rw [getElem?_append] at hother
  split at hother
  next => exact h k other hother
  next hend =>
    rw [getElem?_singleton] at hother
    obtain ⟨hzero, ⟨⟩⟩ := Option.ite_none_right_eq_some.mp hother
    rw [hseq, show k = events.length by omega]

theorem Numbered.init (h : Numbered (events ++ [event])) : Numbered events := by
  intro k other hother
  refine h k other ?_
  rw [List.getElem?_append_left (List.getElem?_eq_some_iff.mp hother).1, hother]

theorem chunk?_eq_some_iff : event.chunk? = some chunk ↔ event = .output chunk := by
  cases event <;> simp [ExecProcessEvent.chunk?]

theorem mem_outputsOf : chunk ∈ outputsOf events ↔ .output chunk ∈ events := by
  unfold outputsOf
  simp only [mem_filterMap, chunk?_eq_some_iff, exists_eq_right]

theorem outputsOf_concat (events : List ExecProcessEvent) (event : ExecProcessEvent) :
    outputsOf (events ++ [event]) = outputsOf events ++ event.chunk?.toList := by
  unfold outputsOf
  rw [filterMap_append]
  cases event <;> rfl

section

variable (h : Numbered events)
include h

variable {seq : Nat}

theorem Numbered.getElem? (hmem : event ∈ events)
    (hseq : event.seq = some seq) : 1 ≤ seq ∧ events[seq - 1]? = some event := by
  obtain ⟨k, hk⟩ := getElem?_of_mem hmem
  have hnumber := h k event hk
  rw [hseq] at hnumber
  cases hnumber
  exact ⟨by omega, hk⟩

theorem Numbered.eq_of_seq {other : ExecProcessEvent}
    (hmem : event ∈ events) (hseq : event.seq = some seq) (hother : other ∈ events)
    (hsame : other.seq = some seq) : event = other := by
  have hthere := (h.getElem? hmem hseq).2
  rw [(h.getElem? hother hsame).2] at hthere
  exact (Option.some.inj hthere).symm

theorem Numbered.exists_event (hpos : 1 ≤ seq)
    (hle : seq ≤ events.length) : ∃ event ∈ events, event.seq = some seq := by
  have hthere : events[seq - 1]? = some events[seq - 1] := getElem?_eq_getElem (by omega)
  refine ⟨_, mem_of_getElem? hthere, ?_⟩
  rw [h _ _ hthere, Nat.sub_add_cancel hpos]

theorem Numbered.seq_le (hmem : event ∈ events)
    (hseq : event.seq = some seq) : 1 ≤ seq ∧ seq ≤ events.length := by
  obtain ⟨hpos, hthere⟩ := h.getElem? hmem hseq
  have hlt := (List.getElem?_eq_some_iff.mp hthere).1
  exact ⟨hpos, by omega⟩

theorem Numbered.mem_take_iff {count : Nat} (hmem : event ∈ events)
    (hseq : event.seq = some seq) : event ∈ events.take count ↔ seq ≤ count := by
  obtain ⟨hpos, hthere⟩ := h.getElem? hmem hseq
  constructor
  · intro hfirst
    obtain ⟨k, hk⟩ := getElem?_of_mem hfirst
    have hlt := (List.getElem?_eq_some_iff.mp hk).1
    rw [length_take] at hlt
    rw [getElem?_take_of_lt (by omega)] at hk
    have hnumber := h k event hk
    rw [hseq] at hnumber
    cases hnumber
    omega
  · intro hle
    refine mem_of_getElem? (i := seq - 1) ?_
    rw [getElem?_take_of_lt (by omega), hthere]

theorem Numbered.outputs_sorted :
    (outputsOf events).Pairwise fun chunk later => chunk.seq < later.seq := by
  rw [outputsOf, pairwise_filterMap, pairwise_iff_getElem]
  intro i j hi hj hlt chunk hchunk later hlater
  have hfirst := h i _ (getElem?_eq_getElem hi)
  have hsecond := h j _ (getElem?_eq_getElem hj)
  rw [chunk?_eq_some_iff.mp hchunk] at hfirst
  rw [chunk?_eq_some_iff.mp hlater] at hsecond
  have hfirst : chunk.seq = i + 1 := Option.some.inj hfirst
  have hsecond : later.seq = j + 1 := Option.some.inj hsecond
  omega

end

theorem outputsOf_append (events others : List ExecProcessEvent) :
    outputsOf (events ++ others) = outputsOf events ++ outputsOf others := filterMap_append

theorem Numbered.seq_take_drop (h : Numbered events) (last : Nat) :
    (∀ chunk ∈ outputsOf (events.take last), chunk.seq ≤ last) ∧
      ∀ chunk ∈ outputsOf (events.drop last), last < chunk.seq := by
  constructor
  · intro chunk hchunk
    have hfirst := mem_outputsOf.mp hchunk
    exact (h.mem_take_iff (mem_of_mem_take hfirst) rfl).mp hfirst
  · intro chunk hchunk
    obtain ⟨k, hk⟩ := getElem?_of_mem (mem_outputsOf.mp hchunk)
    rw [getElem?_drop] at hk
    have hseq : chunk.seq = last + k + 1 := Option.some.inj (h _ _ hk)
    omega

theorem Numbered.outputs_le (h : Numbered events) (last : Nat) :
    (outputsOf events).filter (·.seq ≤ last) = outputsOf (events.take last) := by
  obtain ⟨hlow, hhigh⟩ := h.seq_take_drop last
  conv_lhs => rw [← take_append_drop last events, outputsOf_append, filter_append]
  rw [filter_eq_self.mpr fun chunk hmem => decide_eq_true (hlow chunk hmem),
    filter_eq_nil_iff.mpr fun chunk hmem hle =>
      not_le.mpr (hhigh chunk hmem) (of_decide_eq_true hle), append_nil]

theorem Numbered.outputs_gt (h : Numbered events) (last : Nat) :
    (outputsOf events).filter (last < ·.seq) = outputsOf (events.drop last) := by
  obtain ⟨hlow, hhigh⟩ := h.seq_take_drop last
  conv_lhs => rw [← take_append_drop last events, outputsOf_append, filter_append]
  rw [filter_eq_self.mpr fun chunk hmem => decide_eq_true (hhigh chunk hmem),
    filter_eq_nil_iff.mpr fun chunk hmem hlt =>
      not_le.mpr (of_decide_eq_true hlt) (hlow chunk hmem), nil_append]

end

/-! ## Processes -/

namespace RunningProcess

/-- A process and the events it has published. -/
structure Traced (process : RunningProcess) : Prop where
  numbered : Numbered process.events
  next : process.nextSeq = process.events.length + 1
  newest : process.output <:+ outputsOf process.events
  bytes : process.retainedBytes = (process.output.map (·.chunk.length)).sum
  within : process.retainedBytes ≤ retainedOutputBytesPerProcess
  running : process.exitCode = none → ∀ event ∈ process.events, event.isExited = false
  exited : ∀ exitCode, process.exitCode = some exitCode → ∃ seq,
    process.events.filter ExecProcessEvent.isExited =
      [.exited seq exitCode (some process.sandboxDenied)]
  opened : process.closed = false → ∀ event ∈ process.events, event.isClosed = false
  ended : process.closed = true → process.openStreams = 0 ∧ process.exitCode.isSome = true ∧
    ∃ before, process.events = before ++ [.closed (before.length + 1)] ∧
      ∀ event ∈ before, event.isClosed = false

variable {process next : RunningProcess}

theorem traced_start (sandboxed : Bool) : Traced (start sandboxed) where
  numbered := nofun
  next := rfl
  newest := suffix_rfl
  bytes := rfl
  within := Nat.zero_le _
  running := fun _ _ hmem => absurd hmem not_mem_nil
  exited := nofun
  opened := fun _ _ hmem => absurd hmem not_mem_nil
  ended := nofun

theorem evict_spec (output : List ProcessOutputChunk) {retainedBytes : Nat}
    (hbytes : retainedBytes = (output.map (·.chunk.length)).sum) :
    (evict output retainedBytes).1 <:+ output ∧
      (evict output retainedBytes).2 = ((evict output retainedBytes).1.map (·.chunk.length)).sum ∧
      (evict output retainedBytes).2 ≤ retainedOutputBytesPerProcess := by
  induction output generalizing retainedBytes with
  | nil =>
    subst hbytes
    exact ⟨suffix_rfl, rfl, Nat.zero_le _⟩
  | cons evicted output ih =>
    unfold evict
    rw [map_cons, sum_cons] at hbytes
    split
    next =>
      obtain ⟨hnewest, hsum, hbound⟩ := ih (show retainedBytes - evicted.chunk.length = _ by omega)
      exact ⟨hnewest.trans (suffix_cons _ _), hsum, hbound⟩
    next hfits =>
      refine ⟨suffix_rfl, ?_, by omega⟩
      rw [map_cons, sum_cons]
      exact hbytes

section

variable (h : Traced process)
include h

section

variable (event : ExecProcessEvent)

/-! What a process keeps of its events when one more is published. -/

theorem Traced.next_concat : process.nextSeq + 1 = (process.events ++ [event]).length + 1 := by
  rw [h.next, length_append]
  rfl

variable {event}

theorem Traced.newest_concat (hother : event.chunk? = none) :
    process.output <:+ outputsOf (process.events ++ [event]) := by
  rw [outputsOf_concat, hother, Option.toList_none, append_nil]
  exact h.newest

theorem Traced.running_concat (hother : event.isExited = false) (hnone : process.exitCode = none) :
    ∀ other ∈ process.events ++ [event], other.isExited = false :=
  forall_mem_append.mpr ⟨h.running hnone, forall_mem_singleton.mpr hother⟩

theorem Traced.exited_concat (hother : event.isExited = false) {exitCode : Int}
    (hexit : process.exitCode = some exitCode) : ∃ seq,
    (process.events ++ [event]).filter ExecProcessEvent.isExited =
      [.exited seq exitCode (some process.sandboxDenied)] := by
  obtain ⟨seq, hfilter⟩ := h.exited exitCode hexit
  exact ⟨seq, by rw [filter_append, hfilter, filter_singleton, hother]; rfl⟩

theorem Traced.opened_concat (hother : event.isClosed = false) (hopen : process.closed = false) :
    ∀ other ∈ process.events ++ [event], other.isClosed = false :=
  forall_mem_append.mpr ⟨h.opened hopen, forall_mem_singleton.mpr hother⟩

end

theorem Traced.pushOutput (hopen : 0 < process.openStreams)
    (stream : ExecOutputStream) (chunk : Bytes) : Traced (process.pushOutput stream chunk) := by
  let output : ProcessOutputChunk := ⟨process.nextSeq, stream, chunk⟩
  have hsum : process.retainedBytes + chunk.length =
      ((process.output ++ [output]).map (·.chunk.length)).sum := by
    rw [map_append, sum_append, h.bytes]
    rfl
  obtain ⟨hnewest, hbytes, hbound⟩ := evict_spec _ hsum
  refine ⟨h.numbered.concat (congrArg some h.next), h.next_concat _, ?_, hbytes, hbound,
    h.running_concat rfl, fun _ => h.exited_concat rfl, h.opened_concat rfl, ?_⟩
  · refine hnewest.trans ?_
    show _ <:+ outputsOf (process.events ++ [_])
    rw [outputsOf_concat]
    obtain ⟨older, holder⟩ := h.newest
    refine ⟨older, ?_⟩
    rw [← append_assoc, holder]
    rfl
  · intro hclosed
    exact absurd (h.ended hclosed).1 (ne_of_gt hopen)

theorem Traced.exit (hnone : process.exitCode = none) (exitCode : Int)
    (likelyDenied : Bool) : Traced (process.exit exitCode likelyDenied) := by
  refine ⟨h.numbered.concat (congrArg some h.next), h.next_concat _, h.newest_concat rfl, h.bytes,
    h.within, nofun, ?_, h.opened_concat rfl, ?_⟩
  · intro code hcode
    cases hcode
    refine ⟨process.nextSeq, ?_⟩
    show (process.events ++ [_]).filter _ = _
    rw [filter_append, filter_eq_nil_iff.mpr fun event hmem => by
      rw [h.running hnone event hmem]
      exact Bool.false_ne_true]
    rfl
  · intro hclosed
    have hexited := (h.ended hclosed).2.1
    rw [hnone] at hexited
    cases hexited

theorem Traced.maybeEmitClosed : Traced process.maybeEmitClosed := by
  unfold RunningProcess.maybeEmitClosed
  split
  next => exact h
  next hready =>
    push Not at hready
    obtain ⟨hopen, hstreams, hexited⟩ := hready
    have hopen : process.closed = false := (Bool.not_eq_true _).mp hopen
    have hexited : process.exitCode.isSome = true := by
      cases hcode : process.exitCode with
      | none =>
        rw [hcode] at hexited
        exact absurd rfl hexited
      | some exitCode => rfl
    refine ⟨h.numbered.concat (congrArg some h.next), h.next_concat _, h.newest_concat rfl, h.bytes,
      h.within, h.running_concat rfl, fun _ => h.exited_concat rfl, nofun,
      fun _ => ⟨hstreams, hexited, process.events, ?_, h.opened hopen⟩⟩
    show process.events ++ [.closed process.nextSeq] = _
    rw [h.next]

/-- **Every step** of a process keeps what its events say. -/
theorem Traced.step {event : ProcessEvent}
    (hstep : process.step event = some next) : Traced next := by
  cases event with
  | output stream chunk =>
    obtain ⟨hopen, ⟨⟩⟩ := Option.ite_none_right_eq_some.mp hstep
    exact h.pushOutput hopen stream chunk
  | finishOutputStream =>
    obtain ⟨hopen, ⟨⟩⟩ := Option.ite_none_right_eq_some.mp hstep
    refine { h with ended := fun hclosed => ?_ }
    exact absurd (h.ended hclosed).1 (ne_of_gt hopen)
  | exit exitCode likelyDenied =>
    obtain ⟨hnone, ⟨⟩⟩ := Option.ite_none_right_eq_some.mp hstep
    exact h.exit (Option.isNone_iff_eq_none.mp hnone) exitCode likelyDenied
  | maybeEmitClosed =>
    cases hstep
    exact h.maybeEmitClosed

theorem Traced.step_events {event : ProcessEvent} (hstep : process.step event = some next) :
    (next.events = process.events ∧ (process.closed = true → next.closed = true)) ∨
      (process.closed = false ∧ ∃ published, next.events = process.events ++ [published]) := by
  have hopen : process.openStreams ≠ 0 ∨ process.exitCode = none → process.closed = false := by
    intro hlive
    by_contra hclosed
    obtain ⟨hstreams, hexited, -⟩ := h.ended ((Bool.not_eq_false _).mp hclosed)
    obtain hstreams' | hnone := hlive
    · exact hstreams' hstreams
    · rw [hnone] at hexited
      cases hexited
  cases event with
  | output stream chunk =>
    obtain ⟨hlive, ⟨⟩⟩ := Option.ite_none_right_eq_some.mp hstep
    exact .inr ⟨hopen (.inl (ne_of_gt hlive)), _, rfl⟩
  | finishOutputStream =>
    obtain ⟨-, ⟨⟩⟩ := Option.ite_none_right_eq_some.mp hstep
    exact .inl ⟨rfl, id⟩
  | exit exitCode likelyDenied =>
    obtain ⟨hnone, ⟨⟩⟩ := Option.ite_none_right_eq_some.mp hstep
    exact .inr ⟨hopen (.inr (Option.isNone_iff_eq_none.mp hnone)), _, rfl⟩
  | maybeEmitClosed =>
    cases hstep
    unfold RunningProcess.maybeEmitClosed
    split
    next => exact .inl ⟨rfl, id⟩
    next hready =>
      push Not at hready
      exact .inr ⟨(Bool.not_eq_true _).mp hready.1, _, rfl⟩

theorem Traced.exited_eq {event : ExecProcessEvent}
    (hmem : event ∈ process.events) (hexit : event.isExited = true) :
    ∃ seq exitCode, process.exitCode = some exitCode ∧
      event = .exited seq exitCode (some process.sandboxDenied) := by
  cases hcode : process.exitCode with
  | none =>
    rw [h.running hcode event hmem] at hexit
    cases hexit
  | some exitCode =>
    obtain ⟨seq, hfilter⟩ := h.exited exitCode hcode
    have hthere := mem_filter.mpr ⟨hmem, hexit⟩
    rw [hfilter] at hthere
    exact ⟨seq, exitCode, rfl, mem_singleton.mp hthere⟩

theorem Traced.exists_exited (hexit : process.exitCode.isSome = true) :
    ∃ event ∈ process.events, event.isExited = true := by
  obtain ⟨exitCode, hcode⟩ := Option.isSome_iff_exists.mp hexit
  obtain ⟨seq, hfilter⟩ := h.exited exitCode hcode
  refine ⟨_, mem_of_mem_filter (hfilter ▸ mem_singleton_self _), rfl⟩

theorem Traced.exited_unique {event other : ExecProcessEvent}
    (hmem : event ∈ process.events) (hexit : event.isExited = true)
    (hother : other ∈ process.events) (hexit' : other.isExited = true) : event = other := by
  obtain ⟨seq, exitCode, hcode, -⟩ := h.exited_eq hmem hexit
  obtain ⟨number, hfilter⟩ := h.exited exitCode hcode
  have hthere := mem_filter.mpr ⟨hmem, hexit⟩
  have hthere' := mem_filter.mpr ⟨hother, hexit'⟩
  rw [hfilter] at hthere hthere'
  exact (mem_singleton.mp hthere).trans (mem_singleton.mp hthere').symm

theorem Traced.closed_seq (hmem : .closed seq ∈ process.events) :
    process.closed = true ∧ seq = process.events.length := by
  have hclosed : process.closed = true := by
    by_contra hopen
    cases h.opened ((Bool.not_eq_true _).mp hopen) _ hmem
  obtain ⟨-, -, before, hevents, hbefore⟩ := h.ended hclosed
  rw [hevents] at hmem
  obtain hearly | hlast := mem_append.mp hmem
  · cases hbefore _ hearly
  · cases mem_singleton.mp hlast
    refine ⟨hclosed, ?_⟩
    rw [hevents, length_append, length_singleton]

theorem Traced.closed_mem (hclosed : process.closed = true) :
    .closed process.events.length ∈ process.events := by
  obtain ⟨-, -, before, hevents, -⟩ := h.ended hclosed
  have hlength : process.events.length = before.length + 1 := by
    rw [hevents, length_append, length_singleton]
  rw [hlength, hevents]
  exact mem_append_right _ (mem_singleton_self _)

end

/-! ## Reads -/

theorem readChunks_all {maxBytes totalBytes : Nat} {output : List ProcessOutputChunk} {first : Bool}
    (h : totalBytes + (output.map (·.chunk.length)).sum < maxBytes) :
    (readChunks maxBytes totalBytes output first).1 = output := by
  induction output generalizing totalBytes first with
  | nil => rfl
  | cons retained later ih =>
    rw [map_cons, sum_cons] at h
    have hless : ¬ maxBytes ≤ totalBytes + retained.chunk.length := by omega
    have hfits : (!first && decide (maxBytes < totalBytes + retained.chunk.length)) = false := by
      rw [decide_eq_false (by omega), Bool.and_false]
    unfold readChunks
    rw [hfits, if_neg Bool.false_ne_true, if_neg hless]
    show retained :: _ = _
    rw [ih (by omega)]

/-- **A read without a limit** answers with the kept chunks behind the number it was given. -/
theorem Traced.execRead_chunks (h : Traced process) (afterSeq : Nat) :
    process.execRead afterSeq none =
      ⟨process.output.filter (afterSeq < ·.seq), process.nextSeq, process.exitCode.isSome,
        process.exitCode, process.closed, none, process.sandboxDenied⟩ := by
  have hsum : ((process.output.filter (afterSeq < ·.seq)).map (·.chunk.length)).sum ≤
      (process.output.map (·.chunk.length)).sum :=
    List.Sublist.sum_le_sum (filter_sublist.map _) fun _ _ => Nat.zero_le _
  have hless : 0 + ((process.output.filter (afterSeq < ·.seq)).map (·.chunk.length)).sum <
      usizeMax := by
    have hbound := h.within
    rw [h.bytes] at hbound
    have hlarge : retainedOutputBytesPerProcess < usizeMax := by decide
    omega
  have hall : (readChunks usizeMax 0 (process.output.filter (afterSeq < ·.seq)) true).1 = _ :=
    readChunks_all hless
  unfold execRead
  dsimp only [Option.getD_none, Option.isNone_none]
  rw [hall]
  rfl

/-- No chunk behind the number was dropped. -/
def Retains (process : RunningProcess) (afterSeq : Nat) : Prop :=
  ∀ chunk ∈ outputsOf process.events, afterSeq < chunk.seq → chunk ∈ process.output

instance (process : RunningProcess) (afterSeq : Nat) : Decidable (process.Retains afterSeq) :=
  inferInstanceAs (Decidable (∀ _ ∈ _, _ → _))

theorem Traced.filter_eq (h : Traced process) {afterSeq : Nat} (hretains : process.Retains afterSeq) :
    process.output.filter (afterSeq < ·.seq) =
      (outputsOf process.events).filter (afterSeq < ·.seq) := by
  obtain ⟨older, holder⟩ := h.newest
  have hsorted := h.numbered.outputs_sorted
  rw [← holder] at hsorted
  have hnone : older.filter (fun chunk => afterSeq < chunk.seq) = [] := by
    refine filter_eq_nil_iff.mpr fun chunk hchunk hlate => ?_
    have hlate : afterSeq < chunk.seq := of_decide_eq_true hlate
    have hkept := hretains chunk (holder ▸ mem_append_left _ hchunk) hlate
    exact lt_irrefl _ ((pairwise_append.mp hsorted).2.2 chunk hchunk chunk hkept)
  rw [← holder, filter_append, hnone, nil_append]

end RunningProcess

end NovumAgent.ExecServer
