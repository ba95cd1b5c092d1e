import NovumAgent.Lib.Slots
import NovumAgent.ToolOutput.Accounting

/-!
# Stream capture is all or nothing

A stream's appenders, its writer and its readers share three variables, `disabled`, the count of
pending chunks and the entry in the store's table, and never hold two of them at once. What ties
the three together is told in three invariants of a stream, each kept by every step:

* `Counted`: the pending count is the number of appends between their count and their send, plus
  the queue, plus the chunk in the writer's hands; every append that returned has its chunk in the
  queue's history or has seen the stream disabled.
* `Written`: as long as the stream is not disabled, everything the writer is through with it has
  written; and a `recoverable_output` past its two checks knows that every append returned before
  it is among what was written.
* `Filed`: as long as the table has the entry, the file is there, and nobody unlinks it before the
  entry is gone. If the stream is `prompt`, it holds what was written and a part of the chunk the
  writer is at.

A stream is prompt when its writer never outruns its background writes (`outruns`): it does not go on
from a `write_all` while bytes are in flight, and no write fails after its last byte was handed over.
The source does nothing to see to that, so `prompt` is a proposition that the invariants carry along:
what does not need it is had with `False`, and a run that keeps to it has `True`. A lookup that finds
the entry of a prompt stream finds the file complete (`recoverable_output_complete`).
-/

namespace NovumAgent.ToolOutput

open List Slots

/-! ## What is pending -/

/-- The chunk the writer has taken from the queue and is not through with. -/
def Writer.held : Writer → List Chunk
  | .idle => []
  | .received chunk | .reserving chunk | .opening chunk _ | .writing chunk _ _ _ | .failing chunk _
  | .closing chunk _ | .finishing chunk => [chunk]

/-- Does the call count among the pending chunks? -/
def Task.counted : Task → Bool
  | .append _ .sending | .append _ .uncounting => true
  | _ => false

/-- Is the call an append that has set `disabled`? -/
def Task.gaveUp : Task → Bool
  | .append _ (.closing (.removing _)) => true
  | _ => false

/-- Is the call an append that has returned? -/
def Task.isReturned : Task → Bool
  | .append _ .returned => true
  | _ => false

/-- The pending count and the history of the queue. -/
structure Counted (stream : Stream) : Prop where
  pending : stream.pending =
    stream.tasks.countP Task.counted + stream.queue.length + stream.writer.held.length
  sent : stream.sent = stream.handled ++ stream.writer.held ++ stream.queue
  senders : (stream.sent.map Chunk.sender).Nodup
  chunk : ∀ chunk ∈ stream.sent, stream.tasks[chunk.sender]? = some (.append chunk.bytes .returned)
  returned : ∀ i bytes, stream.tasks[i]? = some (.append bytes .returned) →
    stream.disabled = true ∨ ⟨i, bytes⟩ ∈ stream.sent
  gaveUp : ∀ (i : Nat) task, stream.tasks[i]? = some task → task.gaveUp = true →
    stream.disabled = true

section Counted

variable {stream : Stream} {i : Nat} {task task' : Task}

variable {queue : List Chunk} {state state' : StoreState} {chunk : Chunk} {pending : Nat}
  {outcome : Outcome} {before : List Nat} {path : String} {flight : Bytes}

theorem Counted.set (hc : Counted stream) (hi : stream.tasks[i]? = some task) (task' : Task)
    (hcount : pending + (if task.counted then 1 else 0) =
      stream.pending + (if task'.counted then 1 else 0))
    (hbefore : task.isReturned = false)
    (hreturned : task'.isReturned = true → stream.disabled = true)
    (hgaveUp : task'.gaveUp = true → stream.disabled = true) :
    Counted { stream with pending, tasks := stream.tasks.set i task' } where
  __ := hc
  pending := by
    have hset := countP_set Task.counted hi task'
    have hpending := hc.pending
    dsimp only
    omega
  chunk := by
    intro chunk hmem
    refine getElem?_set_of_ne hi (hc.chunk chunk hmem) ?_ task'
    rintro rfl
    cases hbefore
  returned := by
    intro j bytes hj
    rcases getElem?_set_cases hj with ⟨rfl, rfl⟩ | ⟨-, hj⟩
    · exact .inl (hreturned rfl)
    · exact hc.returned j bytes hj
  gaveUp := forall_set hc.gaveUp hgaveUp

theorem Counted.disable (hc : Counted stream) : Counted { stream with disabled := true } where
  __ := hc
  returned := fun _ _ _ => .inl rfl
  gaveUp := fun _ _ _ _ => rfl

theorem Counted.send {bytes : Bytes} (hc : Counted stream)
    (hi : stream.tasks[i]? = some (.append bytes .sending)) :
    Counted { stream with
      queue := stream.queue ++ [⟨i, bytes⟩]
      sent := stream.sent ++ [⟨i, bytes⟩]
      tasks := stream.tasks.set i (.append bytes .returned) } where
  pending := by
    have hset := countP_set Task.counted hi (.append bytes .returned)
    have hpending := hc.pending
    simp only [Task.counted, Bool.false_eq_true, if_false, if_true] at hset
    dsimp only
    rw [length_append, length_singleton]
    omega
  sent := by
    show stream.sent ++ _ = stream.handled ++ stream.writer.held ++ (stream.queue ++ _)
    rw [hc.sent, append_assoc]
  senders := by
    -- The sender of an earlier chunk has returned, and this one is only now sending.
    have hfresh : i ∉ stream.sent.map Chunk.sender := by
      intro hmem
      obtain ⟨chunk, hchunk, rfl⟩ := mem_map.mp hmem
      have := hc.chunk chunk hchunk
      rw [hi] at this
      cases this
    show ((stream.sent ++ _).map Chunk.sender).Nodup
    rw [map_append, nodup_append']
    refine ⟨hc.senders, nodup_singleton _, ?_⟩
    simpa using hfresh
  chunk := by
    intro chunk hmem
    rcases mem_append.mp hmem with hmem | hmem
    · exact getElem?_set_of_ne hi (hc.chunk chunk hmem) (by simp) _
    · obtain rfl := mem_singleton.mp hmem
      exact getElem?_set_same hi _
  returned := by
    intro j other hj
    rcases getElem?_set_cases hj with ⟨rfl, heq⟩ | ⟨-, hj⟩
    · cases heq
      exact .inr (mem_append_right _ (mem_singleton.mpr rfl))
    · exact (hc.returned j other hj).imp_right (mem_append_left _)
  gaveUp := forall_set hc.gaveUp nofun

theorem Counted.close (hc : Counted stream) (handle : String) (outcome : Outcome) (world : World)
    (pc : ClosePc) : Counted (stepClose handle outcome world stream pc).2.1 := by
  cases pc with
  | disabling => exact hc.disable
  | removing pc => exact hc

theorem tasks_stepClose (handle : String) (outcome : Outcome) (world : World) (pc : ClosePc) :
    (stepClose handle outcome world stream pc).2.1.tasks = stream.tasks := by
  cases pc <;> rfl

theorem disabled_stepClose {handle : String} {world : World} {pc : ClosePc}
    (h : pc ≠ .disabling → stream.disabled = true) :
    (stepClose handle outcome world stream pc).2.1.disabled = true := by
  cases pc with
  | disabling => rfl
  | removing pc => exact h (by simp)

theorem Counted.push (hc : Counted stream) (hcount : task.counted = false)
    (hreturned : task.isReturned = false) (hgaveUp : task.gaveUp = false) :
    Counted { stream with tasks := stream.tasks ++ [task] } where
  __ := hc
  pending := by
    dsimp only
    rw [countP_append, countP_singleton, hcount]
    exact hc.pending
  chunk := by
    intro chunk hmem
    exact getElem?_append_of_some (hc.chunk chunk hmem) task
  returned := by
    intro j bytes hj
    rcases getElem?_push_cases hj with rfl | hj
    · cases hreturned
    · exact hc.returned j bytes hj
  gaveUp := by
    intro j other hj hother
    rcases getElem?_push_cases hj with rfl | hj
    · rw [hgaveUp] at hother
      cases hother
    · exact hc.gaveUp j other hj hother

theorem Counted.writer (hc : Counted stream) {writer : Writer}
    (hheld : writer.held = stream.writer.held) {written : List Chunk} {stragglers : List Straggler} :
    Counted { stream with writer, written, stragglers } where
  __ := hc
  pending := by
    dsimp only
    rw [hheld]
    exact hc.pending
  sent := by
    dsimp only
    rw [hheld]
    exact hc.sent

theorem Counted.receive (hc : Counted stream)
    (hqueue : stream.queue = chunk :: queue) (hidle : stream.writer = .idle) :
    Counted { stream with queue, writer := .received chunk } where
  __ := hc
  pending := by
    have hpending := hc.pending
    simp only [hqueue, hidle, Writer.held, length_cons, length_nil] at hpending ⊢
    omega
  sent := by
    have hsent := hc.sent
    rw [hqueue, hidle] at hsent
    dsimp only
    rw [hsent]
    simp [Writer.held]

theorem Counted.finish (hc : Counted stream) (hwriter : stream.writer = .finishing chunk) :
    Counted { stream with
      pending := stream.pending - 1, writer := .idle, handled := stream.handled ++ [chunk] } where
  __ := hc
  pending := by
    have hpending := hc.pending
    simp only [hwriter, Writer.held, length_cons, length_nil] at hpending ⊢
    omega
  sent := by
    have hsent := hc.sent
    rw [hwriter] at hsent
    dsimp only
    rw [hsent]
    simp [Writer.held]

theorem writer_stepClose (handle : String) (outcome : Outcome) (world : World) (pc : ClosePc) :
    (stepClose handle outcome world stream pc).2.1.writer = stream.writer := by
  cases pc <;> rfl

end Counted

/-! ## What is written -/

/-- The chunk that only has to be taken off the count. -/
def Writer.done : Writer → List Chunk
  | .finishing chunk => [chunk]
  | _ => []

/-- Is the writer inside `append_stream`, or behind a failure of it? -/
def Writer.appending : Writer → Bool
  | .reserving _ | .opening _ _ | .writing _ _ _ _ | .failing _ _ | .closing _ _ => true
  | _ => false

/-- Is the writer behind a failure and past setting `disabled`? -/
def Writer.gaveUp : Writer → Bool
  | .closing _ (.removing _) => true
  | _ => false

/-- What a `recoverable_output` knows of the appends that had returned when it was called: nothing
more while it waits, that they were handled once it has seen no chunk pending, and that they were
written once it has seen the stream enabled. -/
def Seen (stream : Stream) (before : List Nat) : RecoverPc → Prop
  | .waiting => ∀ a ∈ before, ∃ bytes, stream.tasks[a]? = some (.append bytes .returned)
  | .checking => ∀ a ∈ before, ∃ bytes, stream.tasks[a]? = some (.append bytes .returned) ∧
      (stream.disabled = true ∨ ⟨a, bytes⟩ ∈ stream.handled)
  | .looking => ∀ a ∈ before, ∃ bytes, stream.tasks[a]? = some (.append bytes .returned) ∧
      ⟨a, bytes⟩ ∈ stream.written
  | .returned _ => True

/-- The history of the writer. -/
structure Written (stream : Stream) : Prop where
  prefixed : stream.written <+: stream.handled ++ stream.writer.held
  appending : stream.writer.appending = true → stream.written = stream.handled
  enabled : stream.disabled = false → stream.written = stream.handled ++ stream.writer.done
  gaveUp : stream.writer.gaveUp = true → stream.disabled = true
  reader : ∀ (i : Nat) before pc, stream.tasks[i]? = some (.recoverable before pc) →
    Seen stream before pc

section Written

variable {stream stream' : Stream} {i : Nat} {task : Task}

theorem Seen.mono {pc : RecoverPc} (hseen : Seen stream before pc)
    (htasks : ∀ (a : Nat) bytes, stream.tasks[a]? = some (.append bytes .returned) →
      stream'.tasks[a]? = some (.append bytes .returned))
    (hdisabled : stream.disabled = true → stream'.disabled = true)
    (hhandled : stream.handled ⊆ stream'.handled) (hwritten : stream.written ⊆ stream'.written) :
    Seen stream' before pc := by
  cases pc with
  | waiting =>
    intro a ha
    obtain ⟨bytes, hbytes⟩ := hseen a ha
    exact ⟨bytes, htasks a bytes hbytes⟩
  | checking =>
    intro a ha
    obtain ⟨bytes, hbytes, hor⟩ := hseen a ha
    exact ⟨bytes, htasks a bytes hbytes, hor.imp hdisabled (hhandled ·)⟩
  | looking =>
    intro a ha
    obtain ⟨bytes, hbytes, hmem⟩ := hseen a ha
    exact ⟨bytes, htasks a bytes hbytes, hwritten hmem⟩
  | returned output => trivial

section

variable (hw : Written stream)
include hw

/-- A call goes on; a `recoverable_output` with what it knows. -/
theorem Written.set (hi : stream.tasks[i]? = some task) (task' : Task) {sent : List Chunk}
    (hbefore : task.isReturned = false)
    (hseen : ∀ before pc, task' = .recoverable before pc → Seen stream before pc) :
    Written { stream with pending, queue, sent, tasks := stream.tasks.set i task' } where
  __ := hw
  reader := by
    intro j before pc hj
    have hold : Seen stream before pc := by
      rcases getElem?_set_cases hj with ⟨-, heq⟩ | ⟨-, hj⟩
      · exact hseen before pc heq.symm
      · exact hw.reader j before pc hj
    refine hold.mono ?_ id (List.Subset.refl _) (List.Subset.refl _)
    intro a bytes ha
    refine getElem?_set_of_ne hi ha ?_ task'
    rintro rfl
    cases hbefore

theorem Written.disable : Written { stream with disabled := true } where
  __ := hw
  enabled := nofun
  gaveUp := fun _ => rfl
  reader := by
    intro j before pc hj
    exact (hw.reader j before pc hj).mono (fun _ _ h => h) (fun _ => rfl) (List.Subset.refl _)
      (List.Subset.refl _)

theorem Written.close (handle : String) (outcome : Outcome) (world : World)
    (pc : ClosePc) : Written (stepClose handle outcome world stream pc).2.1 := by
  cases pc with
  | disabling => exact hw.disable
  | removing pc => exact hw

theorem Written.push (hseen : ∀ before pc, task = .recoverable before pc → Seen stream before pc) :
    Written { stream with tasks := stream.tasks ++ [task] } where
  __ := hw
  reader := by
    intro j before pc hj
    have hold : Seen stream before pc := by
      rcases getElem?_push_cases hj with heq | hj
      · exact hseen before pc heq.symm
      · exact hw.reader j before pc hj
    refine hold.mono ?_ id (List.Subset.refl _) (List.Subset.refl _)
    intro a bytes ha
    exact getElem?_append_of_some ha task

theorem Written.writer {writer : Writer} (hheld : stream.writer.held <+: writer.held)
    (happending : writer.appending = true → stream.written = stream.handled)
    (henabled : stream.disabled = false → writer.done = stream.writer.done)
    (hgaveUp : writer.gaveUp = true → stream.disabled = true) :
    Written { stream with queue, writer } where
  prefixed := hw.prefixed.trans ((prefix_append_right_inj _).mpr hheld)
  appending := happending
  enabled := by
    intro hd
    dsimp only
    rw [henabled hd]
    exact hw.enabled hd
  gaveUp := hgaveUp
  reader := hw.reader

theorem Written.write (hwriter : stream.writer = .writing chunk path flight [])
    {stragglers : List Straggler} : Written { stream with
      writer := .finishing chunk, written := stream.written ++ [chunk], stragglers } where
  prefixed := by
    have hall := hw.appending (by rw [hwriter]; rfl)
    dsimp only
    rw [hall]
    exact prefix_rfl
  appending := nofun
  enabled := by
    intro _
    have hall := hw.appending (by rw [hwriter]; rfl)
    dsimp only
    rw [hall]
    rfl
  gaveUp := nofun
  reader := by
    intro j before pc hj
    exact (hw.reader j before pc hj).mono (fun _ _ h => h) id (List.Subset.refl _)
      (subset_append_left _ _)

theorem Written.finish (hwriter : stream.writer = .finishing chunk) : Written { stream with
      pending, writer := .idle, handled := stream.handled ++ [chunk] } where
  prefixed := by
    have hprefix := hw.prefixed
    rw [hwriter] at hprefix
    exact hprefix.trans (prefix_append _ _)
  appending := nofun
  enabled := by
    intro hd
    have hall := hw.enabled hd
    rw [hwriter] at hall
    dsimp only
    rw [hall]
    simp [Writer.done]
  gaveUp := nofun
  reader := by
    intro j before pc hj
    exact (hw.reader j before pc hj).mono (fun _ _ h => h) id (subset_append_left _ _)
      (List.Subset.refl _)

end

theorem seen_checking (hc : Counted stream) (hseen : Seen stream before .waiting)
    (hpending : stream.pending = 0) : Seen stream before .checking := by
  have hcount := hc.pending
  have hqueue : stream.queue = [] := eq_nil_of_length_eq_zero (by omega)
  have hheld : stream.writer.held = [] := eq_nil_of_length_eq_zero (by omega)
  have hsent := hc.sent
  rw [hqueue, hheld, append_nil, append_nil] at hsent
  intro a ha
  obtain ⟨bytes, hbytes⟩ := hseen a ha
  refine ⟨bytes, hbytes, ?_⟩
  rw [← hsent]
  exact hc.returned a bytes hbytes

theorem seen_looking (hw : Written stream) (hseen : Seen stream before .checking)
    (hd : stream.disabled = false) : Seen stream before .looking := by
  intro a ha
  obtain ⟨bytes, hbytes, hor⟩ := hseen a ha
  refine ⟨bytes, hbytes, ?_⟩
  rcases hor with hdisabled | hmem
  · rw [hd] at hdisabled
    cases hdisabled
  · rw [hw.enabled hd]
    exact mem_append_left _ hmem

end Written

/-! ## What is in the file -/

/-- The bytes of some chunks, in their order. -/
def bytesOf (chunks : List Chunk) : Bytes := chunks.flatMap Chunk.bytes

/-- A removal unlinks the stream's own file, and only once its entry is gone. -/
def RemovePc.Ok (handle : String) (state : StoreState) : RemovePc → Prop
  | .locking => True
  | .unlinking path => path = pathOf handle ∧ state.outputs.lookup handle = none

/-- The same of the closing of a stream. -/
def ClosePc.Ok (handle : String) (state : StoreState) : ClosePc → Prop
  | .disabling => True
  | .removing pc => pc.Ok handle state

/-- The same of a call. -/
def Task.Ok (handle : String) (state : StoreState) : Task → Prop
  | .append _ (.closing pc) => pc.Ok handle state
  | .discard (some pc) => pc.Ok handle state
  | _ => True

/-- The same of the writer, which besides writes to no other file. -/
def Writer.Ok (handle : String) (state : StoreState) : Writer → Prop
  | .opening _ path => path = pathOf handle
  | .writing _ path _ _ => path = pathOf handle
  | .failing _ pc => pc.Ok handle state
  | .closing _ pc => pc.Ok handle state
  | _ => True

/-- The part of the chunk at hand that is in the file. -/
def Writer.Partly (part : Bytes) : Writer → Prop
  | .writing chunk _ flight rest => part ++ flight ++ rest = chunk.bytes
  | .failing chunk _ => part <+: chunk.bytes
  | .closing chunk _ => part <+: chunk.bytes
  | _ => part = []

/-- Does the writer outrun its writes? It does when it goes on from a write of which bytes are in
flight, and when such a write fails with nothing left to be handed over. -/
def outruns (stream : Stream) : Event → Bool
  | .writer _ _ | .background _ none .failed =>
    match stream.writer with
    | .writing _ _ (_ :: _) [] => true
    | _ => false
  | _ => false

/-- The file of a stream whose entry is in the table; it is complete if the stream is prompt. -/
structure Filed (prompt : Prop) (handle : String) (world : World) (stream : Stream) : Prop where
  entry : ∀ output, world.state.outputs.lookup handle = some output → output.path = pathOf handle ∧
      ∃ content, world.files.lookup (pathOf handle) = some content ∧
        (prompt → ∃ part, content = bytesOf stream.written ++ part ∧ stream.writer.Partly part)
  task : ∀ task ∈ stream.tasks, task.Ok handle world.state
  writer : stream.writer.Ok handle world.state
  straggler : ∀ straggler ∈ stream.stragglers, straggler.path = pathOf handle ∧
    (prompt → straggler.bytes = [])

section Filed

variable {prompt : Prop} {handle : String} {world world' : World} {stream : Stream} {i : Nat}
  {task : Task}

theorem RemovePc.Ok.mono {pc : RemovePc} (hok : pc.Ok handle state)
    (h : state.outputs.lookup handle = none → state'.outputs.lookup handle = none) :
    pc.Ok handle state' := by
  cases pc with
  | locking => trivial
  | unlinking path => exact ⟨hok.1, h hok.2⟩

theorem ClosePc.Ok.mono {pc : ClosePc} (hok : pc.Ok handle state)
    (h : state.outputs.lookup handle = none → state'.outputs.lookup handle = none) :
    pc.Ok handle state' := by
  cases pc with
  | disabling => trivial
  | removing pc => exact RemovePc.Ok.mono hok h

theorem Task.Ok.mono (hok : task.Ok handle state)
    (h : state.outputs.lookup handle = none → state'.outputs.lookup handle = none) :
    task.Ok handle state' := by
  cases task with
  | append bytes pc =>
    cases pc with
    | closing pc => exact ClosePc.Ok.mono hok h
    | _ => trivial
  | discard pc =>
    cases pc with
    | none => trivial
    | some pc => exact ClosePc.Ok.mono hok h
  | recoverable before pc => trivial

theorem Writer.Ok.mono {writer : Writer} (hok : writer.Ok handle state)
    (h : state.outputs.lookup handle = none → state'.outputs.lookup handle = none) :
    writer.Ok handle state' := by
  cases writer with
  | failing chunk pc => exact RemovePc.Ok.mono hok h
  | closing chunk pc => exact ClosePc.Ok.mono hok h
  | opening chunk path => exact hok
  | writing chunk path flight rest => exact hok
  | _ => trivial

theorem lookup_stepRemove {pc : RemovePc} (hok : pc.Ok handle world.state) (outcome : Outcome) :
    (stepRemove handle outcome world pc).1.state.outputs.lookup handle = none := by
  cases pc with
  | locking =>
    show (removeEntry handle world.state).1.outputs.lookup handle = none
    cases hlookup : world.state.outputs.lookup handle with
    | none =>
      rw [removeEntry_of_none hlookup]
      exact hlookup
    | some output =>
      rw [removeEntry_of_some hlookup]
      exact AList.lookup_erase _ _
  | unlinking path => cases outcome <;> exact hok.2

section

variable (hf : Filed prompt handle world stream)
include hf

theorem ok_stepRemove {pc next : RemovePc}
    (h : (stepRemove handle outcome world pc).2 = some next) :
    next.Ok handle (stepRemove handle outcome world pc).1.state := by
  cases pc with
  | locking =>
    have hgone : (stepRemove handle outcome world .locking).1.state.outputs.lookup handle = none :=
      lookup_stepRemove (show RemovePc.Ok handle world.state .locking from trivial) outcome
    obtain ⟨path, hpath, rfl⟩ := Option.map_eq_some_iff.mp
      (show (removeEntry handle world.state).2.map RemovePc.unlinking = some next from h)
    refine ⟨?_, hgone⟩
    cases hlookup : world.state.outputs.lookup handle with
    | none =>
      rw [removeEntry_of_none hlookup] at hpath
      cases hpath
    | some output =>
      rw [removeEntry_of_some hlookup] at hpath
      cases hpath
      exact (hf.entry output hlookup).1
  | unlinking path => cases outcome <;> cases h

theorem Filed.remove {pc : RemovePc} (hok : pc.Ok handle world.state)
    (outcome : Outcome) : Filed prompt handle (stepRemove handle outcome world pc).1 stream := by
  have hgone := lookup_stepRemove hok outcome
  refine ⟨?_, ?_, hf.writer.mono fun _ => hgone, hf.straggler⟩
  · intro output hlookup
    rw [hgone] at hlookup
    cases hlookup
  · intro task hmem
    exact (hf.task task hmem).mono fun _ => hgone

theorem Filed.close {pc : ClosePc} (hok : pc.Ok handle world.state) (outcome : Outcome) :
    Filed prompt handle (stepClose handle outcome world stream pc).1
      (stepClose handle outcome world stream pc).2.1 := by
  cases pc with
  | disabling => exact ⟨hf.entry, hf.task, hf.writer, hf.straggler⟩
  | removing pc => exact hf.remove hok outcome

theorem ok_stepClose {pc next : ClosePc}
    (h : (stepClose handle outcome world stream pc).2.2 = some next) :
    next.Ok handle (stepClose handle outcome world stream pc).1.state := by
  cases pc with
  | disabling =>
    cases h
    trivial
  | removing pc =>
    obtain ⟨next', hnext, rfl⟩ := Option.map_eq_some_iff.mp
      (show (stepRemove handle outcome world pc).2.map ClosePc.removing = some next from h)
    exact ok_stepRemove hf hnext

end

theorem lookup_stepClose {pc : ClosePc} (hok : pc.Ok handle world.state)
    (h : (stepClose handle outcome world stream pc).2.2 = none) :
    (stepClose handle outcome world stream pc).1.state.outputs.lookup handle = none := by
  cases pc with
  | disabling => cases h
  | removing pc => exact lookup_stepRemove hok outcome

theorem lookup_appendFile {content bytes : Bytes} {files : Files}
    (h : files.lookup path = some content) :
    (appendFile path bytes files).lookup path = some (content ++ bytes) := by
  simp only [appendFile, h, AList.lookup_insert]

section

variable (hf : Filed prompt handle world stream)
include hf

theorem Filed.set (i : Nat) {task' : Task} {sent : List Chunk} (hok : task'.Ok handle world.state) :
    Filed prompt handle world
      { stream with pending, queue, sent, tasks := stream.tasks.set i task' } :=
  ⟨hf.entry, forall_mem_set hf.task hok, hf.writer, hf.straggler⟩

theorem Filed.push {task : Task} (hok : task.Ok handle world.state) :
    Filed prompt handle world { stream with tasks := stream.tasks ++ [task] } := by
  refine ⟨hf.entry, ?_, hf.writer, hf.straggler⟩
  exact forall_mem_append.mpr ⟨hf.task, forall_mem_singleton.mpr hok⟩

/-- The writer moves on. What it knows of the file may depend on the entry being there. -/
theorem Filed.writer' {writer : Writer} {handled : List Chunk} (hok : writer.Ok handle world.state)
    (hpart : ∀ output part, world.state.outputs.lookup handle = some output → prompt →
      stream.writer.Partly part → writer.Partly part) :
    Filed prompt handle world { stream with pending, queue, writer, handled } := by
  refine ⟨?_, hf.task, hok, hf.straggler⟩
  intro output hlookup
  obtain ⟨hpath, content, hfile, hwhole⟩ := hf.entry output hlookup
  refine ⟨hpath, content, hfile, fun hprompt => ?_⟩
  obtain ⟨part, hcontent, hold⟩ := hwhole hprompt
  exact ⟨part, hcontent, hpart output part hlookup hprompt hold⟩

theorem Filed.reserve {limits : Limits} {n : Nat} (hwriter : stream.writer = .reserving chunk)
    (h : reserveAppend limits handle n world.state = .ok (state, path)) :
    Filed prompt handle { world with state } { stream with writer := .opening chunk path } := by
  obtain ⟨output, hlookup, rfl, -, -, rfl⟩ := reserveAppend_ok h
  obtain ⟨hpath, content, hfile, hwhole⟩ := hf.entry output hlookup
  rw [hwriter] at hwhole
  refine ⟨?_, ?_, hpath, hf.straggler⟩
  · intro output' hlookup'
    rw [AList.lookup_insert] at hlookup'
    cases hlookup'
    exact ⟨hpath, content, hfile, hwhole⟩
  · intro task hmem
    refine (hf.task task hmem).mono fun hgone => ?_
    rw [hlookup] at hgone
    cases hgone

/-- Some of the writer's own bytes in flight reach the file. -/
theorem Filed.land {byte : UInt8} {rest : Bytes}
    (hwriter : stream.writer = .writing chunk path (byte :: flight) rest) (more : Nat) :
    Filed prompt handle
      { world with files := appendFile path (byte :: flight.take more) world.files }
      { stream with writer := .writing chunk path (flight.drop more) rest } := by
  have hpath : path = pathOf handle := (hwriter ▸ hf.writer :)
  refine ⟨?_, hf.task, hpath, hf.straggler⟩
  intro output hlookup
  obtain ⟨houtput, content, hfile, hwhole⟩ := hf.entry output hlookup
  rw [hwriter] at hwhole
  subst hpath
  refine ⟨houtput, _, lookup_appendFile hfile, fun hprompt => ?_⟩
  obtain ⟨part, rfl, hpart⟩ := hwhole hprompt
  refine ⟨part ++ byte :: flight.take more, append_assoc .., ?_⟩
  show part ++ byte :: flight.take more ++ flight.drop more ++ rest = chunk.bytes
  rw [append_assoc part, cons_append, take_append_drop]
  exact hpart

/-- A straggler reaches the file or is lost. A prompt stream has none. -/
theorem Filed.straggle {j : Nat} {byte : UInt8} {bytes left : Bytes} {files : Files}
    (hj : stream.stragglers[j]? = some ⟨path, byte :: bytes⟩)
    (hfiles : ∀ content, world.files.lookup (pathOf handle) = some content →
      ∃ content', files.lookup (pathOf handle) = some content') :
    Filed prompt handle { world with files }
      { stream with stragglers := stream.stragglers.set j ⟨path, left⟩ } := by
  obtain ⟨hpath, hempty⟩ := hf.straggler _ (mem_of_getElem? hj)
  have hlate : ¬ prompt := fun hprompt => nomatch hempty hprompt
  refine ⟨?_, hf.task, hf.writer,
    forall_mem_set hf.straggler ⟨hpath, fun hprompt => absurd hprompt hlate⟩⟩
  intro output hlookup
  obtain ⟨houtput, content, hfile, -⟩ := hf.entry output hlookup
  obtain ⟨content', hfile'⟩ := hfiles content hfile
  exact ⟨houtput, content', hfile', fun hprompt => absurd hprompt hlate⟩

theorem Filed.write (hwriter : stream.writer = .writing chunk path flight [])
    (hlanded : prompt → flight = []) :
    Filed prompt handle world { stream with
      writer := .finishing chunk
      written := stream.written ++ [chunk]
      stragglers := stream.stragglers ++ [⟨path, flight⟩] } := by
  have hpath : path = pathOf handle := (hwriter ▸ hf.writer :)
  refine ⟨?_, hf.task, trivial,
    forall_mem_append.mpr ⟨hf.straggler, forall_mem_singleton.mpr ⟨hpath, hlanded⟩⟩⟩
  intro output hlookup
  obtain ⟨houtput, content, hfile, hwhole⟩ := hf.entry output hlookup
  rw [hwriter] at hwhole
  refine ⟨houtput, content, hfile, fun hprompt => ?_⟩
  obtain ⟨part, rfl, hpart⟩ := hwhole hprompt
  have hbytes : part = chunk.bytes := by
    rw [← hpart, hlanded hprompt, append_nil, append_nil]
  refine ⟨[], ?_, rfl⟩
  rw [hbytes, append_nil]
  simp only [bytesOf, flatMap_append, flatMap_singleton]

end

end Filed

/-! ## Every step of a stream -/

/-- The three invariants of a stream. -/
structure Captured (prompt : Prop) (handle : String) (world : World) (stream : Stream) : Prop where
  counted : Counted stream
  written : Written stream
  filed : Filed prompt handle world stream

section Captured

variable {prompt : Prop} {limits : Limits} {handle : String} {outcome : Outcome} {world world' : World}
  {stream stream' : Stream} {i : Nat} {task task' : Task}

section

variable (hs : Captured prompt handle world stream)
include hs

theorem Captured.close {pc : ClosePc} (hok : pc.Ok handle world.state) (outcome : Outcome) :
    Captured prompt handle (stepClose handle outcome world stream pc).1
      (stepClose handle outcome world stream pc).2.1 :=
  ⟨hs.counted.close handle outcome world pc, hs.written.close handle outcome world pc,
    hs.filed.close hok outcome⟩

theorem Captured.set (hi : stream.tasks[i]? = some task) (task' : Task)
    (hcount : pending + (if task.counted then 1 else 0) =
      stream.pending + (if task'.counted then 1 else 0))
    (hbefore : task.isReturned = false)
    (hreturned : task'.isReturned = true → stream.disabled = true)
    (hgaveUp : task'.gaveUp = true → stream.disabled = true)
    (hseen : ∀ before pc, task' = .recoverable before pc → Seen stream before pc)
    (hok : task'.Ok handle world.state) :
    Captured prompt handle world { stream with pending, tasks := stream.tasks.set i task' } :=
  ⟨hs.counted.set hi task' hcount hbefore hreturned hgaveUp, hs.written.set hi task' hbefore hseen,
    hs.filed.set i hok⟩

/-- What neither the count nor the history of the writer looks at. -/
theorem Captured.aside {stragglers : List Straggler} {exited : Bool}
    (hf : Filed prompt handle world' { stream with stragglers, exited }) :
    Captured prompt handle world' { stream with stragglers, exited } :=
  ⟨⟨hs.counted.pending, hs.counted.sent, hs.counted.senders, hs.counted.chunk, hs.counted.returned,
      hs.counted.gaveUp⟩,
    ⟨hs.written.prefixed, hs.written.appending, hs.written.enabled, hs.written.gaveUp,
      hs.written.reader⟩, hf⟩

theorem captured_stepTask (hi : stream.tasks[i]? = some task)
    (h : TaskStep handle i outcome world stream task world' stream' task') :
    Captured prompt handle world' { stream' with tasks := stream'.tasks.set i task' } := by
  have hclose : ∀ {pc}, ClosePc.Ok handle world.state pc →
      Captured prompt handle (stepClose handle outcome world stream pc).1
          (stepClose handle outcome world stream pc).2.1 ∧
        (stepClose handle outcome world stream pc).2.1.tasks[i]? = some task := by
    intro pc hok
    rw [tasks_stepClose]
    exact ⟨hs.close hok outcome, hi⟩
  cases h with
  | skipped hd => exact hs.set hi _ rfl rfl (fun _ => hd) nofun nofun trivial
  | started | counted | full => exact hs.set hi _ rfl rfl nofun nofun nofun trivial
  | sent => exact ⟨hs.counted.send hi, hs.written.set hi _ rfl nofun, hs.filed.set i trivial⟩
  | uncounted =>
    -- This call itself is among the pending ones, so the count does not wrap.
    have hpos : 0 < stream.tasks.countP Task.counted :=
      countP_pos_iff.mpr ⟨_, mem_of_getElem? hi, rfl⟩
    have hpending := hs.counted.pending
    refine hs.set hi _ ?_ rfl nofun nofun nofun trivial
    simp only [Task.counted, if_true, Bool.false_eq_true, if_false]
    omega
  | @closing bytes pc =>
    obtain ⟨hclosed, hi'⟩ := hclose (hs.filed.task _ (mem_of_getElem? hi))
    have hdisabled : (stepClose handle outcome world stream pc).2.1.disabled = true := by
      refine disabled_stepClose fun hne => hs.counted.gaveUp i _ hi ?_
      cases pc with
      | disabling => exact absurd rfl hne
      | removing pc => rfl
    have hnext : ∀ next, (stepClose handle outcome world stream pc).2.2 = some next →
        next.Ok handle (stepClose handle outcome world stream pc).1.state :=
      fun next => ok_stepClose hs.filed
    cases hpc : (stepClose handle outcome world stream pc).2.2 with
    | none => exact hclosed.set hi' _ rfl rfl (fun _ => hdisabled) nofun nofun trivial
    | some next =>
      exact hclosed.set hi' (.append bytes (.closing next)) rfl rfl nofun (fun _ => hdisabled) nofun
        (hnext next hpc)
  | @discarding pc =>
    obtain ⟨hclosed, hi'⟩ := hclose (hs.filed.task _ (mem_of_getElem? hi))
    refine hclosed.set hi' (.discard _) rfl rfl nofun nofun nofun ?_
    cases hpc : (stepClose handle outcome world stream pc).2.2 with
    | none => trivial
    | some next => exact ok_stepClose hs.filed hpc
  | waited hpending =>
    refine hs.set hi _ rfl rfl nofun nofun ?_ trivial
    rintro _ _ ⟨⟩
    exact seen_checking hs.counted (hs.written.reader _ _ _ hi) hpending
  | refused =>
    refine hs.set hi _ rfl rfl nofun nofun ?_ trivial
    rintro _ _ ⟨⟩
    trivial
  | checked hd =>
    refine hs.set hi _ rfl rfl nofun nofun ?_ trivial
    rintro _ _ ⟨⟩
    exact seen_looking hs.written (hs.written.reader _ _ _ hi) hd
  | looked =>
    refine hs.set hi _ rfl rfl nofun nofun ?_ trivial
    rintro _ _ ⟨⟩
    trivial

theorem Captured.writer {old writer : Writer}
    (hold : stream.writer = old) (hheld : writer.held = old.held)
    (happending : writer.appending = true → stream.written = stream.handled)
    (henabled : stream.disabled = false → writer.done = old.done)
    (hgaveUp : writer.gaveUp = true → stream.disabled = true)
    (hok : writer.Ok handle world.state)
    (hpart : ∀ output part, world.state.outputs.lookup handle = some output → prompt →
      old.Partly part → writer.Partly part) :
    Captured prompt handle world { stream with writer } := by
  subst hold
  exact ⟨hs.counted.writer hheld,
    hs.written.writer (hheld ▸ prefix_rfl) happending henabled hgaveUp,
    hs.filed.writer' hok hpart⟩

/-- The writer goes on inside `append_stream`. -/
theorem Captured.appending {old writer : Writer} (hold : stream.writer = old)
    (hin : old.appending = true) (hheld : writer.held = old.held) (hdone : writer.done = old.done)
    (hgaveUp : writer.gaveUp = false) (hok : writer.Ok handle world.state)
    (hpart : ∀ output part, world.state.outputs.lookup handle = some output → prompt →
      old.Partly part → writer.Partly part) :
    Captured prompt handle world { stream with writer } :=
  hs.writer hold hheld (fun _ => hs.written.appending (hold ▸ hin)) (fun _ => hdone)
    (fun h => nomatch hgaveUp.symm.trans h) hok hpart

theorem captured_stepWriter (hlands : prompt → outruns stream (.writer handle outcome) = false)
    (h : WriterStep limits handle outcome world stream world' stream') :
    Captured prompt handle world' stream' := by
  have hempty : ∀ {chunk : Chunk} {part : Bytes}, part = [] → part <+: chunk.bytes := by
    rintro chunk _ rfl
    exact nil_prefix
  cases h with
  | received hwriter hqueue =>
    refine ⟨hs.counted.receive hqueue hwriter, hs.written.writer ?_ nofun ?_ nofun,
      hs.filed.writer' trivial ?_⟩
    · rw [hwriter]
      exact nil_prefix
    · rw [hwriter]
      exact fun _ => rfl
    · rw [hwriter]
      exact fun _ _ _ _ hpart => hpart
  | skipped hwriter hd =>
    exact hs.writer hwriter rfl nofun (fun henabled => nomatch hd.symm.trans henabled) nofun trivial
      fun _ _ _ _ hpart => hpart
  | admitted hwriter hd =>
    have hdone := hs.written.enabled hd
    rw [hwriter] at hdone
    exact hs.writer hwriter rfl (fun _ => hdone.trans (append_nil _)) (fun _ => rfl) nofun trivial
      fun _ _ _ _ hpart => hpart
  | refused hwriter hreserve =>
    exact hs.appending hwriter rfl rfl rfl rfl trivial
      fun _ _ _ _ hpart => hempty hpart
  | reserved hwriter hreserve =>
    refine ⟨hs.counted.writer (hwriter ▸ rfl), ?_, hs.filed.reserve hwriter hreserve⟩
    exact hs.written.writer (hwriter ▸ prefix_rfl) (fun _ => hs.written.appending (hwriter ▸ rfl))
      (fun _ => hwriter ▸ rfl) nofun
  | unopened hwriter hfailed =>
    exact hs.appending hwriter rfl rfl rfl rfl trivial
      fun _ _ _ _ hpart => hempty hpart
  | opened hwriter =>
    have hok := hwriter ▸ hs.filed.writer
    refine hs.appending hwriter rfl rfl rfl rfl hok ?_
    rintro output part - - rfl
    rfl
  | @wrote chunk path flight hwriter =>
    refine ⟨hs.counted.writer (hwriter ▸ rfl), hs.written.write hwriter,
      hs.filed.write hwriter fun hprompt => ?_⟩
    have hnot := hlands hprompt
    cases flight with
    | nil => rfl
    | cons byte flight => simp [outruns, hwriter] at hnot
  | broke hwriter hfailed =>
    exact hs.appending hwriter rfl rfl rfl rfl trivial
      fun _ _ _ _ hpart => ⟨_, (append_assoc ..).symm.trans hpart⟩
  | @handed chunk path byte rest more hwriter =>
    have hok := hwriter ▸ hs.filed.writer
    refine hs.appending hwriter rfl rfl rfl rfl hok ?_
    intro output part _ _ hpart
    show part ++ byte :: rest.take more ++ rest.drop more = chunk.bytes
    rw [append_assoc, cons_append, take_append_drop, ← hpart, append_nil]
  | @failing chunk pc hwriter =>
    have hok := hwriter ▸ hs.filed.writer
    have hremove : Captured prompt handle (stepRemove handle outcome world pc).1 stream :=
      ⟨hs.counted, hs.written, hs.filed.remove hok outcome⟩
    cases hpc : (stepRemove handle outcome world pc).2 with
    | none =>
      exact hremove.appending hwriter rfl rfl rfl rfl trivial
        fun _ _ _ _ hpart => hpart
    | some next =>
      exact hremove.appending hwriter rfl rfl rfl rfl
        (ok_stepRemove hs.filed hpc) fun _ _ _ _ hpart => hpart
  | @closing chunk pc hwriter =>
    have hok := hwriter ▸ hs.filed.writer
    have hclose := hs.close hok outcome
    have hwriter' : (stepClose handle outcome world stream pc).2.1.writer = .closing chunk pc :=
      (writer_stepClose handle outcome world pc).trans hwriter
    have hdisabled : (stepClose handle outcome world stream pc).2.1.disabled = true := by
      refine disabled_stepClose fun hne => hs.written.gaveUp ?_
      rw [hwriter]
      cases pc with
      | disabling => exact absurd rfl hne
      | removing pc => rfl
    cases hpc : (stepClose handle outcome world stream pc).2.2 with
    | none =>
      have hgone := lookup_stepClose hok hpc
      exact hclose.writer hwriter' rfl nofun (fun henabled => nomatch hdisabled.symm.trans henabled)
        nofun trivial fun _ _ hlookup _ _ => nomatch hgone.symm.trans hlookup
    | some next =>
      exact hclose.writer hwriter' rfl (fun _ => hclose.written.appending (hwriter' ▸ rfl))
        (fun _ => rfl) (fun _ => hdisabled) (ok_stepClose hs.filed hpc) fun _ _ _ _ hpart => hpart
  | finished hwriter =>
    refine ⟨hs.counted.finish hwriter, hs.written.finish hwriter, hs.filed.writer' trivial ?_⟩
    rw [hwriter]
    exact fun _ _ _ _ hpart => hpart

theorem captured_stepBackground {slot : Option Nat}
    (hlands : prompt → outruns stream (.background handle slot outcome) = false)
    (h : BackgroundStep outcome world stream slot world' stream') :
    Captured prompt handle world' stream' := by
  cases h with
  | landed hwriter =>
    refine ⟨hs.counted.writer (hwriter ▸ rfl), ?_, hs.filed.land hwriter _⟩
    exact hs.written.writer (hwriter ▸ prefix_rfl) (fun _ => hs.written.appending (hwriter ▸ rfl))
      (fun _ => hwriter ▸ rfl) nofun
  | unseen hwriter hfailed =>
    have hok := hwriter ▸ hs.filed.writer
    refine hs.appending hwriter rfl rfl rfl rfl hok ?_
    intro output part _ hprompt _
    have hnot := hlands hprompt
    simp [outruns, hwriter, hfailed] at hnot
  | seen hwriter hfailed =>
    exact hs.appending hwriter rfl rfl rfl rfl trivial
      fun _ _ _ _ hpart => ⟨_, (append_assoc ..).symm.trans hpart⟩
  | @arrived j path byte bytes more hj =>
    refine hs.aside (hs.filed.straggle hj fun content hfile => ?_)
    obtain rfl : path = pathOf handle := (hs.filed.straggler _ (mem_of_getElem? hj)).1
    exact ⟨_, lookup_appendFile hfile⟩
  | lost hj => exact hs.aside (hs.filed.straggle hj fun content hfile => ⟨content, hfile⟩)

end

end Captured

end NovumAgent.ToolOutput
