import NovumAgent.ToolOutput.Session

/-!
# The store's accounts

The table of outputs and the total of their bytes are kept apart in the source and only ever
changed together, inside a lock section. `Section` says what a step of a session can do to them:
nothing, or one of the four sections, each on the handle the step is about. The accounts agree
after every section that found them agreeing, provided that a section which enters a handle finds
it absent; that much is known because a handle is drawn once and entered by the object that drew
it (`Unentered`).

The reservations of a failed write, the entries that a writer, an appender and a discard race to
remove, and the bytes reserved for a chunk that was never written all leave by `removeEntry`, which
takes out an entry with exactly the bytes accounted to it.
-/

namespace NovumAgent.ToolOutput

open Utf8 StoredOutput Table AList

/-- The accounts agree and keep within the limits. -/
structure Accounting (limits : Limits) (state : StoreState) : Prop where
  total : state.totalBytes = state.outputs.sumBy StoredOutput.byteLen
  outputs_le : state.outputs.size ≤ limits.maxOutputs
  total_le : state.totalBytes ≤ limits.maxTotalOutputBytes
  output_le : ∀ handle output, state.outputs.lookup handle = some output →
    output.byteLen ≤ limits.maxOutputBytes

/-- What a step does to the store: at most one lock section, on one handle. -/
inductive Section (limits : Limits) (handle : String) (state : StoreState) : StoreState → Prop where
  | none : Section limits handle state state
  | text {n : Nat} {state' : StoreState} (habsent : state.outputs.lookup handle = none)
      (hlen : n ≤ limits.maxOutputBytes) (h : reserveText limits handle n state = .ok state') :
      Section limits handle state state'
  | stream {state' : StoreState} (habsent : state.outputs.lookup handle = none)
      (h : insertStream limits handle state = .ok state') : Section limits handle state state'
  | append {n : Nat} {state' : StoreState} {path : String}
      (h : reserveAppend limits handle n state = .ok (state', path)) :
      Section limits handle state state'
  | remove : Section limits handle state (removeEntry handle state).1

variable {limits : Limits} {handle : String} {state state' : StoreState}

/-! ## One section -/

/-- An entry holds no more bytes than the total, so taking them off does not saturate. -/
theorem Accounting.byteLen_le (hacc : Accounting limits state) {output : StoredOutput}
    (h : state.outputs.lookup handle = some output) : output.byteLen ≤ state.totalBytes := by
  rw [hacc.total]
  exact le_sumBy h

theorem accounting_empty (limits : Limits) : Accounting limits .empty where
  total := rfl
  outputs_le := Nat.zero_le _
  total_le := Nat.zero_le _
  output_le := by
    intro handle output h
    simp [StoreState.empty] at h

section

variable (hacc : Accounting limits state)
include hacc

section

variable (habsent : state.outputs.lookup handle = none)
include habsent

theorem Accounting.insert {output : StoredOutput} (hroom : state.outputs.size < limits.maxOutputs)
    (htotal : state.totalBytes + output.byteLen ≤ limits.maxTotalOutputBytes)
    (hlen : output.byteLen ≤ limits.maxOutputBytes) :
    Accounting limits ⟨state.outputs.insert handle output, state.totalBytes + output.byteLen⟩ where
  total := by
    rw [sumBy_insert_of_notMem (lookup_eq_none.mp habsent), hacc.total, add_comm]
  outputs_le := by
    rw [size_insert_of_notMem (lookup_eq_none.mp habsent)]
    exact hroom
  total_le := htotal
  output_le := forall_insert hacc.output_le hlen

theorem accounting_insertStream
    (h : insertStream limits handle state = .ok state') : Accounting limits state' := by
  obtain ⟨hroom, rfl⟩ := insertStream_ok h
  exact hacc.insert habsent hroom hacc.total_le (Nat.zero_le _)

end

theorem accounting_reserveAppend {n : Nat} {path : String}
    (h : reserveAppend limits handle n state = .ok (state', path)) : Accounting limits state' := by
  obtain ⟨output, hlookup, -, htotal, hlen, rfl⟩ := reserveAppend_ok h
  have hle := hacc.byteLen_le hlookup
  have hfits := limits.fits
  have hmax := isizeMax_lt_usizeMax
  -- The bytes of one output are among those of all, so this sum did not saturate either.
  have hsum : saturatingAdd output.byteLen n = output.byteLen + n := saturatingAdd_of_le (by omega)
  rw [hsum] at hlen ⊢
  refine ⟨?_, ?_, htotal, forall_insert hacc.output_le hlen⟩
  · have hinsert : Table.sumBy StoredOutput.byteLen
        (state.outputs.insert handle ⟨output.path, output.byteLen + n⟩) + _ = _ + (_ + n) :=
      Table.sumBy_insert hlookup
    have htotal := hacc.total
    show state.totalBytes + n = Table.sumBy StoredOutput.byteLen
      (state.outputs.insert handle ⟨output.path, output.byteLen + n⟩)
    omega
  · show Table.size (state.outputs.insert handle _) ≤ limits.maxOutputs
    rw [size_insert hlookup]
    exact hacc.outputs_le

theorem accounting_removeEntry : Accounting limits (removeEntry handle state).1 := by
  cases hlookup : state.outputs.lookup handle with
  | none =>
    rw [removeEntry_of_none hlookup]
    exact hacc
  | some output =>
    rw [removeEntry_of_some hlookup]
    have hle := hacc.byteLen_le hlookup
    have hsum := Table.sumBy_erase (f := StoredOutput.byteLen) hlookup
    have hsize := size_erase hlookup
    have htotal := hacc.total
    have houtputs := hacc.outputs_le
    have htotalLe := hacc.total_le
    refine ⟨?_, ?_, ?_, forall_erase hacc.output_le⟩
    · show state.totalBytes - output.byteLen = sumBy _ (state.outputs.erase handle)
      omega
    · show size (state.outputs.erase handle) ≤ limits.maxOutputs
      omega
    · show state.totalBytes - output.byteLen ≤ limits.maxTotalOutputBytes
      omega

end

theorem Section.accounting (hsec : Section limits handle state state')
    (hacc : Accounting limits state) : Accounting limits state' := by
  cases hsec with
  | none => exact hacc
  | text habsent hlen h =>
    obtain ⟨hroom, htotal, rfl⟩ := reserveText_ok h
    exact hacc.insert habsent hroom htotal hlen
  | stream habsent h => exact accounting_insertStream hacc habsent h
  | append h => exact accounting_reserveAppend hacc h
  | remove => exact accounting_removeEntry hacc

theorem Section.lookup_ne (hsec : Section limits handle state state') {other : String}
    (hne : other ≠ handle) : state'.outputs.lookup other = state.outputs.lookup other := by
  cases hsec with
  | none => rfl
  | text habsent hlen h =>
    obtain ⟨-, -, rfl⟩ := reserveText_ok h
    exact lookup_insert_ne hne
  | stream habsent h =>
    obtain ⟨-, rfl⟩ := insertStream_ok h
    exact lookup_insert_ne hne
  | append h =>
    obtain ⟨output, -, -, -, -, rfl⟩ := reserveAppend_ok h
    exact lookup_insert_ne hne
  | remove =>
    cases hlookup : state.outputs.lookup handle with
    | none => rw [removeEntry_of_none hlookup]
    | some output =>
      rw [removeEntry_of_some hlookup]
      exact lookup_erase_ne hne

/-! ## Every run -/

/-- What is known of the entry behind a handle from the object that drew it: until its call enters
it there is none, and a text that is still to be entered fits. -/
def Unentered (limits : Limits) (handle : String) (state : StoreState) : Option Object → Prop
  | none => state.outputs.lookup handle = none
  | some (.text content .reserving) =>
    state.outputs.lookup handle = none ∧ byteLen content ≤ limits.maxOutputBytes
  | some (.opening _) => state.outputs.lookup handle = none
  | some _ => True

theorem section_stepRemove (limits : Limits) (handle : String) (outcome : Outcome) (world : World)
    (pc : RemovePc) :
    Section limits handle world.state (stepRemove handle outcome world pc).1.state := by
  cases pc with
  | locking => exact .remove
  | unlinking path => cases outcome <;> exact .none

theorem section_stepClose (limits : Limits) (handle : String) (outcome : Outcome) (world : World)
    (stream : Stream) (pc : ClosePc) :
    Section limits handle world.state (stepClose handle outcome world stream pc).1.state := by
  cases pc with
  | disabling => exact .none
  | removing pc => exact section_stepRemove limits handle outcome world pc

variable {world world' : World}

theorem section_stepTask {i : Nat} {outcome : Outcome} {stream stream' : Stream} {task task' : Task}
    (h : TaskStep handle i outcome world stream task world' stream' task') :
    Section limits handle world.state world'.state := by
  cases h with
  | closing | discarding => exact section_stepClose limits handle outcome world stream _
  | _ => exact .none

theorem section_stepWriter {outcome : Outcome} {stream stream' : Stream}
    (h : WriterStep limits handle outcome world stream world' stream') :
    Section limits handle world.state world'.state := by
  cases h with
  | reserved hwriter hreserve => exact .append hreserve
  | failing hwriter => exact section_stepRemove limits handle outcome world _
  | closing hwriter => exact section_stepClose limits handle outcome world stream _
  | _ => exact .none

theorem state_stepBackground {slot : Option Nat} {outcome : Outcome} {stream stream' : Stream}
    (h : BackgroundStep outcome world stream slot world' stream') : world'.state = world.state := by
  cases h with
  | _ => rfl

theorem section_stepObject {event : Event} {before : Option Object}
    {object : Object} {gives : List String}
    (hun : Unentered limits event.handle world.state before)
    (h : ObjectStep limits world event before world' object gives) :
    Section limits event.handle world.state world'.state ∧
      Unentered limits event.handle world'.state (some object) := by
  cases h with
  | storeText hlen => exact ⟨.none, hun, hlen⟩
  | startStream => exact ⟨.none, hun⟩
  | textReserved hreserve => exact ⟨.text hun.1 hun.2 hreserve, trivial⟩
  | textReleased => exact ⟨.remove, trivial⟩
  | created => exact ⟨.none, hun⟩
  | uncreated => exact ⟨.none, hun⟩
  | refused hinsert => exact ⟨.none, hun⟩
  | inserted hinsert => exact ⟨.stream hun hinsert, trivial⟩
  | task hi hstep => exact ⟨section_stepTask hstep, trivial⟩
  | writer hstep => exact ⟨section_stepWriter hstep, trivial⟩
  | background hstep =>
    rw [state_stepBackground hstep]
    exact ⟨.none, trivial⟩
  | _ => exact ⟨.none, trivial⟩

theorem Unentered.congr {object : Option Object} (hun : Unentered limits handle state object)
    (h : state'.outputs.lookup handle = state.outputs.lookup handle) :
    Unentered limits handle state' object := by
  unfold Unentered at hun ⊢
  rw [h]
  exact hun

/-- The accounts of a session, and what its objects say of the entries. -/
structure Sound (limits : Limits) (session : Session) : Prop where
  accounting : Accounting limits session.world.state
  unentered : ∀ handle, Unentered limits handle session.world.state (session.objects.lookup handle)

theorem sound_new (limits : Limits) : Sound limits .new :=
  ⟨accounting_empty limits, fun _ => lookup_empty _⟩

theorem sound_step {session session' : Session} {event : Event} (hsound : Sound limits session)
    (h : step limits session event = some session') : Sound limits session' := by
  obtain ⟨world, object, gives, hobject, rfl⟩ := step_some h
  obtain ⟨hsec, hun⟩ := section_stepObject (hsound.unentered event.handle) hobject
  refine ⟨hsec.accounting hsound.accounting, ?_⟩
  intro other
  by_cases heq : other = event.handle
  · subst heq
    rw [lookup_insert]
    exact hun
  · rw [lookup_insert_ne heq]
    exact (hsound.unentered other).congr (hsec.lookup_ne heq)

/-- **The accounts agree in every state of every run.** The total is the sum over the table, the
table and the total keep within the limits and so does every output; and no output holds more
bytes than the total, so taking an output's bytes off the total never saturates. -/
theorem accounts_agree {events : List Event} {session : Session}
    (hrun : Machine.run (step limits) .new events = some session) :
    session.world.state.totalBytes = session.world.state.outputs.sumBy StoredOutput.byteLen ∧
      session.world.state.outputs.size ≤ limits.maxOutputs ∧
      session.world.state.totalBytes ≤ limits.maxTotalOutputBytes ∧
      ∀ handle output, session.world.state.outputs.lookup handle = some output →
        output.byteLen ≤ limits.maxOutputBytes ∧
          output.byteLen ≤ session.world.state.totalBytes := by
  have hsound : Sound limits session :=
    Machine.run_invariant (fun _ _ _ hsound h => sound_step hsound h) (sound_new limits) hrun
  have hacc := hsound.accounting
  exact ⟨hacc.total, hacc.outputs_le, hacc.total_le,
    fun handle output h => ⟨hacc.output_le handle output h, hacc.byteLen_le h⟩⟩

/-- A session in which a text is reserved, a stream is opened and its writer has reserved a
chunk, all three at once. -/
def busySession : List Event :=
  [.storeText "a" "text".toList, .text "out_a" .ok, .startStream "b", .opening "out_b" (.ok 0),
    .opening "out_b" (.ok 0), .append "out_b" [7, 7], .task "out_b" 0 (.ok 0),
    .task "out_b" 0 (.ok 0), .task "out_b" 0 (.ok 0), .writer "out_b" (.ok 0),
    .writer "out_b" (.ok 0), .writer "out_b" (.ok 0)]

theorem accounts_agree_busy :
    ∃ session, Machine.run (step .default) .new busySession = some session ∧
      session.world.state.totalBytes = 6 ∧
      (session.world.state.totalBytes = session.world.state.outputs.sumBy StoredOutput.byteLen ∧
        session.world.state.outputs.size ≤ Limits.default.maxOutputs ∧
        session.world.state.totalBytes ≤ Limits.default.maxTotalOutputBytes ∧
        ∀ handle output, session.world.state.outputs.lookup handle = some output →
          output.byteLen ≤ Limits.default.maxOutputBytes ∧
            output.byteLen ≤ session.world.state.totalBytes) :=
  ⟨_, rfl, rfl,
    accounts_agree (show Machine.run (step .default) .new busySession = some _ from rfl)⟩

end NovumAgent.ToolOutput
