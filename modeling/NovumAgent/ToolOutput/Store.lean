import NovumAgent.Lib.Table
import NovumAgent.ToolOutput.Tokens

/-!
# The tool output store

A session keeps the text its tools printed in files of a temporary directory of its own and hands
the model opaque handles to them. What is in memory is a table from handles to a path and a byte
count, and the total of the counts; both are only touched under one lock. This module holds the
lock sections, one function for each, and the calls that are built from them and from file
operations.

The temporary directory is a table from file names to bytes. The random part of a handle is a
parameter of the call that draws it, and so is what a file operation came to: `WriteResult` lets a
failed write leave anything behind.
-/

namespace NovumAgent.ToolOutput

open Utf8

def maxOutputs : Nat := 64

def maxOutputBytes : Nat := 32 * 1024 * 1024

def maxTotalOutputBytes : Nat := 128 * 1024 * 1024

def streamCaptureQueueCapacity : Nat := 4096

/-- `ToolOutputStoreLimits`. The type is private to the source file, which builds the default and,
in its tests, smaller ones; `fits` keeps out the totals that no file system could hold, at which
the saturating sums of the source would stop being sums. -/
structure Limits where
  maxOutputs : Nat
  maxOutputBytes : Nat
  maxTotalOutputBytes : Nat
  fits : maxTotalOutputBytes ≤ isizeMax

def Limits.default : Limits where
  maxOutputs := ToolOutput.maxOutputs
  maxOutputBytes := ToolOutput.maxOutputBytes
  maxTotalOutputBytes := ToolOutput.maxTotalOutputBytes
  fits := by decide

/-- `StoredOutput`: the backing file and the bytes accounted to it. -/
structure StoredOutput where
  path : String
  byteLen : Nat
deriving DecidableEq

/-- `StoreState`: what the lock protects. -/
structure StoreState where
  outputs : Table String StoredOutput
  totalBytes : Nat

/-- `StoreState::default`. -/
def StoreState.empty : StoreState := ⟨∅, 0⟩

/-- `ToolOutputStoreError`, as far as the modelled calls raise it. -/
inductive StoreError where
  | unavailable
  | outputTooLarge
  | storageFull
  | storageFailed
deriving DecidableEq

/-- `StoredToolOutput`, the capability that goes to the model. -/
structure StoredToolOutput where
  handle : String
  byteLen : Nat
  tokenCount : Nat
deriving DecidableEq

/-- `ToolOutputRead`: one page of a stored text. -/
structure ToolOutputRead where
  content : Text
  nextOffset : Option Nat
  totalTokens : Nat
deriving DecidableEq

/-- The handle drawn with a random identifier. -/
def handleOf (uuid : String) : String := "out_" ++ uuid

/-- The backing file of a handle, in the session's directory. -/
def pathOf (handle : String) : String := handle ++ ".txt"

/-! ## The lock sections -/

/-- The first lock section of `store_text`: reserve the bytes and enter the handle. -/
def reserveText (limits : Limits) (handle : String) (byteLen : Nat) (state : StoreState) :
    Except StoreError StoreState :=
  if limits.maxOutputs ≤ state.outputs.size ∨
      limits.maxTotalOutputBytes < saturatingAdd state.totalBytes byteLen then
    .error .storageFull
  else
    .ok { outputs := state.outputs.insert handle ⟨pathOf handle, byteLen⟩
          totalBytes := state.totalBytes + byteLen }

/-- The lock section of `start_stream`: enter the handle with nothing accounted to it. -/
def insertStream (limits : Limits) (handle : String) (state : StoreState) :
    Except StoreError StoreState :=
  if limits.maxOutputs ≤ state.outputs.size then .error .storageFull
  else .ok { state with outputs := state.outputs.insert handle ⟨pathOf handle, 0⟩ }

/-- The lock section of `append_stream`: account the bytes of a chunk before they are written. It
returns the path to write to. -/
def reserveAppend (limits : Limits) (handle : String) (bytes : Nat) (state : StoreState) :
    Except StoreError (StoreState × String) :=
  let newTotal := saturatingAdd state.totalBytes bytes
  if limits.maxTotalOutputBytes < newTotal then .error .storageFull
  else
    match state.outputs.lookup handle with
    | none => .error .unavailable
    | some output =>
      let newOutputLen := saturatingAdd output.byteLen bytes
      if limits.maxOutputBytes < newOutputLen then .error .outputTooLarge
      else
        .ok ({ outputs := state.outputs.insert handle { output with byteLen := newOutputLen }
               totalBytes := newTotal }, output.path)

/-- The lock section of `remove_output`, and the one that undoes a reservation of `store_text`: it
returns the path of the entry it took out. A difference of natural numbers saturates at zero, as
the source's does. -/
def removeEntry (handle : String) (state : StoreState) : StoreState × Option String :=
  match state.outputs.lookup handle with
  | none => (state, none)
  | some output =>
    ({ outputs := state.outputs.erase handle
       totalBytes := state.totalBytes - output.byteLen }, some output.path)

/-- `stream_output`: the handle of a stream that is still in the table. -/
def streamOutput (handle : String) (state : StoreState) : Option StoredToolOutput :=
  (state.outputs.lookup handle).map fun output =>
    { handle, byteLen := output.byteLen, tokenCount := saturatingAdd output.byteLen 3 / 4 }

/-! ## Whole calls -/

/-- The session's directory. -/
abbrev Files := Table String Bytes

/-- The store as one caller sees it between calls. -/
structure World where
  state : StoreState
  files : Files

/-- A store just created. -/
def World.empty : World := ⟨.empty, ∅⟩

/-- What writing a file came to. A write that failed leaves no file or any bytes. -/
inductive WriteResult where
  | ok
  | failed (left : Option Bytes)
deriving DecidableEq

/-- The directory after a write of a whole file. -/
def writeFile (path : String) (content : Bytes) : WriteResult → Files → Files
  | .ok, files => files.insert path content
  | .failed none, files => files.erase path
  | .failed (some left), files => files.insert path left

def storeText (limits : Limits) (uuid : String) (write : WriteResult) (content : Text)
    (world : World) : Except StoreError StoredToolOutput × World :=
  if limits.maxOutputBytes < byteLen content then (.error .outputTooLarge, world)
  else
    let handle := handleOf uuid
    match reserveText limits handle (byteLen content) world.state with
    | .error e => (.error e, world)
    | .ok state =>
      let files := writeFile (pathOf handle) (encode content) write world.files
      match write with
      | .failed _ => (.error .storageFailed, ⟨(removeEntry handle state).1, files⟩)
      | .ok =>
        (.ok { handle, byteLen := byteLen content, tokenCount := approxTokenCount content },
          ⟨state, files⟩)

/-- `read_content`: the text behind a handle. -/
def readContent (handle : String) (world : World) : Except StoreError Text :=
  match world.state.outputs.lookup handle with
  | none => .error .unavailable
  | some output =>
    match world.files.lookup output.path with
    | none => .error .unavailable
    | some bytes => .ok (fromUtf8Lossy bytes)

/-- The loop of `char_boundary_at_or_before`. -/
def boundaryLoop (content : Text) : Nat → Nat
  | 0 => 0
  | index + 1 => if isCharBoundary content (index + 1) then index + 1 else boundaryLoop content index

def charBoundaryAtOrBefore (content : Text) (offset : Nat) : Nat :=
  boundaryLoop content (min offset (byteLen content))

/-- The page of a text that `read` cuts out: the window of `max_tokens` tokens at a token offset,
both ends moved back to a character boundary. -/
def readPage (content : Text) (offset maxTokens : Nat) : ToolOutputRead :=
  let start := charBoundaryAtOrBefore content (approxBytesForTokens offset)
  let stop := charBoundaryAtOrBefore content (saturatingAdd start (approxBytesForTokens maxTokens))
  let page := slice content start stop
  { content := page
    nextOffset :=
      if stop < byteLen content then some (saturatingAdd (approxTokenCount page) offset) else none
    totalTokens := approxTokenCount content }

def read (handle : String) (offset maxTokens : Nat) (world : World) :
    Except StoreError ToolOutputRead :=
  (readContent handle world).map fun content => readPage content offset maxTokens

/-! ## What a lock section did -/

section Sections

variable {limits : Limits} {handle : String} {n : Nat} {state state' : StoreState}

theorem add_le_of_saturatingAdd_le {a b : Nat}
    (h : ¬ limits.maxTotalOutputBytes < saturatingAdd a b) :
    a + b ≤ limits.maxTotalOutputBytes := by
  have hmax := isizeMax_lt_usizeMax
  have hfits := limits.fits
  exact saturatingAdd_le_of_le (not_lt.mp h) (by omega)

theorem reserveText_ok (h : reserveText limits handle n state = .ok state') :
    state.outputs.size < limits.maxOutputs ∧ state.totalBytes + n ≤ limits.maxTotalOutputBytes ∧
      state' = { outputs := state.outputs.insert handle ⟨pathOf handle, n⟩
                 totalBytes := state.totalBytes + n } := by
  unfold reserveText at h
  split_ifs at h with hfull
  rw [not_or] at hfull
  exact ⟨not_le.mp hfull.1, add_le_of_saturatingAdd_le hfull.2, (Except.ok.inj h).symm⟩

theorem insertStream_ok (h : insertStream limits handle state = .ok state') :
    state.outputs.size < limits.maxOutputs ∧
      state' = { state with outputs := state.outputs.insert handle ⟨pathOf handle, 0⟩ } := by
  unfold insertStream at h
  split_ifs at h with hfull
  exact ⟨not_le.mp hfull, (Except.ok.inj h).symm⟩

/-- A chunk that was reserved fits both limits, so nothing saturated. -/
theorem reserveAppend_ok {path : String}
    (h : reserveAppend limits handle n state = .ok (state', path)) :
    ∃ output, state.outputs.lookup handle = some output ∧ output.path = path ∧
      state.totalBytes + n ≤ limits.maxTotalOutputBytes ∧
      saturatingAdd output.byteLen n ≤ limits.maxOutputBytes ∧
      state' = { outputs := state.outputs.insert handle
                   { output with byteLen := saturatingAdd output.byteLen n }
                 totalBytes := state.totalBytes + n } := by
  unfold reserveAppend at h
  simp only at h
  split_ifs at h with htotal
  have hsum := add_le_of_saturatingAdd_le htotal
  cases hlookup : state.outputs.lookup handle with
  | none => simp [hlookup] at h
  | some output =>
    simp only [hlookup] at h
    split_ifs at h with hlarge
    simp only [Except.ok.injEq, Prod.mk.injEq] at h
    obtain ⟨rfl, rfl⟩ := h
    have hmax := isizeMax_lt_usizeMax
    have hfits := limits.fits
    refine ⟨output, rfl, rfl, hsum, not_lt.mp hlarge, ?_⟩
    rw [saturatingAdd_of_le (a := state.totalBytes) (by omega)]

theorem removeEntry_of_none (h : state.outputs.lookup handle = none) :
    removeEntry handle state = (state, none) := by
  simp only [removeEntry, h]

theorem removeEntry_of_some {output : StoredOutput} (h : state.outputs.lookup handle = some output) :
    removeEntry handle state =
      ({ outputs := state.outputs.erase handle
         totalBytes := state.totalBytes - output.byteLen }, some output.path) := by
  simp only [removeEntry, h]

end Sections

/-! ## What a stored text reads as -/

variable {limits : Limits} {uuid : String} {write : WriteResult} {content : Text} {world world' : World}
  {stored : StoredToolOutput}

theorem storeText_ok (h : storeText limits uuid write content world = (.ok stored, world')) :
    ∃ state, byteLen content ≤ limits.maxOutputBytes ∧
      reserveText limits (handleOf uuid) (byteLen content) world.state = .ok state ∧
      stored = ⟨handleOf uuid, byteLen content, approxTokenCount content⟩ ∧
      world' = ⟨state, world.files.insert (pathOf (handleOf uuid)) (encode content)⟩ := by
  unfold storeText at h
  split_ifs at h with hlarge
  · simp at h
  · cases hreserve : reserveText limits (handleOf uuid) (byteLen content) world.state with
    | error e => simp [hreserve] at h
    | ok state =>
      cases write with
      | failed left => simp [hreserve] at h
      | ok =>
        simp only [hreserve, Prod.mk.injEq, Except.ok.injEq] at h
        exact ⟨state, not_lt.mp hlarge, rfl, h.1.symm, h.2.symm⟩

theorem readContent_storeText
    (h : storeText limits uuid write content world = (.ok stored, world')) :
    readContent stored.handle world' = .ok content := by
  obtain ⟨state, -, hreserve, rfl, rfl⟩ := storeText_ok h
  obtain ⟨-, -, rfl⟩ := reserveText_ok hreserve
  simp only [readContent, AList.lookup_insert, fromUtf8Lossy_encode]

theorem byteLen_le_of_storeText
    (h : storeText limits uuid write content world = (.ok stored, world')) :
    byteLen content ≤ isizeMax := by
  obtain ⟨state, -, hreserve, -, -⟩ := storeText_ok h
  have htotal := (reserveText_ok hreserve).2.1
  have hfits := limits.fits
  omega

end NovumAgent.ToolOutput
