import Mathlib.Data.List.ModifyLast
import NovumAgent.ApplyPatch.ParserLines

/-!
# The two parsers agree

The streaming and the batch parser run one loop over lines that may differ by a carriage return at
their ends. Markers are recognised in trimmed lines, so that the difference shows in two places only:
in the texts that are taken from a line into a hunk, and in a line that is all carriage return, which
is an empty context line for one parser and an error for the other.

The argument compares the two runs by the *shape* of their states, in which the texts are left out,
and by their *weight*, the total length of the texts: shapes stay equal, and the weight of the
streaming parser gets ahead with the first text that keeps its carriage return.
-/

namespace NovumAgent.ApplyPatch

open List Text UpdateFileChunk Except

/-! ## Shape and weight -/

/-- A chunk without its texts. -/
def UpdateFileChunk.shape (c : UpdateFileChunk) : UpdateFileChunk :=
  { c with oldLines := c.oldLines.map fun _ => [], newLines := c.newLines.map fun _ => [] }

/-- The total length of the texts of a chunk. -/
def UpdateFileChunk.weight (c : UpdateFileChunk) : Nat :=
  (c.oldLines.map length).sum + (c.newLines.map length).sum

/-- A hunk without its texts. -/
def Hunk.shape : Hunk → Hunk
  | .addFile path _ => .addFile path []
  | .deleteFile path => .deleteFile path
  | .updateFile path movePath chunks => .updateFile path movePath (chunks.map UpdateFileChunk.shape)

/-- The total length of the texts of some chunks. -/
def chunksWeight (chunks : List UpdateFileChunk) : Nat :=
  (chunks.map UpdateFileChunk.weight).sum

/-- The total length of the texts of a hunk. -/
def Hunk.weight : Hunk → Nat
  | .addFile _ contents => contents.length
  | .deleteFile _ => 0
  | .updateFile _ _ chunks => chunksWeight chunks

namespace StreamingParserState

/-- States that differ in the texts of their hunks only. -/
structure SameShape (σ β : StreamingParserState) : Prop where
  mode : σ.mode = β.mode
  environmentId : σ.environmentId = β.environmentId
  hunks : σ.hunks.map Hunk.shape = β.hunks.map Hunk.shape

/-- The total length of the texts of its hunks. -/
def weight (s : StreamingParserState) : Nat := (s.hunks.map Hunk.weight).sum

/-- A line is taken as text, in the mode the parser is in: an added line of a new file; an added, a
removed or a context line of an update, or an empty one, unless the last chunk was ended. -/
def TakesText (line : Text) (s : StreamingParserState) : Prop :=
  match s.mode, s.hunks.getLast? with
  | .addFile, _ => line.head? = some '+'
  | .updateFile _, some (.updateFile _ _ chunks) =>
    lastChunkIsEof chunks = false ∧ IsText line
  | _, _ => False

instance (line : Text) (s : StreamingParserState) : Decidable (s.TakesText line) := by
  unfold TakesText IsText
  split <;> infer_instance

theorem TakesText.mode {line : Text} {s : StreamingParserState} (h : s.TakesText line) :
    s.mode = .addFile ∨ ∃ k, s.mode = .updateFile k := by
  unfold TakesText at h
  split at h
  next hmode => exact .inl hmode
  next k _ _ _ hmode _ => exact .inr ⟨k, hmode⟩
  next => exact h.elim

variable {k : Nat} {α : Type*} {trimmed rest : Text}

theorem TakesText.isText {line : Text} {s : StreamingParserState}
    (h : s.TakesText line) (hmode : s.mode = .updateFile k) : IsText line := by
  unfold TakesText at h
  split at h
  next hadd => cases hmode.symm.trans hadd
  next => exact h.2
  next => exact h.elim

end StreamingParserState

/-- **A text line keeps a carriage return.** In the run of the batch parser over these lines, from
which one carriage return was stripped, a line that is taken as text still ends in one. -/
def Frays (n : Nat) : List Text → StreamingParserState → Prop
  | [], _ => False
  | line :: ls, s =>
    (line.getLast? = some '\r' ∧ s.TakesText (chompCr line)) ∨
      match s.processLine (n + 1) (chompCr line) with
      | .error _ => False
      | .ok s => Frays (n + 1) ls s

/-- Whether it does can be decided, since the run can be made. -/
instance decidableFrays : (n : Nat) → (ls : List Text) → (s : StreamingParserState) →
    Decidable (Frays n ls s)
  | _, [], _ => .isFalse id
  | n, line :: ls, s =>
    @instDecidableOr _ _ _ <|
      match s.processLine (n + 1) (chompCr line) with
      | .error _ => .isFalse id
      | .ok s => decidableFrays (n + 1) ls s

variable {line : Text} {ls : List Text} {s s' σ σ' β β' : StreamingParserState} {n : Nat}
  {chunks chunks' : List UpdateFileChunk} {movePath movePath' : Option Text}

open StreamingParserState

/-! ## Runs of one shape -/

theorem concat_of_map_eq {γ : Type*} {f : α → γ} {l l' : List α} (h : l.map f = l'.map f) :
    (l = [] ∧ l' = []) ∨ ∃ a x a' x', l = a ++ [x] ∧ l' = a' ++ [x'] ∧ a.map f = a'.map f ∧
      f x = f x' := by
  rcases eq_nil_or_concat l with rfl | ⟨a, x, rfl⟩
  · exact .inl ⟨rfl, map_eq_nil_iff.mp h.symm⟩
  · rcases eq_nil_or_concat l' with rfl | ⟨a', x', rfl⟩
    · simp at h
    · simp only [concat_eq_append, map_append, map_cons, map_nil] at h ⊢
      obtain ⟨hfront, hlast⟩ := append_inj' h rfl
      exact .inr ⟨a, x, a', x', rfl, rfl, hfront, by simpa using hlast⟩

theorem lastChunkIsEmpty_shape (h : chunks.map shape = chunks'.map .shape) :
    lastChunkIsEmpty chunks = lastChunkIsEmpty chunks' := by
  rcases concat_of_map_eq h with ⟨rfl, rfl⟩ | ⟨a, x, a', x', rfl, rfl, _, hlast⟩
  · rfl
  · have hold : x.oldLines.isEmpty = x'.oldLines.isEmpty := by
      simpa only [shape, isEmpty_map] using congrArg (fun c => c.oldLines.isEmpty) hlast
    have hnew : x.newLines.isEmpty = x'.newLines.isEmpty := by
      simpa only [shape, isEmpty_map] using congrArg (fun c => c.newLines.isEmpty) hlast
    simp only [lastChunkIsEmpty, getLast?_concat, Option.any_some, hold, hnew]

theorem lastChunkIsEof_shape (h : chunks.map shape = chunks'.map .shape) :
    lastChunkIsEof chunks = lastChunkIsEof chunks' := by
  rcases concat_of_map_eq h with ⟨rfl, rfl⟩ | ⟨a, x, a', x', rfl, rfl, _, hlast⟩
  · rfl
  · have heof : x.isEndOfFile = x'.isEndOfFile := (mk.inj hlast).2.2.2.2
    simp [lastChunkIsEof, heof]

theorem ensure_shape (h : σ.SameShape β) (n : Nat) (line : Text) :
    σ.ensureUpdateHunkIsNotEmpty n line = β.ensureUpdateHunkIsNotEmpty n line := by
  unfold ensureUpdateHunkIsNotEmpty
  rw [h.mode]
  rcases concat_of_map_eq h.hunks with ⟨hσ, hβ⟩ | ⟨a, x, a', x', hσ, hβ, _, hx⟩
  · rw [hσ, hβ]
  · rw [hσ, hβ, getLast?_concat, getLast?_concat]
    cases x with
    | addFile => cases x' <;> first | rfl | cases hx
    | deleteFile => cases x' <;> first | rfl | cases hx
    | updateFile p m c =>
      cases x' with
      | addFile | deleteFile => cases hx
      | updateFile p' m' c' =>
        simp only [Hunk.shape, Hunk.updateFile.injEq] at hx
        obtain ⟨rfl, rfl, hchunks⟩ := hx
        have hempty := lastChunkIsEmpty_shape hchunks
        simp only [hempty]
        rcases concat_of_map_eq hchunks with ⟨rfl, rfl⟩ | ⟨b, y, b', y', rfl, rfl, _, _⟩
        · rfl
        · cases b <;> cases b' <;> rfl

theorem hunkHeader_new {hunk : Hunk} {mode : StreamingParserMode}
    (h : hunkHeader n trimmed = some (hunk, mode)) : hunk.weight = 0 ∧ mode ≠ .endedPatch := by
  unfold hunkHeader at h
  split at h
  next => cases h; exact ⟨rfl, nofun⟩
  next =>
    split at h
    next => cases h; exact ⟨rfl, nofun⟩
    next =>
      obtain ⟨path, _, heq⟩ := Option.map_eq_some_iff.mp h
      cases heq
      exact ⟨rfl, nofun⟩

/-- **Headers do to states of one shape the same**, and take no text. -/
theorem handle_shape (h : σ.SameShape β) {n : Nat} {r : Option StreamingParserState}
    (hσ : σ.handleHunkHeadersAndEndPatch n trimmed = .ok r) :
    (r = none ∧ β.handleHunkHeadersAndEndPatch n trimmed = .ok none) ∨
      ∃ σ' β', r = some σ' ∧ β.handleHunkHeadersAndEndPatch n trimmed = .ok (some β') ∧
        σ'.SameShape β' ∧ σ'.weight = σ.weight ∧ β'.weight = β.weight := by
  by_cases hplain : β.mode ≠ .startedPatch ∨ stripPrefix environmentIdMarker trimmed = none
  · rw [handle_header n (h.mode ▸ hplain), ensure_shape h] at hσ
    rw [handle_header n hplain]
    cases hensure : β.ensureUpdateHunkIsNotEmpty n trimmed with
    | error error =>
      simp only [hensure] at hσ ⊢
      by_cases hend : trimmed = endPatchMarker
      · rw [if_pos hend] at hσ
        cases hσ
      · rw [if_neg hend] at hσ ⊢
        cases hheader : hunkHeader n trimmed with
        | none => rw [hheader] at hσ; cases hσ; exact .inl ⟨rfl, rfl⟩
        | some header => rw [hheader] at hσ; cases hσ
    | ok _ =>
      simp only [hensure] at hσ ⊢
      by_cases hend : trimmed = endPatchMarker
      · rw [if_pos hend] at hσ ⊢
        cases hσ
        exact .inr ⟨_, _, rfl, rfl, ⟨rfl, h.environmentId, h.hunks⟩, rfl, rfl⟩
      · rw [if_neg hend] at hσ ⊢
        cases hheader : hunkHeader n trimmed with
        | none => rw [hheader] at hσ; cases hσ; exact .inl ⟨rfl, rfl⟩
        | some header =>
          obtain ⟨hunk, mode⟩ := header
          rw [hheader] at hσ
          cases hσ
          have hnew : hunk.weight = 0 := (hunkHeader_new hheader).1
          refine .inr ⟨_, _, rfl, rfl, ⟨rfl, h.environmentId, ?_⟩, ?_, ?_⟩
          · rw [map_append, map_append, h.hunks]
          · simp [StreamingParserState.weight, hnew]
          · simp [StreamingParserState.weight, hnew]
  · rw [not_or, not_not] at hplain
    obtain ⟨hmode, hstrip⟩ := hplain
    obtain ⟨environmentId, hid⟩ := Option.ne_none_iff_exists'.mp hstrip
    rw [handle_environmentId n (h.mode.trans hmode) hid] at hσ
    rw [handle_environmentId n hmode hid]
    unfold handleEnvironmentId at hσ ⊢
    rw [h.environmentId] at hσ
    by_cases hsome : β.environmentId.isSome
    · rw [if_pos hsome] at hσ
      cases hσ
    · rw [if_neg hsome] at hσ ⊢
      by_cases hempty : trim environmentId = []
      · rw [if_pos hempty] at hσ
        cases hσ
      · rw [if_neg hempty] at hσ ⊢
        cases hσ
        exact .inr ⟨_, _, rfl, rfl, ⟨h.mode, rfl, h.hunks⟩, rfl, rfl⟩

/-! ## One line -/

theorem chunksWeight_concat (chunks : List UpdateFileChunk) (c : UpdateFileChunk) :
    chunksWeight (chunks ++ [c]) = chunksWeight chunks + c.weight := by
  simp [chunksWeight]

theorem editLastChunk_shape {f g : UpdateFileChunk → UpdateFileChunk}
    (h : chunks.map shape = chunks'.map .shape)
    (hshape : ∀ c c' : UpdateFileChunk, c.shape = c'.shape → (f c).shape = (g c').shape)
    (hweight : ∀ c c' : UpdateFileChunk, (g c').weight + c.weight + k ≤ (f c).weight + c'.weight) :
    (editLastChunk f chunks).map shape = (editLastChunk g chunks').map .shape ∧
      chunksWeight (editLastChunk g chunks') + chunksWeight chunks + k ≤
        chunksWeight (editLastChunk f chunks) + chunksWeight chunks' := by
  rcases concat_of_map_eq h with ⟨rfl, rfl⟩ | ⟨a, x, a', x', rfl, rfl, hfront, hlast⟩
  · have := hweight .default .default
    simp only [editLastChunk, getLast?_nil, chunksWeight, map_cons, map_nil,
      sum_cons, sum_nil, hshape _ _ rfl, true_and]
    omega
  · have := hweight x x'
    simp only [editLastChunk, getLast?_concat, dropLast_concat, map_append,
      map_cons, map_nil, hfront, hshape x x' hlast, chunksWeight_concat, true_and]
    omega

theorem UpdateFileChunk.shape_pushContextLine (text : Text) (c : UpdateFileChunk) :
    (c.pushContextLine text).shape = c.shape.pushContextLine [] := by
  simp [shape, pushContextLine]

theorem UpdateFileChunk.weight_pushContextLine (text : Text) (c : UpdateFileChunk) :
    (c.pushContextLine text).weight = c.weight + 2 * text.length := by
  simp [weight, pushContextLine]
  omega

/-- The carriage return that a line keeps, as a number. -/
def cr (line : Text) : Nat := if line.getLast? = some '\r' then 1 else 0

theorem chompCr_cons {c : Char} (hc : c ≠ '\r') (text : Text) :
    chompCr (c :: text) = c :: chompCr text ∧ cr (c :: text) = cr text := by
  cases text with
  | nil => simp [chompCr, stripLast, cr, hc]
  | cons d text =>
    have hlast : (c :: d :: text).getLast? = (d :: text).getLast? := getLast?_cons_cons
    unfold chompCr stripLast cr
    rw [hlast]
    refine ⟨?_, rfl⟩
    split
    next => rfl
    next => rfl

theorem length_chompCr (line : Text) : (chompCr line).length + cr line = line.length := by
  unfold cr
  rcases chompCr_cases line with ⟨h, heq⟩ | ⟨h, heq⟩
  · rw [heq, if_neg h, add_zero]
  · rw [if_pos h]
    conv_rhs => rw [heq]
    simp

/-- **A text line with a carriage return more** makes a chunk of the same shape, with more in it. -/
theorem updateTextLine_shape (h : chunks.map shape = chunks'.map .shape)
    {result : List UpdateFileChunk}
    (hline : updateTextLine line chunks = .ok result) :
    ∃ result', updateTextLine (chompCr line) chunks' = .ok result' ∧
      result.map shape = result'.map .shape ∧
      chunksWeight result' + chunksWeight chunks + cr line ≤
        chunksWeight result + chunksWeight chunks' := by
  unfold updateTextLine at hline
  split at hline
  next =>
    cases hline
    refine ⟨_, rfl, editLastChunk_shape h (fun c c' hc => ?_) fun c c' => ?_⟩
    · rw [shape_pushContextLine, hc, shape_pushContextLine]
    · simp [weight_pushContextLine, cr]
      omega
  next text =>
    cases hline
    obtain ⟨hchomp, hcr⟩ := chompCr_cons (show ' ' ≠ '\r' by decide) text
    rw [hchomp, hcr]
    have hlen := length_chompCr text
    refine ⟨_, rfl, editLastChunk_shape h (fun c c' hc => ?_) fun c c' => ?_⟩
    · rw [shape_pushContextLine, hc, shape_pushContextLine]
    · simp only [weight_pushContextLine]
      omega
  next text =>
    cases hline
    obtain ⟨hchomp, hcr⟩ := chompCr_cons (show '+' ≠ '\r' by decide) text
    rw [hchomp, hcr]
    have hlen := length_chompCr text
    refine ⟨_, rfl, editLastChunk_shape h (fun c c' hc => ?_) fun c c' => ?_⟩
    · simp only [UpdateFileChunk.shape, UpdateFileChunk.mk.injEq, map_append] at hc ⊢
      simp [hc]
    · simp only [UpdateFileChunk.weight, map_append, sum_append, map_cons,
        map_nil, sum_cons, sum_nil]
      omega
  next text =>
    cases hline
    obtain ⟨hchomp, hcr⟩ := chompCr_cons (show '-' ≠ '\r' by decide) text
    rw [hchomp, hcr]
    have hlen := length_chompCr text
    refine ⟨_, rfl, editLastChunk_shape h (fun c c' hc => ?_) fun c c' => ?_⟩
    · simp only [UpdateFileChunk.shape, UpdateFileChunk.mk.injEq, map_append] at hc ⊢
      simp [hc]
    · simp only [UpdateFileChunk.weight, map_append, sum_append, map_cons,
        map_nil, sum_cons, sum_nil]
      omega
  next =>
    split at hline <;> cases hline

theorem endLastChunk_shape (h : chunks.map UpdateFileChunk.shape = chunks'.map .shape) :
    (chunks.modifyLast fun c => { c with isEndOfFile := true }).map shape =
        (chunks'.modifyLast fun c => { c with isEndOfFile := true }).map .shape ∧
      chunksWeight (chunks'.modifyLast fun c => { c with isEndOfFile := true }) +
          chunksWeight chunks =
        chunksWeight (chunks.modifyLast fun c => { c with isEndOfFile := true }) +
          chunksWeight chunks' := by
  rcases concat_of_map_eq h with ⟨rfl, rfl⟩ | ⟨a, x, a', x', rfl, rfl, hfront, hlast⟩
  · exact ⟨rfl, rfl⟩
  · have hx : ({ x with isEndOfFile := true } : UpdateFileChunk).shape =
        ({ x' with isEndOfFile := true } : UpdateFileChunk).shape := by
      simp only [UpdateFileChunk.shape, UpdateFileChunk.mk.injEq] at hlast ⊢
      exact ⟨hlast.1, hlast.2.1, hlast.2.2.1, hlast.2.2.2.1, trivial⟩
    simp only [modifyLast_concat, map_append, map_cons, map_nil, hfront, hx,
      chunksWeight_concat, UpdateFileChunk.weight, true_and]
    omega

/-- **Markers do to chunks of one shape the same.** -/
theorem updateMarkerLine_shape (h : chunks.map UpdateFileChunk.shape = chunks'.map .shape)
    (updateLine : Text) (movePath : Option Text) :
    (updateMarkerLine updateLine movePath chunks = none ∧
        updateMarkerLine updateLine movePath chunks' = none) ∨
      (∃ message, updateMarkerLine updateLine movePath chunks = some (.error message)) ∨
      ∃ movePath' result result', updateMarkerLine updateLine movePath chunks =
            some (.ok (movePath', result)) ∧
          updateMarkerLine updateLine movePath chunks' = some (.ok (movePath', result')) ∧
          result.map shape = result'.map .shape ∧
          chunksWeight result' + chunksWeight chunks =
            chunksWeight result + chunksWeight chunks' := by
  have heof := lastChunkIsEof_shape h
  have hempty := lastChunkIsEmpty_shape h
  have hnil : chunks = [] ↔ chunks' = [] := by
    rw [← map_eq_nil_iff (f := shape), h, map_eq_nil_iff]
  have hpush : ∀ c : UpdateFileChunk, (chunks ++ [c]).map shape = (chunks' ++ [c]).map .shape ∧
        chunksWeight (chunks' ++ [c]) + chunksWeight chunks =
          chunksWeight (chunks ++ [c]) + chunksWeight chunks' := by
    intro c
    rw [map_append, map_append, h, chunksWeight_concat, chunksWeight_concat]
    exact ⟨rfl, by omega⟩
  unfold updateMarkerLine
  simp only [heof, hempty, hnil]
  split
  next => exact .inr (.inr ⟨_, _, _, rfl, rfl, h, by omega⟩)
  next =>
    split
    next => exact .inr (.inl ⟨_, rfl⟩)
    next =>
      split
      next => exact .inr (.inr ⟨_, _, _, rfl, rfl, h, by omega⟩)
      next =>
        split
        next => exact .inr (.inl ⟨_, rfl⟩)
        next =>
          split
          next => exact .inr (.inr ⟨_, _, _, rfl, rfl, hpush _⟩)
          next =>
            split
            next => exact .inr (.inr ⟨_, _, _, rfl, rfl, hpush _⟩)
            next =>
              split
              next =>
                split
                next => exact .inr (.inl ⟨_, rfl⟩)
                next => exact .inr (.inr ⟨_, _, _, rfl, rfl, endLastChunk_shape h⟩)
              next => exact .inl ⟨rfl, rfl⟩

theorem updateHunkLine_shape (h : chunks.map shape = chunks'.map .shape)
    {result : List UpdateFileChunk}
    (hline : updateHunkLine line movePath chunks = .ok (movePath', result)) :
    ∃ result', updateHunkLine (chompCr line) movePath chunks' = .ok (movePath', result') ∧
      result.map shape = result'.map .shape ∧
      chunksWeight result' + chunksWeight chunks ≤ chunksWeight result + chunksWeight chunks' ∧
      (lastChunkIsEof chunks' = false → IsText (chompCr line) →
        chunksWeight result' + chunksWeight chunks + cr line ≤
          chunksWeight result + chunksWeight chunks') := by
  unfold updateHunkLine at hline ⊢
  rw [trimEnd_chompCr]
  rcases updateMarkerLine_shape h (trimEnd line) movePath with
    ⟨hnone, hnone'⟩ | ⟨message, herror⟩ | ⟨m, r, r', hok, hok', hshape, hweight⟩
  · rw [hnone] at hline
    rw [hnone']
    cases hresult : updateTextLine line chunks with
    | error message => simp [hresult, Except.map] at hline
    | ok r =>
      simp only [hresult] at hline
      obtain ⟨rfl, rfl⟩ := hline
      obtain ⟨r', hr', hshape, hweight⟩ := updateTextLine_shape h hresult
      exact ⟨r', by simp [hr', Except.map], hshape, by omega, fun _ _ => hweight⟩
  · rw [herror] at hline
    cases hline
  · rw [hok] at hline
    rw [hok']
    cases hline
    refine ⟨r', rfl, hshape, by omega, fun hopen htext => ?_⟩
    -- a text line is no marker
    have hhead := htext.head_trimEnd
    rw [trimEnd_chompCr] at hhead
    rw [updateMarkerLine_text hopen hhead] at hok'
    cases hok'

/-- What a line does in two states of one shape, the second time without its carriage return. -/
structure Ahead (line : Text) (σ β σ' β' : StreamingParserState) : Prop where
  shape : σ'.SameShape β'
  weight : β'.weight + σ.weight ≤ σ'.weight + β.weight
  text : β.TakesText (chompCr line) → β'.weight + σ.weight + cr line ≤ σ'.weight + β.weight

theorem Ahead.of_header (hshape : σ'.SameShape β') (hσ : σ'.weight = σ.weight)
    (hβ : β'.weight = β.weight) (htext : ¬ β.TakesText (chompCr line)) : Ahead line σ β σ' β' :=
  ⟨hshape, by omega, fun h => absurd h htext⟩

section

variable (h : σ.SameShape β)
include h

theorem Ahead.of_last {a a' : List Hunk} {x x' y y' : Hunk}
    (hσ : σ.hunks = a ++ [x]) (hβ : β.hunks = a' ++ [x']) (hfront : a.map Hunk.shape = a'.map .shape)
    (hlast : y.shape = y'.shape) (hweight : y'.weight + x.weight ≤ y.weight + x'.weight)
    (htext : β.TakesText (chompCr line) → y'.weight + x.weight + cr line ≤ y.weight + x'.weight) :
    Ahead line σ β { σ with hunks := a ++ [y] } { β with hunks := a' ++ [y'] } := by
  refine ⟨⟨h.mode, h.environmentId, by simp [hfront, hlast]⟩, ?_, fun htakes => ?_⟩
  · simp only [StreamingParserState.weight, hσ, hβ, map_append, sum_append,
      map_singleton, sum_singleton]
    omega
  · have := htext htakes
    simp only [StreamingParserState.weight, hσ, hβ, map_append, sum_append,
      map_singleton, sum_singleton]
    omega

theorem processHeaderLine_shape (htext : ¬ β.TakesText (chompCr line))
    (hσ : σ.processHeaderLine n line = .ok σ') :
    ∃ β', β.processHeaderLine n (chompCr line) = .ok β' ∧ Ahead line σ β σ' β' := by
  unfold processHeaderLine at hσ ⊢
  rw [trim_chompCr]
  cases hhandle : σ.handleHunkHeadersAndEndPatch n (trim line) with
  | error error => simp [hhandle] at hσ
  | ok r =>
    rcases handle_shape h hhandle with ⟨rfl, _⟩ | ⟨σ₁, β₁, rfl, hβ, hshape, hwσ, hwβ⟩
    · simp [hhandle] at hσ
    · simp only [hhandle, ok.injEq] at hσ
      subst hσ
      exact ⟨β₁, by rw [hβ], .of_header hshape hwσ hwβ htext⟩

theorem processAddLine_shape (hmode : β.mode = .addFile) (hσ : σ.processAddLine n line = .ok σ') :
    ∃ β', β.processAddLine n (chompCr line) = .ok β' ∧ Ahead line σ β σ' β' := by
  unfold processAddLine at hσ ⊢
  rw [trim_chompCr]
  cases hhandle : σ.handleHunkHeadersAndEndPatch n (trim line) with
  | error error => simp [hhandle] at hσ
  | ok r =>
    rcases handle_shape h hhandle with ⟨rfl, hβ⟩ | ⟨σ₁, β₁, rfl, hβ, hshape, hwσ, hwβ⟩
    · simp only [hhandle] at hσ
      split at hσ
      next text path contents hlast =>
        cases hσ
        obtain ⟨hchomp, hcr⟩ := chompCr_cons (show '+' ≠ '\r' by decide) text
        have hlen := length_chompCr text
        rcases concat_of_map_eq h.hunks with ⟨hnil, _⟩ | ⟨a, x, a', x', hσ, hβ', hfront, hx⟩
        · rw [hnil] at hlast
          cases hlast
        · rw [hσ, getLast?_concat] at hlast
          cases hlast
          cases x' with
          | deleteFile | updateFile => cases hx
          | addFile path' contents' =>
            cases hx
            have hlonger : (contents' ++ chompCr text ++ ['\n']).length + contents.length + cr text =
                (contents ++ text ++ ['\n']).length + contents'.length := by
              simp only [length_append]
              omega
            refine ⟨{ β with hunks := a' ++ [.addFile path (contents' ++ chompCr text ++ ['\n'])] },
              ?_, ?_⟩
            · rw [hβ, hchomp]
              simp only [hβ', getLast?_concat, dropLast_concat]
            · rw [hσ, dropLast_concat]
              exact .of_last h hσ hβ' hfront rfl (Nat.le_of_add_right_le hlonger.le)
                fun _ => hcr ▸ hlonger.le
      next => cases hσ
    · simp only [hhandle, ok.injEq] at hσ
      subst hσ
      refine ⟨β₁, by rw [hβ], .of_header hshape hwσ hwβ fun htext => ?_⟩
      -- an added line is no header
      have hplus : (chompCr line).head? = some '+' := by
        simpa only [TakesText, hmode] using htext
      cases hline : chompCr line with
      | nil => rw [hline] at hplus; cases hplus
      | cons c t =>
        rw [hline] at hplus
        cases hplus
        obtain ⟨u, hu⟩ := trim_cons (t := t) (show isWhitespace '+' = false by decide)
        rw [← trim_chompCr, hline, hu, handle_of_head (by simp [hmode]) (by simp)] at hβ
        cases hβ

theorem processUpdateLine_shape (hmode : β.mode = .updateFile k)
    (hσ : σ.processUpdateLine n line = .ok σ') :
    ∃ β', β.processUpdateLine n (chompCr line) = .ok β' ∧ Ahead line σ β σ' β' := by
  unfold processUpdateLine at hσ ⊢
  rw [trimEnd_chompCr]
  cases hhandle : σ.handleHunkHeadersAndEndPatch n (trimEnd line) with
  | error error => simp [hhandle] at hσ
  | ok r =>
    rcases handle_shape h hhandle with ⟨rfl, hβ⟩ | ⟨σ₁, β₁, rfl, hβ, hshape, hwσ, hwβ⟩
    · simp only [hhandle] at hσ
      rcases concat_of_map_eq h.hunks with ⟨hnil, _⟩ | ⟨a, x, a', x', hσ', hβ', hfront, hx⟩
      · simp [hnil] at hσ
      · rw [hσ', getLast?_concat, dropLast_concat] at hσ
        cases x with
        | addFile | deleteFile => cases hσ
        | updateFile path movePath chunks =>
          cases x' with
          | addFile | deleteFile => cases hx
          | updateFile path' movePath' chunks' =>
            simp only [Hunk.shape, Hunk.updateFile.injEq] at hx
            obtain ⟨rfl, rfl, hchunks⟩ := hx
            dsimp only at hσ
            rcases hline : updateHunkLine line movePath chunks with
              message | ⟨movePath', result⟩
            · simp [hline] at hσ
            · simp only [hline, ok.injEq] at hσ
              subst hσ
              obtain ⟨result', hresult', hshape, hweight, htext⟩ :=
                updateHunkLine_shape hchunks hline
              refine ⟨{ β with hunks := a' ++ [.updateFile path movePath' result'] }, ?_, ?_⟩
              · rw [hβ]
                simp only [hβ', getLast?_concat, dropLast_concat, hresult']
              · refine .of_last h hσ' hβ' hfront (by simp [Hunk.shape, hshape]) hweight fun htakes => ?_
                have htakes : lastChunkIsEof chunks' = false ∧ IsText (chompCr line) := by
                  simpa only [TakesText, hmode, hβ', getLast?_concat] using htakes
                exact htext htakes.1 htakes.2
    · simp only [hhandle, ok.injEq] at hσ
      subst hσ
      refine ⟨β₁, by rw [hβ], .of_header hshape hwσ hwβ fun htext => ?_⟩
      -- a text line is no header
      have hhead := (htext.isText hmode).head_trimEnd
      rw [trimEnd_chompCr] at hhead
      rw [handle_of_head (by simp [hmode]) fun hstar => (hhead '*' hstar).1 rfl] at hβ
      cases hβ

/-- **One line, in two states of one shape**: what the streaming parser makes of it, the batch parser
makes of it without its carriage return, and less text is taken if it is a text line. -/
theorem processLine_shape (hσ : σ.processLine n line = .ok σ') :
    ∃ β', β.processLine n (chompCr line) = .ok β' ∧ Ahead line σ β σ' β' := by
  unfold processLine at hσ ⊢
  rw [h.mode] at hσ
  have hnone : (∀ k, β.mode ≠ .updateFile k) → β.mode ≠ .addFile →
      ¬ β.TakesText (chompCr line) := fun hupdate hadd htext =>
    htext.mode.elim hadd fun ⟨k, hk⟩ => hupdate k hk
  cases hmode : β.mode with
  | notStarted =>
    simp only [hmode, trim_chompCr] at hσ ⊢
    by_cases hbegin : trim line = beginPatchMarker
    · rw [if_pos hbegin] at hσ ⊢
      cases hσ
      exact ⟨_, rfl, .of_header ⟨rfl, h.environmentId, h.hunks⟩ rfl rfl
        (hnone (by simp [hmode]) (by simp [hmode]))⟩
    · rw [if_neg hbegin] at hσ
      cases hσ
  | startedPatch | deleteFile =>
    rw [hmode] at hσ
    exact processHeaderLine_shape h (hnone (by simp [hmode]) (by simp [hmode])) hσ
  | addFile =>
    rw [hmode] at hσ
    exact processAddLine_shape h hmode hσ
  | updateFile k =>
    rw [hmode] at hσ
    exact processUpdateLine_shape h hmode hσ
  | endedPatch =>
    simp only [hmode, trim_chompCr] at hσ ⊢
    by_cases hblank : trim line = []
    · rw [if_pos hblank] at hσ ⊢
      cases hσ
      exact ⟨_, rfl, .of_header h rfl rfl (hnone (by simp [hmode]) (by simp [hmode]))⟩
    · rw [if_neg hblank] at hσ
      cases hσ

end

theorem updateTextLine_error (h : ¬ IsText line) (chunks : List UpdateFileChunk) :
    ∃ message, updateTextLine line chunks = .error message := by
  unfold updateTextLine
  split
  next => exact absurd (.inl rfl) h
  next => exact absurd (.inr (by simp)) h
  next => exact absurd (.inr (by simp)) h
  next => exact absurd (.inr (by simp)) h
  next => split <;> exact ⟨_, rfl⟩

/-- **A line that is not taken as text may lose its carriage return.** -/
theorem processLine_chompCr (htext : ¬ s.TakesText (chompCr line)) :
    (s.processLine n line).toOption = (s.processLine n (chompCr line)).toOption := by
  rcases chompCr_cases line with ⟨_, hsame⟩ | ⟨_, hcr⟩
  · rw [hsame]
  unfold processLine
  cases hmode : s.mode with
  | notStarted | endedPatch => simp only [trim_chompCr]
  | startedPatch | deleteFile =>
    simp only [processHeaderLine, trim_chompCr]
  | addFile =>
    have hplus : (chompCr line).head? ≠ some '+' := by
      simpa only [TakesText, hmode] using htext
    have hplus' : ∀ text, line ≠ '+' :: text := by
      rintro text rfl
      rw [(chompCr_cons (show '+' ≠ '\r' by decide) text).1] at hplus
      exact hplus rfl
    simp only [processAddLine, trim_chompCr]
    cases s.handleHunkHeadersAndEndPatch n (trim line) with
    | error error => rfl
    | ok r =>
      cases r with
      | some s' => rfl
      | none =>
        dsimp only
        split
        next text _ _ _ _ => exact absurd rfl (hplus' text)
        next =>
          split
          next heq _ => rw [heq] at hplus; exact absurd rfl hplus
          next => rfl
  | updateFile k =>
    simp only [processUpdateLine, trimEnd_chompCr]
    cases s.handleHunkHeadersAndEndPatch n (trimEnd line) with
    | error error => rfl
    | ok r =>
      cases r with
      | some s' => rfl
      | none =>
        dsimp only
        cases hlast : s.hunks.getLast? with
        | none => rfl
        | some hunk =>
          cases hunk with
          | addFile | deleteFile => rfl
          | updateFile path movePath chunks =>
            dsimp only [updateHunkLine]
            rw [trimEnd_chompCr]
            rcases hmarker : updateMarkerLine (trimEnd line) movePath chunks
              with _ | ⟨message | result⟩
            · -- neither with nor without the carriage return is it a line of a chunk
              have heof := lastChunkIsEof_of_updateMarkerLine hmarker
              have hno : ¬ IsText (chompCr line) := fun ht => htext (by
                simp only [TakesText, hmode, hlast]
                exact ⟨heof, ht⟩)
              have hno' : ¬ IsText line := by
                intro ht
                rcases ht with rfl | hhead
                · cases hcr
                · cases hline : chompCr line with
                  | nil =>
                    exact hno (.inl hline)
                  | cons c t =>
                    rw [hcr, hline] at hhead
                    exact hno (.inr (by rw [hline]; exact hhead))
              obtain ⟨e, he⟩ := updateTextLine_error hno chunks
              obtain ⟨e', he'⟩ := updateTextLine_error hno' chunks
              dsimp only
              rw [he, he']
              rfl
            · rfl
            · rfl

/-! ## Runs -/

theorem cases_of_toOption_eq {ε : Type*} {x y : Except ε α} (h : x.toOption = y.toOption) :
    (∃ e e', x = .error e ∧ y = .error e') ∨ ∃ a, x = .ok a ∧ y = .ok a := by
  cases x with
  | error e =>
    cases y with
    | error e' => exact .inl ⟨e, e', rfl, rfl⟩
    | ok b => cases h
  | ok a =>
    cases y with
    | error e' => cases h
    | ok b =>
      cases h
      exact .inr ⟨a, rfl, rfl⟩

/-- **A run of the streaming parser that goes through** goes through without the carriage returns,
and is ahead if a text line has one. -/
theorem processLines_shape (h : σ.SameShape β) (hσ : processLines n ls σ = .ok σ') :
    ∃ β', processLines n (ls.map chompCr) β = .ok β' ∧ σ'.SameShape β' ∧
      β'.weight + σ.weight ≤ σ'.weight + β.weight ∧
      (Frays n ls β → β'.weight + σ.weight < σ'.weight + β.weight) := by
  induction ls generalizing n σ β with
  | nil =>
    cases hσ
    exact ⟨β, rfl, h, by omega, False.elim⟩
  | cons line ls ih =>
    simp only [processLines] at hσ
    cases hline : σ.processLine (n + 1) line with
    | error error => simp [hline] at hσ
    | ok σ₁ =>
      simp only [hline] at hσ
      obtain ⟨β₁, hβ₁, hahead⟩ := processLine_shape h hline
      obtain ⟨β', hβ', hshape, hweight, hfrays⟩ := ih hahead.shape hσ
      have hstep := hahead.weight
      refine ⟨β', by simp only [map_cons, processLines, hβ₁, hβ'], hshape, by omega, ?_⟩
      rintro (⟨hlast, htext⟩ | hrest)
      · have := hahead.text htext
        rw [cr, if_pos hlast] at this
        omega
      · simp only [hβ₁] at hrest
        have := hfrays hrest
        omega

/-- **Where no text line keeps a carriage return, the runs are the same.** -/
theorem processLines_chompCr (h : ¬ Frays n ls s) :
    (processLines n ls s).toOption = (processLines n (ls.map chompCr) s).toOption := by
  induction ls generalizing n s with
  | nil => rfl
  | cons line ls ih =>
    simp only [Frays, not_or] at h
    have hstep : (s.processLine (n + 1) line).toOption =
        (s.processLine (n + 1) (chompCr line)).toOption := by
      rcases chompCr_cases line with ⟨_, hsame⟩ | ⟨hlast, _⟩
      · rw [hsame]
      · exact processLine_chompCr fun htext => h.1 ⟨hlast, htext⟩
    simp only [map_cons, processLines]
    rcases cases_of_toOption_eq hstep with ⟨error, error', hline, hchomp⟩ | ⟨s₁, hline, hchomp⟩
    · rw [hline, hchomp]
      rfl
    · rw [hchomp] at h
      rw [hline, hchomp]
      exact ih h.2

/-! ## The end of a patch -/

theorem handle_ended
    (h : s.handleHunkHeadersAndEndPatch n trimmed = .ok (some s')) (hended : s'.mode = .endedPatch) :
    trimmed = endPatchMarker := by
  by_contra hend
  by_cases hplain : s.mode ≠ .startedPatch ∨ stripPrefix environmentIdMarker trimmed = none
  · rw [handle_header n hplain, if_neg hend] at h
    cases hheader : hunkHeader n trimmed with
    | none => rw [hheader] at h; cases h
    | some header =>
      obtain ⟨hunk, mode⟩ := header
      rw [hheader] at h
      cases hensure : s.ensureUpdateHunkIsNotEmpty n trimmed with
      | error error => simp [hensure, Except.map] at h
      | ok _ =>
        simp only [hensure, Except.map, Except.ok.injEq, Option.some.injEq] at h
        subst h
        exact (hunkHeader_new hheader).2 hended
  · rw [not_or, not_not] at hplain
    obtain ⟨hmode, hstrip⟩ := hplain
    obtain ⟨environmentId, hid⟩ := Option.ne_none_iff_exists'.mp hstrip
    rw [handle_environmentId n hmode hid] at h
    unfold handleEnvironmentId at h
    split at h
    next => cases h
    next =>
      split at h
      next => cases h
      next =>
        cases h
        rw [hmode] at hended
        cases hended

theorem processLine_ended (h : s.processLine n line = .ok s') (hended : s'.mode = .endedPatch) :
    trim line = endPatchMarker ∨ trim line = [] := by
  unfold processLine at h
  cases hmode : s.mode with
  | notStarted =>
    simp only [hmode] at h
    split at h
    next => cases h; cases hended
    next => cases h
  | startedPatch | deleteFile =>
    simp only [hmode, processHeaderLine] at h
    rcases hhandle : s.handleHunkHeadersAndEndPatch n (trim line) with error | (_ | s₁)
    · simp [hhandle] at h
    · simp [hhandle] at h
    · simp only [hhandle, ok.injEq] at h
      subst h
      exact .inl (handle_ended hhandle hended)
  | addFile =>
    simp only [hmode, processAddLine] at h
    rcases hhandle : s.handleHunkHeadersAndEndPatch n (trim line) with error | (_ | s₁)
    · simp [hhandle] at h
    · simp only [hhandle] at h
      split at h
      next => cases h; cases hended
      next => cases h
    · simp only [hhandle, ok.injEq] at h
      subst h
      exact .inl (handle_ended hhandle hended)
  | updateFile k =>
    simp only [hmode, processUpdateLine] at h
    rcases hhandle : s.handleHunkHeadersAndEndPatch n (trimEnd line) with error | (_ | s₁)
    · simp [hhandle] at h
    · simp only [hhandle] at h
      split at h
      next =>
        split at h
        next => cases h
        next => cases h; cases hended
      next => cases h
    · simp only [hhandle, ok.injEq] at h
      subst h
      have hend := handle_ended hhandle hended
      exact .inl ((trim_eq_trimEnd hend (by decide)).trans hend)
  | endedPatch =>
    simp only [hmode] at h
    split at h
    next hblank => exact .inr hblank
    next => cases h

/-- **A patch that a parser finishes has its markers**, or it is the end marker and nothing else. -/
theorem finishLines_ok (hrest : trim rest ≠ []) (h : finishLines ls rest = .ok s) :
    trim rest = endPatchMarker ∧ (ls = [] ∨ ls.head?.map trim = some beginPatchMarker) := by
  unfold finishLines at h
  cases hls : processLines 0 ls .default with
  | error error => simp [hls] at h
  | ok s₁ =>
    simp only [hls] at h
    constructor
    · by_contra hend
      have hne : rest ≠ [] := by
        rintro rfl
        exact hrest rfl
      simp only [StreamingPatchParser.finish, StreamingPatchParser.finishLine, hne, hend,
        if_false] at h
      cases hline : s₁.processLine (ls.length + 1) rest with
      | error error => simp [hline] at h
      | ok s₂ =>
        simp only [hline] at h
        split at h
        next hended => exact (processLine_ended hline hended).elim hend hrest
        next => cases h
    · cases ls with
      | nil => exact .inl rfl
      | cons line ls =>
        right
        simp only [processLines, processLine, StreamingParserState.default] at hls
        by_cases hbegin : trim line = beginPatchMarker
        · simp [hbegin]
        · simp [hbegin] at hls

/-! ## Agreement -/

/-- **Lines without a text line that keeps a carriage return** give the same with and without it. -/
theorem finishLines_chompCr (hrest : trim rest = endPatchMarker) (h : ¬ Frays 0 ls .default) :
    (finishLines ls rest).toOption = (finishLines (ls.map chompCr) rest).toOption := by
  have hrun := processLines_chompCr h
  rw [finishLines_endPatchMarker hrest, finishLines_endPatchMarker hrest, length_map]
  rcases cases_of_toOption_eq hrun with ⟨error, error', hls, hms⟩ | ⟨s, hls, hms⟩
  · rw [hls, hms]
    rfl
  · rw [hls, hms]

/-- **What the streaming parser accepts, the batch parser accepts**; if a text line keeps a carriage
return, with other hunks. -/
theorem finishLines_shape (hrest : trim rest = endPatchMarker) (h : finishLines ls rest = .ok σ) :
    ∃ β, finishLines (ls.map chompCr) rest = .ok β ∧ (Frays 0 ls .default → σ.hunks ≠ β.hunks) := by
  rw [finishLines_endPatchMarker hrest] at h
  cases hls : processLines 0 ls .default with
  | error error => simp [hls] at h
  | ok σ₁ =>
    simp only [hls] at h
    obtain ⟨β₁, hβ₁, hshape, _, hfrays⟩ := processLines_shape ⟨rfl, rfl, rfl⟩ hls
    cases hensure : σ₁.ensureUpdateHunkIsNotEmpty (ls.length + 1) endPatchMarker with
    | error error => simp [hensure, Except.map] at h
    | ok _ =>
      simp only [hensure, Except.map, Except.ok.injEq] at h
      subst h
      refine ⟨{ β₁ with mode := .endedPatch }, ?_, fun hf heq => ?_⟩
      · rw [finishLines_endPatchMarker hrest, hβ₁, length_map]
        dsimp only
        rw [← ensure_shape hshape, hensure]
        rfl
      · have hheavier := hfrays hf
        have hsame : σ₁.weight = β₁.weight :=
          congrArg (fun hunks => (hunks.map Hunk.weight).sum) heq
        omega

theorem results_agree_iff {ε γ δ : Type*} {x : Except ε α} {y : Except ε γ} {f : α → δ}
    {g : γ → δ} :
    (∀ r, (∃ a, x = .ok a ∧ f a = r) ↔ ∃ b, y = .ok b ∧ g b = r) ↔
      (x.map f).toOption = (y.map g).toOption := by
  cases x with
  | error e =>
    cases y with
    | error e' => simp [Except.map, Except.toOption]
    | ok b => simp [Except.map, Except.toOption]
  | ok a =>
    cases y with
    | error e' => simp [Except.map, Except.toOption]
    | ok b =>
      simp only [Except.map, Except.toOption, Except.ok.injEq, exists_eq_left', Option.some.injEq]
      exact ⟨fun h => ((h (f a)).mp rfl).symm, fun h r => by rw [h]⟩

theorem trim_rest_ne_nil {t : Text} (htrim : trim t = t) (hne : t ≠ []) :
    trim (breakLines t).2 ≠ [] := by
  intro hblank
  have hrest := rest_ne_nil_of_trim htrim hne
  obtain ⟨heq, _, _⟩ := unlines_breakLines t
  have hlast : t.getLast? = (breakLines t).2.getLast? := by
    conv_lhs => rw [← heq, unlines, getLast?_append_of_ne_nil _ hrest]
  obtain ⟨c, hc⟩ := Option.isSome_iff_exists.mp (getLast?_isSome.mpr hrest)
  have hspace := isWhitespace_of_trim hblank c (mem_of_getLast? hc)
  rw [getLast?_of_trim htrim (hlast.trans hc)] at hspace
  cases hspace

/-- **The streaming and the batch parser agree, save for two things.** Take a text without white space
around it whose first line starts no heredoc, and any way to split it into deltas. The two parsers
accept it with the same hunks and environment id, or both reject it, if and only if the text is not
the bare end marker, and is not an accepted patch one of whose text lines still ends in a carriage
return after its line ending was taken off. -/
theorem parsers_agree_iff (t : Text) (deltas : List Text) (hdeltas : deltas.flatten = t)
    (htrim : trim t = t) (hdoc : ¬ StartsHeredoc t) :
    (∀ result, (∃ args, parsePatch t = .ok args ∧ args.parsed = result) ↔
        ∃ s, streamParse deltas = .ok s ∧ s.parsed = result) ↔
      t ≠ endPatchMarker ∧ ¬ ((∃ args, parsePatch t = .ok args) ∧
          Frays 0 ((breakLines t).1.map chompCr) .default) := by
  have hstream := streamParse_eq deltas
  have hbatch := parsePatch_eq htrim hdoc
  rw [hdeltas] at hstream
  rw [results_agree_iff, hstream]
  have haccepts : (∃ args, parsePatch t = .ok args) ↔
      ((parsePatch t).map ApplyPatchArgs.parsed).toOption ≠ none := by
    cases parsePatch t <;> simp [Except.map, Except.toOption]
  rw [haccepts, show ((parsePatch t).map ApplyPatchArgs.parsed).toOption = _ from hbatch, ← map_map]
  by_cases hmark : HasMarkers (breakLines t).1 (breakLines t).2
  · -- both run over the lines, with one carriage return stripped or two
    rw [if_pos hmark]
    have hne : t ≠ endPatchMarker := by
      rintro rfl
      exact absurd hmark (by decide)
    generalize (breakLines t).1.map chompCr = ls
    generalize (breakLines t).2 = rest at hmark
    constructor
    · rintro hagree
      refine ⟨hne, fun ⟨hsome, hfrays⟩ => ?_⟩
      cases hls : finishLines ls rest with
      | error error =>
        rw [hls] at hagree
        exact hsome hagree
      | ok σ =>
        obtain ⟨β, hβ, hdiffer⟩ := finishLines_shape hmark.2 hls
        rw [hls, hβ] at hagree
        exact hdiffer hfrays (congrArg Prod.fst (Option.some.inj hagree)).symm
    · rintro ⟨_, hnot⟩
      by_cases hfrays : Frays 0 ls .default
      · have hnone := not_not.mp fun hsome => hnot ⟨hsome, hfrays⟩
        rw [hnone]
        cases hls : finishLines ls rest with
        | error error => rfl
        | ok σ =>
          obtain ⟨β, hβ, _⟩ := finishLines_shape hmark.2 hls
          rw [hβ] at hnone
          cases hnone
      · have hsame := finishLines_chompCr hmark.2 hfrays
        rcases cases_of_toOption_eq hsame with ⟨error, error', hls, hms⟩ | ⟨s, hls, hms⟩
        · rw [hls, hms]
          rfl
        · rw [hls, hms]
          rfl
  · -- the batch parser rejects the text, and so does the other, unless it is the end marker
    rw [if_neg hmark]
    constructor
    · intro hagree
      refine ⟨?_, fun h => h.1 rfl⟩
      rintro rfl
      exact absurd hagree (by decide)
    · rintro ⟨hend, _⟩
      cases hls : finishLines ((breakLines t).1.map chompCr) (breakLines t).2 with
      | error error => rfl
      | ok s =>
        by_cases hne : t = []
        · subst hne
          cases hls
        · obtain ⟨hlast, hfirst⟩ := finishLines_ok (trim_rest_ne_nil htrim hne) hls
          rcases hfirst with hnil | hfirst
          · obtain ⟨heq, _, _⟩ := unlines_breakLines t
            rw [map_eq_nil_iff.mp hnil, unlines_nil] at heq
            rw [heq, htrim] at hlast
            exact absurd hlast hend
          · refine absurd ⟨?_, hlast⟩ hmark
            cases hls' : (breakLines t).1 with
            | nil => rw [hls'] at hfirst; cases hfirst
            | cons line ls =>
              rw [hls'] at hfirst
              simpa [trim_chompCr] using hfirst

/-- A small patch, as it arrives in three pieces. -/
def pieces : List Text :=
  ["*** Begin Pa".toList, "tch\r\n*** Add File: a\n+x\r".toList, "\n*** End Patch".toList]

/-- What the streaming parser reads from the pieces, the batch parser reads from the whole: the line
endings are of both kinds, and no line keeps a carriage return. -/
theorem parsers_agree_pieces : ∃ args, parsePatch pieces.flatten = .ok args ∧
      args.parsed = ([.addFile ['a'] ['x', '\n']], none) := by
  have hdoc : ¬ StartsHeredoc pieces.flatten := by
    rintro ⟨first, hmem, hfirst⟩
    revert hmem
    cases (show (lines pieces.flatten).head? = some beginPatchMarker by decide +kernel).symm.trans
      hfirst
    decide
  have hagree := (parsers_agree_iff pieces.flatten pieces rfl (by decide +kernel) hdoc).mpr
    ⟨by decide +kernel, fun h => absurd h.2 (by decide +kernel)⟩
  exact (hagree _).mpr ⟨⟨.endedPatch, [.addFile ['a'] ['x', '\n']], none⟩, by decide +kernel, rfl⟩

/-- A patch whose added line keeps a carriage return before its line ending. -/
def frayed : Text := "*** Begin Patch\r\n*** Add File: a\r\n+x\r\r\n*** End Patch".toList

/-- The parsers disagree on it: the streaming parser adds the carriage return to the file, and the
batch parser does not. They disagree on the bare end marker, too, which only one of them accepts. -/
theorem parsers_disagree_frayed : (parsePatch frayed).toOption.map ApplyPatchArgs.parsed =
        some ([.addFile ['a'] ['x', '\n']], none) ∧
      (streamParse [frayed]).toOption.map StreamingParserState.parsed =
        some ([.addFile ['a'] ['x', '\r', '\n']], none) ∧
      (parsePatch endPatchMarker).toOption.map ApplyPatchArgs.parsed = none ∧
      (streamParse [endPatchMarker]).toOption.map StreamingParserState.parsed = some ([], none) := by
  decide +kernel

end NovumAgent.ApplyPatch
