import Mathlib.Data.List.ModifyLast
import NovumAgent.ApplyPatch.Parser
import NovumAgent.ApplyPatch.Seek
import NovumAgent.Lib.Outcome
import NovumAgent.Lib.Splice

/-!
# Replacements are in range

Why no patch makes the update of a file panic. The parser remembers the context lines of a chunk by
their positions among its old and among its new lines. It appends to both sides only, so the
positions increase on both sides, and each pair names one line (`UpdateFileChunk.Indexed`). Between
two context lines there is then a stretch of old lines and a stretch of new ones, which is what a
replacement is made of, and the replacements of a chunk stand one behind the other where its lines
were found.

Chunk after chunk the search goes on behind what was found. Only the lines of a chunk without old
lines are put at the end of the file, however early the chunk comes; sorting brings them there
(`Splice.ordered_sort`), and the pass over the lines never has to go back.
-/

namespace NovumAgent.ApplyPatch

open List Text Outcome SourceFile Splice

/-! ## What the parser keeps -/

/-- **The positions of the context lines are in order**, and each pair is the positions of one
line. -/
structure UpdateFileChunk.Indexed (chunk : UpdateFileChunk) : Prop where
  increasing : chunk.contextLineIndices.Pairwise fun a b => a.1 < b.1 ∧ a.2 < b.2
  shared : ∀ p ∈ chunk.contextLineIndices, ∃ line,
    chunk.oldLines[p.1]? = some line ∧ chunk.newLines[p.2]? = some line

/-- A hunk whose chunks are all indexed. -/
def Hunk.Indexed : Hunk → Prop
  | .updateFile _ _ chunks => ∀ chunk ∈ chunks, chunk.Indexed
  | .addFile _ _ | .deleteFile _ => True

namespace UpdateFileChunk.Indexed

variable {chunk : UpdateFileChunk}

variable {replacements : List Replacement} {line : Text}

theorem getElem?_append {lines more : List Text} {i : Nat}
    (h : lines[i]? = some line) : (lines ++ more)[i]? = some line := by
  rw [List.getElem?_append_left (List.getElem?_eq_some_iff.mp h).1, h]

theorem lt_length (h : chunk.Indexed) {p : Nat × Nat} (hp : p ∈ chunk.contextLineIndices) :
    p.1 < chunk.oldLines.length ∧ p.2 < chunk.newLines.length := by
  obtain ⟨line, hold, hnew⟩ := h.shared p hp
  exact ⟨(List.getElem?_eq_some_iff.mp hold).1, (List.getElem?_eq_some_iff.mp hnew).1⟩

theorem empty (context : Option Text) : Indexed ⟨context, [], [], [], false⟩ :=
  ⟨List.Pairwise.nil, nofun⟩

/-- **Lines that come behind change no position**, on either side. -/
theorem append (h : chunk.Indexed) (old new : List Text) :
    Indexed { chunk with oldLines := chunk.oldLines ++ old, newLines := chunk.newLines ++ new } := by
  refine ⟨h.increasing, fun p hp => ?_⟩
  obtain ⟨line, hold, hnew⟩ := h.shared p hp
  exact ⟨line, getElem?_append hold, getElem?_append hnew⟩

theorem pushContextLine (h : chunk.Indexed) (line : Text) :
    (chunk.pushContextLine line).Indexed := by
  constructor
  · apply pairwise_append.mpr
    refine ⟨h.increasing, pairwise_singleton _ _, ?_⟩
    intro p hp q hq
    rw [mem_singleton.mp hq]
    exact h.lt_length hp
  · refine forall_mem_append.mpr ⟨(h.append [line] [line]).shared, ?_⟩
    rw [forall_mem_singleton]
    exact ⟨line, getElem?_concat_length, getElem?_concat_length⟩

theorem pushNewLine (h : chunk.Indexed) (line : Text) :
    Indexed { chunk with newLines := chunk.newLines ++ [line] } := by
  have happend := h.append [] [line]
  rwa [append_nil] at happend

theorem pushOldLine (h : chunk.Indexed) (line : Text) :
    Indexed { chunk with oldLines := chunk.oldLines ++ [line] } := by
  have happend := h.append [line] []
  rwa [append_nil chunk.newLines] at happend

end UpdateFileChunk.Indexed

variable {chunks chunks' : List UpdateFileChunk} {p : StreamingPatchParser}

theorem indexed_editLastChunk {edit : UpdateFileChunk → UpdateFileChunk}
    (hedit : ∀ chunk : UpdateFileChunk, chunk.Indexed → (edit chunk).Indexed)
    (h : ∀ chunk ∈ chunks, chunk.Indexed) :
    ∀ chunk ∈ editLastChunk edit chunks, chunk.Indexed := by
  rcases eq_nil_or_concat' chunks with rfl | ⟨before, last, rfl⟩
  · exact forall_mem_singleton.mpr (hedit _ (.empty none))
  · obtain ⟨hbefore, hlast⟩ := forall_mem_append.mp h
    simp only [editLastChunk, getLast?_concat, dropLast_concat]
    exact forall_mem_append.mpr
      ⟨hbefore, forall_mem_singleton.mpr (hedit last (forall_mem_singleton.mp hlast))⟩

namespace StreamingParserState

theorem indexed_updateTextLine
    (h : ∀ chunk ∈ chunks, chunk.Indexed) (hline : updateTextLine line chunks = .ok chunks') :
    ∀ chunk ∈ chunks', chunk.Indexed := by
  unfold updateTextLine at hline
  split at hline
  next =>
    cases hline
    exact indexed_editLastChunk (fun chunk hchunk => hchunk.pushContextLine []) h
  next text =>
    cases hline
    exact indexed_editLastChunk (fun chunk hchunk => hchunk.pushContextLine text) h
  next text =>
    cases hline
    exact indexed_editLastChunk (fun chunk hchunk => hchunk.pushNewLine text) h
  next text =>
    cases hline
    exact indexed_editLastChunk (fun chunk hchunk => hchunk.pushOldLine text) h
  next =>
    split at hline
    next => cases hline
    next => cases hline

theorem indexed_updateMarkerLine {movePath movePath' : Option Text} (h : ∀ chunk ∈ chunks, chunk.Indexed)
    (hline : updateMarkerLine line movePath chunks = some (.ok (movePath', chunks'))) :
    ∀ chunk ∈ chunks', chunk.Indexed := by
  have hstart : ∀ context, ∀ chunk ∈ chunks ++ [⟨context, [], [], [], false⟩], chunk.Indexed :=
    fun context => forall_mem_append.mpr ⟨h, forall_mem_singleton.mpr (.empty context)⟩
  unfold updateMarkerLine at hline
  dsimp only at hline
  split at hline
  next => cases hline; exact h
  split at hline
  next => cases hline
  split at hline
  next => cases hline; exact h
  split at hline
  next => cases hline
  split at hline
  next => cases hline; exact hstart none
  split at hline
  next context _ => cases hline; exact hstart (some context)
  obtain ⟨-, hline⟩ := Option.ite_none_right_eq_some.mp hline
  split at hline
  next => cases hline
  next =>
    cases hline
    rcases eq_nil_or_concat' chunks with rfl | ⟨before, last, rfl⟩
    · exact nofun
    · obtain ⟨hbefore, hlast⟩ := forall_mem_append.mp h
      have hlast := forall_mem_singleton.mp hlast
      rw [modifyLast_concat]
      exact forall_mem_append.mpr ⟨hbefore, forall_mem_singleton.mpr { hlast with }⟩

theorem indexed_updateHunkLine {movePath movePath' : Option Text} (h : ∀ chunk ∈ chunks, chunk.Indexed)
    (hline : updateHunkLine line movePath chunks = .ok (movePath', chunks')) :
    ∀ chunk ∈ chunks', chunk.Indexed := by
  unfold updateHunkLine at hline
  split at hline
  next hmarker =>
    cases hline
    exact indexed_updateMarkerLine h hmarker
  next => cases hline
  next =>
    obtain ⟨chunks'', htext, hsame⟩ := map_eq_ok.mp hline
    cases hsame
    exact indexed_updateTextLine h htext

variable {s s' : StreamingParserState} {n : Nat} {line : Text}

/-- The hunks of a state are all indexed. -/
def Indexed (s : StreamingParserState) : Prop := ∀ hunk ∈ s.hunks, hunk.Indexed

theorem Indexed.replaceLast (h : s.Indexed) {hunk : Hunk} (hhunk : hunk.Indexed) :
    Indexed { s with hunks := s.hunks.dropLast ++ [hunk] } :=
  forall_mem_append.mpr
    ⟨fun other hother => h other (dropLast_subset _ hother), forall_mem_singleton.mpr hhunk⟩

theorem indexed_hunkHeader {trimmed : Text} {hunk : Hunk} {mode : StreamingParserMode}
    (h : hunkHeader n trimmed = some (hunk, mode)) : hunk.Indexed := by
  unfold hunkHeader at h
  split at h
  next => cases h; exact trivial
  split at h
  next => cases h; exact trivial
  next =>
    obtain ⟨path, -, hpath⟩ := Option.map_eq_some_iff.mp h
    cases hpath
    exact nofun

theorem indexed_handle {trimmed : Text} (h : s.Indexed)
    (hline : s.handleHunkHeadersAndEndPatch n trimmed = .ok (some s')) : s'.Indexed := by
  unfold handleHunkHeadersAndEndPatch at hline
  split at hline
  next environmentId _ _ =>
    unfold handleEnvironmentId at hline
    split at hline
    next => cases hline
    split at hline
    next => cases hline
    next => cases hline; exact h
  next =>
    split at hline
    next =>
      obtain ⟨-, -, hsame⟩ := map_eq_ok.mp hline
      cases hsame
      exact h
    next =>
      split at hline
      next hunk mode hheader =>
        obtain ⟨-, -, hsame⟩ := map_eq_ok.mp hline
        cases hsame
        exact forall_mem_append.mpr ⟨h, forall_mem_singleton.mpr (indexed_hunkHeader hheader)⟩
      next => cases hline

theorem indexed_processHeaderLine (h : s.Indexed) (hline : s.processHeaderLine n line = .ok s') :
    s'.Indexed := by
  unfold processHeaderLine at hline
  split at hline
  next => cases hline
  next hheader => cases hline; exact indexed_handle h hheader
  next => cases hline

/-- **Every line keeps the hunks indexed.** -/
theorem indexed_processLine (h : s.Indexed) (hline : s.processLine n line = .ok s') :
    s'.Indexed := by
  unfold processLine at hline
  split at hline
  next =>
    split at hline
    next => cases hline; exact h
    next => cases hline
  next => exact indexed_processHeaderLine h hline
  next => exact indexed_processHeaderLine h hline
  next =>
    unfold processAddLine at hline
    split at hline
    next => cases hline
    next hheader => cases hline; exact indexed_handle h hheader
    next =>
      split at hline
      next => cases hline; exact h.replaceLast trivial
      next => cases hline
  next =>
    unfold processUpdateLine at hline
    split at hline
    next => cases hline
    next hheader => cases hline; exact indexed_handle h hheader
    next =>
      split at hline
      next path movePath chunks hlast =>
        split at hline
        next => cases hline
        next hupdate =>
          cases hline
          have hchunks : Hunk.Indexed (.updateFile path movePath chunks) :=
            h _ (mem_of_getLast? hlast)
          exact h.replaceLast (indexed_updateHunkLine hchunks hupdate)
      next => cases hline
  next =>
    split at hline
    next => cases hline; exact h
    next => cases hline

end StreamingParserState

namespace StreamingPatchParser

theorem indexed_pushChar {p' : StreamingPatchParser} {c : Char} (h : p.state.Indexed)
    (hpush : p.pushChar c = .ok p') : p'.state.Indexed := by
  unfold pushChar at hpush
  split at hpush
  next =>
    obtain ⟨s, hline, hsame⟩ := map_eq_ok.mp hpush
    cases hsame
    exact StreamingParserState.indexed_processLine h hline
  next => cases hpush; exact h

/-- **So does a whole text.** -/
theorem indexed_pushDelta {p' : StreamingPatchParser} {delta : Text} (h : p.state.Indexed)
    (hpush : p.pushDelta delta = .ok p') : p'.state.Indexed := by
  induction delta generalizing p with
  | nil =>
    cases hpush
    exact h
  | cons c delta ih =>
    rw [pushDelta, foldlM_cons, bind_eq_ok] at hpush
    obtain ⟨next, hchar, hrest⟩ := hpush
    exact ih (indexed_pushChar h hchar) hrest

theorem indexed_finish {s : StreamingParserState} (h : p.state.Indexed)
    (hfinish : p.finish = .ok s) : s.Indexed := by
  have hline : ∀ t, p.finishLine = .ok t → t.Indexed := by
    intro t ht
    unfold finishLine at ht
    split at ht
    next => cases ht; exact h
    split at ht
    next =>
      obtain ⟨-, -, hsame⟩ := map_eq_ok.mp ht
      cases hsame
      exact h
    next => exact StreamingParserState.indexed_processLine h ht
  unfold finish at hfinish
  split at hfinish
  next => cases hfinish
  next t ht =>
    split at hfinish
    next => cases hfinish; exact hline _ ht
    next => cases hfinish

end StreamingPatchParser

/-- **The chunks of a patch that was parsed are indexed.** -/
theorem indexed_of_parsePatch {patch : Text} {args : ApplyPatchArgs}
    (h : parsePatch patch = .ok args) : ∀ hunk ∈ args.hunks, hunk.Indexed := by
  unfold parsePatch parsePatchText at h
  simp only [bind_eq_ok] at h
  obtain ⟨lines, -, parser, hpush, state, hfinish, h⟩ := h
  cases h
  have hdefault : StreamingPatchParser.default.state.Indexed := fun _ hmem => absurd hmem not_mem_nil
  exact StreamingPatchParser.indexed_finish (StreamingPatchParser.indexed_pushDelta hdefault hpush)
    hfinish

/-! ## The replacements of one chunk -/

/-- Positions in order, from a position on each side. -/
structure Behind (oldStart newStart : Nat) (indices : List (Nat × Nat)) : Prop where
  increasing : indices.Pairwise fun a b => a.1 < b.1 ∧ a.2 < b.2
  from_ : ∀ p ∈ indices, oldStart ≤ p.1 ∧ newStart ≤ p.2

theorem Behind.tail {oldStart newStart : Nat} {p : Nat × Nat} {indices : List (Nat × Nat)}
    (h : Behind oldStart newStart (p :: indices)) : Behind (p.1 + 1) (p.2 + 1) indices := by
  obtain ⟨hp, hrest⟩ := pairwise_cons.mp h.increasing
  exact ⟨hrest, hp⟩

theorem UpdateFileChunk.Indexed.behind {chunk : UpdateFileChunk} (h : chunk.Indexed) :
    Behind 0 0 chunk.contextLineIndices :=
  ⟨h.increasing, fun _ _ => ⟨Nat.zero_le _, Nat.zero_le _⟩⟩

/-- The replacement of a stretch of old lines by a stretch of new ones, unless both are empty. -/
def block (startIdx : Nat) (new : List Text) (oldStart oldEnd newStart newEnd : Nat) :
    List Replacement :=
  if oldStart ≠ oldEnd ∨ newStart ≠ newEnd then
    [(startIdx + oldStart, oldEnd - oldStart, (new.take newEnd).drop newStart)]
  else []

/-- The replacements between context lines that are all within both sides, and behind the last. -/
def blocks (startIdx oldLen : Nat) (new : List Text) :
    List (Nat × Nat) → (oldStart newStart : Nat) → List Replacement
  | [], oldStart, newStart => block startIdx new oldStart oldLen newStart new.length
  | (oldContext, newContext) :: indices, oldStart, newStart =>
    block startIdx new oldStart oldContext newStart newContext ++
      blocks startIdx oldLen new indices (oldContext + 1) (newContext + 1)

/-- The positions up to the first that is not within both sides. -/
def withinSides (oldLen newLen : Nat) (indices : List (Nat × Nat)) : List (Nat × Nat) :=
  indices.takeWhile fun p => p.1 < oldLen ∧ p.2 < newLen

section Chunk

variable {startIdx : Nat} {pattern newSlice : List Text} {indices : List (Nat × Nat)}
  {oldStart newStart : Nat}

/-- **The loop over the context lines stops within both sides**, and makes the replacements between
them. -/
theorem betweenContext_eq (h : Behind oldStart newStart indices) (hold : oldStart ≤ pattern.length)
    (hnew : newStart ≤ newSlice.length) :
    ∃ (between : List Replacement) (oldStop newStop : Nat),
      betweenContext startIdx pattern newSlice indices oldStart newStart =
        .ok (between, oldStop, newStop) ∧
      oldStop ≤ pattern.length ∧ newStop ≤ newSlice.length ∧
      between ++ block startIdx newSlice oldStop pattern.length newStop newSlice.length =
        blocks startIdx pattern.length newSlice
          (withinSides pattern.length newSlice.length indices) oldStart newStart := by
  induction indices generalizing oldStart newStart with
  | nil => exact ⟨[], oldStart, newStart, rfl, hold, hnew, rfl⟩
  | cons p indices ih =>
    obtain ⟨oldContext, newContext⟩ := p
    obtain ⟨hfromOld, hfromNew⟩ := h.from_ _ mem_cons_self
    by_cases hout : pattern.length ≤ oldContext ∨ newSlice.length ≤ newContext
    · refine ⟨[], oldStart, newStart, by rw [betweenContext, if_pos hout], hold, hnew, ?_⟩
      have hstop : withinSides pattern.length newSlice.length ((oldContext, newContext) :: indices) =
          [] := by
        apply takeWhile_cons_of_neg
        rw [decide_eq_true_eq]
        dsimp only
        omega
      rw [hstop]
      rfl
    · obtain ⟨hin, hin'⟩ := not_or.mp hout
      have hgo : withinSides pattern.length newSlice.length ((oldContext, newContext) :: indices) =
          (oldContext, newContext) :: withinSides pattern.length newSlice.length indices := by
        apply takeWhile_cons_of_pos
        rw [decide_eq_true_eq]
        exact ⟨not_le.mp hin, not_le.mp hin'⟩
      obtain ⟨between, oldStop, newStop, hrest, holdStop, hnewStop, hblocks⟩ :=
        ih h.tail (not_le.mp hin) (not_le.mp hin')
      rw [hgo, blocks, ← hblocks, betweenContext, if_neg hout]
      by_cases hblock : oldStart ≠ oldContext ∨ newStart ≠ newContext
      · have hnot : ¬ (oldContext < oldStart ∨ newContext < newStart) := by
          dsimp only at hfromOld hfromNew
          omega
        rw [if_pos hblock, if_neg hnot, hrest]
        refine ⟨_, oldStop, newStop, rfl, holdStop, hnewStop, ?_⟩
        rw [show block startIdx newSlice oldStart oldContext newStart newContext = _ from
          if_pos hblock]
        rfl
      · rw [if_neg hblock, hrest, show block startIdx newSlice oldStart oldContext newStart
          newContext = [] from if_neg hblock]
        exact ⟨between, oldStop, newStop, rfl, holdStop, hnewStop, rfl⟩

/-- **The replacements of a chunk**: no slice is out of order. -/
theorem chunkReplacements_eq (h : Behind 0 0 indices) :
    chunkReplacements startIdx pattern newSlice indices =
      .ok (blocks startIdx pattern.length newSlice
        (withinSides pattern.length newSlice.length indices) 0 0) := by
  obtain ⟨between, oldStop, newStop, hbetween, hold, hnew, hblocks⟩ :=
    @betweenContext_eq startIdx pattern newSlice indices 0 0 h (Nat.zero_le _) (Nat.zero_le _)
  rw [← hblocks, chunkReplacements, hbetween]
  simp only [bind, Except.bind, block]
  have hnot : ¬ (pattern.length < oldStop ∨ newSlice.length < newStop) := by omega
  by_cases hrest : oldStop ≠ pattern.length ∨ newStop ≠ newSlice.length
  · rw [if_pos hrest, if_neg hnot, if_pos hrest, take_length]
  · rw [if_neg hrest, if_neg hrest, append_nil]

theorem Behind.withinSides (h : Behind oldStart newStart indices) (oldLen newLen : Nat) :
    Behind oldStart newStart (withinSides oldLen newLen indices) :=
  ⟨h.increasing.sublist (takeWhile_sublist _),
    fun p hp => h.from_ p ((takeWhile_sublist _).subset hp)⟩

theorem lt_of_mem_withinSides {oldLen newLen : Nat} {p : Nat × Nat}
    (hp : p ∈ withinSides oldLen newLen indices) : p.1 < oldLen ∧ p.2 < newLen :=
  of_decide_eq_true (mem_takeWhile_imp (p := fun p : Nat × Nat => p.1 < oldLen ∧ p.2 < newLen) hp)

theorem mem_block {r : Replacement} {oldEnd newEnd : Nat} {new : List Text}
    (hr : r ∈ block startIdx new oldStart oldEnd newStart newEnd) :
    r.1 = startIdx + oldStart ∧ r.2.1 = oldEnd - oldStart := by
  unfold block at hr
  split at hr
  next =>
    rw [mem_singleton.mp hr]
    exact ⟨rfl, rfl⟩
  next => cases hr

/-- **The replacements of a chunk stand one behind the other**, within the lines it was found at. -/
theorem blocks_ordered {oldLen : Nat} {new : List Text} (h : Behind oldStart newStart indices)
    (hin : ∀ p ∈ indices, p.1 < oldLen) (hold : oldStart ≤ oldLen) :
    (blocks startIdx oldLen new indices oldStart newStart).Pairwise Splice.Before ∧
      ∀ r ∈ blocks startIdx oldLen new indices oldStart newStart,
        startIdx + oldStart ≤ r.1 ∧ r.1 + r.2.1 ≤ startIdx + oldLen := by
  induction indices generalizing oldStart newStart with
  | nil =>
    constructor
    · rw [blocks, block]
      split
      · exact pairwise_singleton _ _
      · exact List.Pairwise.nil
    · intro r hr
      obtain ⟨hplace, htaken⟩ := mem_block hr
      omega
  | cons p indices ih =>
    obtain ⟨oldContext, newContext⟩ := p
    obtain ⟨hfrom, -⟩ := h.from_ _ mem_cons_self
    have hcontext := hin _ mem_cons_self
    dsimp only at hfrom hcontext
    obtain ⟨hrest, hrange⟩ :=
      ih h.tail (fun p hp => hin p (mem_cons_of_mem _ hp)) hcontext
    rw [blocks]
    constructor
    · apply pairwise_append.mpr
      refine ⟨?_, hrest, fun r hr r' hr' => ?_⟩
      · rw [block]
        split
        · exact pairwise_singleton _ _
        · exact List.Pairwise.nil
      · obtain ⟨hplace, htaken⟩ := mem_block hr
        have hbehind := (hrange r' hr').1
        show r.1 + r.2.1 ≤ r'.1
        omega
    · intro r hr
      rcases mem_append.mp hr with hr | hr
      · obtain ⟨hplace, htaken⟩ := mem_block hr
        omega
      · obtain ⟨hbehind, hwithin⟩ := hrange r hr
        exact ⟨by omega, hwithin⟩

end Chunk

/-! ## Where the chunks are -/

/-- Where a chunk goes: the place of its first line, and its sides as they were found. -/
structure Placement where
  chunk : UpdateFileChunk
  startIdx : Nat
  pattern : List Text
  newSlice : List Text

/-- The replacements of a chunk in its place. -/
def Placement.replacements (p : Placement) : List Replacement :=
  if p.chunk.oldLines = [] then [(p.startIdx, 0, p.newSlice)]
  else
    blocks p.startIdx p.pattern.length p.newSlice
      (withinSides p.pattern.length p.newSlice.length p.chunk.contextLineIndices) 0 0

/-- The line from which a chunk is searched: the one behind its change context, if it has one. -/
def searchIndex (lines : List Text) (chunk : UpdateFileChunk) (lineIndex : Nat) :
    Except UpdateError Nat :=
  match chunk.changeContext with
  | none => .ok lineIndex
  | some line =>
    match seekSequence lines [line] lineIndex false with
    | some i => .ok (i + 1)
    | none => .error (.contextNotFound line)

/-- The place of a chunk that is searched from a line on, and the line to go on at. -/
def placeFrom (lines : List Text) (chunk : UpdateFileChunk) (lineIndex : Nat) :
    Except UpdateError (Placement × Nat) :=
  if chunk.oldLines = [] then .ok (⟨chunk, lines.length, [], chunk.newLines⟩, lineIndex)
  else
    match locate lines chunk lineIndex with
    | none => .error (.linesNotFound chunk.oldLines)
    | some (startIdx, pattern, newSlice) =>
      .ok (⟨chunk, startIdx, pattern, newSlice⟩, startIdx + pattern.length)

/-- What one turn of the loop of `compute_replacements` finds out: the place of a chunk, and the
line to go on at. -/
def placeChunk (lines : List Text) (chunk : UpdateFileChunk) (lineIndex : Nat) :
    Except UpdateError (Placement × Nat) :=
  searchIndex lines chunk lineIndex >>= placeFrom lines chunk

/-- The places of the chunks, one after another. -/
def placeChunks (lines : List Text) : List UpdateFileChunk → (lineIndex : Nat) →
    Except UpdateError (List Placement)
  | [], _ => .ok []
  | chunk :: chunks, lineIndex => do
    let (place, lineIndex) ← placeChunk lines chunk lineIndex
    let rest ← placeChunks lines chunks lineIndex
    .ok (place :: rest)

section Loop

variable {lines : List Text} {chunk : UpdateFileChunk} {chunks : List UpdateFileChunk}
  {lineIndex : Nat}

theorem chunkStep_eq (h : chunk.Indexed) : chunkStep lines chunk lineIndex =
      (placeChunk lines chunk lineIndex).map fun (place, next) => (place.replacements, next) := by
  have hgo : ∀ k : Nat, (if chunk.oldLines = [] then .ok ([(lines.length, 0, chunk.newLines)], k)
        else
          match locate lines chunk k with
          | none => .error (.linesNotFound chunk.oldLines)
          | some (startIdx, pattern, newSlice) => do
            let replacements ← chunkReplacements startIdx pattern newSlice chunk.contextLineIndices
            .ok (replacements, startIdx + pattern.length)) =
      (placeFrom lines chunk k).map fun (place, next) => (place.replacements, next) := by
    intro k
    unfold placeFrom
    by_cases hold : chunk.oldLines = []
    · simp [hold, Except.map, Placement.replacements]
    · rw [if_neg hold, if_neg hold]
      rcases locate lines chunk k with _ | ⟨startIdx, pattern, newSlice⟩
      · rfl
      · simp only [chunkReplacements_eq h.behind, Except.map, bind, Except.bind,
          Placement.replacements, hold, if_false]
  unfold chunkStep placeChunk searchIndex
  rcases chunk.changeContext with _ | line
  · exact hgo lineIndex
  · dsimp only
    rcases seekSequence lines [line] lineIndex false with _ | i
    · rfl
    · exact hgo (i + 1)

/-- **The loop finds the places of the chunks and makes their replacements.** -/
theorem chunksLoop_eq (h : ∀ chunk ∈ chunks, chunk.Indexed) : chunksLoop lines chunks lineIndex =
      (placeChunks lines chunks lineIndex).map (·.flatMap Placement.replacements) := by
  induction chunks generalizing lineIndex with
  | nil => rfl
  | cons chunk chunks ih =>
    rw [chunksLoop, placeChunks, chunkStep_eq (h chunk mem_cons_self)]
    rcases placeChunk lines chunk lineIndex with _ | ⟨place, next⟩
    · rfl
    · simp only [Except.map, bind, Except.bind]
      rw [ih fun chunk hchunk => h chunk (mem_cons_of_mem _ hchunk)]
      rcases placeChunks lines chunks next with _ | rest
      · rfl
      · rfl

theorem locate_within {startIdx : Nat} {pattern newSlice : List Text}
    (h : locate lines chunk lineIndex = some (startIdx, pattern, newSlice))
    (hindex : lineIndex ≤ lines.length) :
    lineIndex ≤ startIdx ∧ startIdx + pattern.length ≤ lines.length := by
  unfold locate at h
  split at h
  next i hseek =>
    cases h
    exact seekSequence_within hseek hindex
  next =>
    split at h
    next =>
      obtain ⟨i, hseek, hi⟩ := Option.map_eq_some_iff.mp h
      cases hi
      exact seekSequence_within hseek hindex
    next => cases h

/-- **What a turn of the loop can find**: the end of the file, for a chunk without old lines, or
the place of its lines. -/
theorem placeChunk_cases {place : Placement} {next : Nat}
    (hplace : placeChunk lines chunk lineIndex = .ok (place, next))
    (hindex : lineIndex ≤ lines.length) :
    ∃ k, lineIndex ≤ k ∧ k ≤ lines.length ∧
      ((chunk.oldLines = [] ∧ place = ⟨chunk, lines.length, [], chunk.newLines⟩ ∧ next = k) ∨
        ∃ startIdx pattern newSlice, chunk.oldLines ≠ [] ∧
          locate lines chunk k = some (startIdx, pattern, newSlice) ∧
          place = ⟨chunk, startIdx, pattern, newSlice⟩ ∧ next = startIdx + pattern.length) := by
  unfold placeChunk at hplace
  rw [bind_eq_ok] at hplace
  obtain ⟨k, hk, hplace⟩ := hplace
  have hkrange : lineIndex ≤ k ∧ k ≤ lines.length := by
    unfold searchIndex at hk
    split at hk
    next =>
      cases hk
      exact ⟨le_refl _, hindex⟩
    next line hline =>
      split at hk
      next i hseek =>
        cases hk
        have hi := seekSequence_within hseek hindex
        rw [length_singleton] at hi
        omega
      next => cases hk
  refine ⟨k, hkrange.1, hkrange.2, ?_⟩
  unfold placeFrom at hplace
  split at hplace
  next hold =>
    cases hplace
    exact .inl ⟨hold, rfl, rfl⟩
  next hold =>
    split at hplace
    next => cases hplace
    next startIdx pattern newSlice hlocate =>
      cases hplace
      exact .inr ⟨startIdx, pattern, newSlice, hold, hlocate, rfl, rfl⟩

/-- What a turn of the loop leaves: its replacements are in order and within the lines, and behind
the line it started at; the next turn starts behind them, unless they are put at the end. -/
theorem placeChunk_within {place : Placement} {next : Nat} (h : chunk.Indexed)
    (hplace : placeChunk lines chunk lineIndex = .ok (place, next))
    (hindex : lineIndex ≤ lines.length) :
    lineIndex ≤ next ∧ next ≤ lines.length ∧ place.replacements.Pairwise Splice.Before ∧
      (∀ r ∈ place.replacements, lineIndex ≤ r.1 ∧ r.1 + r.2.1 ≤ lines.length) ∧
      ∀ r ∈ place.replacements, r.1 + r.2.1 ≤ next ∨ (r.1 = lines.length ∧ r.2.1 = 0) := by
  obtain ⟨k, hfrom, hk, ⟨hold, rfl, rfl⟩ | ⟨startIdx, pattern, newSlice, hold, hlocate, rfl, rfl⟩⟩ :=
    placeChunk_cases hplace hindex
  · rw [Placement.replacements, if_pos (by exact hold)]
    refine ⟨hfrom, hk, pairwise_singleton _ _, fun r hr => ?_, fun r hr => ?_⟩
    · rw [mem_singleton.mp hr]
      exact ⟨hindex, le_refl _⟩
    · rw [mem_singleton.mp hr]
      exact .inr ⟨rfl, rfl⟩
  · obtain ⟨hstart, hend⟩ := locate_within hlocate hk
    rw [Placement.replacements, if_neg (by exact hold)]
    obtain ⟨hbefore, hrange⟩ := @blocks_ordered startIdx _ 0 0 pattern.length newSlice
      (h.behind.withinSides pattern.length newSlice.length)
      (fun p hp => (lt_of_mem_withinSides hp).1) (Nat.zero_le _)
    refine ⟨by omega, hend, hbefore, fun r hr => ?_, fun r hr => ?_⟩
    · have := hrange r hr
      omega
    · exact .inl (hrange r hr).2

theorem Sortable.of_before {a b : Replacement} (h : Splice.Before a b) : Splice.Sortable a b := by
  refine ⟨fun _ => h, fun hlt => ?_⟩
  have hle : a.1 + a.2.1 ≤ b.1 := h
  omega

/-- **Every run of the loop makes replacements that sorting puts in order.** -/
theorem placeChunks_sortable {places : List Placement} (h : ∀ chunk ∈ chunks, chunk.Indexed)
    (hplaces : placeChunks lines chunks lineIndex = .ok places)
    (hindex : lineIndex ≤ lines.length) :
    (places.flatMap Placement.replacements).Pairwise Splice.Sortable ∧
      ∀ r ∈ places.flatMap Placement.replacements,
        lineIndex ≤ r.1 ∧ r.1 + r.2.1 ≤ lines.length := by
  induction chunks generalizing lineIndex places with
  | nil =>
    cases hplaces
    exact ⟨List.Pairwise.nil, nofun⟩
  | cons chunk chunks ih =>
    rw [placeChunks, bind_eq_ok] at hplaces
    obtain ⟨⟨place, next⟩, hplace, hplaces⟩ := hplaces
    rw [bind_eq_ok] at hplaces
    obtain ⟨rest, hrest, hplaces⟩ := hplaces
    cases hplaces
    obtain ⟨hfrom, hnext, hbefore, hrange, hbehind⟩ :=
      placeChunk_within (h chunk mem_cons_self) hplace hindex
    obtain ⟨hsortable, hrestRange⟩ :=
      ih (fun chunk hchunk => h chunk (mem_cons_of_mem _ hchunk)) hrest hnext
    rw [flatMap_cons]
    constructor
    · apply pairwise_append.mpr
      refine ⟨hbefore.imp Sortable.of_before, hsortable, fun r hr r' hr' => ?_⟩
      obtain ⟨hstart', hend'⟩ := hrestRange r' hr'
      rcases hbehind r hr with hend | ⟨hplaceEnd, hnone⟩
      · exact Sortable.of_before (le_trans hend hstart')
      · -- lines at the end of the file: whatever comes later is in front of them or there too
        constructor
        · intro hle
          show r.1 + r.2.1 ≤ r'.1
          omega
        · intro _
          show r'.1 + r'.2.1 ≤ r.1
          omega
    · intro r hr
      rcases mem_append.mp hr with hr | hr
      · exact hrange r hr
      · obtain ⟨hstart, hend⟩ := hrestRange r hr
        exact ⟨le_trans hfrom hstart, hend⟩

theorem placeChunks_ne_panic : placeChunks lines chunks lineIndex ≠ .error .panic := by
  induction chunks generalizing lineIndex with
  | nil => exact nofun
  | cons chunk chunks ih =>
    have hplace : placeChunk lines chunk lineIndex ≠ .error .panic := by
      have hfrom : ∀ k, placeFrom lines chunk k ≠ .error .panic := by
        intro k
        unfold placeFrom
        split
        · exact nofun
        · split
          · exact nofun
          · exact nofun
      unfold placeChunk searchIndex
      split
      · exact hfrom lineIndex
      · split
        next i _ => exact hfrom (i + 1)
        next => exact nofun
    rw [placeChunks]
    cases hstep : placeChunk lines chunk lineIndex with
    | error e =>
      intro hpanic
      cases hpanic
      exact hplace hstep
    | ok step =>
      obtain ⟨place, next⟩ := step
      simp only [bind, Except.bind]
      cases hrest : placeChunks lines chunks next with
      | error e =>
        intro hpanic
        cases hpanic
        exact ih hrest
      | ok rest => exact nofun

/-- **`compute_replacements`, place by place.** -/
theorem computeReplacements_eq (h : ∀ chunk ∈ chunks, chunk.Indexed) :
    computeReplacements lines chunks = (placeChunks lines chunks 0).map fun places =>
        sort (places.flatMap Placement.replacements) := by
  rw [computeReplacements, chunksLoop_eq h]
  rcases placeChunks lines chunks 0 with _ | places
  · rfl
  · rfl

/-- **The replacements are sorted and apart, and within the lines.** -/
theorem computeReplacements_ordered (h : ∀ chunk ∈ chunks, chunk.Indexed)
    (hcompute : computeReplacements lines chunks = .ok replacements) :
    Splice.Ordered lines.length replacements := by
  rw [computeReplacements_eq h, map_eq_ok] at hcompute
  obtain ⟨places, hplaces, rfl⟩ := hcompute
  obtain ⟨hsortable, hrange⟩ := placeChunks_sortable h hplaces (Nat.zero_le _)
  exact ordered_sort hsortable fun r hr => (hrange r hr).2

theorem computeReplacements_ne_panic (h : ∀ chunk ∈ chunks, chunk.Indexed) :
    computeReplacements lines chunks ≠ .error .panic := by
  rw [computeReplacements_eq h]
  cases hplaces : placeChunks lines chunks 0 with
  | error e =>
    intro hpanic
    cases hpanic
    exact placeChunks_ne_panic hplaces
  | ok places => exact nofun

end Loop

/-! ## The pass over the lines -/

/-- The lines that a replacement brings, with the file's ending. -/
def addedLine (preferred : LineEnding) (text : Text) : SourceLine := ⟨text, some preferred⟩

/-- **The pass never goes back** over replacements that are in order. -/
theorem spliceLoop_eq {preferred : LineEnding} {lines : List SourceLine} {sourceIndex : Nat}
    (horder : replacements.Pairwise Splice.Before)
    (hstart : ∀ r ∈ replacements, sourceIndex ≤ r.1) :
    spliceLoop preferred replacements lines sourceIndex = .ok (splice
        (replacements.map fun r => (r.1, r.2.1, r.2.2.map (addedLine preferred)))
        lines sourceIndex) := by
  induction replacements generalizing lines sourceIndex with
  | nil => rfl
  | cons r replacements ih =>
    obtain ⟨startIdx, oldLen, newSegment⟩ := r
    obtain ⟨hlater, hrest⟩ := pairwise_cons.mp horder
    rw [spliceLoop, if_neg (not_lt.mpr (hstart _ mem_cons_self)), ih hrest hlater]
    rfl

/-- A line that ends. -/
def SourceLine.ended (preferred : LineEnding) (line : SourceLine) : SourceLine :=
  { line with ending := some (line.ending.getD preferred) }

theorem applyReplacements_eq {file : SourceFile}
    (h : Splice.Ordered file.lines.length replacements) :
    file.applyReplacements replacements = .ok { file with
        lines := (splice
          (replacements.map fun r => (r.1, r.2.1, r.2.2.map (addedLine file.preferredEnding)))
          file.lines 0).map (SourceLine.ended file.preferredEnding) } := by
  rw [applyReplacements, spliceLoop_eq h.before fun _ _ => Nat.zero_le _]
  rfl

theorem intoContents_parseLines (line rest : Text) (preferred : LineEnding) :
    (⟨parseLines line rest, preferred⟩ : SourceFile).intoContents = line ++ rest := by
  unfold intoContents
  fun_induction parseLines line rest <;> simp_all [LineEnding.asStr]

/-- The lines with the replacements made one by one, from the last to the first. -/
def SourceFile.replacedBack (file : SourceFile) (replacements : List Replacement) : List SourceLine :=
  spliceBack (replacements.map fun r => (r.1, r.2.1, r.2.2.map (addedLine file.preferredEnding)))
    file.lines

/-- **Splitting and splicing.** A file comes back from its lines. Replacements that are in range and of which
each ends before the next one starts are made as if from the last to the first; then a line without an
ending gets the preferred one. -/
theorem text_file_exact (contents : Text) (file : SourceFile) {replacements : List Replacement}
    (h : Ordered file.lines.length replacements) :
    (parse contents).intoContents = contents ∧
      file.applyReplacements replacements = .ok { file with
        lines := (file.replacedBack replacements).map (SourceLine.ended file.preferredEnding) } := by
  have horder : (replacements.map fun r =>
      (r.1, r.2.1, r.2.2.map (addedLine file.preferredEnding))).Pairwise Before :=
    pairwise_map.mpr h.before
  have hback : file.replacedBack replacements = _ :=
    @spliceBack_append _ _ [] file.lines horder <| forall_mem_map.mpr fun r hr => by
      rw [length_nil, Nat.zero_add]
      exact ⟨Nat.zero_le _, h.within r hr⟩
  rw [applyReplacements_eq h, hback]
  exact ⟨intoContents_parseLines [] contents _, rfl⟩

/-- Two replacements at one place. -/
theorem text_file_exact_onePlace :
    (parse "a\r\nb".toList).applyReplacements [(1, 0, ["x".toList]), (1, 1, ["y".toList])] =
      .ok ⟨[⟨"a".toList, some .crLf⟩, ⟨"x".toList, some .crLf⟩, ⟨"y".toList, some .crLf⟩], .crLf⟩ :=
  (text_file_exact [] (parse "a\r\nb".toList) ⟨by simp [Before], by decide⟩).2

/-- A last line without an ending gets one, though nothing is replaced; and replacements that are
sorted by their starts but overlap are not made at all. -/
theorem unended_line_ends :
    (parse ['a']).applyReplacements [] ≠ .ok { parse ['a'] with lines := (parse ['a']).replacedBack [] } ∧
      (parse "a\nb\n".toList).applyReplacements [(0, 2, []), (1, 1, [])] = .error .panic := by
  decide

/-- **No patch that was parsed makes the update of a file panic**, whatever the file holds: the
search fails with an error of its own, or the replacements are in order and within the lines, and
the pass over the lines succeeds. -/
theorem parsed_update_never_panics {patch path : Text} {args : ApplyPatchArgs}
    {movePath : Option Text} {chunks : List UpdateFileChunk} (hparse : parsePatch patch = .ok args)
    (hhunk : Hunk.updateFile path movePath chunks ∈ args.hunks) (contents : Text) :
    computeReplacements (SourceFile.parse contents).lineTexts chunks ≠ .error .panic ∧
      (∀ replacements,
        computeReplacements (SourceFile.parse contents).lineTexts chunks = .ok replacements →
          replacements.Pairwise (fun a b => a.1 + a.2.1 ≤ b.1) ∧
          (∀ r ∈ replacements, r.1 + r.2.1 ≤ (SourceFile.parse contents).lines.length) ∧
          ∃ file, (SourceFile.parse contents).applyReplacements replacements = .ok file) ∧
      deriveNewContents contents chunks ≠ .error .panic := by
  have hindexed : ∀ chunk ∈ chunks, chunk.Indexed := indexed_of_parsePatch hparse _ hhunk
  have hordered : ∀ replacements,
      computeReplacements (parse contents).lineTexts chunks = .ok replacements →
        Splice.Ordered (parse contents).lines.length replacements := by
    intro replacements hcompute
    have h := computeReplacements_ordered hindexed hcompute
    rwa [lineTexts, length_map] at h
  have hpanic := @computeReplacements_ne_panic (parse contents).lineTexts _ hindexed
  refine ⟨hpanic, fun replacements hcompute => ?_, ?_⟩
  · have h := hordered replacements hcompute
    exact ⟨h.before, h.within, _, applyReplacements_eq h⟩
  · rw [deriveNewContents]
    cases hcompute : computeReplacements (parse contents).lineTexts chunks with
    | error e =>
      intro h
      cases h
      exact hpanic hcompute
    | ok replacements =>
      simp only [bind, Except.bind, applyReplacements_eq (hordered replacements hcompute)]
      exact nofun

/-- A chunk for the end of the file comes before one for its first line. -/
theorem parsed_update_never_panics_endFirst :
    parsePatch ("*** Begin Patch\n*** Update File: a\n@@\n+z\n@@\n-x\n+y\n" ++
      "*** End Patch").toList =
      .ok ⟨("*** Begin Patch\n*** Update File: a\n@@\n+z\n@@\n-x\n+y\n" ++ "*** End Patch").toList,
        [.updateFile "a".toList none [⟨none, [], ["z".toList], [], false⟩,
            ⟨none, ["x".toList], ["y".toList], [], false⟩]], none, none⟩ ∧
      deriveNewContents "x\n".toList
        [⟨none, [], ["z".toList], [], false⟩, ⟨none, ["x".toList], ["y".toList], [], false⟩] ≠
        .error .panic := by
  refine ⟨?parsed, (parsed_update_never_panics ?parsed mem_cons_self "x\n".toList).2.2⟩
  decide +kernel

end NovumAgent.ApplyPatch
