import NovumAgent.ApplyPatch.Replacements

/-!
# What an update leaves untouched

What a chunk asks for, line by line: the source lines that its removed lines were found at go, its
added lines come, each behind the source line of the last context line before it, and all other
lines stay (`Placement.Removes`, `Placement.addedAt`). The code goes another way, over the stretches
between the context lines, and that is the same as long as the positions of the context lines fit
the sides the chunk was found with.

They need not. When the old lines are only found without their last one, which is empty, the last
new line is left out too if it is empty, whether or not the two are the same context line. A chunk
that ends in an empty context line and an empty removed line is found without the removed line and
loses the context line, and the source line with it (`deriveNewContents_loses_context`). The
replacements of a chunk are what it asks for if and only if it was found as it is or its last lines
go together (`UpdateFileChunk.EndsTogether`).
-/

namespace NovumAgent.ApplyPatch

open List Text Outcome SourceFile Splice Placement

/-! ## What a chunk asks for -/

/-- The place among the old lines behind the last context line before a new line. -/
def anchor (oldStart : Nat) (indices : List (Nat × Nat)) (j : Nat) : Nat :=
  ((indices.filter (·.2 < j)).getLast?.map (·.1 + 1)).getD oldStart

/-- A source line was found for a removed line of the chunk. -/
def Placement.Removes (p : Placement) (i : Nat) : Prop :=
  ∃ o < p.pattern.length, i = p.startIdx + o ∧ ∀ c ∈ p.chunk.contextLineIndices, c.1 ≠ o

instance (p : Placement) (i : Nat) : Decidable (p.Removes i) :=
  inferInstanceAs (Decidable (∃ o < p.pattern.length, i = p.startIdx + o ∧
    ∀ c ∈ p.chunk.contextLineIndices, c.1 ≠ o))

/-- The added lines of the chunk that belong in front of a source line: behind the last context line
before them that a source line was found for. -/
def Placement.addedAt (p : Placement) (i : Nat) : List Text :=
  (range p.chunk.newLines.length).flatMap fun j =>
    if (∀ c ∈ p.chunk.contextLineIndices, c.2 ≠ j) ∧ p.startIdx +
        anchor 0 (p.chunk.contextLineIndices.filter (·.1 < p.pattern.length)) j = i then
      p.chunk.newLines[j]?.toList
    else []

/-- **The replacements of a chunk are what it asks for.** -/
def Placement.Faithful (p : Placement) : Prop :=
  ∀ i, (Splice.Covers p.replacements i ↔ p.Removes i) ∧
    Splice.insertedAt p.replacements i = p.addedAt i

/-- The last old line and the last new line can be left out together: they are one context line,
with nothing but empty lines added behind it, or the last old line is removed and the last new line
is not empty. -/
def UpdateFileChunk.EndsTogether (chunk : UpdateFileChunk) : Prop :=
  match chunk.contextLineIndices.getLast? with
  | some (o, c) =>
    if o + 1 = chunk.oldLines.length then ∀ line ∈ chunk.newLines.drop (c + 1), line = []
    else chunk.newLines.getLast? ≠ some []
  | none => chunk.newLines.getLast? ≠ some []

/-- The lines of a file with what the chunks ask for, and nothing else. -/
def SourceFile.asked (file : SourceFile) (places : List Placement) : List SourceLine :=
  (range (file.lines.length + 1)).flatMap fun i =>
    (places.flatMap (·.addedAt i)).map (addedLine file.preferredEnding) ++
      if ∃ p ∈ places, p.Removes i then [] else file.lines[i]?.toList

/-! ## The replacements between context lines -/

section Blocks

variable {startIdx oldLen oldStart newStart oldEnd newEnd : Nat} {new : List Text}
  {indices : List (Nat × Nat)}

theorem covers_block (h : oldStart ≤ oldEnd) (i : Nat) :
    Splice.Covers (block startIdx new oldStart oldEnd newStart newEnd) i ↔
      startIdx + oldStart ≤ i ∧ i < startIdx + oldEnd := by
  unfold block
  split
  next =>
    simp only [covers_cons, not_covers_nil, or_false]
    omega
  next hnone =>
    have hsame : oldStart = oldEnd := by omega
    simp only [not_covers_nil, false_iff]
    omega

theorem insertedAt_block (i : Nat) :
    insertedAt (block startIdx new oldStart oldEnd newStart newEnd) i =
      if startIdx + oldStart = i then (new.take newEnd).drop newStart else [] := by
  unfold block
  split
  next => rw [insertedAt_cons, insertedAt_nil, append_nil]
  next hnone =>
    have hsame : newStart = newEnd := by omega
    rw [hsame, drop_take_self, insertedAt_nil, ite_self]

/-- **Between the context lines every old line goes.** -/
theorem covers_blocks (h : Behind oldStart newStart indices) (hin : ∀ p ∈ indices, p.1 < oldLen)
    (hold : oldStart ≤ oldLen) (i : Nat) :
    Splice.Covers (blocks startIdx oldLen new indices oldStart newStart) i ↔
      startIdx + oldStart ≤ i ∧ i < startIdx + oldLen ∧ ∀ p ∈ indices, i ≠ startIdx + p.1 := by
  induction indices generalizing oldStart newStart with
  | nil =>
    rw [blocks, covers_block hold]
    simp
  | cons p indices ih =>
    obtain ⟨oldContext, newContext⟩ := p
    obtain ⟨hfrom, -⟩ := h.from_ _ mem_cons_self
    have hcontext := hin _ mem_cons_self
    dsimp only at hfrom hcontext
    rw [blocks, covers_append, covers_block hfrom,
      ih h.tail (fun p hp => hin p (mem_cons_of_mem _ hp)) hcontext, forall_mem_cons]
    constructor
    · intro hcovers
      rcases hcovers with ⟨hle, hlt⟩ | ⟨hle, hlt, hne⟩
      · refine ⟨hle, by omega, by dsimp only; omega, fun p hp => ?_⟩
        have := (h.tail.from_ p hp).1
        dsimp only at this
        omega
      · exact ⟨by omega, hlt, by dsimp only; omega, hne⟩
    · rintro ⟨hle, hlt, hhere, hne⟩
      dsimp only at hhere
      by_cases hi : i < startIdx + oldContext
      · exact .inl ⟨hle, hi⟩
      · exact .inr ⟨by omega, hlt, hne⟩

theorem flatMap_slice (new : List Text) {a b : Nat} (hab : a ≤ b) (hb : b ≤ new.length) :
    ((range' a (b - a)).flatMap fun j => new[j]?.toList) = (new.take b).drop a := by
  rw [drop_take, ← flatMap_take (new.drop a) (show b - a ≤ _ by
    rw [length_drop]; omega)]
  apply flatMap_congr
  intro j hj
  have hj := (mem_range'_1.mp hj).1
  rw [getElem?_drop, Nat.add_sub_cancel' hj]

theorem anchor_cons_of_lt {p : Nat × Nat} {j : Nat} (h : p.2 < j) :
    anchor oldStart (p :: indices) j = anchor (p.1 + 1) indices j := by
  have hfilter : (p :: indices).filter (·.2 < j) = p :: indices.filter (·.2 < j) := by
    simp [h]
  rw [anchor, anchor, hfilter]
  cases hlast : (indices.filter (·.2 < j)).getLast? with
  | none => simp [getLast?_cons, hlast]
  | some q => simp [getLast?_cons, hlast]

theorem anchor_of_le {j : Nat} (h : ∀ p ∈ indices, j ≤ p.2) : anchor oldStart indices j = oldStart := by
  have hnone : indices.filter (·.2 < j) = [] := by
    apply filter_eq_nil_iff.mpr
    intro p hp hlt
    exact absurd (of_decide_eq_true hlt) (not_lt.mpr (h p hp))
  rw [anchor, hnone]
  rfl

/-- The new lines that are no context lines, each at its place. -/
def standing (startIdx oldStart : Nat) (indices : List (Nat × Nat)) (new : List Text)
    (places : List Nat) (i : Nat) : List Text :=
  places.flatMap fun j =>
    if (∀ p ∈ indices, p.2 ≠ j) ∧ startIdx + anchor oldStart indices j = i then new[j]?.toList
    else []

theorem standing_append (places more : List Nat) (i : Nat) :
    standing startIdx oldStart indices new (places ++ more) i =
      standing startIdx oldStart indices new places i ++
        standing startIdx oldStart indices new more i :=
  flatMap_append

theorem standing_at {places : List Nat} {k : Nat}
    (h : ∀ j ∈ places, (∀ p ∈ indices, p.2 ≠ j) ∧ anchor oldStart indices j = k) (i : Nat) :
    standing startIdx oldStart indices new places i =
      if startIdx + k = i then places.flatMap fun j => new[j]?.toList else [] := by
  unfold standing
  by_cases hi : startIdx + k = i
  · rw [if_pos hi]
    apply flatMap_congr
    intro j hj
    obtain ⟨hnone, hanchor⟩ := h j hj
    rw [if_pos ⟨hnone, by rw [hanchor, hi]⟩]
  · rw [if_neg hi]
    apply flatMap_eq_nil_iff.mpr
    intro j hj
    rw [if_neg fun hif => hi (by rw [← (h j hj).2]; exact hif.2)]

/-- **Between the context lines every new line comes**, behind the context line before it. -/
theorem insertedAt_blocks (h : Behind oldStart newStart indices)
    (hin : ∀ p ∈ indices, p.2 < new.length) (hnew : newStart ≤ new.length) (i : Nat) :
    insertedAt (blocks startIdx oldLen new indices oldStart newStart) i =
      standing startIdx oldStart indices new (range' newStart (new.length - newStart)) i := by
  induction indices generalizing oldStart newStart with
  | nil =>
    rw [blocks, insertedAt_block, ← flatMap_slice new hnew (le_refl _)]
    exact (standing_at (fun j _ => ⟨fun p hp => absurd hp not_mem_nil, rfl⟩) i).symm
  | cons p indices ih =>
    obtain ⟨oldContext, newContext⟩ := p
    obtain ⟨-, hfrom⟩ := h.from_ _ mem_cons_self
    have hcontext := hin _ mem_cons_self
    dsimp only at hfrom hcontext
    have hplaces : range' newStart (new.length - newStart) =
        range' newStart (newContext - newStart) ++
          newContext :: range' (newContext + 1) (new.length - (newContext + 1)) := by
      rw [← range'_succ]
      conv => rhs; arg 2; arg 1; rw [show newContext = newStart + (newContext - newStart) by omega]
      rw [range'_append_1]
      congr 1
      omega
    rw [blocks, insertedAt_append, insertedAt_block,
      ih h.tail (fun p hp => hin p (mem_cons_of_mem _ hp)) hcontext, hplaces, standing_append]
    congr 1
    · rw [← flatMap_slice new hfrom (le_of_lt hcontext)]
      refine (standing_at (fun j hj => ?_) i).symm
      have hj := mem_range'_1.mp hj
      have hlt : ∀ p ∈ (oldContext, newContext) :: indices, j < p.2 := by
        intro p hp
        rcases mem_cons.mp hp with rfl | hp
        · dsimp only
          omega
        · have := (h.tail.from_ p hp).2
          dsimp only at this
          omega
      exact ⟨fun p hp => ne_of_gt (hlt p hp), anchor_of_le fun p hp => le_of_lt (hlt p hp)⟩
    · rw [standing, standing, flatMap_cons, if_neg fun hif => hif.1 _ mem_cons_self rfl, nil_append]
      apply flatMap_congr
      intro j hj
      have hj := (mem_range'_1.mp hj).1
      have hne : newContext ≠ j := ne_of_lt hj
      rw [anchor_cons_of_lt (show (oldContext, newContext).2 < j from hj)]
      simp only [forall_mem_cons, hne, ne_eq, not_false_iff, true_and]

theorem anchor_of_lt {j : Nat} (h : ∀ p ∈ indices, p.2 < j) :
    anchor oldStart indices j = (indices.getLast?.map (·.1 + 1)).getD oldStart := by
  have hall : indices.filter (·.2 < j) = indices :=
    filter_eq_self.mpr fun p hp => decide_eq_true (h p hp)
  rw [anchor, hall]

theorem standing_behind {a : Nat} (h : ∀ p ∈ indices, p.2 < a) (ha : a ≤ new.length) (i : Nat) :
    standing startIdx oldStart indices new (range' a (new.length - a)) i =
      if startIdx + (indices.getLast?.map (·.1 + 1)).getD oldStart = i then new.drop a else [] := by
  have hslice := flatMap_slice new ha (le_refl _)
  rw [take_length] at hslice
  rw [← hslice]
  refine standing_at (fun j hj => ?_) i
  have hj := (mem_range'_1.mp hj).1
  have hlt : ∀ p ∈ indices, p.2 < j := fun p hp => lt_of_lt_of_le (h p hp) hj
  exact ⟨fun p hp => ne_of_lt (hlt p hp), anchor_of_lt hlt⟩

theorem range_split {c n : Nat} (h : c ≤ n) : range n = range c ++ range' c (n - c) := by
  rw [range_eq_range', range_eq_range']
  conv => rhs; arg 2; arg 1; rw [← zero_add c]
  rw [range'_append_1, Nat.add_sub_cancel' h]

theorem standing_congr {new' : List Text} {places : List Nat}
    (h : ∀ j ∈ places, new[j]? = new'[j]?) (i : Nat) :
    standing startIdx oldStart indices new places i =
      standing startIdx oldStart indices new' places i := by
  apply flatMap_congr
  intro j hj
  rw [h j hj]

end Blocks

/-! ## One chunk -/

/-- How a chunk was found: as it is, or without its last old line, which is empty, and without its
last new line if that is empty too. -/
inductive Placement.Found (p : Placement) : Prop where
  | whole (old : p.pattern = p.chunk.oldLines) (new : p.newSlice = p.chunk.newLines)
  | shortened (old : p.pattern = p.chunk.oldLines.dropLast)
      (empty : p.chunk.oldLines.getLast? = some [])
      (new : p.newSlice = if p.chunk.newLines.getLast? = some [] then p.chunk.newLines.dropLast
        else p.chunk.newLines)

section Placed

variable {p : Placement}

theorem removes_iff (i : Nat) : p.Removes i ↔ p.startIdx ≤ i ∧ i < p.startIdx + p.pattern.length ∧
      ∀ c ∈ p.chunk.contextLineIndices, i ≠ p.startIdx + c.1 := by
  constructor
  · rintro ⟨o, ho, rfl, hnone⟩
    exact ⟨Nat.le_add_right _ _, Nat.add_lt_add_left ho _,
      fun c hc heq => hnone c hc (add_left_cancel heq).symm⟩
  · intro ⟨hle, hlt, hnone⟩
    exact ⟨i - p.startIdx, by omega, by omega, fun c hc heq => hnone c hc (by omega)⟩

/-- The context lines that the loop gets to. -/
def Placement.reached (p : Placement) : List (Nat × Nat) :=
  withinSides p.pattern.length p.newSlice.length p.chunk.contextLineIndices

theorem covers_replacements (h : p.chunk.Indexed) (hold : p.chunk.oldLines ≠ []) (i : Nat) :
    Splice.Covers p.replacements i ↔ p.startIdx ≤ i ∧ i < p.startIdx + p.pattern.length ∧
      ∀ c ∈ p.reached, i ≠ p.startIdx + c.1 := by
  rw [replacements, if_neg hold, covers_blocks (h.behind.withinSides _ _)
    (fun c hc => (lt_of_mem_withinSides hc).1) (Nat.zero_le _)]
  rfl

theorem insertedAt_replacements (h : p.chunk.Indexed) (hold : p.chunk.oldLines ≠ []) (i : Nat) :
    insertedAt p.replacements i =
      standing p.startIdx 0 p.reached p.newSlice (range p.newSlice.length) i := by
  rw [replacements, if_neg hold, insertedAt_blocks (h.behind.withinSides _ _)
    (fun c hc => (lt_of_mem_withinSides hc).2) (Nat.zero_le _), Nat.sub_zero, range_eq_range']
  rfl

theorem addedAt_eq (h : ∀ c ∈ p.chunk.contextLineIndices, c.1 < p.pattern.length) (i : Nat) :
    p.addedAt i = standing p.startIdx 0 p.chunk.contextLineIndices p.chunk.newLines
      (range p.chunk.newLines.length) i := by
  have hall : p.chunk.contextLineIndices.filter (·.1 < p.pattern.length) =
      p.chunk.contextLineIndices := filter_eq_self.mpr fun c hc => decide_eq_true (h c hc)
  rw [addedAt, hall]
  rfl

theorem reached_eq (h : ∀ c ∈ p.chunk.contextLineIndices,
    c.1 < p.pattern.length ∧ c.2 < p.newSlice.length) :
    p.reached = p.chunk.contextLineIndices :=
  takeWhile_eq_self_iff.mpr fun c hc => decide_eq_true (h c hc)

/-- **A chunk with all its new lines, and all its context lines within reach, gets what it asks
for.** -/
theorem faithful_of_reached (h : p.chunk.Indexed) (hold : p.chunk.oldLines ≠ [])
    (hnew : p.newSlice = p.chunk.newLines)
    (hin : ∀ c ∈ p.chunk.contextLineIndices, c.1 < p.pattern.length) : p.Faithful := by
  have hreached : p.reached = p.chunk.contextLineIndices :=
    reached_eq fun c hc => ⟨hin c hc, hnew ▸ (h.lt_length hc).2⟩
  intro i
  constructor
  · rw [covers_replacements h hold, removes_iff, hreached]
  · rw [insertedAt_replacements h hold, addedAt_eq hin, hreached, hnew]

theorem faithful_of_oldLines_nil (h : p.chunk.Indexed) (hold : p.chunk.oldLines = [])
    (hpattern : p.pattern = []) (hnew : p.newSlice = p.chunk.newLines) : p.Faithful := by
  have hnone : p.chunk.contextLineIndices = [] := by
    apply eq_nil_iff_forall_not_mem.mpr
    intro c hc
    have hlt := (h.lt_length hc).1
    rw [hold] at hlt
    exact absurd hlt (Nat.not_lt_zero _)
  intro i
  rw [replacements, if_pos hold, covers_cons, insertedAt_cons, removes_iff,
    hpattern, addedAt_eq (by simp [hnone]), hnone, range_eq_range']
  have hstanding := @standing_behind p.startIdx 0 p.chunk.newLines [] 0 (by simp) (Nat.zero_le _) i
  rw [Nat.sub_zero] at hstanding
  rw [hstanding]
  constructor
  · simp
  · simp [hnew]

theorem dropLast_cons_nil_eq (t : List Text) :
    (([] : Text) :: t).dropLast = t ↔ ∀ line ∈ t, line = [] := by
  induction t with
  | nil => simp
  | cons line t ih =>
    rw [dropLast_cons_cons, cons.injEq, forall_mem_cons]
    constructor
    · rintro ⟨rfl, h⟩
      exact ⟨rfl, ih.mp h⟩
    · rintro ⟨rfl, h⟩
      exact ⟨rfl, ih.mpr h⟩

theorem shortened_drop {new : List Text} {c : Nat} (hc : new[c]? = some []) :
    (if new.getLast? = some [] then new.dropLast else new).drop c = new.drop (c + 1) ↔
      ∀ line ∈ new.drop (c + 1), line = [] := by
  obtain ⟨before, behind, rfl, rfl⟩ : ∃ before behind : List Text,
      new = before ++ [] :: behind ∧ before.length = c := by
    obtain ⟨hlt, hline⟩ := List.getElem?_eq_some_iff.mp hc
    refine ⟨new.take c, new.drop (c + 1), ?_, length_take_of_le (le_of_lt hlt)⟩
    rw [← hline, ← drop_eq_getElem_cons hlt, take_append_drop]
  have hbehind : (before ++ [] :: behind).drop (before.length + 1) = behind := by
    rw [← drop_drop, drop_left, drop_succ_cons, drop_zero]
  rw [hbehind, getLast?_append_cons]
  split
  next =>
    rw [dropLast_append_cons, drop_left]
    exact dropLast_cons_nil_eq behind
  next hlast =>
    rw [drop_left]
    constructor
    · intro h
      exact absurd h (cons_ne_self _ _)
    · intro h
      refine absurd ?_ hlast
      rw [getLast?_cons]
      cases hlast : behind.getLast? with
      | none => rfl
      | some line => rw [h line (mem_of_getLast? hlast), Option.getD_some]

theorem context_eq_of_old_eq (h : p.chunk.Indexed) {c d : Nat × Nat}
    (hc : c ∈ p.chunk.contextLineIndices) (hd : d ∈ p.chunk.contextLineIndices)
    (heq : c.1 = d.1) : c = d := by
  have hpairs : p.chunk.contextLineIndices.Pairwise fun a b => a.1 = b.1 → a = b :=
    h.increasing.imp fun hlt hab => absurd hab (ne_of_lt hlt.1)
  have : Std.Symm fun a b : Nat × Nat => a.1 = b.1 → a = b :=
    ⟨fun _ _ hab hba => (hab hba.symm).symm⟩
  exact List.Pairwise.forall_of_forall (fun _ _ _ => rfl) hpairs hc hd heq

/-- **The last old line was a context line**: the chunk gets what it asks for just if all lines
behind it are empty. -/
theorem faithful_iff_of_context {before : List (Nat × Nat)} {o c : Nat} (h : p.chunk.Indexed)
    (hcontexts : p.chunk.contextLineIndices = before ++ [(o, c)])
    (ho : o + 1 = p.chunk.oldLines.length) (hpattern : p.pattern = p.chunk.oldLines.dropLast)
    (hempty : p.chunk.oldLines.getLast? = some [])
    (hnew : p.newSlice = if p.chunk.newLines.getLast? = some [] then p.chunk.newLines.dropLast
        else p.chunk.newLines) :
    p.Faithful ↔ ∀ line ∈ p.chunk.newLines.drop (c + 1), line = [] := by
  have hold : p.chunk.oldLines ≠ [] := by
    intro hnil
    rw [hnil] at ho
    cases ho
  have hlength : p.pattern.length = o := by
    rw [hpattern, length_dropLast, ← ho, Nat.add_sub_cancel]
  have hmem : (o, c) ∈ p.chunk.contextLineIndices := by
    rw [hcontexts]
    exact mem_append_right _ mem_cons_self
  have hc : p.chunk.newLines[c]? = some [] := by
    obtain ⟨line, hline, hshared⟩ := h.shared _ hmem
    rw [getLast?_eq_getElem?, ← ho, Nat.add_sub_cancel] at hempty
    rw [hempty] at hline
    rw [hshared, ← hline]
  have hbefore : ∀ b ∈ before, b.1 < o ∧ b.2 < c := by
    have hincreasing := h.increasing
    rw [hcontexts] at hincreasing
    intro b hb
    exact (pairwise_append.mp hincreasing).2.2 b hb _ mem_cons_self
  have hclt : c < p.chunk.newLines.length := (h.lt_length hmem).2
  have hslice : c ≤ p.newSlice.length ∧ ∀ j < c, p.newSlice[j]? = p.chunk.newLines[j]? := by
    rw [hnew]
    split
    · rw [length_dropLast]
      refine ⟨by omega, fun j hj => ?_⟩
      rw [getElem?_dropLast, if_pos (by omega)]
    · exact ⟨le_of_lt hclt, fun _ _ => rfl⟩
  have hreached : p.reached = before := by
    rw [reached, withinSides, hcontexts, hlength]
    rw [takeWhile_append_of_pos fun b hb => decide_eq_true
      ⟨(hbefore b hb).1, lt_of_lt_of_le (hbefore b hb).2 hslice.1⟩,
      takeWhile_cons_of_neg (by simp), append_nil]
  have hfilter : p.chunk.contextLineIndices.filter (·.1 < p.pattern.length) = before := by
    rw [hcontexts, hlength, filter_append,
      filter_eq_self.mpr fun b hb => decide_eq_true (hbefore b hb).1]
    simp
  -- both sides agree in front of the context line; behind it each is one stretch
  have hinserted : ∀ i, insertedAt p.replacements i =
      standing p.startIdx 0 before p.chunk.newLines (range c) i ++
        if p.startIdx + (before.getLast?.map (·.1 + 1)).getD 0 = i then p.newSlice.drop c else [] := by
    intro i
    rw [insertedAt_replacements h hold, hreached, range_split hslice.1, standing_append,
      standing_behind (fun b hb => (hbefore b hb).2) hslice.1,
      standing_congr fun j hj => hslice.2 j (mem_range.mp hj)]
  have hadded : ∀ i, p.addedAt i = standing p.startIdx 0 before p.chunk.newLines (range c) i ++
        if p.startIdx + (before.getLast?.map (·.1 + 1)).getD 0 = i then
          p.chunk.newLines.drop (c + 1) else [] := by
    intro i
    have hlater : ∀ b ∈ before, b.2 < c + 1 := fun b hb => Nat.lt_succ_of_lt (hbefore b hb).2
    have hother : ∀ j, j ≠ c → ((∀ d ∈ p.chunk.contextLineIndices, d.2 ≠ j) ↔
        ∀ b ∈ before, b.2 ≠ j) := by
      intro j hj
      rw [hcontexts, forall_mem_append, forall_mem_singleton]
      exact and_iff_left (Ne.symm hj)
    rw [← standing_behind hlater hclt, addedAt, hfilter, range_split (le_of_lt hclt),
      show p.chunk.newLines.length - c = p.chunk.newLines.length - (c + 1) + 1 by omega,
      range'_succ, flatMap_append, flatMap_cons,
      if_neg fun hif => hif.1 _ hmem rfl, nil_append]
    congr 1
    · apply flatMap_congr
      intro j hj
      simp only [hother j (ne_of_lt (mem_range.mp hj))]
    · apply flatMap_congr
      intro j hj
      simp only [hother j (ne_of_gt (mem_range'_1.mp hj).1)]
  rw [← shortened_drop hc, ← hnew]
  constructor
  · intro hfaithful
    have hhere := (hfaithful (p.startIdx + (before.getLast?.map (·.1 + 1)).getD 0)).2
    rw [hinserted, hadded, if_pos rfl, if_pos rfl] at hhere
    exact append_cancel_left hhere
  · intro hbehind i
    constructor
    · rw [covers_replacements h hold, removes_iff, hreached, hcontexts, hlength,
        forall_mem_append, forall_mem_singleton]
      dsimp only
      constructor
      · intro ⟨hle, hlt, hnone⟩
        exact ⟨hle, hlt, hnone, ne_of_lt hlt⟩
      · intro ⟨hle, hlt, hnone, _⟩
        exact ⟨hle, hlt, hnone⟩
    · rw [hinserted, hadded, hbehind]

/-- **The last old line was removed**: the chunk gets what it asks for just if its last new line is
not empty. -/
theorem faithful_iff_of_removed (h : p.chunk.Indexed)
    (hcontexts : ∀ c ∈ p.chunk.contextLineIndices, c.1 + 1 < p.chunk.oldLines.length)
    (hpattern : p.pattern = p.chunk.oldLines.dropLast)
    (hempty : p.chunk.oldLines.getLast? = some [])
    (hnew : p.newSlice = if p.chunk.newLines.getLast? = some [] then p.chunk.newLines.dropLast
        else p.chunk.newLines) :
    p.Faithful ↔ p.chunk.newLines.getLast? ≠ some [] := by
  have hold : p.chunk.oldLines ≠ [] := by
    intro hnil
    rw [hnil] at hempty
    cases hempty
  have hin : ∀ c ∈ p.chunk.contextLineIndices, c.1 < p.pattern.length := by
    intro c hc
    have := hcontexts c hc
    rw [hpattern, length_dropLast]
    omega
  constructor
  · intro hfaithful hlast
    rw [if_pos hlast] at hnew
    obtain ⟨lines, hlines⟩ : ∃ lines, p.chunk.newLines = lines ++ [[]] :=
      getLast?_eq_some_iff.mp hlast
    have hslice : p.newSlice = lines := by rw [hnew, hlines, dropLast_concat]
    have hlength : p.chunk.newLines.length = lines.length + 1 := by
      rw [hlines, length_append, length_singleton]
    by_cases hcontext : ∃ c ∈ p.chunk.contextLineIndices, c.2 = lines.length
    · -- the line left out is a context line, and its source line goes
      obtain ⟨c, hc, hcline⟩ := hcontext
      have hremoves := (hfaithful (p.startIdx + c.1)).1
      rw [covers_replacements h hold, removes_iff] at hremoves
      refine (hremoves.mp ⟨Nat.le_add_right _ _, Nat.add_lt_add_left (hin c hc) _, ?_⟩).2.2 c hc rfl
      intro d hd heq
      have hdmem : d ∈ p.chunk.contextLineIndices := (takeWhile_sublist _).subset hd
      have hcd := context_eq_of_old_eq h hc hdmem (add_left_cancel heq)
      have hlt := (lt_of_mem_withinSides hd).2
      rw [← hcd, hcline, hslice] at hlt
      exact lt_irrefl _ hlt
    · -- the line left out is an added line, and is missing where it belongs
      have hreached : p.reached = p.chunk.contextLineIndices := by
        apply reached_eq
        intro c hc
        have hlt := (h.lt_length hc).2
        have hne : c.2 ≠ lines.length := fun heq => hcontext ⟨c, hc, heq⟩
        rw [hslice]
        exact ⟨hin c hc, by omega⟩
      have hhere := (hfaithful (p.startIdx + anchor 0 p.chunk.contextLineIndices lines.length)).2
      rw [insertedAt_replacements h hold, addedAt_eq hin, hreached, hlength, range_succ,
        standing_append, hslice] at hhere
      have hsame := @standing_congr p.startIdx 0 lines p.chunk.contextLineIndices p.chunk.newLines
        (range lines.length)
        (fun j hj => by rw [hlines, getElem?_append_left (mem_range.mp hj)])
      rw [hsame] at hhere
      have hnone := self_eq_append_right.mp hhere
      have hnot : ∀ c ∈ p.chunk.contextLineIndices, c.2 ≠ lines.length :=
        fun c hc heq => hcontext ⟨c, hc, heq⟩
      rw [standing, flatMap_singleton, if_pos ⟨hnot, rfl⟩, hlines, getElem?_concat_length] at hnone
      cases hnone
  · intro hlast
    rw [if_neg hlast] at hnew
    exact faithful_of_reached h hold hnew hin

/-- **When a chunk gets what it asks for**: it was found as it is, or its last lines go together. -/
theorem faithful_iff (h : p.chunk.Indexed) (hfound : p.Found) :
    p.Faithful ↔ p.pattern = p.chunk.oldLines ∨ p.chunk.EndsTogether := by
  rcases hfound with ⟨hpattern, hnew⟩ | ⟨hpattern, hempty, hnew⟩
  · refine iff_of_true ?_ (.inl hpattern)
    by_cases hold : p.chunk.oldLines = []
    · exact faithful_of_oldLines_nil h hold (hpattern.trans hold) hnew
    · exact faithful_of_reached h hold hnew fun c hc => hpattern ▸ (h.lt_length hc).1
  · have hshort : p.pattern ≠ p.chunk.oldLines := by
      intro heq
      rw [hpattern] at heq
      have hlength := congrArg length heq
      have hpos : p.chunk.oldLines.length ≠ 0 := by
        intro hzero
        rw [length_eq_zero_iff.mp hzero] at hempty
        cases hempty
      rw [length_dropLast] at hlength
      omega
    rw [or_iff_right hshort, UpdateFileChunk.EndsTogether]
    rcases eq_nil_or_concat' p.chunk.contextLineIndices with hnil | ⟨before, ⟨o, c⟩, hconcat⟩
    · rw [hnil]
      exact faithful_iff_of_removed h (by simp [hnil]) hpattern hempty hnew
    · rw [hconcat, getLast?_concat]
      dsimp only
      split
      next ho => exact faithful_iff_of_context h hconcat ho hpattern hempty hnew
      next ho =>
        have hmem : (o, c) ∈ p.chunk.contextLineIndices := by
          rw [hconcat]
          exact mem_append_right _ mem_cons_self
        have hlt := (h.lt_length hmem).1
        refine faithful_iff_of_removed h (fun d hd => ?_) hpattern hempty hnew
        have hincreasing := h.increasing
        rw [hconcat] at hincreasing hd
        dsimp only at hlt
        rcases mem_append.mp hd with hd | hd
        · have := ((pairwise_append.mp hincreasing).2.2 d hd _ mem_cons_self).1
          dsimp only at this
          omega
        · rw [mem_singleton.mp hd]
          dsimp only
          omega

end Placed

/-! ## All chunks -/

section Places

variable {lines : List Text} {chunk : UpdateFileChunk} {chunks : List UpdateFileChunk}
  {lineIndex : Nat}

theorem placeChunk_found {place : Placement} {next : Nat}
    (hplace : placeChunk lines chunk lineIndex = .ok (place, next))
    (hindex : lineIndex ≤ lines.length) :
    place.chunk = chunk ∧ place.Found ∧ lineIndex ≤ place.startIdx ∧
      (place.pattern = [] ∨ place.startIdx + place.pattern.length ≤ next) := by
  obtain ⟨k, hfrom, hk, ⟨hold, rfl, rfl⟩ | ⟨startIdx, pattern, newSlice, hold, hlocate, rfl, rfl⟩⟩ :=
    placeChunk_cases hplace hindex
  · exact ⟨rfl, .whole hold.symm rfl, hindex, .inl rfl⟩
  · have hstart := (locate_within hlocate hk).1
    refine ⟨rfl, ?_, le_trans hfrom hstart, .inr (le_refl _)⟩
    unfold locate at hlocate
    split at hlocate
    next =>
      cases hlocate
      exact .whole rfl rfl
    next =>
      split at hlocate
      next hempty =>
        obtain ⟨i, -, hi⟩ := Option.map_eq_some_iff.mp hlocate
        cases hi
        exact .shortened rfl hempty rfl
      next => cases hlocate

/-- One chunk was found behind the lines of another, or takes none. -/
def Apart (p q : Placement) : Prop := p.pattern = [] ∨ p.startIdx + p.pattern.length ≤ q.startIdx

variable {places : List Placement}

/-- **Every run of the loop places each chunk**, the lines of one behind those of the one before. -/
theorem placeChunks_found (h : ∀ chunk ∈ chunks, chunk.Indexed)
    (hplaces : placeChunks lines chunks lineIndex = .ok places) (hindex : lineIndex ≤ lines.length) :
    places.map Placement.chunk = chunks ∧
      (∀ p ∈ places, p.chunk.Indexed ∧ p.Found ∧ lineIndex ≤ p.startIdx) ∧
      places.Pairwise Apart := by
  induction chunks generalizing lineIndex places with
  | nil =>
    cases hplaces
    exact ⟨rfl, nofun, List.Pairwise.nil⟩
  | cons chunk chunks ih =>
    rw [placeChunks, bind_eq_ok] at hplaces
    obtain ⟨⟨place, next⟩, hplace, hplaces⟩ := hplaces
    rw [bind_eq_ok] at hplaces
    obtain ⟨rest, hrest, hplaces⟩ := hplaces
    cases hplaces
    have hchunk := h chunk mem_cons_self
    obtain ⟨hfrom, hnext, -⟩ := placeChunk_within hchunk hplace hindex
    obtain ⟨rfl, hfound, hstart, hbehind⟩ := placeChunk_found hplace hindex
    obtain ⟨hmap, hall, hapart⟩ :=
      ih (fun chunk hchunk => h chunk (mem_cons_of_mem _ hchunk)) hrest hnext
    refine ⟨by rw [map_cons, hmap], forall_mem_cons.mpr ⟨⟨hchunk, hfound, hstart⟩, ?_⟩,
      pairwise_cons.mpr ⟨fun q hq => ?_, hapart⟩⟩
    · intro q hq
      obtain ⟨hindexed, hfound, hqstart⟩ := hall q hq
      exact ⟨hindexed, hfound, le_trans hfrom hqstart⟩
    · exact hbehind.imp_right fun hle => le_trans hle (hall q hq).2.2

/-- **A source line found for a context line is found for no removed line**, of this chunk or
another. -/
theorem not_removes_of_context (hapart : places.Pairwise Apart)
    {p q : Placement} (hp : p ∈ places) (hq : q ∈ places) {c : Nat × Nat}
    (hc : c ∈ p.chunk.contextLineIndices) (hin : c.1 < p.pattern.length) :
    ¬ q.Removes (p.startIdx + c.1) := by
  intro hremoves
  obtain ⟨hle, hlt, hnone⟩ := (removes_iff _).mp hremoves
  obtain ⟨i, hi, rfl⟩ := getElem_of_mem hp
  obtain ⟨j, hj, rfl⟩ := getElem_of_mem hq
  rcases Nat.lt_trichotomy i j with hij | rfl | hij
  · rcases pairwise_iff_getElem.mp hapart i j hi hj hij with hnil | hbehind
    · rw [hnil] at hin
      exact absurd hin (Nat.not_lt_zero _)
    · omega
  · exact hnone c hc rfl
  · rcases pairwise_iff_getElem.mp hapart j i hj hi hij with hnil | hbehind
    · rw [hnil, length_nil] at hlt
      omega
    · omega

/-- **When all chunks get what they ask for, the file does**: no other line is touched. -/
theorem deriveNewContents_of_faithful {contents : Text} (h : ∀ chunk ∈ chunks, chunk.Indexed)
    (hplaces : placeChunks (parse contents).lineTexts chunks 0 = .ok places)
    (hfaithful : ∀ p ∈ places, p.Faithful) :
    deriveNewContents contents chunks = .ok (intoContents
      { parse contents with
        lines := ((parse contents).asked places).map
          (SourceLine.ended (parse contents).preferredEnding) }) := by
  have hcompute : computeReplacements (parse contents).lineTexts chunks =
      .ok (sort (places.flatMap replacements)) := by
    rw [computeReplacements_eq h, hplaces]
    rfl
  have hordered := computeReplacements_ordered h hcompute
  rw [lineTexts, length_map] at hordered
  rw [deriveNewContents, hcompute]
  simp only [bind, Except.bind, applyReplacements_eq hordered]
  generalize parse contents = file at hordered
  congr 4
  rw [splice_eq_edited]
  · rw [edited, asked, range_eq_range']
    apply flatMap_congr
    intro i _
    have hinserted : insertedAt (sort (places.flatMap replacements)) i =
        places.flatMap (·.addedAt i) := by
      rw [insertedAt_sort, insertedAt_flatMap]
      exact flatMap_congr fun p hp => (hfaithful p hp i).2
    have hcovers : Splice.Covers (sort (places.flatMap replacements)) i ↔
        ∃ p ∈ places, p.Removes i := by
      rw [covers_sort, covers_flatMap]
      exact exists_congr fun p => and_congr_right fun hp => (hfaithful p hp i).1
    rw [insertedAt_map, hinserted, Nat.sub_zero]
    simp only [covers_map, hcovers]
  · exact pairwise_map.mpr hordered.before
  · intro e he
    obtain ⟨r, hr, rfl⟩ := mem_map.mp he
    rw [zero_add]
    exact ⟨Nat.zero_le _, hordered.within r hr⟩

end Places

/-- **An update touches what its chunks ask for, and nothing else**, if each chunk was found as it
is or its last lines go together. The chunks that are neither are just those whose replacements are
not what they ask for. -/
theorem update_touches_only_asked {patch path : Text} {args : ApplyPatchArgs}
    {movePath : Option Text} {chunks : List UpdateFileChunk} (hparse : parsePatch patch = .ok args)
    (hhunk : Hunk.updateFile path movePath chunks ∈ args.hunks) (contents : Text)
    {replacements : List Replacement}
    (hcompute : computeReplacements (SourceFile.parse contents).lineTexts chunks =
      .ok replacements) :
    ∃ places, placeChunks (SourceFile.parse contents).lineTexts chunks 0 = .ok places ∧
      places.map Placement.chunk = chunks ∧
      (∀ p ∈ places, p.Faithful ↔ p.pattern = p.chunk.oldLines ∨ p.chunk.EndsTogether) ∧
      ((∀ p ∈ places, p.pattern = p.chunk.oldLines ∨ p.chunk.EndsTogether) →
        deriveNewContents contents chunks = .ok (SourceFile.intoContents
          { SourceFile.parse contents with
            lines := ((SourceFile.parse contents).asked places).map
              (SourceLine.ended (parse contents).preferredEnding) })) ∧
      ∀ p ∈ places, ∀ c ∈ p.chunk.contextLineIndices, c.1 < p.pattern.length →
        ∀ q ∈ places, ¬ q.Removes (p.startIdx + c.1) := by
  have hindexed : ∀ chunk ∈ chunks, chunk.Indexed := indexed_of_parsePatch hparse _ hhunk
  rw [computeReplacements_eq hindexed, map_eq_ok] at hcompute
  obtain ⟨places, hplaces, -⟩ := hcompute
  obtain ⟨hmap, hall, hapart⟩ := placeChunks_found hindexed hplaces (Nat.zero_le _)
  have hiff : ∀ p ∈ places, p.Faithful ↔ p.pattern = p.chunk.oldLines ∨ p.chunk.EndsTogether :=
    fun p hp => faithful_iff (hall p hp).1 (hall p hp).2.1
  refine ⟨places, hplaces, hmap, hiff, fun hends => ?_, fun p hp c hc hin q hq =>
    not_removes_of_context hapart hp hq hc hin⟩
  exact deriveNewContents_of_faithful hindexed hplaces fun p hp => (hiff p hp).mpr (hends p hp)

/-- A chunk that replaces the line between two others. -/
def middleChunk : UpdateFileChunk :=
  ⟨none, ["a".toList, "b".toList, "c".toList], ["a".toList, "B".toList, "c".toList], [(0, 0), (2, 2)],
    false⟩

/-- One line of the file is replaced between two that keep their endings, and the file is what the chunk
asks for. -/
theorem update_touches_only_asked_middle : ∃ places,
    placeChunks (SourceFile.parse "a\r\nb\nc".toList).lineTexts [middleChunk] 0 = .ok places ∧
      (∀ p ∈ places, p.Faithful) ∧
      .ok (SourceFile.intoContents { SourceFile.parse "a\r\nb\nc".toList with
        lines := ((SourceFile.parse "a\r\nb\nc".toList).asked places).map
          (SourceLine.ended (parse "a\r\nb\nc".toList).preferredEnding) }) =
        (Except.ok "a\r\nB\r\nc\r\n".toList : Except UpdateError Text) := by
  have hparse : parsePatch ("*** Begin Patch\n*** Update File: f\n@@\n a\n-b\n+B\n c\n" ++
      "*** End Patch").toList =
      .ok ⟨("*** Begin Patch\n*** Update File: f\n@@\n a\n-b\n+B\n c\n" ++ "*** End Patch").toList,
        [.updateFile "f".toList none [middleChunk]], none, none⟩ := by decide +kernel
  obtain ⟨places, hplaces, -, hiff, hfile, -⟩ :=
    update_touches_only_asked hparse mem_cons_self "a\r\nb\nc".toList
      (show computeReplacements _ _ = .ok [(1, 1, ["B".toList])] by decide +kernel)
  have hfound : placeChunks (SourceFile.parse "a\r\nb\nc".toList).lineTexts [middleChunk] 0 =
      .ok [⟨middleChunk, 0, middleChunk.oldLines, middleChunk.newLines⟩] := by rfl
  cases hfound.symm.trans hplaces
  have hends : ∀ p ∈ [(⟨middleChunk, 0, middleChunk.oldLines, middleChunk.newLines⟩ : Placement)],
      p.pattern = p.chunk.oldLines ∨ p.chunk.EndsTogether := by simp
  refine ⟨_, hfound, fun p hp => (hiff p hp).mpr (hends p hp), (hfile hends).symm.trans ?_⟩
  decide +kernel

/-- **A context line is lost.** The chunk keeps `a` and an empty line and removes a second empty
line, which the file does not have. Its lines are found without the second one, the kept one is left
out of the new side, and the file loses the empty line between `a` and `b`. -/
theorem deriveNewContents_loses_context :
    parsePatch "*** Begin Patch\n*** Update File: f\n@@\n a\n \n-\n*** End Patch".toList =
      .ok ⟨"*** Begin Patch\n*** Update File: f\n@@\n a\n \n-\n*** End Patch".toList,
        [.updateFile "f".toList none
          [⟨none, ["a".toList, [], []], ["a".toList, []], [(0, 0), (1, 1)], false⟩]], none, none⟩ ∧
    locate (SourceFile.parse "a\n\nb\n".toList).lineTexts
      ⟨none, ["a".toList, [], []], ["a".toList, []], [(0, 0), (1, 1)], false⟩ 0 =
        some (0, ["a".toList, []], ["a".toList]) ∧
    deriveNewContents "a\n\nb\n".toList
      [⟨none, ["a".toList, [], []], ["a".toList, []], [(0, 0), (1, 1)], false⟩] =
        .ok "a\nb\n".toList := by
  refine ⟨?_, ?_, ?_⟩
  · decide +kernel
  · decide +kernel
  · decide +kernel

end NovumAgent.ApplyPatch
