import NovumAgent.StreamParser.InlineHiddenTag

/-!
# Hidden tags and the ends of chunks

Within a chunk the parser takes the first tag that opens, and of two at one place the longer one. At the end of a
chunk it has to decide with what it has. `chunking_irrelevant_iff` says for which tags the two agree: those of which
none opens within another one that is not complete.

The other tags are told apart by one of two texts. When `a` opens within `b` and before its end, the text of `b` is
given once as a whole, which opens `b`, and once without its last character first, which opens something else. If
both end with the same tags then the second one has closed its tag, and one more character tells them apart.
-/

namespace NovumAgent.StreamParser.InlineHiddenTagParser

open List Needle

variable {τ : Type}

/-- `push_str` for each chunk, and `finish`. -/
def parseChunks (parser : InlineHiddenTagParser τ) : List Text → StreamTextChunk (ExtractedInlineTag τ)
  | [] => parser.finish.2
  | chunk :: chunks => (parser.pushStr chunk).2 ++ (parser.pushStr chunk).1.parseChunks chunks

section

variable {specs : List (InlineTagSpec τ)} {parser : InlineHiddenTagParser τ} {active : ActiveTag τ}
  {pending text : Text} {out : StreamTextChunk (ExtractedInlineTag τ)}

theorem parseChunks_singleton (parser : InlineHiddenTagParser τ) (chunk : Text) :
    parser.parseChunks [chunk] = whole parser.specs parser.active (parser.pending ++ chunk) := by
  have hpush := @pushStr_whole _ parser _ undisturbed_nil chunk
  rw [append_nil, append_nil] at hpush
  rw [← hpush]
  exact congrArg _ (finish_whole scan_still)

/-- **Chunks** of a text, with tags that do not open within each other. -/
theorem parseChunks_eq_whole (hspecs : Unambiguous parser.specs)
    (hstill : Still parser.specs parser.active parser.pending) (chunks : List Text) :
    parser.parseChunks chunks = whole parser.specs parser.active (parser.pending ++ chunks.flatten) := by
  induction chunks generalizing parser with
  | nil =>
    rw [flatten_nil, append_nil]
    exact finish_whole hstill
  | cons chunk chunks ih =>
    rw [flatten_cons, ← pushStr_whole (hspecs.undisturbed _)]
    exact congrArg _ (@ih (parser.pushStr chunk).1 hspecs scan_still)

/-! ## Tags that open within each other -/

theorem scan_of_open {place : Opening τ} (h : findNextOpen specs pending = some place) :
    scan specs none pending out =
      scan specs (some (activate place.spec)) place.rest ⟨out.visibleText ++ place.before, out.extracted⟩ := by
  rw [scan.eq_def specs none pending]
  dsimp only
  split
  next hopen =>
    cases Option.some.inj (h.symm.trans hopen)
    rfl
  next hopen => exact absurd (h.symm.trans hopen) (Option.some_ne_none _)

theorem scan_nil (active : ActiveTag τ) : scan specs (some active) [] out = (some active, [], out) := by
  rw [scan]
  split
  next hclose => exact absurd (length_lt_of_splitOnce active.close_ne_nil hclose) (Nat.not_lt_zero _)
  next => simp [ActiveTag.pushStr]

theorem extracted_prefix_scan (specs : List (InlineTagSpec τ)) (active : Option (ActiveTag τ)) (pending : Text)
    (out : StreamTextChunk (ExtractedInlineTag τ)) :
    out.extracted <+: (scan specs active pending out).2.2.extracted := by
  fun_induction scan specs active pending out with
  | case1 pending out active body rest hclose ih => exact (prefix_append _ _).trans ih
  | case2 => exact prefix_rfl
  | case3 pending out place hopen ih => exact ih
  | case4 => exact prefix_rfl

theorem scan_open (h : (scan specs (some active) pending out).2.2.extracted = []) :
    ∃ active', (scan specs (some active) pending out).1 = some active' ∧
      active'.content ++ (scan specs (some active) pending out).2.1 = active.content ++ pending := by
  generalize hresult : scan specs (some active) pending out = result at h ⊢
  rw [scan] at hresult
  split at hresult
  next body rest hclose =>
    have hkept := extracted_prefix_scan specs none rest
      ⟨out.visibleText, out.extracted ++ [⟨active.tag, active.content ++ body⟩]⟩
    rw [hresult, h, prefix_nil] at hkept
    exact absurd hkept (append_ne_nil_of_right_ne_nil _ (cons_ne_nil _ _))
  next hclose =>
    subst hresult
    refine ⟨_, rfl, ?_⟩
    dsimp only [ActiveTag.pushStr]
    rw [append_assoc, take_append_drop]

theorem findNextOpen_open {b : InlineTagSpec τ} (hb : b ∈ specs) :
    ∃ spec, findNextOpen specs b.open_ = some ⟨[], [], spec⟩ := by
  have hfind : Opening.find b b.open_ = some ⟨[], [], b⟩ := by
    rw [Opening.find, splitOnce_of_isPrefixOf prefix_rfl, drop_length]
    rfl
  have hplace : (⟨[], [], b⟩ : Opening τ) ∈ specs.filterMap (Opening.find · b.open_) :=
    mem_filterMap.mpr ⟨b, hb, hfind⟩
  cases hopen : findNextOpen specs b.open_ with
  | none =>
    rw [findNextOpen_eq_argmin, argmin_eq_none] at hopen
    rw [hopen] at hplace
    cases hplace
  | some place =>
    obtain ⟨before, rest, spec⟩ := place
    have hsplit := append_of_splitOnce (findNextOpen_mem hopen).2
    rw [findNextOpen_eq_argmin] at hopen
    -- the place that is taken is as far to the front, and its tag is as long
    have hkey := le_of_mem_argmin hplace hopen
    obtain hlt | ⟨hzero, hlen⟩ := Prod.Lex.toLex_le_toLex.mp hkey
    · exact absurd hlt (Nat.not_lt_zero _)
    · obtain rfl : before = [] := length_eq_zero_iff.mp hzero
      obtain rfl : rest = [] := by
        apply Utf8.eq_nil_of_byteLen_eq_zero
        have hbytes := congrArg Utf8.byteLen hsplit
        rw [Utf8.byteLen_append, Utf8.byteLen_append] at hbytes
        have hle : Utf8.byteLen b.open_ ≤ Utf8.byteLen spec.open_ := hlen
        dsimp only [Utf8.byteLen_nil] at hbytes
        omega
      exact ⟨spec, rfl⟩

theorem whole_char (c : Char) :
    (whole specs none [c]).visibleText ≠ [] ∨ (whole specs none [c]).extracted ≠ [] := by
  cases hopen : findNextOpen specs [c] with
  | none =>
    rw [whole_visible hopen]
    exact .inl (cons_ne_nil _ _)
  | some place =>
    rw [whole_open hopen]
    right
    cases hclose : splitOnce (activate place.spec).close place.rest with
    | none =>
      rw [whole_body hclose]
      exact cons_ne_nil _ _
    | some split =>
      rw [whole_close hclose]
      exact cons_ne_nil _ _

theorem whole_active_char (active : ActiveTag τ) (c : Char) :
    ∃ tag, whole specs (some active) [c] = ⟨[], [tag]⟩ := by
  cases hclose : splitOnce active.close [c] with
  | none => exact ⟨_, whole_body hclose⟩
  | some split =>
    have hrest : split.2 = [] := by
      have hlt := length_lt_of_splitOnce active.close_ne_nil hclose
      exact length_eq_zero_iff.mp (Nat.lt_one_iff.mp hlt)
    refine ⟨⟨active.tag, active.content ++ split.1⟩, ?_⟩
    rw [whole_close hclose, hrest, whole_visible (still_new specs)]
    rfl

theorem pushStr_open {start : Text} {c : Char} {place : Opening τ}
    (hopen : findNextOpen specs start = some place)
    (hnone : ((new specs).pushStr start).2.extracted = [])
    (hnone' : (((new specs).pushStr start).1.pushStr [c]).2.extracted = []) :
    ∃ active, (((new specs).pushStr start).1.pushStr [c]).1.active = some active ∧
      active.content ++ (((new specs).pushStr start).1.pushStr [c]).1.pending ≠ [] := by
  have hfirst : ∃ active', ((new specs).pushStr start).1.active = some active' := by
    have hnone : (scan specs none start .empty).2.2.extracted = [] := hnone
    show ∃ active', (scan specs none start .empty).1 = some active'
    rw [scan_of_open hopen] at hnone ⊢
    obtain ⟨active', hactive', -⟩ := scan_open hnone
    exact ⟨active', hactive'⟩
  obtain ⟨active', hactive'⟩ := hfirst
  generalize ((new specs).pushStr start).1 = parser at hnone' hactive' ⊢
  obtain ⟨specs', pending', active₀⟩ := parser
  obtain rfl := hactive'
  obtain ⟨active, hactive, hcontent⟩ := scan_open hnone'
  refine ⟨active, hactive, ?_⟩
  show active.content ++ (scan specs' (some active') (pending' ++ [c]) .empty).2.1 ≠ []
  rw [hcontent]
  exact append_ne_nil_of_right_ne_nil _ (append_ne_nil_of_right_ne_nil _ (cons_ne_nil _ _))

/-- **Tags that open within each other** make the ends of chunks matter. -/
theorem exists_chunks_of_isInfix {a b : InlineTagSpec τ} (ha : a ∈ specs) (hb : b ∈ specs)
    (hinside : a.open_ <:+: b.open_.dropLast) :
    ∃ chunks chunks', chunks.flatten = chunks'.flatten ∧
      (new specs).parseChunks chunks ≠ (new specs).parseChunks chunks' := by
  by_contra! hsame
  obtain ⟨start, c, hstart⟩ : ∃ start c, b.open_ = start ++ [c] :=
    ⟨_, _, (dropLast_append_getLast b.open_ne_nil).symm⟩
  rw [hstart, dropLast_concat] at hinside
  -- the text as a whole opens a tag, and without its last character it opens one too
  obtain ⟨spec, hspec⟩ := findNextOpen_open hb
  rw [hstart] at hspec
  have hpush : (new specs).pushStr (start ++ [c]) = (⟨specs, [], some (activate spec)⟩, .empty) := by
    have hscan := @scan_of_open _ specs _ .empty _ hspec
    rw [scan_nil] at hscan
    rw [new, pushStr, nil_append, hscan]
    rfl
  obtain ⟨place, hplace⟩ : ∃ place, findNextOpen specs start = some place := by
    rw [← Option.ne_none_iff_exists', ne_eq, findNextOpen_eq_none_iff]
    exact fun hnone => splitOnce_eq_none_iff.mp (hnone a ha) hinside
  have hfinal := @pushStr_open _ _ _ c _ hplace
  have hshort := hsame [start ++ [c]] [start, [c]] (by simp)
  have hlong := hsame [start ++ [c], [c]] [start, [c], [c]] (by simp)
  rw [parseChunks, parseChunks.eq_2 _ start, hpush] at hshort hlong
  rw [parseChunks_singleton, parseChunks] at hlong
  rw [parseChunks, parseChunks, parseChunks] at hshort
  rw [parseChunks_singleton] at hlong
  have hspecs : (((new specs).pushStr start).1.pushStr [c]).1.specs = specs := rfl
  generalize ((new specs).pushStr start).1.pushStr [c] = last at hshort hlong hfinal hspecs
  generalize ((new specs).pushStr start).2 = out at hshort hlong hfinal
  obtain ⟨⟨specs', pending, active⟩, out'⟩ := last
  obtain rfl : specs' = specs := hspecs
  cases active with
  | some active =>
    -- the tag that opened first is still open, and holds the last character
    have htags : [] ++ [(⟨spec.tag, []⟩ : ExtractedInlineTag τ)] =
        out.extracted ++ (out'.extracted ++ [⟨active.tag, active.content ++ pending⟩]) :=
      congrArg (·.extracted) hshort
    rw [← append_assoc] at htags
    obtain ⟨hnone, htag⟩ := append_inj' htags rfl
    obtain ⟨hout, hout'⟩ := append_eq_nil_iff.mp hnone.symm
    obtain ⟨active', hactive', hne⟩ := hfinal hout hout'
    cases Option.some.inj hactive'
    exact hne (congrArg (·.content) (cons.inj htag).1).symm
  | none =>
    -- the tag that opened first is closed, and one more character is outside of tags
    have hshown : [] = out.visibleText ++ (out'.visibleText ++ pending) := congrArg (·.visibleText) hshort
    have hcount : 1 = (out.extracted ++ (out'.extracted ++ [])).length := congrArg (·.extracted.length) hshort
    obtain ⟨-, -, rfl⟩ : _ ∧ _ ∧ pending = [] := by
      rwa [eq_comm, append_eq_nil_iff, append_eq_nil_iff] at hshown
    obtain ⟨tag, htag⟩ := @whole_active_char _ specs' (activate spec) c
    have hmore : (⟨[], [tag]⟩ : StreamTextChunk _) = out ++ (out' ++ whole specs' none [c]) :=
      htag.symm.trans hlong
    have hshown' : [] = out.visibleText ++ (out'.visibleText ++ (whole specs' none [c]).visibleText) :=
      congrArg (·.visibleText) hmore
    have hcount' : 1 = (out.extracted ++ (out'.extracted ++ (whole specs' none [c]).extracted)).length :=
      congrArg (·.extracted.length) hmore
    simp only [length_append, length_nil] at hcount hcount'
    obtain hvisible | hextracted := @whole_char _ specs' c
    · rw [eq_comm, append_eq_nil_iff, append_eq_nil_iff] at hshown'
      exact hvisible hshown'.2.2
    · have hpos := length_pos_of_ne_nil hextracted
      omega

end

/-- **The chunks do not matter** exactly for tags that do not open within each other. -/
theorem chunking_irrelevant_iff (specs : List (InlineTagSpec τ)) :
    (∀ chunks chunks' : List Text, chunks.flatten = chunks'.flatten →
      (new specs).parseChunks chunks = (new specs).parseChunks chunks') ↔
    ∀ a ∈ specs, ∀ b ∈ specs, ¬ a.open_ <:+: b.open_.dropLast := by
  constructor
  · intro h a ha b hb hinside
    obtain ⟨chunks, chunks', hflatten, hne⟩ := exists_chunks_of_isInfix ha hb hinside
    exact hne (h chunks chunks' hflatten)
  · intro h chunks chunks' hflatten
    have hwhole := @parseChunks_eq_whole _ (new specs) h (still_new specs)
    rw [hwhole, hwhole, hflatten]

/-- Two tags, one of which the other starts with. -/
def nestedTags : List (InlineTagSpec Bool) :=
  [⟨false, "ab".toList, "x".toList, by decide, by decide⟩, ⟨true, "abc".toList, "x".toList, by decide, by decide⟩]

/-- **The end of a chunk decides for the shorter tag**: in one piece the text opens the longer one. -/
theorem shorter_tag_at_chunk_end : ["abc".toList].flatten = ["ab".toList, "c".toList].flatten ∧
      (new nestedTags).parseChunks ["abc".toList] = ⟨[], [⟨true, []⟩]⟩ ∧
      (new nestedTags).parseChunks ["ab".toList, "c".toList] = ⟨[], [⟨false, "c".toList⟩]⟩ := by
  decide +kernel

end NovumAgent.StreamParser.InlineHiddenTagParser
