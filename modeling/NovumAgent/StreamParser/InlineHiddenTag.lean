import Mathlib.Data.List.Fold
import Mathlib.Data.List.MinMax
import Mathlib.Data.Prod.Lex
import Mathlib.Order.Nat
import NovumAgent.Lib.Needle
import NovumAgent.Lib.Utf8

/-!
# Hidden inline tags

The parser takes spans between an opening and a closing tag out of a text that comes in chunks. What it has read
and not yet given out is held back for one reason only: it may be the start of a tag.

The proofs have one notion, what a state of the parser will say when the rest of the text has come (`whole`): a
push gives out a part of it and leaves the rest to the new state, and the end gives out what is left. That is so as
long as a tag that opens is the first one also when more text has come (`Undisturbed`). With one kind of tag it
always is, and what the parser says is a function of the whole text (`hideSpans`). With several it is when no tag
opens within another one that is not complete (`Unambiguous`), and `chunking_irrelevant_iff` is that the chunks
matter otherwise.
-/

namespace NovumAgent.StreamParser

open List Needle

@[ext]
structure StreamTextChunk (ε : Type) where
  visibleText : Text
  extracted : List ε
deriving DecidableEq

namespace StreamTextChunk

variable {ε δ : Type}

/-- `StreamTextChunk::default`. -/
def empty : StreamTextChunk ε := ⟨[], []⟩

/-- One chunk after another. -/
instance : Append (StreamTextChunk ε) where
  append a b := ⟨a.visibleText ++ b.visibleText, a.extracted ++ b.extracted⟩

/-- The chunk with its payloads changed. -/
def map (f : ε → δ) (chunk : StreamTextChunk ε) : StreamTextChunk δ :=
  ⟨chunk.visibleText, chunk.extracted.map f⟩

theorem append_def (a b : StreamTextChunk ε) :
    a ++ b = ⟨a.visibleText ++ b.visibleText, a.extracted ++ b.extracted⟩ :=
  rfl

protected theorem append_assoc (a b c : StreamTextChunk ε) : a ++ b ++ c = a ++ (b ++ c) := by
  simp only [append_def, append_assoc]

end StreamTextChunk

structure ExtractedInlineTag (τ : Type) where
  tag : τ
  content : Text
deriving DecidableEq

/-- `InlineTagSpec`, with what `InlineHiddenTagParser::new` asserts. -/
structure InlineTagSpec (τ : Type) where
  tag : τ
  open_ : Text
  close : Text
  open_ne_nil : open_ ≠ []
  close_ne_nil : close ≠ []

structure ActiveTag (τ : Type) where
  tag : τ
  close : Text
  content : Text
  close_ne_nil : close ≠ []

/-- More of the content of a tag. -/
def ActiveTag.pushStr {τ : Type} (active : ActiveTag τ) (text : Text) : ActiveTag τ :=
  { active with content := active.content ++ text }

structure InlineHiddenTagParser (τ : Type) where
  specs : List (InlineTagSpec τ)
  pending : Text
  active : Option (ActiveTag τ)

namespace InlineHiddenTagParser

variable {τ : Type}

def new (specs : List (InlineTagSpec τ)) : InlineHiddenTagParser τ := ⟨specs, [], none⟩

/-- A place where a tag opens: what stands before it, behind it, and the tag. -/
structure Opening (τ : Type) where
  before : Text
  rest : Text
  spec : InlineTagSpec τ

/-- Is the first place to be taken: one further to the front, or with a longer tag? -/
def Opening.precedes (a b : Opening τ) : Bool :=
  a.before.length < b.before.length ||
    (a.before.length = b.before.length && Utf8.byteLen b.spec.open_ < Utf8.byteLen a.spec.open_)

/-- The one of the places so far that is to be taken. -/
def Opening.keepFirst (best : Option (Opening τ)) (place : Opening τ) : Option (Opening τ) :=
  match best with
  | none => some place
  | some best => some (if place.precedes best then place else best)

/-- `find_next_open`. Of two places that are alike in all of this the first one is kept. -/
def findNextOpen (specs : List (InlineTagSpec τ)) (pending : Text) : Option (Opening τ) :=
  (specs.filterMap fun spec => (splitOnce spec.open_ pending).map fun (before, rest) =>
    (⟨before, rest, spec⟩ : Opening τ)).foldl Opening.keepFirst none

def maxOpenPrefixSuffixLen (specs : List (InlineTagSpec τ)) (pending : Text) : Nat :=
  (specs.map fun spec => longestSuffixPrefixLen pending spec.open_).foldl max 0

/-- Where a place stands: further to the front first, and then the one with the longer tag. -/
def Opening.key (place : Opening τ) : ℕ ×ₗ ℕᵒᵈ :=
  toLex (place.before.length, OrderDual.toDual (Utf8.byteLen place.spec.open_))

open Opening StreamTextChunk

theorem Opening.precedes_iff (a b : Opening τ) : a.precedes b = true ↔ a.key < b.key := by
  rw [key, key, Prod.Lex.toLex_lt_toLex, OrderDual.toDual_lt_toDual]
  simp [precedes]

/-- The first place of one kind of tag. -/
def Opening.find (spec : InlineTagSpec τ) (pending : Text) : Option (Opening τ) :=
  (splitOnce spec.open_ pending).map fun (before, rest) => ⟨before, rest, spec⟩

theorem findNextOpen_eq_argmin (specs : List (InlineTagSpec τ)) (pending : Text) :
    findNextOpen specs pending = (specs.filterMap (find · pending)).argmin key := by
  have hstep : keepFirst (τ := τ) = argAux fun a b => a.key < b.key := by
    ext best place : 2
    cases best with
    | none => rfl
    | some best =>
      show some (if place.precedes best = true then place else best) =
        if place.key < best.key then some place else some best
      rw [apply_ite some]
      exact if_congr (precedes_iff place best) rfl rfl
  unfold findNextOpen
  rw [hstep]
  rfl

theorem findNextOpen_mem {specs : List (InlineTagSpec τ)} {pending : Text} {place : Opening τ}
    (h : findNextOpen specs pending = some place) :
    place.spec ∈ specs ∧ splitOnce place.spec.open_ pending = some (place.before, place.rest) := by
  rw [findNextOpen_eq_argmin] at h
  obtain ⟨spec, hspec, hfind⟩ := mem_filterMap.mp (argmin_mem h)
  obtain ⟨⟨before, rest⟩, hsplit, rfl⟩ := Option.map_eq_some_iff.mp hfind
  exact ⟨hspec, hsplit⟩

/-- The loop of `push_str`: the tag that is active afterwards, what is still pending, and what is given out. -/
def scan (specs : List (InlineTagSpec τ)) (active : Option (ActiveTag τ)) (pending : Text)
    (out : StreamTextChunk (ExtractedInlineTag τ)) :
    Option (ActiveTag τ) × Text × StreamTextChunk (ExtractedInlineTag τ) :=
  match active with
  | some active =>
    match hclose : splitOnce active.close pending with
    | some (body, rest) =>
      scan specs none rest
        ⟨out.visibleText, out.extracted ++ [⟨active.tag, active.content ++ body⟩]⟩
    | none =>
      let take := pending.length - longestSuffixPrefixLen pending active.close
      (some (active.pushStr (pending.take take)), pending.drop take, out)
  | none =>
    match _hopen : findNextOpen specs pending with
    | some place =>
      scan specs (some ⟨place.spec.tag, place.spec.close, [], place.spec.close_ne_nil⟩) place.rest
        ⟨out.visibleText ++ place.before, out.extracted⟩
    | none =>
      let take := pending.length - maxOpenPrefixSuffixLen specs pending
      (none, pending.drop take, ⟨out.visibleText ++ pending.take take, out.extracted⟩)
termination_by pending.length
decreasing_by
  · exact length_lt_of_splitOnce active.close_ne_nil hclose
  · exact length_lt_of_splitOnce place.spec.open_ne_nil (findNextOpen_mem _hopen).2

def pushStr (parser : InlineHiddenTagParser τ) (chunk : Text) :
    InlineHiddenTagParser τ × StreamTextChunk (ExtractedInlineTag τ) :=
  let (active, pending, out) := scan parser.specs parser.active (parser.pending ++ chunk) .empty
  ({ parser with pending := pending, active := active }, out)

def finish (parser : InlineHiddenTagParser τ) :
    InlineHiddenTagParser τ × StreamTextChunk (ExtractedInlineTag τ) :=
  match parser.active with
  | some active =>
    ({ parser with pending := [], active := none },
      ⟨[], [⟨active.tag, active.content ++ parser.pending⟩]⟩)
  | none => ({ parser with pending := [] }, ⟨parser.pending, []⟩)

/-! ## The whole text -/

/-- A tag of a kind, when it opens. -/
def activate (spec : InlineTagSpec τ) : ActiveTag τ := ⟨spec.tag, spec.close, [], spec.close_ne_nil⟩

/-- What a state says of a text that comes in one piece, with what is pending before it. -/
def whole (specs : List (InlineTagSpec τ)) (active : Option (ActiveTag τ)) (text : Text) :
    StreamTextChunk (ExtractedInlineTag τ) :=
  match active with
  | some active =>
    match _hclose : splitOnce active.close text with
    | none => ⟨[], [⟨active.tag, active.content ++ text⟩]⟩
    | some (body, rest) => ⟨[], [⟨active.tag, active.content ++ body⟩]⟩ ++ whole specs none rest
  | none =>
    match _hopen : findNextOpen specs text with
    | none => ⟨text, []⟩
    | some place => ⟨place.before, []⟩ ++ whole specs (some (activate place.spec)) place.rest
termination_by text.length
decreasing_by
  · exact length_lt_of_splitOnce active.close_ne_nil _hclose
  · exact length_lt_of_splitOnce place.spec.open_ne_nil (findNextOpen_mem _hopen).2

section

variable {specs : List (InlineTagSpec τ)} {active : ActiveTag τ} {text body rest : Text} {place : Opening τ}

theorem whole_body (h : splitOnce active.close text = none) :
    whole specs (some active) text = ⟨[], [⟨active.tag, active.content ++ text⟩]⟩ := by
  rw [whole]
  split
  next => rfl
  next hclose => exact absurd (h.symm.trans hclose) nofun

theorem whole_close (h : splitOnce active.close text = some (body, rest)) :
    whole specs (some active) text =
      ⟨[], [⟨active.tag, active.content ++ body⟩]⟩ ++ whole specs none rest := by
  rw [whole]
  split
  next hclose => exact absurd (h.symm.trans hclose) nofun
  next hclose =>
    obtain ⟨rfl, rfl⟩ := Prod.mk.inj (Option.some.inj (h.symm.trans hclose))
    rfl

theorem whole_visible (h : findNextOpen specs text = none) : whole specs none text = ⟨text, []⟩ := by
  rw [whole]
  split
  next => rfl
  next hopen => exact absurd (h.symm.trans hopen) nofun

theorem whole_open (h : findNextOpen specs text = some place) :
    whole specs none text = ⟨place.before, []⟩ ++ whole specs (some (activate place.spec)) place.rest := by
  rw [whole.eq_def specs none text]
  dsimp only
  split
  next hopen => exact absurd (h.symm.trans hopen) nofun
  next hopen =>
    cases Option.some.inj (h.symm.trans hopen)
    rfl

end

/-! ## The first tag, and text that comes later -/

section

variable {specs : List (InlineTagSpec τ)} {pending more : Text} {place : Opening τ}

theorem findNextOpen_cons (spec : InlineTagSpec τ) : findNextOpen (spec :: specs) pending =
    match find spec pending, findNextOpen specs pending with
    | none, next => next
    | some first, none => some first
    | some first, some next => if next.key < first.key then some next else some first := by
  simp only [findNextOpen_eq_argmin, filterMap_cons]
  cases find spec pending with
  | none => rfl
  | some first =>
    dsimp only
    rw [argmin_cons]
    cases (specs.filterMap (find · pending)).argmin key with
    | none => rfl
    | some next => rfl

theorem findNextOpen_eq_none_iff :
    findNextOpen specs pending = none ↔ ∀ spec ∈ specs, splitOnce spec.open_ pending = none := by
  rw [findNextOpen_eq_argmin, argmin_eq_none, filterMap_eq_nil_iff]
  exact forall₂_congr fun _ _ => Option.map_eq_none_iff

/-- No tag opens within another one that is not complete. -/
def Unambiguous (specs : List (InlineTagSpec τ)) : Prop :=
  ∀ a ∈ specs, ∀ b ∈ specs, ¬ a.open_ <:+: b.open_.dropLast

/-- A tag that opens is the first one also when more text has come. -/
def Undisturbed (specs : List (InlineTagSpec τ)) (more : Text) : Prop :=
  ∀ pending place, findNextOpen specs pending = some place →
    findNextOpen specs (pending ++ more) = some { place with rest := place.rest ++ more }

theorem undisturbed_nil : Undisturbed specs [] := by
  intro pending place h
  rw [append_nil, append_nil]
  exact h

theorem unambiguous_singleton (spec : InlineTagSpec τ) : Unambiguous [spec] := by
  intro a ha b hb hinfix
  rw [mem_singleton.mp ha, mem_singleton.mp hb] at hinfix
  have hlen := hinfix.length_le
  have hpos := length_pos_of_ne_nil spec.open_ne_nil
  rw [length_dropLast] at hlen
  omega

theorem Unambiguous.key_lt (h : Unambiguous specs) {first later : Opening τ}
    (hfirst : first.spec ∈ specs ∧ splitOnce first.spec.open_ pending = some (first.before, first.rest))
    (hlater : later.spec ∈ specs ∧
      splitOnce later.spec.open_ (pending ++ more) = some (later.before, later.rest))
    (hnone : splitOnce later.spec.open_ pending = none) : first.key < later.key := by
  refine Prod.Lex.toLex_lt_toLex.mpr (.inl (Nat.lt_of_not_le fun hle => ?_))
  exact h _ hfirst.1 _ hlater.1 (isInfix_dropLast_of_splitOnce hfirst.2 hnone hlater.2 hle)

theorem Unambiguous.undisturbed (h : Unambiguous specs) (more : Text) : Undisturbed specs more := by
  intro pending place hopen
  induction specs generalizing place with
  | nil => cases hopen
  | cons spec specs ih =>
    have hmem : ∀ {place : Opening τ} {text : Text}, findNextOpen specs text = some place →
        place.spec ∈ spec :: specs ∧ splitOnce place.spec.open_ text = some (place.before, place.rest) :=
      fun hplace => (findNextOpen_mem hplace).imp_left (mem_cons_of_mem spec)
    replace ih := @ih fun a ha b hb => h a (mem_cons_of_mem _ ha) b (mem_cons_of_mem _ hb)
    rw [findNextOpen_cons] at hopen ⊢
    cases hsplit : splitOnce spec.open_ pending with
    | some split =>
      have hfind : find spec pending = some ⟨split.1, split.2, spec⟩ := by
        rw [find, hsplit]
        rfl
      have hfind' : find spec (pending ++ more) = some ⟨split.1, split.2 ++ more, spec⟩ := by
        rw [find, splitOnce_append hsplit]
        rfl
      rw [hfind] at hopen
      rw [hfind']
      cases hnext : findNextOpen specs pending with
      | some next =>
        rw [hnext] at hopen
        rw [ih _ hnext]
        dsimp only at hopen ⊢
        split at hopen
        next hlt =>
          cases hopen
          exact if_pos hlt
        next hlt =>
          cases hopen
          exact if_neg hlt
      | none =>
        rw [hnext] at hopen
        cases hopen
        cases hlater : findNextOpen specs (pending ++ more) with
        | none => rfl
        | some later =>
          have hlt : key ⟨split.1, split.2, spec⟩ < later.key :=
            h.key_lt ⟨mem_cons_self, hsplit⟩ (hmem hlater)
              (findNextOpen_eq_none_iff.mp hnext _ (findNextOpen_mem hlater).1)
          exact if_neg hlt.not_gt
    | none =>
      have hfind : find spec pending = none := by
        rw [find, hsplit]
        rfl
      replace hopen : findNextOpen specs pending = some place := by rwa [hfind] at hopen
      rw [ih _ hopen]
      cases hlater : splitOnce spec.open_ (pending ++ more) with
      | none => rw [find, hlater]; rfl
      | some split =>
        have hlt : place.key < key ⟨split.1, split.2, spec⟩ :=
          h.key_lt (hmem hopen) ⟨mem_cons_self, hlater⟩ hsplit
        rw [find, hlater]
        exact if_pos hlt

theorem findNextOpen_hold {m : Nat} (h : findNextOpen specs pending = none)
    (hm : ∀ spec ∈ specs, m + longestSuffixPrefixLen pending spec.open_ ≤ pending.length) :
    findNextOpen specs (pending ++ more) = (findNextOpen specs (pending.drop m ++ more)).map fun place =>
      { place with before := pending.take m ++ place.before } := by
  induction specs with
  | nil => rfl
  | cons spec specs ih =>
    rw [findNextOpen_eq_none_iff, forall_mem_cons] at h
    rw [forall_mem_cons] at hm
    have hfind : find spec (pending ++ more) = (find spec (pending.drop m ++ more)).map fun place =>
          { place with before := pending.take m ++ place.before } := by
      rw [find, find, splitOnce_hold hm.1 h.1, Option.map_map, Option.map_map]
      rfl
    have hkey : ∀ a b : Opening τ, key { a with before := pending.take m ++ a.before } <
            key { b with before := pending.take m ++ b.before } ↔ a.key < b.key := by
      intro a b
      simp [key, Prod.Lex.toLex_lt_toLex]
    rw [findNextOpen_cons, findNextOpen_cons, hfind, ih (findNextOpen_eq_none_iff.mpr h.2) hm.2]
    cases find spec (pending.drop m ++ more) with
    | none => rfl
    | some first =>
      cases findNextOpen specs (pending.drop m ++ more) with
      | none => rfl
      | some next =>
        dsimp only [Option.map_some]
        rw [apply_ite (Option.map _)]
        exact if_congr (hkey next first) rfl rfl

theorem add_longestSuffixPrefixLen_le {spec : InlineTagSpec τ} (h : spec ∈ specs) :
    pending.length - maxOpenPrefixSuffixLen specs pending + longestSuffixPrefixLen pending spec.open_ ≤
      pending.length := by
  have hmax : maxOpenPrefixSuffixLen specs pending =
      (specs.map fun spec => longestSuffixPrefixLen pending spec.open_).foldr max ⊥ :=
    foldl_eq_foldr
  have hle : maxOpenPrefixSuffixLen specs pending ≤ pending.length := by
    rw [hmax]
    refine max_le_of_forall_le _ _ fun n hn => ?_
    obtain ⟨other, -, rfl⟩ := mem_map.mp hn
    exact longestSuffixPrefixLen_le
  have hspec : longestSuffixPrefixLen pending spec.open_ ≤ maxOpenPrefixSuffixLen specs pending := by
    rw [hmax]
    exact le_max_of_le (mem_map_of_mem h) le_rfl
  omega

end

/-! ## Pushes -/

section

variable {specs : List (InlineTagSpec τ)} {active : Option (ActiveTag τ)} {pending more : Text}
  {out : StreamTextChunk (ExtractedInlineTag τ)}

/-- What is pending does not hold a tag that is looked for. -/
def Still (specs : List (InlineTagSpec τ)) (active : Option (ActiveTag τ)) (pending : Text) : Prop :=
  active.elim (findNextOpen specs pending = none) fun active => splitOnce active.close pending = none

theorem splitOnce_drop_eq_none {needle : Text} {m : Nat} (h : splitOnce needle pending = none) :
    splitOnce needle (pending.drop m) = none :=
  splitOnce_eq_none_iff.mpr fun hwithin =>
    splitOnce_eq_none_iff.mp h (hwithin.trans (drop_suffix m pending).isInfix)

theorem scan_still :
    Still specs (scan specs active pending out).1 (scan specs active pending out).2.1 := by
  fun_induction scan specs active pending out with
  | case1 pending out active body rest hclose ih => exact ih
  | case2 pending out active hclose take => exact splitOnce_drop_eq_none hclose
  | case3 pending out place hopen ih => exact ih
  | case4 pending out hopen take =>
    rw [findNextOpen_eq_none_iff] at hopen
    exact findNextOpen_eq_none_iff.mpr fun spec hspec => splitOnce_drop_eq_none (hopen spec hspec)

theorem whole_pushStr {active : ActiveTag τ} (h : splitOnce active.close pending = none) (more : Text) :
    whole specs (some (active.pushStr
        (pending.take (pending.length - longestSuffixPrefixLen pending active.close))))
        (pending.drop (pending.length - longestSuffixPrefixLen pending active.close) ++ more) =
      whole specs (some active) (pending ++ more) := by
  have hhold := splitOnce_hold (Nat.sub_add_cancel longestSuffixPrefixLen_le).le h more
  generalize pending.length - longestSuffixPrefixLen pending active.close = take at hhold ⊢
  cases hclose : splitOnce active.close (pending.drop take ++ more) with
  | none =>
    rw [hclose] at hhold
    rw [whole_body hhold, @whole_body _ _ (active.pushStr _) _ hclose]
    dsimp only [ActiveTag.pushStr]
    rw [append_assoc, ← append_assoc (pending.take take), take_append_drop]
  | some split =>
    rw [hclose] at hhold
    rw [whole_close hhold, @whole_close _ _ (active.pushStr _) _ _ _ hclose]
    dsimp only [ActiveTag.pushStr]
    rw [append_assoc]

theorem whole_shown (h : findNextOpen specs pending = none) (more : Text) :
    ⟨pending.take (pending.length - maxOpenPrefixSuffixLen specs pending), []⟩ ++
        whole specs none (pending.drop (pending.length - maxOpenPrefixSuffixLen specs pending) ++ more) =
      whole specs none (pending ++ more) := by
  have hhold := @findNextOpen_hold _ _ _ more _ h fun spec => add_longestSuffixPrefixLen_le
  generalize pending.length - maxOpenPrefixSuffixLen specs pending = take at hhold ⊢
  cases hopen : findNextOpen specs (pending.drop take ++ more) with
  | none =>
    rw [hopen] at hhold
    rw [whole_visible hhold, whole_visible hopen, append_def]
    dsimp only
    rw [← append_assoc, take_append_drop, append_nil]
  | some place =>
    rw [hopen] at hhold
    rw [whole_open hhold, whole_open hopen, ← StreamTextChunk.append_assoc]
    rfl

/-- **A push gives out a part of what the state would say**, and leaves the rest to the next state. -/
theorem scan_whole (h : Undisturbed specs more) : (scan specs active pending out).2.2 ++
        whole specs (scan specs active pending out).1 ((scan specs active pending out).2.1 ++ more) =
      out ++ whole specs active (pending ++ more) := by
  fun_induction scan specs active pending out with
  | case1 pending out active body rest hclose ih =>
    rw [ih, whole_close (splitOnce_append hclose more), ← StreamTextChunk.append_assoc]
    simp [append_def]
  | case2 pending out active hclose take => exact congrArg _ (whole_pushStr hclose more)
  | case3 pending out place hopen ih =>
    have hlater := whole_open (h _ _ hopen)
    rw [ih, hlater, ← StreamTextChunk.append_assoc]
    simp [append_def, activate]
  | case4 pending out hopen take =>
    rw [← whole_shown hopen, ← StreamTextChunk.append_assoc]
    simp [append_def, take]

end

section

variable {parser : InlineHiddenTagParser τ} {more : Text}

/-- **A push**, of any chunk. -/
theorem pushStr_whole (h : Undisturbed parser.specs more) (chunk : Text) :
    (parser.pushStr chunk).2 ++ whole parser.specs (parser.pushStr chunk).1.active
        ((parser.pushStr chunk).1.pending ++ more) =
      whole parser.specs parser.active (parser.pending ++ (chunk ++ more)) := by
  rw [← append_assoc]
  exact scan_whole h

/-- **The end** gives out the rest: a tag that is still open ends there. -/
theorem finish_whole (h : Still parser.specs parser.active parser.pending) :
    parser.finish.2 = whole parser.specs parser.active parser.pending := by
  obtain ⟨specs, pending, active⟩ := parser
  cases active with
  | none => exact (whole_visible h).symm
  | some active => exact (whole_body h).symm

/-! ### One kind of tag -/

variable (spec : InlineTagSpec τ)

/-- The text without its spans, and what stood in them: a span goes from a tag that opens to the next one that
closes, or to the end. -/
def hideSpans (text : Text) : StreamTextChunk Text :=
  match _hopen : splitOnce spec.open_ text with
  | none => ⟨text, []⟩
  | some (before, rest) =>
    match _hclose : splitOnce spec.close rest with
    | none => ⟨before, [rest]⟩
    | some (body, after) => ⟨before, [body]⟩ ++ hideSpans after
termination_by text.length
decreasing_by
  exact (length_lt_of_splitOnce spec.close_ne_nil _hclose).trans
    (length_lt_of_splitOnce spec.open_ne_nil _hopen)

theorem findNextOpen_singleton (text : Text) : findNextOpen [spec] text = find spec text := by
  rw [findNextOpen_cons]
  cases find spec text with
  | none => rfl
  | some place => rfl

theorem hideSpans_eq_whole (text : Text) : hideSpans spec text = (whole [spec] none text).map (·.content) := by
  fun_induction hideSpans spec text with
  | case1 text hopen =>
    rw [whole_visible]
    · rfl
    · rw [findNextOpen_singleton, find, hopen]
      rfl
  | case2 text before rest hopen hclose =>
    rw [@whole_open _ _ _ ⟨before, rest, spec⟩, whole_body hclose]
    · simp [StreamTextChunk.append_def, StreamTextChunk.map, activate]
    · rw [findNextOpen_singleton, Opening.find, hopen]
      rfl
  | case3 text before rest hopen body after hclose ih =>
    rw [@whole_open _ _ _ ⟨before, rest, spec⟩, whole_close hclose, ih]
    · simp [StreamTextChunk.append_def, StreamTextChunk.map, activate]
    · rw [findNextOpen_singleton, Opening.find, hopen]
      rfl

/-- What a state says of the text that is still to come, with what is pending before it. -/
def outcome (active : Option (ActiveTag τ)) (text : Text) : StreamTextChunk Text :=
  match active with
  | none => hideSpans spec text
  | some active =>
    match splitOnce active.close text with
    | none => ⟨[], [active.content ++ text]⟩
    | some (body, after) => ⟨[], [active.content ++ body]⟩ ++ hideSpans spec after

theorem outcome_eq_whole (active : Option (ActiveTag τ)) (text : Text) :
    outcome spec active text = (whole [spec] active text).map (·.content) := by
  unfold outcome
  cases active with
  | none => exact hideSpans_eq_whole spec text
  | some active =>
    cases hclose : splitOnce active.close text with
    | none =>
      dsimp only
      rw [hclose, whole_body hclose]
      rfl
    | some split =>
      dsimp only
      rw [hclose, whole_close hclose]
      dsimp only
      rw [hideSpans_eq_whole]
      rfl

/-- What is pending does not hold the tag that is looked for. -/
def Held (spec : InlineTagSpec τ) (active : Option (ActiveTag τ)) (pending : Text) : Prop :=
  splitOnce (active.elim spec.open_ (·.close)) pending = none

theorem still_singleton_iff {active : Option (ActiveTag τ)} {pending : Text} :
    Still [spec] active pending ↔ Held spec active pending := by
  cases active with
  | none => exact findNextOpen_eq_none_iff.trans forall_mem_singleton
  | some active => exact Iff.rfl

/-- What a parser with one kind of tag says of the text that is still to come. -/
def remaining (parser : InlineHiddenTagParser τ) (spec : InlineTagSpec τ) (text : Text) : StreamTextChunk Text :=
  outcome spec parser.active (parser.pending ++ text)

/-- A parser with one kind of tag, and nothing pending that it could say. -/
structure Ready (spec : InlineTagSpec τ) (parser : InlineHiddenTagParser τ) : Prop where
  specs_eq : parser.specs = [spec]
  held : Held spec parser.active parser.pending

variable {spec}

theorem still_new (specs : List (InlineTagSpec τ)) : Still specs none [] :=
  findNextOpen_eq_none_iff.mpr fun spec _ =>
    splitOnce_eq_none_iff.mpr fun hwithin => spec.open_ne_nil (infix_nil.mp hwithin)

theorem ready_new : Ready spec (new [spec]) := ⟨rfl, (still_singleton_iff spec).mp (still_new [spec])⟩

theorem Ready.pushStr (h : Ready spec parser) (chunk : Text) : Ready spec (parser.pushStr chunk).1 ∧
      ∀ more, (parser.pushStr chunk).2.map (·.content) ++ (parser.pushStr chunk).1.remaining spec more =
        parser.remaining spec (chunk ++ more) := by
  obtain ⟨specs, pending, active⟩ := parser
  obtain rfl : specs = [spec] := h.specs_eq
  refine ⟨⟨rfl, (still_singleton_iff spec).mp scan_still⟩, fun more => ?_⟩
  have hwhole := @pushStr_whole _ ⟨[spec], pending, active⟩ _
    ((unambiguous_singleton spec).undisturbed more) chunk
  unfold remaining
  rw [outcome_eq_whole, outcome_eq_whole, ← hwhole]
  simp [StreamTextChunk.append_def, StreamTextChunk.map]

theorem Ready.finish (h : Ready spec parser) :
    parser.finish.2.map (·.content) = parser.remaining spec [] := by
  obtain ⟨specs, pending, active⟩ := parser
  obtain rfl : specs = [spec] := h.specs_eq
  unfold remaining
  rw [outcome_eq_whole, append_nil, finish_whole ((still_singleton_iff spec).mpr h.held)]

end

end InlineHiddenTagParser

end NovumAgent.StreamParser
