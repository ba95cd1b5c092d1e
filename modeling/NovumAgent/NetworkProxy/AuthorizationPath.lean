import NovumAgent.Lib.UrlPath

/-!
# Paths that can be authorised

A hook authorises a request by its path before the server that gets the request has read it. So a path is
authorised only if a server cannot read it in another way: it has no backslash, every `%` in it starts an
escape, no escape stands for a byte with a meaning of its own, and no segment is a dot segment, escaped or
not.

The check is one scan over the bytes of a segment. It is related here to a decoder of escapes
(`scanSegment_eq`): the scan fails or decodes, and counts dots in what is decoded. The count is an `i32` and
wraps, so a segment of very many dots can be taken for a dot segment
(`many_dots_refused`).
-/

namespace NovumAgent.NetworkProxy

open List Utf8 UrlPath

/-! ## The check -/

def decodeHexDigit (byte : UInt8) : Option UInt8 :=
  if 48 ≤ byte ∧ byte ≤ 57 then some (byte - 48)
  else if 97 ≤ byte ∧ byte ≤ 102 then some (byte - 97 + 10)
  else if 65 ≤ byte ∧ byte ≤ 70 then some (byte - 65 + 10)
  else none

/-- The loop of `is_safe_segment_for_authorization`: the rest of the segment, the dots that were decoded so
far, and whether anything else was. -/
def scanSegment : Bytes → Int32 → Bool → Bool
  | [], decodedDots, hasNonDot => hasNonDot || !(decodedDots = 1 ∨ decodedDots = 2)
  | b :: rest, decodedDots, hasNonDot =>
    if b = dot then scanSegment rest (decodedDots + 1) hasNonDot
    else if b = backslash then false
    else if b = percent then
      match rest with
      | high :: low :: rest =>
        match decodeHexDigit high, decodeHexDigit low with
        | some high, some low =>
          let decoded := high <<< 4 ||| low
          if decoded = percent ∨ decoded = slash ∨ decoded = backslash then false
          else if decoded = dot then scanSegment rest (decodedDots + 1) hasNonDot
          else scanSegment rest decodedDots true
        | _, _ => false
      | _ => false
    else scanSegment rest decodedDots true

def isSafeSegmentForAuthorization (segment : Text) : Bool := scanSegment (encode segment) 0 false

def isSafeForAuthorization (path : Text) : Bool :=
  (path.splitOnP (· = '/')).all isSafeSegmentForAuthorization

/-! ## What the scan decodes -/

/-- A byte that an escape may not stand for. -/
def Reserved (b : UInt8) : Prop := b = percent ∨ b = slash ∨ b = backslash

instance (b : UInt8) : Decidable (Reserved b) := inferInstanceAs (Decidable (_ ∨ _ ∨ _))

/-- The decoded bytes, if there is no backslash, every `%` starts an escape and none is of a reserved
byte. -/
def decodeStrict : Bytes → Option Bytes
  | [] => some []
  | b :: rest =>
    if b = backslash then none
    else if b = percent then
      match rest with
      | high :: low :: rest =>
        match byteOf high low with
        | some decoded => if Reserved decoded then none else (decodeStrict rest).map (decoded :: ·)
        | none => none
      | _ => none
    else (decodeStrict rest).map (b :: ·)

theorem percent_ne_backslash : percent ≠ backslash := by decide

variable {high low decoded b : UInt8} {rest path : Bytes}

theorem decodeStrict_escape (h : byteOf high low = some decoded)
    (hplain : ¬ Reserved decoded) (rest : Bytes) :
    decodeStrict (percent :: high :: low :: rest) = (decodeStrict rest).map (decoded :: ·) := by
  rw [decodeStrict, if_neg percent_ne_backslash, if_pos rfl, h]
  exact if_neg hplain

theorem decodeStrict_reserved (h : byteOf high low = some decoded)
    (hreserved : Reserved decoded) (rest : Bytes) :
    decodeStrict (percent :: high :: low :: rest) = none := by
  rw [decodeStrict, if_neg percent_ne_backslash, if_pos rfl, h]
  exact if_pos hreserved

theorem decodeStrict_malformed (h : escaped rest = none) :
    decodeStrict (percent :: rest) = none := by
  match rest with
  | [] => rfl
  | [c] => rfl
  | high :: low :: rest =>
    rw [escaped] at h
    rw [decodeStrict, if_neg percent_ne_backslash, if_pos rfl, h]

theorem decodeStrict_plain (hb : b ≠ backslash) (hp : b ≠ percent) (rest : Bytes) :
    decodeStrict (b :: rest) = (decodeStrict rest).map (b :: ·) := by
  have hunfold := decodeStrict.eq_def (b :: rest)
  dsimp only at hunfold
  rw [hunfold, if_neg hb, if_neg hp]

theorem decodeStrict_backslash (rest : Bytes) : decodeStrict (backslash :: rest) = none := by
  unfold decodeStrict
  rw [if_pos rfl]

theorem escaped_of_short (h : ∀ high low later, rest = high :: low :: later → False) :
    escaped rest = none := by
  match rest, h with
  | [], _ => rfl
  | [c], _ => rfl
  | high :: low :: later, h => exact absurd rfl (h high low later)

/-- How the check ends with these decoded bytes. -/
def verdict (decoded : Bytes) (dots : Nat) (hasNonDot : Bool) : Bool :=
  hasNonDot || decoded.any (· ≠ dot) ||
    !(Int32.ofNat (dots + decoded.count dot) = 1 ∨ Int32.ofNat (dots + decoded.count dot) = 2)

theorem verdict_dot (decoded : Bytes) (dots : Nat) (hasNonDot : Bool) :
    verdict (dot :: decoded) dots hasNonDot = verdict decoded (dots + 1) hasNonDot := by
  have hcount : dots + (dot :: decoded).count dot = dots + 1 + decoded.count dot := by
    rw [count_cons_self]
    omega
  unfold verdict
  rw [hcount, any_cons, decide_eq_false (not_not.mpr rfl), Bool.false_or]

theorem verdict_of_ne (h : b ≠ dot) (decoded : Bytes) (dots : Nat) (hasNonDot : Bool) :
    verdict (b :: decoded) dots hasNonDot = verdict decoded dots true := by
  simp [verdict, h]

theorem any_verdict_cons (b : UInt8) (rest : Option Bytes) (dots : Nat) (hasNonDot : Bool) :
    ((rest.map (b :: ·)).any fun decoded => verdict decoded dots hasNonDot) =
      if b = dot then rest.any fun decoded => verdict decoded (dots + 1) hasNonDot
      else rest.any fun decoded => verdict decoded dots true := by
  rw [Option.any_map]
  split
  next h =>
    subst h
    exact congrArg (Option.any · rest) (funext fun decoded => verdict_dot decoded dots hasNonDot)
  next h =>
    exact congrArg (Option.any · rest) (funext fun decoded => verdict_of_ne h decoded dots hasNonDot)

theorem scanSegment_escape (high low : UInt8) (rest : Bytes) (dots : Int32) (hasNonDot : Bool) :
    scanSegment (percent :: high :: low :: rest) dots hasNonDot =
      match byteOf high low with
      | some decoded =>
        if Reserved decoded then false
        else if decoded = dot then scanSegment rest (dots + 1) hasNonDot
        else scanSegment rest dots true
      | none => false := by
  have hdot : percent ≠ dot := by decide
  rw [scanSegment, if_neg hdot, if_neg percent_ne_backslash, if_pos rfl]
  unfold byteOf
  have hdigit : ∀ b, hexValue b = decodeHexDigit b := fun _ => rfl
  rw [hdigit, hdigit]
  cases decodeHexDigit high with
  | none => rfl
  | some high =>
    cases decodeHexDigit low with
    | none => rfl
    | some low => rfl

/-- **The scan fails, or decodes and judges what is decoded.** -/
theorem scanSegment_eq (segment : Bytes) (dots : Nat) (hasNonDot : Bool) :
    scanSegment segment (Int32.ofNat dots) hasNonDot =
      (decodeStrict segment).any fun decoded => verdict decoded dots hasNonDot := by
  induction segment using decodeStrict.induct generalizing dots hasNonDot with
  | case1 => simp [scanSegment, decodeStrict, verdict]
  | case2 rest =>
    have hdot : backslash ≠ dot := by decide
    unfold scanSegment
    rw [if_neg hdot, if_pos rfl, decodeStrict_backslash, Option.any_none]
  | case3 high low rest decoded h hreserved _ =>
    rw [scanSegment_escape, h, decodeStrict_reserved h hreserved]
    exact if_pos hreserved
  | case4 high low rest decoded h hplain _ ih =>
    rw [scanSegment_escape, h, decodeStrict_escape h hplain, any_verdict_cons]
    dsimp only
    rw [if_neg hplain, ← ih, ← ih, Int32.ofNat_add]
    rfl
  | case5 high low rest h _ =>
    have hnone : escaped (high :: low :: rest) = none := h
    rw [scanSegment_escape, h, decodeStrict_malformed hnone, Option.any_none]
  | case6 rest hshort _ =>
    match rest, hshort with
    | [], _ => rfl
    | [c], _ => rfl
    | high :: low :: rest, hshort => exact absurd rfl (hshort high low rest)
  | case7 b rest hb hp ih =>
    rw [decodeStrict_plain hb hp, any_verdict_cons, ← ih, ← ih, Int32.ofNat_add]
    rw [scanSegment.eq_def]
    dsimp only
    rw [if_neg hb, if_neg hp]
    rfl

/-! ## What makes it fail -/

/-- A `%` that two hexadecimal digits do not follow. -/
def MalformedEscape (path : Bytes) : Prop :=
  ∃ before after, path = before ++ percent :: after ∧ escaped after = none

/-- An escape of a reserved byte. -/
def ReservedEscape (path : Bytes) : Prop :=
  ∃ before after decoded, path = before ++ percent :: after ∧ escaped after = some decoded ∧
    Reserved decoded

/-- A byte that is read in more than one way. -/
def Ambiguous (path : Bytes) : Prop :=
  backslash ∈ path ∨ MalformedEscape path ∨ ReservedEscape path

theorem Ambiguous.cons (h : Ambiguous path) (b : UInt8) : Ambiguous (b :: path) := by
  rcases h with h | ⟨before, after, rfl, h⟩ | ⟨before, after, decoded, rfl, h⟩
  · exact .inl (mem_cons_of_mem b h)
  · exact .inr (.inl ⟨b :: before, after, rfl, h⟩)
  · exact .inr (.inr ⟨b :: before, after, decoded, rfl, h⟩)

theorem Ambiguous.of_cons (h : Ambiguous (b :: path)) (hb : b ≠ backslash)
    (hp : b ≠ percent) : Ambiguous path := by
  rcases h with h | ⟨before, after, hpath, h⟩ | ⟨before, after, decoded, hpath, h⟩
  · rcases mem_cons.mp h with heq | h
    · exact absurd heq.symm hb
    · exact .inl h
  · cases before with
    | nil =>
      cases hpath
      exact absurd rfl hp
    | cons c before =>
      cases hpath
      exact .inr (.inl ⟨before, after, rfl, h⟩)
  · cases before with
    | nil =>
      cases hpath
      exact absurd rfl hp
    | cons c before =>
      cases hpath
      exact .inr (.inr ⟨before, after, decoded, rfl, h⟩)

theorem ne_of_hexValue {value : UInt8} (h : hexValue b = some value) :
    b ≠ backslash ∧ b ≠ percent ∧ b ≠ slash := by
  have hbackslash : hexValue backslash = none := by decide
  have hpercent : hexValue percent = none := by decide
  have hslash : hexValue slash = none := by decide
  refine ⟨?_, ?_, ?_⟩
  · rintro rfl
    cases hbackslash.symm.trans h
  · rintro rfl
    cases hpercent.symm.trans h
  · rintro rfl
    cases hslash.symm.trans h

theorem digits_of_byteOf (h : byteOf high low = some decoded) :
    (∃ value, hexValue high = some value) ∧ ∃ value, hexValue low = some value := by
  unfold byteOf at h
  split at h
  next hhigh hlow => exact ⟨⟨_, hhigh⟩, ⟨_, hlow⟩⟩
  next => cases h

theorem Ambiguous.of_escape
    (h : Ambiguous (percent :: high :: low :: rest)) (hdecoded : byteOf high low = some decoded)
    (hplain : ¬ Reserved decoded) : Ambiguous rest := by
  have hinner : Ambiguous (high :: low :: rest) := by
    rcases h with h | ⟨before, after, hpath, h⟩ | ⟨before, after, found, hpath, h, hreserved⟩
    · rcases mem_cons.mp h with heq | h
      · exact absurd heq.symm percent_ne_backslash
      · exact .inl h
    · cases before with
      | nil =>
        cases hpath
        exact absurd (hdecoded.symm.trans h) (by simp)
      | cons c before =>
        rw [cons_append, cons.injEq] at hpath
        exact .inr (.inl ⟨before, after, hpath.2, h⟩)
    · cases before with
      | nil =>
        cases hpath
        cases hdecoded.symm.trans h
        exact absurd hreserved hplain
      | cons c before =>
        rw [cons_append, cons.injEq] at hpath
        exact .inr (.inr ⟨before, after, found, hpath.2, h, hreserved⟩)
  obtain ⟨⟨_, hhigh⟩, ⟨_, hlow⟩⟩ := digits_of_byteOf hdecoded
  have hhigh' := ne_of_hexValue hhigh
  have hlow' := ne_of_hexValue hlow
  exact (hinner.of_cons hhigh'.1 hhigh'.2.1).of_cons hlow'.1 hlow'.2.1

/-- **The scan of a path fails** exactly if something in it is ambiguous. -/
theorem decodeStrict_eq_none_iff (path : Bytes) : decodeStrict path = none ↔ Ambiguous path := by
  induction path using decodeStrict.induct with
  | case1 =>
    refine iff_of_false (by simp [decodeStrict]) ?_
    rintro (h | ⟨before, after, hpath, _⟩ | ⟨before, after, decoded, hpath, _⟩)
    · exact absurd h not_mem_nil
    · exact absurd hpath (by simp)
    · exact absurd hpath (by simp)
  | case2 rest => exact iff_of_true (decodeStrict_backslash rest) (.inl mem_cons_self)
  | case3 high low rest decoded h hreserved _ =>
    exact iff_of_true (decodeStrict_reserved h hreserved rest)
      (.inr (.inr ⟨[], _, decoded, rfl, h, hreserved⟩))
  | case4 high low rest decoded h hplain _ ih =>
    rw [decodeStrict_escape h hplain, Option.map_eq_none_iff, ih]
    exact ⟨fun hrest => ((hrest.cons low).cons high).cons percent, fun hpath => hpath.of_escape h hplain⟩
  | case5 high low rest h _ =>
    have hnone : escaped (high :: low :: rest) = none := h
    exact iff_of_true (decodeStrict_malformed hnone) (.inr (.inl ⟨[], _, rfl, hnone⟩))
  | case6 rest hshort _ =>
    have h := escaped_of_short hshort
    exact iff_of_true (decodeStrict_malformed h) (.inr (.inl ⟨[], _, rfl, h⟩))
  | case7 b rest hb hp ih =>
    rw [decodeStrict_plain hb hp, Option.map_eq_none_iff, ih]
    exact ⟨fun hrest => hrest.cons b, fun hpath => hpath.of_cons hb hp⟩

/-! ## What it decodes to -/

theorem decodeStrict_spec {decoded : Bytes} (h : decodeStrict path = some decoded) :
    decoded = percentDecode path ∧ percent ∉ decoded ∧ backslash ∉ decoded ∧
      (slash ∉ path → slash ∉ decoded) := by
  induction path using decodeStrict.induct generalizing decoded with
  | case1 =>
    cases h
    exact ⟨rfl, not_mem_nil, not_mem_nil, fun _ => not_mem_nil⟩
  | case2 rest =>
    rw [decodeStrict_backslash] at h
    cases h
  | case3 high low rest byte hbyte hreserved _ =>
    rw [decodeStrict_reserved hbyte hreserved] at h
    cases h
  | case4 high low rest byte hbyte hplain _ ih =>
    rw [decodeStrict_escape hbyte hplain] at h
    obtain ⟨later, hlater, rfl⟩ := Option.map_eq_some_iff.mp h
    obtain ⟨hdecode, hpercent, hbackslash, hslash⟩ := ih hlater
    obtain ⟨hp, hs, hb⟩ : byte ≠ percent ∧ byte ≠ slash ∧ byte ≠ backslash := by
      simpa [Reserved] using hplain
    refine ⟨?_, not_mem_cons_of_ne_of_not_mem (Ne.symm hp) hpercent,
      not_mem_cons_of_ne_of_not_mem (Ne.symm hb) hbackslash, fun hpath => ?_⟩
    · have hescaped : escaped (high :: low :: rest) = some byte := hbyte
      rw [percentDecode_of_escaped hescaped, hdecode]
      rfl
    · refine not_mem_cons_of_ne_of_not_mem (Ne.symm hs) (hslash fun hmem => hpath ?_)
      exact mem_cons_of_mem _ (mem_cons_of_mem _ (mem_cons_of_mem _ hmem))
  | case5 high low rest hbyte _ =>
    have hnone : escaped (high :: low :: rest) = none := hbyte
    rw [decodeStrict_malformed hnone] at h
    cases h
  | case6 rest hshort _ =>
    rw [decodeStrict_malformed (escaped_of_short hshort)] at h
    cases h
  | case7 b rest hb hp ih =>
    rw [decodeStrict_plain hb hp] at h
    obtain ⟨later, hlater, rfl⟩ := Option.map_eq_some_iff.mp h
    obtain ⟨hdecode, hpercent, hbackslash, hslash⟩ := ih hlater
    refine ⟨?_, not_mem_cons_of_ne_of_not_mem (Ne.symm hp) hpercent,
      not_mem_cons_of_ne_of_not_mem (Ne.symm hb) hbackslash, fun hpath => ?_⟩
    · rw [percentDecode_cons_of_ne hp, hdecode]
    · rw [mem_cons, not_or] at hpath
      exact not_mem_cons_of_ne_of_not_mem hpath.1 (hslash hpath.2)

theorem decodeStrict_append {first : Bytes} (hfirst : slash ∉ first) (rest : Bytes) :
    decodeStrict (first ++ slash :: rest) =
      (decodeStrict first).bind fun left => (decodeStrict rest).map fun right => left ++ slash :: right := by
  have hslash : slash ≠ backslash ∧ slash ≠ percent := by decide
  induction first using decodeStrict.induct with
  | case1 =>
    rw [nil_append, decodeStrict_plain hslash.1 hslash.2]
    rfl
  | case2 first => rw [cons_append, decodeStrict_backslash, decodeStrict_backslash, Option.bind_none]
  | case3 high low first byte hbyte hreserved _ =>
    rw [cons_append, cons_append, cons_append, decodeStrict_reserved hbyte hreserved,
      decodeStrict_reserved hbyte hreserved, Option.bind_none]
  | case4 high low first byte hbyte hplain _ ih =>
    have hrest : slash ∉ first := fun hmem =>
      hfirst (mem_cons_of_mem _ (mem_cons_of_mem _ (mem_cons_of_mem _ hmem)))
    rw [cons_append, cons_append, cons_append, decodeStrict_escape hbyte hplain,
      decodeStrict_escape hbyte hplain, ih hrest]
    cases decodeStrict first with
    | none => rfl
    | some left =>
      cases decodeStrict rest with
      | none => rfl
      | some right => rfl
  | case5 high low first hbyte _ =>
    have hnone : escaped (high :: low :: first) = none := hbyte
    have hnone' : escaped (high :: low :: first ++ slash :: rest) = none := hbyte
    rw [decodeStrict_malformed hnone, Option.bind_none]
    exact decodeStrict_malformed hnone'
  | case6 first hshort _ =>
    -- the escape would reach over the slash
    have hdigit : hexValue slash = none := by decide
    match first, hshort with
    | [], _ =>
      rw [decodeStrict_malformed (show escaped [] = none from rfl), Option.bind_none]
      refine decodeStrict_malformed ?_
      cases rest with
      | nil => rfl
      | cons c rest =>
        simp [escaped, byteOf, hdigit]
    | [c], _ =>
      rw [decodeStrict_malformed (show escaped [c] = none from rfl), Option.bind_none]
      refine decodeStrict_malformed ?_
      simp [escaped, byteOf, hdigit]
    | high :: low :: first, hshort => exact absurd rfl (hshort high low first)
  | case7 b first hb hp ih =>
    have hrest : slash ∉ first := fun hmem => hfirst (mem_cons_of_mem _ hmem)
    rw [cons_append, decodeStrict_plain hb hp, decodeStrict_plain hb hp, ih hrest]
    cases decodeStrict first with
    | none => rfl
    | some left =>
      cases decodeStrict rest with
      | none => rfl
      | some right => rfl

/-- **The segments of what is decoded** are the decoded segments. -/
theorem segments_of_decodeStrict {decoded : Bytes} (h : decodeStrict path = some decoded) :
    segments decoded = (segments path).map percentDecode ∧
      ∀ segment ∈ segments path, decodeStrict segment = some (percentDecode segment) := by
  obtain ⟨size, hsize⟩ : ∃ size, path.length ≤ size := ⟨_, le_refl _⟩
  induction size generalizing path decoded with
  | zero =>
    cases length_eq_zero_iff.mp (Nat.le_zero.mp hsize)
    cases h
    refine ⟨rfl, fun segment hsegment => ?_⟩
    cases mem_singleton.mp hsegment
    rfl
  | succ size ih =>
    by_cases hslash : slash ∈ path
    · obtain ⟨first, rest, rfl, hfirst⟩ := eq_append_cons_of_mem hslash
      rw [decodeStrict_append hfirst] at h
      obtain ⟨left, hleft, h⟩ := Option.bind_eq_some_iff.mp h
      obtain ⟨right, hright, rfl⟩ := Option.map_eq_some_iff.mp h
      have hspec := decodeStrict_spec hleft
      rw [length_append, length_cons] at hsize
      obtain ⟨hsegments, hall⟩ := ih hright (by omega)
      rw [segments_append hfirst, segments_append (hspec.2.2.2 hfirst), hsegments, hspec.1]
      refine ⟨rfl, fun segment hsegment => ?_⟩
      rcases mem_cons.mp hsegment with rfl | hsegment
      · rw [hleft, hspec.1]
      · exact hall segment hsegment
    · have hspec := decodeStrict_spec h
      rw [segments_of_notMem hslash, segments_of_notMem (hspec.2.2.2 hslash), hspec.1]
      refine ⟨rfl, fun segment hsegment => ?_⟩
      cases mem_singleton.mp hsegment
      rw [h, hspec.1]

theorem decodeStrict_ne_none (h : ∀ segment ∈ segments path, decodeStrict segment ≠ none) :
    decodeStrict path ≠ none := by
  obtain ⟨size, hsize⟩ : ∃ size, path.length ≤ size := ⟨_, le_refl _⟩
  induction size generalizing path with
  | zero =>
    cases length_eq_zero_iff.mp (Nat.le_zero.mp hsize)
    exact Option.some_ne_none _
  | succ size ih =>
    by_cases hslash : slash ∈ path
    · obtain ⟨first, rest, rfl, hfirst⟩ := eq_append_cons_of_mem hslash
      rw [segments_append hfirst] at h
      rw [length_append, length_cons] at hsize
      have hrest := ih (fun segment hsegment => h segment (mem_cons_of_mem _ hsegment)) (by omega)
      obtain ⟨left, hleft⟩ := Option.ne_none_iff_exists'.mp (h first mem_cons_self)
      obtain ⟨right, hright⟩ := Option.ne_none_iff_exists'.mp hrest
      rw [decodeStrict_append hfirst, hleft, hright]
      exact Option.some_ne_none _
    · rw [segments_of_notMem hslash] at h
      exact h path (mem_singleton.mpr rfl)

/-! ## The bytes of a path -/

theorem slash_notMem_encodeChar {c : Char} (h : c ≠ '/') : slash ∉ String.utf8EncodeChar c := by
  intro hmem
  have hcode : c.toNat = ('/').toNat := (toNat_eq_of_mem_utf8EncodeChar hmem (by decide)).symm
  exact h (Char.toNat_inj.mp hcode)

theorem segments_encode (path : Text) :
    segments (encode path) = (path.splitOnP (· = '/')).map encode := by
  induction path with
  | nil => rfl
  | cons c path ih =>
    have hencode : encode (c :: path) = String.utf8EncodeChar c ++ encode path := flatMap_cons
    rw [splitOnP_cons_eq_if_modifyHead, hencode]
    by_cases hc : c = '/'
    · subst hc
      rw [if_pos (by decide), map_cons, ← ih]
      exact segments_slash (encode path)
    · rw [if_neg (by simpa using hc), segments_prepend (slash_notMem_encodeChar hc), ih]
      cases path.splitOnP (· = '/') with
      | nil => rfl
      | cons segment more => rfl

theorem int32_ofNat_eq_iff (n : Nat) {k : Nat} (hk : k < 2 ^ 31) :
    Int32.ofNat n = Int32.ofNat k ↔ n % 2 ^ 32 = k := by
  have htoNat : ∀ m, (Int32.ofNat m).toBitVec.toNat = m % 2 ^ 32 := fun _ => rfl
  have hsmall : k % 2 ^ 32 = k := Nat.mod_eq_of_lt (by omega)
  rw [← Int32.toBitVec_inj]
  constructor
  · intro h
    have hnat := congrArg BitVec.toNat h
    rwa [htoNat, htoNat, hsmall] at hnat
  · intro h
    refine BitVec.eq_of_toNat_eq ?_
    rw [htoNat, htoNat, hsmall, h]

theorem verdict_eq_false_iff (decoded : Bytes) : verdict decoded 0 false = false ↔
      ∃ n, decoded = replicate n dot ∧ (n % 2 ^ 32 = 1 ∨ n % 2 ^ 32 = 2) := by
  have hone := @int32_ofNat_eq_iff (decoded.count dot) 1 (by decide)
  have htwo := @int32_ofNat_eq_iff (decoded.count dot) 2 (by decide)
  unfold verdict
  rw [Bool.or_eq_false_iff, Bool.or_eq_false_iff, Bool.not_eq_false', decide_eq_true_iff, Nat.zero_add]
  constructor
  · rintro ⟨⟨-, hdots⟩, hcount⟩
    refine ⟨decoded.count dot, ?_, ?_⟩
    · refine (eq_replicate_iff.mpr ⟨?_, ?_⟩)
      · refine (count_eq_length.mpr fun b hb => ?_).symm
        have := any_eq_false.mp hdots b hb
        simpa using (eq_comm.mp (by simpa using this : b = dot))
      · intro b hb
        have := any_eq_false.mp hdots b hb
        simpa using this
    · exact hcount.imp hone.mp htwo.mp
  · rintro ⟨n, rfl, hn⟩
    rw [count_replicate_self] at hone htwo ⊢
    refine ⟨⟨rfl, ?_⟩, hn.imp hone.mpr htwo.mpr⟩
    refine any_eq_false.mpr fun b hb => ?_
    simpa using eq_of_mem_replicate hb

/-- **When a path is refused.** -/
theorem isSafeForAuthorization_eq_false_iff (path : Text) : isSafeForAuthorization path = false ↔
      Ambiguous (encode path) ∨ ∃ segment ∈ segments (encode path), ∃ n,
        percentDecode segment = replicate n dot ∧ (n % 2 ^ 32 = 1 ∨ n % 2 ^ 32 = 2) := by
  have hscan : isSafeForAuthorization path = false ↔ ∃ segment ∈ segments (encode path),
      (decodeStrict segment).any (fun decoded => verdict decoded 0 false) = false := by
    rw [isSafeForAuthorization, all_eq_false, segments_encode]
    constructor
    · rintro ⟨segment, hsegment, hfalse⟩
      refine ⟨encode segment, mem_map_of_mem hsegment, ?_⟩
      rw [← scanSegment_eq]
      exact (Bool.not_eq_true _).mp hfalse
    · rintro ⟨segment, hsegment, hfalse⟩
      obtain ⟨text, htext, rfl⟩ := mem_map.mp hsegment
      rw [← scanSegment_eq] at hfalse
      exact ⟨text, htext, by simpa [isSafeSegmentForAuthorization] using hfalse⟩
  rw [hscan]
  cases hpath : decodeStrict (encode path) with
  | none =>
    refine iff_of_true ?_ (.inl ((decodeStrict_eq_none_iff _).mp hpath))
    by_contra hall
    refine decodeStrict_ne_none (fun segment hsegment hnone => hall ⟨segment, hsegment, ?_⟩) hpath
    rw [hnone, Option.any_none]
  | some decoded =>
    have hsegments := (segments_of_decodeStrict hpath).2
    have hclear : ¬ Ambiguous (encode path) := by
      rw [← decodeStrict_eq_none_iff, hpath]
      exact Option.some_ne_none _
    constructor
    · rintro ⟨segment, hsegment, hfalse⟩
      rw [hsegments segment hsegment, Option.any_some, verdict_eq_false_iff] at hfalse
      exact .inr ⟨segment, hsegment, hfalse⟩
    · rintro (hambiguous | ⟨segment, hsegment, hdots⟩)
      · exact absurd hambiguous hclear
      · refine ⟨segment, hsegment, ?_⟩
        rw [hsegments segment hsegment, Option.any_some, verdict_eq_false_iff]
        exact hdots

/-- **A path that is accepted is read in one way**, and a path is refused for what could be read in
another. Decoding an accepted path keeps its segments and leaves nothing to decode and no dot segment to
remove. -/
theorem authorization_path_unambiguous (path : Text) : (isSafeForAuthorization path = true →
      segments (percentDecode (encode path)) = (segments (encode path)).map percentDecode ∧
      percent ∉ percentDecode (encode path) ∧ backslash ∉ percentDecode (encode path) ∧
      NoDotSegments (percentDecode (encode path)) ∧
      percentDecode (percentDecode (encode path)) = percentDecode (encode path) ∧
      removeDotSegments (percentDecode (encode path)) = percentDecode (encode path)) ∧
    (isSafeForAuthorization path = false ↔
      backslash ∈ encode path ∨ MalformedEscape (encode path) ∨ ReservedEscape (encode path) ∨
        ∃ segment ∈ segments (encode path), ∃ n,
          percentDecode segment = replicate n dot ∧ (n % 2 ^ 32 = 1 ∨ n % 2 ^ 32 = 2)) := by
  have hiff := isSafeForAuthorization_eq_false_iff path
  constructor
  · intro hsafe
    rw [hsafe] at hiff
    obtain ⟨hclear, hdots⟩ := not_or.mp (mt hiff.mpr (by decide))
    obtain ⟨decoded, hdecoded⟩ :=
      Option.ne_none_iff_exists'.mp (mt (decodeStrict_eq_none_iff _).mp hclear)
    obtain ⟨rfl, hpercent, hbackslash, -⟩ := decodeStrict_spec hdecoded
    have hsegments := (segments_of_decodeStrict hdecoded).1
    have hnone : NoDotSegments (percentDecode (encode path)) := by
      intro segment hsegment
      rw [hsegments] at hsegment
      obtain ⟨raw, hraw, rfl⟩ := mem_map.mp hsegment
      constructor
      · intro hone
        exact hdots ⟨raw, hraw, 1, hone, .inl rfl⟩
      · intro htwo
        exact hdots ⟨raw, hraw, 2, htwo, .inr rfl⟩
    exact ⟨hsegments, hpercent, hbackslash, hnone, percentDecode_of_notMem hpercent,
      removeDotSegments_eq_self hnone⟩
  · rw [hiff, Ambiguous, or_assoc, or_assoc]

theorem encode_dots (n : Nat) : encode (replicate n '.') = replicate n dot := by
  induction n with
  | zero => rfl
  | succ n ih =>
    rw [replicate_succ, replicate_succ, ← ih]
    rfl

theorem decodeStrict_dots (n : Nat) :
    decodeStrict (replicate n dot) = some (replicate n dot) := by
  induction n with
  | zero => rfl
  | succ n ih => rw [replicate_succ, decodeStrict_plain (by decide) (by decide), ih, Option.map_some]

/-- A path of so many dots that their count is one again. -/
theorem many_dots_refused : isSafeForAuthorization (replicate (2 ^ 32 + 1) '.') = false ∧
      ¬ (backslash ∈ encode (replicate (2 ^ 32 + 1) '.') ∨
        MalformedEscape (encode (replicate (2 ^ 32 + 1) '.')) ∨
        ReservedEscape (encode (replicate (2 ^ 32 + 1) '.')) ∨
        ∃ segment ∈ segments (encode (replicate (2 ^ 32 + 1) '.')),
          percentDecode segment = [dot] ∨ percentDecode segment = [dot, dot]) := by
  generalize hn : 2 ^ 32 + 1 = n
  have hmany : n % 2 ^ 32 = 1 ∧ 2 < n := by
    rw [← hn]
    decide
  have hencode : encode (replicate n '.') = replicate n dot := encode_dots n
  have hsegments : segments (replicate n dot) = [replicate n dot] := by
    refine segments_of_notMem fun hmem => ?_
    exact absurd (eq_of_mem_replicate hmem) (by decide)
  have hdecode : percentDecode (replicate n dot) = replicate n dot := by
    refine percentDecode_of_notMem fun hmem => ?_
    exact absurd (eq_of_mem_replicate hmem) (by decide)
  have hclear : ¬ Ambiguous (replicate n dot) := by
    rw [← decodeStrict_eq_none_iff, decodeStrict_dots]
    exact Option.some_ne_none _
  constructor
  · rw [isSafeForAuthorization_eq_false_iff, hencode, hsegments]
    exact .inr ⟨_, mem_singleton.mpr rfl, n, hdecode, .inl hmany.1⟩
  · rw [hencode, hsegments]
    rintro (h | h | h | ⟨segment, hsegment, h⟩)
    · exact hclear (.inl h)
    · exact hclear (.inr (.inl h))
    · exact hclear (.inr (.inr h))
    · rw [mem_singleton.mp hsegment, hdecode] at h
      rcases h with h | h
      · have := congrArg length h
        rw [length_replicate, length_singleton] at this
        omega
      · have := congrArg length h
        rw [length_replicate, length_cons, length_singleton] at this
        omega

end NovumAgent.NetworkProxy
