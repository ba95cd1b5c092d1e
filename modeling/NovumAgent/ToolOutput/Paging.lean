import Mathlib.Algebra.BigOperators.Group.Finset.Basic
import NovumAgent.ToolOutput.Store

/-!
# Paging through a stored text

A reader recovers a text page by page: it starts at token offset zero and goes on at the offset
each page names, until a page names none. The offsets are whole tokens of four bytes and the
windows are cut back to character boundaries, so the two drift apart. A page begins at the
boundary below its offset and ends at the boundary below *its own begin* plus the budget, while
the next page begins at the boundary below the *sum of the budgets*; what lies between the two
boundaries is never shown.

The pages are followed exactly: no page but the last is more than three bytes short of its budget,
so the offset it names is its own plus its budget (`nextOffset_readPage`), and the page after it
starts no earlier than it ends. The text comes back whole exactly when no offset hangs over a
character boundary by more than the offset behind it does (`recover_whole_iff`).
-/

namespace NovumAgent.ToolOutput

open Utf8 List

/-- Calls `read` page after page, with the budgets in turn. `none` says that the fuel ran out
before a page was the last. -/
def recover (handle : String) (world : World) :
    (fuel : Nat) → (budgets : Nat → Nat) → (offset : Nat) → Option (Except StoreError (List Text))
  | 0, _, _ => none
  | fuel + 1, budgets, offset =>
    match read handle offset (budgets 0) world with
    | .error e => some (.error e)
    | .ok page =>
      match page.nextOffset with
      | none => some (.ok [page.content])
      | some next =>
        (recover handle world fuel (fun i => budgets (i + 1)) next).map
          (Except.map (page.content :: ·))

/-- How far a byte position lies past the character boundary below it. -/
def overhang (content : Text) (position : Nat) : Nat :=
  position - charBoundaryAtOrBefore content position

/-! ## Boundaries -/

theorem boundaryLoop_eq (content : Text) (n : Nat) :
    boundaryLoop content n = byteLen (takeBytes n content) := by
  induction n with
  | zero => simp [boundaryLoop]
  | succ n ih =>
    have hle := byteLen_takeBytes_le (n + 1) content
    rw [boundaryLoop]
    split_ifs with hb
    · exact le_antisymm (le_byteLen_takeBytes hb (le_refl _)) hle
    · -- The longest prefix that fits ends on a boundary, so it ends below this position.
      have hprefix := isCharBoundary_byteLen_takeBytes (n + 1) content
      have hne : byteLen (takeBytes (n + 1) content) ≠ n + 1 := fun heq => hb (heq ▸ hprefix)
      rw [ih]
      exact le_antisymm (byteLen_takeBytes_mono (Nat.le_succ n) content)
        (le_byteLen_takeBytes hprefix (by omega))

theorem charBoundaryAtOrBefore_eq (content : Text) (offset : Nat) :
    charBoundaryAtOrBefore content offset = byteLen (takeBytes offset content) := by
  unfold charBoundaryAtOrBefore
  rw [boundaryLoop_eq]
  rcases le_total offset (byteLen content) with h | h
  · rw [min_eq_left h]
  · rw [min_eq_right h, takeBytes_of_byteLen_le (le_refl _), takeBytes_of_byteLen_le h]

theorem charBoundaryAtOrBefore_le (content : Text) (offset : Nat) :
    charBoundaryAtOrBefore content offset ≤ offset := by
  rw [charBoundaryAtOrBefore_eq]
  exact byteLen_takeBytes_le offset content

variable {content : Text} {m n : Nat}

theorem charBoundaryAtOrBefore_le_of_le (h : charBoundaryAtOrBefore content m ≤ n) :
    charBoundaryAtOrBefore content m ≤ charBoundaryAtOrBefore content n := by
  simp only [charBoundaryAtOrBefore_eq] at h ⊢
  exact le_byteLen_takeBytes (isCharBoundary_byteLen_takeBytes m content) h

/-- Only the part of a position that lies in the text matters, so a saturated one does as well. -/
theorem charBoundaryAtOrBefore_congr (h : min m (byteLen content) = min n (byteLen content)) :
    charBoundaryAtOrBefore content m = charBoundaryAtOrBefore content n := by
  unfold charBoundaryAtOrBefore
  rw [h]

theorem window_meets_iff (content : Text) (position width : Nat) :
    charBoundaryAtOrBefore content (charBoundaryAtOrBefore content position + width) =
        charBoundaryAtOrBefore content (position + width) ↔
      overhang content position ≤ overhang content (position + width) := by
  have hle := charBoundaryAtOrBefore_le content position
  have hle' := charBoundaryAtOrBefore_le content (position + width)
  have hbelow := charBoundaryAtOrBefore_le content (charBoundaryAtOrBefore content position + width)
  have hmono : charBoundaryAtOrBefore content (charBoundaryAtOrBefore content position + width) ≤
      charBoundaryAtOrBefore content (position + width) :=
    charBoundaryAtOrBefore_le_of_le (by omega)
  unfold overhang
  constructor
  · intro heq
    omega
  · intro hover
    exact le_antisymm hmono (charBoundaryAtOrBefore_le_of_le (by omega))

theorem overhang_le_of_end (hend : charBoundaryAtOrBefore content m = byteLen content) (h : m ≤ n) :
    overhang content m ≤ overhang content n := by
  have hn : charBoundaryAtOrBefore content n ≤ byteLen content := by
    rw [charBoundaryAtOrBefore_eq]
    exact byteLen_takeBytes_le_byteLen n content
  unfold overhang
  omega

/-! ## One page -/

section Page

variable {content : Text} (hfit : byteLen content ≤ isizeMax) (offset maxTokens : Nat)
include hfit

theorem charBoundaryAtOrBefore_tokens :
    charBoundaryAtOrBefore content (approxBytesForTokens offset) =
      charBoundaryAtOrBefore content (4 * offset) := by
  have hmax := isizeMax_lt_usizeMax
  refine charBoundaryAtOrBefore_congr ?_
  unfold approxBytesForTokens saturatingMul approxBytesPerToken
  omega

theorem charBoundaryAtOrBefore_window (start : Nat) :
    charBoundaryAtOrBefore content (saturatingAdd start (approxBytesForTokens maxTokens)) =
      charBoundaryAtOrBefore content (start + 4 * maxTokens) := by
  have hmax := isizeMax_lt_usizeMax
  refine charBoundaryAtOrBefore_congr ?_
  rw [min_saturatingAdd (by omega)]
  show min (start + saturatingMul maxTokens 4) _ = _
  unfold saturatingMul
  omega

theorem content_readPage : (readPage content offset maxTokens).content =
      takeBytes (4 * maxTokens) (dropBytes (4 * offset) content) := by
  unfold readPage
  simp only [charBoundaryAtOrBefore_tokens hfit, charBoundaryAtOrBefore_window hfit]
  simp only [charBoundaryAtOrBefore_eq]
  exact slice_eq_takeBytes (4 * offset) (4 * maxTokens) content

theorem nextOffset_readPage : (readPage content offset maxTokens).nextOffset =
      if charBoundaryAtOrBefore content (charBoundaryAtOrBefore content (4 * offset) +
          4 * maxTokens) < byteLen content then some (offset + maxTokens) else none := by
  have hpage := content_readPage hfit offset maxTokens
  unfold readPage at hpage ⊢
  simp only [charBoundaryAtOrBefore_tokens hfit, charBoundaryAtOrBefore_window hfit] at hpage ⊢
  rw [hpage]
  split_ifs with hmore
  · simp only [charBoundaryAtOrBefore_eq, byteLen_takeBytes_dropBytes] at hmore
    have hsum := byteLen_takeBytes_add_byteLen_dropBytes (4 * offset) content
    have hshort : byteLen (takeBytes (4 * maxTokens) (dropBytes (4 * offset) content)) <
        byteLen (dropBytes (4 * offset) content) := by omega
    have hpageLt := lt_byteLen_takeBytes_add_four hshort
    have hstart := lt_byteLen_takeBytes_add_four
      (show byteLen (takeBytes (4 * offset) content) < byteLen content by omega)
    have hmax := isizeMax_lt_usizeMax
    rw [approxTokenCount, approxTokensFromByteCount_eq (byteLen_takeBytes_le _ _) hpageLt (by omega),
      saturatingAdd_of_le (by omega), add_comm]
  · rfl

end Page

/-! ## All pages -/

/-- The offset page `i` is read at, when the reading starts at `offset`. -/
def offsetOf (budgets : Nat → Nat) (offset i : Nat) : Nat :=
  offset + ∑ j ∈ Finset.range i, budgets j

/-- No page's offset hangs over a boundary by more than the offset of the page behind it. -/
def Level (content : Text) (budgets : Nat → Nat) (offset : Nat) : Prop :=
  ∀ i, overhang content (4 * offsetOf budgets offset i) ≤
    overhang content (4 * offsetOf budgets offset (i + 1))

variable (budgets : Nat → Nat)

@[simp] theorem offsetOf_zero (offset : Nat) : offsetOf budgets offset 0 = offset := by
  simp [offsetOf]

theorem offsetOf_succ (offset i : Nat) : offsetOf budgets offset (i + 1) =
      offsetOf (fun j => budgets (j + 1)) (offset + budgets 0) i := by
  unfold offsetOf
  rw [Finset.sum_range_succ', add_assoc, add_comm (budgets 0)]

theorem le_offsetOf (offset i : Nat) : offset ≤ offsetOf budgets offset i :=
  Nat.le_add_right _ _

theorem level_iff (content : Text) (budgets : Nat → Nat) (offset : Nat) :
    Level content budgets offset ↔
      overhang content (4 * offset) ≤ overhang content (4 * offset + 4 * budgets 0) ∧
        Level content (fun j => budgets (j + 1)) (offset + budgets 0) := by
  rw [← Nat.mul_add]
  constructor
  · intro h
    refine ⟨?_, fun i => ?_⟩
    · have h0 := h 0
      rwa [offsetOf_succ, offsetOf_zero, offsetOf_zero] at h0
    · have hi := h (i + 1)
      rwa [offsetOf_succ, offsetOf_succ budgets offset (i + 1)] at hi
  · rintro ⟨h0, hlater⟩ i
    cases i with
    | zero =>
      rw [offsetOf_succ, offsetOf_zero, offsetOf_zero]
      exact h0
    | succ i =>
      rw [offsetOf_succ, offsetOf_succ budgets offset (i + 1)]
      exact hlater i

theorem level_of_end {offset : Nat}
    (hend : byteLen content ≤ 4 * offset) : Level content budgets offset := by
  intro i
  have hle := le_offsetOf budgets offset i
  have hstep : offsetOf budgets offset i ≤ offsetOf budgets offset (i + 1) := by
    unfold offsetOf
    rw [Finset.sum_range_succ]
    omega
  refine overhang_le_of_end ?_ (by omega)
  rw [charBoundaryAtOrBefore_eq, takeBytes_of_byteLen_le (by omega)]

section Recover

variable {handle : String} {world : World} {content : Text} {budgets : Nat → Nat} {offset : Nat}

theorem window_le_next (content : Text) (offset width : Nat) :
    byteLen (takeBytes (4 * offset) content) +
        byteLen (takeBytes (4 * width) (dropBytes (4 * offset) content)) ≤
      byteLen (takeBytes (4 * (offset + width)) content) := by
  have hle := byteLen_takeBytes_le (4 * offset) content
  rw [← byteLen_takeBytes_dropBytes]
  exact byteLen_takeBytes_mono (by omega) content

theorem dropBytes_eq_iff (content : Text) (offset width : Nat) :
    dropBytes (4 * (offset + width)) content =
        dropBytes (4 * width) (dropBytes (4 * offset) content) ↔
      overhang content (4 * offset) ≤ overhang content (4 * offset + 4 * width) := by
  rw [← window_meets_iff, dropBytes_dropBytes, ← Nat.mul_add]
  simp only [charBoundaryAtOrBefore_eq]
  have hleft := byteLen_takeBytes_add_byteLen_dropBytes (4 * (offset + width)) content
  have hright := byteLen_takeBytes_add_byteLen_dropBytes
    (byteLen (takeBytes (4 * offset) content) + 4 * width) content
  constructor
  · intro heq
    rw [heq] at hleft
    omega
  · intro heq
    exact (dropBytes_congr heq).symm

/-- Reading pages from an offset on ends, with one page of fuel more than there are bytes behind
the offset. It shows no more bytes than there are, and shows them all exactly when the offsets are
level. -/
theorem recover_from (hread : readContent handle world = .ok content)
    (hfit : byteLen content ≤ isizeMax) (hpos : ∀ i, 0 < budgets i) {room : Nat}
    (hroom : byteLen (dropBytes (4 * offset) content) = room) :
    ∃ pages, (∀ fuel, room < fuel → recover handle world fuel budgets offset = some (.ok pages)) ∧
      byteLen pages.flatten ≤ room ∧
      (pages.flatten = dropBytes (4 * offset) content ↔ Level content budgets offset) := by
  induction room using Nat.strong_induction_on generalizing budgets offset with
  | _ room ih =>
  have hnext := nextOffset_readPage hfit offset (budgets 0)
  have hpage := content_readPage hfit offset (budgets 0)
  simp only [charBoundaryAtOrBefore_eq, byteLen_takeBytes_dropBytes] at hnext
  have hsum := byteLen_takeBytes_add_byteLen_dropBytes (4 * offset) content
  have hpart := byteLen_takeBytes_add_byteLen_dropBytes (4 * budgets 0)
    (dropBytes (4 * offset) content)
  have hwhole := takeBytes_append_dropBytes (4 * budgets 0) (dropBytes (4 * offset) content)
  have hstart := window_le_next content offset (budgets 0)
  have hsum' := byteLen_takeBytes_add_byteLen_dropBytes (4 * (offset + budgets 0)) content
  split_ifs at hnext with hmore
  · -- A page that leaves something is not empty: a budget of one token holds any character.
    have hbudget := hpos 0
    have hshort := lt_byteLen_takeBytes_add_four
      (show byteLen (takeBytes (4 * budgets 0) (dropBytes (4 * offset) content)) <
        byteLen (dropBytes (4 * offset) content) by omega)
    obtain ⟨pages, hfuel, hle, hiff⟩ :=
      ih (byteLen (dropBytes (4 * (offset + budgets 0)) content)) (by omega)
        (fun i => hpos (i + 1)) rfl
    refine ⟨(readPage content offset (budgets 0)).content :: pages, ?_, ?_, ?_⟩
    · intro fuel hlt
      obtain ⟨fuel, rfl⟩ := Nat.exists_eq_succ_of_ne_zero (Nat.ne_zero_of_lt hlt)
      simp only [recover, read, hread, Except.map, hnext, hfuel fuel (by omega), Option.map_some]
    · rw [flatten_cons, hpage, byteLen_append]
      omega
    · rw [level_iff, ← dropBytes_eq_iff, ← hiff, flatten_cons, hpage]
      nth_rewrite 2 [← hwhole]
      rw [append_cancel_left_eq]
      constructor
      · -- What is shown later is at most what is behind the next offset, so that is all of it.
        intro heq
        rw [heq] at hle
        have hb : overhang content (4 * offset) ≤
            overhang content (4 * offset + 4 * budgets 0) := by
          rw [← window_meets_iff, ← Nat.mul_add]
          simp only [charBoundaryAtOrBefore_eq, byteLen_takeBytes_dropBytes]
          omega
        have hdrop := (dropBytes_eq_iff content offset (budgets 0)).mpr hb
        exact ⟨hdrop, heq.trans hdrop.symm⟩
      · rintro ⟨hdrop, hpages⟩
        exact hpages.trans hdrop
  · -- The last page is all there is, and every later offset is past the end.
    have hrest : byteLen (takeBytes (4 * budgets 0) (dropBytes (4 * offset) content)) =
        byteLen (dropBytes (4 * offset) content) := by omega
    have hall : takeBytes (4 * budgets 0) (dropBytes (4 * offset) content) =
        dropBytes (4 * offset) content := by
      have hnil := eq_nil_of_byteLen_eq_zero
        (show byteLen (dropBytes (4 * budgets 0) (dropBytes (4 * offset) content)) = 0 by omega)
      rwa [hnil, append_nil] at hwhole
    refine ⟨[(readPage content offset (budgets 0)).content], ?_, ?_, ?_⟩
    · intro fuel hlt
      obtain ⟨fuel, rfl⟩ := Nat.exists_eq_succ_of_ne_zero (Nat.ne_zero_of_lt hlt)
      simp only [recover, read, hread, Except.map, hnext]
    · rw [flatten_singleton, hpage, hall]
      exact le_of_eq hroom
    · have hend : byteLen content ≤ 4 * (offset + budgets 0) := by
        have := byteLen_takeBytes_le (4 * (offset + budgets 0)) content
        omega
      have hdrop : dropBytes (4 * (offset + budgets 0)) content =
          dropBytes (4 * budgets 0) (dropBytes (4 * offset) content) := by
        rw [dropBytes_dropBytes]
        refine dropBytes_congr ?_
        rw [byteLen_takeBytes_dropBytes]
        omega
      rw [level_iff, ← dropBytes_eq_iff, flatten_singleton, hpage, hall]
      exact iff_of_true rfl ⟨hdrop, level_of_end _ hend⟩

end Recover

/-- **A stored text comes back whole exactly when the page offsets are level.** Following the
offsets always comes to a last page; the pages joined are the text if and only if no offset, in
bytes, lies farther past the character boundary below it than the next one does. -/
theorem recover_whole_iff {limits : Limits} {uuid : String} {write : WriteResult} {content : Text}
    {world world' : World} {stored : StoredToolOutput}
    (hstore : storeText limits uuid write content world = (.ok stored, world'))
    (budgets : Nat → Nat) (hpos : ∀ i, 0 < budgets i) :
    ∃ pages fuel, (∀ n, fuel ≤ n → recover stored.handle world' n budgets 0 = some (.ok pages)) ∧
      (pages.flatten = content ↔ ∀ i, overhang content (4 * ∑ j ∈ Finset.range i, budgets j) ≤
          overhang content (4 * ∑ j ∈ Finset.range (i + 1), budgets j)) := by
  obtain ⟨pages, hfuel, -, hiff⟩ := recover_from (readContent_storeText hstore)
    (byteLen_le_of_storeText hstore) hpos (show byteLen (dropBytes (4 * 0) content) = _ from rfl)
  refine ⟨pages, _, hfuel, ?_⟩
  simpa only [Level, offsetOf, Nat.mul_zero, dropBytes_zero, zero_add] using hiff

/-- The store after eight letters, and their pages of one token. -/
theorem recover_whole_letters : ∃ pages fuel, (∀ n, fuel ≤ n → recover "out_0"
        (storeText .default "0" .ok "eightbit".toList .empty).2 n (fun _ => 1) 0 =
          some (.ok pages)) ∧
      (pages.flatten = "eightbit".toList ↔
        ∀ i, overhang "eightbit".toList (4 * ∑ _j ∈ Finset.range i, 1) ≤
          overhang "eightbit".toList (4 * ∑ _j ∈ Finset.range (i + 1), 1)) := by
  exact recover_whole_iff (show storeText .default "0" .ok "eightbit".toList .empty =
    (.ok ⟨"out_0", 8, 2⟩, _) from rfl) (fun _ => 1) (fun _ => Nat.one_pos)

/-- Five characters of three bytes each, in pages of one token: the fourth page starts behind the
fourth character, which no page has shown. -/
theorem recover_loses_character :
    let content := "€€€€€".toList
    let after := storeText .default "0" .ok content .empty
    after.1 = .ok ⟨"out_0", 15, 4⟩ ∧ recover "out_0" after.2 5 (fun _ => 1) 0 =
        some (.ok ["€".toList, "€".toList, "€".toList, "€".toList]) ∧
      ["€".toList, "€".toList, "€".toList, "€".toList].flatten ≠ content := by
  refine ⟨by rfl, by decide +kernel, by decide⟩

end NovumAgent.ToolOutput
