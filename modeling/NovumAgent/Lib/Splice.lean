import Mathlib.Data.List.Sort
import Mathlib.Tactic.Common

/-!
# Splicing

An edit of a list names a place, how many elements from there on it takes out, and what it puts
there. A list of edits that are in order is carried out in one pass, from left to right; the pass
is `splice`. What it gives is said place by place: in front of each place stands what the edits
insert there, and an element stays unless an edit covers it. In that description the order of edits
at different places does not matter, so it can be read off edits that are not sorted yet.
-/

namespace NovumAgent.Splice

open List

variable {α β : Type}

/-- An edit: where, how many elements go, and which ones come. -/
abbrev Edit (β : Type) := Nat × Nat × List β

/-- One edit ends before the other starts. -/
def Before (a b : Edit β) : Prop := a.1 + a.2.1 ≤ b.1

/-- Edits of a list of length `n`, ready for one pass. -/
structure Ordered (n : Nat) (edits : List (Edit β)) : Prop where
  before : edits.Pairwise Before
  within : ∀ e ∈ edits, e.1 + e.2.1 ≤ n

/-- What the edits insert in front of a place. -/
def insertedAt (edits : List (Edit β)) (i : Nat) : List β :=
  (edits.filter (·.1 = i)).flatMap (·.2.2)

/-- An edit takes out the element at a place. -/
def Covers (edits : List (Edit β)) (i : Nat) : Prop := ∃ e ∈ edits, e.1 ≤ i ∧ i < e.1 + e.2.1

instance (edits : List (Edit β)) (i : Nat) : Decidable (Covers edits i) :=
  inferInstanceAs (Decidable (∃ e ∈ edits, e.1 ≤ i ∧ i < e.1 + e.2.1))

/-! ## Inserted and covered, edit by edit -/

@[simp]
theorem insertedAt_nil (i : Nat) : insertedAt ([] : List (Edit β)) i = [] := rfl

theorem insertedAt_cons (e : Edit β) (edits : List (Edit β)) (i : Nat) :
    insertedAt (e :: edits) i = (if e.1 = i then e.2.2 else []) ++ insertedAt edits i := by
  by_cases h : e.1 = i
  · simp [insertedAt, h]
  · simp [insertedAt, h]

@[simp]
theorem insertedAt_append (es fs : List (Edit β)) (i : Nat) :
    insertedAt (es ++ fs) i = insertedAt es i ++ insertedAt fs i := by
  simp [insertedAt]

@[simp]
theorem not_covers_nil (i : Nat) : ¬ Covers ([] : List (Edit β)) i := nofun

theorem covers_cons (e : Edit β) (edits : List (Edit β)) (i : Nat) :
    Covers (e :: edits) i ↔ (e.1 ≤ i ∧ i < e.1 + e.2.1) ∨ Covers edits i := by
  simp [Covers]

@[simp]
theorem covers_append (es fs : List (Edit β)) (i : Nat) :
    Covers (es ++ fs) i ↔ Covers es i ∨ Covers fs i := by
  simp [Covers, or_and_right, exists_or]

variable {edits : List (Edit β)} {γ : Type}

theorem insertedAt_flatMap (f : γ → List (Edit β)) (xs : List γ) (i : Nat) :
    insertedAt (xs.flatMap f) i = xs.flatMap fun x => insertedAt (f x) i := by
  induction xs with
  | nil => rfl
  | cons x xs ih => rw [flatMap_cons, flatMap_cons, insertedAt_append, ih]

theorem covers_flatMap (f : γ → List (Edit β)) (xs : List γ) (i : Nat) :
    Covers (xs.flatMap f) i ↔ ∃ x ∈ xs, Covers (f x) i := by
  induction xs with
  | nil => simp
  | cons x xs ih => rw [flatMap_cons, covers_append, ih, exists_mem_cons_iff]

/-- Nothing is inserted in front of the first edit. -/
theorem insertedAt_of_lt {i : Nat} (h : ∀ e ∈ edits, i < e.1) : insertedAt edits i = [] := by
  have hnone : edits.filter (·.1 = i) = [] := by
    apply filter_eq_nil_iff.mpr
    intro e he hi
    exact absurd (of_decide_eq_true hi) (ne_of_gt (h e he))
  rw [insertedAt, hnone, flatMap_nil]

theorem not_covers_of_lt {i : Nat} (h : ∀ e ∈ edits, i < e.1) : ¬ Covers edits i := by
  rintro ⟨e, he, hle, -⟩
  exact absurd hle (not_le.mpr (h e he))

theorem insertedAt_map (f : β → γ) (edits : List (Edit β)) (i : Nat) :
    insertedAt (edits.map fun e => (e.1, e.2.1, e.2.2.map f)) i = (insertedAt edits i).map f := by
  induction edits with
  | nil => rfl
  | cons e edits ih =>
    rw [map_cons, insertedAt_cons, insertedAt_cons, ih, map_append]
    by_cases h : e.1 = i
    · simp [h]
    · simp [h]

theorem covers_map (f : β → γ) (edits : List (Edit β)) (i : Nat) :
    Covers (edits.map fun e => (e.1, e.2.1, e.2.2.map f)) i ↔ Covers edits i := by
  simp [Covers]

/-! ## Sorting -/

/-- Two edits in the order they were made: sorted by their places, one ends before the other starts,
whichever comes first. -/
def Sortable (a b : Edit β) : Prop := (a.1 ≤ b.1 → Before a b) ∧ (b.1 < a.1 → Before b a)

/-- The edits by their places; those at one place stay in the order they were made. -/
def sort (edits : List (Edit β)) : List (Edit β) := edits.insertionSort fun a b => a.1 ≤ b.1

theorem sort_perm (edits : List (Edit β)) : (sort edits).Perm edits :=
  perm_insertionSort _ edits

/-- An edit takes its place among sorted ones. -/
theorem pairwise_orderedInsert {e : Edit β}
    (hsorted : edits.Pairwise fun a b => a.1 ≤ b.1) (hbefore : edits.Pairwise Before)
    (he : ∀ f ∈ edits, Sortable e f) :
    (edits.orderedInsert (fun a b => a.1 ≤ b.1) e).Pairwise Before := by
  induction edits with
  | nil => exact pairwise_singleton _ _
  | cons f edits ih =>
    rw [orderedInsert_cons]
    obtain ⟨hf, hsorted⟩ := pairwise_cons.mp hsorted
    by_cases hle : e.1 ≤ f.1
    · rw [if_pos hle]
      refine pairwise_cons.mpr ⟨fun g hg => ?_, hbefore⟩
      rcases mem_cons.mp hg with rfl | hmem
      · exact (he g hg).1 hle
      · exact (he g hg).1 (le_trans hle (hf g hmem))
    · rw [if_neg hle]
      obtain ⟨hfirst, hrest⟩ := pairwise_cons.mp hbefore
      refine pairwise_cons.mpr
        ⟨fun g hg => ?_, ih hsorted hrest fun g hg => he g (mem_cons_of_mem f hg)⟩
      rcases (mem_orderedInsert _).mp hg with rfl | hg
      · exact (he f mem_cons_self).2 (not_le.mp hle)
      · exact hfirst g hg

theorem sorted_sort (edits : List (Edit β)) : (sort edits).Pairwise fun a b => a.1 ≤ b.1 := by
  have : Std.Total fun a b : Edit β => a.1 ≤ b.1 := ⟨fun a b => le_total a.1 b.1⟩
  have : IsTrans (Edit β) fun a b => a.1 ≤ b.1 := ⟨fun _ _ _ => le_trans⟩
  exact pairwise_insertionSort _ edits

/-- **Sorting puts edits in order**, if any two of them can be. -/
theorem ordered_sort {n : Nat} (h : edits.Pairwise Sortable)
    (hwithin : ∀ e ∈ edits, e.1 + e.2.1 ≤ n) : Ordered n (sort edits) := by
  refine ⟨?_, fun e he => hwithin e ((sort_perm edits).mem_iff.mp he)⟩
  clear hwithin
  induction edits with
  | nil => exact List.Pairwise.nil
  | cons e edits ih =>
    obtain ⟨he, h⟩ := pairwise_cons.mp h
    exact pairwise_orderedInsert (sorted_sort edits) (ih h) fun f hf =>
      he f ((sort_perm edits).mem_iff.mp hf)

/-- **Sorting is stable**: what is inserted in front of a place is the same. -/
theorem insertedAt_sort (edits : List (Edit β)) (i : Nat) :
    insertedAt (sort edits) i = insertedAt edits i := by
  have hsame : (edits.filter (·.1 = i)).Pairwise fun a b => a.1 ≤ b.1 := by
    apply pairwise_of_forall_mem_list
    intro a ha b hb
    have ha : a.1 = i := of_decide_eq_true (mem_filter.mp ha).2
    have hb : b.1 = i := of_decide_eq_true (mem_filter.mp hb).2
    exact le_of_eq (ha.trans hb.symm)
  have hsub : (edits.filter (·.1 = i)).Sublist (sort edits) :=
    sublist_insertionSort hsame filter_sublist
  have hfilter := hsub.filter (·.1 = i)
  rw [filter_filter] at hfilter
  simp only [Bool.and_self] at hfilter
  have hlength := ((sort_perm edits).filter (·.1 = i)).length_eq
  rw [insertedAt, insertedAt, hfilter.eq_of_length hlength.symm]

theorem covers_sort (edits : List (Edit β)) (i : Nat) : Covers (sort edits) i ↔ Covers edits i := by
  unfold Covers
  simp only [(sort_perm edits).mem_iff]

/-! ## The pass -/

/-- The elements `xs`, the first of them at place `start`, with the edits carried out from left to
right. -/
def splice : List (Edit α) → (xs : List α) → (start : Nat) → List α
  | [], xs, _ => xs
  | (place, taken, new) :: edits, xs, start =>
    xs.take (place - start) ++ new ++
      splice edits ((xs.drop (place - start)).drop taken) (place + taken)

/-- The elements `xs`, the first of them at place `start`, with what the edits say of each place. -/
def edited (edits : List (Edit α)) (xs : List α) (start : Nat) : List α :=
  (range' start (xs.length + 1)).flatMap fun i =>
    insertedAt edits i ++ if Covers edits i then [] else xs[i - start]?.toList

/-- The first elements of a list, place by place. -/
theorem flatMap_take (xs : List α) {start n : Nat} (hn : n ≤ xs.length) :
    ((range' start n).flatMap fun i => xs[i - start]?.toList) = xs.take n := by
  induction n generalizing xs start with
  | zero => rfl
  | succ n ih =>
    cases xs with
    | nil => exact absurd hn (Nat.not_succ_le_zero n)
    | cons x xs =>
      rw [range'_succ, flatMap_cons, Nat.sub_self, take_succ_cons,
        ← @ih xs (start + 1) (Nat.le_of_succ_le_succ hn), getElem?_cons_zero,
        Option.toList_some, singleton_append]
      congr 1
      apply flatMap_congr
      intro i hi
      have hi := (mem_range'_1.mp hi).1
      rw [show i - start = i - (start + 1) + 1 by omega, getElem?_cons_succ]

/-- The elements of a list, place by place. -/
theorem flatMap_getElem? (xs : List α) (start : Nat) :
    ((range' start (xs.length + 1)).flatMap fun i => xs[i - start]?.toList) = xs := by
  rw [range'_1_concat, flatMap_append, flatMap_take xs (le_refl _), take_length]
  simp

/-- What is inserted in front of the first place stands in front of everything. -/
theorem flatMap_first (place n : Nat) (new : List α) (f : Nat → List α) :
    ((range' place (n + 1)).flatMap fun i => (if place = i then new else []) ++ f i) =
      new ++ (range' place (n + 1)).flatMap f := by
  rw [range'_succ, flatMap_cons, flatMap_cons, if_pos rfl, append_assoc]
  congr 2
  apply flatMap_congr
  intro i hi
  rw [if_neg (ne_of_lt (mem_range'_1.mp hi).1), nil_append]

/-- **The first edit, apart from the others**: the elements in front of it stay, what it inserts
comes, what it covers goes, and the others say what becomes of the rest. -/
theorem edited_cons {edits : List (Edit α)} {xs new : List α} {start gap taken : Nat}
    (hlater : ∀ f ∈ edits, start + gap + taken ≤ f.1) (hlen : gap + taken ≤ xs.length) :
    edited ((start + gap, taken, new) :: edits) xs start =
      xs.take gap ++ (new ++ edited edits ((xs.drop gap).drop taken) (start + gap + taken)) := by
  obtain ⟨rest, hrest⟩ := Nat.exists_eq_add_of_le hlen
  have hplaces : range' start (xs.length + 1) =
      range' start gap ++ range' (start + gap) (taken + rest + 1) := by
    rw [range'_append_1, hrest]
    congr 1
    omega
  have hdropped : ((xs.drop gap).drop taken).length = rest := by
    rw [drop_drop, length_drop]
    omega
  rw [edited, hplaces, flatMap_append]
  congr 1
  · rw [← flatMap_take xs (le_trans (Nat.le_add_right gap taken) hlen)]
    apply flatMap_congr
    intro i hi
    have hi := (mem_range'_1.mp hi).2
    have hlt : ∀ f ∈ (start + gap, taken, new) :: edits, i < f.1 := by
      intro f hf
      rcases mem_cons.mp hf with rfl | hf
      · exact hi
      · exact lt_of_lt_of_le hi (le_trans (Nat.le_add_right _ _) (hlater f hf))
    rw [insertedAt_of_lt hlt, if_neg (not_covers_of_lt hlt), nil_append]
  · simp only [insertedAt_cons, append_assoc]
    rw [flatMap_first, Nat.add_assoc taken, ← range'_append_1, flatMap_append, edited, hdropped]
    congr 1
    have hcovered : ∀ i ∈ range' (start + gap) taken,
        (insertedAt edits i ++ if Covers ((start + gap, taken, new) :: edits) i then [] else
          xs[i - start]?.toList) = [] := by
      intro i hi
      have hi := mem_range'_1.mp hi
      rw [if_pos ((covers_cons _ _ _).mpr (.inl hi)), append_nil]
      exact insertedAt_of_lt fun f hf => lt_of_lt_of_le hi.2 (hlater f hf)
    rw [flatMap_congr hcovered, flatMap_eq_nil_iff.mpr fun _ _ => rfl, nil_append]
    apply flatMap_congr
    intro i hi
    have hi := (mem_range'_1.mp hi).1
    have hcovers : Covers ((start + gap, taken, new) :: edits) i ↔ Covers edits i := by
      rw [covers_cons]
      exact or_iff_right fun h => absurd h.2 (not_lt.mpr hi)
    rw [drop_drop, getElem?_drop,
      show gap + taken + (i - (start + gap + taken)) = i - start by omega]
    simp only [hcovers]

/-- **The pass does what the edits say**, if they are in order. -/
theorem splice_eq_edited {edits : List (Edit α)} {xs : List α} {start : Nat}
    (horder : edits.Pairwise Before)
    (hrange : ∀ e ∈ edits, start ≤ e.1 ∧ e.1 + e.2.1 ≤ start + xs.length) :
    splice edits xs start = edited edits xs start := by
  induction edits generalizing xs start with
  | nil =>
    simp only [splice, edited, insertedAt_nil, not_covers_nil, if_false, nil_append]
    exact (flatMap_getElem? xs start).symm
  | cons e edits ih =>
    obtain ⟨place, taken, new⟩ := e
    obtain ⟨hlater, hrest⟩ := pairwise_cons.mp horder
    obtain ⟨hstart, hend⟩ := hrange _ mem_cons_self
    obtain ⟨gap, rfl⟩ := Nat.exists_eq_add_of_le hstart
    have hlen : gap + taken ≤ xs.length := by
      dsimp only at hend
      omega
    rw [edited_cons hlater hlen, splice, Nat.add_sub_cancel_left, append_assoc, ih hrest]
    intro f hf
    have hf' := (hrange f (mem_cons_of_mem _ hf)).2
    refine ⟨hlater f hf, ?_⟩
    rw [drop_drop, length_drop]
    omega

/-! ## The other way round -/

/-- The edits carried out from the last to the first, each on the list as the later ones left it. -/
def spliceBack (edits : List (Edit α)) (xs : List α) : List α :=
  edits.foldr (fun e xs => xs.take e.1 ++ e.2.2 ++ xs.drop (e.1 + e.2.1)) xs

/-- **Both directions agree** on edits that are in order: none touches what comes before it. -/
theorem spliceBack_append {edits : List (Edit α)} {front xs : List α} (horder : edits.Pairwise Before)
    (hrange : ∀ e ∈ edits, front.length ≤ e.1 ∧ e.1 + e.2.1 ≤ front.length + xs.length) :
    spliceBack edits (front ++ xs) = front ++ splice edits xs front.length := by
  induction edits generalizing front xs with
  | nil => rfl
  | cons e edits ih =>
    obtain ⟨place, taken, new⟩ := e
    obtain ⟨hlater, hrest⟩ := pairwise_cons.mp horder
    obtain ⟨hstart, hend⟩ := hrange _ mem_cons_self
    obtain ⟨gap, rfl⟩ := Nat.exists_eq_add_of_le hstart
    dsimp only at hend
    -- the later edits leave everything up to the end of this one
    have hlen : (front ++ xs.take (gap + taken)).length = front.length + gap + taken := by
      rw [length_append, length_take]
      omega
    have hback := @ih (front ++ xs.take (gap + taken)) (xs.drop (gap + taken)) hrest fun f hf => by
      have hf' := (hrange f (mem_cons_of_mem _ hf)).2
      rw [hlen, length_drop]
      exact ⟨hlater f hf, by omega⟩
    rw [append_assoc, take_append_drop, hlen] at hback
    rw [spliceBack, foldr_cons, ← spliceBack, hback, splice, Nat.add_sub_cancel_left, drop_drop]
    have htake : (front ++ xs.take (gap + taken)).take (front.length + gap) = front ++ xs.take gap := by
      rw [take_length_add_append, take_take, Nat.min_eq_left (Nat.le_add_right _ _)]
    dsimp only
    rw [← append_assoc front, take_append_of_le_length (by omega), htake, ← hlen, drop_left]
    simp only [append_assoc]

end NovumAgent.Splice
