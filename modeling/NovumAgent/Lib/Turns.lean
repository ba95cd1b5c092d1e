import Mathlib.Data.List.DropRight
import Mathlib.Data.List.GetD
import Mathlib.Data.List.Induction

/-!
# Cutting a history by turns

A history is a list of items, some of which start a turn. The last turns are dropped by position: the
list is cut at the item that starts the first of them, and the items of context right before the cut go
too, though nothing before the very first turn. If there are no more turns than are to be dropped, all of
them go and what is before the first turn stays.

Said by what stays (`dropTurns_of_le`, `dropTurns_append`): the items before the first turn, or the items
before the cut without the context at their end. A second cut takes all context of the last turn that
stays (`dropTurnsWithContext`), and the two are compared (`dropTurnsWithContext_eq_iff`).
-/

namespace NovumAgent.Turns

open List

variable {α β : Type*} (boundary context : α → Bool)

/-- The places of the items that start a turn. -/
def positions (history : List α) : List Nat :=
  history.zipIdx.filterMap fun x => if boundary x.1 then some x.2 else none

/-- The loop that moves a cut over the context before it. -/
def trim (history : List α) (first : Nat) : Nat → Nat
  | 0 => 0
  | cut + 1 =>
    if first < cut + 1 ∧ (history[cut]?.any context) = true then trim history first cut else cut + 1

/-- The history without its last turns. -/
def dropTurns (history : List α) (count : Nat) : List α :=
  if count = 0 then history
  else
    match (positions boundary history).head? with
    | none => history
    | some first =>
      let places := positions boundary history
      let cut := if count ≥ places.length then first else places.getD (places.length - count) 0
      history.take (trim context history first cut)

variable {boundary context} {front back history : List α} {start : α}

/-! ## Places -/

theorem positions_append (front back : List α) : positions boundary (front ++ back) =
      positions boundary front ++ (positions boundary back).map (front.length + ·) := by
  unfold positions
  rw [zipIdx_append, filterMap_append, map_filterMap]
  congr 1
  rw [Nat.zero_add, zipIdx_eq_map_add, filterMap_map]
  refine filterMap_congr fun x _ => ?_
  simp only [Function.comp]
  split
  next => rw [Option.map_some, Nat.add_comm]
  next => rfl

theorem positions_cons_of_pos (h : boundary start = true) (back : List α) :
    positions boundary (start :: back) = 0 :: (positions boundary back).map (1 + ·) := by
  have happend := @positions_append α boundary [start] back
  rw [singleton_append] at happend
  rw [happend]
  simp [positions, h]

theorem length_positions (history : List α) :
    (positions boundary history).length = history.countP boundary := by
  induction history using reverseRecOn with
  | nil => rfl
  | append_singleton history x ih =>
    rw [positions_append, length_append, length_map, ih, countP_append]
    congr 1
    by_cases h : boundary x = true
    · simp [positions, h]
    · simp [positions, h]

theorem positions_eq_nil_iff : positions boundary history = [] ↔ history.countP boundary = 0 := by
  rw [← length_positions, length_eq_zero_iff]

/-! ## What stays -/

theorem trim_eq_length (hbound : front.countP boundary ≠ 0)
    (hexclusive : ∀ x, context x = true → boundary x = false) {first : Nat}
    (hfirst : (positions boundary front).head? = some first) (back : List α) :
    (front ++ back).take (trim context (front ++ back) first front.length) =
      front.rdropWhile context := by
  induction front using reverseRecOn generalizing back with
  | nil => exact absurd rfl hbound
  | append_singleton front x ih =>
    have hget : (front ++ [x] ++ back)[front.length]? = some x := by simp
    rw [length_append, length_singleton, trim, hget, Option.any_some]
    by_cases hx : context x = true
    · -- context is no start of a turn, so one is before it
      have hnot : boundary x = false := hexclusive x hx
      have hsame : positions boundary (front ++ [x]) = positions boundary front := by
        rw [positions_append]
        simp [positions, hnot]
      rw [hsame] at hfirst
      have hcount : front.countP boundary ≠ 0 := by
        intro hzero
        rw [positions_eq_nil_iff.mpr hzero] at hfirst
        cases hfirst
      have hlt : first < front.length + 1 := by
        have hmem : first ∈ positions boundary front := mem_of_mem_head? hfirst
        obtain ⟨y, hy, hsome⟩ := mem_filterMap.mp hmem
        obtain ⟨-, ⟨⟩⟩ := Option.ite_none_right_eq_some.mp hsome
        have := mem_zipIdx hy
        omega
      rw [if_pos ⟨hlt, hx⟩, rdropWhile_concat_pos _ _ _ hx, append_assoc]
      exact ih hcount hfirst ([x] ++ back)
    · rw [if_neg fun h => hx h.2, rdropWhile_concat_neg _ _ _ hx]
      exact take_left' (by rw [length_append, length_singleton])

/-- The turn with so many turns from it on. -/
theorem exists_turn {count : Nat} (hcount : 0 < count) (h : count ≤ history.countP boundary) :
    ∃ before start after, history = before ++ start :: after ∧ boundary start = true ∧
      after.countP boundary + 1 = count := by
  induction history using reverseRecOn generalizing count with
  | nil => exact absurd h (by simp; omega)
  | append_singleton history x ih =>
    rw [countP_append, countP_singleton] at h
    by_cases hx : boundary x = true
    · by_cases hone : count = 1
      · exact ⟨history, x, [], rfl, hx, by rw [hone]; rfl⟩
      · rw [if_pos hx] at h
        obtain ⟨before, start, after, rfl, hstart, hafter⟩ := @ih (count - 1) (by omega) (by omega)
        refine ⟨before, start, after ++ [x], by simp, hstart, ?_⟩
        rw [countP_append, countP_singleton, if_pos hx]
        omega
    · rw [if_neg hx, Nat.add_zero] at h
      obtain ⟨before, start, after, rfl, hstart, hafter⟩ := ih hcount h
      refine ⟨before, start, after ++ [x], by simp, hstart, ?_⟩
      rw [countP_append, countP_singleton, if_neg hx, Nat.add_zero, hafter]

/-- The first turn of a history that has one. -/
theorem exists_first (h : history.countP boundary ≠ 0) :
    ∃ before start after, history = before ++ start :: after ∧ boundary start = true ∧
      before.countP boundary = 0 := by
  obtain ⟨before, start, after, rfl, hstart, hafter⟩ := exists_turn (Nat.pos_of_ne_zero h) le_rfl
  rw [countP_append, countP_cons_of_pos hstart] at hafter
  exact ⟨before, start, after, rfl, hstart, by omega⟩

theorem takeWhile_of_first {before after : List α} (hstart : boundary start = true)
    (hbefore : before.countP boundary = 0) :
    (before ++ start :: after).takeWhile (fun x => !boundary x) = before := by
  have hall : ∀ x ∈ before, (!boundary x) = true := by
    intro x hx
    have := (countP_eq_zero.mp hbefore) x hx
    simpa using this
  rw [takeWhile_append_of_pos hall, takeWhile_cons_of_neg (by simp [hstart]), append_nil]

theorem trim_first (history : List α) (first : Nat) : trim context history first first = first := by
  cases first with
  | zero => rfl
  | succ first => rw [trim, if_neg fun h => lt_irrefl _ h.1]

/-- **More turns than there are**: what is before the first stays. -/
theorem dropTurns_of_le {count : Nat} (hcount : 0 < count) (h : history.countP boundary ≤ count) :
    dropTurns boundary context history count = history.takeWhile fun x => !boundary x := by
  unfold dropTurns
  rw [if_neg (by omega)]
  by_cases hzero : history.countP boundary = 0
  · rw [positions_eq_nil_iff.mpr hzero]
    refine (takeWhile_eq_self_iff.mpr fun x hx => ?_).symm
    have := (countP_eq_zero.mp hzero) x hx
    simpa using this
  · obtain ⟨before, start, after, rfl, hstart, hbefore⟩ := exists_first hzero
    have hfirst : (positions boundary (before ++ start :: after)).head? = some before.length := by
      rw [positions_append, positions_eq_nil_iff.mpr hbefore, positions_cons_of_pos hstart]
      rfl
    rw [hfirst]
    dsimp only
    rw [length_positions, if_pos h, trim_first, takeWhile_of_first hstart hbefore, take_left]

/-- The place of the turn with so many turns from it on. -/
theorem getD_positions (hstart : boundary start = true) :
    (positions boundary (front ++ start :: back)).getD
      ((front ++ start :: back).countP boundary - (back.countP boundary + 1)) 0 = front.length := by
  rw [countP_append, countP_cons_of_pos hstart, Nat.add_sub_cancel, positions_append,
    getD_append_right _ _ _ _ (by rw [length_positions]), length_positions, Nat.sub_self,
    positions_cons_of_pos hstart, map_cons, getD_cons_zero, Nat.add_zero]

/-- **Cutting between turns**: the items before the cut stay, but for the context at their end. -/
theorem dropTurns_append (hexclusive : ∀ x, context x = true → boundary x = false)
    (hstart : boundary start = true) (hfront : front.countP boundary ≠ 0) :
    dropTurns boundary context (front ++ start :: back) (back.countP boundary + 1) =
      front.rdropWhile context := by
  unfold dropTurns
  rw [if_neg (by omega)]
  cases hfirst : (positions boundary front).head? with
  | none => exact absurd (positions_eq_nil_iff.mp (head?_eq_none_iff.mp hfirst)) hfront
  | some first =>
    have hhead : (positions boundary (front ++ start :: back)).head? = some first := by
      rw [positions_append, head?_append, hfirst]
      rfl
    have hmore : ¬ back.countP boundary + 1 ≥ (front ++ start :: back).countP boundary := by
      rw [countP_append, countP_cons_of_pos hstart]
      omega
    rw [hhead]
    dsimp only
    rw [length_positions, if_neg hmore, getD_positions hstart]
    exact trim_eq_length hfront hexclusive hfirst (start :: back)

/-- The cut is determined by the number of turns behind it. -/
theorem cut_unique {front' back' : List α} {start' : α} (hstart : boundary start = true)
    (hstart' : boundary start' = true) (hcount : back.countP boundary = back'.countP boundary)
    (h : front ++ start :: back = front' ++ start' :: back') :
    front = front' ∧ start = start' ∧ back = back' := by
  wlog hle : front.length ≤ front'.length generalizing front front' start start' back back' with hother
  · obtain ⟨hfront, hsame, hback⟩ := hother hstart' hstart hcount.symm h.symm (Nat.le_of_not_le hle)
    exact ⟨hfront.symm, hsame.symm, hback.symm⟩
  obtain ⟨between, rfl⟩ : front <+: front' :=
    prefix_of_prefix_length_le ⟨_, h⟩ (prefix_append _ _) hle
  rw [append_assoc, append_cancel_left_eq] at h
  cases between with
  | nil =>
    cases h
    exact ⟨(append_nil front).symm, rfl, rfl⟩
  | cons x between =>
    cases h
    rw [append_eq, countP_append, countP_cons_of_pos hstart'] at hcount
    omega

/-- The last turn of a history that has one. -/
theorem exists_last (h : history.countP boundary ≠ 0) :
    ∃ before start after, history = before ++ start :: after ∧ boundary start = true ∧
      after.countP boundary = 0 := by
  obtain ⟨before, start, after, hhistory, hstart, hafter⟩ :=
    @exists_turn α boundary history 1 Nat.one_pos (Nat.pos_of_ne_zero h)
  exact ⟨before, start, after, hhistory, hstart, by omega⟩

/-- What is behind the last start of a turn. -/
theorem rtakeWhile_of_last (hstart : boundary start = true) (hback : back.countP boundary = 0) :
    (front ++ start :: back).rtakeWhile (fun x => !boundary x) = back := by
  induction back using reverseRecOn with
  | nil => exact rtakeWhile_concat_neg _ _ _ (by simp [hstart])
  | append_singleton back x ih =>
    rw [countP_append, Nat.add_eq_zero_iff] at hback
    have hx : ¬ boundary x = true := countP_eq_zero.mp hback.2 x (mem_singleton.mpr rfl)
    have hsplit : front ++ start :: (back ++ [x]) = (front ++ start :: back) ++ [x] := by simp
    rw [hsplit, rtakeWhile_concat_pos _ _ _ (by simpa using hx), ih hback.1]

/-- The context at the end of a turn, and no more than that turn. -/
theorem rdropWhile_of_last (hexclusive : ∀ x, context x = true → boundary x = false)
    (hstart : boundary start = true) (back : List α) :
    (front ++ start :: back).rdropWhile context = front ++ start :: back.rdropWhile context := by
  induction back using reverseRecOn with
  | nil =>
    refine rdropWhile_concat_neg _ _ _ fun hcontext => ?_
    rw [hexclusive start hcontext] at hstart
    cases hstart
  | append_singleton back x ih =>
    have hsplit : front ++ start :: (back ++ [x]) = (front ++ start :: back) ++ [x] := by simp
    rw [hsplit]
    by_cases hx : context x = true
    · rw [rdropWhile_concat_pos _ _ _ hx, rdropWhile_concat_pos _ _ _ hx, ih]
    · rw [rdropWhile_concat_neg _ _ _ hx, rdropWhile_concat_neg _ _ _ hx, hsplit]

/-- What holds of an item and of those behind it, by the places where a history can be split. -/
theorem pairwise_iff_split {r : α → α → Prop} :
    history.Pairwise r ↔ ∀ before x after, history = before ++ x :: after → ∀ y ∈ after, r x y := by
  constructor
  · rintro h before x after rfl
    exact (pairwise_cons.mp (pairwise_append.mp h).2.1).1
  · intro h
    induction history with
    | nil => exact .nil
    | cons x history ih =>
      refine pairwise_cons.mpr ⟨h [] x history rfl, ih fun before y after hsplit => ?_⟩
      exact h (x :: before) y after (by rw [hsplit, cons_append])

/-- All context is at the end if what is before the context at the end is what is not context. -/
theorem filter_eq_rdropWhile_iff :
    history.filter (fun x => !context x) = history.rdropWhile context ↔
      history.Pairwise fun x y => context x = true → context y = true := by
  induction history using reverseRecOn with
  | nil => simp
  | append_singleton history z ih =>
    rw [filter_append, pairwise_append]
    by_cases hz : context z = true
    · rw [rdropWhile_concat_pos _ _ _ hz]
      simp [hz, ih]
    · rw [rdropWhile_concat_neg _ _ _ hz]
      simp only [filter_cons, hz, Bool.not_false, if_true, filter_nil, append_left_inj, filter_eq_self]
      constructor
      · intro h
        have hplain : ∀ x ∈ history, ¬ context x = true := fun x hx => by simpa using h x hx
        exact ⟨pairwise_of_forall_mem_list fun x hx _ _ hcontext => absurd hcontext (hplain x hx),
          pairwise_singleton _ _, fun x hx _ _ hcontext => absurd hcontext (hplain x hx)⟩
      · rintro ⟨-, -, h⟩ x hx
        by_contra hcontext
        exact hz (h x hx z (mem_singleton_self z) (by simpa using hcontext))

/-! ## Cutting with all context of a turn

Another cut drops with a turn all context of the turn before it, wherever it stands there. -/

variable (boundary context) in
/-- The history without its last turns, and without the context of the turn that is then the last. -/
def dropTurnsWithContext (history : List α) (count : Nat) : List α :=
  if count = 0 then history
  else if history.countP boundary ≤ count then history.takeWhile fun x => !boundary x
  else
    let front := history.take ((positions boundary history).getD (history.countP boundary - count) 0)
    front.rdropWhile (fun x => !boundary x) ++
      (front.rtakeWhile fun x => !boundary x).filter fun x => !context x

/-- The part of a history before its last turns. -/
theorem take_position (hstart : boundary start = true) : (front ++ start :: back).take
        ((positions boundary (front ++ start :: back)).getD
          ((front ++ start :: back).countP boundary - (back.countP boundary + 1)) 0) = front := by
  rw [getD_positions hstart, take_left]

/-- **What this cut keeps**: of the last turn, what is not context. -/
theorem dropTurnsWithContext_append {last : α} {turn : List α} (hlast : boundary last = true)
    (hturn : turn.countP boundary = 0) (hstart : boundary start = true) :
    dropTurnsWithContext boundary context (front ++ last :: turn ++ start :: back)
        (back.countP boundary + 1) =
      front ++ last :: turn.filter fun x => !context x := by
  have hcount : ¬ (front ++ last :: turn ++ start :: back).countP boundary ≤ back.countP boundary + 1 := by
    rw [countP_append, countP_append, countP_cons_of_pos hlast, countP_cons_of_pos hstart]
    omega
  have htake : (front ++ last :: turn).rtakeWhile (fun x => !boundary x) = turn :=
    rtakeWhile_of_last hlast hturn
  have hdrop : (front ++ last :: turn).rdropWhile (fun x => !boundary x) = front ++ [last] := by
    have happend :=
      @rdropWhile_append_rtakeWhile α (fun x => !boundary x) (front ++ last :: turn)
    rw [htake] at happend
    refine append_cancel_right (happend.trans ?_)
    simp
  unfold dropTurnsWithContext
  rw [if_neg (by omega), if_neg hcount]
  dsimp only
  rw [take_position hstart, htake, hdrop, append_assoc, singleton_append]

/-- **The two cuts are the same** exactly if the context of the turn before the cut stands at its end. -/
theorem dropTurnsWithContext_eq_iff (hexclusive : ∀ x, context x = true → boundary x = false)
    (history : List α) (count : Nat) :
    dropTurnsWithContext boundary context history count = dropTurns boundary context history count ↔
      ∀ before x between start back, history = before ++ x :: between ++ start :: back →
        boundary start = true → back.countP boundary + 1 = count → before.countP boundary ≠ 0 →
        context x = true → between.countP boundary = 0 → ∀ y ∈ between, context y = true := by
  by_cases hzero : count = 0
  · refine iff_of_true ?_ ?_
    · rw [dropTurnsWithContext, dropTurns, if_pos hzero, if_pos hzero]
    · intro before x between start back _ _ hcount
      omega
  by_cases hle : history.countP boundary ≤ count
  · refine iff_of_true ?_ ?_
    · rw [dropTurnsWithContext, if_neg hzero, if_pos hle, dropTurns_of_le (by omega) hle]
    · -- a turn before the cut would make more turns than are dropped
      intro before x between start back hhistory hstart hcount hbefore
      rw [hhistory, countP_append, countP_append, countP_cons_of_pos hstart] at hle
      omega
  · obtain ⟨front, start, back, rfl, hstart, hback⟩ :=
      exists_turn (Nat.pos_of_ne_zero hzero) (Nat.le_of_not_le hle)
    have hfront : front.countP boundary ≠ 0 := by
      rw [countP_append, countP_cons_of_pos hstart] at hle
      omega
    obtain ⟨earlier, last, turn, rfl, hlast, hturn⟩ := exists_last hfront
    subst hback
    rw [dropTurnsWithContext_append hlast hturn hstart, dropTurns_append hexclusive hstart hfront,
      rdropWhile_of_last hexclusive hlast, append_cancel_left_eq, cons.injEq,
      filter_eq_rdropWhile_iff, pairwise_iff_split]
    constructor
    · rintro ⟨-, h⟩ before x between start' back' hhistory hstart' hcount hbefore hx hbetween
      obtain ⟨hsame, -, -⟩ := cut_unique hstart hstart' (by omega) hhistory
      have hxplain : ¬ boundary x = true := by
        rw [hexclusive x hx]
        exact Bool.false_ne_true
      -- the last turn starts before the context, so the context is in it
      obtain ⟨first, start'', after, hsplit, hstart'', hafter⟩ := exists_last hbefore
      subst hsplit
      have hshape : first ++ start'' :: after ++ x :: between =
          first ++ start'' :: (after ++ x :: between) := by simp
      rw [hshape] at hsame
      have hnone : (after ++ x :: between).countP boundary = 0 := by
        rw [countP_append, countP_cons_of_neg hxplain, hafter, hbetween]
      obtain ⟨-, -, hmiddle⟩ := cut_unique hlast hstart'' (by rw [hturn, hnone]) hsame
      exact fun y hy => h after x between hmiddle y hy hx
    · intro h
      refine ⟨rfl, ?_⟩
      intro before x after hsplit y hy hx
      have hnone : after.countP boundary = 0 := by
        rw [hsplit, countP_append, countP_cons] at hturn
        omega
      refine h (earlier ++ last :: before) x after start back ?_ hstart rfl ?_ hx hnone y hy
      · rw [hsplit]
        simp
      · rw [countP_append, countP_cons_of_pos hlast]
        omega

/-! ## Items with something attached -/

theorem positions_map (f : β → α) (history : List β) :
    positions (boundary ∘ f) history = positions boundary (history.map f) := by
  unfold positions
  rw [zipIdx_map, filterMap_map]
  rfl

theorem dropTurnsWithContext_map (f : β → α) (history : List β) (count : Nat) :
    (dropTurnsWithContext (boundary ∘ f) (context ∘ f) history count).map f =
      dropTurnsWithContext boundary context (history.map f) count := by
  have hcount : history.countP (boundary ∘ f) = (history.map f).countP boundary := by
    rw [countP_map]
  unfold dropTurnsWithContext
  rw [hcount, positions_map]
  split
  next => rfl
  next =>
    split
    next => rw [takeWhile_map]; rfl
    next =>
      dsimp only
      rw [map_append, ← map_take, rdropWhile, rdropWhile, rtakeWhile,
        rtakeWhile, ← map_reverse, dropWhile_map, takeWhile_map,
        ← map_reverse, ← map_reverse, filter_map]
      rfl

/-! ## Who owns an item

The starts of turns have names, here a stack with the first one at the front. An item belongs to the turn
it is in, but an item of context goes with the next turn if there is one, unless it is before the first. -/

section Owners

variable {κ : Type*}

variable (boundary context) in
/-- The owners of the items of a history, from inside a turn on and with the names of the starts to come. -/
def owners : Option κ → List κ → List α → List (Option κ)
  | _, _, [] => []
  | current, stack, x :: history =>
    if boundary x then stack.head? :: owners stack.head? stack.tail history
    else
      (if context x ∧ current.isSome then stack.head?.or current else current) ::
        owners current stack history

variable (current : Option κ)

theorem length_owners (stack : List κ) (history : List α) :
    (owners boundary context current stack history).length = history.length := by
  induction history generalizing current stack with
  | nil => rfl
  | cons x history ih =>
    rw [owners]
    split
    next => rw [length_cons, ih, length_cons]
    next => rw [length_cons, ih, length_cons]

/-- Inside one turn. -/
theorem owners_of_no_boundary (stack : List κ) (h : history.countP boundary = 0) :
    owners boundary context current stack history =
      history.map fun x => if context x ∧ current.isSome then stack.head?.or current else current := by
  induction history with
  | nil => rfl
  | cons x history ih =>
    have hx : ¬ boundary x = true := countP_eq_zero.mp h x mem_cons_self
    rw [countP_cons_of_neg hx] at h
    rw [owners, if_neg hx, ih h, map_cons]

theorem owners_append {stack : List κ} (later : List κ) (h : front.countP boundary = stack.length) :
    owners boundary context current (stack ++ later) (front ++ back) =
      owners boundary context current (stack ++ later) front ++
        owners boundary context (stack.getLast?.or current) later back := by
  induction front generalizing current stack with
  | nil =>
    have hnil : stack = [] := length_eq_zero_iff.mp h.symm
    rw [hnil]
    rfl
  | cons x front ih =>
    rw [cons_append, owners, owners]
    by_cases hx : boundary x = true
    · rw [countP_cons_of_pos hx] at h
      cases stack with
      | nil => cases h
      | cons b stack =>
        rw [if_pos hx, if_pos hx, cons_append, head?_cons, tail_cons,
          ih (some b) (Nat.succ.inj h), cons_append, getLast?_cons]
        congr 3
        cases stack.getLast? with
        | none => rfl
        | some b' => rfl
    · rw [countP_cons_of_neg hx] at h
      rw [if_neg hx, if_neg hx, ih current h, cons_append]

/-- Up to the start of a turn, the turns behind it do not matter. -/
theorem owners_concat_start {stack : List κ} (later : List κ)
    (hstart : boundary start = true) (h : front.countP boundary + 1 = stack.length) :
    owners boundary context current (stack ++ later) (front ++ [start]) =
      owners boundary context current stack (front ++ [start]) := by
  induction front generalizing current stack with
  | nil =>
    cases stack with
    | nil => cases h
    | cons b stack => simp [owners, hstart]
  | cons x front ih =>
    cases stack with
    | nil => cases h
    | cons b stack =>
      rw [@cons_append _ x front, owners, owners]
      by_cases hx : boundary x = true
      · rw [countP_cons_of_pos hx] at h
        rw [if_pos hx, if_pos hx, cons_append, head?_cons, tail_cons, head?_cons,
          tail_cons, ih (some b) (Nat.succ.inj h)]
      · rw [countP_cons_of_neg hx] at h
        rw [if_neg hx, if_neg hx, ih current h]
        rfl

/-- **The owners up to the end of a turn**: only the context in it depends on whether a turn follows. -/
theorem owners_last_turn {stack : List κ} (later : List κ) (hstart : boundary start = true)
    (hfront : front.countP boundary + 1 = stack.length) (hback : back.countP boundary = 0) :
    owners boundary context none (stack ++ later) (front ++ start :: back) =
      owners boundary context none stack (front ++ [start]) ++
        back.map fun x => if context x then later.head?.or stack.getLast? else stack.getLast? := by
  have hsplit : front ++ start :: back = (front ++ [start]) ++ back := by simp
  have hcount : (front ++ [start]).countP boundary = stack.length := by
    rw [countP_append, countP_singleton, if_pos hstart, hfront]
  have htop : stack.getLast?.isSome = true := by
    cases stack with
    | nil => cases hfront
    | cons b stack => rw [getLast?_cons, Option.isSome_some]
  rw [hsplit, owners_append none later hcount, owners_concat_start none later hstart hfront,
    Option.or_none, owners_of_no_boundary _ _ hback]
  simp [htop]

/-- Behind the last turn that has a name, the items go to the last one. -/
theorem owners_concat {stack : List κ} (h : history.countP boundary = stack.length)
    (hback : back.countP boundary = 0) :
    owners boundary context none stack (history ++ back) =
      owners boundary context none stack history ++ back.map fun _ => stack.getLast? := by
  have happend := @owners_append α boundary context history back κ none stack [] h
  rw [append_nil] at happend
  rw [happend, Option.or_none, owners_of_no_boundary _ _ hback]
  simp

/-- An owner is the turn at the beginning or one of the names. -/
theorem mem_owners {current : Option κ} {stack : List κ} (h : history.countP boundary ≤ stack.length)
    {owner : Option κ} (howner : owner ∈ owners boundary context current stack history) :
    owner = current ∨ ∃ b ∈ stack, owner = some b := by
  induction history generalizing current stack with
  | nil => cases howner
  | cons x history ih =>
    rw [owners] at howner
    by_cases hx : boundary x = true
    · rw [countP_cons_of_pos hx] at h
      cases stack with
      | nil => cases h
      | cons b stack =>
        rw [if_pos hx, head?_cons, tail_cons, mem_cons] at howner
        rcases howner with howner | howner
        · exact .inr ⟨b, mem_cons_self, howner⟩
        · rcases ih (Nat.le_of_succ_le_succ h) howner with hcurrent | ⟨b', hb', howner⟩
          · exact .inr ⟨b, mem_cons_self, hcurrent⟩
          · exact .inr ⟨b', mem_cons_of_mem b hb', howner⟩
    · rw [countP_cons_of_neg hx] at h
      rw [if_neg hx, mem_cons] at howner
      rcases howner with howner | howner
      · split at howner
        next =>
          cases stack with
          | nil => exact .inl howner
          | cons b stack => exact .inr ⟨b, mem_cons_self, howner⟩
        next => exact .inl howner
      · exact ih h howner

/-! If the owners from some name on die, the items that are left are those of a cut. -/

variable {f : α → Option κ}

/-- No name is left: the items before the first turn have no owner. -/
theorem filter_unowned {stack : List κ} (hcount : history.countP boundary = stack.length)
    (howned : history.map f = owners boundary context none stack history) :
    history.filter (fun x => (f x).isNone) = history.takeWhile fun x => !boundary x := by
  induction history with
  | nil => rfl
  | cons x history ih =>
    rw [owners, map_cons] at howned
    by_cases hx : boundary x = true
    · rw [countP_cons_of_pos hx] at hcount
      cases stack with
      | nil => cases hcount
      | cons b stack =>
        rw [if_pos hx, head?_cons, tail_cons, cons.injEq] at howned
        rw [takeWhile_cons_of_neg (by simp [hx]), filter_eq_nil_iff]
        intro y hy
        rcases mem_cons.mp hy with rfl | hy
        · simp [howned.1]
        · have hmem : f y ∈ owners boundary context (some b) stack history := by
            rw [← howned.2]
            exact mem_map_of_mem hy
          rcases mem_owners (le_of_eq (Nat.succ.inj hcount)) hmem with howner | ⟨b', -, howner⟩
          · simp [howner]
          · simp [howner]
    · rw [countP_cons_of_neg hx] at hcount
      rw [if_neg hx, Option.isSome_none, cons.injEq] at howned
      have hnone : f x = none := by simpa using howned.1
      rw [filter_cons_of_pos (by simp [hnone]), takeWhile_cons_of_pos (by simp [hx]),
        ih hcount howned.2]

theorem owners_takeWhile {stack : List κ} (hcount : history.countP boundary = stack.length)
    (howned : history.map f = owners boundary context none stack history) :
    (history.takeWhile fun x => !boundary x).map f =
      owners boundary context none ([] : List κ) (history.takeWhile fun x => !boundary x) := by
  have hnone : (history.takeWhile fun x => !boundary x).countP boundary = 0 := by
    refine countP_eq_zero.mpr fun x hx => ?_
    simpa using mem_takeWhile_imp hx
  rw [owners_of_no_boundary _ _ hnone]
  refine map_congr_left fun x hx => ?_
  rw [← filter_unowned hcount howned] at hx
  simpa using (mem_filter.mp hx).2

/-- **Some names are left**: the items of their turns are left, but not the context of the last of them,
which goes with the next. -/
theorem filter_owned [DecidableEq κ] {last : α} {turn : List α} {stack removed : List κ} {b : κ}
    (hlast : boundary last = true) (hturn : turn.countP boundary = 0) (hstart : boundary start = true)
    (hfront : front.countP boundary + 1 = stack.length) (hback : back.countP boundary = removed.length)
    (hnodup : (stack ++ b :: removed).Nodup)
    (howned : (front ++ last :: turn ++ start :: back).map f =
      owners boundary context none (stack ++ b :: removed) (front ++ last :: turn ++ start :: back)) :
    (front ++ last :: turn ++ start :: back).filter (fun x => (f x).all (· ∈ stack)) =
        front ++ last :: turn.filter (fun x => !context x) ∧
      (front ++ last :: turn.filter fun x => !context x).map f =
        owners boundary context none stack (front ++ last :: turn.filter fun x => !context x) := by
  have hcount : (front ++ last :: turn).countP boundary = stack.length := by
    rw [countP_append, countP_cons_of_pos hlast, hturn]
    exact hfront
  have hdead : ∀ b' ∈ b :: removed, b' ∉ stack :=
    fun b' hb' hmem => (nodup_append.mp hnodup).2.2 b' hmem b' hb' rfl
  have hsplit : front ++ last :: turn = (front ++ [last]) ++ turn := by simp
  -- the owners of the three parts
  rw [owners_append none (b :: removed) hcount, owners_last_turn (b :: removed) hlast hfront hturn,
    map_append, hsplit, map_append] at howned
  obtain ⟨hleft, hright⟩ := append_inj' howned (by rw [length_map, length_owners])
  obtain ⟨hearlier, hmiddle⟩ := append_inj' hleft (by rw [length_map, length_map])
  have hlater : ∀ x ∈ start :: back, ∃ b' ∈ b :: removed, f x = some b' := by
    intro x hx
    have hmem : f x ∈ some b :: owners boundary context (some b) removed back := by
      have hunfold : owners boundary context (stack.getLast?.or none) (b :: removed) (start :: back) =
          some b :: owners boundary context (some b) removed back := by
        rw [owners, if_pos hstart]
        rfl
      rw [← hunfold, ← hright]
      exact mem_map_of_mem hx
    rcases mem_cons.mp hmem with howner | hmem
    · exact ⟨b, mem_cons_self, howner⟩
    · rcases mem_owners (le_of_eq hback) hmem with howner | ⟨b', hb', howner⟩
      · exact ⟨b, mem_cons_self, howner⟩
      · exact ⟨b', mem_cons_of_mem b hb', howner⟩
  have hplain : ∀ x ∈ turn, f x = if context x = true then some b else stack.getLast? := by
    intro x hx
    exact map_inj_left.mp hmiddle x hx
  have hkeepEarlier : (front ++ [last]).filter (fun x => (f x).all (· ∈ stack)) = front ++ [last] := by
    refine filter_eq_self.mpr fun x hx => ?_
    have hmem : f x ∈ owners boundary context none stack (front ++ [last]) := by
      rw [← hearlier]
      exact mem_map_of_mem hx
    have hle : (front ++ [last]).countP boundary ≤ stack.length := by
      rw [countP_append, countP_singleton, if_pos hlast, hfront]
    rcases mem_owners hle hmem with howner | ⟨b', hb', howner⟩
    · rw [howner]
      rfl
    · rw [howner]
      exact decide_eq_true hb'
  have hkeepMiddle : turn.filter (fun x => (f x).all (· ∈ stack)) = turn.filter fun x => !context x := by
    refine filter_congr fun x hx => ?_
    rw [hplain x hx]
    by_cases hcontext : context x = true
    · rw [if_pos hcontext, hcontext]
      exact decide_eq_false (hdead b mem_cons_self)
    · rw [if_neg hcontext, Bool.not_eq_true _ |>.mp hcontext]
      exact (Option.all_eq_true _ _).mpr fun b' hb' => decide_eq_true (mem_of_getLast? hb')
  have hkeepLater : (start :: back).filter (fun x => (f x).all (· ∈ stack)) = [] := by
    refine filter_eq_nil_iff.mpr fun x hx => ?_
    obtain ⟨b', hb', howner⟩ := hlater x hx
    rw [howner, Option.all_some, decide_eq_true_iff]
    exact hdead b' hb'
  constructor
  · rw [filter_append, hsplit, filter_append, hkeepEarlier, hkeepMiddle, hkeepLater,
      append_nil, append_assoc, singleton_append]
  · have hrest : (turn.filter fun x => !context x).countP boundary = 0 := by
      refine countP_eq_zero.mpr fun x hx => ?_
      exact countP_eq_zero.mp hturn x (mem_of_mem_filter hx)
    have hafter := @owners_last_turn _ boundary context front (turn.filter fun x => !context x) last _
      stack [] hlast hfront hrest
    rw [append_nil] at hafter
    have hsplit' : front ++ last :: (turn.filter fun x => !context x) =
        (front ++ [last]) ++ turn.filter fun x => !context x := by simp
    rw [hafter, hsplit', map_append, hearlier]
    congr 1
    refine map_congr_left fun x hx => ?_
    obtain ⟨hmem, hcontext⟩ := mem_filter.mp hx
    have hfalse : context x = false := by simpa using hcontext
    rw [hplain x hmem, hfalse]
    rfl

end Owners

end NovumAgent.Turns
