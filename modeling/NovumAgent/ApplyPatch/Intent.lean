import NovumAgent.ApplyPatch.Calm
import NovumAgent.ApplyPatch.Verify

/-!
# What the hunks of a patch mean

Taken by itself, on the files as they are, a hunk has an intent: the text it leaves at a path, the
path it clears, or both. The intents of a patch are what its verification describes. Carrying them
out is another matter, since each starts from what the ones before it left. This module says when
the two agree: exactly when the intents are *orderly*.

Here the files are a map from paths to texts, and an intent is carried out on it without any of the
steps the code takes to get there.
-/

namespace NovumAgent.ApplyPatch

open List Option Function

variable {P : Type} [DecidableEq P]

/-- What a hunk is for, on the files as they are: `new` is the text it makes of the file it starts
from. -/
inductive Intent (P : Type) where
  | add (path : P) (content : Text)
  | delete (path : P)
  | update (path : P) (chunks : List UpdateFileChunk) (new : Text)
  | move (path dest : P) (chunks : List UpdateFileChunk) (new : Text)
deriving DecidableEq, Repr

namespace Intent

/-- The path the hunk is about. -/
def path : Intent P → P
  | .add path _ | .delete path | .update path _ _ | .move path _ _ _ => path

/-- The text it leaves, and where. -/
def leaves : Intent P → Option (P × Text)
  | .add path content => some (path, content)
  | .delete _ => none
  | .update path _ new => some (path, new)
  | .move _ dest _ new => some (dest, new)

/-- The path it clears. -/
def clears : Intent P → Option P
  | .add _ _ | .update _ _ _ => none
  | .delete path => some path
  | .move path dest _ _ => if dest = path then none else some path

/-- It moves a file to this path. -/
def LandsOn (q : P) : Intent P → Prop
  | .move _ dest _ _ => dest = q
  | _ => False

/-- It takes the file it starts from as these files have it. -/
def Fits (texts : Texts P) : Intent P → Prop
  | .add _ _ => True
  | .delete path => (texts path).isSome
  | .update path chunks new | .move path _ chunks new =>
    ∃ old, texts path = some old ∧ deriveNewContents old chunks = .ok new

/-- The files are as the intent wants them. -/
def Holds (texts : Texts P) (i : Intent P) : Prop :=
  (∀ q content, i.leaves = some (q, content) → texts q = some content) ∧
    ∀ q, i.clears = some q → texts q = none

/-- What the chunks make of the file at a path. -/
def derived (texts : Texts P) (path : P) (chunks : List UpdateFileChunk) : Option Text :=
  (texts path).bind fun old => (deriveNewContents old chunks).toOption

/-- Carrying an intent out: an update starts from what is there now. -/
def act (texts : Texts P) : Intent P → Option (Texts P)
  | .add path content => some (Function.update texts path (some content))
  | .delete path => if (texts path).isSome then some (Function.update texts path none) else none
  | .update path chunks _ =>
    (derived texts path chunks).map fun new => Function.update texts path (some new)
  | .move path dest chunks _ =>
    (derived texts path chunks).map fun new =>
      Function.update (Function.update texts dest (some new)) path none

/-- Carrying out one after another. -/
def run : List (Intent P) → Texts P → Option (Texts P)
  | [], texts => some texts
  | i :: is, texts => (i.act texts).bind (run is)

/-! ## Orderly intents -/

/-- An update that starts where an earlier move landed: its chunks fit what was moved there as well
and make the same of it, unless a later move lands there again. A move of a file onto itself removes
it, so that what its chunks make does not matter. -/
def Again (later : List (Intent P)) : Intent P → Prop
  | .update path chunks new =>
    ∃ text, deriveNewContents new chunks = .ok text ∧ (text = new ∨ ∃ k ∈ later, k.LandsOn path)
  | .move path dest chunks new =>
    dest = path → ∃ text, deriveNewContents new chunks = .ok text
  | _ => True

/-- No two intents leave different texts at a path, and none clears a path at which one leaves a
text. -/
structure Consistent (is : List (Intent P)) : Prop where
  agree : ∀ a ∈ is, ∀ b ∈ is, ∀ q x y, a.leaves = some (q, x) → b.leaves = some (q, y) → x = y
  kept : ∀ a ∈ is, ∀ b ∈ is, ∀ q x, a.leaves = some (q, x) → b.clears ≠ some q

/-- **The intents of a patch that means what it does.** There is one at least; they are consistent;
a file moved onto itself, which removes it, is moved there again later; and an update that starts
where an earlier move landed can be made there too. -/
structure Orderly (is : List (Intent P)) : Prop extends Consistent is where
  nonempty : is ≠ []
  again : ∀ before p chunks new later, is = before ++ .move p p chunks new :: later →
    ∃ k ∈ later, k.LandsOn p
  applies : ∀ before i later, is = before ++ i :: later → (∃ m ∈ before, m.LandsOn i.path) →
    i.Again later

/-! ## One intent carried out -/

variable {texts t t' : Texts P} {i o m : Intent P} {is before later : List (Intent P)} {q : P}
  {x y : Text}

omit [DecidableEq P] in
theorem derived_eq_some {path : P} {chunks : List UpdateFileChunk} :
    derived t path chunks = some x ↔
      ∃ old, t path = some old ∧ deriveNewContents old chunks = .ok x := by
  unfold derived
  cases t path with
  | none => simp
  | some old => cases h : deriveNewContents old chunks <;> simp [Except.toOption, h]

omit [DecidableEq P] in
theorem LandsOn.leaves (h : i.LandsOn q) : ∃ x, i.leaves = some (q, x) := by
  cases i with
  | move path dest chunks new => exact ⟨new, by rw [← show dest = q from h]; rfl⟩
  | add | delete | update => exact h.elim

omit [DecidableEq P] in
theorem path_or_landsOn (h : i.leaves = some (q, x)) : i.path = q ∨ i.LandsOn q := by
  cases i with
  | delete => cases h
  | add | update => cases h; exact .inl rfl
  | move => cases h; exact .inr rfl

theorem path_of_clears (h : i.clears = some q) : i.path = q := by
  cases i with
  | delete => cases h; rfl
  | add | update => cases h
  | move path dest chunks new =>
    obtain ⟨-, h⟩ := Option.ite_none_left_eq_some.mp h
    cases h; rfl

theorem clears_of_landsOn (h : i.LandsOn q) (hp : i.path ≠ q) : i.clears = some i.path := by
  cases i with
  | move path dest chunks new =>
    cases h
    exact if_neg (Ne.symm hp)
  | add | delete | update => exact h.elim

/-- **The frame of an intent**: its path and where it lands. -/
theorem act_frame (h : i.act t = some t') (hp : i.path ≠ q) (hl : ¬ i.LandsOn q) : t' q = t q := by
  have hp : q ≠ i.path := Ne.symm hp
  cases i with
  | add path content => cases h; exact update_of_ne hp ..
  | delete path =>
    simp only [act] at h
    split at h
    · cases h; exact update_of_ne hp ..
    · cases h
  | update path chunks new =>
    obtain ⟨text, _, rfl⟩ := map_eq_some_iff.mp h
    exact update_of_ne hp ..
  | move path dest chunks new =>
    obtain ⟨text, _, rfl⟩ := map_eq_some_iff.mp h
    have hd : q ≠ dest := fun hd => hl hd.symm
    exact (update_of_ne hp ..).trans (update_of_ne hd ..)

theorem act_landsOn (h : i.act t = some t') (hl : i.LandsOn q) (hp : i.path ≠ q)
    (hfits : i.Fits texts) (hsame : t i.path = texts i.path) (hx : i.leaves = some (q, x)) :
    t' q = some x := by
  cases i with
  | move path dest chunks new =>
    obtain ⟨rfl, rfl⟩ : dest = q ∧ new = x := by simpa [Intent.leaves] using hx
    obtain ⟨text, htext, rfl⟩ := map_eq_some_iff.mp h
    obtain ⟨old, hold, hnew⟩ := hfits
    have : derived t path chunks = some new := derived_eq_some.mpr ⟨old, hsame.trans hold, hnew⟩
    cases htext.symm.trans this
    exact (update_of_ne (Ne.symm hp) ..).trans (update_self ..)
  | add | delete | update => exact hl.elim

/-! ## Runs -/

theorem run_append (is js : List (Intent P)) (t : Texts P) :
    run (is ++ js) t = (run is t).bind (run js) := by
  induction is generalizing t with
  | nil => rfl
  | cons i is ih =>
    simp only [cons_append, run]
    cases i.act t with
    | none => rfl
    | some t' => exact ih t'

theorem run_concat_eq_some : run (is ++ [i]) t = some t' ↔
    ∃ u, run is t = some u ∧ i.act u = some t' := by
  rw [run_append, bind_eq_some_iff]
  simp only [run, bind_fun_some]

theorem run_frame (h : run is t = some t') (hp : ∀ i ∈ is, i.path ≠ q)
    (hl : ∀ i ∈ is, ¬ i.LandsOn q) : t' q = t q := by
  induction is generalizing t with
  | nil => cases h; rfl
  | cons i is ih =>
    obtain ⟨u, hu, hrun⟩ := bind_eq_some_iff.mp h
    obtain ⟨hpi, hps⟩ := forall_mem_cons.mp hp
    obtain ⟨hli, hls⟩ := forall_mem_cons.mp hl
    exact (ih hrun hps hls).trans (act_frame hu hpi hli)

/-- What is known of the paths that none of the intents so far is about: they are as they were, or
they hold what the moves that landed there were verified to leave. -/
structure Tracks (texts : Texts P) (before : List (Intent P)) (t : Texts P) : Prop where
  untouched : ∀ q, (∀ i ∈ before, i.path ≠ q) → (∀ i ∈ before, ¬ i.LandsOn q) → t q = texts q
  landed : ∀ q, (∀ i ∈ before, i.path ≠ q) → ∀ i ∈ before, ∀ x, i.leaves = some (q, x) →
    t q = some x

/-- What verification gives of the intents of a patch: each fits the files, and no two are about one
path. -/
structure Verified (texts : Texts P) (is : List (Intent P)) : Prop where
  fits : ∀ i ∈ is, i.Fits texts
  nodup : (is.map path).Nodup

omit [DecidableEq P] in
theorem Verified.path_ne (h : Verified texts (before ++ o :: later)) :
    ∀ i ∈ before, i.path ≠ o.path := by
  intro i hi heq
  have hnodup := h.nodup
  rw [map_append, map_cons] at hnodup
  exact (nodup_append.mp hnodup).2.2 _ (mem_map_of_mem hi) _ mem_cons_self heq

omit [DecidableEq P] in
theorem Verified.path_ne_later (h : Verified texts (before ++ o :: later)) :
    ∀ i ∈ later, i.path ≠ o.path := by
  intro i hi heq
  have hnodup := h.nodup
  rw [map_append, map_cons] at hnodup
  exact (nodup_cons.mp (nodup_append.mp hnodup).2.1).1 (heq ▸ mem_map_of_mem hi)

section

variable (htracks : Tracks texts before t) (hverified : Verified texts (before ++ o :: later))
  (hkept : Consistent (before ++ o :: later))
include htracks hverified hkept

theorem Tracks.same_of_clears (hclears : o.clears = some o.path) : t o.path = texts o.path := by
  refine htracks.untouched _ hverified.path_ne fun i hi hl => ?_
  obtain ⟨x, hx⟩ := hl.leaves
  exact hkept.kept i (mem_append_left _ hi) o (mem_append_right _ mem_cons_self) _ x hx hclears

theorem Tracks.act (h : o.act t = some t') : Tracks texts (before ++ [o]) t' := by
  have hmem : o ∈ before ++ o :: later := mem_append_right _ mem_cons_self
  constructor
  · intro q hp hl
    obtain ⟨hpo, hp⟩ := forall_mem_append.mp hp |>.symm
    obtain ⟨hlo, hl⟩ := forall_mem_append.mp hl |>.symm
    rw [act_frame h (hpo o mem_cons_self) (hlo o mem_cons_self)]
    exact htracks.untouched q hp hl
  · intro q hp i hi x hx
    obtain ⟨hpo, hp⟩ := forall_mem_append.mp hp |>.symm
    have hpo : o.path ≠ q := hpo o mem_cons_self
    have hi' : i ∈ before ++ o :: later := by
      rcases mem_append.mp hi with hi | hi
      · exact mem_append_left _ hi
      · exact mem_singleton.mp hi ▸ hmem
    by_cases hl : o.LandsOn q
    · -- the move lands on the path, with the text that all others leave there
      obtain ⟨y, hy⟩ := hl.leaves
      rw [hkept.agree i hi' o hmem q x y hx hy]
      have hsame := htracks.same_of_clears hverified hkept (clears_of_landsOn hl hpo)
      exact act_landsOn h hl hpo (hverified.fits o hmem) hsame hy
    · rw [act_frame h hpo hl]
      rcases mem_append.mp hi with hi | hi
      · exact htracks.landed q hp i hi x hx
      · cases mem_singleton.mp hi
        exact ((path_or_landsOn hx).elim hpo hl).elim

theorem Tracks.at_path (hx : o.leaves = some (o.path, x)) :
    t o.path = texts o.path ∨ (t o.path = some x ∧ ∃ m ∈ before, m.LandsOn o.path) := by
  by_cases hl : ∃ m ∈ before, m.LandsOn o.path
  · obtain ⟨m, hm, hland⟩ := hl
    obtain ⟨y, hy⟩ := hland.leaves
    have hxy : y = x := hkept.agree m (mem_append_left _ hm) o
      (mem_append_right _ mem_cons_self) _ y x hy hx
    exact .inr ⟨hxy ▸ htracks.landed _ hverified.path_ne m hm y hy, m, hm, hland⟩
  · exact .inl (htracks.untouched _ hverified.path_ne fun m hm hland => hl ⟨m, hm, hland⟩)

end

theorem tracks_run (hverified : Verified texts (before ++ later))
    (hkept : Consistent (before ++ later)) (h : run before texts = some t) :
    Tracks texts before t := by
  induction before using reverseRecOn generalizing t later with
  | nil => cases h; exact ⟨fun _ _ _ => rfl, fun _ _ _ hi => (not_mem_nil hi).elim⟩
  | append_singleton before o ih =>
    obtain ⟨u, hu, hact⟩ := run_concat_eq_some.mp h
    rw [append_assoc, singleton_append] at hverified hkept
    exact (ih hverified hkept hu).act hverified hkept hact

/-! ## Orderly intents are carried out -/

theorem leaves_or_clears (i : Intent P) :
    (∃ x, i.leaves = some (i.path, x)) ∨ i.clears = some i.path := by
  cases i with
  | add path content => exact .inl ⟨content, rfl⟩
  | delete path => exact .inr rfl
  | update path chunks new => exact .inl ⟨new, rfl⟩
  | move path dest chunks new =>
    by_cases h : dest = path
    · exact .inl ⟨new, by rw [h]; rfl⟩
    · exact .inr (if_neg h)

/-- **An orderly intent can be carried out**, and then it holds, save that a later move may have to
bring back the text it leaves at its own path. -/
theorem Tracks.act_settles (htracks : Tracks texts before t)
    (hverified : Verified texts (before ++ o :: later)) (hord : Orderly (before ++ o :: later)) :
    ∃ t', o.act t = some t' ∧ (∀ q, o.clears = some q → t' q = none) ∧
      ∀ q x, o.leaves = some (q, x) → t' q = some x ∨ (o.path = q ∧ ∃ k ∈ later, k.LandsOn q) := by
  have hkept := hord.toConsistent
  have hfits := hverified.fits o (mem_append_right _ mem_cons_self)
  cases o with
  | add path content =>
    refine ⟨_, rfl, nofun, fun q x hx => ?_⟩
    cases hx
    exact .inl (update_self ..)
  | delete path =>
    have hsame : t path = texts path := htracks.same_of_clears hverified hkept rfl
    have hsome : (t path).isSome := hsame ▸ hfits
    refine ⟨_, if_pos hsome, fun q hq => ?_, nofun⟩
    cases hq
    exact update_self ..
  | update path chunks new =>
    obtain ⟨text, htext, hdone⟩ : ∃ text, derived t path chunks = some text ∧
        (text = new ∨ ∃ k ∈ later, k.LandsOn path) := by
      rcases htracks.at_path hverified hkept rfl with hsame | ⟨hnew, hland⟩
      · obtain ⟨old, hold, hderive⟩ := hfits
        exact ⟨new, derived_eq_some.mpr ⟨old, hsame.trans hold, hderive⟩, .inl rfl⟩
      · obtain ⟨text, hderive, hdone⟩ := hord.applies _ _ _ rfl hland
        exact ⟨text, derived_eq_some.mpr ⟨new, hnew, hderive⟩, hdone⟩
    refine ⟨_, map_eq_some_iff.mpr ⟨text, htext, rfl⟩, nofun, fun q x hx => ?_⟩
    cases hx
    rcases hdone with rfl | hlater
    · exact .inl (update_self ..)
    · exact .inr ⟨rfl, hlater⟩
  | move path dest chunks new =>
    by_cases hself : dest = path
    · -- the file is removed again; what matters is that the chunks fit and a later move comes
      subst hself
      obtain ⟨text, htext⟩ : ∃ text, derived t dest chunks = some text := by
        rcases htracks.at_path hverified hkept rfl with hsame | ⟨hnew, hland⟩
        · obtain ⟨old, hold, hderive⟩ := hfits
          exact ⟨new, derived_eq_some.mpr ⟨old, hsame.trans hold, hderive⟩⟩
        · obtain ⟨text, hderive⟩ := hord.applies _ _ _ rfl hland rfl
          exact ⟨text, derived_eq_some.mpr ⟨new, hnew, hderive⟩⟩
      refine ⟨_, map_eq_some_iff.mpr ⟨text, htext, rfl⟩, fun q hq => ?_, fun q x hx => ?_⟩
      · simp [clears] at hq
      · cases hx
        exact .inr ⟨rfl, hord.again _ _ _ _ _ rfl⟩
    · have hsame := htracks.same_of_clears hverified hkept (if_neg hself)
      obtain ⟨old, hold, hderive⟩ := hfits
      have hnew : derived t path chunks = some new :=
        derived_eq_some.mpr ⟨old, hsame.trans hold, hderive⟩
      refine ⟨_, map_eq_some_iff.mpr ⟨new, hnew, rfl⟩, fun q hq => ?_, fun q x hx => ?_⟩
      · cases path_of_clears hq
        exact update_self ..
      · cases hx
        exact .inl ((update_of_ne hself ..).trans (update_self ..))

/-- The intents so far hold, save that a later move may have to bring back a text. -/
structure Settled (before later : List (Intent P)) (t : Texts P) : Prop where
  cleared : ∀ i ∈ before, ∀ q, i.clears = some q → t q = none
  left : ∀ i ∈ before, ∀ q x, i.leaves = some (q, x) →
    t q = some x ∨ ((∃ j ∈ before, j.path = q) ∧ ∃ k ∈ later, k.LandsOn q)

theorem Settled.act (hsettled : Settled before (o :: later) t)
    (hverified : Verified texts (before ++ o :: later)) (hkept : Consistent (before ++ o :: later))
    (h : o.act t = some t') (hcleared : ∀ q, o.clears = some q → t' q = none)
    (hleft : ∀ q x, o.leaves = some (q, x) →
      t' q = some x ∨ (o.path = q ∧ ∃ k ∈ later, k.LandsOn q)) :
    Settled (before ++ [o]) later t' := by
  have hmem : o ∈ before ++ o :: later := mem_append_right _ mem_cons_self
  have hlast : o ∈ before ++ [o] := mem_append_right _ mem_cons_self
  constructor
  · intro i hi q hq
    rcases mem_append.mp hi with hi | hi
    · have hpath : o.path ≠ q := fun hp =>
        hverified.path_ne i hi ((path_of_clears hq).trans hp.symm)
      have hland : ¬ o.LandsOn q := fun hl => by
        obtain ⟨x, hx⟩ := hl.leaves
        exact hkept.kept o hmem i (mem_append_left _ hi) q x hx hq
      rw [act_frame h hpath hland]
      exact hsettled.cleared i hi q hq
    · cases mem_singleton.mp hi
      exact hcleared q hq
  · intro i hi q x hx
    rcases mem_append.mp hi with hi | hi
    · have hi' := mem_append_left (o :: later) hi
      by_cases hy : ∃ y, o.leaves = some (q, y)
      · obtain ⟨y, hy⟩ := hy
        cases hkept.agree i hi' o hmem q x y hx hy
        exact (hleft q x hy).imp_right fun ⟨hp, hk⟩ => ⟨⟨o, hlast, hp⟩, hk⟩
      · have hland : ¬ o.LandsOn q := fun hl => hy hl.leaves
        have hpath : o.path ≠ q := fun hp => by
          subst hp
          exact o.leaves_or_clears.elim hy (hkept.kept i hi' o hmem _ x hx)
        rw [act_frame h hpath hland]
        refine (hsettled.left i hi q x hx).imp_right fun ⟨⟨j, hj, hp⟩, k, hk, hl⟩ => ?_
        refine ⟨⟨j, mem_append_left _ hj, hp⟩, k, ?_, hl⟩
        exact (mem_cons.mp hk).resolve_left fun heq => hland (heq ▸ hl)
    · cases mem_singleton.mp hi
      exact (hleft q x hx).imp_right fun ⟨hp, hk⟩ => ⟨⟨o, hlast, hp⟩, hk⟩

/-- **A run of orderly intents goes through**, and what it carried out so far is settled. -/
theorem run_settled (hverified : Verified texts (before ++ later))
    (hord : Orderly (before ++ later)) :
    ∃ t, run before texts = some t ∧ Settled before later t := by
  induction before using reverseRecOn generalizing later with
  | nil =>
    refine ⟨texts, rfl, ?_, ?_⟩
    · exact fun _ hi => (not_mem_nil hi).elim
    · exact fun _ hi => (not_mem_nil hi).elim
  | append_singleton before o ih =>
    rw [append_assoc, singleton_append] at hverified hord
    obtain ⟨u, hu, hsettled⟩ := ih hverified hord
    have htracks := tracks_run hverified hord.toConsistent hu
    obtain ⟨t, hact, hcleared, hleft⟩ := htracks.act_settles hverified hord
    exact ⟨t, run_concat_eq_some.mpr ⟨u, hu, hact⟩,
      hsettled.act hverified hord.toConsistent hact hcleared hleft⟩

/-! ## Intents that are carried out are orderly -/

theorem consistent_of_holds (h : ∀ i ∈ is, i.Holds t) : Consistent is := by
  constructor
  · intro a ha b hb q x y hx hy
    exact some.inj (((h a ha).1 q x hx).symm.trans ((h b hb).1 q y hy))
  · intro a ha b hb q x hx hq
    cases ((h a ha).1 q x hx).symm.trans ((h b hb).2 q hq)

theorem run_split (h : run (before ++ o :: later) texts = some t) :
    ∃ u v, run before texts = some u ∧ o.act u = some v ∧ run later v = some t := by
  rw [run_append] at h
  obtain ⟨u, hu, h⟩ := bind_eq_some_iff.mp h
  obtain ⟨v, hv, h⟩ := bind_eq_some_iff.mp h
  exact ⟨u, v, hu, hv, h⟩

theorem holds_at_path (hverified : Verified texts (before ++ o :: later))
    (hrun : run later t' = some t) (hholds : o.Holds t) (hx : o.leaves = some (o.path, x))
    (hlater : ¬ ∃ k ∈ later, k.LandsOn o.path) : t' o.path = some x := by
  rw [← run_frame hrun hverified.path_ne_later fun k hk hl => hlater ⟨k, hk, hl⟩]
  exact hholds.1 _ x hx

/-- **The intents are carried out as they stand exactly when they are orderly.** -/
theorem run_holds_iff (hverified : Verified texts is) (hne : is ≠ []) :
    (∃ t, run is texts = some t ∧ ∀ i ∈ is, i.Holds t) ↔ Orderly is := by
  constructor
  · rintro ⟨t, hrun, hholds⟩
    have hcons := consistent_of_holds hholds
    refine ⟨hcons, hne, ?_, ?_⟩
    · intro before p chunks new later heq
      subst heq
      by_contra hlater
      obtain ⟨u, v, -, hact, hrest⟩ := run_split hrun
      have hat := holds_at_path hverified hrest
        (hholds _ (mem_append_right _ mem_cons_self)) rfl hlater
      obtain ⟨text, -, rfl⟩ := map_eq_some_iff.mp hact
      cases (update_self ..).symm.trans hat
    · intro before i later heq hland
      subst heq
      obtain ⟨u, v, hu, hact, hrest⟩ := run_split hrun
      have hholds := hholds i (mem_append_right _ mem_cons_self)
      obtain ⟨m, hm, hland⟩ := hland
      obtain ⟨y, hy⟩ := hland.leaves
      have hnow : u i.path = some y :=
        (tracks_run hverified hcons hu).landed _ hverified.path_ne m hm y hy
      have hagree := hcons.agree m (mem_append_left _ hm) i
        (mem_append_right _ mem_cons_self) i.path y
      cases i with
      | add | delete => trivial
      | update path chunks new =>
        obtain rfl : new = y := (hagree new hy rfl).symm
        obtain ⟨text, htext, rfl⟩ := map_eq_some_iff.mp hact
        obtain ⟨old, hold, hderive⟩ := derived_eq_some.mp htext
        cases hold.symm.trans hnow
        refine ⟨text, hderive, ?_⟩
        by_cases hlater : ∃ k ∈ later, k.LandsOn path
        · exact .inr hlater
        · have hat : Function.update u path (some text) path = some new :=
            holds_at_path hverified hrest hholds rfl hlater
          rw [update_self] at hat
          exact .inl (some.inj hat)
      | move path dest chunks new =>
        intro hself
        subst hself
        obtain rfl : new = y := (hagree new hy rfl).symm
        obtain ⟨text, htext, rfl⟩ := map_eq_some_iff.mp hact
        obtain ⟨old, hold, hderive⟩ := derived_eq_some.mp htext
        cases hold.symm.trans hnow
        exact ⟨text, hderive⟩
  · intro hord
    have happ : is ++ [] = is := append_nil is
    obtain ⟨t, hrun, hsettled⟩ := run_settled (happ ▸ hverified) (happ ▸ hord)
    refine ⟨t, hrun, fun i hi => ⟨fun q x hx => ?_, hsettled.cleared i hi⟩⟩
    exact (hsettled.left i hi q x hx).resolve_right fun ⟨_, k, hk, _⟩ => not_mem_nil hk

/-! ## Intents about different places -/

/-- The paths an intent is about: where it starts and where it lands. -/
def places : Intent P → List P
  | .move path dest _ _ => [path, dest]
  | i => [i.path]

omit [DecidableEq P] in
theorem mem_places_of_leaves (h : i.leaves = some (q, x)) : q ∈ i.places := by
  cases i with
  | delete => cases h
  | add | update => cases h; exact mem_cons_self
  | move => cases h; exact mem_cons_of_mem _ mem_cons_self

omit [DecidableEq P] in
theorem path_mem_places (i : Intent P) : i.path ∈ i.places := by
  cases i <;> exact mem_cons_self

theorem clears_ne_of_leaves (h : i.leaves = some (q, x)) : i.clears ≠ some q := by
  intro hq
  cases i with
  | delete => cases h
  | add | update => cases hq
  | move path dest chunks new =>
    cases h
    have hpath : path = q := path_of_clears hq
    simp [clears, hpath] at hq

/-- **Intents about different places are orderly**: when no path occurs twice among those that the
hunks start from and move to. -/
theorem orderly_of_nodup (hne : is ≠ []) (h : (is.flatMap places).Nodup) : Orderly is := by
  rw [nodup_flatMap] at h
  obtain ⟨hnodup, hdisjoint⟩ := h
  have hsame : ∀ a ∈ is, ∀ b ∈ is, ∀ q, q ∈ a.places → q ∈ b.places → a = b := by
    intro a ha b hb q hqa hqb
    by_contra hab
    have : Std.Symm (onFun List.Disjoint (places (P := P))) :=
      ⟨fun _ _ hd _ hb ha => hd ha hb⟩
    exact hdisjoint.forall ha hb hab hqa hqb
  refine ⟨⟨?_, ?_⟩, hne, ?_, ?_⟩
  · intro a ha b hb q x y hx hy
    have hab := hsame a ha b hb q (mem_places_of_leaves hx) (mem_places_of_leaves hy)
    rw [hab, hy] at hx
    cases hx
    rfl
  · intro a ha b hb q x hx hq
    have hpath := path_of_clears hq
    have hab := hsame a ha b hb q (mem_places_of_leaves hx) (hpath ▸ b.path_mem_places)
    exact clears_ne_of_leaves hx (hab ▸ hq)
  · intro before p chunks new later heq
    have := hnodup (.move p p chunks new) (heq ▸ mem_append_right _ mem_cons_self)
    simp [places] at this
  · intro before i later heq hland
    subst heq
    obtain ⟨m, hm, hland⟩ := hland
    obtain ⟨x, hx⟩ := hland.leaves
    have hd := (pairwise_append.mp hdisjoint).2.2 m hm i mem_cons_self
    exact (hd (mem_places_of_leaves hx) i.path_mem_places).elim

end Intent

end NovumAgent.ApplyPatch
