import NovumAgent.ApplyPatch.Intent

/-!
# What is approved and what is applied

The verified action of a patch describes a state of the files; applying the hunks leaves one. Both
are tied here to the intents of the hunks: verification collects them, application carries them out.
On files that are all text and operations that do not fail, the two states are the same exactly when
the intents are orderly.
-/

namespace NovumAgent.ApplyPatch

open List Intent World Option

variable {P : Type} [DecidableEq P] {env : Env P} {cwd path : P} {texts t t' after : Texts P}
  {s : Applying P id} {i : Intent P} {is : List (Intent P)} {q : P}

/-! ## What a verified action describes -/

/-- The part of the state that one change of an action describes. -/
def ApplyPatchFileChange.Describes (after : Texts P) (path : P) : ApplyPatchFileChange P → Prop
  | .add content => after path = some content
  | .delete _ => after path = none
  | .update _ none newContent => after path = some newContent
  | .update _ (some dest) newContent =>
    after dest = some newContent ∧ (dest ≠ path → after path = none)

/-- An action mentions a path: as the path of a change, or as where one moves its file. -/
def ApplyPatchAction.Mentions (action : ApplyPatchAction P) (q : P) : Prop :=
  ∃ path change, action.changes.lookup path = some change ∧
    (path = q ∨ ∃ diff new, change = .update diff (some q) new)

/-- **The state of the files that an action describes**, when they were `before`. -/
structure ApplyPatchAction.DescribesState (action : ApplyPatchAction P) (before after : Texts P) :
    Prop where
  changed : ∀ path change, action.changes.lookup path = some change → change.Describes after path
  unmentioned : ∀ q, ¬ action.Mentions q → after q = before q

/-! ## The intents of the hunks -/

/-- The intent of a hunk, on the files as they are; `none` when it has none, because a path does not
resolve, or a file is not there, or its chunks do not fit. -/
def Hunk.intent (env : Env P) (cwd : P) (texts : Texts P) : Hunk → Option (Intent P)
  | .addFile path contents => (env.join cwd path).map (.add · contents)
  | .deleteFile path => (env.join cwd path).map .delete
  | .updateFile path none chunks => do
    let path ← env.join cwd path
    let new ← Intent.derived texts path chunks
    some (.update path chunks new)
  | .updateFile path (some dest) chunks => do
    let path ← env.join cwd path
    let new ← Intent.derived texts path chunks
    let dest ← env.join cwd dest
    some (.move path dest chunks new)

/-- The change that verification collects for an intent. The text of a deleted file and the diff are
for show. -/
def Intent.Matches : Intent P → ApplyPatchFileChange P → Prop
  | .add _ content, change => change = .add content
  | .delete _, change => ∃ content, change = .delete content
  | .update _ _ new, change => ∃ diff, change = .update diff none new
  | .move _ dest _ new, change => ∃ diff, change = .update diff (some dest) new

variable {change : ApplyPatchFileChange P} {hunks : List Hunk}

theorem Intent.Matches.describes (h : i.Matches change) :
    change.Describes after i.path ↔ i.Holds after := by
  cases i with
  | add path content =>
    cases h
    exact ⟨fun h => ⟨fun q x hx => by cases hx; exact h, nofun⟩, fun h => h.1 _ _ rfl⟩
  | delete path =>
    obtain ⟨_, rfl⟩ := h
    exact ⟨fun h => ⟨nofun, fun q hq => by cases hq; exact h⟩, fun h => h.2 _ rfl⟩
  | update path chunks new =>
    obtain ⟨_, rfl⟩ := h
    exact ⟨fun h => ⟨fun q x hx => by cases hx; exact h, nofun⟩, fun h => h.1 _ _ rfl⟩
  | move path dest chunks new =>
    obtain ⟨_, rfl⟩ := h
    refine ⟨fun h => ⟨fun q x hx => by cases hx; exact h.1, fun q hq => ?_⟩,
      fun h => ⟨h.1 _ _ rfl, fun hne => h.2 _ (if_neg hne)⟩⟩
    obtain ⟨hne, hq⟩ := Option.ite_none_left_eq_some.mp hq
    cases hq; exact h.2 hne

omit [DecidableEq P] in
theorem Intent.Matches.moves (h : i.Matches change) :
    (∃ diff new, change = .update diff (some q) new) ↔ i.LandsOn q := by
  cases i with
  | add => cases h; exact ⟨nofun, False.elim⟩
  | delete => obtain ⟨_, rfl⟩ := h; exact ⟨nofun, False.elim⟩
  | update => obtain ⟨_, rfl⟩ := h; exact ⟨nofun, False.elim⟩
  | move path dest chunks new =>
    obtain ⟨diff, rfl⟩ := h
    constructor
    · rintro ⟨_, _, heq⟩
      cases heq
      rfl
    · rintro rfl
      exact ⟨diff, new, rfl⟩

/-! ## Verification collects the intents -/

omit [DecidableEq P] in
theorem deriveNewContentsFromChunks_ok {chunks : List UpdateFileChunk} {patch : AppliedPatch}
    (h : deriveNewContentsFromChunks env path ((Disk.ofTexts texts).read path) chunks = .ok patch) :
    texts path = some patch.originalContents ∧
      deriveNewContents patch.originalContents chunks = .ok patch.newContents := by
  rw [Disk.read_ofTexts] at h
  unfold deriveNewContentsFromChunks at h
  cases hold : texts path with
  | none => simp [hold] at h
  | some old =>
    simp only [hold, elim_some] at h
    cases hnew : deriveNewContents old chunks with
    | error => simp [hnew] at h
    | ok new =>
      simp only [hnew, Except.ok.injEq] at h
      subst h
      exact ⟨rfl, hnew⟩

omit [DecidableEq P] in
theorem verifyHunk_ok {hunk : Hunk} (hpath : env.join cwd hunk.sourcePath = some path)
    (h : verifyHunk env cwd (Disk.ofTexts texts).read path hunk = .ok change) :
    ∃ i, hunk.intent env cwd texts = some i ∧ i.path = path ∧ i.Fits texts ∧ i.Matches change := by
  cases hunk with
  | addFile p contents =>
    cases h
    exact ⟨.add path contents, map_eq_some_iff.mpr ⟨path, hpath, rfl⟩, rfl, trivial, rfl⟩
  | deleteFile p =>
    refine ⟨.delete path, map_eq_some_iff.mpr ⟨path, hpath, rfl⟩, rfl, ?_⟩
    simp only [verifyHunk, Disk.read_ofTexts] at h
    cases hold : texts path with
    | none => simp [hold] at h
    | some old =>
      simp only [hold, elim_some, Except.ok.injEq] at h
      exact ⟨isSome_iff_exists.mpr ⟨old, hold⟩, old, h.symm⟩
  | updateFile p movePath chunks =>
    simp only [verifyHunk] at h
    cases hpatch : deriveNewContentsFromChunks env path ((Disk.ofTexts texts).read path) chunks with
    | error => simp [hpatch, bind, Except.bind] at h
    | ok patch =>
      obtain ⟨hold, hnew⟩ := deriveNewContentsFromChunks_ok hpatch
      have hderived := derived_eq_some.mpr ⟨_, hold, hnew⟩
      have hjoin : env.join cwd p = some path := hpath
      cases movePath with
      | none =>
        simp only [hpatch, joinOptional, bind, Except.bind, Except.ok.injEq] at h
        exact ⟨.update path chunks patch.newContents, by simp [Hunk.intent, hjoin, hderived], rfl,
          ⟨_, hold, hnew⟩, _, h.symm⟩
      | some d =>
        cases hdest : env.join cwd d with
        | none => simp [hpatch, joinOptional, hdest, bind, Except.bind] at h
        | some dest =>
          simp only [hpatch, joinOptional, hdest, bind, Except.bind, Except.ok.injEq] at h
          exact ⟨.move path dest chunks patch.newContents,
            by simp [Hunk.intent, hjoin, hderived, hdest], rfl, ⟨_, hold, hnew⟩, _, h.symm⟩

/-- The changes so far are those of the intents so far. -/
structure Collected (changes : Table P (ApplyPatchFileChange P)) (is : List (Intent P)) : Prop where
  sound : ∀ path change, changes.lookup path = some change →
    ∃ i ∈ is, i.path = path ∧ i.Matches change
  complete : ∀ i ∈ is, ∃ change, changes.lookup i.path = some change ∧ i.Matches change

theorem Collected.insert {changes : Table P (ApplyPatchFileChange P)} (h : Collected changes is)
    (hnew : i.path ∉ changes)
    (hmatch : i.Matches change) : Collected (changes.insert i.path change) (is ++ [i]) := by
  constructor
  · intro p ch hlookup
    by_cases hp : p = i.path
    · subst hp
      rw [AList.lookup_insert] at hlookup
      cases hlookup
      exact ⟨i, mem_append_right _ mem_cons_self, rfl, hmatch⟩
    · rw [AList.lookup_insert_ne hp] at hlookup
      obtain ⟨j, hj, hrest⟩ := h.sound p ch hlookup
      exact ⟨j, mem_append_left _ hj, hrest⟩
  · intro j hj
    rcases mem_append.mp hj with hj | hj
    · obtain ⟨ch, hlookup, hrest⟩ := h.complete j hj
      have hne : j.path ≠ i.path := fun heq =>
        hnew (heq ▸ AList.lookup_isSome.mp (hlookup ▸ rfl))
      exact ⟨ch, by rw [AList.lookup_insert_ne hne]; exact hlookup, hrest⟩
    · cases mem_singleton.mp hj
      exact ⟨change, AList.lookup_insert _, hmatch⟩

/-- **Verification collects the intents of the hunks**: they fit the files and no two are about one
path. -/
theorem verifyHunks_ok {changes changes' : Table P (ApplyPatchFileChange P)}
    (h : verifyHunks env cwd (Disk.ofTexts texts).read hunks changes = .ok changes')
    (hcollected : Collected changes is) (hverified : Intent.Verified texts is) :
    ∃ js, List.Forall₂ (fun hunk i => hunk.intent env cwd texts = some i) hunks js ∧
      Collected changes' (is ++ js) ∧ Intent.Verified texts (is ++ js) := by
  induction hunks generalizing changes is with
  | nil =>
    cases h
    exact ⟨[], .nil, by rwa [append_nil], by rwa [append_nil]⟩
  | cons hunk hunks ih =>
    simp only [verifyHunks] at h
    cases hpath : env.join cwd hunk.sourcePath with
    | none => simp [hpath] at h
    | some path =>
      simp only [hpath] at h
      split at h
      next => cases h
      next hnew =>
        cases hchange : verifyHunk env cwd (Disk.ofTexts texts).read path hunk with
        | error => simp [hchange, bind, Except.bind] at h
        | ok change =>
          simp only [hchange, bind, Except.bind] at h
          obtain ⟨i, hi, rfl, hfits, hmatch⟩ := verifyHunk_ok hpath hchange
          have hverified' : Intent.Verified texts (is ++ [i]) := by
            refine ⟨forall_mem_append.mpr ⟨hverified.fits, by simpa using hfits⟩, ?_⟩
            rw [map_append, nodup_append]
            refine ⟨hverified.nodup, nodup_singleton _, ?_⟩
            rintro _ hp _ hq rfl
            obtain ⟨j, hj, hjp⟩ := mem_map.mp hp
            obtain ⟨_, hlookup, _⟩ := hcollected.complete j hj
            have hmem : j.path ∈ changes := AList.lookup_isSome.mp (hlookup ▸ rfl)
            exact hnew (mem_singleton.mp hq ▸ hjp ▸ hmem)
          obtain ⟨js, hjs, hrest⟩ := ih h (hcollected.insert hnew hmatch) hverified'
          rw [append_assoc] at hrest
          exact ⟨i :: js, .cons hi hjs, hrest⟩

/-! ## Application carries the intents out -/

/-- The outcome of a hunk whose intent was carried out, or could not be. -/
def Follows (r : Applied P id) : Option (Texts P) → Prop
  | some t' => ∃ s', r = .ok s' ∧ s'.world = World.calm t'
  | none => ∃ failure, r = .error failure

section

variable (hw : s.world = calm t)
include hw

theorem applyAdd_follows (p : P) (contents affectedPath : Text) :
    Follows (applyAdd env p contents affectedPath s) ((add p contents).act t) := by
  unfold applyAdd
  simp only [readOptionalFileTextForDelta_calm hw, hw, writeFileWithMissingParentRetry_calm]
  exact ⟨_, rfl, rfl⟩

theorem applyDelete_follows (p : P) (affectedPath : Text) :
    Follows (applyDelete env p affectedPath s) ((delete p).act t) := by
  unfold applyDelete
  simp only [noteExistingPathDeltaSupport_calm hw, hw, readFileText_calm, act]
  cases h : t p with
  | none =>
    rw [removeOriginal_calm_none rfl h]
    exact ⟨_, rfl⟩
  | some content =>
    rw [removeOriginal_calm rfl h]
    exact ⟨_, rfl, rfl⟩

theorem applyInPlace_follows (p : P) (patch : AppliedPatch) (affectedPath : Text) :
    Follows (applyInPlace env p patch affectedPath s)
      (some (Function.update t p (some patch.newContents))) := by
  unfold applyInPlace
  rw [hw, writeFile_calm]
  exact ⟨_, rfl, rfl⟩

theorem applyMove_follows (p dest : P) (patch : AppliedPatch)
    (affectedPath : Text) (hsource : t p = some patch.originalContents) :
    Follows (applyMove env p dest patch affectedPath s)
      (some (Function.update (Function.update t dest (some patch.newContents)) p none)) := by
  rw [applyMove_calm hw dest patch affectedPath hsource]
  exact ⟨_, rfl, rfl⟩

theorem applyUpdate_follows (p : P) (movePath : Option Text)
    (chunks : List UpdateFileChunk) (affectedPath : Text) :
    (derived t p chunks = none →
      ∃ failure, applyUpdate env cwd p movePath chunks affectedPath s = .error failure) ∧
    ∀ new, derived t p chunks = some new →
      (movePath = none → Follows (applyUpdate env cwd p movePath chunks affectedPath s)
        (some (Function.update t p (some new)))) ∧
      ∀ d dest, movePath = some d → env.join cwd d = some dest →
        Follows (applyUpdate env cwd p movePath chunks affectedPath s)
          (some (Function.update (Function.update t dest (some new)) p none)) := by
  unfold applyUpdate
  simp only [noteExistingPathDeltaSupport_calm hw, hw, readFileText_calm, derived]
  generalize hs' : ({ s with world := calm t } : Applying P id) = s'
  have hw' : s'.world = calm t := by rw [← hs']
  cases hold : t p with
  | none => exact ⟨fun _ => ⟨_, rfl⟩, nofun⟩
  | some old =>
    simp only [elim_some, deriveNewContentsFromChunks, bind_some]
    cases hnew : deriveNewContents old chunks with
    | error e => exact ⟨fun _ => ⟨_, rfl⟩, nofun⟩
    | ok new =>
      refine ⟨nofun, fun new' hnew' => ?_⟩
      cases hnew'
      refine ⟨fun hmove => ?_, fun d dest hmove hdest => ?_⟩
      · subst hmove
        exact applyInPlace_follows hw' p ⟨old, new⟩ affectedPath
      · subst hmove
        simp only [hdest]
        exact applyMove_follows hw' p dest ⟨old, new⟩ affectedPath hold

/-- **A hunk carries its intent out**, from whatever the files have become. -/
theorem applyHunk_follows {hunk : Hunk} (hi : hunk.intent env cwd texts = some i) :
    Follows (applyHunk env cwd s hunk) (i.act t) := by
  cases hunk with
  | addFile p contents =>
    obtain ⟨path, hpath, rfl⟩ := map_eq_some_iff.mp hi
    simp only [applyHunk, Hunk.sourcePath, hpath]
    exact applyAdd_follows hw path contents _
  | deleteFile p =>
    obtain ⟨path, hpath, rfl⟩ := map_eq_some_iff.mp hi
    simp only [applyHunk, Hunk.sourcePath, hpath]
    exact applyDelete_follows hw path _
  | updateFile p movePath chunks =>
    cases movePath with
    | none =>
      obtain ⟨path, hpath, hi⟩ := bind_eq_some_iff.mp hi
      obtain ⟨new, _, hi⟩ := bind_eq_some_iff.mp hi
      cases hi
      simp only [applyHunk, Hunk.sourcePath, hpath]
      obtain ⟨hnone, hsome⟩ := @applyUpdate_follows P _ env cwd t s hw path none chunks
        (Hunk.updateFile p none chunks).path
      simp only [act]
      cases hd : derived t path chunks with
      | none => exact hnone hd
      | some text => exact (hsome text hd).1 rfl
    | some d =>
      obtain ⟨path, hpath, hi⟩ := bind_eq_some_iff.mp hi
      obtain ⟨new, _, hi⟩ := bind_eq_some_iff.mp hi
      obtain ⟨dest, hdest, hi⟩ := bind_eq_some_iff.mp hi
      cases hi
      simp only [applyHunk, Hunk.sourcePath, hpath]
      obtain ⟨hnone, hsome⟩ := @applyUpdate_follows P _ env cwd t s hw path (some d) chunks
        (Hunk.updateFile p (some d) chunks).path
      simp only [act]
      cases hd : derived t path chunks with
      | none => exact hnone hd
      | some text => exact (hsome text hd).2 d dest rfl hdest

end

/-- **The hunks carry their intents out, one after another.** -/
theorem applyHunks_follows
    (his : List.Forall₂ (fun hunk i => hunk.intent env cwd texts = some i) hunks is)
    (hw : s.world = calm t) :
    Follows (applyHunks env cwd hunks s) (run is t) := by
  induction his generalizing s t with
  | nil => exact ⟨s, rfl, hw⟩
  | @cons hunk i hunks is hi _ ih =>
    have hone := applyHunk_follows hw hi
    simp only [applyHunks, run]
    cases hact : i.act t with
    | none =>
      rw [hact] at hone
      obtain ⟨failure, hfail⟩ := hone
      simp only [hfail]
      exact ⟨failure, rfl⟩
    | some t' =>
      rw [hact] at hone
      obtain ⟨s', hs', hw'⟩ := hone
      simp only [hs']
      exact ih hw'

/-! ## Approved and applied -/

omit [DecidableEq P] in
theorem filterMap_intent
    (his : List.Forall₂ (fun hunk i => hunk.intent env cwd texts = some i) hunks is) :
    hunks.filterMap (Hunk.intent env cwd texts) = is := by
  induction his with
  | nil => rfl
  | cons hi _ ih => rw [filterMap_cons_some hi, ih]

theorem Collected.describesState {action : ApplyPatchAction P} (h : Collected action.changes is)
    (hrun : run is texts = some t) :
    action.DescribesState texts t ↔ ∀ i ∈ is, i.Holds t := by
  constructor
  · intro hstate i hi
    obtain ⟨change, hlookup, hmatch⟩ := h.complete i hi
    exact hmatch.describes.mp (hstate.changed _ _ hlookup)
  · intro hholds
    constructor
    · intro path change hlookup
      obtain ⟨i, hi, rfl, hmatch⟩ := h.sound path change hlookup
      exact hmatch.describes.mpr (hholds i hi)
    · intro q hq
      refine run_frame hrun (fun i hi hp => hq ?_) fun i hi hl => hq ?_
      · obtain ⟨change, hlookup, _⟩ := h.complete i hi
        exact ⟨i.path, change, hlookup, .inl hp⟩
      · obtain ⟨change, hlookup, hmatch⟩ := h.complete i hi
        exact ⟨i.path, change, hlookup, .inr (hmatch.moves.mpr hl)⟩

theorem tryVerifyApplyPatchArgs_ok {args : ApplyPatchArgs} {action : ApplyPatchAction P}
    (h : tryVerifyApplyPatchArgs env args cwd (Disk.ofTexts texts).read = .ok action) :
    ∃ is, List.Forall₂ (fun hunk i => hunk.intent env action.cwd texts = some i) args.hunks is ∧
      Collected action.changes is ∧ Intent.Verified texts is := by
  unfold tryVerifyApplyPatchArgs at h
  cases hworkdir : joinOptional env cwd args.workdir with
  | error => simp [hworkdir, bind, Except.bind] at h
  | ok workdir =>
    simp only [hworkdir, bind, Except.bind] at h
    cases hchanges : verifyHunks env (workdir.getD cwd) (Disk.ofTexts texts).read args.hunks ∅ with
    | error => simp [hchanges] at h
    | ok changes =>
      simp only [hchanges, Except.ok.injEq] at h
      subst h
      exact verifyHunks_ok hchanges (show Collected ∅ [] from ⟨nofun, nofun⟩) ⟨nofun, nodup_nil⟩

theorem applyHunksToFiles_follows
    (his : List.Forall₂ (fun hunk i => hunk.intent env cwd texts = some i) hunks is) :
    Follows (applyHunksToFiles env cwd hunks (calm texts))
      (if is = [] then none else run is texts) := by
  unfold applyHunksToFiles
  cases his with
  | nil => exact ⟨_, rfl⟩
  | cons hi his =>
    rw [if_neg (cons_ne_nil _ _), if_neg (cons_ne_nil _ _)]
    exact applyHunks_follows (.cons hi his) rfl

/-- **What is approved is what is applied exactly when the intents of the hunks are orderly.** The
patch is verified against files that are all text; nothing fails when its hunks are applied to the
same files in the directory of the verified action. Then the hunks are applied and leave the state
that the action describes, if and only if the patch has a hunk; no two hunks leave different texts
at a path and none clears a path at which another leaves a text; a file that is moved onto itself is
moved there again by a later hunk; and an update of a path that an earlier hunk moved a file to
makes the same of that file. -/
theorem approved_is_applied_iff (env : Env P) (args : ApplyPatchArgs) (cwd : P) (texts : Texts P)
    (action : ApplyPatchAction P)
    (hverified : tryVerifyApplyPatchArgs env args cwd (Disk.ofTexts texts).read = .ok action) :
    (∃ s after, applyHunksToFiles env action.cwd args.hunks (World.calm texts) = .ok s ∧
        s.world = World.calm after ∧ action.DescribesState texts after) ↔
      Intent.Orderly (args.hunks.filterMap (Hunk.intent env action.cwd texts)) := by
  obtain ⟨is, his, hcollected, hverified⟩ := tryVerifyApplyPatchArgs_ok hverified
  rw [filterMap_intent his]
  have hruns := applyHunksToFiles_follows his
  by_cases hempty : is = []
  · -- nothing is intended, and the code refuses to do nothing
    rw [if_pos hempty] at hruns
    obtain ⟨failure, hfail⟩ := hruns
    constructor
    · rintro ⟨s, after, happly, _⟩
      cases hfail.symm.trans happly
    · intro hord
      exact (hord.nonempty hempty).elim
  · rw [if_neg hempty] at hruns
    rw [← run_holds_iff hverified hempty]
    constructor
    · rintro ⟨s, after, happly, hworld, hstate⟩
      cases hrun : run is texts with
      | none =>
        rw [hrun] at hruns
        obtain ⟨failure, hfail⟩ := hruns
        cases hfail.symm.trans happly
      | some t =>
        rw [hrun] at hruns
        obtain ⟨s', hs', hworld'⟩ := hruns
        cases hs'.symm.trans happly
        obtain rfl := calm_injective (hworld'.symm.trans hworld)
        exact ⟨t, rfl, (hcollected.describesState hrun).mp hstate⟩
    · rintro ⟨t, hrun, hholds⟩
      rw [hrun] at hruns
      obtain ⟨s, hs, hworld⟩ := hruns
      exact ⟨s, t, hs, hworld, (hcollected.describesState hrun).mpr hholds⟩

/-- The first file is changed and moved, the second is deleted. -/
def movePatch : ApplyPatchArgs :=
  ⟨[], [.updateFile ['a'] (some ['c']) [lineChunk ['x'] ['y']], .deleteFile ['b']], none, none⟩

/-- A patch about three different paths is applied as it was approved. -/
theorem approved_is_applied_movePatch :
    ∃ action, tryVerifyApplyPatchArgs plainEnv movePatch [] (Disk.ofTexts twoFiles).read =
        .ok action ∧
      ∃ s after, applyHunksToFiles plainEnv action.cwd movePatch.hunks (World.calm twoFiles) =
          .ok s ∧ s.world = World.calm after ∧ action.DescribesState twoFiles after := by
  have hintents : movePatch.hunks.filterMap (Hunk.intent plainEnv [] twoFiles) =
      [.move ['a'] ['c'] [lineChunk ['x'] ['y']] ['y', '\n'], .delete ['b']] := by decide +kernel
  refine ⟨_, rfl, (approved_is_applied_iff plainEnv movePatch [] twoFiles _ rfl).mpr ?_⟩
  exact hintents ▸ orderly_of_nodup (by decide) (by decide)

/-- The patch that changes the first file and moves it onto itself. -/
def selfMovePatch : ApplyPatchArgs := ⟨[], [selfMove], none, none⟩

/-- **A file moved onto itself is lost.** The patch is verified, and the action describes the file
with its new line; the patch is applied without an error, and the file is gone. -/
theorem approved_self_move_deletes :
    ∃ action, tryVerifyApplyPatchArgs plainEnv selfMovePatch [] (Disk.ofTexts twoFiles).read =
        .ok action ∧
      (∀ after, action.DescribesState twoFiles after → after ['a'] = some ['y', '\n']) ∧
      ∃ s, applyHunksToFiles plainEnv action.cwd selfMovePatch.hunks (World.calm twoFiles) =
          .ok s ∧ s.world.disk ['a'] = none := by
  refine ⟨_, rfl, fun after hstate => ?_, _, rfl, by decide +kernel⟩
  exact (hstate.changed ['a'] (.update [] (some ['a']) ['y', '\n']) rfl).1

end NovumAgent.ApplyPatch
