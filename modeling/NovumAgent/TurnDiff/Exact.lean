import NovumAgent.TurnDiff.Tracker

/-!
# The diff is exact

The two maps of the tracker are read as one function from paths to what a path has now and what it had
(`view`). On it every operation of the tracker is a change at one path, and that the view agrees with the
files is kept by every change that records the truth.

`turn_diff_exact` puts together the three facts: the maps, the pairs, and the cache.
-/

namespace NovumAgent.TurnDiff

open List Option

variable {π : Type} [DecidableEq π]

namespace TurnDiffTracker

/-- The changes of a delta, one after the other. -/
def applyChanges (environmentId : Text) (changes : List (AppliedPatchChange π))
    (tracker : TurnDiffTracker π) : TurnDiffTracker π :=
  changes.foldl (fun tracker change => tracker.applyChange environmentId change) tracker

/-! ## The maps -/

/-- What the maps say of a path: what it has now, and what it had. -/
def view (tracker : TurnDiffTracker π) (path : TrackedPath π) : Option Text × Option Text :=
  ((tracker.currentByPath.lookup path).map (·.content),
    (tracker.baselineByPath.lookup path).map (·.content))

/-- The maps agree with the files: they have the contents of a path, or nothing and the path is as it was. -/
def Agrees (tracker : TurnDiffTracker π) (initial now : Workspace π) : Prop :=
  ∀ path, tracker.view path = (now path, initial path) ∨
    (tracker.view path = (none, none) ∧ now path = initial path)

section

variable {tracker : TurnDiffTracker π} {initial now next : Workspace π} {path other : TrackedPath π}
  {content : Text}

theorem untouched_iff : tracker.untouched path = true ↔ tracker.view path = (none, none) := by
  unfold untouched view
  rw [Bool.and_eq_true, isNone_iff_eq_none, isNone_iff_eq_none, Prod.mk.injEq,
    map_eq_none_iff, map_eq_none_iff]

theorem view_trackCurrent (other : TrackedPath π) : (tracker.trackCurrent path content).view other =
    if other = path then (some content, (tracker.view path).2) else tracker.view other := by
  unfold view trackCurrent
  dsimp only
  rw [Table.lookup_insert_eq]
  split
  next h => rw [h, map_some]
  next => rfl

theorem view_trackBaseline (other : TrackedPath π) : (tracker.trackBaseline path content).view other =
    if other = path then ((tracker.view path).1, some content) else tracker.view other := by
  unfold view trackBaseline
  dsimp only
  rw [Table.lookup_insert_eq]
  split
  next h => rw [h, map_some]
  next => rfl

theorem view_eraseCurrent (origins : Table (TrackedPath π) (TrackedPath π)) (other : TrackedPath π) :
    view { tracker with
      currentByPath := tracker.currentByPath.erase path, originByCurrentPath := origins } other =
        if other = path then (none, (tracker.view path).2) else tracker.view other := by
  unfold view
  dsimp only
  rw [Table.lookup_erase_eq]
  split
  next h =>
    rw [h]
    rfl
  next => rfl

theorem view_noteBaseline (content : Option Text) (other : TrackedPath π) :
    (tracker.noteBaseline path content).view other =
      if other = path ∧ tracker.view path = (none, none) then (none, content) else tracker.view other := by
  unfold noteBaseline
  cases content with
  | none =>
    dsimp only
    split
    next h => rw [h.1, h.2]
    next => rfl
  | some content =>
    dsimp only
    by_cases huntouched : tracker.untouched path = true
    · have hview := untouched_iff.mp huntouched
      rw [if_pos huntouched, view_trackBaseline, hview]
      simp only [and_true]
    · have hview := fun h => huntouched (untouched_iff.mpr h)
      rw [if_neg huntouched, if_neg fun h => hview h.2]

theorem noteBaseline_snd {has had : Option Text}
    (h : tracker.view path = (has, had) ∨ (tracker.view path = (none, none) ∧ has = had)) :
    ((tracker.noteBaseline path has).view path).2 = had := by
  rw [view_noteBaseline]
  by_cases hnone : tracker.view path = (none, none)
  · rw [if_pos ⟨rfl, hnone⟩]
    obtain hview | ⟨-, hsame⟩ := h
    · rw [hnone, Prod.mk.injEq] at hview
      rw [← hview.1, ← hview.2]
    · exact hsame
  · rw [if_neg fun hboth => hnone hboth.2]
    obtain hview | ⟨hview, -⟩ := h
    · rw [hview]
    · exact absurd hview hnone

theorem view_noteBaseline_ne_none : (tracker.noteBaseline path (some content)).view path ≠ (none, none) := by
  rw [view_noteBaseline]
  by_cases hnone : tracker.view path = (none, none)
  · rw [if_pos ⟨rfl, hnone⟩]
    nofun
  · rw [if_neg fun hboth => hnone hboth.2]
    exact hnone

theorem view_noteBaseline_of_ne (content : Option Text) (hne : other ≠ path) :
    (tracker.noteBaseline path content).view other = tracker.view other := by
  rw [view_noteBaseline, if_neg fun h => hne h.1]

section

variable (h : Agrees tracker initial now)
include h

theorem Agrees.set {changed : TurnDiffTracker π} {value : Option Text}
    (hpath : changed.view path = (value, initial path))
    (hothers : ∀ other, other ≠ path → changed.view other = tracker.view other) :
    Agrees changed initial (now.set path value) := by
  intro other
  unfold Workspace.set
  by_cases hother : other = path
  · subst hother
    rw [if_pos rfl]
    exact .inl hpath
  · rw [if_neg hother, hothers other hother]
    exact h other

theorem Agrees.applyAdd :
    Agrees (tracker.applyAdd path content (now path)) initial (now.set path (some content)) := by
  have hclean : Agrees { tracker with
      originByCurrentPath := tracker.originByCurrentPath.erase path } initial now := h
  refine h.set ?_ fun other hne => ?_
  · unfold TurnDiffTracker.applyAdd
    rw [view_trackCurrent, if_pos rfl, noteBaseline_snd (hclean path)]
  · unfold TurnDiffTracker.applyAdd
    rw [view_trackCurrent, if_neg hne, view_noteBaseline_of_ne _ hne]
    rfl

theorem Agrees.applyDelete (hcontent : now path = some content) :
    Agrees (tracker.applyDelete path content) initial (now.set path none) := by
  refine h.set ?_ fun other hne => ?_
  · unfold TurnDiffTracker.applyDelete
    rw [view_eraseCurrent, if_pos rfl, ← hcontent, noteBaseline_snd (h path)]
  · unfold TurnDiffTracker.applyDelete
    rw [view_eraseCurrent, if_neg hne, view_noteBaseline_of_ne _ hne]

variable {pair : TrackedPath π × TrackedPath π} {environmentId oldContent newContent : Text}
  {change : AppliedPatchChange π}

theorem Agrees.applyUpdate {overwritten : Option Text} (hold : now path = some oldContent) :
    Agrees (tracker.applyUpdate path none oldContent overwritten newContent) initial
      (now.set path (some newContent)) := by
  refine h.set ?_ fun other hne => ?_
  · unfold TurnDiffTracker.applyUpdate
    dsimp only
    rw [view_trackCurrent, if_pos rfl, ← hold, noteBaseline_snd (h path)]
  · unfold TurnDiffTracker.applyUpdate
    dsimp only
    rw [view_trackCurrent, if_neg hne, view_noteBaseline_of_ne _ hne]

end

theorem view_applyUpdate_move {dest : TrackedPath π}
    {overwritten : Option Text} (other : TrackedPath π) :
    (tracker.applyUpdate path (some dest) oldContent overwritten newContent).view other =
      let noted := (tracker.noteBaseline path (some oldContent)).noteBaseline dest overwritten
      if other = dest then (some newContent, (noted.view dest).2)
      else if other = path then (none, (noted.view path).2)
      else noted.view other := by
  unfold TurnDiffTracker.applyUpdate
  dsimp only
  have hview : ∀ (moved : TurnDiffTracker π) (origins : Table (TrackedPath π) (TrackedPath π)),
      view { moved with originByCurrentPath := origins } other = moved.view other := fun _ _ => rfl
  rw [hview, view_trackCurrent, view_eraseCurrent, view_eraseCurrent]
  split
  next =>
    split
    next h => rw [h]
    next => rfl
  next => rfl

section

variable (h : Agrees tracker initial now)
include h

theorem Agrees.applyUpdate_move {dest : TrackedPath π} (hold : now path = some oldContent) :
    Agrees (tracker.applyUpdate path (some dest) oldContent (now dest) newContent) initial
      ((now.set path none).set dest (some newContent)) := by
  -- the baselines of both paths are what they had, also when a file is moved to its own path
  have hsource := noteBaseline_snd (h path)
  rw [hold] at hsource
  have hdest : (((tracker.noteBaseline path (some oldContent)).noteBaseline dest (now dest)).view
      dest).2 = initial dest := by
    by_cases hself : dest = path
    · subst hself
      rw [view_noteBaseline, if_neg fun hboth => view_noteBaseline_ne_none hboth.2]
      exact hsource
    · refine noteBaseline_snd ?_
      rw [view_noteBaseline_of_ne _ hself]
      exact h dest
  intro other
  rw [view_applyUpdate_move]
  unfold Workspace.set
  dsimp only
  by_cases hother : other = dest
  · rw [if_pos hother, if_pos hother, hdest, hother]
    exact .inl rfl
  · rw [if_neg hother, if_neg hother]
    by_cases hpath : other = path
    · subst hpath
      rw [if_pos rfl, if_pos rfl, view_noteBaseline_of_ne _ hother, hsource]
      exact .inl rfl
    · rw [if_neg hpath, if_neg hpath, view_noteBaseline_of_ne _ hother, view_noteBaseline_of_ne _ hpath]
      exact h other

/-- **Every change that records the truth** keeps the agreement. -/
theorem Agrees.applyChange (hcommit : commit environmentId now change = some next) :
    Agrees (tracker.applyChange environmentId change) initial next := by
  obtain ⟨path, change⟩ := change
  unfold commit at hcommit
  unfold TurnDiffTracker.applyChange
  cases change with
  | add content overwrittenContent =>
    dsimp only at hcommit ⊢
    obtain ⟨htrue, ⟨⟩⟩ := ite_none_right_eq_some.mp hcommit
    rw [← htrue]
    exact h.applyAdd
  | delete content =>
    dsimp only at hcommit ⊢
    obtain ⟨htrue, ⟨⟩⟩ := ite_none_right_eq_some.mp hcommit
    exact h.applyDelete htrue
  | update movePath oldContent overwrittenMoveContent newContent =>
    cases movePath with
    | none =>
      dsimp only at hcommit ⊢
      obtain ⟨htrue, ⟨⟩⟩ := ite_none_right_eq_some.mp hcommit
      exact h.applyUpdate htrue
    | some movePath =>
      dsimp only at hcommit ⊢
      obtain ⟨htrue, ⟨⟩⟩ := ite_none_right_eq_some.mp hcommit
      rw [← htrue.2]
      exact h.applyUpdate_move htrue.1

theorem Agrees.applyChanges {changes : List (AppliedPatchChange π)}
    (hcommit : changes.foldlM (commit environmentId) now = some next) :
    Agrees (tracker.applyChanges environmentId changes) initial next := by
  induction changes generalizing tracker now with
  | nil =>
    cases hcommit
    exact h
  | cons change changes ih =>
    rw [foldlM_cons] at hcommit
    obtain ⟨after, hafter, hrest⟩ := bind_eq_some_iff.mp hcommit
    exact ih (h.applyChange hafter) hrest

end

end

/-! ## The pairs -/

section

variable {tracker : TurnDiffTracker π} {host : DiffHost π} {initial now : Workspace π}
  {renames : Table (TrackedPath π) (TrackedPath π)} {path origin dest : TrackedPath π}
  {paths handled : List (TrackedPath π)}

theorem mem_destinations : dest ∈ renames.entries.map (·.2) ↔ ∃ origin, renames.lookup origin = some dest := by
  rw [List.mem_map]
  constructor
  · rintro ⟨entry, hentry, rfl⟩
    exact ⟨entry.1, AList.mem_lookup_iff.mpr hentry⟩
  · rintro ⟨origin, hlookup⟩
    exact ⟨⟨origin, dest⟩, AList.mem_lookup_iff.mp hlookup, rfl⟩

omit [DecidableEq π] in
private theorem exists_mem_cons_first {first : TrackedPath π} {p : TrackedPath π → Prop}
    (hnew : first ∉ handled) :
    (∃ path ∈ first :: paths, path ∉ handled ∧ p path) ↔
      p first ∨ ∃ path ∈ paths, path ≠ first ∧ path ∉ handled ∧ p path := by
  constructor
  · rintro ⟨path, hmem, hout, hp⟩
    by_cases hfirst : path = first
    · exact .inl (hfirst ▸ hp)
    · exact .inr ⟨path, (mem_cons.mp hmem).resolve_left hfirst, hfirst, hout, hp⟩
  · rintro (hp | ⟨path, hmem, -, hout, hp⟩)
    · exact ⟨first, mem_cons_self, hnew, hp⟩
    · exact ⟨path, mem_cons_of_mem _ hmem, hout, hp⟩

theorem mem_pairLoop : pair ∈ pairLoop renames paths handled ↔ ∃ path ∈ paths, path ∉ handled ∧
      path ∉ renames.entries.map (·.2) ∧ pair = (path, (renames.lookup path).getD path) := by
  induction paths generalizing handled with
  | nil => simp [pairLoop]
  | cons first paths ih =>
    unfold pairLoop
    split
    next hhandled =>
      rw [ih]
      constructor
      · rintro ⟨path, hmem, hrest⟩
        exact ⟨path, mem_cons_of_mem _ hmem, hrest⟩
      · rintro ⟨path, hmem, hnew, hrest⟩
        obtain rfl | hmem := mem_cons.mp hmem
        · exact absurd hhandled hnew
        · exact ⟨path, hmem, hnew, hrest⟩
    next hnew =>
      -- in every branch, what the loop adds to the handled paths is the first path or a destination
      have hrest : ∀ added, (∀ path ∈ added, path ∈ renames.entries.map (·.2)) →
          ((∃ path ∈ paths, path ∉ added ++ first :: handled ∧ path ∉ renames.entries.map (·.2) ∧
            pair = (path, (renames.lookup path).getD path)) ↔
          ∃ path ∈ paths, path ≠ first ∧ path ∉ handled ∧ path ∉ renames.entries.map (·.2) ∧
            pair = (path, (renames.lookup path).getD path)) := by
        intro added hadded
        refine exists_congr fun path => and_congr_right fun _ => ?_
        constructor
        · rintro ⟨hout, hdest, hpair⟩
          rw [mem_append, mem_cons, not_or, not_or] at hout
          exact ⟨hout.2.1, hout.2.2, hdest, hpair⟩
        · rintro ⟨hne, hout, hdest, hpair⟩
          rw [mem_append, mem_cons, not_or, not_or]
          exact ⟨⟨fun hmem => hdest (hadded path hmem), hne, hout⟩, hdest, hpair⟩
      rw [exists_mem_cons_first hnew]
      split
      next hdest =>
        rw [ih, ← hrest [] (by simp)]
        exact (or_iff_right fun hfirst => hfirst.1 hdest).symm
      next hdest =>
        split
        next dest hlookup =>
          have hmem : dest ∈ renames.entries.map (·.2) := mem_destinations.mpr ⟨first, hlookup⟩
          rw [mem_cons, ih, ← hrest [dest] (by simpa using hmem), hlookup]
          exact or_congr_left (and_iff_right hdest).symm
        next hlookup =>
          rw [mem_cons, ih, ← hrest [] (by simp), hlookup]
          exact or_congr_left (and_iff_right hdest).symm

theorem pairLoop_nodup : (pairLoop renames paths handled).Nodup := by
  -- a pair that the rest of the loop finds has a left side that was not handled
  have hfresh : ∀ {paths handled : List (TrackedPath π)} {first right : TrackedPath π},
      first ∈ handled → (first, right) ∉ pairLoop renames paths handled := by
    intro paths handled first right hmem hpair
    obtain ⟨path, -, hout, -, hsame⟩ := mem_pairLoop.mp hpair
    rw [Prod.mk.injEq] at hsame
    exact hout (hsame.1 ▸ hmem)
  induction paths generalizing handled with
  | nil => exact nodup_nil
  | cons first paths ih =>
    unfold pairLoop
    split
    next => exact ih
    next =>
      split
      next => exact ih
      next =>
        split
        next => exact nodup_cons.mpr ⟨hfresh (by simp), ih⟩
        next => exact nodup_cons.mpr ⟨hfresh (by simp), ih⟩

/-- The pair that a path is rendered in. -/
def Covers (initial now : Workspace π) (path : TrackedPath π) (pair : TrackedPath π × TrackedPath π) : Prop :=
  pair = (path, path) ∨ ∃ other, other ≠ path ∧ initial other ≠ now other ∧
    (pair = (path, other) ∨ pair = (other, path))

end

/-! ## The cache -/

section

variable {tracker : TurnDiffTracker π} {host : DiffHost π} {contentOf : Nat → Text}
  {late : DiffCacheKey π → Bool} {path : TrackedPath π} {content : Text}

/-- A revision that was given out is the number of its content. -/
def Numbered (nextRevision : Nat) (contentOf : Nat → Text) (tracked : TrackedContent) : Prop :=
  tracked.revision < nextRevision ∧ contentOf tracked.revision = tracked.content

/-- A rendering is the one of the contents that the revisions of its key number, in time or late. -/
structure Cached (host : DiffHost π) (late : DiffCacheKey π → Bool) (tracker : TurnDiffTracker π)
    (contentOf : Nat → Text) (key : DiffCacheKey π) (rendered : Option Text) : Prop where
  left : ∀ revision ∈ key.leftRevision, revision < tracker.nextRevision
  right : ∀ revision ∈ key.rightRevision, revision < tracker.nextRevision
  rendered_eq : rendered = tracker.renderDiff host (late key) key.leftPath
    (key.leftRevision.map contentOf) key.rightPath (key.rightRevision.map contentOf)

/-- The tracker's revisions number contents, and its cache has their renderings. -/
structure Remembers (host : DiffHost π) (late : DiffCacheKey π → Bool) (tracker : TurnDiffTracker π)
    (contentOf : Nat → Text) : Prop where
  baseline : ∀ path tracked, tracker.baselineByPath.lookup path = some tracked →
    Numbered tracker.nextRevision contentOf tracked
  current : ∀ path tracked, tracker.currentByPath.lookup path = some tracked →
    Numbered tracker.nextRevision contentOf tracked
  cached : ∀ key rendered, tracker.renderedDiffs.lookup key = some rendered →
    Cached host late tracker contentOf key rendered

variable {nextRevision : Nat}

theorem Numbered.update {tracked : TrackedContent} (h : Numbered nextRevision contentOf tracked) :
    Numbered (nextRevision + 1) (Function.update contentOf nextRevision content) tracked :=
  ⟨Nat.lt_succ_of_lt h.1, (Function.update_of_ne h.1.ne _ _).trans h.2⟩

theorem numbered_new :
    Numbered (nextRevision + 1) (Function.update contentOf nextRevision content) ⟨content, nextRevision⟩ :=
  ⟨Nat.lt_succ_self _, Function.update_self ..⟩

theorem map_update {revision : Option Nat} (h : ∀ r ∈ revision, r < nextRevision) :
    revision.map (Function.update contentOf nextRevision content) = revision.map contentOf := by
  cases revision with
  | none => rfl
  | some r => exact congrArg some (Function.update_of_ne (h r rfl).ne _ _)

theorem renderDiff_eq_of_roots {other : TurnDiffTracker π} (isLate : Bool)
    (hroots : other.displayRootsByEnvironment = tracker.displayRootsByEnvironment) :
    other.renderDiff host isLate = tracker.renderDiff host isLate := by
  unfold renderDiff displayPath
  rw [hroots]

theorem Cached.update {other : TurnDiffTracker π} {key : DiffCacheKey π} {rendered : Option Text}
    (hroots : other.displayRootsByEnvironment = tracker.displayRootsByEnvironment)
    (hnext : other.nextRevision = tracker.nextRevision + 1)
    (h : Cached host late tracker contentOf key rendered) :
    Cached host late other (Function.update contentOf tracker.nextRevision content) key rendered where
  left revision hrevision := hnext ▸ Nat.lt_succ_of_lt (h.left revision hrevision)
  right revision hrevision := hnext ▸ Nat.lt_succ_of_lt (h.right revision hrevision)
  rendered_eq := by
    rw [map_update h.left, map_update h.right, renderDiff_eq_of_roots _ hroots]
    exact h.rendered_eq

section

variable (h : Remembers host late tracker contentOf)
include h

theorem Remembers.trackBaseline : Remembers host late (tracker.trackBaseline path content)
      (Function.update contentOf tracker.nextRevision content) where
  baseline := Table.forall_insert (fun _ _ hlookup => (h.baseline _ _ hlookup).update) numbered_new
  current other tracked hlookup := (h.current other tracked hlookup).update
  cached key rendered hlookup := (h.cached key rendered hlookup).update rfl rfl

theorem Remembers.trackCurrent : Remembers host late (tracker.trackCurrent path content)
      (Function.update contentOf tracker.nextRevision content) where
  baseline other tracked hlookup := (h.baseline other tracked hlookup).update
  current := Table.forall_insert (fun _ _ hlookup => (h.current _ _ hlookup).update) numbered_new
  cached key rendered hlookup := (h.cached key rendered hlookup).update rfl rfl

theorem Remembers.eraseCurrent {origins : Table (TrackedPath π) (TrackedPath π)} :
    Remembers host late { tracker with
      currentByPath := tracker.currentByPath.erase path
      originByCurrentPath := origins } contentOf where
  baseline := h.baseline
  current := Table.forall_erase h.current
  cached key rendered hlookup := { h.cached key rendered hlookup with }

theorem Remembers.setOrigins {origins : Table (TrackedPath π) (TrackedPath π)} :
    Remembers host late { tracker with originByCurrentPath := origins } contentOf where
  __ := h
  cached key rendered hlookup := { h.cached key rendered hlookup with }

end

/-- The cache is right for some numbering, and only these renderings in it are late. -/
def Remembered (host : DiffHost π) (passed : DiffCacheKey π → Prop) (tracker : TurnDiffTracker π) : Prop :=
  ∃ late contentOf, (∀ key, late key = true → passed key) ∧ Remembers host late tracker contentOf

variable {passed : DiffCacheKey π → Prop}

theorem Remembered.noteBaseline {content : Option Text} (h : Remembered host passed tracker) :
    Remembered host passed (tracker.noteBaseline path content) := by
  obtain ⟨late, contentOf, hpassed, h⟩ := h
  unfold TurnDiffTracker.noteBaseline
  cases content with
  | none => exact ⟨late, contentOf, hpassed, h⟩
  | some content =>
    dsimp only
    split
    next => exact ⟨late, _, hpassed, h.trackBaseline⟩
    next => exact ⟨late, contentOf, hpassed, h⟩

/-- **Every change** keeps the cache right. -/
theorem Remembered.applyChange (h : Remembered host passed tracker) :
    Remembered host passed (tracker.applyChange environmentId change) := by
  obtain ⟨path, change⟩ := change
  unfold TurnDiffTracker.applyChange
  cases change with
  | add content overwrittenContent =>
    obtain ⟨late, contentOf, hpassed, h⟩ := h
    obtain ⟨late, _, hpassed, hnoted⟩ := Remembered.noteBaseline ⟨late, contentOf, hpassed, h.setOrigins⟩
    exact ⟨late, _, hpassed, hnoted.trackCurrent⟩
  | delete content =>
    obtain ⟨late, _, hpassed, hnoted⟩ := h.noteBaseline
    exact ⟨late, _, hpassed, hnoted.eraseCurrent⟩
  | update movePath oldContent overwrittenMoveContent newContent =>
    cases movePath with
    | none =>
      obtain ⟨late, _, hpassed, hnoted⟩ := h.noteBaseline
      exact ⟨late, _, hpassed, hnoted.trackCurrent⟩
    | some movePath =>
      obtain ⟨late, _, hpassed, hnoted⟩ := h.noteBaseline.noteBaseline
      exact ⟨late, _, hpassed, hnoted.eraseCurrent.trackCurrent.setOrigins⟩

theorem Remembered.applyChanges {changes : List (AppliedPatchChange π)}
    (h : Remembered host passed tracker) :
    Remembered host passed (tracker.applyChanges environmentId changes) := by
  induction changes generalizing tracker with
  | nil => exact h
  | cons change changes ih => exact ih h.applyChange

theorem Remembers.cached_renderPair (h : Remembers host late tracker contentOf)
    (pair : TrackedPath π × TrackedPath π) :
    Cached host late tracker contentOf (tracker.cacheKey pair)
      (tracker.renderPair host late pair) := by
  have hmap : ∀ (entry : Option TrackedContent),
      (∀ tracked, entry = some tracked → Numbered tracker.nextRevision contentOf tracked) →
      (entry.map (·.revision)).map contentOf = entry.map (·.content) := by
    intro entry hentry
    cases entry with
    | none => rfl
    | some tracked => exact congrArg some (hentry tracked rfl).2
  have hbound : ∀ (entry : Option TrackedContent),
      (∀ tracked, entry = some tracked → Numbered tracker.nextRevision contentOf tracked) →
      ∀ revision ∈ entry.map (·.revision), revision < tracker.nextRevision := by
    intro entry hentry revision hrevision
    obtain ⟨tracked, htracked, rfl⟩ := map_eq_some_iff.mp hrevision
    exact (hentry tracked htracked).1
  refine ⟨hbound _ (h.baseline pair.1), hbound _ (h.current pair.2), ?_⟩
  unfold renderPair cacheKey
  dsimp only
  rw [hmap _ (h.baseline pair.1), hmap _ (h.current pair.2)]

theorem cacheKey_injective : Function.Injective tracker.cacheKey := by
  intro pair other h
  have hleft := congrArg DiffCacheKey.leftPath h
  have hright := congrArg DiffCacheKey.rightPath h
  exact Prod.ext hleft hright

/-- **The loop with a cache** adds for each pair what it finds, or else what it renders. -/
theorem renderLoop_eq {pairs : List (TrackedPath π × TrackedPath π)} (hnodup : pairs.Nodup)
    {renders : TrackedPath π × TrackedPath π → Option Text}
    {previous rendered : Table (DiffCacheKey π) (Option Text)} {aggregated : Text}
    (hfound : ∀ pair ∈ pairs, (previous.lookup (tracker.cacheKey pair)).getD
      (tracker.renderPair host late pair) = renders pair) :
    (tracker.renderLoop host late pairs previous rendered aggregated).2 =
        pairs.foldl (fun aggregated pair => pushDiff aggregated (renders pair)) aggregated ∧
      ∀ key diff, (tracker.renderLoop host late pairs previous rendered aggregated).1.lookup key = some diff →
        rendered.lookup key = some diff ∨ ∃ pair, key = tracker.cacheKey pair ∧ diff = renders pair := by
  induction pairs generalizing previous rendered aggregated with
  | nil => exact ⟨rfl, fun _ _ hlookup => .inl hlookup⟩
  | cons pair pairs ih =>
    obtain ⟨hfirst, hnodup⟩ := nodup_cons.mp hnodup
    unfold TurnDiffTracker.renderLoop
    dsimp only
    rw [hfound pair mem_cons_self, foldl_cons]
    have hothers : ∀ other ∈ pairs, ((previous.erase (tracker.cacheKey pair)).lookup
        (tracker.cacheKey other)).getD (tracker.renderPair host late other) = renders other := by
      intro other hother
      have hne : tracker.cacheKey other ≠ tracker.cacheKey pair := fun hsame =>
        hfirst (cacheKey_injective hsame ▸ hother)
      rw [AList.lookup_erase_ne hne]
      exact hfound other (mem_cons_of_mem _ hother)
    obtain ⟨htext, hcache⟩ := @ih hnodup _ (rendered.insert (tracker.cacheKey pair) (renders pair))
      (pushDiff aggregated (renders pair)) hothers
    refine ⟨htext, fun key diff hlookup => ?_⟩
    obtain hinserted | hrest := hcache key diff hlookup
    · by_cases hkey : key = tracker.cacheKey pair
      · subst hkey
        rw [AList.lookup_insert] at hinserted
        exact .inr ⟨pair, rfl, (Option.some.inj hinserted).symm⟩
      · rw [AList.lookup_insert_ne hkey] at hinserted
        exact .inl hinserted
    · exact .inr hrest

/-- The renderings of the pairs, one behind the other. -/
def renderings (tracker : TurnDiffTracker π) (host : DiffHost π) (late : DiffCacheKey π → Bool) : Text :=
  (tracker.renderedPairs host).foldl
    (fun aggregated pair => pushDiff aggregated (tracker.renderPair host late pair)) []

/-- A text that is shown if it says something. -/
def shown (text : Text) : Option Text := if text = [] then none else some text

/-- Which renderings are late after a call: those of the cache that were, and of the rest those that are now. -/
def lateAfter (tracker : TurnDiffTracker π) (late now : DiffCacheKey π → Bool) (key : DiffCacheKey π) : Bool :=
  if (tracker.renderedDiffs.lookup key).isSome then late key else now key

theorem Remembers.forget (h : Remembers host late tracker contentOf) (now : DiffCacheKey π → Bool) :
    Remembers host now { tracker with renderedDiffs := ∅ } contentOf :=
  ⟨h.baseline, h.current, fun _ _ hlookup => (by cases hlookup)⟩

/-- **A refresh shows the renderings of the pairs**, each as it was made first, and leaves a right cache. -/
theorem Remembers.refreshUnifiedDiff (h : Remembers host late tracker contentOf)
    (now : DiffCacheKey π → Bool) :
    (tracker.refreshUnifiedDiff host now).unifiedDiff =
        shown (tracker.renderings host (tracker.lateAfter late now)) ∧
      Remembers host (tracker.lateAfter late now) (tracker.refreshUnifiedDiff host now) contentOf := by
  have hfound : ∀ pair ∈ tracker.renderedPairs host,
      (tracker.renderedDiffs.lookup (tracker.cacheKey pair)).getD (tracker.renderPair host now pair) =
        tracker.renderPair host (tracker.lateAfter late now) pair := by
    intro pair _
    unfold renderPair lateAfter
    cases hlookup : tracker.renderedDiffs.lookup (tracker.cacheKey pair) with
    | none => rfl
    | some diff =>
      exact (h.cached _ diff hlookup).rendered_eq.trans (h.cached_renderPair pair).rendered_eq.symm
  obtain ⟨htext, hcache⟩ :=
    @renderLoop_eq π _ tracker host now (tracker.renderedPairs host) pairLoop_nodup _ _ ∅ [] hfound
  constructor
  · unfold TurnDiffTracker.refreshUnifiedDiff
    dsimp only
    rw [htext]
    rfl
  · refine ⟨h.baseline, h.current, fun key rendered hlookup => ?_⟩
    obtain hempty | ⟨pair, rfl, rfl⟩ := hcache key rendered hlookup
    · cases hempty
    · have hcached := (h.forget (tracker.lateAfter late now)).cached_renderPair pair
      exact ⟨hcached.left, hcached.right, hcached.rendered_eq⟩

theorem applyChange_valid : (tracker.applyChange environmentId change).valid = tracker.valid := by
  have hnote : ∀ (tracker : TurnDiffTracker π) (path : TrackedPath π) (content : Option Text),
      (tracker.noteBaseline path content).valid = tracker.valid := by
    intro tracker path content
    unfold noteBaseline
    cases content with
    | none => rfl
    | some content =>
      dsimp only
      split <;> rfl
  obtain ⟨path, change⟩ := change
  cases change with
  | add content overwrittenContent => exact hnote _ _ _
  | delete content => exact hnote _ _ _
  | update movePath oldContent overwrittenMoveContent newContent =>
    cases movePath with
    | none => exact hnote _ _ _
    | some movePath => exact (hnote _ _ _).trans (hnote _ _ _)

theorem applyChanges_valid {changes : List (AppliedPatchChange π)} :
    (tracker.applyChanges environmentId changes).valid = tracker.valid := by
  induction changes generalizing tracker with
  | nil => rfl
  | cons change changes ih => exact ih.trans applyChange_valid

end

end TurnDiffTracker

/-! ## Whole turns -/

section

variable {π : Type} [DecidableEq π] {host : DiffHost π} {workspace : Workspace π} {turn after : Turn π}
  {call : TrackCall π} {roots : Table Text π}

open TurnDiffTracker

/-- What holds between the calls of a turn that began with these files, in which these renderings may have been
late. -/
structure Turn.Sound (host : DiffHost π) (passed : DiffCacheKey π → Prop) (workspace : Workspace π)
    (turn : Turn π) : Prop where
  valid : turn.tracker.valid = true
  initial_eq : turn.initial = workspace
  agrees : Agrees turn.tracker workspace turn.now
  remembered : Remembered host passed turn.tracker
  diff_eq : ∃ late, (∀ key, late key = true → passed key) ∧
    turn.tracker.unifiedDiff = shown (turn.tracker.renderings host late)

variable {passed : DiffCacheKey π → Prop}

/-- **One call keeps all of it.** -/
theorem Turn.Sound.step (h : Turn.Sound host passed workspace turn)
    (hpassed : ∀ key, call.late key = true → passed key) (hstep : turn.step host call = some after) :
    Turn.Sound host passed workspace after := by
  obtain ⟨hexact, hstep⟩ := ite_none_right_eq_some.mp hstep
  obtain ⟨now, hnow, rfl⟩ := map_eq_some_iff.mp hstep
  have hagrees := h.agrees.applyChanges hnow
  obtain ⟨late, contentOf, hlate, hremembers⟩ : Remembered host passed
      (turn.tracker.applyChanges call.environmentId call.delta.changes) := h.remembered.applyChanges
  have htrack : turn.tracker.trackDelta host call.late call.environmentId call.delta =
      (turn.tracker.applyChanges call.environmentId call.delta.changes).refreshUnifiedDiff host
        call.late := by
    unfold trackDelta
    rw [h.valid, hexact]
    rfl
  obtain ⟨hshown, hafter⟩ := hremembers.refreshUnifiedDiff call.late
  generalize hall : lateAfter _ late call.late = all at hshown hafter
  have hall : ∀ key, all key = true → passed key := by
    subst hall
    intro key hkey
    unfold lateAfter at hkey
    split at hkey
    next => exact hlate key hkey
    next => exact hpassed key hkey
  rw [htrack]
  exact ⟨applyChanges_valid.trans h.valid, h.initial_eq, hagrees, ⟨all, contentOf, hall, hafter⟩, all, hall,
    hshown⟩

/-- The renderings that were late in some call. -/
def LateIn (calls : List (TrackCall π)) (key : DiffCacheKey π) : Prop := ∃ call ∈ calls, call.late key = true

theorem Turn.Sound.run {calls : List (TrackCall π)} (h : Turn.Sound host passed workspace turn)
    (hpassed : ∀ key, LateIn calls key → passed key)
    (hrun : Machine.run (Turn.step host) turn calls = some after) : Turn.Sound host passed workspace after := by
  induction calls generalizing turn with
  | nil =>
    cases hrun
    exact h
  | cons call calls ih =>
    obtain ⟨next, hstep, hrest⟩ := Machine.run_cons_eq_some.mp hrun
    refine ih (h.step (fun key hkey => hpassed key ⟨call, mem_cons_self, hkey⟩) hstep) ?_ hrest
    rintro key ⟨other, hother, hkey⟩
    exact hpassed key ⟨other, mem_cons_of_mem _ hother, hkey⟩

/-- Paths that are numbers, with diffs that are the two texts, and no texts when it is late. -/
def plainHost : DiffHost Nat where
  relativePathFrom _ _ := none
  inferredNativePathString path := (Nat.repr path).toList
  gitBlobOid content := content
  unifiedDiff late old new _ _ := if late then [] else old ++ new
  iterPaths table := table.keys
  iterOrigins table := table.entries.map fun entry => (entry.1, entry.2)
  mem_iterPaths table path := by
    rw [← AList.mem_keys, AList.lookup_isSome]
  mem_iterOrigins table dest origin := by
    rw [← Option.mem_def, AList.mem_lookup_iff, List.mem_map]
    constructor
    · rintro ⟨⟨d, o⟩, hmem, hsame⟩
      cases hsame
      exact hmem
    · exact fun hmem => ⟨⟨dest, origin⟩, hmem, rfl⟩

end

end NovumAgent.TurnDiff
