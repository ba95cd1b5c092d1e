import NovumAgent.ApplyPatch.Apply

/-!
# Applying hunks when nothing fails

On files that are all text, without links and with no failures to come, each operation of the apply
loop has one outcome, which is written down here once: a probe and a read change nothing, a write and a removal
change the one path they are about.
-/

namespace NovumAgent.ApplyPatch

open World Disk

/-- Files that are all text. -/
abbrev Texts (P : Type) := P → Option Text

variable {P : Type} {env : Env P} {cwd path : P} {t t' : Texts P} {s : Applying P id}

/-- The world of these files, in which nothing fails. -/
def World.calm (texts : Texts P) : World P id := ⟨Disk.ofTexts texts, []⟩

theorem World.calm_injective (h : calm t = calm t') : t = t' := by
  funext p
  have hp : (t p).map Node.text = (t' p).map Node.text := congrFun (congrArg disk h) p
  exact Option.map_injective (fun a b hab => by cases hab; rfl) hp

theorem Disk.ofTexts_ne_link (t : Texts P) (p q : P) : ofTexts t p ≠ some (.link q) := by
  unfold ofTexts
  cases t p <;> simp

theorem Disk.follow_of_ne_link {disk : Disk P} {p : P} (h : ∀ q, disk p ≠ some (.link q))
    (fuel : Nat) : disk.follow (fuel + 1) p = some p := by
  unfold follow
  split
  next q hq => exact absurd hq (h q)
  next => rfl

theorem Disk.target_ofTexts (t : Texts P) (p : P) : (ofTexts t).target p = some p :=
  follow_of_ne_link (ofTexts_ne_link t p) 40

theorem Disk.read_ofTexts (t : Texts P) (p : P) :
    (ofTexts t).read p = (t p).elim (.error .notFound) .ok := by
  unfold read
  rw [target_ofTexts]
  cases h : t p <;> simp [ofTexts, h, Node.read]

theorem Disk.metadata_ofTexts (t : Texts P) (p : P) : (ofTexts t).metadata p =
      (t p).elim (.error .notFound) fun _ => .ok ⟨false, true, false⟩ := by
  unfold metadata
  rw [target_ofTexts]
  cases h : t p <;> simp [ofTexts, h, isLink, Node.metadata]

@[simp] theorem readFileText_calm (p : P) :
    (calm t).readFileText p = ((t p).elim (.error .notFound) .ok, calm t) := by
  rw [← read_ofTexts]
  rfl

theorem ensureNotDirectory_calm (p : P) : ensureNotDirectory p (calm t) =
      ((t p).elim (.error .notFound) fun _ => .ok (), calm t) := by
  unfold ensureNotDirectory getMetadata
  cases h : t p <;> simp [calm, fault, after, metadata_ofTexts, h]

theorem noteExistingPathDeltaSupport_calm (hw : s.world = calm t) (p : P) :
    noteExistingPathDeltaSupport p s = s := by
  obtain ⟨world, changes, exact, affected⟩ := s
  subst hw
  unfold noteExistingPathDeltaSupport getMetadata
  cases h : t p <;> simp [calm, fault, after, metadata_ofTexts, h]

theorem readOptionalFileTextForDelta_calm (hw : s.world = calm t) (p : P) :
    readOptionalFileTextForDelta p s = (t p, s) := by
  simp only [readOptionalFileTextForDelta, noteExistingPathDeltaSupport_calm hw, hw,
    readFileText_calm]
  obtain ⟨world, changes, exact, affected⟩ := s
  subst hw
  cases h : t p <;> rfl

variable [DecidableEq P]

theorem Disk.update_ofTexts (t : Texts P) (p : P) (x : Option Text) :
    Function.update (ofTexts t) p (x.map Node.text) = ofTexts (Function.update t p x) := by
  funext q
  by_cases hq : q = p
  · subst hq
    simp [ofTexts]
  · simp [ofTexts, hq]

theorem writeFile_calm (p : P) (content : Text) : (calm t).writeFile p content =
      (.ok (), calm (Function.update t p (some content))) := by
  have hput : (ofTexts t).put p (some (.text content)) =
      ofTexts (Function.update t p (some content)) := by
    rw [put, target_ofTexts]
    exact update_ofTexts t p (some content)
  unfold writeFile
  cases h : t p <;> simp [calm, fault, after, target_ofTexts, hput] <;> simp [ofTexts, h]

theorem remove_calm {content : Text} (h : t path = some content) :
    (calm t).remove path = (.ok (), calm (Function.update t path none)) := by
  have hupdate := update_ofTexts t path none
  unfold remove
  simp [calm, fault, after, ofTexts, h]
  exact hupdate

theorem writeFileWithMissingParentRetry_calm (p : P) (content : Text) :
    writeFileWithMissingParentRetry env p content (calm t) =
      (.ok (), calm (Function.update t p (some content))) := by
  simp only [writeFileWithMissingParentRetry, writeFile_calm]

theorem removeOriginal_calm (hw : s.world = calm t) {content : Text}
    (h : t path = some content) (context : Text) (expected : Option Text) :
    removeOriginal path context expected s =
      .ok { s with world := calm (Function.update t path none) } := by
  unfold removeOriginal
  rw [hw, ensureNotDirectory_calm, h]
  simp only [Option.elim_some, remove_calm h]

theorem removeOriginal_calm_none (hw : s.world = calm t) (h : t path = none)
    (context : Text) (expected : Option Text) :
    removeOriginal path context expected s = .error (.io context .notFound, s) := by
  unfold removeOriginal
  rw [hw, ensureNotDirectory_calm, h, ← hw]
  rfl

/-- **A move writes its destination and then removes its source**, and the delta tells of both. -/
theorem applyMove_calm (hw : s.world = calm t) (dest : P) (patch : AppliedPatch)
    (affectedPath : Text) (hsource : t path = some patch.originalContents) :
    applyMove env path dest patch affectedPath s = .ok
      { world := calm (Function.update (Function.update t dest (some patch.newContents)) path none)
        changes := s.changes ++
          [⟨path, .update (some dest) patch.originalContents (t dest) patch.newContents⟩]
        exact := s.exact
        affected := { s.affected with modified := s.affected.modified ++ [affectedPath] } } := by
  obtain ⟨content, hthere⟩ :
      ∃ content, Function.update t dest (some patch.newContents) path = some content := by
    by_cases hp : path = dest
    · exact ⟨patch.newContents, by simp [hp]⟩
    · exact ⟨patch.originalContents, by simp [hp, hsource]⟩
  unfold applyMove
  simp only [readOptionalFileTextForDelta_calm hw, hw, writeFileWithMissingParentRetry_calm]
  rw [removeOriginal_calm rfl hthere]
  simp [Applying.push]

/-! ## Two small files -/

/-- Paths that are their own text, and no diffs to show. -/
def plainEnv : Env Text := ⟨fun _ path => some path, fun _ => [], id, fun _ _ _ => []⟩

/-- A chunk that puts one line in the place of another. -/
def lineChunk (old new : Text) : UpdateFileChunk := ⟨none, [old], [new], [], false⟩

/-- Two files of one line. -/
def twoFiles : Texts Text := fun path =>
  if path = ['a'] then some ['x', '\n'] else if path = ['b'] then some ['z', '\n'] else none

/-- The first file is changed and moved onto itself. -/
def selfMove : Hunk := .updateFile ['a'] (some ['a']) [lineChunk ['x'] ['y']]

end NovumAgent.ApplyPatch
