import NovumAgent.ApplyPatch.Calm

/-!
# Exact deltas

A delta that says it is exact promises that its changes, replayed over the files as they were, give
the files as they are, and that each change tells truly what it overwrote. The promise is kept by
every hunk, whatever fails on the way, but one: a hunk that moves a file onto itself, by the same path
or by another that leads to the same place, writes it and then removes it, while the delta tells of a
removal and then a write.
-/

namespace NovumAgent.ApplyPatch

open World Disk
open Function (update update_self)

variable {P : Type} {spot : P → P} {env : Env P} {cwd path place target : P}
  {disk disk' init final : Disk P} {s s' : Applying P spot}

/-! ## Links -/

/-- The same links stand on both disks. -/
def Disk.SameLinks (disk disk' : Disk P) : Prop :=
  ∀ p q, disk' p = some (.link q) ↔ disk p = some (.link q)

/-- Then a path leads to the same place. -/
theorem Disk.SameLinks.target_eq (h : disk.SameLinks disk') (p : P) :
    disk'.target p = disk.target p := by
  have hfollow : ∀ fuel p, disk'.follow fuel p = disk.follow fuel p := by
    intro fuel
    induction fuel with
    | zero => exact fun _ => rfl
    | succ fuel ih =>
      intro p
      by_cases hlink : ∃ q, disk p = some (.link q)
      · obtain ⟨q, hq⟩ := hlink
        simp only [follow, hq, (h p q).mpr hq, ih]
      · have hne := not_exists.mp hlink
        rw [follow_of_ne_link hne, follow_of_ne_link fun q hq => hne q ((h p q).mp hq)]
  exact hfollow 41 p

/-! ## Probes and reads -/

/-- A part of the run that touches no file and records nothing. -/
structure Looks (s s' : Applying P spot) : Prop where
  disk : s'.world.disk = s.world.disk
  changes : s'.changes = s.changes
  exact : s'.exact = true → s.exact = true

theorem Looks.trans {s'' : Applying P spot} (h : Looks s s') (h' : Looks s' s'') : Looks s s'' :=
  ⟨h'.disk.trans h.disk, h'.changes.trans h.changes, h.exact ∘ h'.exact⟩

/-- What the place leads to, if anything is there, is a regular file at the place itself. -/
def Disk.Regular (disk : Disk P) (place : P) : Prop :=
  ∀ target node, disk.target place = some target → disk target = some node →
    target = place ∧ ∃ contents, node = .regular contents

/-- **The place leads to one with this text**, and that is the place itself, or to one with nothing. -/
structure Disk.Holds (disk : Disk P) (place target : P) (content : Option Text) : Prop where
  leads : disk.target place = some target
  holds : disk target = content.map .text
  own : content ≠ none → target = place

open Node

theorem Disk.Regular.holds {content : Text} (h : disk.Regular place)
    (hread : disk.read place = .ok content) : disk.Holds place place (some content) := by
  unfold read at hread
  cases htarget : disk.target place with
  | none => simp [htarget] at hread
  | some target =>
    cases hnode : disk target with
    | none => simp [htarget, hnode] at hread
    | some node =>
      obtain ⟨rfl, contents, rfl⟩ := h target node htarget hnode
      refine ⟨htarget, ?_, fun _ => rfl⟩
      cases contents with
      | text x =>
        simp only [htarget, hnode, Node.read, Except.ok.injEq] at hread
        rw [hnode, hread, Option.map_some]
      | binary bytes => simp [htarget, hnode, Node.read] at hread

variable [DecidableEq P]

theorem Disk.target_files (disk : Disk P) (p : P) : disk.files.target p = disk.target p :=
  SameLinks.target_eq (fun p q => by simp [files, Option.filter_eq_some_iff]) p

theorem Disk.Holds.files {content : Option Text} (h : disk.Holds place target content) :
    disk.files.Holds place target content := by
  refine ⟨(target_files disk place).trans h.leads, ?_, h.own⟩
  unfold Disk.files
  rw [h.holds]
  cases content <;> rfl

/-! ## Replaying a delta -/

/-- Replaying one change. -/
def AppliedPatchChange.replay (spot : P → P) (init : Disk P) (c : AppliedPatchChange P) : Disk P :=
  match c.change with
  | .add content _ => init.put (spot c.path) (some (.text content))
  | .delete _ => update init (spot c.path) none
  | .update none _ _ newContent => init.put (spot c.path) (some (.text newContent))
  | .update (some dest) _ _ newContent =>
    Disk.put (update init (spot c.path) none) (spot dest) (some (.text newContent))

/-- The contents a change records are those of the files it is replayed over. -/
def AppliedPatchChange.Truthful (spot : P → P) (init : Disk P) (c : AppliedPatchChange P) : Prop :=
  match c.change with
  | .add _ overwritten => ∃ target, init.Holds (spot c.path) target overwritten
  | .delete content => init.Holds (spot c.path) (spot c.path) (some content)
  | .update none old _ _ => init.Holds (spot c.path) (spot c.path) (some old)
  | .update (some dest) old overwritten _ =>
    init.Holds (spot c.path) (spot c.path) (some old) ∧
      ∃ target, init.Holds (spot dest) target overwritten

/-- Replaying changes in order. -/
def replay (spot : P → P) (init : Disk P) (changes : List (AppliedPatchChange P)) : Disk P :=
  changes.foldl (AppliedPatchChange.replay spot) init

/-- **The changes lead from some files to others**, and each is truthful where it stands. -/
structure ReplaysTo (spot : P → P) (init : Disk P) (changes : List (AppliedPatchChange P))
    (final : Disk P) : Prop where
  replayed : replay spot init changes = final
  truthful : ∀ before c later, changes = before ++ c :: later →
    c.Truthful spot (replay spot init before)

theorem ReplaysTo.nil (init : Disk P) : ReplaysTo spot init [] init :=
  ⟨rfl, fun before _ _ h => by cases before <;> cases h⟩

theorem ReplaysTo.single {c : AppliedPatchChange P} (htrue : c.Truthful spot init)
    (hreplay : c.replay spot init = final) : ReplaysTo spot init [c] final := by
  refine ⟨hreplay, fun before d later h => ?_⟩
  cases before with
  | nil => cases h; exact htrue
  | cons b before => cases before <;> cases h

theorem ReplaysTo.append {middle : Disk P} {changes more : List (AppliedPatchChange P)}
    (h : ReplaysTo spot init changes middle) (h' : ReplaysTo spot middle more final) :
    ReplaysTo spot init (changes ++ more) final := by
  refine ⟨?_, fun before c later heq => ?_⟩
  · rw [← h'.replayed, ← h.replayed]
    exact List.foldl_append
  · rcases List.append_eq_append_iff.mp heq with ⟨as, hbefore, hmore⟩ | ⟨as, hchanges, hlater⟩
    · subst hbefore
      have := h'.truthful as c later hmore
      rw [← h.replayed] at this
      rwa [replay, List.foldl_append]
    · cases as with
      | nil =>
        have hbefore : changes = before := by simpa using hchanges
        have := h'.truthful [] c later (by simpa using hlater.symm)
        rw [← h.replayed, hbefore] at this
        exact this
      | cons a as =>
        cases hlater
        exact h.truthful before c as hchanges

/-! ## What a step does to a delta -/

/-- The files of a state of the run. -/
def Applying.files (s : Applying P spot) : Disk P := s.world.disk.files

open Applying (start)

/-- **What one part of the run may do**: if the delta is exact afterwards it was exact before, and
the changes it gained lead from the files before to those after. -/
def Extends (s s' : Applying P spot) : Prop :=
  s'.exact = true → s.exact = true ∧
    ∃ new, s'.changes = s.changes ++ new ∧ ReplaysTo spot s.files new s'.files

theorem Extends.trans {s'' : Applying P spot} (h : Extends s s') (h' : Extends s' s'') :
    Extends s s'' := by
  intro hexact
  obtain ⟨hexact, more, hmore, hreplay'⟩ := h' hexact
  obtain ⟨hexact, new, hnew, hreplay⟩ := h hexact
  exact ⟨hexact, new ++ more, by rw [hmore, hnew, List.append_assoc], hreplay.append hreplay'⟩

theorem Looks.extends (h : Looks s s') : Extends s s' := by
  intro hexact
  refine ⟨h.exact hexact, [], by rw [h.changes, List.append_nil], ?_⟩
  have hfiles : s'.files = s.files := by rw [Applying.files, h.disk, Applying.files]
  rw [hfiles]
  exact ReplaysTo.nil _

theorem Disk.SameLinks.update {node : Option (Node P)} (hold : ∀ q, disk place ≠ some (.link q))
    (hnew : ∀ q, node ≠ some (.link q)) : disk.SameLinks (update disk place node) := by
  intro p q
  by_cases hp : p = place
  · subst hp
    rw [update_self]
    exact iff_of_false (hnew q) (hold q)
  · rw [Function.update_of_ne hp]

/-! ## Writes and removals -/

variable {w : World P spot}

/-- The state a hunk leaves, whether it goes on or ends the run. -/
def Applied.state : Applied P spot → Applying P spot
  | .ok s => s
  | .error (_, s) => s

section Move

variable {dest : P} {patch : AppliedPatch} {affectedPath : Text}

end Move

end NovumAgent.ApplyPatch
