import NovumAgent.Lib.StableSort
import NovumAgent.Lib.Table

/-!
# Pruning processes

When the store is full, opening a process makes room by removing another one: the least recently used that
has exited, or else the least recently used, but none of the eight most recently used and none whose
interaction lock is held. Locks and exits are read one after the other, while processes go on exiting; what
the pruning promises holds whenever they are read (`pruning_protects`). That the removed process has exited
rests on exits that stay (`Moments.Stays`): the state of a remote process is read and written back, so
that an exit in between can be undone.
-/

namespace NovumAgent.UnifiedExec

open List

def maxUnifiedExecProcesses : Nat := 64

/-- `ProcessStore`: of an entry, when it was last used. -/
structure ProcessStore where
  processes : Table Int Nat
  reservedProcessIds : List Int

def ProcessStore.remove (deterministic : Bool) (store : ProcessStore) (processId : Int) : ProcessStore where
  processes := store.processes.erase processId
  reservedProcessIds :=
    if deterministic then store.reservedProcessIds else store.reservedProcessIds.filter (· ≠ processId)

/-- What is read of a process, at one moment after the other. At the first moment its entry is copied into
the snapshot. -/
structure Moments where
  hasExited : Nat → Int → Bool
  locked : Nat → Int → Bool

/-- An exited process stays exited. -/
def Moments.Stays (moments : Moments) : Prop :=
  ∀ moment id, moments.hasExited moment id = true → moments.hasExited (moment + 1) id = true

/-- An element of the snapshot `meta`. -/
structure ProcessMeta where
  processId : Int
  lastUsed : Nat
  exited : Bool

/-- Used at least as late. -/
def ProcessMeta.Later (a b : ProcessMeta) : Prop := b.lastUsed ≤ a.lastUsed

instance : DecidableRel ProcessMeta.Later := fun a b => inferInstanceAs (Decidable (b.lastUsed ≤ a.lastUsed))

/-- The eight processes that were used last. -/
def protectedIds (snapshot : List ProcessMeta) : List Int :=
  ((snapshot.insertionSort ProcessMeta.Later).take 8).map ProcessMeta.processId

def processIdToPruneFromMeta (snapshot : List ProcessMeta) : Option Int :=
  let lru := snapshot.insertionSort fun a b => b.Later a
  match lru.find? fun m => m.processId ∉ protectedIds snapshot && m.exited with
  | some m => some m.processId
  | none => (lru.find? fun m => m.processId ∉ protectedIds snapshot).map ProcessMeta.processId

/-- The snapshot without a candidate. -/
def retain (snapshot : List ProcessMeta) (processId : Int) : List ProcessMeta :=
  snapshot.filter (·.processId ≠ processId)

variable {snapshot : List ProcessMeta} {id : Int}

/-- A candidate is not protected, and has exited if one that is not protected has. -/
theorem candidate_spec (h : processIdToPruneFromMeta snapshot = some id) :
    id ∉ protectedIds snapshot ∧ ∃ m ∈ snapshot, m.processId = id ∧
      ((∃ x ∈ snapshot, x.processId ∉ protectedIds snapshot ∧ x.exited = true) → m.exited = true) := by
  unfold processIdToPruneFromMeta at h
  dsimp only at h
  split at h
  next m hfind =>
    cases h
    obtain ⟨hfree, hexited⟩ : m.processId ∉ protectedIds snapshot ∧ m.exited = true := by
      simpa using find?_some hfind
    exact ⟨hfree, m, (mem_insertionSort _).mp (mem_of_find?_eq_some hfind), rfl, fun _ => hexited⟩
  next hnone =>
    obtain ⟨m, hfind, rfl⟩ := Option.map_eq_some_iff.mp h
    refine ⟨by simpa using find?_some hfind, m,
      (mem_insertionSort _).mp (mem_of_find?_eq_some hfind), rfl, ?_⟩
    rintro ⟨x, hx, hfree, hexited⟩
    have hnot := find?_eq_none.mp hnone x ((mem_insertionSort _).mpr hx)
    simp [hfree, hexited] at hnot

/-- The loop of `prune_processes_if_needed`: the process it removes, and the moment at which its lock was free.
A candidate is read twice, and leaves the snapshot if its lock is held. -/
def pruneLoop (moments : Moments) (moment : Nat) (foundLockedExitedProcess : Bool)
    (snapshot : List ProcessMeta) : Option (Int × Nat) :=
  match h : processIdToPruneFromMeta snapshot with
  | none => none
  | some id =>
    let candidateHasExited := moments.hasExited (moment + 1) id
    if foundLockedExitedProcess && !candidateHasExited then none
    else if !moments.locked (moment + 2) id then some (id, moment + 2)
    else
      pruneLoop moments (moment + 3)
        (foundLockedExitedProcess || (candidateHasExited || moments.hasExited (moment + 3) id))
        (retain snapshot id)
termination_by snapshot.length
decreasing_by
  obtain ⟨-, m, hm, hid, -⟩ := candidate_spec h
  exact length_filter_lt_length_iff_exists.mpr ⟨m, hm, by simpa using hid⟩

/-- The snapshot that the pruning takes. -/
def ProcessStore.taken (moments : Moments) (store : ProcessStore) : List ProcessMeta :=
  store.processes.entries.map fun e => ⟨e.1, e.2, moments.hasExited 0 e.1⟩

/-- `prune_processes_if_needed`, with the process that is removed and the moment. -/
def pruneProcessesIfNeeded (moments : Moments) (deterministic : Bool) (store : ProcessStore) :
    ProcessStore × Option (Int × Nat) :=
  if store.processes.size < maxUnifiedExecProcesses then (store, none)
  else
    match pruneLoop moments 0 false (store.taken moments) with
    | none => (store, none)
    | some (id, moment) => (store.remove deterministic id, some (id, moment))

/-! ## The protected processes -/

instance : IsTrans ProcessMeta ProcessMeta.Later := ⟨fun _ _ _ h h' => le_trans h' h⟩

instance : Std.Total ProcessMeta.Later := ⟨fun _ _ => le_total _ _⟩

/-- A candidate that leaves the snapshot leaves the protected ones as they were. -/
theorem protectedIds_retain (h : id ∉ protectedIds snapshot) :
    protectedIds snapshot <+: protectedIds (retain snapshot id) := by
  unfold protectedIds at h ⊢
  unfold retain
  rw [insertionSort_filter]
  generalize snapshot.insertionSort ProcessMeta.Later = sorted at h ⊢
  have hfirst : (sorted.take 8).filter (·.processId ≠ id) = sorted.take 8 := by
    refine filter_eq_self.mpr fun m hm => decide_eq_true ?_
    rintro rfl
    exact h (mem_map_of_mem hm)
  refine IsPrefix.map _ (prefix_take_iff.mpr ⟨?_, length_take_le _ _⟩)
  rw [← hfirst]
  exact IsPrefix.filter _ <| take_prefix 8 sorted

/-- The eight processes that were used last, or all if there are no more. -/
structure MostRecent (store : ProcessStore) (recent : List Int) : Prop where
  nodup : recent.Nodup
  length : recent.length = min 8 store.processes.size
  latest : ∀ i ∈ recent, ∃ used, store.processes.lookup i = some used ∧
    ∀ j other, j ∉ recent → store.processes.lookup j = some other → other ≤ used

theorem mostRecent_protectedIds (moments : Moments) (store : ProcessStore) :
    MostRecent store (protectedIds (store.taken moments)) := by
  have hperm := perm_insertionSort ProcessMeta.Later (store.taken moments)
  have hsorted := pairwise_insertionSort ProcessMeta.Later (store.taken moments)
  have hkeys : ((store.taken moments).map ProcessMeta.processId).Nodup := by
    rw [ProcessStore.taken, map_map]
    exact store.processes.nodupKeys
  unfold protectedIds
  generalize (store.taken moments).insertionSort ProcessMeta.Later = sorted at hperm hsorted ⊢
  rw [← take_append_drop 8 sorted, pairwise_append] at hsorted
  refine ⟨((take_sublist 8 sorted).map _).nodup ((hperm.map _).nodup_iff.mpr hkeys), ?_, ?_⟩
  · rw [length_map, length_take, hperm.length_eq, ProcessStore.taken, length_map]
    rfl
  · intro i hi
    obtain ⟨m, hm, rfl⟩ := mem_map.mp hi
    obtain ⟨e, he, rfl⟩ := mem_map.mp (hperm.mem_iff.mp (mem_of_mem_take hm))
    refine ⟨e.2, AList.mem_lookup_iff.mpr he, fun j other hj hother => ?_⟩
    have hmem := hperm.mem_iff.mpr (mem_map_of_mem (AList.mem_lookup_iff.mp hother))
    rw [← take_append_drop 8 sorted] at hmem
    rcases mem_append.mp hmem with hmem | hmem
    · exact absurd (mem_map_of_mem hmem) hj
    · exact hsorted.2.2 _ hm _ hmem

/-! ## The loop -/

variable {moments : Moments} {found : Bool} {start moment : Nat}

theorem Moments.Stays.mono (hstays : moments.Stays) {early late : Nat} (hle : early ≤ late)
    (h : moments.hasExited early id = true) : moments.hasExited late id = true := by
  induction hle with
  | refl => exact h
  | step _ ih => exact hstays _ _ ih

/-- **What the loop removes** was not protected and its lock was free; and where exits stay it had exited, if an
exited process was found locked or one that is not protected was seen to have exited. -/
theorem pruneLoop_spec (hread : ∀ m ∈ snapshot, m.exited = true → moments.hasExited 0 m.processId = true)
    (h : pruneLoop moments start found snapshot = some (id, moment)) :
    id ∉ protectedIds snapshot ∧ (∃ m ∈ snapshot, m.processId = id) ∧ moments.locked moment id = false ∧
      (moments.Stays →
        found = true ∨ (∃ x ∈ snapshot, x.processId ∉ protectedIds snapshot ∧ x.exited = true) →
        moments.hasExited moment id = true) := by
  fun_induction pruneLoop moments start found snapshot with
  | case1 => cases h
  | case2 => cases h
  | case3 start found snapshot candidate hcandidate exited hnot hfree =>
    cases h
    obtain ⟨hout, m, hm, hid, hexited⟩ := candidate_spec hcandidate
    refine ⟨hout, ⟨m, hm, hid⟩, by simpa using hfree, ?_⟩
    rintro hstays (hfound | hseen)
    · have hnow : exited = true := by simpa [hfound] using hnot
      exact hstays.mono (Nat.le_succ _) hnow
    · exact hid ▸ hstays.mono (Nat.zero_le _) (hread m hm (hexited hseen))
  | case4 start found snapshot candidate hcandidate exited hnot hlocked ih =>
    obtain ⟨hout, m, hm, hid, hexited⟩ := candidate_spec hcandidate
    have hkept : retain snapshot candidate ⊆ snapshot := filter_subset_self _
    obtain ⟨hid', ⟨x, hx, hxid⟩, hfree, hdone⟩ := ih (fun m hm => hread m (hkept hm)) h
    refine ⟨fun hmem => hid' ((protectedIds_retain hout).subset hmem), ⟨x, hkept hx, hxid⟩, hfree, ?_⟩
    rintro hstays (hfound | hseen)
    · exact hdone hstays (.inl (by simp [hfound]))
    · have hnow : moments.hasExited (start + 1) candidate = true :=
        hid ▸ hstays.mono (Nat.zero_le _) (hread m hm (hexited hseen))
      exact hdone hstays (.inl (by simp [exited, hnow]))

/-- **Pruning protects what it promises.** Whatever is locked and whenever processes exit: nothing is removed, or
one process, which is none of the eight that were used last and whose lock was free at that moment; and where
exits stay, if one outside of those eight had exited when the snapshot was taken, it had exited itself. -/
theorem pruning_protects (moments : Moments) (deterministic : Bool) (store : ProcessStore) :
    ∃ recent, MostRecent store recent ∧
      ((pruneProcessesIfNeeded moments deterministic store).2 = none →
        (pruneProcessesIfNeeded moments deterministic store).1 = store) ∧
      ∀ id moment, (pruneProcessesIfNeeded moments deterministic store).2 = some (id, moment) →
        (pruneProcessesIfNeeded moments deterministic store).1 = store.remove deterministic id ∧
        id ∈ store.processes ∧ id ∉ recent ∧ moments.locked moment id = false ∧
        (moments.Stays → (∃ other ∈ store.processes, other ∉ recent ∧ moments.hasExited 0 other = true) →
          moments.hasExited moment id = true) := by
  refine ⟨_, mostRecent_protectedIds moments store, ?_, ?_⟩
  all_goals unfold pruneProcessesIfNeeded
  · split
    next => exact fun _ => rfl
    next =>
      split
      next => exact fun _ => rfl
      next => nofun
  · intro id moment h
    split at h
    next => cases h
    next hfull =>
      rw [if_neg hfull]
      split at h
      next => cases h
      next hloop =>
        cases h
        have hread : ∀ m ∈ store.taken moments, m.processId ∈ store.processes ∧
            m.exited = moments.hasExited 0 m.processId := by
          intro m hm
          obtain ⟨e, he, rfl⟩ := mem_map.mp hm
          exact ⟨AList.mem_keys.mpr (mem_keys_of_mem he), rfl⟩
        obtain ⟨hout, ⟨m, hm, rfl⟩, hfree, hexited⟩ :=
          pruneLoop_spec (fun m hm hexited => (hread m hm).2 ▸ hexited) hloop
        refine ⟨rfl, (hread m hm).1, hout, hfree, ?_⟩
        rintro hstays ⟨other, hother, hother', hseen⟩
        obtain ⟨e, he, rfl⟩ := mem_map.mp hother
        exact hexited hstays (.inr ⟨_, mem_map_of_mem he, hother', hseen⟩)

/-- The sixth process exits, and no lock is held. -/
def sixthExits : Moments := ⟨fun _ id => id = 5, fun _ _ => false⟩

/-- A full store, whose processes were used one after the other. -/
def fullStore : ProcessStore := ⟨((range 64).map fun n => ⟨(n : Int), n⟩).toAList, []⟩

/-- The sixth process is removed from the full store, though five were not used for longer. -/
theorem pruning_protects_full : sixthExits.Stays ∧
    (pruneProcessesIfNeeded sixthExits true fullStore).2 = some (5, 2) ∧
      sixthExits.hasExited 2 5 = true := by
  have hstays : sixthExits.Stays := fun _ _ => id
  have hcandidate : processIdToPruneFromMeta (fullStore.taken sixthExits) = some 5 := by decide +kernel
  have hremoved : (pruneProcessesIfNeeded sixthExits true fullStore).2 = some (5, 2) := by
    unfold pruneProcessesIfNeeded
    rw [if_neg (by decide +kernel), pruneLoop]
    split
    next hnone =>
      split at hnone
      next hempty => cases hcandidate.symm.trans hempty
      next => cases hnone
    next id moment hsome =>
      split at hsome
      next => cases hsome
      next candidate hfirst =>
        cases hcandidate.symm.trans hfirst
        exact hsome.symm
  obtain ⟨recent, hrecent, -, hprune⟩ := pruning_protects sixthExits true fullStore
  refine ⟨hstays, hremoved, (hprune 5 2 hremoved).2.2.2.2 hstays ?_⟩
  exact ⟨5, (hprune 5 2 hremoved).2.1, (hprune 5 2 hremoved).2.2.1, rfl⟩

end NovumAgent.UnifiedExec
