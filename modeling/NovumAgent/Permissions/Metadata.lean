import NovumAgent.Permissions.Policy

/-!
# Protected metadata

The code looks for the first metadata directory, in the order of the entries, that a path is in, and
asks of that one alone whether a write entry opens it. With one writable root inside the metadata
directory of another, a path can be in two such directories, of which only the outer one is opened:
by the inner root itself. What is decided then hangs on the order of the entries, and so whether the
inner directory is protected. `metadata_protected_iff` says for which paths all is well: those for
which every entry that has a metadata directory over the path comes to the same verdict, and lets it
through only if every such directory is opened.
-/

namespace NovumAgent.Permissions

open List Text Option

/-! ## The order of entries -/

section Order

theorem keyLe_iff (a b : FileSystemAccessMode × Nat) :
    keyLe a b = true ↔ a.2 < b.2 ∨ a.2 = b.2 ∧ a.1.rank ≤ b.1.rank := by
  rw [keyLe, decide_eq_true_eq]

variable {a b : FileSystemAccessMode × Nat}

theorem keyLe_antisymm (hab : keyLe a b = true) (hba : keyLe b a = true) : a = b := by
  rw [keyLe_iff] at hab hba
  have hdepth : a.2 = b.2 := by omega
  have hrank : a.1.rank = b.1.rank := by omega
  refine Prod.ext ?_ hdepth
  cases ha : a.1 <;> cases hb : b.1 <;> simp_all [FileSystemAccessMode.rank]

theorem keyLe_trans {c : FileSystemAccessMode × Nat} (hab : keyLe a b = true)
    (hbc : keyLe b c = true) : keyLe a c = true := by
  rw [keyLe_iff] at *
  omega

theorem keyLe_of_not (h : ¬ keyLe a b = true) : keyLe b a = true := by
  rw [keyLe_iff] at *
  omega

theorem maxByKey_spec (entries : List (FileSystemAccessMode × Nat)) :
    (maxByKey entries = none ↔ entries = []) ∧ ∀ best, maxByKey entries = some best →
        best ∈ entries ∧ ∀ entry ∈ entries, keyLe entry best = true := by
  induction entries using reverseRecOn with
  | nil => exact ⟨by simp [maxByKey], by simp [maxByKey]⟩
  | append_singleton entries entry ih =>
    obtain ⟨hnone, hsome⟩ := ih
    have hrefl : keyLe entry entry = true := by rw [keyLe_iff]; omega
    unfold maxByKey at *
    rw [foldl_append, foldl_cons, foldl_nil]
    split
    next hempty =>
      rw [hnone.mp hempty]
      refine ⟨by simp, ?_⟩
      rintro best ⟨⟩
      simpa using hrefl
    next best hbest =>
      obtain ⟨hmem, hle⟩ := hsome best hbest
      split
      next hlt =>
        refine ⟨by simp, ?_⟩
        rintro _ ⟨⟩
        refine ⟨by simp, fun e he => ?_⟩
        rcases mem_append.mp he with he | he
        · exact keyLe_trans (hle e he) hlt
        · rw [mem_singleton.mp he]
          exact hrefl
      next hgt =>
        refine ⟨by simp, ?_⟩
        rintro _ ⟨⟩
        refine ⟨mem_append_left _ hmem, fun e he => ?_⟩
        rcases mem_append.mp he with he | he
        · exact hle e he
        · rw [mem_singleton.mp he]
          exact keyLe_of_not hgt

theorem maxByKey_perm {entries entries' : List (FileSystemAccessMode × Nat)}
    (h : entries.Perm entries') : maxByKey entries = maxByKey entries' := by
  obtain ⟨hnone, hsome⟩ := maxByKey_spec entries
  obtain ⟨hnone', hsome'⟩ := maxByKey_spec entries'
  cases hbest : maxByKey entries with
  | none =>
    rw [hnone.mp hbest] at h
    exact (hnone'.mpr h.symm.eq_nil).symm
  | some best =>
    obtain ⟨hmem, hle⟩ := hsome best hbest
    cases hbest' : maxByKey entries' with
    | none =>
      rw [hnone'.mp hbest'] at h
      rw [h.eq_nil] at hmem
      cases hmem
    | some best' =>
      obtain ⟨hmem', hle'⟩ := hsome' best' hbest'
      rw [keyLe_antisymm (hle' best (h.mem_iff.mp hmem)) (hle best' (h.mem_iff.mpr hmem'))]

theorem entryDepths_eq (entries : List (PathUri × FileSystemAccessMode)) : entryDepths entries =
      if entries.any (fun entry => entry.1.lexicalDepth.isNone && !entry.1.isOpaque) then none
      else some (entries.filterMap fun entry =>
        entry.1.lexicalDepth.map fun depth => (entry.1, entry.2, depth)) := by
  induction entries with
  | nil => rfl
  | cons entry entries ih =>
    obtain ⟨root, access⟩ := entry
    rw [entryDepths, ih]
    cases hdepth : root.lexicalDepth with
    | some depth =>
      simp only [any_cons, hdepth, isNone_some, Bool.false_and, Bool.false_or,
        filterMap_cons, map_some]
      split <;> rfl
    | none =>
      simp only [any_cons, hdepth, isNone_none, Bool.true_and, filterMap_cons, map_none]
      cases root.isOpaque with
      | true => rfl
      | false => rfl

theorem entryDepths_perm {entries entries' : List (PathUri × FileSystemAccessMode)}
    (h : entries.Perm entries') :
    (entryDepths entries = none ∧ entryDepths entries' = none) ∨
      ∃ depths depths', entryDepths entries = some depths ∧ entryDepths entries' = some depths' ∧
        depths.Perm depths' := by
  rw [entryDepths_eq, entryDepths_eq, h.any_eq]
  split
  · exact .inl ⟨rfl, rfl⟩
  · exact .inr ⟨_, _, rfl, rfl, h.filterMap _⟩

variable (url : UrlCrate) (context : FileSystemSandboxPolicyContext)
  (policy : FileSystemSandboxPolicy) (path : PathUri)

/-- A policy with its entries in another order. -/
def reordered (entries : List FileSystemSandboxEntry) : FileSystemSandboxPolicy :=
  { policy with entries }

variable {policy} {entries : List FileSystemSandboxEntry}

section

variable (h : entries.Perm policy.entries)
include h

theorem resolvedEntries_perm : (resolvedEntries url context (reordered policy entries)).Perm
      (resolvedEntries url context policy) :=
  h.flatMap_right _

theorem resolveAccess_reordered : resolveAccess url context (reordered policy entries) path =
      resolveAccess url context policy path := by
  have hresolved := resolvedEntries_perm url context h
  unfold resolveAccess
  rw [show (reordered policy entries).kind = policy.kind from rfl]
  rcases entryDepths_perm hresolved with ⟨hnone, hnone'⟩ | ⟨depths, depths', hsome, hsome', hperm⟩
  · rw [hnone, hnone']
  · rw [hsome, hsome']
    simp only [maxByKey_perm ((hperm.filter _).map _)]

theorem hasFullDiskWriteAccess_reordered :
    hasFullDiskWriteAccessWithContext (reordered policy entries) context =
      hasFullDiskWriteAccessWithContext policy context := by
  have hoverride : hasSameTargetWriteOverride (reordered policy entries) =
      hasSameTargetWriteOverride policy := funext₂ fun _ _ => h.any_eq
  have hroot : ∀ predicate, hasRootAccess (reordered policy entries) predicate =
      hasRootAccess policy predicate := by
    intro predicate
    unfold hasRootAccess
    rw [show (reordered policy entries).entries = entries from rfl, h.any_eq]
    rfl
  have hnarrow : ∀ convention, hasWriteNarrowingEntries (reordered policy entries) convention =
      hasWriteNarrowingEntries policy convention := by
    intro convention
    unfold hasWriteNarrowingEntries
    simp only [hoverride]
    rw [show (reordered policy entries).entries = entries from rfl, h.any_eq]
    rfl
  unfold hasFullDiskWriteAccessWithContext hasFullDiskWriteAccessForConvention
  simp only [hroot, hnarrow]
  rfl

theorem opened_reordered (protectedDir : PathUri) :
    opened url context (reordered policy entries) path protectedDir =
      opened url context policy path protectedDir :=
  (((resolvedEntries_perm url context h).filter _).map _).any_eq

end

end Order

/-! ## Verdicts -/

section Verdicts

variable (url : UrlCrate) (context : FileSystemSandboxPolicyContext)
  (policy : FileSystemSandboxPolicy) (path : PathUri)

/-- The metadata directory over a path that an entry comes up with first. -/
def firstGuard (entry : FileSystemSandboxEntry) : Option (PathUri × Text) :=
  (((resolveEntry url context entry).filter (·.2.canWrite)).map (·.1)).findSome?
    (protectedOver url path)

/-- What is decided once a metadata directory was found: to let the path through, or to refuse it in
the name of the directory. -/
def verdictOn (guard : PathUri × Text) : Option Text :=
  if opened url context policy path guard.1 then none else some guard.2

variable {url context policy path}

theorem writeRoots_findSome? : (writeRoots url context policy).findSome? (protectedOver url path) =
      policy.entries.findSome? (firstGuard url context path) := by
  unfold writeRoots resolvedEntries firstGuard
  induction policy.entries with
  | nil => rfl
  | cons entry entries ih =>
    rw [flatMap_cons, filter_append, map_append, findSome?_append, ih, findSome?_cons]
    cases (((resolveEntry url context entry).filter (·.2.canWrite)).map (·.1)).findSome?
      (protectedOver url path) with
    | some guard => rfl
    | none => rfl

theorem metadataWriteDenial_eq (hkind : policy.kind = .restricted) :
    metadataWriteDenial url context policy path =
      (policy.entries.findSome? (firstGuard url context path)).bind
        (verdictOn url context policy path) := by
  unfold metadataWriteDenial
  rw [if_neg (not_not_intro hkind), writeRoots_findSome?]
  cases policy.entries.findSome? (firstGuard url context path) with
  | none => rfl
  | some guard => rfl

theorem exists_firstGuard {root protectedDir : PathUri} {name : Text}
    (hroot : root ∈ writeRoots url context policy) (hname : name ∈ protectedMetadataPathNames)
    (hjoin : root.joinDescendant url name = some protectedDir)
    (hpath : path.startsWith protectedDir = true) :
    ∃ guard, policy.entries.findSome? (firstGuard url context path) = some guard := by
  have hover : (protectedOver url path root).isSome := by
    rw [protectedOver, findSome?_isSome_iff]
    refine ⟨name, hname, ?_⟩
    rw [hjoin]
    simp [hpath]
  have hsome : ((writeRoots url context policy).findSome? (protectedOver url path)).isSome :=
    findSome?_isSome_iff.mpr ⟨root, hroot, hover⟩
  rw [writeRoots_findSome?] at hsome
  exact isSome_iff_exists.mp hsome

theorem forbiddenAgentMetadataWrite_of_context {host : LocalHost} {native cwd : Text}
    (hkind : policy.kind = .restricted)
    (hhost : host.localPolicyContext native cwd = some (path, context)) :
    forbiddenAgentMetadataWrite url host native cwd policy =
      (metadataWriteDenial url context policy path).filter
        fun _ => !canWritePath url context policy path := by
  rw [forbiddenAgentMetadataWrite, if_neg (not_not_intro hkind), hhost]
  rfl

theorem forbiddenAgentMetadataWrite_eq {host : LocalHost} {native cwd : Text}
    (hkind : policy.kind = .restricted)
    (hhost : host.localPolicyContext native cwd = some (path, context))
    (hanyway : ¬ (hasFullDiskWriteAccessWithContext policy context = true ∧
      (resolveAccess url context policy path).canWrite = true)) :
    forbiddenAgentMetadataWrite url host native cwd policy =
      metadataWriteDenial url context policy path := by
  rw [forbiddenAgentMetadataWrite_of_context hkind hhost]
  cases hdenial : metadataWriteDenial url context policy path with
  | none => rfl
  | some name =>
    have hwrite : canWritePath url context policy path = false := by
      unfold canWritePath
      rw [hdenial, decide_eq_false_iff_not]
      rintro ⟨haccess, hfull | hnone⟩
      · exact hanyway ⟨hfull, haccess⟩
      · cases hnone
    simp [hwrite]

theorem canWritePath_of_anyway (hanyway : hasFullDiskWriteAccessWithContext policy context = true ∧
      (resolveAccess url context policy path).canWrite = true) :
    canWritePath url context policy path = true :=
  decide_eq_true ⟨hanyway.2, .inl hanyway.1⟩

end Verdicts

/-! ## Protection -/

section Protection

variable (url : UrlCrate) (context : FileSystemSandboxPolicyContext)
  (policy : FileSystemSandboxPolicy) (path : PathUri)

/-- A path in the metadata directory of a writable root is not written, unless the whole disk is
writable or a write entry at or below the directory covers it. -/
def ProtectsMetadata : Prop :=
  ∀ root ∈ writeRoots url context policy, ∀ name ∈ protectedMetadataPathNames, ∀ protectedDir,
    root.joinDescendant url name = some protectedDir → path.startsWith protectedDir = true →
    canWritePath url context policy path = true →
    hasFullDiskWriteAccessWithContext policy context = true ∨
      opened url context policy path protectedDir = true

/-- The order of the entries makes no difference to a path. -/
def IgnoresOrder : Prop :=
  ∀ entries, entries.Perm policy.entries →
    canWritePath url context (reordered policy entries) path = canWritePath url context policy path ∧
    ∀ (host : LocalHost) (native cwd : Text),
      host.localPolicyContext native cwd = some (path, context) →
      forbiddenAgentMetadataWrite url host native cwd (reordered policy entries) =
        forbiddenAgentMetadataWrite url host native cwd policy

/-- The entries with a metadata directory over the path agree on a verdict, and one that lets a
writable path through stands for all the directories. -/
def VerdictsAgree : Prop :=
  ∃ verdict, (∀ entry ∈ policy.entries, ∀ guard, firstGuard url context path entry = some guard →
      verdictOn url context policy path guard = verdict) ∧
    (verdict = none → (resolveAccess url context policy path).canWrite = true →
      hasFullDiskWriteAccessWithContext policy context = true ∨
        ∀ root ∈ writeRoots url context policy, ∀ name ∈ protectedMetadataPathNames, ∀ protectedDir,
          root.joinDescendant url name = some protectedDir → path.startsWith protectedDir = true →
          opened url context policy path protectedDir = true)

variable {url context policy path}

theorem metadataWriteDenial_of_agree (hkind : policy.kind = .restricted) {verdict : Option Text}
    (hagree : ∀ entry ∈ policy.entries, ∀ guard, firstGuard url context path entry = some guard →
      verdictOn url context policy path guard = verdict)
    {guard : PathUri × Text}
    (hguard : policy.entries.findSome? (firstGuard url context path) = some guard) :
    metadataWriteDenial url context policy path = verdict := by
  obtain ⟨entry, hentry, hfirst⟩ := exists_of_findSome?_eq_some hguard
  rw [metadataWriteDenial_eq hkind, hguard, bind_some]
  exact hagree entry hentry guard hfirst

theorem protectsMetadata_of_agree (hkind : policy.kind = .restricted)
    (h : VerdictsAgree url context policy path) : ProtectsMetadata url context policy path := by
  obtain ⟨verdict, hagree, hopen⟩ := h
  intro root hroot name hname protectedDir hjoin hpath hwrite
  obtain ⟨haccess, hfull | hnone⟩ := of_decide_eq_true hwrite
  · exact .inl hfull
  · obtain ⟨guard, hguard⟩ := exists_firstGuard hroot hname hjoin hpath
    rw [metadataWriteDenial_of_agree hkind hagree hguard] at hnone
    exact (hopen hnone haccess).imp_right fun hall => hall root hroot name hname protectedDir hjoin hpath

theorem verdictOn_reordered {entries : List FileSystemSandboxEntry}
    (h : entries.Perm policy.entries) (guard : PathUri × Text) :
    verdictOn url context (reordered policy entries) path guard =
      verdictOn url context policy path guard := by
  unfold verdictOn
  rw [opened_reordered url context path h]

section

variable (hkind : policy.kind = .restricted)
include hkind

theorem metadataWriteDenial_reordered
    (h : VerdictsAgree url context policy path) {entries : List FileSystemSandboxEntry}
    (hperm : entries.Perm policy.entries) :
    metadataWriteDenial url context (reordered policy entries) path =
      metadataWriteDenial url context policy path := by
  obtain ⟨verdict, hagree, -⟩ := h
  have hkind' : (reordered policy entries).kind = .restricted := hkind
  have hagree' : ∀ entry ∈ (reordered policy entries).entries, ∀ guard,
      firstGuard url context path entry = some guard →
        verdictOn url context (reordered policy entries) path guard = verdict := by
    intro entry hentry guard hguard
    rw [verdictOn_reordered hperm]
    exact hagree entry (hperm.mem_iff.mp hentry) guard hguard
  cases hguard : policy.entries.findSome? (firstGuard url context path) with
  | none =>
    have hguard' : entries.findSome? (firstGuard url context path) = none := by
      rw [findSome?_eq_none_iff] at hguard ⊢
      exact fun entry hentry => hguard entry (hperm.mem_iff.mp hentry)
    rw [metadataWriteDenial_eq hkind, hguard, metadataWriteDenial_eq hkind']
    exact congrArg (bind · _) hguard'
  | some guard =>
    obtain ⟨entry, hentry, hfirst⟩ := exists_of_findSome?_eq_some hguard
    have hsome : (entries.findSome? (firstGuard url context path)).isSome :=
      findSome?_isSome_iff.mpr ⟨entry, hperm.mem_iff.mpr hentry, by rw [hfirst]; rfl⟩
    obtain ⟨guard', hguard'⟩ := isSome_iff_exists.mp hsome
    rw [metadataWriteDenial_of_agree hkind hagree hguard]
    exact metadataWriteDenial_of_agree hkind' hagree' hguard'

theorem ignoresOrder_of_agree
    (h : VerdictsAgree url context policy path) : IgnoresOrder url context policy path := by
  intro entries hperm
  have hdenial := metadataWriteDenial_reordered hkind h hperm
  have hwrite : canWritePath url context (reordered policy entries) path =
      canWritePath url context policy path := by
    unfold canWritePath
    rw [resolveAccess_reordered url context path hperm, hasFullDiskWriteAccess_reordered context hperm,
      hdenial]
  have hkind' : (reordered policy entries).kind = .restricted := hkind
  refine ⟨hwrite, fun host native cwd hhost => ?_⟩
  rw [forbiddenAgentMetadataWrite_of_context hkind hhost,
    forbiddenAgentMetadataWrite_of_context hkind' hhost, hdenial, hwrite]

/-- A path that is written anyway is so in any order. -/
theorem ignoresOrder_of_anyway (hanyway : hasFullDiskWriteAccessWithContext policy context = true ∧
      (resolveAccess url context policy path).canWrite = true) :
    IgnoresOrder url context policy path := by
  intro entries hperm
  have hanyway' : hasFullDiskWriteAccessWithContext (reordered policy entries) context = true ∧
      (resolveAccess url context (reordered policy entries) path).canWrite = true := by
    rw [hasFullDiskWriteAccess_reordered context hperm, resolveAccess_reordered url context path hperm]
    exact hanyway
  have hkind' : (reordered policy entries).kind = .restricted := hkind
  have hnothing : ∀ denial : Option Text, denial.filter (fun _ => !true) = none := by
    rintro (_ | _) <;> rfl
  rw [canWritePath_of_anyway hanyway, canWritePath_of_anyway hanyway']
  refine ⟨rfl, fun host native cwd hhost => ?_⟩
  rw [forbiddenAgentMetadataWrite_of_context hkind hhost,
    forbiddenAgentMetadataWrite_of_context hkind' hhost, canWritePath_of_anyway hanyway,
    canWritePath_of_anyway hanyway', hnothing, hnothing]

theorem forbidden_entry_first
    (hanyway : ¬ (hasFullDiskWriteAccessWithContext policy context = true ∧
      (resolveAccess url context policy path).canWrite = true))
    (h : IgnoresOrder url context policy path) {entry : FileSystemSandboxEntry}
    (hentry : entry ∈ policy.entries) {guard : PathUri × Text}
    (hguard : firstGuard url context path entry = some guard) :
    verdictOn url context policy path guard = metadataWriteDenial url context policy path := by
  obtain ⟨entries, hentries⟩ : ∃ entries, entries = entry :: policy.entries.erase entry := ⟨_, rfl⟩
  have hperm : entries.Perm policy.entries := hentries ▸ (perm_cons_erase hentry).symm
  have hkind' : (reordered policy entries).kind = .restricted := hkind
  have hanyway' : ¬ (hasFullDiskWriteAccessWithContext (reordered policy entries) context = true ∧
      (resolveAccess url context (reordered policy entries) path).canWrite = true) := by
    rw [hasFullDiskWriteAccess_reordered context hperm, resolveAccess_reordered url context path hperm]
    exact hanyway
  have hforbidden := (h _ hperm).2 ⟨fun _ _ => some (path, context)⟩ [] [] rfl
  rw [forbiddenAgentMetadataWrite_eq hkind rfl hanyway,
    forbiddenAgentMetadataWrite_eq hkind' rfl hanyway'] at hforbidden
  rw [← hforbidden, metadataWriteDenial_eq hkind',
    show (reordered policy entries).entries = entries from rfl, hentries, findSome?_cons, hguard,
    bind_some, ← hentries, verdictOn_reordered hperm]

end

/-- **When metadata is protected whatever the order of the entries**: the path is written anyway, or
the entries agree on it. -/
theorem metadata_protected_iff (url : UrlCrate) (context : FileSystemSandboxPolicyContext)
    (policy : FileSystemSandboxPolicy) (path : PathUri) (hkind : policy.kind = .restricted) :
    ProtectsMetadata url context policy path ∧ IgnoresOrder url context policy path ↔
      (hasFullDiskWriteAccessWithContext policy context = true ∧
        (resolveAccess url context policy path).canWrite = true) ∨
      VerdictsAgree url context policy path := by
  constructor
  · rintro ⟨hprotects, horder⟩
    refine or_iff_not_imp_left.mpr fun hanyway => ?_
    refine ⟨metadataWriteDenial url context policy path, ?_, ?_⟩
    · intro entry hentry guard hguard
      exact forbidden_entry_first hkind hanyway horder hentry hguard
    · intro hnone haccess
      refine .inr fun root hroot name hname protectedDir hjoin hpath => ?_
      have hwrite : canWritePath url context policy path = true := decide_eq_true ⟨haccess, .inr hnone⟩
      exact (hprotects root hroot name hname protectedDir hjoin hpath hwrite).resolve_left
        fun hfull => hanyway ⟨hfull, haccess⟩
  · rintro (hanyway | hagree)
    · exact ⟨fun _ _ _ _ _ _ _ _ => .inl hanyway.1, ignoresOrder_of_anyway hkind hanyway⟩
    · exact ⟨protectsMetadata_of_agree hkind hagree, ignoresOrder_of_agree hkind hagree⟩

/-- A rendering of the `url` crate for names that need no encoding. -/
def plainUrl : UrlCrate := ⟨fun _ name => name, some⟩

/-- A local POSIX path. -/
def posixPath (path : List String) : PathUri := .file none (path.map String.toList)

/-- An executor that works in `/w`. -/
def workContext : FileSystemSandboxPolicyContext := ⟨posixPath ["w"], [posixPath ["w"]], none, none⟩

/-- A policy that gives writes to some paths. -/
def writing (paths : List PathUri) : FileSystemSandboxPolicy :=
  .restricted (paths.map fun path => .new (.path path) .write)

/-- Of two writable roots, in either order, the one above the path has its metadata protected. -/
theorem metadata_protected_work :
    ProtectsMetadata plainUrl workContext (writing [posixPath ["v"], posixPath ["w"]])
        (posixPath ["w", ".git", "config"]) ∧
      IgnoresOrder plainUrl workContext (writing [posixPath ["v"], posixPath ["w"]])
        (posixPath ["w", ".git", "config"]) := by
  refine (metadata_protected_iff plainUrl workContext _ _ rfl).mpr
    (.inr ⟨some ".git".toList, ?_, nofun⟩)
  have hother : firstGuard plainUrl workContext (posixPath ["w", ".git", "config"])
      (.new (.path (posixPath ["v"])) .write) = none := by decide +kernel
  have hguard : firstGuard plainUrl workContext (posixPath ["w", ".git", "config"])
      (.new (.path (posixPath ["w"])) .write) =
        some (posixPath ["w", ".git"], ".git".toList) := by decide +kernel
  intro entry hentry guard hfirst
  rcases mem_cons.mp hentry with rfl | hentry
  · rw [hother] at hfirst
    cases hfirst
  · rw [mem_singleton.mp hentry, hguard] at hfirst
    cases hfirst
    decide +kernel

/-- **A writable root inside the metadata directory of another.** The repository at `/w/.git/x` has
its own `.git` directory, which no entry opens. It is writable if `/w` comes first, since the root
`/w/.git/x` opens `/w/.git`, and it is not if `/w/.git/x` comes first. -/
theorem nested_metadata_written :
    canWritePath plainUrl workContext (writing [posixPath ["w"], posixPath ["w", ".git", "x"]])
        (posixPath ["w", ".git", "x", ".git", "config"]) = true ∧
      hasFullDiskWriteAccessWithContext (writing [posixPath ["w"], posixPath ["w", ".git", "x"]])
        workContext = false ∧
      (posixPath ["w", ".git", "x"]).joinDescendant plainUrl ".git".toList =
        some (posixPath ["w", ".git", "x", ".git"]) ∧
      opened plainUrl workContext (writing [posixPath ["w"], posixPath ["w", ".git", "x"]])
        (posixPath ["w", ".git", "x", ".git", "config"]) (posixPath ["w", ".git", "x", ".git"]) =
          false ∧
      canWritePath plainUrl workContext (writing [posixPath ["w", ".git", "x"], posixPath ["w"]])
        (posixPath ["w", ".git", "x", ".git", "config"]) = false := by
  decide +kernel

end Protection

end NovumAgent.Permissions
