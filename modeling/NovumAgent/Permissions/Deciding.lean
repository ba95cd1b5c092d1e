import NovumAgent.Permissions.Metadata

/-!
# Deciding entries

The entry that decides about a path is the one with the largest key among those that cover it. So entries
that are added to a policy say something about the paths they cover and about no others, as long as all
entries have a depth or are opaque; one that is neither makes every path denied.
-/

namespace NovumAgent.Permissions

open List PathUri

/-- The end of `resolve_access`. -/
def accessAmong (path : PathUri) (entries : List (PathUri × FileSystemAccessMode)) :
    FileSystemAccessMode :=
  match entryDepths entries with
  | none => .deny
  | some entries =>
    match maxByKey ((entries.filter fun entry => path.startsWith entry.1).map (·.2)) with
    | some (access, _) => access
    | none => .deny

theorem maxByKey_append {more keys : List (FileSystemAccessMode × Nat)}
    {best : FileSystemAccessMode × Nat} (h : maxByKey (more ++ keys) = some best) :
    best ∈ more ∨ maxByKey keys = some best := by
  obtain ⟨hmem, hle⟩ := (maxByKey_spec _).2 best h
  refine (mem_append.mp hmem).imp_right fun hmem => ?_
  cases hkeys : maxByKey keys with
  | none => cases (maxByKey_spec keys).1.mp hkeys ▸ hmem
  | some other =>
    obtain ⟨hother, hless⟩ := (maxByKey_spec keys).2 other hkeys
    rw [keyLe_antisymm (hle other (mem_append_right _ hother)) (hless best hmem)]

theorem accessAmong_append (path : PathUri) (more entries : List (PathUri × FileSystemAccessMode)) :
    ((∃ entry ∈ more, entry.1.lexicalDepth = none ∧ entry.1.isOpaque = false) ∧
        accessAmong path (more ++ entries) = .deny) ∨
      accessAmong path (more ++ entries) = accessAmong path entries ∨
      ∃ root, (root, accessAmong path (more ++ entries)) ∈ more ∧ path.startsWith root = true := by
  unfold accessAmong
  rw [entryDepths_eq, entryDepths_eq, any_append]
  by_cases hmore : more.any (fun entry => entry.1.lexicalDepth.isNone && !entry.1.isOpaque) = true
  · rw [hmore, Bool.true_or]
    refine .inl ⟨?_, rfl⟩
    simpa using hmore
  · rw [(Bool.not_eq_true _).mp hmore, Bool.false_or]
    split_ifs with hold
    · exact .inr (.inl rfl)
    dsimp only
    rw [filterMap_append, filter_append, map_append]
    split
    next access depth hbest =>
      obtain hnew | hold := maxByKey_append hbest
      · obtain ⟨⟨root, key⟩, hroot, ⟨⟩⟩ := mem_map.mp hnew
        obtain ⟨hroot, hcovers⟩ := mem_filter.mp hroot
        obtain ⟨entry, hentry, hkey⟩ := mem_filterMap.mp hroot
        obtain ⟨depth', -, ⟨⟩⟩ := Option.map_eq_some_iff.mp hkey
        exact .inr (.inr ⟨entry.1, hentry, hcovers⟩)
      · exact .inr (.inl (by rw [hold]))
    next hnone =>
      have hempty := (append_eq_nil_iff.mp ((maxByKey_spec _).1.mp hnone)).2
      exact .inr (.inl (by rw [hempty]; rfl))

variable {url : UrlCrate} {context : FileSystemSandboxPolicyContext}

/-- **What entries can add to a policy.** Wherever some entries are put into a policy, a path has the access
it had, or one of these entries covers it and gives it its own access, or every path is denied since a root
of one of them has no depth and is not opaque. -/
theorem added_entries_decide (kind : FileSystemSandboxKind) (globScanMaxDepth : Option Nat)
    (front more back : List FileSystemSandboxEntry) (path : PathUri) :
    let wider : FileSystemSandboxPolicy := ⟨kind, globScanMaxDepth, front ++ (more ++ back)⟩
    (resolveAccess url context wider path = .deny ∧ ∃ entry ∈ more,
        ∃ root ∈ entryPaths url context entry.path, root.lexicalDepth = none ∧ root.isOpaque = false) ∨
      resolveAccess url context wider path =
        resolveAccess url context ⟨kind, globScanMaxDepth, front ++ back⟩ path ∨
      ∃ entry ∈ more, (∃ root ∈ entryPaths url context entry.path, path.startsWith root = true) ∧
        resolveAccess url context wider path = entry.access := by
  intro wider
  by_cases hkind : kind = .restricted
  · subst hkind
    cases hconvention : context.cwd.inferPathConvention with
    | none =>
      refine .inr (.inl ?_)
      rw [resolveAccess, resolveAccess, hconvention]
    | some convention =>
      by_cases hbad : path.inferPathConvention ≠ some convention ∨ path.lexicalDepth = none ∨
          context.cwd.lexicalDepth = none
      · refine .inr (.inl ?_)
        rw [resolveAccess, resolveAccess, hconvention]
        exact (if_pos hbad).trans (if_pos hbad).symm
      · have haccess : ∀ entries, resolveAccess url context ⟨.restricted, globScanMaxDepth, entries⟩ path =
            accessAmong path (entries.flatMap (resolveEntry url context)) := by
          intro entries
          rw [resolveAccess, hconvention]
          exact if_neg hbad
        -- The order of the entries does not matter, so the new ones may be the first.
        have hwider : resolveAccess url context wider path = accessAmong path
            (more.flatMap (resolveEntry url context) ++ (front ++ back).flatMap (resolveEntry url context)) := by
          rw [← flatMap_append, ← haccess]
          exact (@resolveAccess_reordered url context wider path _
            (perm_append_comm_assoc more front back)).symm
        have hroots : ∀ pair ∈ more.flatMap (resolveEntry url context), ∃ entry ∈ more,
            pair.1 ∈ entryPaths url context entry.path ∧ pair.2 = entry.access := by
          intro pair hpair
          obtain ⟨entry, hentry, hpair⟩ := mem_flatMap.mp hpair
          obtain ⟨root, hroot, rfl⟩ := mem_map.mp hpair
          exact ⟨entry, hentry, mem_of_mem_filter hroot, rfl⟩
        rw [hwider, haccess]
        obtain ⟨⟨pair, hpair, hdepth⟩, hdeny⟩ | hsame | ⟨root, hroot, hcovers⟩ := accessAmong_append path
          (more.flatMap (resolveEntry url context)) ((front ++ back).flatMap (resolveEntry url context))
        · obtain ⟨entry, hentry, hroot, -⟩ := hroots pair hpair
          exact .inl ⟨hdeny, entry, hentry, pair.1, hroot, hdepth⟩
        · exact .inr (.inl hsame)
        · obtain ⟨entry, hentry, hroot, haccess⟩ := hroots _ hroot
          exact .inr (.inr ⟨entry, hentry, ⟨root, hroot, hcovers⟩, haccess⟩)
  · refine .inr (.inl ?_)
    rw [resolveAccess, resolveAccess, if_pos hkind]
    exact (if_pos hkind).symm

end NovumAgent.Permissions
