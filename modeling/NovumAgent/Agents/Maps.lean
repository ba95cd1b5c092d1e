import NovumAgent.Agents.Registry

/-!
# The two maps of the registry

The tree of agents and the paths of threads change together. Whatever the changes, the path of a thread
leads to an agent with that thread (`Leads`), and the root is where the path of the root is (`Keyed`).
That an agent with a thread is found by its thread (`Found`) is lost in one case only, when a thread that
is registered elsewhere becomes the root. The number of agents with a slot moves with each change as the
weights of the entries it takes away and adds.
-/

namespace NovumAgent.Agents

open Table List

/-- The weight of an agent: those with a thread take a slot, apart from the root. -/
def weight (metadata : AgentMetadata) : Nat :=
  if metadata.agentId.isSome && !metadata.isRoot then 1 else 0

theorem length_liveAgents (agents : ActiveAgents) :
    agents.liveAgents.length = sumBy weight agents.agentTree := by
  unfold ActiveAgents.liveAgents sumBy weight
  induction agents.agentTree.entries with
  | nil => rfl
  | cons entry entries ih =>
    rw [map_cons, map_cons, sum_cons, ← ih, filter_cons]
    split
    · rw [length_cons, add_comm]
    · rw [zero_add]

/-! ## The two maps -/

namespace ActiveAgents

variable {agents agents' : ActiveAgents} {metadata : AgentMetadata} {threadId : ThreadId}
  {path : AgentPath} {key : Text}

/-- The root is at the path of the root, and no other agent is. -/
def Keyed (agents : ActiveAgents) : Prop :=
  ∀ key metadata, agents.agentTree.lookup key = some metadata →
    (metadata.isRoot = true ↔ key = rootPath)

/-- The path of a thread leads to its agent. -/
def Leads (agents : ActiveAgents) : Prop :=
  ∀ threadId key, agents.threadPaths.lookup threadId = some key →
    ∃ metadata, agents.agentTree.lookup key = some metadata ∧ metadata.agentId = some threadId

/-- The agents with a thread are found by it. -/
def Found (agents : ActiveAgents) : Prop :=
  ∀ threadId key metadata, agents.agentTree.lookup key = some metadata →
    metadata.agentId = some threadId → agents.threadPaths.lookup threadId = some key

theorem registerSpawnedThread_none (hid : metadata.agentId = none) :
    agents.registerSpawnedThread metadata = agents := by
  unfold registerSpawnedThread
  rw [hid]

theorem registerSpawnedThread_tree (hid : metadata.agentId = some threadId) (k : Text) :
    (agents.registerSpawnedThread metadata).agentTree.lookup k =
      if k = metadata.key threadId then some metadata
      else if agents.threadPaths.lookup threadId = some k then none
      else agents.agentTree.lookup k := by
  unfold registerSpawnedThread
  rw [hid]
  simp only [lookup_insert_eq, lookup_eraseUnless]
  by_cases hk : k = metadata.key threadId
  · simp [hk]
  · simp [hk]

theorem registerSpawnedThread_paths (hid : metadata.agentId = some threadId) (x : ThreadId) :
    (agents.registerSpawnedThread metadata).threadPaths.lookup x =
      if x = threadId then some (metadata.key threadId)
      else if (agents.agentTree.lookup (metadata.key threadId)).bind (·.agentId) = some x then none
      else agents.threadPaths.lookup x := by
  unfold registerSpawnedThread
  rw [hid]
  simp only [lookup_insert_eq, lookup_eraseUnless]
  by_cases hx : x = threadId
  · simp [hx]
  · simp [hx]

theorem isRoot_iff_key (metadata : AgentMetadata) (threadId : ThreadId) :
    metadata.isRoot = true ↔ metadata.key threadId = rootPath := by
  unfold AgentMetadata.isRoot AgentMetadata.key
  cases metadata.agentPath with
  | none =>
    refine ⟨nofun, fun h => ?_⟩
    have hhead : some 't' = rootPath.head? := congrArg head? h
    exact absurd hhead (by decide +kernel)
  | some path => simp [AgentPath.isRoot]

theorem Keyed.registerSpawnedThread (h : agents.Keyed) (metadata : AgentMetadata) :
    (agents.registerSpawnedThread metadata).Keyed := by
  cases hid : metadata.agentId with
  | none =>
    rw [registerSpawnedThread_none hid]
    exact h
  | some threadId =>
    intro key found hfound
    rw [registerSpawnedThread_tree hid] at hfound
    split at hfound
    next hkey =>
      cases hfound
      rw [hkey]
      exact isRoot_iff_key metadata threadId
    next =>
      split at hfound
      next => cases hfound
      next => exact h key found hfound

theorem Leads.registerSpawnedThread (h : agents.Leads) (metadata : AgentMetadata) :
    (agents.registerSpawnedThread metadata).Leads := by
  cases hid : metadata.agentId with
  | none =>
    rw [registerSpawnedThread_none hid]
    exact h
  | some threadId =>
    intro x k hx
    rw [registerSpawnedThread_paths hid] at hx
    rw [registerSpawnedThread_tree hid]
    split at hx
    next hxt =>
      cases hx
      exact ⟨metadata, if_pos rfl, by rw [hid, hxt]⟩
    next hxt =>
      obtain ⟨hprevious, hx⟩ := Option.ite_none_left_eq_some.mp hx
      obtain ⟨found, hfound, hfoundId⟩ := h x k hx
      have hk : k ≠ metadata.key threadId := by
        rintro rfl
        rw [hfound] at hprevious
        exact hprevious hfoundId
      have hleft : agents.threadPaths.lookup threadId ≠ some k := by
        intro hleft
        obtain ⟨found', hfound', hfoundId'⟩ := h threadId k hleft
        cases hfound.symm.trans hfound'
        exact hxt (Option.some.inj (hfoundId.symm.trans hfoundId'))
      exact ⟨found, by rw [if_neg hk, if_neg hleft, hfound], hfoundId⟩

theorem Found.registerSpawnedThread (h : agents.Found) (metadata : AgentMetadata) :
    (agents.registerSpawnedThread metadata).Found := by
  cases hid : metadata.agentId with
  | none =>
    rw [registerSpawnedThread_none hid]
    exact h
  | some threadId =>
    intro x k found hfound hfoundId
    rw [registerSpawnedThread_tree hid] at hfound
    rw [registerSpawnedThread_paths hid]
    split at hfound
    next hk =>
      cases hfound
      rw [if_pos (Option.some.inj (hfoundId.symm.trans hid)), hk]
    next hk =>
      obtain ⟨hleft, hfound⟩ := Option.ite_none_left_eq_some.mp hfound
      have hx : agents.threadPaths.lookup x = some k := h x k found hfound hfoundId
      have hxt : x ≠ threadId := by
        rintro rfl
        exact hleft hx
      have hprevious : (agents.agentTree.lookup (metadata.key threadId)).bind (·.agentId) ≠ some x := by
        intro hprevious
        obtain ⟨previous, hlookup, hpreviousId⟩ := Option.bind_eq_some_iff.mp hprevious
        exact hk (Option.some.inj (hx.symm.trans (h x _ previous hlookup hpreviousId)))
      rw [if_neg hxt, if_neg hprevious, hx]

/-! ### The other changes -/

theorem Keyed.insert (h : agents.Keyed) (hroot : metadata.isRoot = true ↔ key = rootPath) :
    Keyed { agents with agentTree := agents.agentTree.insert key metadata } :=
  forall_insert h hroot

theorem reserveAgentPath_effect (h : agents.reserveAgentPath path = some agents') :
    (agents.Keyed → agents'.Keyed) ∧ (agents.Leads → agents'.Leads) ∧
      (agents.Found → agents'.Found) ∧
      sumBy weight agents'.agentTree = sumBy weight agents.agentTree := by
  unfold reserveAgentPath at h
  split at h
  next => cases h
  next hvacant =>
    cases h
    refine ⟨fun hkeyed => hkeyed.insert (by simp [AgentMetadata.isRoot, AgentPath.isRoot]),
      fun hleads threadId key hpath => ?_,
      fun hfound threadId => forall_insert (hfound threadId) nofun, ?_⟩
    · obtain ⟨metadata, hlookup, hid⟩ := hleads threadId key hpath
      refine ⟨metadata, ?_, hid⟩
      rw [lookup_insert_eq, if_neg, hlookup]
      rintro rfl
      cases hvacant.symm.trans hlookup
    · rw [sumBy_insert_of_notMem (notMem_of_lookup_none hvacant)]
      exact zero_add _

theorem reserveAgentNickname_maps {names : List Text} {preferred : Option Text}
    {pick pickAgain : Nat} {name : Text}
    (h : agents.reserveAgentNickname names preferred pick pickAgain = some (name, agents')) :
    agents'.agentTree = agents.agentTree ∧ agents'.threadPaths = agents.threadPaths := by
  unfold reserveAgentNickname at h
  split at h
  next =>
    cases h
    exact ⟨rfl, rfl⟩
  next =>
    dsimp only at h
    split at h
    next =>
      cases h
      exact ⟨rfl, rfl⟩
    next =>
      obtain ⟨_, -, h⟩ := Option.map_eq_some_iff.mp h
      cases h
      exact ⟨rfl, rfl⟩

theorem Keyed.erase (h : agents.Keyed) (key : Text) :
    Keyed { agents with agentTree := agents.agentTree.erase key } :=
  forall_erase h

theorem releaseReservedAgentPath_effect (agents : ActiveAgents) (path : AgentPath) :
    (agents.Keyed → (agents.releaseReservedAgentPath path).Keyed) ∧
      (agents.Leads → (agents.releaseReservedAgentPath path).Leads) ∧
      (agents.Found → (agents.releaseReservedAgentPath path).Found) ∧
      sumBy weight (agents.releaseReservedAgentPath path).agentTree =
        sumBy weight agents.agentTree := by
  unfold releaseReservedAgentPath
  split
  next hreserved =>
    obtain ⟨reserved, hat, hnone⟩ : ∃ reserved,
        agents.agentTree.lookup path.text = some reserved ∧ reserved.agentId = none := by
      cases hat : agents.agentTree.lookup path.text with
      | none => simp [hat] at hreserved
      | some reserved => exact ⟨reserved, rfl, by simpa [hat] using hreserved⟩
    refine ⟨fun hkeyed => hkeyed.erase path.text, fun hleads threadId key hpath => ?_,
      fun hfound threadId => forall_erase (hfound threadId), ?_⟩
    · obtain ⟨metadata, hlookup, hid⟩ := hleads threadId key hpath
      refine ⟨metadata, ?_, hid⟩
      rw [lookup_erase_eq, if_neg, hlookup]
      rintro rfl
      cases hat.symm.trans hlookup
      cases hnone.symm.trans hid
    · have hsum := sumBy_erase (f := weight) hat
      have hweight : weight reserved = 0 := by simp [weight, hnone]
      rwa [hweight, add_zero] at hsum
  next => exact ⟨id, id, id, rfl⟩

theorem Keyed.registerRootThread (h : agents.Keyed) (threadId : ThreadId) :
    (agents.registerRootThread threadId).Keyed := by
  unfold ActiveAgents.registerRootThread
  split
  next => exact h.insert (iff_of_true rfl rfl)
  next =>
    split
    next => exact h
    next => exact h

theorem Leads.registerRootThread (h : agents.Leads) (threadId : ThreadId) :
    (agents.registerRootThread threadId).Leads := by
  unfold ActiveAgents.registerRootThread
  split
  next hvacant =>
    intro x key hx
    rw [lookup_insert_eq] at hx ⊢
    split at hx
    next hxt =>
      cases hx
      exact ⟨_, if_pos rfl, by rw [hxt]⟩
    next =>
      obtain ⟨metadata, hlookup, hid⟩ := h x key hx
      refine ⟨metadata, ?_, hid⟩
      rw [if_neg, hlookup]
      rintro rfl
      cases hvacant.symm.trans hlookup
  next root hroot =>
    split
    next rootThreadId hrootId =>
      intro x key hx
      rw [lookup_insert_eq] at hx
      split at hx
      next hxt =>
        cases hx
        exact ⟨root, hroot, by rw [hrootId, hxt]⟩
      next => exact h x key hx
    next => exact h

theorem found_registerRootThread_iff (hleads : agents.Leads) (h : agents.Found)
    (threadId : ThreadId) :
    (agents.registerRootThread threadId).Found ↔
      agents.agentTree.lookup rootPath ≠ none ∨ agents.threadPaths.lookup threadId = none := by
  unfold ActiveAgents.registerRootThread
  split
  next hvacant =>
    constructor
    · intro hfound
      right
      by_contra hregistered
      obtain ⟨key, hkey⟩ := Option.ne_none_iff_exists'.mp hregistered
      obtain ⟨metadata, hlookup, hid⟩ := hleads threadId key hkey
      have hne : key ≠ rootPath := by
        rintro rfl
        cases hvacant.symm.trans hlookup
      have hback := hfound threadId key metadata (by rw [lookup_insert_eq, if_neg hne, hlookup]) hid
      rw [AList.lookup_insert] at hback
      exact hne (Option.some.inj hback).symm
    · rintro (hroot | hfree) x key metadata hlookup hid
      · exact absurd hvacant hroot
      · rw [lookup_insert_eq] at hlookup ⊢
        split at hlookup
        next hkey =>
          cases hlookup
          rw [if_pos (Option.some.inj hid).symm, hkey]
        next =>
          have hx := h x key metadata hlookup hid
          rw [if_neg, hx]
          rintro rfl
          cases hfree.symm.trans hx
  next root hroot =>
    refine ⟨fun _ => .inl (by rw [hroot]; exact nofun), fun _ => ?_⟩
    split
    next rootThreadId hrootId =>
      intro x key metadata hlookup hid
      have hx := h x key metadata hlookup hid
      rw [lookup_insert_eq]
      split
      next hxt =>
        subst hxt
        cases (h x rootPath root hroot hrootId).symm.trans hx
        rfl
      next => exact hx
    next => exact h

theorem weight_registerRootThread (agents : ActiveAgents) (threadId : ThreadId) :
    sumBy weight (agents.registerRootThread threadId).agentTree =
      sumBy weight agents.agentTree := by
  unfold ActiveAgents.registerRootThread
  split
  next hvacant =>
    rw [sumBy_insert_of_notMem (notMem_of_lookup_none hvacant)]
    have hweight : weight { AgentMetadata.default with
        agentId := some threadId, agentPath := some .root } = 0 := rfl
    rw [hweight, zero_add]
  next =>
    split
    next => rfl
    next => rfl

theorem releaseSpawnedThread_effect (hkeyed : agents.Keyed) (hleads : agents.Leads)
    (threadId : ThreadId) :
    (agents.releaseSpawnedThread threadId).1.Keyed ∧
      (agents.releaseSpawnedThread threadId).1.Leads ∧
      (agents.Found → (agents.releaseSpawnedThread threadId).1.Found) ∧
      sumBy weight (agents.releaseSpawnedThread threadId).1.agentTree +
        (if (agents.releaseSpawnedThread threadId).2 then 1 else 0) =
          sumBy weight agents.agentTree := by
  unfold releaseSpawnedThread
  split
  next => exact ⟨hkeyed, hleads, id, rfl⟩
  next path hpath =>
    obtain ⟨released, hat, hreleasedId⟩ := hleads threadId path hpath
    refine ⟨hkeyed.erase path, fun x key hx => ?_, fun hfound x key metadata hlookup hid => ?_, ?_⟩
    · rw [lookup_erase_eq] at hx
      obtain ⟨hxt, hx⟩ := Option.ite_none_left_eq_some.mp hx
      obtain ⟨metadata, hlookup, hid⟩ := hleads x key hx
      refine ⟨metadata, ?_, hid⟩
      rw [lookup_erase_eq, if_neg, hlookup]
      rintro rfl
      cases hat.symm.trans hlookup
      exact hxt (Option.some.inj (hid.symm.trans hreleasedId))
    · rw [lookup_erase_eq] at hlookup ⊢
      obtain ⟨hkey, hlookup⟩ := Option.ite_none_left_eq_some.mp hlookup
      have hx := hfound x key metadata hlookup hid
      rw [if_neg, hx]
      rintro rfl
      exact hkey (Option.some.inj (hx.symm.trans hpath))
    · have hsum := sumBy_erase (f := weight) hat
      have hweight : weight released = if !released.isRoot then 1 else 0 := by
        simp [weight, hreleasedId]
      have hcounted : (agents.agentTree.lookup path).any (!·.isRoot) = !released.isRoot := by
        rw [hat, Option.any_some]
      simp only [hcounted, ← hweight]
      exact hsum

/-- The commit of some metadata brings one more agent into the tree: it has a thread, is not the root,
takes its path from no agent, and its thread had no other path than that of the root. -/
def brings (agents : ActiveAgents) (metadata : AgentMetadata) : Bool :=
  match metadata.agentId with
  | none => false
  | some threadId =>
    !metadata.isRoot &&
      ((agents.agentTree.lookup (metadata.key threadId)).bind (·.agentId)).isNone &&
      (agents.threadPaths.lookup threadId).all (· = rootPath)

theorem weight_registerSpawnedThread (agents : ActiveAgents)
    (hid : metadata.agentId = some threadId) :
    sumBy weight (agents.registerSpawnedThread metadata).agentTree +
        ((agents.agentTree.lookup (metadata.key threadId)).elim 0 weight +
          sumBy weight agents.agentTree) =
      sumBy weight agents.agentTree + weight metadata + sumBy weight
          (eraseUnless agents.agentTree (agents.threadPaths.lookup threadId)
            (metadata.key threadId)) := by
  have hinsert := sumBy_insert_elim (f := weight)
    (t := eraseUnless agents.agentTree (agents.threadPaths.lookup threadId)
      (metadata.key threadId)) (metadata.key threadId) metadata
  rw [lookup_eraseUnless, if_neg (fun h => h.2 rfl)] at hinsert
  have htree : (agents.registerSpawnedThread metadata).agentTree =
      (eraseUnless agents.agentTree (agents.threadPaths.lookup threadId)
        (metadata.key threadId)).insert (metadata.key threadId) metadata := by
    unfold registerSpawnedThread
    rw [hid]
  rw [htree]
  omega

theorem weight_le (metadata : AgentMetadata) : weight metadata ≤ 1 := by
  unfold weight
  split
  · exact le_refl 1
  · exact Nat.zero_le 1

theorem weight_of_id (hid : metadata.agentId = some threadId) :
    weight metadata = if metadata.isRoot then 0 else 1 := by
  unfold weight
  rw [hid]
  cases metadata.isRoot with
  | true => rfl
  | false => rfl

theorem weight_eraseUnless (hkeyed : agents.Keyed) (hleads : agents.Leads) (threadId : ThreadId)
    (key : Text) :
    sumBy weight (eraseUnless agents.agentTree (agents.threadPaths.lookup threadId) key) +
        (if (agents.threadPaths.lookup threadId).all (fun path => path = rootPath ∨ path = key) then 0
          else 1) =
      sumBy weight agents.agentTree := by
  unfold eraseUnless
  cases hpath : agents.threadPaths.lookup threadId with
  | none => rfl
  | some path =>
    dsimp only
    by_cases hkept : path = key
    · simp [hkept]
    · obtain ⟨metadata, hlookup, hid⟩ := hleads threadId path hpath
      have hsum := sumBy_erase (f := weight) hlookup
      rw [weight_of_id hid] at hsum
      have hroot := hkeyed path metadata hlookup
      by_cases hrootPath : path = rootPath
      · rw [if_neg hkept]
        simp only [hroot.mpr hrootPath, if_true] at hsum
        simp [hrootPath, ← hsum]
      · rw [if_neg hkept]
        have hnot : metadata.isRoot = false := Bool.eq_false_iff.mpr fun h => hrootPath (hroot.mp h)
        rw [hnot] at hsum
        simpa [hkept, hrootPath] using hsum

theorem elim_weight_eq_zero_iff (hkeyed : agents.Keyed) (hroot : metadata.isRoot = false)
    (threadId : ThreadId) :
    (agents.agentTree.lookup (metadata.key threadId)).elim 0 weight = 0 ↔
      (agents.agentTree.lookup (metadata.key threadId)).bind (·.agentId) = none := by
  cases hlookup : agents.agentTree.lookup (metadata.key threadId) with
  | none => simp
  | some found =>
    have hfound : found.isRoot = false := by
      rw [Bool.eq_false_iff, ne_eq, hkeyed _ found hlookup, ← isRoot_iff_key, hroot]
      exact Bool.false_ne_true
    simp only [Option.elim_some, Option.bind_some, weight, hfound, Bool.not_false, Bool.and_true]
    cases found.agentId with
    | none => simp
    | some _ => simp

theorem all_root_or_key_iff (hleads : agents.Leads) (threadId : ThreadId) (key : Text)
    (hfree : (agents.agentTree.lookup key).bind (·.agentId) = none) :
    (agents.threadPaths.lookup threadId).all (fun path => path = rootPath ∨ path = key) = true ↔
      (agents.threadPaths.lookup threadId).all (· = rootPath) = true := by
  cases hpath : agents.threadPaths.lookup threadId with
  | none => simp
  | some path =>
    have hne : path ≠ key := by
      rintro rfl
      obtain ⟨found, hlookup, hid⟩ := hleads threadId path hpath
      rw [hlookup, Option.bind_some, hid] at hfree
      cases hfree
    simp [hne]

/-- **A commit adds one agent** exactly when it brings one. -/
theorem weight_registerSpawnedThread_iff (hkeyed : agents.Keyed) (hleads : agents.Leads) :
    sumBy weight (agents.registerSpawnedThread metadata).agentTree =
        sumBy weight agents.agentTree + 1 ↔
      agents.brings metadata = true := by
  unfold brings
  cases hid : metadata.agentId with
  | none =>
    rw [registerSpawnedThread_none hid]
    simp
  | some threadId =>
    have hsum := weight_registerSpawnedThread agents hid
    have herase := weight_eraseUnless hkeyed hleads threadId (metadata.key threadId)
    have hown := weight_of_id hid
    cases hroot : metadata.isRoot with
    | true =>
      rw [hroot, if_pos rfl] at hown
      refine ⟨fun h => ?_, nofun⟩
      omega
    | false =>
      have htaken := elim_weight_eq_zero_iff hkeyed hroot threadId
      have hmoved := all_root_or_key_iff hleads threadId (metadata.key threadId)
      rw [hroot, if_neg Bool.false_ne_true] at hown
      simp only [Bool.not_false, Bool.true_and, Bool.and_eq_true, Option.isNone_iff_eq_none]
      constructor
      · intro h
        have hfree := htaken.mp (by omega)
        refine ⟨hfree, (hmoved hfree).mp ?_⟩
        by_contra hno
        rw [if_neg hno] at herase
        omega
      · rintro ⟨hfree, hall⟩
        have hzero := htaken.mpr hfree
        rw [if_pos ((hmoved hfree).mpr hall)] at herase
        omega

theorem weight_registerSpawnedThread_le (agents : ActiveAgents) (metadata : AgentMetadata) :
    sumBy weight (agents.registerSpawnedThread metadata).agentTree ≤
      sumBy weight agents.agentTree + 1 := by
  cases hid : metadata.agentId with
  | none =>
    rw [registerSpawnedThread_none hid]
    exact Nat.le_succ _
  | some threadId =>
    have hsum := weight_registerSpawnedThread agents hid
    have hle : sumBy weight (eraseUnless agents.agentTree
        (agents.threadPaths.lookup threadId) (metadata.key threadId)) ≤
          sumBy weight agents.agentTree := sumBy_eraseUnless_le _ _
    have hown := weight_le metadata
    omega

end ActiveAgents

end NovumAgent.Agents
