import NovumAgent.Agents.Maps

/-!
# Slots and agents

Every slot that is taken should belong to a reservation or to an agent, and the two maps of the
registry should be inverse to each other (`Session.Accounts`). The source keeps this up as long as a
commit brings one more agent into the tree. It does not when the metadata has no thread, is that of the
root, takes a path from another agent or renames an agent that has a slot already: each of them ends
the reservation without an agent for its slot, which no release gives back. And a thread that is
registered elsewhere is not taken from there when it becomes the root.

`slots_accounted_iff` says that these are the only ways. Whatever the callers do, there are never more
agents than the limit: a lost slot only ever counts too much.
-/

namespace NovumAgent.Agents

open List Table ActiveAgents Option

/-! ## The counter -/

namespace Session

variable {session session' : Session} {event : Event}

/-- The agents of the registry. -/
def agents (session : Session) : ActiveAgents := session.registry.activeAgents

/-- What slots are taken for: reservations, agents, and agents that are being released. -/
def slots (session : Session) : Nat :=
  Table.size session.reservations + session.agents.liveAgents.length + session.releasing

/-- What holds whatever the callers do. -/
structure Sound (session : Session) : Prop where
  keyed : session.agents.Keyed
  leads : session.agents.Leads
  covered : session.slots ≤ session.registry.totalCount

/-- **The accounts of the registry.** The counter is the number of reservations and agents, and the
path of a thread and the thread of a path are inverse to each other. -/
structure Accounts (session : Session) : Prop where
  counted : session.registry.totalCount = session.slots
  inverse : ∀ threadId key, session.agents.threadPaths.lookup threadId = some key ↔
    ∃ metadata, session.agents.agentTree.lookup key = some metadata ∧
      metadata.agentId = some threadId

/-- Does a step keep the accounts? A commit has to bring an agent, and a thread that becomes the root
must not be registered elsewhere. -/
def keeps (session : Session) : Event → Bool
  | .commit _ metadata => session.agents.brings metadata
  | .registerRootThread threadId =>
    (session.agents.agentTree.lookup rootPath).isSome ||
      (session.agents.threadPaths.lookup threadId).isNone
  | _ => true

theorem accounts_iff (hsound : session.Sound) :
    session.Accounts ↔ session.registry.totalCount = session.slots ∧ session.agents.Found := by
  constructor
  · rintro ⟨hcounted, hinverse⟩
    exact ⟨hcounted, fun threadId key metadata hlookup hid =>
      (hinverse threadId key).mpr ⟨metadata, hlookup, hid⟩⟩
  · rintro ⟨hcounted, hfound⟩
    refine ⟨hcounted, fun threadId key => ⟨hsound.leads threadId key, ?_⟩⟩
    rintro ⟨metadata, hlookup, hid⟩
    exact hfound threadId key metadata hlookup hid

theorem effect_of_balance (hkeyed : session'.agents.Keyed) (hleads : session'.agents.Leads)
    (hfound : session.agents.Found → session'.agents.Found) (hsound : session.Sound)
    (hbalance : session'.registry.totalCount + session.slots =
      session.registry.totalCount + session'.slots) :
    session'.Sound ∧ (session.Accounts → session'.Accounts) := by
  have hsound' : session'.Sound := by
    refine ⟨hkeyed, hleads, ?_⟩
    have := hsound.covered
    omega
  refine ⟨hsound', fun haccounts => ?_⟩
  obtain ⟨hcounted, hin⟩ := (accounts_iff hsound).mp haccounts
  exact (accounts_iff hsound').mpr ⟨by omega, hfound hin⟩

theorem slots_update (f : ActiveAgents → ActiveAgents) (reservations : Table Nat SpawnReservation)
    (releasing : Nat) :
    slots { session.update f with reservations, releasing } =
      size reservations + sumBy weight (f session.agents).agentTree + releasing := by
  rw [slots, length_liveAgents]
  rfl

theorem slots_eq : session.slots =
    size session.reservations + sumBy weight session.agents.agentTree + session.releasing := by
  rw [slots, length_liveAgents]

variable {holder : Nat} {reservation : SpawnReservation}

theorem lookup_of_held (h : session.held holder = some reservation) :
    session.reservations.lookup holder = some reservation :=
  (filter_eq_some_iff.mp h).1

theorem effect_of_held (hsound : session.Sound)
    (hheld : session.held holder = some reservation) (reservation' : SpawnReservation)
    {f : ActiveAgents → ActiveAgents}
    (h : (session.agents.Keyed → (f session.agents).Keyed) ∧
      (session.agents.Leads → (f session.agents).Leads) ∧
      (session.agents.Found → (f session.agents).Found) ∧
      sumBy weight (f session.agents).agentTree = sumBy weight session.agents.agentTree) :
    Sound { session.update f with reservations := session.reservations.insert holder reservation' } ∧
      (session.Accounts → Accounts
        { session.update f with reservations := session.reservations.insert holder reservation' }) := by
  obtain ⟨hkeyed, hleads, hfound, hsum⟩ := h
  refine effect_of_balance (hkeyed hsound.keyed) (hleads hsound.leads) hfound hsound ?_
  rw [slots_update, slots_eq, size_insert (lookup_of_held hheld), hsum]
  rfl

theorem reserveSpawnSlot_cases {registry registry' : AgentRegistry} {maxThreads : Option Nat}
    (h : registry.reserveSpawnSlot maxThreads = some registry') :
    registry' = { registry with totalCount := registry.totalCount + 1 } ∧
      ∀ limit, maxThreads = some limit → registry.totalCount < limit := by
  unfold AgentRegistry.reserveSpawnSlot AgentRegistry.tryIncrementSpawned at h
  cases maxThreads with
  | none =>
    cases h
    exact ⟨rfl, nofun⟩
  | some limit =>
    obtain ⟨hroom, ⟨⟩⟩ := Option.ite_none_left_eq_some.mp h
    refine ⟨rfl, ?_⟩
    rintro _ ⟨⟩
    omega

theorem step_balance (hsound : session.Sound) (hstep : session.step event = some session')
    (hcommit : ∀ holder metadata, event ≠ .commit holder metadata)
    (hroot : ∀ threadId, event ≠ .registerRootThread threadId) :
    session'.Sound ∧ (session.Accounts → session'.Accounts) := by
  have hcovered := hsound.covered
  rw [slots_eq] at hcovered
  cases event with
  | commit holder metadata => exact absurd rfl (hcommit holder metadata)
  | registerRootThread threadId => exact absurd rfl (hroot threadId)
  | reserveSpawnSlot holder maxThreads =>
    obtain ⟨hfree, hstep⟩ := Option.ite_none_right_eq_some.mp hstep
    split at hstep
    next registry hregistry =>
      cases hstep
      obtain ⟨rfl, -⟩ := reserveSpawnSlot_cases hregistry
      refine effect_of_balance hsound.keyed hsound.leads id hsound ?_
      have hsize := size_insert_of_notMem (b := (⟨none, none, false⟩ : SpawnReservation))
        (notMem_of_lookup_none hfree)
      rw [slots, slots, hsize]
      show session.registry.totalCount + 1 + _ =
        _ + (_ + session.agents.liveAgents.length + session.releasing)
      omega
    next =>
      cases hstep
      exact ⟨hsound, id⟩
  | reserveAgentNickname holder names preferred pick pickAgain =>
    obtain ⟨reservation, hheld, rfl⟩ := map_eq_some_iff.mp hstep
    split
    next name agents hname =>
      obtain ⟨htree, hpaths⟩ := reserveAgentNickname_maps hname
      refine effect_of_held hsound hheld _ ?_
      unfold ActiveAgents.Keyed ActiveAgents.Leads ActiveAgents.Found
      rw [htree, hpaths]
      exact ⟨id, id, id, rfl⟩
    next => exact ⟨hsound, id⟩
  | reserveAgentPath holder path =>
    obtain ⟨reservation, hheld, rfl⟩ := map_eq_some_iff.mp hstep
    split
    next agents hagents =>
      exact effect_of_held hsound hheld _ (reserveAgentPath_effect hagents)
    next => exact ⟨hsound, id⟩
  | dropPath holder =>
    obtain ⟨reservation, hheld, rfl⟩ := map_eq_some_iff.mp hstep
    refine effect_of_held hsound hheld _ ?_
    cases reservation.reservedAgentPath with
    | none => exact ⟨id, id, id, rfl⟩
    | some path => exact releaseReservedAgentPath_effect session.agents path
  | dropSlot holder =>
    obtain ⟨reservation, hheld, rfl⟩ := map_eq_some_iff.mp hstep
    have hsize := size_erase (filter_eq_some_iff.mp hheld).1
    refine effect_of_balance hsound.keyed hsound.leads id hsound ?_
    rw [slots_eq, slots_eq]
    show session.registry.totalCount - 1 + _ = _ + (size (session.reservations.erase holder) +
      sumBy weight session.agents.agentTree + session.releasing)
    omega
  | releaseSpawnedThread threadId =>
    cases hstep
    obtain ⟨hkeyed, hleads, hfound, hsum⟩ :=
      releaseSpawnedThread_effect hsound.keyed hsound.leads threadId
    refine effect_of_balance hkeyed hleads hfound hsound ?_
    rw [slots_eq, slots_eq]
    show session.registry.totalCount + _ = session.registry.totalCount + (size session.reservations +
      sumBy weight (session.agents.releaseSpawnedThread threadId).1.agentTree +
        (session.releasing + if (session.agents.releaseSpawnedThread threadId).2 then 1 else 0))
    omega
  | releaseSlot =>
    obtain ⟨hreleasing, ⟨⟩⟩ := Option.ite_none_right_eq_some.mp hstep
    refine effect_of_balance hsound.keyed hsound.leads id hsound ?_
    rw [slots_eq, slots_eq]
    show session.registry.totalCount - 1 + _ = _ + (size session.reservations +
      sumBy weight session.agents.agentTree + (session.releasing - 1))
    omega

theorem step_commit {metadata : AgentMetadata} (hsound : session.Sound)
    (hstep : session.step (.commit holder metadata) = some session') :
    session'.Sound ∧
      (session.Accounts → (session'.Accounts ↔ session.agents.brings metadata = true)) := by
  obtain ⟨reservation, hheld, rfl⟩ := map_eq_some_iff.mp hstep
  have hsize := size_erase (lookup_of_held hheld)
  have hslots : slots { session.update (·.registerSpawnedThread metadata) with
      reservations := session.reservations.erase holder } =
        size (session.reservations.erase holder) +
          sumBy weight (session.agents.registerSpawnedThread metadata).agentTree +
            session.releasing := slots_update _ _ _
  have hcovered := hsound.covered
  have hle := weight_registerSpawnedThread_le session.agents metadata
  have hsound' : Sound { session.update (·.registerSpawnedThread metadata) with
      reservations := session.reservations.erase holder } := by
    refine ⟨hsound.keyed.registerSpawnedThread metadata,
      hsound.leads.registerSpawnedThread metadata, ?_⟩
    rw [hslots]
    rw [slots_eq] at hcovered
    show _ ≤ session.registry.totalCount
    omega
  refine ⟨hsound', fun haccounts => ?_⟩
  obtain ⟨hcounted, hfound⟩ := (accounts_iff hsound).mp haccounts
  rw [slots_eq] at hcounted
  rw [accounts_iff hsound', hslots, ← weight_registerSpawnedThread_iff hsound.keyed hsound.leads]
  show session.registry.totalCount = _ ∧ (session.agents.registerSpawnedThread metadata).Found ↔ _
  rw [and_iff_left (hfound.registerSpawnedThread metadata)]
  omega

theorem step_registerRootThread {threadId : ThreadId} (hsound : session.Sound)
    (hstep : session.step (.registerRootThread threadId) = some session') :
    session'.Sound ∧ (session.Accounts →
      (session'.Accounts ↔ session.keeps (.registerRootThread threadId) = true)) := by
  cases hstep
  have hslots : slots (session.update (·.registerRootThread threadId)) = session.slots := by
    rw [slots_eq, slots_eq, ← weight_registerRootThread session.agents threadId]
    rfl
  have hsound' : Sound (session.update (·.registerRootThread threadId)) := by
    refine ⟨hsound.keyed.registerRootThread threadId, hsound.leads.registerRootThread threadId, ?_⟩
    rw [hslots]
    exact hsound.covered
  refine ⟨hsound', fun haccounts => ?_⟩
  obtain ⟨hcounted, hfound⟩ := (accounts_iff hsound).mp haccounts
  have hroot := found_registerRootThread_iff hsound.leads hfound threadId
  rw [accounts_iff hsound', hslots, keeps]
  show session.registry.totalCount = _ ∧ (session.agents.registerRootThread threadId).Found ↔ _
  rw [and_iff_right hcounted, hroot, Bool.or_eq_true, isSome_iff_ne_none, isNone_iff_eq_none]

/-- **One step.** What always holds is kept, and the accounts are kept by the steps that keep them. -/
theorem step_effect (hsound : session.Sound) (hstep : session.step event = some session') :
    session'.Sound ∧ (session.Accounts → (session'.Accounts ↔ session.keeps event = true)) := by
  have hother : (∀ holder metadata, event ≠ .commit holder metadata) →
      (∀ threadId, event ≠ .registerRootThread threadId) → session.keeps event = true →
      session'.Sound ∧ (session.Accounts → (session'.Accounts ↔ session.keeps event = true)) := by
    intro hcommit hroot hkeeps
    obtain ⟨hsound', haccounts'⟩ := step_balance hsound hstep hcommit hroot
    exact ⟨hsound', fun haccounts => ⟨fun _ => hkeeps, fun _ => haccounts' haccounts⟩⟩
  cases event with
  | commit holder metadata => exact step_commit hsound hstep
  | registerRootThread threadId => exact step_registerRootThread hsound hstep
  | _ => exact hother nofun nofun rfl

/-! ## Limits -/

/-- No call reserves a slot without a limit, or above it. -/
def Limited (limit : Nat) : Event → Prop
  | .reserveSpawnSlot _ maxThreads => maxThreads = some limit
  | _ => True

theorem step_limited {limit : Nat} (h : session.registry.totalCount ≤ limit)
    (hlimited : Limited limit event) (hstep : session.step event = some session') :
    session'.registry.totalCount ≤ limit := by
  cases event with
  | reserveSpawnSlot holder maxThreads =>
    obtain ⟨-, hstep⟩ := Option.ite_none_right_eq_some.mp hstep
    split at hstep
    next registry hregistry =>
      cases hstep
      obtain ⟨rfl, hroom⟩ := reserveSpawnSlot_cases hregistry
      exact hroom limit hlimited
    next =>
      cases hstep
      exact h
  | reserveAgentNickname | reserveAgentPath =>
    obtain ⟨reservation, -, rfl⟩ := map_eq_some_iff.mp hstep
    split
    next => exact h
    next => exact h
  | commit | dropPath =>
    obtain ⟨reservation, -, rfl⟩ := map_eq_some_iff.mp hstep
    exact h
  | dropSlot holder =>
    obtain ⟨reservation, -, rfl⟩ := map_eq_some_iff.mp hstep
    exact le_trans (Nat.sub_le _ _) h
  | registerRootThread | releaseSpawnedThread =>
    cases hstep
    exact h
  | releaseSlot =>
    obtain ⟨-, ⟨⟩⟩ := Option.ite_none_right_eq_some.mp hstep
    exact le_trans (Nat.sub_le _ _) h

open Machine

theorem run_limited {limit : Nat} {events : List Event} (h : session.registry.totalCount ≤ limit)
    (hlimited : ∀ event ∈ events, Limited limit event)
    (hrun : run step session events = some session') :
    session'.registry.totalCount ≤ limit := by
  induction events generalizing session with
  | nil =>
    cases hrun
    exact h
  | cons event events ih =>
    obtain ⟨next, hstep, hrest⟩ := run_cons_eq_some.mp hrun
    exact ih (step_limited h (hlimited event mem_cons_self) hstep)
      (fun e he => hlimited e (mem_cons_of_mem _ he)) hrest

/-! ## Slots are given back -/

/-- The calls that give slots back. -/
def Returns : Event → Prop
  | .dropPath _ | .dropSlot _ | .releaseSpawnedThread _ | .releaseSlot => True
  | _ => False

/-- A run of returning calls to accounts with one slot less. -/
def FreesOne (session : Session) : Prop :=
  ∃ events session', (∀ event ∈ events, Returns event) ∧
    Machine.run step session events = some session' ∧ session'.Sound ∧ session'.Accounts ∧
    session'.registry.totalCount + 1 = session.registry.totalCount

theorem keeps_of_returns (h : Returns event) : session.keeps event = true := by
  cases event <;> first | rfl | cases h

theorem freesOne_of_step (event : Event) (hsound : session.Sound) (haccounts : session.Accounts)
    (hreturns : Returns event) (hstep : session.step event = some session')
    (hcount : session'.registry.totalCount + 1 = session.registry.totalCount) : session.FreesOne := by
  obtain ⟨hsound', hiff⟩ := step_effect hsound hstep
  refine ⟨[event], session', ?_, ?_, hsound', (hiff haccounts).mpr (keeps_of_returns hreturns), hcount⟩
  · exact forall_mem_singleton.mpr hreturns
  · rw [run_cons, hstep]
    rfl

theorem freesOne_of_ready (event : Event) (hsound : session.Sound) (haccounts : session.Accounts)
    (hreturns : Returns event) (hstep : session.step event = some session')
    (hcount : session'.registry.totalCount = session.registry.totalCount)
    (hready : session'.Sound → session'.Accounts → session'.FreesOne) : session.FreesOne := by
  obtain ⟨hsound', hiff⟩ := step_effect hsound hstep
  obtain ⟨events, final, hall, hrun, hfinal⟩ :=
    hready hsound' ((hiff haccounts).mpr (keeps_of_returns hreturns))
  refine ⟨event :: events, final, ?_, ?_, hcount ▸ hfinal⟩
  · exact forall_mem_cons.mpr ⟨hreturns, hall⟩
  · rw [run_cons, hstep]
    exact hrun

theorem freesOne_releasing (hsound : session.Sound) (haccounts : session.Accounts)
    (h : 0 < session.releasing) : session.FreesOne := by
  have hcounted := haccounts.counted
  rw [slots] at hcounted
  refine freesOne_of_step .releaseSlot hsound haccounts trivial (if_pos h) ?_
  show session.registry.totalCount - 1 + 1 = _
  omega

theorem freesOne_dropping (hsound : session.Sound) (haccounts : session.Accounts)
    (h : session.reservations.lookup holder = some reservation) (hdropping : reservation.dropping = true) :
    session.FreesOne := by
  have hcounted := haccounts.counted
  have hsize := size_erase h
  rw [slots] at hcounted
  have hstep : session.step (.dropSlot holder) = some
      { session with
        registry := { session.registry with totalCount := session.registry.totalCount - 1 }
        reservations := session.reservations.erase holder } := by
    simp only [step, h, filter_some, hdropping, if_true, map_some]
  refine freesOne_of_step (.dropSlot holder) hsound haccounts trivial hstep ?_
  show session.registry.totalCount - 1 + 1 = _
  omega

/-- **Every slot that is taken can be given back**, by the caller that holds it or by the release of
the agent that has it. -/
theorem freesOne (hsound : session.Sound) (haccounts : session.Accounts)
    (h : 0 < session.registry.totalCount) : session.FreesOne := by
  have hcounted := haccounts.counted
  rw [slots] at hcounted
  by_cases hreleasing : 0 < session.releasing
  · exact freesOne_releasing hsound haccounts hreleasing
  by_cases hreserved : session.reservations.entries = []
  · -- An agent has the slot: its thread is released.
    have hlive : session.agents.liveAgents ≠ [] := by
      intro hnone
      rw [hnone, size, hreserved] at hcounted
      simp only [length_nil] at hcounted
      omega
    obtain ⟨metadata, hmem⟩ := exists_mem_of_ne_nil _ hlive
    obtain ⟨hentries, hcounts⟩ := mem_filter.mp hmem
    obtain ⟨⟨key, found⟩, hentry, rfl⟩ := mem_map.mp hentries
    obtain ⟨hid, hroot⟩ := Bool.and_eq_true_iff.mp hcounts
    obtain ⟨threadId, hid⟩ := isSome_iff_exists.mp hid
    have hlookup : session.agents.agentTree.lookup key = some found := AList.mem_lookup_iff.mpr hentry
    have hpath := (haccounts.inverse threadId key).mpr ⟨found, hlookup, hid⟩
    have hcounted : (session.agents.releaseSpawnedThread threadId).2 = true := by
      unfold releaseSpawnedThread
      rw [hpath]
      simpa [hlookup] using hroot
    refine freesOne_of_ready (.releaseSpawnedThread threadId) hsound haccounts trivial rfl rfl
      fun hsound' haccounts' => freesOne_releasing hsound' haccounts' ?_
    show 0 < session.releasing + if (session.agents.releaseSpawnedThread threadId).2 then 1 else 0
    rw [hcounted]
    exact Nat.succ_pos _
  · -- A reservation has the slot: it is dropped.
    obtain ⟨⟨holder, reservation⟩, hentry⟩ := exists_mem_of_ne_nil _ hreserved
    have hlookup : session.reservations.lookup holder = some reservation :=
      AList.mem_lookup_iff.mpr hentry
    cases hdropping : reservation.dropping with
    | true => exact freesOne_dropping hsound haccounts hlookup hdropping
    | false =>
      obtain ⟨next, hstep, hcount, hnext⟩ : ∃ next, session.step (.dropPath holder) = some next ∧
          next.registry.totalCount = session.registry.totalCount ∧
          next.reservations.lookup holder =
            some { reservation with reservedAgentPath := none, dropping := true } := by
        simp only [step, held, hlookup, filter_some, hdropping, Bool.not_false, if_true, map_some]
        exact ⟨_, rfl, rfl, AList.lookup_insert _⟩
      exact freesOne_of_ready (.dropPath holder) hsound haccounts trivial hstep hcount
        fun hsound' haccounts' => freesOne_dropping hsound' haccounts' hnext rfl

theorem drains (hsound : session.Sound) (haccounts : session.Accounts) :
    ∃ events session', (∀ event ∈ events, Returns event) ∧
      run step session events = some session' ∧ session'.registry.totalCount = 0 := by
  induction hcount : session.registry.totalCount generalizing session with
  | zero => exact ⟨[], session, nofun, rfl, hcount⟩
  | succ count ih =>
    obtain ⟨events, next, hall, hrun, hsound', haccounts', hnext⟩ :=
      freesOne hsound haccounts (by omega)
    obtain ⟨events', final, hall', hrun', hzero⟩ := ih hsound' haccounts' (by omega)
    refine ⟨events ++ events', final, ?_, ?_, hzero⟩
    · exact forall_mem_append.mpr ⟨hall, hall'⟩
    · rw [run_append, hrun]
      exact hrun'

end Session

/-! ## Runs -/

section Runs

open Session

theorem initial_sound : Session.initial.Sound :=
  ⟨nofun, nofun, le_refl 0⟩

theorem initial_accounts : Session.initial.Accounts :=
  (accounts_iff initial_sound).mpr ⟨rfl, nofun⟩

theorem run_sound {events : List Event} {session : Session}
    (hrun : Machine.run step Session.initial events = some session) : session.Sound :=
  Machine.run_invariant (fun _ _ _ hsound hstep => (step_effect hsound hstep).1) initial_sound hrun

/-- **When the slots are accounted for.** A run keeps the accounts in all its states if and only if
every commit brings an agent and no thread that is registered elsewhere becomes the root. With a limit
on every reservation there are never more agents than the limit, and in accounts that are in order
every slot can be given back. -/
theorem slots_accounted_iff (events : List Event) (session : Session)
    (hrun : Machine.run step Session.initial events = some session) :
    (Machine.Throughout step Accounts Session.initial events ↔
      Machine.Along step (fun session event => session.keeps event = true) Session.initial events) ∧
    (∀ limit, (∀ event ∈ events, Limited limit event) → session.agents.liveAgents.length ≤ limit) ∧
    (session.Accounts → ∃ events' session', (∀ event ∈ events', Returns event) ∧
      Machine.run step session events' = some session' ∧ session'.registry.totalCount = 0) := by
  refine ⟨?_, fun limit hlimited => ?_, drains (run_sound hrun)⟩
  · exact Machine.throughout_iff_along (fun _ _ _ hsound hstep => (step_effect hsound hstep).1)
      (fun _ _ _ hsound haccounts hstep => (step_effect hsound hstep).2 haccounts)
      initial_sound initial_accounts hrun
  · have hcovered := (run_sound hrun).covered
    have hbound := run_limited (Nat.zero_le limit) hlimited hrun
    unfold slots at hcovered
    omega

/-- A thread of a session. -/
def someThread : ThreadId := ⟨"0199".toList⟩

/-- The metadata of an agent below the root. -/
def someAgent : AgentMetadata :=
  { AgentMetadata.default with
    agentId := some someThread
    agentPath := some ⟨"/root/reviewer".toList, by decide +kernel⟩ }

/-- An agent that is spawned and released. -/
theorem slots_accounted_spawn : Machine.Throughout step Accounts Session.initial
      [.registerRootThread ⟨"0198".toList⟩, .reserveSpawnSlot 0 (some 1), .commit 0 someAgent,
        .releaseSpawnedThread someThread, .releaseSlot] := by
  refine (slots_accounted_iff _ _ (Option.some_get ?runs).symm).1.mpr ?_
  · decide +kernel
  · decide +kernel

/-- **A slot is lost when an agent is committed again.** The thread is resumed while it is registered,
under its own path. Once it is released there is no agent and no reservation, and the one slot that the
limit allows stays taken. -/
theorem committed_again_loses_slot : (Machine.run step Session.initial
        [.reserveSpawnSlot 0 (some 2), .commit 0 someAgent, .reserveSpawnSlot 1 (some 2),
          .commit 1 someAgent, .releaseSpawnedThread someThread, .releaseSlot]).map
      (fun session => (session.registry.totalCount, Table.size session.reservations,
        session.agents.liveAgents.length, session.releasing,
        (session.registry.reserveSpawnSlot (some 1)).isNone)) =
      some (1, 0, 0, 0, true) := by
  decide +kernel

end Runs

end NovumAgent.Agents
