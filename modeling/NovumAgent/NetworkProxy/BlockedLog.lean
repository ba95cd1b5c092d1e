import Mathlib.Data.List.Sort
import NovumAgent.Lib.Run
import NovumAgent.Lib.Slots
import NovumAgent.NetworkProxy.Containment

/-!
# The log of blocked requests

The proxy keeps the requests it blocked in a buffer of its configuration state, with a counter of all there
ever were, and a client drains the buffer. The buffer lives in the value that a change of the
configuration replaces. A reload copies it over while it holds the lock. An update of a domain list reads
the buffer under the lock, builds the new state without it, and installs the copy later, after it has
checked that the configuration is still the one it read.

Each section that holds the lock is one step of the machine below, and the steps of any number of callers
interleave. Every recorded request carries its number, which the program does not have: it says which
record a copy in the buffer came from. `blocked_log_kept_iff` finds the runs in which nothing is lost,
returned twice or counted wrong.
-/

namespace NovumAgent.NetworkProxy

open List

deriving instance DecidableEq for NetworkProxyConfig
deriving instance DecidableEq for NetworkProxyConstraints

def maxBlockedEvents : Nat := 200

/-- `u64::MAX`, where the counter saturates. -/
def u64Max : Nat := 2 ^ 64 - 1

/-! ## Updates of a domain list -/

inductive DomainListKind where
  | allow
  | deny

namespace DomainListKind

def listName : DomainListKind → Text
  | allow => "allowlist".toList
  | deny => "denylist".toList

def constraintField : DomainListKind → Text
  | allow => "network.allowed_domains".toList
  | deny => "network.denied_domains".toList

def permission : DomainListKind → NetworkDomainPermission
  | allow => .allow
  | deny => .deny

variable {Hook Ca : Type}

def entries (target : DomainListKind) (network : NetworkProxyConfig Hook Ca) : List Text :=
  match target with
  | allow => network.allowedDomains.getD []
  | deny => network.deniedDomains.getD []

def oppositeEntries (target : DomainListKind) (network : NetworkProxyConfig Hook Ca) : List Text :=
  match target with
  | allow => network.deniedDomains.getD []
  | deny => network.allowedDomains.getD []

end DomainListKind

def NetworkProxyConfig.upsertDomainPermission {Hook Ca : Type} (config : NetworkProxyConfig Hook Ca)
    (host : Text) (permission : NetworkDomainPermission) (normalize : Text → Text) :
    NetworkProxyConfig Hook Ca :=
  let kept := (config.domains.getD []).filter fun entry => normalize entry.pattern ≠ normalize host
  let domains := kept ++ [⟨host, permission⟩]
  { config with domains := if domains = [] then none else some domains }

inductive LocalBindingPolicy where
  | defaultFalse
  | requireTrue
deriving DecidableEq

namespace LocalBindingPolicy

variable {Hook Ca : Type}

def resolve (policy : LocalBindingPolicy) (config : NetworkProxyConfig Hook Ca) : Bool :=
  config.allowLocalBinding.getD (config.enabled && policy = .requireTrue)

def resolvedConfig (policy : LocalBindingPolicy) (config : NetworkProxyConfig Hook Ca) :
    NetworkProxyConfig Hook Ca :=
  { config with allowLocalBinding := some (policy.resolve config) }

end LocalBindingPolicy

/-- The errors of `update_domain_list`, with the context the source adds to them. -/
inductive UpdateError where
  | host (context : Text)
  | constrained (context : Text) (error : NetworkProxyConstraintError)
  | build (context : Text) (error : BuildError)

section

variable {Hook Ca Hooks Mitm : Type} (outside : Outside Hook Ca Hooks Mitm)

/-- What `update_domain_list` computes between its two locks: nothing to do, or the state to install. -/
def planUpdate (policy : LocalBindingPolicy) (host : Text) (target : DomainListKind)
    (config : NetworkProxyConfig Hook Ca) (constraints : NetworkProxyConstraints)
    (executorOs : Platform) : Except UpdateError (Option (ConfigState Hook Ca Hooks Mitm)) := do
  let normalize := normalizeHost outside.toCrates
  let contains (entries : List Text) : Bool := entries.any fun entry => normalize entry = host
  if contains (target.entries config) ∧ ¬ contains (target.oppositeEntries config) then
    return none
  let candidate := config.upsertDomainPermission host target.permission normalize
  (validatePolicyAgainstConstraints outside (policy.resolvedConfig candidate) constraints).mapError
    (.constrained (target.constraintField ++ " constrained by managed config".toList))
  let newState ← (buildConfigState outside candidate constraints executorOs).mapError
    (.build ("failed to compile updated network ".toList ++ target.listName))
  return some newState

/-- `Host::parse`, to its text. -/
def parseHost (input : Text) : Except UpdateError Text :=
  let normalized := normalizeHost outside.toCrates input
  if normalized = [] then .error (.host "invalid network host".toList) else .ok normalized

end

/-! ## The proxy -/

/-- `BlockedRequest`: what a caller reports, and the execution the proxy puts in. -/
structure BlockedRequest (Details : Type) where
  details : Details
  executionId : Option Text

/-- A recorded request under its number. -/
structure Numbered (Details : Type) where
  number : Nat
  request : BlockedRequest Details

/-- `ConfigState` as it is loaded, with the fields of the configuration that are only compared. -/
structure Loaded (Hook Ca Hooks Mitm Others : Type) where
  state : ConfigState Hook Ca Hooks Mitm
  others : Others
  blockedTotal : Nat

/-- `ConfigState` behind the lock. -/
structure Guard (Hook Ca Hooks Mitm Others Details : Type) extends
    Loaded Hook Ca Hooks Mitm Others where
  blocked : List (Numbered Details)

/-- What an update has in hand when it waits for the write lock: what it read, and the state to install. -/
structure Snapshot (Hook Ca Hooks Mitm Others Details : Type) where
  previousCfg : NetworkProxyConfig Hook Ca
  others : Others
  constraints : NetworkProxyConstraints
  executorOs : Platform
  blocked : List (Numbered Details)
  blockedTotal : Nat
  newState : ConfigState Hook Ca Hooks Mitm

/-- Where a call of `update_domain_list` stands. -/
inductive UpdatePhase (Hook Ca Hooks Mitm Others Details : Type) where
  | reading
  | writing (snapshot : Snapshot Hook Ca Hooks Mitm Others Details)
  | returned (result : Except UpdateError Unit)

/-- A call of `update_domain_list`, past the check of its host. -/
structure Update (Hook Ca Hooks Mitm Others Details : Type) where
  host : Text
  target : DomainListKind
  phase : UpdatePhase Hook Ca Hooks Mitm Others Details

/-- `NetworkProxyState`, with the calls under way and an account of the log: the requests recorded, the
entries that drains returned, and those that were evicted, each with the entries behind it in the
buffer at that moment. -/
structure Proxy (Hook Ca Hooks Mitm Others Details : Type) where
  policy : LocalBindingPolicy
  executionId : Option Text
  guard : Guard Hook Ca Hooks Mitm Others Details
  updates : List (Update Hook Ca Hooks Mitm Others Details)
  recorded : List (BlockedRequest Details)
  drained : List (Numbered Details)
  evicted : List (Numbered Details × List (Numbered Details))

/-- One section that holds the lock, or the start of an update. -/
inductive ProxyEvent (Hook Ca Hooks Mitm Others Details : Type) where
  | recordBlocked (details : Details)
  | drainBlocked
  | updateDomainList (host : Text) (target : DomainListKind)
  | read (index : Nat)
  | write (index : Nat)
  | reloadIfNeeded (newState : Loaded Hook Ca Hooks Mitm Others)
  | forceReload (newState : Loaded Hook Ca Hooks Mitm Others)
  | replaceConfigState (newState : Loaded Hook Ca Hooks Mitm Others)

/-- The loop that keeps the buffer short: what it pops, with what is behind, and what it leaves. -/
def popOld {Details : Type} : List (Numbered Details) →
    List (Numbered Details × List (Numbered Details)) × List (Numbered Details)
  | [] => ([], [])
  | entry :: newer =>
    if maxBlockedEvents < (entry :: newer).length then
      ((entry, newer) :: (popOld newer).1, (popOld newer).2)
    else ([], entry :: newer)

namespace Proxy

variable {Hook Ca Hooks Mitm Others Details : Type} (outside : Outside Hook Ca Hooks Mitm)
  [DecidableEq Hook] [DecidableEq Ca] [DecidableEq Others]

/-- A proxy with a state as it was built: nothing blocked. -/
def start (policy : LocalBindingPolicy) (executionId : Option Text)
    (state : ConfigState Hook Ca Hooks Mitm) (others : Others) :
    Proxy Hook Ca Hooks Mitm Others Details :=
  ⟨policy, executionId, ⟨⟨state, others, 0⟩, []⟩, [], [], [], []⟩

/-- The write section of `record_blocked`. -/
def recordBlocked (proxy : Proxy Hook Ca Hooks Mitm Others Details) (details : Details) :
    Proxy Hook Ca Hooks Mitm Others Details :=
  let request : BlockedRequest Details := ⟨details, proxy.executionId⟩
  let popped := popOld (proxy.guard.blocked ++ [⟨proxy.recorded.length, request⟩])
  { proxy with
    guard :=
      { proxy.guard with
        blocked := popped.2
        blockedTotal := min (proxy.guard.blockedTotal + 1) u64Max }
    recorded := proxy.recorded ++ [request]
    evicted := proxy.evicted ++ popped.1 }

/-- The write section of `drain_blocked`. -/
def drainBlocked (proxy : Proxy Hook Ca Hooks Mitm Others Details) :
    Proxy Hook Ca Hooks Mitm Others Details :=
  { proxy with
    guard := { proxy.guard with blocked := [] }
    drained := proxy.drained ++ proxy.guard.blocked }

/-- A call of `update_domain_list` moves on. -/
def enter (proxy : Proxy Hook Ca Hooks Mitm Others Details) (index : Nat)
    (update : Update Hook Ca Hooks Mitm Others Details)
    (phase : UpdatePhase Hook Ca Hooks Mitm Others Details) :
    Proxy Hook Ca Hooks Mitm Others Details :=
  { proxy with updates := proxy.updates.set index { update with phase := phase } }

/-- The read section of `update_domain_list`, and what it computes behind it. -/
def read (proxy : Proxy Hook Ca Hooks Mitm Others Details) (index : Nat)
    (update : Update Hook Ca Hooks Mitm Others Details) : Proxy Hook Ca Hooks Mitm Others Details :=
  let guard := proxy.guard
  match planUpdate outside proxy.policy update.host update.target guard.state.config
      guard.state.constraints guard.state.executorOs with
  | .error error => proxy.enter index update (.returned (.error error))
  | .ok none => proxy.enter index update (.returned (.ok ()))
  | .ok (some newState) =>
    proxy.enter index update (.writing ⟨guard.state.config, guard.others, guard.state.constraints,
      guard.state.executorOs, guard.blocked, guard.blockedTotal, newState⟩)

/-- Does the check before the installation find what was read? -/
def Unchanged (guard : Guard Hook Ca Hooks Mitm Others Details)
    (snapshot : Snapshot Hook Ca Hooks Mitm Others Details) : Prop :=
  guard.state.constraints = snapshot.constraints ∧ guard.state.config = snapshot.previousCfg ∧
    guard.others = snapshot.others ∧ guard.state.executorOs = snapshot.executorOs

instance (guard : Guard Hook Ca Hooks Mitm Others Details)
    (snapshot : Snapshot Hook Ca Hooks Mitm Others Details) : Decidable (Unchanged guard snapshot) :=
  inferInstanceAs (Decidable (_ ∧ _ ∧ _ ∧ _))

/-- The write section of `update_domain_list`. -/
def write (proxy : Proxy Hook Ca Hooks Mitm Others Details) (index : Nat)
    (update : Update Hook Ca Hooks Mitm Others Details)
    (snapshot : Snapshot Hook Ca Hooks Mitm Others Details) : Proxy Hook Ca Hooks Mitm Others Details :=
  if Unchanged proxy.guard snapshot then
    { proxy.enter index update (.returned (.ok ())) with
      guard := ⟨⟨snapshot.newState, snapshot.others, snapshot.blockedTotal⟩, snapshot.blocked⟩ }
  else proxy.enter index update .reading

/-- The section of `reload_if_needed`, and that of `replace_config_state`, which is the same. -/
def reloadIfNeeded (proxy : Proxy Hook Ca Hooks Mitm Others Details)
    (newState : Loaded Hook Ca Hooks Mitm Others) : Proxy Hook Ca Hooks Mitm Others Details :=
  { proxy with
    guard :=
      { newState with
        blocked := proxy.guard.blocked
        blockedTotal := proxy.guard.blockedTotal } }

/-- The section of `force_reload`. It keeps the buffer, not the counter. -/
def forceReload (proxy : Proxy Hook Ca Hooks Mitm Others Details)
    (newState : Loaded Hook Ca Hooks Mitm Others) : Proxy Hook Ca Hooks Mitm Others Details :=
  { proxy with guard := { newState with blocked := proxy.guard.blocked } }

/-- One step. -/
def step (proxy : Proxy Hook Ca Hooks Mitm Others Details) :
    ProxyEvent Hook Ca Hooks Mitm Others Details → Option (Proxy Hook Ca Hooks Mitm Others Details)
  | .recordBlocked details => some (proxy.recordBlocked details)
  | .drainBlocked => some proxy.drainBlocked
  | .updateDomainList host target =>
    match parseHost outside host with
    | .error error =>
      some { proxy with updates := proxy.updates ++ [⟨host, target, .returned (.error error)⟩] }
    | .ok normalized =>
      some { proxy with updates := proxy.updates ++ [⟨normalized, target, .reading⟩] }
  | .read index =>
    match proxy.updates[index]? with
    | some update =>
      match update.phase with
      | .reading => some (proxy.read outside index update)
      | _ => none
    | none => none
  | .write index =>
    match proxy.updates[index]? with
    | some update =>
      match update.phase with
      | .writing snapshot => some (proxy.write index update snapshot)
      | _ => none
    | none => none
  | .reloadIfNeeded newState | .replaceConfigState newState => some (proxy.reloadIfNeeded newState)
  | .forceReload newState => some (proxy.forceReload newState)

end Proxy

/-! ## What is to be kept -/

section

variable {Hook Ca Hooks Mitm Others Details : Type}

/-- How many copies of a record are among the entries. -/
def copies (number : Nat) (entries : List (Numbered Details)) : Nat :=
  (entries.map Numbered.number).count number

/-- **Nothing is lost.** Every completed record is in exactly one place and there once: in the buffer, among
the entries that drains returned, or among the evicted. The entries are what was recorded, an entry was
evicted only with a full buffer of newer ones behind it, and the counter counts the records. -/
structure Proxy.LogKept (proxy : Proxy Hook Ca Hooks Mitm Others Details) : Prop where
  once : ∀ number, copies number proxy.guard.blocked + copies number proxy.drained +
    copies number (proxy.evicted.map Prod.fst) = if number < proxy.recorded.length then 1 else 0
  genuine : ∀ entry ∈ proxy.guard.blocked ++ proxy.drained ++ proxy.evicted.map Prod.fst,
    proxy.recorded[entry.number]? = some entry.request
  full : ∀ eviction ∈ proxy.evicted, maxBlockedEvents ≤ eviction.2.length ∧
    ∀ newer ∈ eviction.2, eviction.1.number < newer.number
  total : proxy.guard.blockedTotal = proxy.recorded.length

/-- The steps that keep the log. An update installs the buffer and the counter it read: they have to be those
of this moment. A forced reload installs the counter it loaded. And the counter has an end. -/
def Proxy.KeepsLog (proxy : Proxy Hook Ca Hooks Mitm Others Details) :
    ProxyEvent Hook Ca Hooks Mitm Others Details → Prop
  | .recordBlocked _ => proxy.guard.blockedTotal < u64Max
  | .write index =>
    ∀ update ∈ proxy.updates[index]?, ∀ snapshot, update.phase = .writing snapshot →
      Unchanged proxy.guard snapshot →
        snapshot.blocked = proxy.guard.blocked ∧ snapshot.blockedTotal = proxy.guard.blockedTotal
  | .forceReload newState => newState.blockedTotal = proxy.guard.blockedTotal
  | _ => True

/-- Entries in the order of their numbers, each what was recorded under its number. -/
structure Entries (recorded : List (BlockedRequest Details)) (entries : List (Numbered Details)) :
    Prop where
  sorted : entries.Pairwise fun entry newer => entry.number < newer.number
  genuine : ∀ entry ∈ entries, recorded[entry.number]? = some entry.request

variable {recorded : List (BlockedRequest Details)} {entries others : List (Numbered Details)}

theorem entries_nil : Entries recorded ([] : List (Numbered Details)) := ⟨.nil, nofun⟩

theorem copies_append (number : Nat) :
    copies number (entries ++ others) = copies number entries + copies number others := by
  unfold copies
  rw [map_append, count_append]

theorem copies_singleton (number other : Nat) (request : BlockedRequest Details) :
    copies number [⟨other, request⟩] = if other = number then 1 else 0 := by
  unfold copies
  rw [map_singleton, count_singleton]
  simp only [beq_iff_eq]

theorem getElem?_recorded {number : Nat} {request : BlockedRequest Details}
    (h : recorded[number]? = some request) (later : List (BlockedRequest Details)) :
    (recorded ++ later)[number]? = some request := by
  rw [List.getElem?_append_left (List.getElem?_eq_some_iff.mp h).1, h]

theorem Entries.record (h : Entries recorded entries) (request : BlockedRequest Details) :
    Entries (recorded ++ [request]) entries :=
  ⟨h.sorted, fun entry hmem => getElem?_recorded (h.genuine entry hmem) _⟩

theorem Entries.push (h : Entries recorded entries) (request : BlockedRequest Details) :
    Entries (recorded ++ [request]) (entries ++ [⟨recorded.length, request⟩]) := by
  constructor
  · refine pairwise_append.mpr ⟨h.sorted, pairwise_singleton _ _, ?_⟩
    intro entry hentry newer hnewer
    cases mem_singleton.mp hnewer
    exact (List.getElem?_eq_some_iff.mp (h.genuine entry hentry)).1
  · exact forall_mem_append.mpr
      ⟨(h.record request).genuine, forall_mem_singleton.mpr getElem?_concat_length⟩

theorem Entries.eq_of_copies (h : Entries recorded entries) (h' : Entries recorded others)
    (hcopies : ∀ number, copies number entries = copies number others) : entries = others := by
  have hnumbers : entries.map Numbered.number = others.map Numbered.number := by
    refine List.Perm.eq_of_pairwise (fun a b _ _ hab hba => ?_) (pairwise_map.mpr h.sorted)
      (pairwise_map.mpr h'.sorted) (perm_iff_count.mpr hcopies)
    exact absurd hab (Nat.lt_asymm hba)
  have hrebuild : ∀ {l : List (Numbered Details)}, Entries recorded l →
      (l.map Numbered.number).filterMap (fun number => recorded[number]?.map (⟨number, ·⟩)) = l := by
    intro l hl
    rw [filterMap_map]
    refine (filterMap_congr fun entry hentry => ?_).trans filterMap_some
    show recorded[entry.number]?.map _ = some entry
    rw [hl.genuine entry hentry]
    rfl
  rw [← hrebuild h, ← hrebuild h', hnumbers]

theorem popOld_append (entries : List (Numbered Details)) :
    (popOld entries).1.map Prod.fst ++ (popOld entries).2 = entries := by
  induction entries with
  | nil => rfl
  | cons entry newer ih =>
    unfold popOld
    split
    · show entry :: (map Prod.fst (popOld newer).1 ++ (popOld newer).2) = entry :: newer
      rw [ih]
    · rfl

theorem popOld_full (hsorted : entries.Pairwise fun entry newer => entry.number < newer.number) :
    ∀ eviction ∈ (popOld entries).1, maxBlockedEvents ≤ eviction.2.length ∧
      ∀ newer ∈ eviction.2, eviction.1.number < newer.number := by
  induction entries with
  | nil => exact nofun
  | cons entry newer ih =>
    obtain ⟨hfirst, hrest⟩ := pairwise_cons.mp hsorted
    unfold popOld
    split
    next hlong =>
      intro eviction hmem
      obtain rfl | hlater := mem_cons.mp hmem
      · refine ⟨?_, hfirst⟩
        rw [length_cons] at hlong
        exact Nat.le_of_lt_succ hlong
      · exact ih hrest eviction hlater
    next => exact nofun

end

/-! ## What holds in every state -/

namespace Proxy

section

variable {Hook Ca Hooks Mitm Others Details : Type}
  {proxy next : Proxy Hook Ca Hooks Mitm Others Details}

/-- The buffer, and each copy of it that an update has, are entries of the log in order; so are the entries
that left the buffer. -/
structure Sound (proxy : Proxy Hook Ca Hooks Mitm Others Details) : Prop where
  buffer : Entries proxy.recorded proxy.guard.blocked
  snapshots : ∀ update ∈ proxy.updates, ∀ snapshot, update.phase = .writing snapshot →
    Entries proxy.recorded snapshot.blocked
  gone : ∀ entry ∈ proxy.drained ++ proxy.evicted.map Prod.fst,
    proxy.recorded[entry.number]? = some entry.request
  full : ∀ eviction ∈ proxy.evicted, maxBlockedEvents ≤ eviction.2.length ∧
    ∀ newer ∈ eviction.2, eviction.1.number < newer.number

theorem sound_start (policy : LocalBindingPolicy) (executionId : Option Text)
    (state : ConfigState Hook Ca Hooks Mitm) (others : Others) :
    Sound (start policy executionId state others : Proxy Hook Ca Hooks Mitm Others Details) where
  buffer := entries_nil
  snapshots := fun _ hupdate => absurd hupdate not_mem_nil
  gone := fun _ hentry => absurd hentry not_mem_nil
  full := fun _ heviction => absurd heviction not_mem_nil

open Proxy

section

variable (h : Sound proxy)
include h

theorem Sound.recordBlocked (details : Details) : Sound (proxy.recordBlocked details) := by
  have hpushed := h.buffer.push ⟨details, proxy.executionId⟩
  have hsplit := popOld_append (proxy.guard.blocked ++
    [⟨proxy.recorded.length, ⟨details, proxy.executionId⟩⟩])
  constructor
  · constructor
    · exact (hsplit ▸ hpushed.sorted).sublist (sublist_append_right _ _)
    · intro entry hentry
      exact hpushed.genuine entry (hsplit ▸ mem_append_right _ hentry)
  · intro update hupdate snapshot hphase
    exact (h.snapshots update hupdate snapshot hphase).record _
  · intro entry hentry
    show (proxy.recorded ++ [_])[entry.number]? = _
    rw [Proxy.recordBlocked] at hentry
    simp only [map_append, mem_append] at hentry
    obtain hdrained | hevicted | hpopped := hentry
    · exact getElem?_recorded (h.gone entry (mem_append_left _ hdrained)) _
    · exact getElem?_recorded (h.gone entry (mem_append_right _ hevicted)) _
    · exact hpushed.genuine entry (hsplit ▸ mem_append_left _ hpopped)
  · exact forall_mem_append.mpr ⟨h.full, popOld_full hpushed.sorted⟩

theorem Sound.drainBlocked : Sound proxy.drainBlocked := by
  refine ⟨entries_nil, h.snapshots, fun entry hentry => ?_, h.full⟩
  simp only [Proxy.drainBlocked, mem_append] at hentry
  obtain (hdrained | hblocked) | hevicted := hentry
  · exact h.gone entry (mem_append_left _ hdrained)
  · exact h.buffer.genuine entry hblocked
  · exact h.gone entry (mem_append_right _ hevicted)

theorem Sound.genuine :
    ∀ entry ∈ proxy.guard.blocked ++ proxy.drained ++ proxy.evicted.map Prod.fst,
      proxy.recorded[entry.number]? = some entry.request := by
  rw [append_assoc]
  exact forall_mem_append.mpr ⟨h.buffer.genuine, h.gone⟩

variable {update : Update Hook Ca Hooks Mitm Others Details}

theorem Sound.enter {index : Nat} {phase : UpdatePhase Hook Ca Hooks Mitm Others Details}
    (hphase : ∀ snapshot, phase = .writing snapshot → Entries proxy.recorded snapshot.blocked) :
    Sound (proxy.enter index update phase) :=
  ⟨h.buffer, Slots.forall_mem_set h.snapshots hphase, h.gone, h.full⟩

theorem Sound.enter_reading (index : Nat)
    (update : Update Hook Ca Hooks Mitm Others Details) : Sound (proxy.enter index update .reading) := by
  refine h.enter fun snapshot heq => ?_
  cases heq

theorem Sound.enter_returned (index : Nat)
    (update : Update Hook Ca Hooks Mitm Others Details) (result : Except UpdateError Unit) :
    Sound (proxy.enter index update (.returned result)) := by
  refine h.enter fun snapshot heq => ?_
  cases heq

theorem Sound.read (outside : Outside Hook Ca Hooks Mitm) (index : Nat)
    (update : Update Hook Ca Hooks Mitm Others Details) : Sound (proxy.read outside index update) := by
  unfold Proxy.read
  dsimp only
  generalize planUpdate outside proxy.policy update.host update.target proxy.guard.state.config
    proxy.guard.state.constraints proxy.guard.state.executorOs = plan
  match plan with
  | .error error => exact h.enter_returned index update (.error error)
  | .ok none => exact h.enter_returned index update (.ok ())
  | .ok (some newState) =>
    refine h.enter fun snapshot hsnapshot => ?_
    cases hsnapshot
    exact h.buffer

theorem Sound.begin (hphase : ∀ snapshot, update.phase ≠ .writing snapshot) :
    Sound { proxy with updates := proxy.updates ++ [update] } := by
  refine ⟨h.buffer, fun other hother snapshot heq => ?_, h.gone, h.full⟩
  obtain hold | hnew := mem_append.mp hother
  · exact h.snapshots other hold snapshot heq
  · cases mem_singleton.mp hnew
    exact absurd heq (hphase snapshot)

end

/-- Nothing of the log moves. -/
structure SameLog (proxy next : Proxy Hook Ca Hooks Mitm Others Details) : Prop where
  blocked : next.guard.blocked = proxy.guard.blocked
  drained : next.drained = proxy.drained
  evicted : next.evicted = proxy.evicted
  recorded : next.recorded = proxy.recorded

theorem SameLog.logKept_iff (hsame : SameLog proxy next) (hkept : LogKept proxy) :
    LogKept next ↔ next.guard.blockedTotal = proxy.guard.blockedTotal := by
  obtain ⟨hblocked, hdrained, hevicted, hrecorded⟩ := hsame
  constructor
  · intro h
    rw [h.total, hrecorded, hkept.total]
  · intro htotal
    refine ⟨?_, ?_, ?_, ?_⟩
    · rw [hblocked, hdrained, hevicted, hrecorded]
      exact hkept.once
    · rw [hblocked, hdrained, hevicted, hrecorded]
      exact hkept.genuine
    · rw [hevicted]
      exact hkept.full
    · rw [htotal, hrecorded, hkept.total]

theorem logKept_recordBlocked (h : Sound proxy) (hkept : LogKept proxy) (details : Details) :
    LogKept (proxy.recordBlocked details) ↔ proxy.guard.blockedTotal < u64Max := by
  have hsound := h.recordBlocked details
  have htotal : (proxy.recordBlocked details).guard.blockedTotal =
      min (proxy.guard.blockedTotal + 1) u64Max := rfl
  have hlength : (proxy.recordBlocked details).recorded.length = proxy.recorded.length + 1 :=
    length_append
  constructor
  · intro hnext
    have hcount := hnext.total
    rw [htotal, hlength, ← hkept.total] at hcount
    omega
  · intro hless
    refine ⟨fun number => ?_, hsound.genuine, hsound.full, ?_⟩
    · have honce := hkept.once number
      have hsplit := popOld_append (proxy.guard.blocked ++
        [⟨proxy.recorded.length, ⟨details, proxy.executionId⟩⟩])
      have hcopies := congrArg (copies number) hsplit
      have hnew := copies_singleton number proxy.recorded.length ⟨details, proxy.executionId⟩
      rw [copies_append, copies_append, hnew] at hcopies
      rw [hlength]
      simp only [recordBlocked, map_append, copies_append]
      split at honce <;> split at hcopies <;> split <;> omega
    · rw [htotal, hlength, ← hkept.total]
      omega

theorem logKept_drainBlocked (h : Sound proxy) (hkept : LogKept proxy) : LogKept proxy.drainBlocked := by
  have hsound := h.drainBlocked
  refine ⟨fun number => ?_, hsound.genuine, hsound.full, hkept.total⟩
  have honce := hkept.once number
  have hnil : copies number ([] : List (Numbered Details)) = 0 := rfl
  show copies number [] + copies number (proxy.drained ++ proxy.guard.blocked) +
    copies number (proxy.evicted.map Prod.fst) = if number < proxy.recorded.length then 1 else 0
  rw [copies_append]
  omega

theorem logKept_install (h : Sound proxy) (hkept : LogKept proxy)
    (hnext : next.drained = proxy.drained) (hevicted : next.evicted = proxy.evicted)
    (hrecorded : next.recorded = proxy.recorded)
    (hentries : Entries proxy.recorded next.guard.blocked) :
    LogKept next ↔ next.guard.blocked = proxy.guard.blocked ∧
      next.guard.blockedTotal = proxy.guard.blockedTotal := by
  constructor
  · intro hkept'
    have hblocked : next.guard.blocked = proxy.guard.blocked := by
      refine hentries.eq_of_copies h.buffer fun number => ?_
      have hbefore := hkept.once number
      have hafter := hkept'.once number
      rw [hnext, hevicted, hrecorded] at hafter
      omega
    exact ⟨hblocked, (SameLog.logKept_iff ⟨hblocked, hnext, hevicted, hrecorded⟩ hkept).mp hkept'⟩
  · rintro ⟨hblocked, htotal⟩
    exact (SameLog.logKept_iff ⟨hblocked, hnext, hevicted, hrecorded⟩ hkept).mpr htotal

theorem sameLog_read (proxy : Proxy Hook Ca Hooks Mitm Others Details)
    (outside : Outside Hook Ca Hooks Mitm) (index : Nat)
    (update : Update Hook Ca Hooks Mitm Others Details) :
    SameLog proxy (proxy.read outside index update) ∧
      (proxy.read outside index update).guard.blockedTotal = proxy.guard.blockedTotal := by
  unfold read
  dsimp only
  generalize planUpdate outside proxy.policy update.host update.target proxy.guard.state.config
    proxy.guard.state.constraints proxy.guard.state.executorOs = plan
  match plan with
  | .error _ | .ok none | .ok (some _) => exact ⟨⟨rfl, rfl, rfl, rfl⟩, rfl⟩

theorem logKept_start (policy : LocalBindingPolicy) (executionId : Option Text)
    (state : ConfigState Hook Ca Hooks Mitm) (others : Others) :
    LogKept (start policy executionId state others : Proxy Hook Ca Hooks Mitm Others Details) where
  once := fun _ => rfl
  genuine := fun _ hentry => absurd hentry not_mem_nil
  full := fun _ heviction => absurd heviction not_mem_nil
  total := rfl

end

section

variable {Hook Ca Hooks Mitm Others Details : Type} {outside : Outside Hook Ca Hooks Mitm}
  [DecidableEq Hook] [DecidableEq Ca] [DecidableEq Others]
  {proxy next : Proxy Hook Ca Hooks Mitm Others Details}
  {event : ProxyEvent Hook Ca Hooks Mitm Others Details}

theorem Sound.write (h : Sound proxy) (index : Nat)
    {snapshot : Snapshot Hook Ca Hooks Mitm Others Details}
    (hsnapshot : Entries proxy.recorded snapshot.blocked) :
    Sound (proxy.write index update snapshot) := by
  unfold Proxy.write
  split
  · have hentered := h.enter_returned index update (.ok ())
    exact ⟨hsnapshot, hentered.snapshots, h.gone, h.full⟩
  · exact h.enter_reading index update

theorem Sound.step (h : Sound proxy) (hstep : proxy.step outside event = some next) : Sound next := by
  cases event with
  | recordBlocked details =>
    cases hstep
    exact h.recordBlocked details
  | drainBlocked =>
    cases hstep
    exact h.drainBlocked
  | updateDomainList host target =>
    simp only [step] at hstep
    split at hstep
    next =>
      cases hstep
      refine h.begin fun snapshot heq => ?_
      cases heq
    next =>
      cases hstep
      refine h.begin fun snapshot heq => ?_
      cases heq
  | read index =>
    simp only [step] at hstep
    split at hstep
    next update hupdate =>
      split at hstep
      next =>
        cases hstep
        exact h.read outside index update
      next => cases hstep
    next => cases hstep
  | write index =>
    simp only [step] at hstep
    split at hstep
    next update hupdate =>
      split at hstep
      next snapshot hphase =>
        cases hstep
        exact h.write index (h.snapshots update (mem_of_getElem? hupdate) snapshot hphase)
      next => cases hstep
    next => cases hstep
  | reloadIfNeeded newState | replaceConfigState newState | forceReload newState =>
    cases hstep
    exact ⟨h.buffer, h.snapshots, h.gone, h.full⟩

theorem logKept_write (h : Sound proxy) (hkept : LogKept proxy) (index : Nat)
    {snapshot : Snapshot Hook Ca Hooks Mitm Others Details}
    (hsnapshot : Entries proxy.recorded snapshot.blocked) :
    LogKept (proxy.write index update snapshot) ↔ (Unchanged proxy.guard snapshot →
      snapshot.blocked = proxy.guard.blocked ∧
        snapshot.blockedTotal = proxy.guard.blockedTotal) := by
  unfold write
  by_cases hsame : Unchanged proxy.guard snapshot
  · rw [if_pos hsame]
    refine Iff.trans (logKept_install h hkept rfl rfl rfl hsnapshot) ?_
    exact ⟨fun hinstalled _ => hinstalled, fun hinstalled => hinstalled hsame⟩
  · rw [if_neg hsame]
    have hstill : SameLog proxy (proxy.enter index update .reading) := ⟨rfl, rfl, rfl, rfl⟩
    exact ⟨fun _ hchanged => absurd hchanged hsame, fun _ => (hstill.logKept_iff hkept).mpr rfl⟩

/-- **One step** keeps the log if and only if it is one that does. -/
theorem logKept_step (h : Sound proxy) (hkept : LogKept proxy)
    (hstep : proxy.step outside event = some next) : LogKept next ↔ proxy.KeepsLog event := by
  cases event with
  | recordBlocked details =>
    cases hstep
    exact logKept_recordBlocked h hkept details
  | drainBlocked =>
    cases hstep
    exact iff_of_true (logKept_drainBlocked h hkept) trivial
  | updateDomainList host target =>
    have hsame : SameLog proxy next ∧ next.guard.blockedTotal = proxy.guard.blockedTotal := by
      simp only [step] at hstep
      split at hstep
      next =>
        cases hstep
        exact ⟨⟨rfl, rfl, rfl, rfl⟩, rfl⟩
      next =>
        cases hstep
        exact ⟨⟨rfl, rfl, rfl, rfl⟩, rfl⟩
    exact iff_of_true ((hsame.1.logKept_iff hkept).mpr hsame.2) trivial
  | read index =>
    simp only [step] at hstep
    split at hstep
    next update hupdate =>
      split at hstep
      next =>
        cases hstep
        obtain ⟨hsame, htotal⟩ := sameLog_read proxy outside index update
        exact iff_of_true ((hsame.logKept_iff hkept).mpr htotal) trivial
      next => cases hstep
    next => cases hstep
  | write index =>
    simp only [step] at hstep
    split at hstep
    next update hupdate =>
      split at hstep
      next snapshot hphase =>
        cases hstep
        have hsnapshot := h.snapshots update (mem_of_getElem? hupdate) snapshot hphase
        refine (logKept_write h hkept index hsnapshot).trans ⟨fun hinstalled => ?_, fun hall => ?_⟩
        · intro other hother snapshot' hphase'
          cases hupdate.symm.trans hother
          cases hphase.symm.trans hphase'
          exact hinstalled
        · exact hall update hupdate snapshot hphase
      next => cases hstep
    next => cases hstep
  | reloadIfNeeded newState | replaceConfigState newState =>
    cases hstep
    have hsame : SameLog proxy (proxy.reloadIfNeeded newState) := ⟨rfl, rfl, rfl, rfl⟩
    exact iff_of_true ((hsame.logKept_iff hkept).mpr rfl) trivial
  | forceReload newState =>
    cases hstep
    have hsame : SameLog proxy (proxy.forceReload newState) := ⟨rfl, rfl, rfl, rfl⟩
    exact hsame.logKept_iff hkept

/-- **The log of blocked requests, in every run.** From a state as it was built, the log is kept in all the
states of a run if and only if every update installs the buffer and the counter of the moment it installs
them, every forced reload loads the counter of that moment, and the counter is not at its end at a
record. -/
theorem blocked_log_kept_iff (outside : Outside Hook Ca Hooks Mitm) (policy : LocalBindingPolicy)
    (executionId : Option Text) (state : ConfigState Hook Ca Hooks Mitm) (others : Others)
    (events : List (ProxyEvent Hook Ca Hooks Mitm Others Details))
    (final : Proxy Hook Ca Hooks Mitm Others Details)
    (hrun : Machine.run (Proxy.step outside) (start policy executionId state others) events =
      some final) :
    Machine.Throughout (Proxy.step outside) LogKept (start policy executionId state others) events ↔
      Machine.Along (Proxy.step outside) KeepsLog (start policy executionId state others) events := by
  exact Machine.throughout_iff_along (fun _ _ _ h hstep => h.step hstep)
    (fun _ _ _ h hkept hstep => logKept_step h hkept hstep)
    (sound_start policy executionId state others) (logKept_start policy executionId state others) hrun

end

/-! ## Runs -/

/-- A proxy of the default policy that allows one domain, over a configuration whose other fields are
left out. -/
def demo (state : ConfigState Unit Unit Unit Unit) : Proxy Unit Unit Unit Unit Unit Nat :=
  start .defaultFalse none state ()

/-- Where the records of a proxy are: the numbers in the buffer, drained and evicted; how many there were, and
the counter. -/
def tally (proxy : Proxy Unit Unit Unit Unit Unit Nat) :
    List Nat × List Nat × List Nat × Nat × Nat :=
  (proxy.guard.blocked.map Numbered.number, proxy.drained.map Numbered.number,
    proxy.evicted.map (·.1.number), proxy.recorded.length, proxy.guard.blockedTotal)

/-- An update that nothing comes between keeps the log. -/
theorem blocked_log_kept_quiet : ∃ state,
    buildConfigState sketch (allowing ["a.example".toList]) .default .linux = .ok state ∧
      Machine.Throughout (Proxy.step sketch) LogKept (demo state)
        [.recordBlocked 7, .updateDomainList "b.example".toList .allow, .read 0, .write 0,
          .drainBlocked] := by
  refine ⟨_, rfl, (blocked_log_kept_iff sketch .defaultFalse none _ () _ _ rfl).mpr ?_⟩
  refine ⟨show 0 < u64Max by decide, fun _ hrecord => ?_⟩
  cases hrecord
  refine ⟨trivial, fun _ hupdate => ?_⟩
  cases hupdate
  refine ⟨trivial, fun _ hread => ?_⟩
  cases hread
  refine ⟨?_, fun _ hwrite => ?_⟩
  · rintro _ ⟨⟩ _ ⟨⟩ -
    exact ⟨rfl, rfl⟩
  · cases hwrite
    exact ⟨trivial, fun _ _ => trivial⟩

/-- **Updates and forced reloads that spoil the log.** A request recorded while an update builds its state is
gone, and is not counted. An entry drained in that time is back in the buffer and is drained again. And
a forced reload sets the counter back. -/
theorem blocked_log_lost : ∃ state,
    buildConfigState sketch (allowing ["a.example".toList]) .default .linux = .ok state ∧
      (Machine.run (Proxy.step sketch) (demo state)
        [.updateDomainList "b.example".toList .allow, .read 0, .recordBlocked 7, .write 0]).map tally =
          some ([], [], [], 1, 0) ∧
      (Machine.run (Proxy.step sketch) (demo state)
        [.recordBlocked 7, .updateDomainList "b.example".toList .allow, .read 0, .drainBlocked,
          .write 0, .drainBlocked]).map tally = some ([], [0, 0], [], 1, 1) ∧
      (Machine.run (Proxy.step sketch) (demo state)
        [.recordBlocked 7, .forceReload ⟨state, (), 0⟩]).map tally = some ([0], [], [], 1, 0) := by
  refine ⟨_, rfl, ?_, ?_, ?_⟩
  · decide +kernel
  · decide +kernel
  · decide +kernel

end Proxy

end NovumAgent.NetworkProxy
