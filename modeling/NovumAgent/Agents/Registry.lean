import NovumAgent.Lib.Run
import NovumAgent.Lib.Table
import NovumAgent.Lib.Text

/-!
# The agent registry

A session keeps one registry of its agents: the tree of agents by path, the path of each thread, and
a counter of the slots that are taken. A slot is taken by a reservation before the agent exists. The
reservation is then either committed, which registers the agent under its path, or dropped, which gives
the slot back; an agent gives its slot back when its thread is released.

The tree and the reverse index change together under one lock, the counter is an atomic of its own. A
release therefore takes two steps, first the entry and then the slot, and so does the drop of a
reservation, first the path and then the slot. The steps of any number of callers interleave
(`Session.step`).
-/

namespace NovumAgent.Agents

/-! ## Agents -/

/-- `ThreadId`, by the text it is displayed as. -/
structure ThreadId where
  text : Text
deriving DecidableEq

def validateAgentName (agentName : Text) : Except Text Unit :=
  if agentName = [] then .error "agent_name must not be empty".toList
  else if agentName = "root".toList then .error "agent_name `root` is reserved".toList
  else if agentName = ".".toList ∨ agentName = "..".toList then
    .error ("agent_name `".toList ++ agentName ++ "` is reserved".toList)
  else if '/' ∈ agentName then .error "agent_name must not contain `/`".toList
  else if ¬ agentName.all fun c => c.isLower || c.isDigit || c == '_' then
    .error "agent_name must use only lowercase letters, digits, and underscores".toList
  else .ok ()

/-- `AgentPath::ROOT`. -/
def rootPath : Text := "/root".toList

/-- `AgentPath::MORPHEUS`. -/
def morpheusPath : Text := "/morpheus".toList

def validateAbsolutePath (path : Text) : Except Text Unit :=
  if path = morpheusPath then .ok ()
  else
    match path with
    | '/' :: stripped =>
      match stripped.splitOnP (· = '/') with
      | [] => .error "absolute agent path must not be empty".toList
      | root :: segments =>
        if root ≠ "root".toList then
          .error "absolute agent paths must start with `/root` or be `/morpheus`".toList
        else if stripped.getLast? = some '/' then
          .error "absolute agent path must not end with `/`".toList
        else segments.forM validateAgentName
    | _ => .error "absolute agent paths must start with `/root` or be `/morpheus`".toList

/-- `AgentPath`: a text that passed its check. -/
structure AgentPath where
  text : Text
  valid : validateAbsolutePath text = .ok ()

def AgentPath.root : AgentPath := ⟨rootPath, by decide +kernel⟩

def AgentPath.isRoot (path : AgentPath) : Bool := path.text = rootPath

structure AgentMetadata where
  agentId : Option ThreadId
  agentPath : Option AgentPath
  agentNickname : Option Text
  agentRole : Option Text

namespace AgentMetadata

def default : AgentMetadata := ⟨none, none, none, none⟩

/-- Is this the agent at the root? -/
def isRoot (metadata : AgentMetadata) : Bool := metadata.agentPath.any AgentPath.isRoot

/-- The key that `register_spawned_thread` puts an agent under. -/
def key (metadata : AgentMetadata) (threadId : ThreadId) : Text :=
  match metadata.agentPath with
  | some path => path.text
  | none => "thread:".toList ++ threadId.text

end AgentMetadata

/-! ## The registry -/

/-- `ActiveAgents`, with the path of each registered thread. -/
structure ActiveAgents where
  agentTree : Table Text AgentMetadata
  threadPaths : Table ThreadId Text
  usedAgentNicknames : List Text
  nicknameResetCount : Nat

structure AgentRegistry where
  activeAgents : ActiveAgents
  totalCount : Nat

def formatAgentNickname (name : Text) (nicknameResetCount : Nat) : Text :=
  if nicknameResetCount = 0 then name
  else
    let value := nicknameResetCount + 1
    let suffix :=
      if 11 ≤ value % 100 ∧ value % 100 ≤ 13 then "th"
      else if value % 10 = 1 then "st"
      else if value % 10 = 2 then "nd"
      else if value % 10 = 3 then "rd"
      else "th"
    name ++ " the ".toList ++ Nat.toDigits 10 value ++ suffix.toList

namespace ActiveAgents

/-- The lock section of `release_spawned_thread`, with whether an agent that has a slot was
removed. -/
def releaseSpawnedThread (agents : ActiveAgents) (threadId : ThreadId) : ActiveAgents × Bool :=
  match agents.threadPaths.lookup threadId with
  | none => (agents, false)
  | some path =>
    ({ agents with
        threadPaths := agents.threadPaths.erase threadId
        agentTree := agents.agentTree.erase path },
      (agents.agentTree.lookup path).any (!·.isRoot))

def registerRootThread (agents : ActiveAgents) (threadId : ThreadId) : ActiveAgents :=
  match agents.agentTree.lookup rootPath with
  | none =>
    { agents with
      agentTree := agents.agentTree.insert rootPath
        { AgentMetadata.default with agentId := some threadId, agentPath := some .root }
      threadPaths := agents.threadPaths.insert threadId rootPath }
  | some root =>
    match root.agentId with
    | some rootThreadId =>
      { agents with threadPaths := agents.threadPaths.insert rootThreadId rootPath }
    | none => agents

def liveAgents (agents : ActiveAgents) : List AgentMetadata :=
  (agents.agentTree.entries.map (·.2)).filter fun metadata =>
    metadata.agentId.isSome && !metadata.isRoot

def registerSpawnedThread (agents : ActiveAgents) (metadata : AgentMetadata) : ActiveAgents :=
  match metadata.agentId with
  | none => agents
  | some threadId =>
    let key := metadata.key threadId
    -- The agent leaves the path that its thread was registered under, and the thread that was
    -- registered under the key leaves the index.
    let tree := Table.eraseUnless agents.agentTree (agents.threadPaths.lookup threadId) key
    let previousThreadId := (tree.lookup key).bind (·.agentId)
    { agents with
      agentTree := tree.insert key metadata
      threadPaths :=
        Table.eraseUnless (agents.threadPaths.insert threadId key) previousThreadId threadId
      usedAgentNicknames := metadata.agentNickname.elim agents.usedAgentNicknames
        (agents.usedAgentNicknames.insert ·) }

/-- `reserve_agent_nickname`. The two numbers are what the random generator picks. -/
def reserveAgentNickname (agents : ActiveAgents) (names : List Text) (preferred : Option Text)
    (pick pickAgain : Nat) : Option (Text × ActiveAgents) :=
  match preferred with
  | some preferred =>
    some (preferred, { agents with usedAgentNicknames := agents.usedAgentNicknames.insert preferred })
  | none =>
    let available := (names.map (formatAgentNickname · agents.nicknameResetCount)).filter
      (!agents.usedAgentNicknames.contains ·)
    match available[pick % available.length]? with
    | some name =>
      some (name, { agents with usedAgentNicknames := agents.usedAgentNicknames.insert name })
    | none =>
      names[pickAgain % names.length]?.map fun name =>
        let name := formatAgentNickname name (agents.nicknameResetCount + 1)
        (name, { agents with
          usedAgentNicknames := [name], nicknameResetCount := agents.nicknameResetCount + 1 })

/-- `reserve_agent_path`; `none` is the error that the path exists. -/
def reserveAgentPath (agents : ActiveAgents) (path : AgentPath) : Option ActiveAgents :=
  match agents.agentTree.lookup path.text with
  | some _ => none
  | none =>
    some { agents with
      agentTree := agents.agentTree.insert path.text
        { AgentMetadata.default with agentPath := some path } }

def releaseReservedAgentPath (agents : ActiveAgents) (path : AgentPath) : ActiveAgents :=
  if (agents.agentTree.lookup path.text).any (·.agentId.isNone) then
    { agents with agentTree := agents.agentTree.erase path.text }
  else agents

end ActiveAgents

namespace AgentRegistry

def tryIncrementSpawned (registry : AgentRegistry) (maxThreads : Nat) : Option AgentRegistry :=
  if maxThreads ≤ registry.totalCount then none
  else some { registry with totalCount := registry.totalCount + 1 }

/-- `reserve_spawn_slot`; `none` is the error that the limit is reached. -/
def reserveSpawnSlot (registry : AgentRegistry) : Option Nat → Option AgentRegistry
  | some maxThreads => registry.tryIncrementSpawned maxThreads
  | none => some { registry with totalCount := registry.totalCount + 1 }

end AgentRegistry

/-! ## Callers -/

/-- `SpawnReservation`, as long as it is active. A reservation that is dropping has given its path back
and not yet its slot. -/
structure SpawnReservation where
  reservedAgentNickname : Option Text
  reservedAgentPath : Option AgentPath
  dropping : Bool

/-- The registry with its callers: the reservations that are held, each under a name, and the number
of releases that have removed an agent and not yet given its slot back. -/
structure Session where
  registry : AgentRegistry
  reservations : Table Nat SpawnReservation
  releasing : Nat

/-- What a caller does next. -/
inductive Event where
  | reserveSpawnSlot (holder : Nat) (maxThreads : Option Nat)
  | reserveAgentNickname (holder : Nat) (names : List Text) (preferred : Option Text)
      (pick pickAgain : Nat)
  | reserveAgentPath (holder : Nat) (path : AgentPath)
  | commit (holder : Nat) (metadata : AgentMetadata)
  | dropPath (holder : Nat)
  | dropSlot (holder : Nat)
  | registerRootThread (threadId : ThreadId)
  | releaseSpawnedThread (threadId : ThreadId)
  | releaseSlot

namespace Session

/-- A session without agents. -/
def initial : Session := ⟨⟨⟨∅, ∅, [], 0⟩, 0⟩, ∅, 0⟩

/-- A change under the lock. -/
def update (session : Session) (f : ActiveAgents → ActiveAgents) : Session :=
  { session with
    registry := { session.registry with activeAgents := f session.registry.activeAgents } }

/-- The reservation that a caller holds and is not dropping. -/
def held (session : Session) (holder : Nat) : Option SpawnReservation :=
  (session.reservations.lookup holder).filter (!·.dropping)

/-- One step of one caller. A call that fails changes nothing. -/
def step (session : Session) : Event → Option Session
  | .reserveSpawnSlot holder maxThreads =>
    if session.reservations.lookup holder = none then
      match session.registry.reserveSpawnSlot maxThreads with
      | some registry =>
        some { session with
          registry, reservations := session.reservations.insert holder ⟨none, none, false⟩ }
      | none => some session
    else none
  | .reserveAgentNickname holder names preferred pick pickAgain =>
    (session.held holder).map fun reservation =>
      match session.registry.activeAgents.reserveAgentNickname names preferred pick pickAgain with
      | some (name, agents) =>
        { session.update fun _ => agents with
          reservations := session.reservations.insert holder
            { reservation with reservedAgentNickname := some name } }
      | none => session
  | .reserveAgentPath holder path =>
    (session.held holder).map fun reservation =>
      match session.registry.activeAgents.reserveAgentPath path with
      | some agents =>
        { session.update fun _ => agents with
          reservations := session.reservations.insert holder
            { reservation with reservedAgentPath := some path } }
      | none => session
  | .commit holder metadata =>
    (session.held holder).map fun _ =>
      { session.update (·.registerSpawnedThread metadata) with
        reservations := session.reservations.erase holder }
  | .dropPath holder =>
    (session.held holder).map fun reservation =>
      { session.update fun agents =>
          reservation.reservedAgentPath.elim agents agents.releaseReservedAgentPath with
        reservations := session.reservations.insert holder
          { reservation with reservedAgentPath := none, dropping := true } }
  | .dropSlot holder =>
    ((session.reservations.lookup holder).filter (·.dropping)).map fun _ =>
      { session with
        registry := { session.registry with totalCount := session.registry.totalCount - 1 }
        reservations := session.reservations.erase holder }
  | .registerRootThread threadId => some (session.update (·.registerRootThread threadId))
  | .releaseSpawnedThread threadId =>
    let (agents, counted) := session.registry.activeAgents.releaseSpawnedThread threadId
    some { session.update fun _ => agents with
      releasing := session.releasing + if counted then 1 else 0 }
  | .releaseSlot =>
    if 0 < session.releasing then
      some { session with
        registry := { session.registry with totalCount := session.registry.totalCount - 1 }
        releasing := session.releasing - 1 }
    else none

end Session

end NovumAgent.Agents
