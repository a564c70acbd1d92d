import Belcoin.SyncObj.Log

/-!
The Raft core of `SyncObj`: its state, `_onTick` and `_onMessageReceived`.

What the clocks, the connections and the poller decide is an argument (`Tick`). Handlers
return `none` where the source raises; what a replicated method raises when it is called
is left out, as the method is. The messages of the mempool, callbacks, readonly nodes and
`onReady` are left out, and so is what needs a serialized state, since log compaction is
disabled: `getTransmissionData` has nothing to send.
-/

namespace Belcoin.SyncObj

variable {ι : Type}

/-! ### State and messages -/

/-- `_RAFT_STATE` -/
inductive RaftState where
  | follower
  | candidate
  | leader
  deriving DecidableEq, Repr

/-- What the Raft core reads of a `SyncObjConf`. -/
structure Conf where
  appendEntriesBatchSizeBytes : Nat
  commandsQueueSize : Nat
  commandsWaitLeader : Bool

/-- `pickle.dumps` and `pickle.loads`, for one entry. -/
structure Pickle where
  dumps : Entry → Bytes
  loads : Bytes → Option Entry

/-- What a constructor call fixes. -/
structure Env (ι : Type) where
  selfNodeAddr : ι
  nodes : List ι
  conf : Conf
  pickle : Pickle

inductive Transmission where
  | start
  | process
  | finish
  deriving DecidableEq, Repr

/-- What an `append_entries` message carries. `prev` is `prevLogIdx` and `prevLogTerm`. -/
inductive Body where
  | entries (entries : List Entry) (prev : Option (Nat × Nat))
  | transmission (transmission : Transmission) (data : Bytes) (prev : Option (Nat × Nat))
  /-- `'serialized': None` -/
  | serialized
  deriving DecidableEq, Repr

inductive Message where
  | requestVote (term lastLogIndex lastLogTerm : Nat)
  | responseVote (term : Nat)
  | appendEntries (term commitIndex : Nat) (body : Body)
  | nextNodeIdx (nextNodeIdx : Nat) (reset success : Bool)
  | applyCommand (command : Command)
  deriving DecidableEq, Repr

/-- The fields of a `SyncObj` that the Raft core uses, and the entries that
`__doApplyCommand` was called with. -/
structure State (ι : Type) where
  raftState : RaftState
  raftCurrentTerm : Nat
  votedFor : Option ι
  votesCount : Nat
  raftLeader : Option ι
  raftLog : RaftLog
  raftCommitIndex : Nat
  raftLastApplied : Nat
  raftNextIndex : ι → Nat
  raftMatchIndex : ι → Nat
  /-- `none` is `''`, to which no bytes can be added. -/
  recvTransmission : Option Bytes
  commandsQueue : List Command
  applied : List Entry

/-- The first entry of every log. -/
def firstEntry : Entry :=
  ⟨.noOp, 1, 0⟩

/-- `__init__`, with an empty journal. -/
def State.initial : State ι where
  raftState := .follower
  raftCurrentTerm := 0
  votedFor := none
  votesCount := 0
  raftLeader := none
  raftLog := ⟨firstEntry, []⟩
  raftCommitIndex := 1
  raftLastApplied := 1
  raftNextIndex _ := 2
  raftMatchIndex _ := 0
  recvTransmission := none
  commandsQueue := []
  applied := []

abbrev Outbox (ι : Type) := List (ι × Message)

/-- What a tick finds. -/
structure Tick (ι : Type) where
  /-- The election deadline is over, and some node is connected. -/
  election : Bool
  /-- For each node, the passes of the loop of `__sendAppendEntries` that the time is good
  for after the first, or `none` if it is not connected; when the node has become leader. -/
  elected : ι → Option Nat
  /-- The last response of a node is after the deadline. -/
  responding : ι → Bool
  /-- `__newAppendEntriesTime` is over. -/
  due : Bool
  /-- As `elected`, in the tick's own `__sendAppendEntries`. -/
  passes : ι → Option Nat
  /-- The commands that the time is good for. -/
  commands : Nat

/-! ### Changes of one node -/

namespace State

/-- The loop that applies what is committed. The called methods return: an exception of
one would leave `_onTick`, unless it asks for another code version. -/
def applyCommitted (s : State ι) : State ι :=
  if s.raftLastApplied < s.raftCommitIndex then
    let entries := s.raftLog.getEntries (some (s.raftLastApplied + 1))
      (some (s.raftCommitIndex - s.raftLastApplied)) none
    { s with
      applied := s.applied ++ entries
      raftLastApplied := s.raftLastApplied + entries.length }
  else s

/-- The node learns of a later term from a candidate. -/
def adopt (s : State ι) (term : Nat) : State ι :=
  if s.raftCurrentTerm < term then
    { s with
      raftCurrentTerm := term
      votedFor := none
      raftState := .follower
      raftLeader := none }
  else s

/-- The sender of an `append_entries` message is the leader. -/
def follow (s : State ι) (nodeAddr : ι) (term : Nat) : State ι :=
  { s with
    raftLeader := some nodeAddr
    votedFor := if s.raftCurrentTerm < term then none else s.votedFor
    raftCurrentTerm := max s.raftCurrentTerm term
    raftState := .follower }

/-- A leader learns what a node has. -/
def onNextNodeIdx [DecidableEq ι] (s : State ι) (nodeAddr : ι) (nextNodeIdx : Nat)
    (reset success : Bool) : State ι :=
  if s.raftState = .leader then
    { s with
      raftNextIndex := if reset then Function.update s.raftNextIndex nodeAddr nextNodeIdx
        else s.raftNextIndex
      raftMatchIndex := if success then
          Function.update s.raftMatchIndex nodeAddr (nextNodeIdx - 1)
        else s.raftMatchIndex }
  else s

end State

namespace Env

variable (env : Env ι)

/-- `count > (len(self.__nodes) + 1) / 2` -/
def Most (count : Nat) : Prop :=
  env.nodes.length + 1 < 2 * count

instance (count : Nat) : Decidable (env.Most count) :=
  inferInstanceAs (Decidable (_ < _))

variable [DecidableEq ι]

/-- `__send` -/
def send (nodeAddr : ι) (message : Message) : Outbox ι :=
  if nodeAddr ∈ env.nodes then [(nodeAddr, message)] else []

/-- `__sendNextNodeIdx` -/
def sendNextNodeIdx (s : State ι) (nodeAddr : ι) (reset success : Bool)
    (nextNodeIdx : Option Nat) : Outbox ι :=
  env.send nodeAddr
    (.nextNodeIdx (nextNodeIdx.getD (s.raftLog.getCurrentLogIndex + 1)) reset success)

/-- `_applyCommand`, without a callback. The queue takes one command more than its size. -/
def applyCommand (command : Command) (s : State ι) : State ι :=
  if env.conf.commandsQueueSize < s.commandsQueue.length then s
  else { s with commandsQueue := s.commandsQueue ++ [command] }

/-! ### Append entries -/

/-- The messages for the pieces of an entry that does not fit a batch. -/
def chunks (entry : Entry) (data : Bytes) : List (Transmission × Bytes) :=
  let batchSizeBytes := env.conf.appendEntriesBatchSizeBytes
  let label := fun pos =>
    if pos = 0 then Transmission.start
    else if entry.command.size ≤ pos + batchSizeBytes then .finish
    else .process
  (List.range ((data.length + batchSizeBytes - 1) / batchSizeBytes)).map fun n =>
    (label (n * batchSizeBytes), (data.drop (n * batchSizeBytes)).take batchSizeBytes)

/-- One pass of the loop of `__sendAppendEntries`: the messages, and what is then in
`raftNextIndex`. -/
def sendPass (s : State ι) (nextNodeIndex : Nat) : Option (List Message × Nat) :=
  let batchSizeBytes := env.conf.appendEntriesBatchSizeBytes
  let message := fun body => Message.appendEntries s.raftCurrentTerm s.raftCommitIndex body
  if s.raftLog.first.idx < nextNodeIndex then
    let prev := s.raftLog.getPrevLogIndexTerm nextNodeIndex
    if nextNodeIndex ≤ s.raftLog.getCurrentLogIndex then
      let entries := s.raftLog.getEntries (some nextNodeIndex) none (some batchSizeBytes)
      match entries.getLast? with
      | none => none
      | some last =>
          let oversize := entries.length = 1 ∧ batchSizeBytes ≤ last.command.size
          let bodies := if oversize then
              (env.chunks last (env.pickle.dumps last)).map fun chunk =>
                Body.transmission chunk.1 chunk.2 prev
            else [.entries entries prev]
          some (bodies.map message, last.idx + 1)
    else some ([message (.entries [] prev)], nextNodeIndex)
  else some ([message .serialized], nextNodeIndex)

/-- The loop of `__sendAppendEntries` for one node. -/
def sendLoop (s : State ι) : Nat → Nat → Option (List Message × Nat)
  | 0, nextNodeIndex => env.sendPass s nextNodeIndex
  | passes + 1, nextNodeIndex => do
      let (messages, next) ← env.sendPass s nextNodeIndex
      if next ≤ s.raftLog.getCurrentLogIndex then
        let (more, last) ← sendLoop s passes next
        some (messages ++ more, last)
      else some (messages, next)

/-- `__sendAppendEntries`, for the nodes given. -/
def sendAppendEntries (passes : ι → Option Nat) : List ι → State ι → Option (State ι × Outbox ι)
  | [], s => some (s, [])
  | nodeAddr :: nodes, s =>
      match passes nodeAddr with
      | none => sendAppendEntries passes nodes s
      | some more => do
          let (messages, next) ← env.sendLoop s more (s.raftNextIndex nodeAddr)
          let (s, sent) ← sendAppendEntries passes nodes
            { s with raftNextIndex := Function.update s.raftNextIndex nodeAddr next }
          some (s, messages.map (nodeAddr, ·) ++ sent)

/-- The log, the indexes and the role of a node that has become leader. -/
def lead (s : State ι) : State ι :=
  let next := s.raftLog.getCurrentLogIndex + 1
  { s with
    raftLeader := some env.selfNodeAddr
    raftState := .leader
    raftNextIndex := fun nodeAddr => if nodeAddr ∈ env.nodes then next else s.raftNextIndex nodeAddr
    raftMatchIndex := fun nodeAddr => if nodeAddr ∈ env.nodes then 0 else s.raftMatchIndex nodeAddr
    raftLog := s.raftLog.add ⟨.noOp, next, s.raftCurrentTerm⟩ }

/-- `__onBecomeLeader` -/
def onBecomeLeader (passes : ι → Option Nat) (s : State ι) : Option (State ι × Outbox ι) :=
  env.sendAppendEntries passes env.nodes (env.lead s)

/-! ### Ticks -/

/-- The node stands for election. -/
def startElection (s : State ι) : State ι × Outbox ι :=
  let term := s.raftCurrentTerm + 1
  ({ s with
      raftLeader := none
      raftState := .candidate
      raftCurrentTerm := term
      votedFor := some env.selfNodeAddr
      votesCount := 1 },
    env.nodes.map (·,
      .requestVote term s.raftLog.getCurrentLogIndex s.raftLog.getCurrentLogTerm))

/-- The first block of `_onTick`. -/
def checkElection (tick : Tick ι) (s : State ι) : Option (State ι × Outbox ι) :=
  if s.raftState ≠ .leader ∧ tick.election then do
    let (s, requests) := env.startElection s
    if env.Most s.votesCount then
      let (s, sent) ← env.onBecomeLeader tick.elected s
      some (s, requests ++ sent)
    else some (s, requests)
  else some (s, [])

/-- The commit loop of a leader. The first argument counts the entries that are left. -/
def commitLoop (s : State ι) : Nat → Nat → Nat
  | 0, commitIndex => commitIndex
  | left + 1, commitIndex =>
      let count := 1 + env.nodes.countP fun nodeAddr => commitIndex + 1 ≤ s.raftMatchIndex nodeAddr
      if env.Most count then commitLoop s left (commitIndex + 1) else commitIndex

/-- The leader commits what enough nodes have. -/
def commit (s : State ι) : State ι :=
  { s with
    raftCommitIndex :=
      env.commitLoop s (s.raftLog.getCurrentLogIndex - s.raftCommitIndex) s.raftCommitIndex }

/-- The leader falls back if too few nodes respond. -/
def checkFallback (tick : Tick ι) (s : State ι) : State ι :=
  if env.Most (1 + env.nodes.countP tick.responding) then s
  else { s with raftState := .follower, raftLeader := none }

/-- A leader logs a command, another node passes it on. -/
def takeCommand (command : Command) (s : State ι) : State ι × Outbox ι :=
  if s.raftState = .leader then
    ({ s with
        raftLog := s.raftLog.add ⟨command, s.raftLog.getCurrentLogIndex + 1, s.raftCurrentTerm⟩ },
      [])
  else
    match s.raftLeader with
    | some leader => (s, env.send leader (.applyCommand command))
    -- `FAIL_REASON.MISSING_LEADER`
    | none => (s, [])

/-- `_checkCommandsToApply` -/
def checkCommandsToApply : Nat → State ι → State ι × Outbox ι
  | 0, s => (s, [])
  | commands + 1, s =>
      if s.raftLeader = none ∧ env.conf.commandsWaitLeader then (s, [])
      else
        match s.commandsQueue with
        | [] => (s, [])
        | command :: queue =>
            let taken := env.takeCommand command { s with commandsQueue := queue }
            let rest := checkCommandsToApply commands taken.1
            (rest.1, taken.2 ++ rest.2)

/-- The rest of `_onTick`, once a leader has had the chance to propose a block. -/
def finishTick (tick : Tick ι) (s : State ι) : Option (State ι × Outbox ι) := do
  let s := if s.raftState = .leader then env.checkFallback tick (env.commit s) else s
  let s := s.applyCommitted
  let (s, sent) ← if s.raftState = .leader ∧ tick.due then
      env.sendAppendEntries tick.passes env.nodes s
    else some (s, [])
  let (s, commands) := env.checkCommandsToApply tick.commands s
  some (s, sent ++ commands)

/-- `_onTick` -/
def onTick (tick : Tick ι) (s : State ι) : Option (State ι × Outbox ι) := do
  let (s, requests) ← env.checkElection tick s
  let (s, sent) ← env.finishTick tick s
  some (s, requests ++ sent)

/-! ### Messages -/

def onRequestVote (nodeAddr : ι) (term lastLogIdx lastLogTerm : Nat) (s : State ι) :
    State ι × Outbox ι :=
  let s := s.adopt term
  if s.raftState ≠ .leader ∧ s.raftCurrentTerm ≤ term then
    if lastLogTerm < s.raftLog.getCurrentLogTerm then (s, [])
    else if lastLogTerm = s.raftLog.getCurrentLogTerm ∧
        lastLogIdx < s.raftLog.getCurrentLogIndex then (s, [])
    else if s.votedFor ≠ none then (s, [])
    else ({ s with votedFor := some nodeAddr }, env.send nodeAddr (.responseVote term))
  else (s, [])

/-- A regular `append_entries`, from `prevLogIdx` on. -/
def appendNew (nodeAddr : ι) (leaderCommitIndex : Nat) (newEntries : List Entry)
    (prev : Option (Nat × Nat)) (s : State ι) : State ι × Outbox ι :=
  match s.raftLog.getEntries (prev.map Prod.fst) none none, prev with
  | prevEntry :: others, some (prevLogIdx, prevLogTerm) =>
      if prevEntry.term ≠ prevLogTerm then
        (s, env.sendNextNodeIdx s nodeAddr true false (some prevLogIdx))
      else
        let log := if others = [] then s.raftLog else s.raftLog.deleteEntriesFrom (prevLogIdx + 1)
        let log := newEntries.foldl RaftLog.add log
        let nextNodeIdx := match newEntries.getLast? with
          | none => prevLogIdx + 1
          | some last => last.idx
        let s := { s with raftLog := log }
        ({ s with raftCommitIndex := min leaderCommitIndex log.getCurrentLogIndex },
          env.sendNextNodeIdx s nodeAddr false true (some nextNodeIdx))
  | _, _ => (s, env.sendNextNodeIdx s nodeAddr true false none)

def onAppendEntries (nodeAddr : ι) (term commitIndex : Nat) (body : Body) (s : State ι) :
    Option (State ι × Outbox ι) :=
  if term < s.raftCurrentTerm then some (s, [])
  else
    let s := s.follow nodeAddr term
    match body with
    | .entries entries prev => some (env.appendNew nodeAddr commitIndex entries prev s)
    | .transmission .start data _ =>
        some ({ s with recvTransmission := some data }, env.sendNextNodeIdx s nodeAddr false false none)
    | .transmission .process data _ => do
        let received ← s.recvTransmission
        some ({ s with recvTransmission := some (received ++ data) },
          env.sendNextNodeIdx s nodeAddr false false none)
    | .transmission .finish data prev => do
        let received ← s.recvTransmission
        let entry ← env.pickle.loads (received ++ data)
        some (env.appendNew nodeAddr commitIndex [entry] prev { s with recvTransmission := none })
    | .serialized =>
        some ({ s with raftCommitIndex := min commitIndex s.raftLog.getCurrentLogIndex }, [])

/-- A candidate counts a vote. -/
def onResponseVote (passes : ι → Option Nat) (term : Nat) (s : State ι) :
    Option (State ι × Outbox ι) :=
  if s.raftState = .candidate ∧ term = s.raftCurrentTerm then
    let s := { s with votesCount := s.votesCount + 1 }
    if env.Most s.votesCount then env.onBecomeLeader passes s else some (s, [])
  else some (s, [])

/-- `_onMessageReceived` -/
def onMessageReceived (passes : ι → Option Nat) (nodeAddr : ι) (message : Message) (s : State ι) :
    Option (State ι × Outbox ι) :=
  match message with
  | .requestVote term lastLogIndex lastLogTerm =>
      some (env.onRequestVote nodeAddr term lastLogIndex lastLogTerm s)
  | .responseVote term => env.onResponseVote passes term s
  | .appendEntries term commitIndex body => env.onAppendEntries nodeAddr term commitIndex body s
  | .nextNodeIdx nextNodeIdx reset success =>
      some (s.onNextNodeIdx nodeAddr nextNodeIdx reset success, [])
  | .applyCommand command => some (env.applyCommand command s, [])

end Env

/-- `__doApplyCommand`: what a replicated method is called with. -/
def doApplyCommand : Command → Option Bytes
  | .regular command => some command
  | .noOp => none

/-- The calls of replicated methods, in order. -/
def State.delivered (s : State ι) : List Bytes :=
  s.applied.filterMap fun entry => doApplyCommand entry.command

end Belcoin.SyncObj
