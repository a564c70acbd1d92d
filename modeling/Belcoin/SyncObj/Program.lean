import Belcoin.Raft
import Belcoin.Serialize
import Belcoin.SyncObj.Commits
import Belcoin.SyncObj.Frame

/-!
The whole program: on every node a `Storage` that is a `SyncObj`.

A tick lets a leader propose a block, which is a call of `add_block_to_queue`, and makes
the calls that have been committed. A tick in which a call raises has no step here: in the
source it ends the thread of the node's `SyncObj`. That a tick and what the reactor runs do
not overlap is an assumption, as it is for `Setup.node`.

A node whose flag is set proposes nothing; as long as all that lead are so, the nodes do
what the network does (`System.Waits.run`).
-/

namespace Belcoin.SyncObj

open Consensus Network Deployment Stateful

variable {ι : Type} [DecidableEq ι]

/-! ### Nodes and steps -/

/-- How a call of `add_block_to_queue` is pickled. -/
structure Calls where
  dumps : Block → Bytes
  loads : Bytes → Option Block
  loads_dumps : ∀ block, loads (dumps block) = some block

/-- The nodes of a cluster that run the program. -/
structure Program (ι : Type) extends Deployment ι where
  setup : Setup
  calls : Calls

/-- The nodes, as `SyncObj`s with messages on their way and as `Storage`s. -/
structure System (ι : Type) where
  network : Network ι
  node : ι → Storage

/-- What can happen. -/
inductive Occasion (ι : Type) where
  /-- A tick, and what the clock shows if the node leads. -/
  | tick (i : ι) (tick : Tick ι) (clock again : ℚ≥0)
  | deliver (src dst : ι) (passes : ι → Option Nat)
  | lose (src dst : ι) (n : Nat)
  /-- A node acts on its own. -/
  | act (i : ι) (a : Action)

/-- Anything but what a node does on its own. -/
def Occasion.OfSyncObj : Occasion ι → Prop
  | .act _ _ => False
  | _ => True

/-- `__onBecomeLeader`, as far as it concerns blocks, if the node has become leader. -/
def crown (before after : State ι) (s : Storage) : Storage :=
  if before.raftState ≠ .leader ∧ after.raftState = .leader then final (onBecomeLeader s) else s

/-- The blocks that a leader proposes in a tick. -/
def Storage.proposes (clock again : ℚ≥0) (s : Storage) : List Block :=
  (final (leaderTick clock again s)).commandsQueue.drop s.commandsQueue.length

namespace Program

variable (p : Program ι)

/-- Committed calls are made, one after the other. -/
def addBlocksToQueue (commands : List Bytes) (s : Storage) : Option Storage :=
  commands.foldlM (fun s command => do
    let block ← p.calls.loads command
    match p.setup.addBlockToQueue block s with
    | .ok _ t => some t
    | .error _ _ => none) s

/-- The part of a leader's `_onTick` that proposes blocks. -/
def proposeBlock (i : ι) (clock again : ℚ≥0) (sync : State ι) (s : Storage) : State ι × Storage :=
  if sync.raftState = .leader then
    ((p.env i).enqueue ((Storage.proposes clock again s).map p.calls.dumps) sync,
      final (leaderTick clock again s))
  else (sync, s)

/-- `_onTick`, blocks included. -/
def onTick (i : ι) (tick : Tick ι) (clock again : ℚ≥0) (sync : State ι) (s : Storage) :
    Option (State ι × Outbox ι × Storage) := do
  let (elected, requests) ← (p.env i).checkElection tick sync
  let (leading, s) := p.proposeBlock i clock again elected (crown sync elected s)
  let (finished, sent) ← (p.env i).finishTick tick leading
  let s ← p.addBlocksToQueue (finished.delivered.drop leading.delivered.length) s
  some (finished, requests ++ sent, s)

/-- A step is taken when the handler returns, the calls that it makes included. -/
def Steps (c : System ι) : Occasion ι → System ι → Prop
  | .tick i tick clock again, c' => clock ≤ again ∧ ∃ sync out s,
      p.onTick i tick clock again (c.network.node i) (c.node i) = some (sync, out, s) ∧
        c' = ⟨c.network.put i sync out, Function.update c.node i s⟩
  | .deliver src dst passes, c' => p.toDeployment.Steps c.network (.deliver src dst passes) c'.network ∧
      c'.node = Function.update c.node dst
        (crown (c.network.node dst) (c'.network.node dst) (c.node dst))
  | .lose src dst n, c' => p.toDeployment.Steps c.network (.lose src dst n) c'.network ∧
      c'.node = c.node
  | .act i a, c' => (∀ block, a ≠ .deliver block) ∧ c'.network = c.network ∧
      c'.node = Function.update c.node i (final (p.setup.exec a (c.node i)))

/-- The runs of the program. -/
def system : Machine (System ι) (Occasion ι) where
  start c := c.network = .initial ∧ ∀ i, c.node i = p.setup.fresh
  step := p.Steps

end Program

/-! ### What a tick proposes -/

/-- A leader proposes the block of `send_block`, if anything. -/
theorem mem_proposes {clock again : ℚ≥0} {s : Storage} {block : Block}
    (mem : block ∈ Storage.proposes clock again s) : block = s.proposal clock again := by
  rw [Storage.proposes] at mem
  rcases leaderTick_cases clock again s with counts | ⟨-, ⟨-, waits⟩ | ⟨-, proposed⟩⟩
  · rw [counts] at mem
    simp at mem
  · rw [waits] at mem
    simp at mem
  · rw [proposed] at mem
    simpa using mem

omit [DecidableEq ι] in
theorem crown_proposal (before after : State ι) (clock again : ℚ≥0) (s : Storage) :
    (crown before after s).proposal clock again = s.proposal clock again := by
  rw [crown]
  split <;> rfl

omit [DecidableEq ι] in
/-- What a leader proposes fits if the block of `send_block` does. -/
theorem proposes_fit {p : Program ι} {before elected : State ι} {clock again : ℚ≥0} {s : Storage}
    {blocks : List Block} (proposes : blocks = (if elected.raftState = .leader then
      Storage.proposes clock again (crown before elected s) else []))
    (fits : p.conf.Fits (.regular (p.calls.dumps (s.proposal clock again)))) :
    ∀ command ∈ blocks.map p.calls.dumps, p.conf.Fits (.regular command) := by
  intro command mem
  obtain ⟨block, proposed, rfl⟩ := List.mem_map.mp mem
  rw [proposes] at proposed
  split at proposed
  · rw [mem_proposes proposed, crown_proposal]
    exact fits
  · cases proposed

/-! ### What the network does -/

/-- What a tick is made of: the node may be elected and propose, and what it calls comes
after what it has called before. -/
theorem Program.onTick_cases {p : Program ι} {i : ι} {tick : Tick ι} {clock again : ℚ≥0}
    {sync sync' : State ι} {s s' : Storage} {out : Outbox ι}
    (returns : p.onTick i tick clock again sync s = some (sync', out, s')) :
    ∃ elected requests sent next, ∃ blocks : List Block,
      (p.env i).checkElection tick sync = some (elected, requests) ∧
      blocks = (if elected.raftState = .leader then
        Storage.proposes clock again (crown sync elected s) else []) ∧
      (p.env i).finishTick tick ((p.env i).enqueue (blocks.map p.calls.dumps) elected) =
        some (sync', sent) ∧ out = requests ++ sent ∧ sync.delivered ++ next = sync'.delivered ∧
      p.addBlocksToQueue next
        (if elected.raftState = .leader then final (leaderTick clock again (crown sync elected s))
          else crown sync elected s) = some s' := by
  simp only [Program.onTick, Option.bind_eq_bind, Option.bind_eq_some_iff, Option.some.injEq] at returns
  obtain ⟨⟨elected, requests⟩, elects, ⟨finished, sent⟩, finishes, t, adds, same⟩ := returns
  cases same
  have enqueued : ∀ commands, ((p.env i).enqueue commands elected).applied = sync.applied := by
    intro commands
    obtain ⟨queue, enqueues⟩ := enqueue_eq (p.env i) commands
    rw [enqueues]
    exact (checkElection_frame elects).2
  have called : ∀ commands, ((p.env i).enqueue commands elected).delivered = sync.delivered :=
    fun commands => by rw [State.delivered, enqueued, State.delivered]
  simp only [Program.proposeBlock] at finishes adds
  by_cases leads : elected.raftState = .leader
  · simp only [if_pos leads, called] at finishes adds ⊢
    obtain ⟨next, calls⟩ : sync.delivered <+: finished.delivered :=
      (enqueued _ ▸ finishTick_applied finishes).filterMap _
    rw [← calls, List.drop_left] at adds
    exact ⟨elected, requests, sent, next, _, elects, by rw [if_pos leads], finishes, rfl, calls,
      by rw [if_pos leads]; exact adds⟩
  · simp only [if_neg leads] at finishes adds ⊢
    have same := called []
    have calls' := enqueued []
    change elected.delivered = _ at same
    change elected.applied = _ at calls'
    obtain ⟨next, calls⟩ : sync.delivered <+: finished.delivered :=
      (calls' ▸ finishTick_applied finishes).filterMap _
    rw [same, ← calls, List.drop_left] at adds
    exact ⟨elected, requests, sent, next, [], elects, by rw [if_neg leads], finishes, rfl, calls,
      by rw [if_neg leads]; exact adds⟩

/-- A tick returns if its parts do. -/
theorem Program.onTick_returns {p : Program ι} {i : ι} {tick : Tick ι} {clock again : ℚ≥0}
    {sync sync' elected : State ι} {s s' : Storage} {out requests : Outbox ι} {blocks : List Block}
    (elects : (p.env i).checkElection tick sync = some (elected, requests))
    (proposes : blocks = (if elected.raftState = .leader then
      Storage.proposes clock again (crown sync elected s) else []))
    (returns : (p.env i).onTick tick ((p.env i).enqueue (blocks.map p.calls.dumps) sync) =
      some (sync', out))
    (adds : p.addBlocksToQueue (sync'.delivered.drop sync.delivered.length)
      (if elected.raftState = .leader then final (leaderTick clock again (crown sync elected s))
        else crown sync elected s) = some s') :
    p.onTick i tick clock again sync s = some (sync', out, s') := by
  rw [onTick_enqueue _ elects] at returns
  obtain ⟨⟨finished, sent⟩, finishes, same⟩ := Option.map_eq_some_iff.mp returns
  cases same
  obtain ⟨queue, enqueues⟩ := enqueue_eq (p.env i) (blocks.map p.calls.dumps)
  have called : elected.delivered = sync.delivered := by
    rw [State.delivered, (checkElection_frame elects).2, State.delivered]
  have called' : ((p.env i).enqueue (blocks.map p.calls.dumps) elected).delivered =
      sync.delivered := by
    rw [enqueues, ← called]
    rfl
  simp only [Program.onTick, elects, Program.proposeBlock, Option.bind_eq_bind, Option.bind_some]
  by_cases leads : elected.raftState = .leader
  · rw [if_pos leads] at proposes adds
    rw [proposes] at finishes called'
    simp only [if_pos leads, finishes, called', adds, Option.bind_some]
  · rw [if_neg leads] at proposes adds
    rw [proposes] at finishes
    change (p.env i).finishTick tick elected = _ at finishes
    simp only [if_neg leads, finishes, called, adds, Option.bind_some]

/-- Commands are proposed one after the other. -/
theorem enqueue_run [Fintype ι] {d : Deployment ι} {i : ι} {commands : List Bytes} {c : Network ι}
    (fits : ∀ command ∈ commands, d.conf.Fits (.regular command)) :
    (d.cluster.restrict d.Quiet).Run c (commands.map (.propose i))
      (c.put i ((d.env i).enqueue commands (c.node i)) []) := by
  induction commands generalizing c with
  | nil =>
      rw [show (d.env i).enqueue [] (c.node i) = c.node i from rfl, put_self]
      exact .nil c
  | cons command commands ih =>
      obtain ⟨fit, fits⟩ := List.forall_mem_cons.mp fits
      have rest := ih (c := c.put i ((d.env i).applyCommand (.regular command) (c.node i)) []) fits
      rw [node_put_self, put_nil_put] at rest
      exact .cons ⟨⟨fit, trivial, trivial⟩, rfl⟩ rest

omit [DecidableEq ι] in
/-- What a leader proposes before it goes on with its tick. -/
theorem proposals_eq (i : ι) (tick : Tick ι) (commands : List Bytes) :
    ((commands.map (.propose i) ++ [.tick i tick] : List (Event ι)).filterMap Event.proposal) =
      commands := by
  rw [List.filterMap_append, List.filterMap_map]
  exact (List.append_nil _).trans List.filterMap_some

/-- The steps of the runs that the results are about: what a leader proposes fits a batch,
and so does what it has to send; a reply that reaches a leader is from its term. -/
def Program.Calm (p : Program ι) (c : System ι) : Occasion ι → Prop
  | .tick i tick clock again =>
      p.conf.Fits (.regular (p.calls.dumps ((c.node i).proposal clock again))) ∧
        p.Unsplit c.network (.tick i tick)
  | .deliver src dst passes => c.network.Fresh (.deliver src dst passes)
  | _ => True

/-! ### Nodes that wait -/

/-- A node that has counted its ticks and queued blocks. -/
def Storage.awaiting (s : Storage) (tickctr : Nat) (blocks : List Block) : Storage :=
  { s with
    tickctr
    blockQueue := blocks
    blockLog := blocks.map .queued }

omit [DecidableEq ι] in
theorem crown_awaiting (before after : State ι) (s : Storage) (tickctr : Nat) (blocks : List Block) :
    ∃ counted, crown before after (Storage.awaiting s tickctr blocks) =
      Storage.awaiting s counted blocks := by
  rw [crown]
  split
  · exact ⟨0, rfl⟩
  · exact ⟨tickctr, rfl⟩

/-- A node with its flag set proposes nothing. -/
theorem leaderTick_awaiting {s : Storage} (adding : s.addingBlock = true) (clock again : ℚ≥0)
    (tickctr : Nat) (blocks : List Block) :
    final (leaderTick clock again (Storage.awaiting s tickctr blocks)) =
      Storage.awaiting s (tickctr + 1) blocks := by
  rcases leaderTick_cases clock again (Storage.awaiting s tickctr blocks) with
    counts | ⟨⟨-, free⟩, -⟩
  · exact counts
  · rw [show (Storage.awaiting s tickctr blocks).addingBlock = s.addingBlock from rfl, adding] at free
    cases free

omit [DecidableEq ι] in
/-- With nothing pending calls only queue their blocks. -/
theorem addBlocksToQueue_awaiting {p : Program ι} {s : Storage} (commands : List Bytes)
    (calm : s.pend = ∅) (reads : ∀ command, ∃ block, p.calls.loads command = some block)
    (tickctr : Nat) (blocks : List Block) :
    p.addBlocksToQueue commands (Storage.awaiting s tickctr blocks) =
      some (Storage.awaiting s tickctr (blocks ++ commands.filterMap p.calls.loads)) := by
  induction commands generalizing blocks with
  | nil =>
      rw [List.filterMap_nil, List.append_nil]
      rfl
  | cons command commands ih =>
      obtain ⟨block, loads⟩ := reads command
      have nothing : s.pend.toList = [] := by simp [calm]
      have queues : p.setup.addBlockToQueue block (Storage.awaiting s tickctr blocks) =
          .ok () (Storage.awaiting s tickctr (blocks ++ [block])) := by
        rw [Packages.addBlockToQueue, bind_apply, Packages.updatePend, get_bind,
          show (Storage.awaiting s tickctr blocks).pend.toList = [] from nothing, Storage.awaiting,
          Storage.awaiting, List.map_append]
        rfl
      rw [Program.addBlocksToQueue, List.foldlM_cons]
      simp only [loads, queues, Option.bind_eq_bind, Option.bind_some]
      refine (ih (blocks ++ [block])).trans ?_
      rw [List.filterMap_cons_some loads, List.append_assoc, List.singleton_append]

/-- Nodes that have nothing pending, some of which have a block on its way. -/
structure Waiting (p : Program ι) (flag : ι → Bool) (base : ι → Storage) : Prop where
  pend : ∀ i, (base i).pend = ∅
  adding : ∀ i, (base i).addingBlock = flag i
  fits : ∀ i, p.conf.Fits (.regular (p.calls.dumps ((base i).proposal 100 100)))
  reads : ∀ command, ∃ block, p.calls.loads command = some block

/-- The nodes have counted their ticks since, and queued what was called. -/
def System.Waits (p : Program ι) (base : ι → Storage) (c : System ι) : Prop :=
  ∀ i, ∃ tickctr, c.node i = Storage.awaiting (base i) tickctr
    ((c.network.node i).delivered.filterMap p.calls.loads)

/-- No node may propose: one that leads has its flag set. -/
def Deployment.Idle (d : Deployment ι) (flag : ι → Bool) (c : Network ι) : Event ι → Prop
  | .tick i tick => ∀ elected ∈ (d.env i).checkElection tick (c.node i),
      elected.1.raftState = .leader → flag i = true
  | .propose _ _ => False
  | _ => True

instance (d : Deployment ι) (flag : ι → Bool) (c : Network ι) (e : Event ι) :
    Decidable (d.Idle flag c e) :=
  match e with
  | .tick i tick => inferInstanceAs (Decidable (∀ elected ∈
      (d.env i).checkElection tick (c.node i), elected.1.raftState = .leader → flag i = true))
  | .deliver _ _ _ => inferInstanceAs (Decidable True)
  | .lose _ _ _ => inferInstanceAs (Decidable True)
  | .propose _ _ => inferInstanceAs (Decidable False)

section Waiting

variable {p : Program ι} {c : System ι} {flag : ι → Bool} {base : ι → Storage} {network : Network ι}

/-- A node that neither ticks nor acts. -/
theorem System.Waits.crowned (waits : c.Waits p base) {dst : ι} {node : ι → Storage}
    (crowns : node = Function.update c.node dst
      (crown (c.network.node dst) (network.node dst) (c.node dst)))
    (applied : ∀ i, (network.node i).applied = (c.network.node i).applied) :
    System.Waits p base ⟨network, node⟩ := by
  intro i
  obtain ⟨tickctr, here⟩ := waits i
  have same : (network.node i).delivered = (c.network.node i).delivered := by
    rw [State.delivered, applied, State.delivered]
  simp only [same, crowns]
  by_cases other : i = dst
  · subst other
    rw [Function.update_self, here]
    exact crown_awaiting _ _ _ _ _
  · rw [Function.update_of_ne other]
    exact ⟨tickctr, here⟩

/-- A tick of a node that does not propose. -/
theorem System.Waits.tick (waiting : Waiting p flag base) (waits : c.Waits p base) {i : ι}
    {tick : Tick ι} {sync' : State ι} {out : Outbox ι}
    (idle : p.Idle flag c.network (.tick i tick))
    (returns : (p.env i).onTick tick (c.network.node i) = some (sync', out)) :
    ∃ s, p.onTick i tick 100 100 (c.network.node i) (c.node i) = some (sync', out, s) ∧
      System.Waits p base ⟨c.network.put i sync' out, Function.update c.node i s⟩ := by
  obtain ⟨tickctr, here⟩ := waits i
  obtain ⟨⟨elected, requests⟩, elects, -⟩ := Option.bind_eq_some_iff.mp returns
  obtain ⟨counted, crowned⟩ := crown_awaiting (c.network.node i) elected (base i) tickctr
    ((c.network.node i).delivered.filterMap p.calls.loads)
  rw [← here] at crowned
  have ticks : elected.raftState = .leader →
      final (leaderTick 100 100 (crown (c.network.node i) elected (c.node i))) =
        Storage.awaiting (base i) (counted + 1)
          ((c.network.node i).delivered.filterMap p.calls.loads) := fun leads => by
    rw [crowned]
    exact leaderTick_awaiting ((waiting.adding i).trans (idle _ elects leads)) _ _ _ _
  obtain ⟨total, same⟩ : ∃ total, (if elected.raftState = .leader then
      final (leaderTick 100 100 (crown (c.network.node i) elected (c.node i)))
        else crown (c.network.node i) elected (c.node i)) = Storage.awaiting (base i) total
          ((c.network.node i).delivered.filterMap p.calls.loads) := by
    split
    · rename_i leads
      exact ⟨counted + 1, ticks leads⟩
    · exact ⟨counted, crowned⟩
  have proposes : [] = (if elected.raftState = .leader then Storage.proposes 100 100
      (crown (c.network.node i) elected (c.node i)) else []) := by
    split
    · rename_i leads
      rw [Storage.proposes, ticks leads, crowned]
      exact List.drop_length.symm
    · rfl
  have adds := addBlocksToQueue_awaiting (sync'.delivered.drop (c.network.node i).delivered.length)
    (waiting.pend i) waiting.reads total ((c.network.node i).delivered.filterMap p.calls.loads)
  rw [← same] at adds
  have whole := Program.onTick_returns elects proposes returns adds
  refine ⟨_, whole, fun j => ?_⟩
  by_cases other : j = i
  · subst other
    obtain ⟨-, -, -, next, -, -, -, -, -, calls, -⟩ := Program.onTick_cases whole
    refine ⟨total, ?_⟩
    simp only [Function.update_self, node_put_self]
    rw [← calls, List.drop_left, List.filterMap_append]
  · simp only [Function.update_of_ne other, node_put_ne c.network other]
    exact waits j

/-- **Waiting nodes do what the network does.** -/
theorem System.Waits.run {es : List (Event ι)} (waiting : Waiting p flag base)
    (waits : c.Waits p base)
    (run : (p.cluster.restrict fun c e => p.Quiet c e ∧ p.Idle flag c e).Run c.network es network) :
    ∃ os c', (p.system.restrict fun c o => p.Calm c o ∧ c.Waits p base ∧ o.OfSyncObj).Run c os c' ∧
      c'.network = network ∧ c'.Waits p base := by
  generalize start : c.network = before at run
  induction run generalizing c with
  | nil => exact ⟨[], c, .nil c, start, waits⟩
  | @cons _ network' _ e _ moves _ ih =>
      obtain ⟨⟨quiet, idle⟩, steps⟩ := moves
      subst start
      suffices one : ∃ o c', p.Calm c o ∧ o.OfSyncObj ∧ p.Steps c o c' ∧ c'.network = network' ∧
          c'.Waits p base by
        obtain ⟨o, c', calm, plain, moves, rfl, waits'⟩ := one
        obtain ⟨os, c'', run, after⟩ := ih waits' rfl
        exact ⟨o :: os, c'', .cons ⟨⟨calm, waits, plain⟩, moves⟩ run, after⟩
      cases e with
      | tick i tick =>
          obtain ⟨sync', out, returns, rfl⟩ := steps
          obtain ⟨s, whole, waits'⟩ := waits.tick waiting idle returns
          refine ⟨.tick i tick 100 100, _, ⟨?_, quiet.2.1⟩, trivial, ⟨le_rfl, sync', out, s, whole, rfl⟩,
            rfl, waits'⟩
          obtain ⟨tickctr, here⟩ := waits i
          rw [here]
          exact waiting.fits i
      | deliver src dst passes =>
          obtain ⟨packet, rest, sync', out, head, receives, rfl⟩ := id steps
          have applied : ∀ i, (((c.network.setLink src dst rest).put dst sync' out).node i).applied =
              (c.network.node i).applied := by
            intro i
            by_cases here : i = dst
            · subst here
              rw [node_put_self]
              exact onMessageReceived_applied receives
            · rw [node_put_ne _ here, node_setLink]
          exact ⟨.deliver src dst passes, ⟨_, _⟩, quiet.2.2, trivial, ⟨steps, rfl⟩, rfl,
            waits.crowned rfl applied⟩
      | lose src dst n =>
          obtain rfl := steps
          exact ⟨.lose src dst n, ⟨_, c.node⟩, trivial, trivial, ⟨rfl, rfl⟩, rfl, waits⟩
      | propose i command => exact idle.elim

/-- A tick of a leader that proposes. -/
theorem System.Waits.propose (waiting : Waiting p flag base) (waits : c.Waits p base) {i : ι}
    {tick : Tick ι} {block : Block} {s : Storage} (leads : (c.network.node i).raftState = .leader)
    (lead : ∀ tickctr blocks, final (leaderTick 100 100 (Storage.awaiting (base i) tickctr blocks)) =
      Storage.awaiting s 0 blocks)
    (queue : s.commandsQueue = (base i).commandsQueue ++ [block]) (calm : s.pend = ∅)
    (run : (p.cluster.restrict p.Quiet).Run c.network
      [.propose i (p.calls.dumps block), .tick i tick] network) :
    ∃ c', p.Calm c (.tick i tick 100 100) ∧ p.Steps c (.tick i tick 100 100) c' ∧
      c'.network = network ∧ c'.Waits p (Function.update base i s) := by
  cases run with
  | cons first rest =>
      cases rest with
      | cons second done =>
          cases done
          obtain ⟨-, rfl⟩ := first
          obtain ⟨quiet, sync', out, returns, rfl⟩ := second
          rw [node_put_self] at returns
          obtain ⟨tickctr, here⟩ := waits i
          have elects : (p.env i).checkElection tick (c.network.node i) =
              some (c.network.node i, []) := by
            rw [Env.checkElection, if_neg fun stands => stands.1 leads]
          have crowned : crown (c.network.node i) (c.network.node i) (c.node i) = c.node i :=
            if_neg fun crowned => crowned.1 crowned.2
          have proposes : [block] = (if (c.network.node i).raftState = .leader then
              Storage.proposes 100 100 (crown (c.network.node i) (c.network.node i) (c.node i))
                else []) := by
            rw [if_pos leads, crowned, Storage.proposes, here, lead]
            change _ = List.drop (base i).commandsQueue.length s.commandsQueue
            rw [queue, List.drop_left]
          have adds : p.addBlocksToQueue (sync'.delivered.drop (c.network.node i).delivered.length)
              (if (c.network.node i).raftState = .leader then
                final (leaderTick 100 100 (crown (c.network.node i) (c.network.node i) (c.node i)))
              else crown (c.network.node i) (c.network.node i) (c.node i)) =
              some (Storage.awaiting s 0 ((c.network.node i).delivered.filterMap p.calls.loads ++
                (sync'.delivered.drop (c.network.node i).delivered.length).filterMap
                  p.calls.loads)) := by
            rw [if_pos leads, crowned, here, lead]
            exact addBlocksToQueue_awaiting _ calm waiting.reads _ _
          have whole := Program.onTick_returns elects proposes returns adds
          refine ⟨⟨c.network.put i sync' out, _⟩, ⟨?_, ?_⟩, ⟨le_rfl, sync', out, _, whole, rfl⟩, ?_,
            fun j => ?_⟩
          · rw [here]
            exact waiting.fits i
          · intro leads j mem
            obtain ⟨queue', enqueues⟩ := enqueue_eq (p.env i) [p.calls.dumps block]
            have unsplit := quiet.2.1
            simp only [Deployment.Unsplit, node_put_self] at unsplit
            rw [show (p.env i).applyCommand _ _ = _ from enqueues _] at unsplit
            exact unsplit leads j mem
          · rw [put_nil_put]
          · by_cases other : j = i
            · subst other
              obtain ⟨-, -, -, next, -, -, -, -, -, calls, -⟩ := Program.onTick_cases whole
              refine ⟨0, ?_⟩
              simp only [Function.update_self, node_put_self]
              rw [← calls, List.drop_left, List.filterMap_append]
            · simp only [Function.update_of_ne other, node_put_ne c.network other]
              exact waits j

end Waiting

/-! ### A block that two nodes share -/

def blockCodec : Codec Block UInt8 :=
  (Codec.pair Ideal.numberCodec (.pair Ideal.numberCodec
    (.list Ideal.numberCodec Ideal.bytesCodec))).image
    (fun block => (block.time.num, block.time.den, block.txns))
    (fun parts => ⟨NNRat.divNat parts.1 parts.2.1, parts.2.2⟩)
    fun block => by rw [NNRat.num_divNat_den]

/-- One block is pickled as one byte, any other as what it is made of. -/
def pairCalls (shared : Block) : Calls where
  dumps block := if block = shared then [7] else 8 :: blockCodec.write block
  loads command := if command = [7] then some shared else
    some (((blockCodec.read command.tail).map Prod.fst).getD ⟨0, []⟩)
  loads_dumps block := by
    by_cases same : block = shared
    · rw [if_pos same, if_pos rfl, same]
    · rw [if_neg same, if_neg (by simp), List.tail_cons, ← List.append_nil (blockCodec.write block),
        blockCodec.read_write]
      rfl

def pairProgram (shared : Block) : Program Bool :=
  { pair with
    setup := Ideal.small
    calls := pairCalls shared }

theorem stocked_proposal (txs : List Transaction) :
    (stocked txs).proposal 100 100 = blockOf txs 100 := by
  have now : (if (100 : ℚ≥0) > (stocked txs).currentTime then 100
      else (stocked txs).currentTime) = 100 := if_pos (by change (0 : ℚ≥0) < 100; norm_num)
  rw [Storage.proposal, now]
  rfl

/-- A node that holds enough transactions and leads. -/
theorem leaderTick_stocked {txs : List Transaction} (full : blockSize ≤ txs.length) (tickctr : Nat)
    (blocks : List Block) :
    final (leaderTick 100 100 (Storage.awaiting (stocked txs) tickctr blocks)) =
      Storage.awaiting (proposer txs 100) 0 blocks := by
  have offers : (Storage.awaiting (stocked txs) tickctr blocks).Offers :=
    ⟨.inr (stocked_full full), ⟨rfl, rfl, rfl⟩, List.disjoint_nil_right _⟩
  rw [offers.proposes]
  have now : (Storage.awaiting (stocked txs) tickctr blocks).proposal 100 100 = blockOf txs 100 :=
    stocked_proposal txs
  rw [now]
  rfl

/-- A node may be sent any transactions. -/
theorem system_submit {p : Program ι} {c : System ι} {C : System ι → Occasion ι → Prop} (i : ι) (txs : List Transaction)
    (allowed : ∀ c, ∀ tx ∈ txs, C c (.act i (.puttxn tx)))
    (reached : (p.system.restrict C).Reachable c) :
    (p.system.restrict C).Reachable ⟨c.network, Function.update c.node i
      (txs.foldl (fun s tx => final (p.setup.exec (.puttxn tx) s)) (c.node i))⟩ := by
  induction txs generalizing c with
  | nil => simpa using reached
  | cons tx txs ih =>
      have step : (p.system.restrict C).step c (.act i (.puttxn tx)) ⟨c.network,
          Function.update c.node i (final (p.setup.exec (.puttxn tx) (c.node i)))⟩ :=
        ⟨allowed c tx List.mem_cons_self, by simp, rfl, rfl⟩
      simpa using ih (fun c tx mem => allowed c tx (List.mem_cons_of_mem _ mem)) (.step reached step)

theorem pair_phases : ∃ c c' c'',
    (pair.cluster.restrict fun c e => pair.Quiet c e ∧ pair.Idle (fun _ => false) c e).Run .initial
      (elect ++ serve.take 1) c ∧ (c.node true).raftState = .leader ∧
    (pair.cluster.restrict pair.Quiet).Run c [.propose true [7], .tick true calmTick] c' ∧
    (pair.cluster.restrict fun c e => pair.Quiet c e ∧ pair.Idle id c e).Run c' (serve.drop 3) c'' ∧
    (c''.node true).raftState = .leader ∧ (c''.node true).delivered = [[7]] ∧
      (c''.node false).delivered = [[7]] := by
  have computed : ((elect ++ serve.take 1).foldlM (pair.performIf fun c e =>
      pair.Quiet c e ∧ pair.Idle (fun _ => false) c e) .initial).bind (fun c =>
        ([.propose true [7], .tick true calmTick].foldlM (pair.performIf pair.Quiet) c).bind fun c' =>
          ((serve.drop 3).foldlM (pair.performIf fun c e => pair.Quiet c e ∧ pair.Idle id c e)
            c').bind fun c'' => some ((c.node true).raftState, (c''.node true).raftState,
              (c''.node true).delivered, (c''.node false).delivered)) =
      some (.leader, .leader, [[7]], [[7]]) := by decide +kernel
  obtain ⟨c, first, rest⟩ := pair.computes computed
  obtain ⟨c', second, rest⟩ := pair.computes rest
  obtain ⟨c'', third, seen⟩ := pair.computes rest
  obtain ⟨leads, leads', delivered, delivered'⟩ := by simpa only [Option.some.injEq, Prod.mk.injEq] using seen
  exact ⟨c, c', c'', first, leads, second, third, leads', delivered, delivered'⟩

theorem dumps_shared (shared : Block) : (pairProgram shared).calls.dumps shared = [7] :=
  if_pos rfl

theorem loads_shared (shared : Block) :
    [[7]].filterMap (pairProgram shared).calls.loads = [shared] := by
  rw [List.filterMap_cons_some ((dumps_shared shared) ▸
    (pairProgram shared).calls.loads_dumps shared), List.filterMap_nil]

/-- The nodes before one of them proposes, and after. -/
def stockedPair (txs : List Transaction) (time : ℚ≥0) (proposed i : Bool) : Storage :=
  bif proposed && i then proposer txs time else stocked txs

variable {txs : List Transaction}

theorem pairProgram_waiting (proposed : Bool) :
    Waiting (pairProgram (blockOf txs 100)) (fun i => proposed && i) (stockedPair txs 100 proposed) := by
  have proposal : ∀ i, (stockedPair txs 100 proposed i).proposal 100 100 = blockOf txs 100 := by
    intro i
    cases proposed <;> cases i <;> exact stocked_proposal txs
  refine ⟨fun i => ?_, fun i => ?_, fun i => ?_, fun command => ?_⟩
  · cases proposed <;> cases i <;> rfl
  · cases proposed <;> cases i <;> rfl
  · rw [proposal, dumps_shared]
    change pair.conf.Fits (.regular [7])
    decide
  · by_cases shared : command = [7]
    · exact ⟨_, if_pos shared⟩
    · exact ⟨_, if_neg shared⟩

theorem pairProgram_shares (distinct : (txs.map Ideal.packages.txid).Nodup)
    (full : blockSize ≤ txs.length) {D : System Bool → Occasion Bool → Prop}
    (submits : ∀ c i, ∀ tx ∈ txs, D c (.act i (.puttxn tx)))
    (others : ∀ c o, o.OfSyncObj → (∀ i, (c.node i).currentBlock = []) → D c o) :
    ∃ c, ((pairProgram (blockOf txs 100)).system.restrict fun c o =>
        (pairProgram (blockOf txs 100)).Calm c o ∧ D c o).Reachable c ∧
      (c.network.node true).raftState = .leader ∧ ∀ i, (c.network.node i).delivered = [[7]] ∧
        ∃ tickctr, c.node i =
          Storage.awaiting (stockedPair txs 100 true i) tickctr [blockOf txs 100] := by
  obtain ⟨c₁, c₂, c₃, elects, leads, proposes, serves, leads', delivered, delivered'⟩ := pair_phases
  have free : ∀ {proposed c}, System.Waits (pairProgram (blockOf txs 100)) (stockedPair txs 100 proposed) c →
      ∀ i, (c.node i).currentBlock = [] := by
    intro proposed c waits i
    obtain ⟨tickctr, here⟩ := waits i
    rw [here]
    cases proposed <;> cases i <;> rfl
  have start : ((pairProgram (blockOf txs 100)).system.restrict fun c o =>
      (pairProgram (blockOf txs 100)).Calm c o ∧ D c o).Reachable
        ⟨.initial, fun _ => Ideal.small.fresh⟩ := .start ⟨rfl, fun _ => rfl⟩
  have submitted := system_submit true txs (fun c tx mem => ⟨trivial, submits c true tx mem⟩)
    (system_submit false txs (fun c tx mem => ⟨trivial, submits c false tx mem⟩) start)
  have ready : ((pairProgram (blockOf txs 100)).system.restrict fun c o =>
      (pairProgram (blockOf txs 100)).Calm c o ∧ D c o).Reachable
        ⟨.initial, fun _ => stocked txs⟩ := by
    convert submitted using 2
    funext first
    cases first
    · simp [pairProgram, submit_fresh distinct]
    · simp [pairProgram, submit_fresh distinct]
  have waits : System.Waits (pairProgram (blockOf txs 100)) (stockedPair txs 100 false)
      ⟨.initial, fun _ => stocked txs⟩ := fun i => ⟨0, by cases i <;> rfl⟩
  obtain ⟨os, c, run, rfl, waits⟩ := waits.run (pairProgram_waiting false) elects
  have reached := ready.run (run.weaken fun c o holds =>
    ⟨holds.1, others c o holds.2.2 (free holds.2.1)⟩)
  rw [← dumps_shared (blockOf txs 100)] at proposes
  obtain ⟨c', calm, steps, rfl, waits'⟩ := waits.propose (pairProgram_waiting false) leads
    (leaderTick_stocked full) rfl rfl proposes
  have reached' := reached.step ⟨⟨calm, others _ _ trivial (free waits)⟩, steps⟩
  rw [show Function.update (stockedPair txs 100 false) true (proposer txs 100) = stockedPair txs 100 true by
    funext first
    cases first <;> rfl] at waits'
  obtain ⟨os', c'', run', rfl, waits''⟩ := waits'.run (pairProgram_waiting true) serves
  have reached'' := reached'.run (run'.weaken fun c o holds =>
    ⟨holds.1, others c o holds.2.2 (free holds.2.1)⟩)
  have calls : ∀ i, (c''.network.node i).delivered = [[7]] := by
    intro i
    cases i
    · exact delivered'
    · exact delivered
  refine ⟨c'', reached'', leads', fun i => ⟨calls i, ?_⟩⟩
  obtain ⟨tickctr, here⟩ := waits'' i
  refine ⟨tickctr, here.trans ?_⟩
  rw [calls, loads_shared]

end Belcoin.SyncObj
