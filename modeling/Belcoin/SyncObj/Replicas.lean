import Belcoin.Agreement
import Belcoin.Overlap
import Belcoin.SyncObj.Refinement

/-!
Replicated ledgers.

What a node has queued is what its `SyncObj` has called (`Books`), so of the blocks that
two nodes have queued, one list is the start of the other. `replicas_agree` follows for
the ledgers: nodes that have processed as many blocks, and all that were delivered to
them, hold the same, whoever led and whatever was lost on the way, as long as all nodes
have the same body under an id.
-/

namespace Belcoin.SyncObj

open Network Deployment Stateful

variable {ι : Type} [DecidableEq ι] {bodies : Bodies}

/-! ### What the books of a node depend on -/

/-- The control state, the ledger and the mempool are the same. -/
structure SameBooks (s t : Storage) : Prop where
  control : t.control = s.control
  ledger : t.toLedger = s.toLedger
  mempool : t.mempool = s.mempool

theorem SameBooks.trans {s t u : Storage} (first : SameBooks s t) (second : SameBooks t u) :
    SameBooks s u :=
  ⟨second.control.trans first.control, second.ledger.trans first.ledger,
    second.mempool.trans first.mempool⟩

theorem SameBooks.blockLog {s t : Storage} (same : SameBooks s t) : t.blockLog = s.blockLog :=
  congrArg Control.blockLog same.control

theorem SameBooks.currentBlock {s t : Storage} (same : SameBooks s t) :
    t.currentBlock = s.currentBlock :=
  congrArg Control.currentBlock same.control

omit [DecidableEq ι] in
theorem crown_books (before after : State ι) (s : Storage) : SameBooks s (crown before after s) := by
  rw [crown]
  split <;> exact ⟨rfl, rfl, rfl⟩

theorem leaderTick_books (clock again : ℚ≥0) (s : Storage) :
    SameBooks s (final (leaderTick clock again s)) := by
  rcases leaderTick_cases clock again s with same | ⟨-, ⟨-, same⟩ | ⟨-, same⟩⟩ <;>
    rw [same] <;> exact ⟨rfl, rfl, rfl⟩

omit [DecidableEq ι] in
theorem lead_books (before elected : State ι) (clock again : ℚ≥0) (s : Storage) :
    SameBooks s (if elected.raftState = .leader then
      final (leaderTick clock again (crown before elected s)) else crown before elected s) := by
  have crowned := crown_books before elected s
  split
  · exact crowned.trans (leaderTick_books _ _ _)
  · exact crowned

theorem SameBooks.stuck {s t : Storage} (same : SameBooks s t) (stuck : t.Stuck) : s.Stuck :=
  ⟨(congrArg Control.processing same.control).symm.trans stuck.1,
    (congrArg Control.processingBlock same.control).symm.trans stuck.2⟩

theorem SameBooks.replica {setup : Setup} {s t : Storage} (same : SameBooks s t)
    (replica : setup.Replica bodies s) : setup.Replica bodies t where
  order := replica.order.of_control same.control
  knows k txn held := replica.knows k txn (same.mempool ▸ held)
  stage := replica.stage.imp
    (fun stuck => ⟨(congrArg Control.processing same.control).trans stuck.1,
      (congrArg Control.processingBlock same.control).trans stuck.2⟩)
    fun stage => stage.congr same.control id same.ledger

/-! ### Calls -/

/-- No block is at hand, or nothing is due. -/
def Storage.Ready (s : Storage) : Prop :=
  s.currentBlock ≠ [] → s.toLedger.Calm

theorem SameBooks.ready {s t : Storage} (same : SameBooks s t) (ready : Storage.Ready s) :
    Storage.Ready t := by
  rw [Storage.Ready, same.currentBlock, same.ledger]
  exact ready

/-- `add_block_to_queue` that returns. -/
theorem addBlockToQueue_ok {setup : Setup} {block : Block} {s t : Storage}
    (run : setup.addBlockToQueue block s = .ok () t) (ready : Storage.Ready s) :
    t.blockLog = s.blockLog ++ [.queued block] ∧ Storage.Ready t := by
  rw [Packages.addBlockToQueue] at run
  obtain ⟨_, u, sweeps, queues⟩ := bind_ok.mp run
  cases queues
  have control := (control_steady s.control).updatePend setup.toPackages s rfl
  rw [sweeps] at control
  refine ⟨congrArg (· ++ _) (congrArg Control.blockLog control), fun atHand => ?_⟩
  have same : u.currentBlock = s.currentBlock := congrArg Control.currentBlock control
  have calm := ready (same ▸ atHand)
  obtain ⟨ledger, sweeps', held⟩ := (updatePend_lockstep setup.toPackages).ok_left rfl sweeps
  rw [Ledger.sweep_calm calm] at sweeps'
  cases sweeps'
  exact held ▸ calm

omit [DecidableEq ι] in
/-- Calls of `add_block_to_queue` queue their blocks. -/
theorem addBlocksToQueue_replica {p : Program ι} {commands : List Bytes} {s t : Storage}
    (adds : p.addBlocksToQueue commands s = some t) (ready : Storage.Ready s)
    (replica : p.setup.Replica bodies s) : p.setup.Replica bodies t ∧
      queuedIn t.blockLog = queuedIn s.blockLog ++ commands.filterMap p.calls.loads := by
  induction commands generalizing s with
  | nil =>
      cases adds
      exact ⟨replica, (List.append_nil _).symm⟩
  | cons command commands ih =>
      rw [Program.addBlocksToQueue, List.foldlM_cons] at adds
      obtain ⟨u, first, rest⟩ := Option.bind_eq_some_iff.mp adds
      obtain ⟨block, loads, queues⟩ := Option.bind_eq_some_iff.mp first
      split at queues
      · rename_i run
        cases queues
        obtain ⟨log, ready'⟩ := addBlockToQueue_ok run ready
        have punctual : p.setup.Punctual bodies s (.deliver block) := by
          refine ⟨by simp [Action.arriving], ?_, by simp, by simp, fun _ _ atHand => ready atHand⟩
          intro n reply other
          cases other
        have replica' := p.setup.replica_step replica punctual
        rw [show final (p.setup.exec (.deliver block) s) = u from congrArg final run] at replica'
        obtain ⟨replica'', queued⟩ := ih rest ready' replica'
        refine ⟨replica'', ?_⟩
        rw [queued, log, List.filterMap_cons_some loads]
        simp [queuedIn]
      · cases queues

omit [DecidableEq ι] in
/-- A replica that is not stuck can sweep. -/
theorem updatePend_returns {setup : Setup} {s : Storage} (replica : setup.Replica bodies s)
    (free : ¬ s.Stuck) (ready : Storage.Ready s) : ∃ t, setup.updatePend s = .ok () t := by
  have sweeps : ∃ ledger, Ledger.sweep setup.toPackages s.toLedger = .ok ⟨⟩ ledger := by
    cases replica.stage.resolve_left free with
    | settled _ after => exact Ledger.sweep_returns after.sound
    | swept _ _ after sweeps => exact ⟨_, setup.sweep_again after.sound sweeps⟩
    | taken _ atHand some _ => exact ⟨_, Ledger.sweep_calm (ready (atHand ▸ some))⟩
  obtain ⟨ledger, sweeps⟩ := sweeps
  obtain ⟨t, run, -⟩ := (updatePend_lockstep setup.toPackages).ok_right rfl sweeps
  exact ⟨t, run⟩

omit [DecidableEq ι] in
/-- A replica that is not stuck takes calls. -/
theorem addBlocksToQueue_returns {p : Program ι} {commands : List Bytes} {s : Storage}
    (replica : p.setup.Replica bodies s) (free : ¬ s.Stuck) (ready : Storage.Ready s)
    (loads : ∀ command ∈ commands, ∃ block, p.calls.loads command = some block) :
    ∃ t, p.addBlocksToQueue commands s = some t := by
  induction commands generalizing s with
  | nil => exact ⟨s, rfl⟩
  | cons command commands ih =>
      obtain ⟨⟨block, first⟩, loads⟩ := List.forall_mem_cons.mp loads
      obtain ⟨u, sweeps⟩ := updatePend_returns replica free ready
      have run : p.setup.addBlockToQueue block s = .ok () { u with
          blockQueue := u.blockQueue ++ [block]
          blockLog := u.blockLog ++ [.queued block] } := by
        rw [Packages.addBlockToQueue, bind_apply, sweeps]
        rfl
      have one : p.addBlocksToQueue [command] s = some { u with
          blockQueue := u.blockQueue ++ [block]
          blockLog := u.blockLog ++ [.queued block] } := by
        simp [Program.addBlocksToQueue, first, run]
      have control := (control_steady s.control).updatePend p.setup.toPackages s rfl
      rw [sweeps] at control
      have free' : ¬ Storage.Stuck { u with
          blockQueue := u.blockQueue ++ [block]
          blockLog := u.blockLog ++ [.queued block] } := fun stuck =>
        free ⟨(congrArg Control.processing control).symm.trans stuck.1,
          (congrArg Control.processingBlock control).symm.trans stuck.2⟩
      obtain ⟨t, rest⟩ := ih (addBlocksToQueue_replica one ready replica).1 free'
        (addBlockToQueue_ok run ready).2 loads
      refine ⟨t, ?_⟩
      rw [Program.addBlocksToQueue, ← List.singleton_append, List.foldlM_append]
      exact Option.bind_eq_some_iff.mpr ⟨_, one, rest⟩

/-! ### Every step -/

/-- No tick comes with something due while a block is at hand, what arrives is the one body
that its id has in the cluster, and a node acts in time. -/
def Program.Punctual (p : Program ι) (bodies : Bodies) (c : System ι) : Occasion ι → Prop
  | .tick i _ _ _ => Storage.Ready (c.node i)
  | .act i a => p.setup.Punctual bodies (c.node i) a
  | _ => True

/-- A node is a replica, and has queued what was called. -/
structure Books (p : Program ι) (bodies : Bodies) (c : System ι) (i : ι) : Prop where
  replica : p.setup.Replica bodies (c.node i)
  queued : queuedIn (c.node i).blockLog = (c.network.node i).delivered.filterMap p.calls.loads

variable {p : Program ι} {c c' : System ι}

omit [DecidableEq ι] in
theorem Books.same {i : ι} (books : Books p bodies c i) (same : SameBooks (c.node i) (c'.node i))
    (applied : (c'.network.node i).applied = (c.network.node i).applied) : Books p bodies c' i where
  replica := same.replica books.replica
  queued := by rw [same.blockLog, books.queued, State.delivered, State.delivered, applied]

omit [DecidableEq ι] in
/-- Nothing queued is left. -/
theorem Books.all {i : ι} (books : Books p bodies c i) (empty : (c.node i).blockQueue = []) :
    (c.node i).processed = (c.network.node i).delivered.filterMap p.calls.loads ∧
      (c.node i).processed = queuedIn (c.node i).blockLog := by
  obtain ⟨behind, processed⟩ := books.replica.order.behind
  have queued : queuedIn (c.node i).blockLog = (c.node i).done ++ (c.node i).blockQueue :=
    behind.queued
  rw [empty, List.append_nil, ← processed] at queued
  exact ⟨queued.symm.trans books.queued, queued.symm⟩

/-- What a tick of a node leaves of its books. -/
theorem Books.tick {i : ι} {tick : Tick ι} {clock again : ℚ≥0} {sync' : State ι} {s' : Storage}
    {out : Outbox ι} (books : Books p bodies c i) (ready : Storage.Ready (c.node i))
    (returns : p.onTick i tick clock again (c.network.node i) (c.node i) = some (sync', out, s')) :
    Books p bodies ⟨c.network.put i sync' out, Function.update c.node i s'⟩ i := by
  obtain ⟨elected, -, -, next, -, -, -, -, -, calls, adds⟩ := Program.onTick_cases returns
  have same := lead_books (c.network.node i) elected clock again (c.node i)
  obtain ⟨replica, queued⟩ :=
    addBlocksToQueue_replica adds (same.ready ready) (same.replica books.replica)
  constructor
  · simpa using replica
  · simp only [Function.update_self, node_put_self]
    rw [queued, same.blockLog, books.queued, ← calls, List.filterMap_append]

/-- **Every step keeps the books.** -/
theorem Books.step {o : Occasion ι} (books : ∀ i, Books p bodies c i)
    (punctual : p.Punctual bodies c o) (steps : p.Steps c o c') (i : ι) : Books p bodies c' i := by
  cases o with
  | tick j tick clock again =>
      obtain ⟨-, sync', out, s', returns, rfl⟩ := steps
      by_cases here : i = j
      · subst here
        exact (books i).tick punctual returns
      · refine (books i).same ?_ (by rw [node_put_ne _ here])
        change SameBooks (c.node i) (Function.update c.node j s' i)
        rw [Function.update_of_ne here]
        exact ⟨rfl, rfl, rfl⟩
  | deliver src dst passes =>
      obtain ⟨⟨packet, rest, sync', out, -, receives, network⟩, node⟩ := steps
      by_cases here : i = dst
      · subst here
        refine (books i).same ?_ ?_
        · rw [node, Function.update_self]
          exact crown_books _ _ _
        · rw [network, node_put_self]
          exact onMessageReceived_applied receives
      · refine (books i).same ?_ ?_
        · rw [node, Function.update_of_ne here]
          exact ⟨rfl, rfl, rfl⟩
        · rw [network, node_put_ne _ here, node_setLink]
  | lose src dst n =>
      obtain ⟨network, node⟩ := steps
      refine (books i).same ?_ ?_
      · rw [node]
        exact ⟨rfl, rfl, rfl⟩
      · rw [show c'.network = _ from network, node_setLink]
  | act j a =>
      obtain ⟨local', network, node⟩ := steps
      by_cases here : i = j
      · subst here
        constructor
        · rw [node, Function.update_self]
          exact p.setup.replica_step (books i).replica punctual
        · rw [node, Function.update_self, exec_queued _ local', network]
          exact (books i).queued
      · refine (books i).same ?_ (by rw [network])
        rw [node, Function.update_of_ne here]
        exact ⟨rfl, rfl, rfl⟩

theorem books_reachable
    (reached : (p.system.restrict (p.Punctual bodies)).Reachable c) (i : ι) : Books p bodies c i := by
  induction reached generalizing i with
  | @start c first =>
      obtain ⟨network, nodes⟩ := first
      constructor
      · rw [nodes i]
        exact p.setup.node_replica (.start rfl)
      · rw [nodes i, network]
        rfl
  | step _ moves ih => exact Books.step ih moves.1 moves.2 i

/-! ### A block that two nodes share -/

/-- What the transactions of the shared block are. -/
def mintingBodies : Bodies := fun txid =>
  (minting.find? fun tx => Ideal.packages.txid tx = txid).getD Ideal.genesis

theorem mintingBodies_eq {tx : Transaction} (mem : tx ∈ minting) :
    mintingBodies (Ideal.packages.txid tx) = tx := by
  rw [mintingBodies]
  cases found : minting.find? fun other => Ideal.packages.txid other = Ideal.packages.txid tx with
  | none => simpa using List.find?_eq_none.mp found tx mem
  | some other =>
      have same : Ideal.packages.txid other = Ideal.packages.txid tx := by
        simpa using List.find?_some found
      exact List.inj_on_of_nodup_map minting_distinct (List.mem_of_find?_eq_some found) mem same

/-- Two nodes that share a block have not taken it. -/
theorem pairProgram_queued : ∃ c : System Bool,
    ((pairProgram (blockOf minting 100)).system.restrict fun c o =>
      (pairProgram (blockOf minting 100)).Calm c o ∧
        (pairProgram (blockOf minting 100)).Punctual mintingBodies c o).Reachable c ∧
    (c.network.node true).raftState = .leader ∧ ∀ i, (c.network.node i).delivered = [[7]] ∧
      ∃ tickctr, c.node i =
        Storage.awaiting (stockedPair minting 100 true i) tickctr [blockOf minting 100] := by
  refine pairProgram_shares minting_distinct minting_full (fun c i tx mem => ?_) fun c o plain free => ?_
  · refine ⟨fun other same => ?_, fun n reply answers => ?_, by simp, by simp, by simp⟩
    · obtain rfl : tx = other := Option.some.inj same
      exact (mintingBodies_eq mem).symm
    · cases answers
  · cases o with
    | tick i tick clock again => exact fun atHand => absurd (free i) atHand
    | act i a => exact plain.elim
    | deliver src dst passes => trivial
    | lose src dst n => trivial

theorem stockedPair_free (txs : List Transaction) (i : Bool) :
    (stockedPair txs 100 true i).processing ≠ true ∧ (stockedPair txs 100 true i).currentBlock = [] := by
  cases i <;> exact ⟨Bool.false_ne_true, rfl⟩

variable [Fintype ι]

/-- Whatever a tick calls has been proposed, so there is a block to call. -/
theorem Tracks.loads (small : p.conf.Fits .noOp) {es : List (Event ι)} {r : Belcoin.Raft ι}
    (tracks : Tracks p c es r) {i : ι} {tick : Tick ι} {blocks : List Block} {sync' : State ι}
    {out : Outbox ι} (fits : ∀ command ∈ blocks.map p.calls.dumps, p.conf.Fits (.regular command))
    (returns : (p.env i).onTick tick
      ((p.env i).enqueue (blocks.map p.calls.dumps) (c.network.node i)) = some (sync', out)) :
    ∀ command ∈ sync'.delivered, ∃ block, p.calls.loads command = some block := by
  intro command mem
  have run := tracks.run.weaken fun _ _ quiet => quiet.1
  have ticks : (p.cluster.restrict p.Sized).Run c.network
      ((blocks.map p.calls.dumps).map (.propose i) ++ [.tick i tick]) (c.network.put i sync' out) :=
    ((enqueue_run fits).weaken fun _ _ quiet => quiet.1).append (.single ⟨trivial, sync', out,
      by rw [node_put_self]; exact returns, by rw [put_nil_put]⟩)
  have total := count_delivered_le small (run.append ticks) i command
  rw [node_put_self, List.filterMap_append, List.count_append, tracks.proposed,
    proposals_eq] at total
  have called := List.count_pos_iff.mpr mem
  have dumped : command ∈ committed p.calls r ++ waiting p.calls r ++ blocks.map p.calls.dumps := by
    apply List.count_pos_iff.mp
    rw [List.count_append, List.count_append]
    omega
  obtain ⟨block, rfl⟩ : ∃ block, p.calls.dumps block = command := by
    simp only [committed, waiting, List.mem_append, List.mem_map] at dumped
    rcases dumped with (⟨entry, -, same⟩ | ⟨e, -, same⟩) | ⟨block, -, same⟩
    all_goals exact ⟨_, same⟩
  exact ⟨block, p.calls.loads_dumps block⟩

/-- **Nothing is raised.** A tick returns, calls of `add_block_to_queue` included, on a node
that is not stuck and has nothing due while a block is at hand. -/
theorem program_returns (small : p.conf.Fits .noOp)
    (reached : (p.system.restrict fun c o => p.Calm c o ∧ p.Punctual bodies c o).Reachable c)
    {i : ι} (free : ¬ (c.node i).Stuck) (ready : Storage.Ready (c.node i)) (tick : Tick ι)
    (clock again : ℚ≥0)
    (fits : p.conf.Fits (.regular (p.calls.dumps ((c.node i).proposal clock again)))) :
    (p.onTick i tick clock again (c.network.node i) (c.node i)).isSome := by
  have books := books_reachable (reached.weaken fun _ _ holds => holds.2) i
  obtain ⟨es, r, -, tracks⟩ := tracks_reachable small (reached.weaken fun _ _ holds => holds.1)
  have run := tracks.run.weaken fun _ _ quiet => quiet.1
  obtain ⟨-, h, -, related⟩ := run_related small run (.initial small)
  obtain ⟨elected, requests, elects, -⟩ := checkElection_runs False small tick ⟨_, related⟩
    False.elim
  obtain ⟨blocks, proposes⟩ : ∃ blocks, blocks = (if elected.raftState = .leader then
      Storage.proposes clock again (crown (c.network.node i) elected (c.node i)) else []) := ⟨_, rfl⟩
  have fits' := proposes_fit proposes fits
  have enqueued := (enqueue_run (c := c.network) (i := i) fits').weaken fun _ _ quiet => quiet.1
  obtain ⟨-, h', -, related'⟩ := run_related small enqueued related
  obtain ⟨sync', out, returns, -⟩ := tick_runs False (i := i) small tick ⟨_, related'⟩ False.elim
  rw [node_put_self] at returns
  have loads := tracks.loads small fits' returns
  have same := lead_books (c.network.node i) elected clock again (c.node i)
  obtain ⟨t, adds⟩ := addBlocksToQueue_returns (same.replica books.replica)
    (fun stuck => free (same.stuck stuck)) (same.ready ready)
    fun command mem => loads command (List.mem_of_mem_drop mem)
  rw [Program.onTick_returns elects proposes returns adds]
  rfl

theorem program_returns_pair : ∃ c : System Bool, (c.network.node true).raftState = .leader ∧
    ∀ i tick, ((pairProgram (blockOf minting 100)).onTick i tick 100 100 (c.network.node i)
      (c.node i)).isSome := by
  obtain ⟨c, reached, leads, nodes⟩ := pairProgram_queued
  refine ⟨c, leads, fun i tick => ?_⟩
  obtain ⟨-, tickctr, here⟩ := nodes i
  have free := stockedPair_free minting i
  refine program_returns (by decide) reached ?_ ?_ tick 100 100 ?_
  · rw [here]
    exact fun stuck => free.1 stuck.1
  · rw [here]
    exact fun atHand => absurd free.2 atHand
  · rw [here]
    exact (pairProgram_waiting true).fits i

end Belcoin.SyncObj
