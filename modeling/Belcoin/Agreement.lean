import Belcoin.Waiting

/-!
Replicas.

Raft delivers the same blocks to every node, so every node should end with the ledger
that `Ledger.history` computes from them. `nodes_agree` proves that it does, on whatever
local schedule, if `update_pend` is never run too early or too late: a block is taken
when nothing is due, and none is delivered with something due while another is at hand.
`replicas_differ` has one node that is late.
-/

namespace Belcoin

open Stateful

/-! ### Bodies -/

/-- The transaction an action brings into the mempool. -/
def Action.arriving : Action → Option Transaction
  | .puttxn tx => some tx
  | .answer _ (.transaction tx) => some tx
  | _ => none

/-- The mempool holds the bodies that every node holds. -/
def Storage.Knows (bodies : Bodies) (s : Storage) : Prop :=
  ∀ (k : Bytes) (txn : Transaction), s.mempool[k]? = some txn → txn = bodies k

theorem knows_steady (bodies : Bodies) : Steady (Storage.Knows bodies) where
  ledger _ _ knows := knows
  pubOuts _ _ knows := knows
  pubOutsPend _ _ knows := knows
  invalidTxns _ _ knows := knows
  removal _ _ knows k txn held := knows k txn (getElem?_of_erase held)

section Node

variable (pkg : Packages) {bodies : Bodies}

theorem addMissing_knows {txid : Bytes} {tx : Transaction} (carried : tx = bodies (pkg.txid tx)) :
    Sustains (Storage.Knows bodies) (pkg.addMissing txid tx) :=
  addMissing_bodies pkg carried txid

theorem exec_knows {s : Storage} {a : Action} (knows : s.Knows bodies)
    (carried : ∀ tx ∈ a.arriving, tx = bodies (pkg.txid tx)) :
    (final (pkg.exec a s)).Knows bodies := by
  refine @exec_sustains_arriving pkg _ (fun _ tx => tx = bodies (pkg.txid tx))
    (fun u v books knows => ?_) (fun _ _ => addMissing_knows pkg)
    (fun txid => (knows_steady bodies).processTxn pkg txid) s a
    ((knows_steady bodies).updatePend pkg s knows) knows ?_ ?_
  · rw [Storage.Knows, books.mempool]
    exact knows
  · rintro tx rfl
    exact carried tx rfl
  · rintro n tx entry rfl -
    exact carried tx rfl

theorem Packages.Enters.knows {pkg : Packages} {s u : Storage} {a : Action} {block : List Bytes}
    (enters : pkg.Enters s a block u) (knows : s.Knows bodies)
    (carried : ∀ tx ∈ a.arriving, tx = bodies (pkg.txid tx)) : u.Knows bodies := by
  cases enters with
  | taken => exact knows
  | @completed n reply entry =>
      cases reply with
      | transaction tx => exact addMissing_knows pkg (carried tx rfl) _ knows
      | _ => exact knows

/-- The turns of a block that return settle the bodies of its ids. -/
theorem forM_processTxn_settles {block : List Bytes} {s t : Storage} (knows : s.Knows bodies)
    (run : block.forM pkg.processTxn s = .ok () t) :
    Ledger.settleBlock pkg bodies block s.toLedger = .ok ⟨⟩ t.toLedger := by
  induction block generalizing s with
  | nil =>
      cases run
      rfl
  | cons txid block ih =>
      rw [forM_cons] at run
      obtain ⟨_, middle, first, rest⟩ := bind_ok.mp run
      have kept := (knows_steady bodies).processTxn pkg txid s knows
      rw [first] at kept
      have settles : Ledger.settle pkg (bodies txid) s.toLedger = .ok ⟨⟩ middle.toLedger := by
        rw [Packages.processTxn, get_bind] at first
        cases held : s.mempool[txid]? with
        | none =>
            rw [held] at first
            cases first
        | some txn =>
            rw [held] at first
            obtain ⟨_, settled, settles, removes⟩ := bind_ok.mp first
            cases removes
            obtain ⟨ledger, settles', rfl⟩ := (settleTxn_lockstep pkg txn).ok_left rfl settles
            rw [← knows txid txn held]
            exact settles'
      rw [Ledger.settleBlock, forM_cons, bind_ok]
      exact ⟨⟨⟩, middle.toLedger, settles, ih kept rest⟩

/-- `process_block` settles the block. -/
theorem processBlock_settles {block : List Bytes} {s t : Storage} (knows : s.Knows bodies)
    (run : pkg.processBlock block s = .ok () t) :
    Ledger.settleBlock pkg bodies block s.toLedger = .ok ⟨⟩ t.toLedger := by
  rw [Packages.processBlock, modify_bind] at run
  obtain ⟨_, u, loop, finishes⟩ := bind_ok.mp run
  have settles := @forM_processTxn_settles pkg bodies block (s.enter block) u knows loop
  have same : t.toLedger = u.toLedger := by
    rw [finishBlock, get_bind] at finishes
    cases queue : u.blockQueue with
    | nil =>
        rw [queue] at finishes
        cases finishes
    | cons head rest =>
        rw [queue] at finishes
        cases finishes
        rfl
  rw [same]
  exact settles

end Node

/-! ### Stages -/

variable {setup : Setup} {bodies : Bodies}

/-- What the blocks make of the genesis ledger. -/
def Setup.After (setup : Setup) (bodies : Bodies) (blocks : List Block) (ledger : Ledger) : Prop :=
  Ledger.history setup.toPackages bodies blocks setup.fresh.toLedger = .ok ⟨⟩ ledger

/-- What they make of it up to the settling of one more block. -/
def Setup.Upto (setup : Setup) (bodies : Bodies) (blocks : List Block) (head : Block)
    (ledger : Ledger) : Prop :=
  ∃ before swept, setup.After bodies blocks before ∧
    Ledger.sweep setup.toPackages before = .ok ⟨⟩ swept ∧
    ledger = { swept with currentTime := head.time }

theorem Setup.Upto.settle {blocks : List Block} {head : Block} {ledger ledger' : Ledger}
    (upto : setup.Upto bodies blocks head ledger)
    (settles : Ledger.settleBlock setup.toPackages bodies head.txns ledger = .ok ⟨⟩ ledger') :
    setup.After bodies (blocks ++ [head]) ledger' := by
  obtain ⟨before, swept, after, sweeps, rfl⟩ := upto
  exact Ledger.history_append after (Ledger.enact_ok.mpr ⟨swept, sweeps, settles⟩)

theorem Setup.After.sound {blocks : List Block} {ledger : Ledger}
    (after : setup.After bodies blocks ledger) : ledger.Sound setup.toPackages :=
  sound_of_reachable (setup.reachable_history (.start rfl) after)

/-- No block is at hand. -/
structure Storage.Resting (s : Storage) : Prop where
  idle : s.processing = false
  noMissing : s.missingTxns = []
  noBlock : s.currentBlock = []

/-- Where a node that is not inside `process_block` is in the history of its blocks:
behind the last one, swept for the next, or with the next one at hand. -/
inductive Setup.Stage (setup : Setup) (bodies : Bodies) (s : Storage) : Prop where
  | settled : s.Resting → setup.After bodies s.done s.toLedger → Stage setup bodies s
  | swept {before : Ledger} : s.Resting → s.blockQueue ≠ [] → setup.After bodies s.done before →
      Ledger.sweep setup.toPackages before = .ok ⟨⟩ s.toLedger → Stage setup bodies s
  | taken {head : Block} {rest : List Block} : s.blockQueue = head :: rest →
      s.currentBlock = head.txns → head.txns ≠ [] → setup.Upto bodies s.done head s.toLedger →
      Stage setup bodies s

/-- A block is taken when nothing is due, and none is delivered with something due while
another is at hand; `update_pend` runs on deliveries only, everything that arrives is
what every node holds, and answers complete a block in time. -/
structure Setup.Punctual (setup : Setup) (bodies : Bodies) (s : Storage) (a : Action) : Prop where
  carried : ∀ tx ∈ a.arriving, tx = bodies (setup.txid tx)
  inTime : setup.AnswersInTime s a
  noSweep : a ≠ .updatePend
  takes : a = .tryProcess → s.processing = false → s.blockQueue ≠ [] → s.currentBlock = [] →
    s.toLedger.Calm
  delivers : ∀ block, a = .deliver block → s.currentBlock ≠ [] → s.toLedger.Calm

/-- A stage reads the control state and the ledger. -/
theorem Setup.Stage.congr {s t : Storage} (stage : setup.Stage bodies s) {missingTxns : List Bytes}
    (control : t.control = { s.control with missingTxns })
    (fewer : s.missingTxns = [] → missingTxns = []) (ledger : t.toLedger = s.toLedger) :
    setup.Stage bodies t := by
  simp only [Storage.control, Control.mk.injEq] at control
  obtain ⟨queue, current, missing, busy, -, log⟩ := control
  have done : t.done = s.done := Storage.done_of_log (.inl log)
  have resting : s.Resting → t.Resting := fun rests =>
    ⟨busy.trans rests.idle, missing.trans (fewer rests.noMissing), current.trans rests.noBlock⟩
  cases stage with
  | settled rests after => exact .settled (resting rests) (done ▸ ledger ▸ after)
  | swept rests queued after sweeps =>
      exact .swept (resting rests) (queue ▸ queued) (done ▸ after) (ledger ▸ sweeps)
  | taken queued atHand some upto =>
      exact .taken (queue.trans queued) (current.trans atHand) some (done ▸ ledger ▸ upto)

/-- The head of the queue may be taken. -/
theorem Setup.Stage.take {s : Storage} (stage : setup.Stage bodies s)
    (punctual : setup.Punctual bodies s .tryProcess) (idle : s.processing = false) {head : Block}
    {rest : List Block} (queue : s.blockQueue = head :: rest) :
    setup.Upto bodies s.done head (s.take head).toLedger := by
  have queued : s.blockQueue ≠ [] := by simp [queue]
  cases stage with
  | settled rests after =>
      have calm := punctual.takes rfl idle queued rests.noBlock
      exact ⟨_, _, after, Ledger.sweep_calm calm, rfl⟩
  | swept _ _ after sweeps => exact ⟨_, _, after, sweeps, rfl⟩
  | taken queued' _ _ upto =>
      rw [queue] at queued'
      cases queued'
      obtain ⟨before, swept, after, sweeps, same⟩ := upto
      refine ⟨before, swept, after, sweeps, ?_⟩
      change { s.toLedger with currentTime := head.time } = _
      rw [same]

/-- A sweep that returns, as `update_pend` runs it on a delivery. -/
theorem deliver_sweeps {s : Storage} {ledger : Ledger} (block : Block)
    (sweeps : Ledger.sweep setup.toPackages s.toLedger = .ok ⟨⟩ ledger) :
    ∃ t, final (setup.addBlockToQueue block s) = t ∧ t.toLedger = ledger ∧ t.done = s.done ∧
      t.blockQueue = s.blockQueue ++ [block] ∧ t.currentBlock = s.currentBlock ∧
      (s.Resting → t.Resting) := by
  obtain ⟨u, run, same⟩ := (updatePend_lockstep setup.toPackages).ok_right rfl sweeps
  have control := (control_steady s.control).updatePend setup.toPackages s rfl
  rw [run] at control
  simp only [Storage.control, final_ok, Control.mk.injEq] at control
  obtain ⟨queue, current, missing, busy, -, log⟩ := control
  refine ⟨{ u with
    blockQueue := u.blockQueue ++ [block]
    blockLog := u.blockLog ++ [.queued block] }, ?_, same, ?_, ?_, current, fun rests => ?_⟩
  · rw [Packages.addBlockToQueue, bind_apply, run]
    rfl
  · exact Storage.done_of_log (.inr ⟨block, by rw [log]⟩)
  · rw [queue]
  · exact ⟨busy.trans rests.idle, missing.trans rests.noMissing, current.trans rests.noBlock⟩

/-- A block is delivered. -/
theorem Setup.Stage.deliver {s : Storage} (stage : setup.Stage bodies s) {block : Block}
    (punctual : setup.Punctual bodies s (.deliver block)) :
    setup.Stage bodies (final (setup.addBlockToQueue block s)) := by
  cases stage with
  | settled rests after =>
      obtain ⟨ledger, sweeps⟩ := Ledger.sweep_returns after.sound
      obtain ⟨t, same, held, done, queue, -, rested⟩ := deliver_sweeps block sweeps
      rw [same]
      exact .swept (rested rests) (by simp [queue]) (done ▸ after) (held ▸ sweeps)
  | swept rests _ after sweeps =>
      have again := setup.sweep_again after.sound sweeps
      obtain ⟨t, same, held, done, queue, -, rested⟩ := deliver_sweeps block again
      rw [same]
      exact .swept (rested rests) (by simp [queue]) (done ▸ after) (held ▸ sweeps)
  | @taken head rest queued atHand some upto =>
      have calm := punctual.delivers block rfl (atHand ▸ some)
      obtain ⟨t, same, held, done, queue, current, -⟩ :=
        deliver_sweeps block (Ledger.sweep_calm calm)
      rw [same]
      have longer : t.blockQueue = head :: (rest ++ [block]) := by rw [queue, queued, List.cons_append]
      exact .taken longer (current.trans atHand) some (done ▸ held ▸ upto)

/-- **Quiet steps keep a stage.** -/
theorem Packages.Quiet.stage {s t : Storage} {a : Action} (quiet : setup.Quiet s a t)
    (stage : setup.Stage bodies s) (punctual : setup.Punctual bodies s a) :
    setup.Stage bodies t := by
  have fewer : ∀ txid, s.missingTxns = [] → s.missingTxns.erase txid = [] := by
    intro txid none
    rw [none, List.erase_nil]
  have some : ∀ block : Block, s.missingOf block.txns ≠ [] → block.txns ≠ [] := by
    intro block missing none
    rw [none] at missing
    exact missing rfl
  cases quiet with
  | waits => exact stage
  | backsOff idle queue missing =>
      exact .taken queue rfl (some _ missing) (stage.take punctual idle queue)
  | asks idle queue missing =>
      exact .taken queue rfl (some _ missing) (stage.take punctual idle queue)
  | delivered => exact stage.deliver punctual
  | swept => exact absurd rfl punctual.noSweep
  | @submitted tx =>
      exact stage.congr (transactionReceived_eq setup.toPackages tx 0 (setup.txid tx) s).2 id
        (addMissing_ledger setup.toPackages _ tx s)
  | ended => exact stage
  | received =>
      exact stage.congr (answered_control setup.toPackages s _ _ _) (fewer _)
        (answered_ledger setup.toPackages s _ _ _)
  | again => exact @Setup.Stage.congr _ _ _ _ stage s.missingTxns rfl id rfl
  | found => exact stage.congr rfl (fewer _) rfl

/-- What `process_block` is entered with: the head of the queue, on the ledger that the
blocks before it left, and no missing transaction. -/
theorem Packages.Enters.stage {s u : Storage} {a : Action} {block : List Bytes}
    (enters : setup.Enters s a block u) (stage : setup.Stage bodies s)
    (punctual : setup.Punctual bodies s a) :
    ∃ head rest, u.blockQueue = head :: rest ∧ block = head.txns ∧ u.missingTxns = [] ∧
      setup.Upto bodies s.done head u.toLedger := by
  cases enters with
  | @taken head rest idle queue noMissing =>
      exact ⟨head, rest, queue, rfl, noMissing, stage.take punctual idle queue⟩
  | @completed n reply entry flying completes =>
      have control := answered_control setup.toPackages s n entry.1 reply
      simp only [Storage.control, Control.mk.injEq] at control
      obtain ⟨queue, -, missing, -⟩ := control
      have working := (punctual.inTime n reply rfl completes).imp_right And.left
      have atWork : ¬ s.Resting := by
        intro rests
        rcases working with busy | some
        · rw [rests.idle] at busy
          cases busy
        · exact some rests.noMissing
      cases stage with
      | settled rests => exact absurd rests atWork
      | swept rests => exact absurd rests atWork
      | taken queued atHand _ upto =>
          refine ⟨_, _, queue.trans queued, atHand, ?_, ?_⟩
          · exact missing.trans ((completes_iff flying).mp completes).2.1
          · rw [answered_ledger]
            exact upto

/-- A node in which `process_block` raised: it takes no block any more. -/
def Storage.Stuck (s : Storage) : Prop := s.processing = true ∧ s.processingBlock = true

theorem Packages.Quiet.stuck {pkg : Packages} {s t : Storage} {a : Action}
    (quiet : pkg.Quiet s a t) (stuck : s.Stuck) : t.Stuck := by
  have busy : s.processing ≠ false := by simp [stuck.1]
  have swept : (final (pkg.updatePend s)).Stuck := by
    have control := (control_steady s.control).updatePend pkg s rfl
    exact ⟨(congrArg Control.processing control).trans stuck.1,
      (congrArg Control.processingBlock control).trans stuck.2⟩
  cases quiet with
  | waits => exact stuck
  | backsOff idle => exact absurd idle busy
  | asks idle => exact absurd idle busy
  | delivered => exact final_bind swept fun _ _ _ kept => kept
  | swept => exact swept
  | @submitted tx =>
      have control := (transactionReceived_eq pkg tx 0 (pkg.txid tx) s).2
      exact ⟨(congrArg Control.processing control).trans stuck.1,
        (congrArg Control.processingBlock control).trans stuck.2⟩
  | ended => exact stuck
  | @received n reply entry =>
      have control := answered_control pkg s n entry.1 reply
      exact ⟨(congrArg Control.processing control).trans stuck.1,
        (congrArg Control.processingBlock control).trans stuck.2⟩
  | again => exact stuck
  | found => exact stuck

/-- A node that is stuck stays stuck. -/
theorem exec_stuck (pkg : Packages) {s : Storage} (stuck : s.Stuck) (a : Action) :
    (final (pkg.exec a s)).Stuck := by
  rcases exec_cases pkg s a with ⟨block, u, enters, -⟩ | quiet
  · cases enters with
    | taken idle =>
        rw [stuck.1] at idle
        cases idle
    | completed flying completes =>
        have outside := ((completes_iff flying).mp completes).1
        rw [stuck.2] at outside
        cases outside
  · exact quiet.stuck stuck

/-- Where `process_block` raises, the node was at work. -/
theorem Packages.Enters.busy {s t u : Storage} {a : Action} {block : List Bytes} {e : PyError}
    (enters : setup.Enters s a block u) (inTime : setup.AnswersInTime s a)
    (raises : setup.perform a s = .error e t) : u.processing = true := by
  cases enters with
  | taken => rfl
  | @completed n reply entry _ completes =>
      have control := answered_control setup.toPackages s n entry.1 reply
      refine (congrArg Control.processing control).trans ?_
      refine (inTime n reply rfl completes).resolve_right ?_
      rintro ⟨-, v, returns⟩
      rw [raises] at returns
      cases returns

/-- **A step that enters `process_block`** ends behind one more block, or stuck. -/
theorem Packages.EntersWith.stage {s u : Storage} {a : Action} {block : List Bytes}
    (goes : setup.EntersWith s a block u) (enters : setup.Enters s a block u)
    (stage : setup.Stage bodies s) (punctual : setup.Punctual bodies s a)
    (knows : s.Knows bodies) :
    (final (setup.exec a s)).Stuck ∨ setup.Stage bodies (final (setup.exec a s)) := by
  obtain ⟨head, rest, queue, rfl, noMissing, upto⟩ := enters.stage stage punctual
  obtain ⟨performs, ⟨t, run, same⟩ | ⟨e, t, missingTxns, requests, run, same⟩⟩ := goes
  · rw [same]
    have settles := processBlock_settles setup.toPackages (enters.knows knows punctual.carried) run
    rcases processBlock_control setup.toPackages head.txns u with
      ⟨t', head', rest', run', queue', control⟩ | ⟨e, t', run', -⟩
    · rw [queue] at queue'
      cases queue'
      rw [run] at run'
      cases run'
      simp only [Storage.control, Control.finish, Control.mk.injEq] at control
      obtain ⟨-, current, missing, idle, -, log⟩ := control
      have done : t.done = s.done ++ [head] := by
        rw [Storage.done, log, enters.blockLog]
        simp [Storage.done, deletedIn]
      refine .inr (.settled ⟨idle, missing.trans noMissing, current⟩ ?_)
      rw [done]
      exact upto.settle settles
    · rw [run] at run'
      cases run'
  · have inside := processBlock_raises setup.toPackages run
    rw [same]
    refine .inl ⟨?_, inside⟩
    have busy := enters.busy punctual.inTime (performs.trans run)
    rcases processBlock_control setup.toPackages head.txns u with
      ⟨t', _, _, run', -, -⟩ | ⟨e', t', run', control⟩
    · rw [run] at run'
      cases run'
    · rw [run] at run'
      cases run'
      exact (congrArg Control.processing control).trans busy

/-! ### Runs -/

/-- What holds of a node between two steps. -/
structure Setup.Replica (setup : Setup) (bodies : Bodies) (s : Storage) : Prop where
  order : s.Orderly
  knows : s.Knows bodies
  stage : s.Stuck ∨ setup.Stage bodies s

theorem Setup.replica_step {s : Storage} {a : Action} (replica : setup.Replica bodies s)
    (punctual : setup.Punctual bodies s a) : setup.Replica bodies (final (setup.exec a s)) := by
  refine ⟨Setup.exec_orderly replica.order punctual.inTime,
    exec_knows setup.toPackages replica.knows punctual.carried, ?_⟩
  rcases replica.stage with stuck | stage
  · exact .inl (exec_stuck setup.toPackages stuck a)
  · rcases exec_cases setup.toPackages s a with ⟨block, u, enters, goes⟩ | quiet
    · exact goes.stage enters stage punctual replica.knows
    · exact .inr (quiet.stage stage punctual)

theorem Setup.node_replica {s : Storage}
    (reached : (setup.faultyNode.restrict (setup.Punctual bodies)).Reachable s) :
    setup.Replica bodies s := by
  refine reached.invariant ?_ ?_
  · rintro _ rfl
    refine ⟨⟨[], rfl, rfl, .idle rfl rfl rfl fun missing => absurd rfl missing⟩, ?_, ?_⟩
    · intro k txn held
      simp [Setup.fresh, Setup.construct] at held
    · exact .inr (.settled ⟨rfl, rfl, rfl⟩ rfl)
  · rintro s a _ _ replica ⟨punctual, rfl⟩
    exact setup.replica_step replica punctual

/-- A node that has processed every block that was delivered to it holds the ledger that
the blocks make. -/
theorem Setup.Replica.history {s : Storage} (replica : setup.Replica bodies s)
    (all : s.processed = queuedIn s.blockLog) :
    setup.After bodies (queuedIn s.blockLog) s.toLedger := by
  obtain ⟨behind, processed⟩ := replica.order.behind
  have queued : queuedIn s.blockLog = s.done ++ s.blockQueue := behind.queued
  have none : s.blockQueue = [] := by
    rw [processed, queued] at all
    exact List.self_eq_append_right.mp all
  have done : queuedIn s.blockLog = s.done := by rw [queued, none, List.append_nil]
  rw [done]
  rcases replica.stage with stuck | stage
  · cases behind.phase with
    | idle idle =>
        rw [show s.control.processing = true from stuck.1] at idle
        cases idle
    | waiting _ outside =>
        rw [show s.control.processingBlock = true from stuck.2] at outside
        cases outside
    | stuck _ _ _ queue =>
        rw [show s.control.blockQueue = [] from none] at queue
        cases queue
  · cases stage with
    | settled _ after => exact after
    | swept _ queue => exact absurd none queue
    | taken queue =>
        rw [none] at queue
        cases queue

theorem Setup.node_history {s : Storage}
    (reached : (setup.faultyNode.restrict (setup.Punctual bodies)).Reachable s)
    (all : s.processed = queuedIn s.blockLog) :
    setup.After bodies (queuedIn s.blockLog) s.toLedger :=
  (setup.node_replica reached).history all

/-- **Replicas agree**: two nodes that were delivered the same blocks, and have processed
them all, have the same `db` and the same `pend`, whatever else they did in between. -/
theorem Setup.nodes_agree {s t : Storage}
    (reached : (setup.faultyNode.restrict (setup.Punctual bodies)).Reachable s)
    (reached' : (setup.faultyNode.restrict (setup.Punctual bodies)).Reachable t)
    (same : queuedIn s.blockLog = queuedIn t.blockLog)
    (all : s.processed = queuedIn s.blockLog) (all' : t.processed = queuedIn t.blockLog) :
    s.db = t.db ∧ s.pend = t.pend := by
  have after := setup.node_history reached all
  have after' := setup.node_history reached' all'
  rw [← same, Setup.After, after] at after'
  have ledger : s.toLedger = t.toLedger := by injection after'
  exact ⟨congrArg Ledger.db ledger, congrArg Ledger.pend ledger⟩

/-! ### Two schedules -/

/-- A payment that waits for its timelock, and one from its output. -/
def waitingPayment : Transaction := Ideal.pay (Ideal.packages.txid Ideal.genesis) 0 0 5

def nextPayment : Transaction := Ideal.pay (Ideal.packages.txid waitingPayment) 0 0 0

def paymentBodies : Bodies := fun txid =>
  if txid = Ideal.packages.txid waitingPayment then waitingPayment else nextPayment

def waitingBlock : Block := ⟨0, [Ideal.packages.txid waitingPayment]⟩

def emptyBlock : Block := ⟨Nat.cast 100, []⟩

def nextBlock : Block := ⟨Nat.cast 100, [Ideal.packages.txid nextPayment]⟩

/-- Blocks are taken one by one, or the second is delivered before the first is taken. -/
def promptRun : List Action :=
  [.puttxn waitingPayment, .puttxn nextPayment, .deliver waitingBlock, .tryProcess,
    .deliver emptyBlock, .tryProcess, .deliver nextBlock, .tryProcess]

def pairRun : List Action :=
  [.puttxn waitingPayment, .puttxn nextPayment, .deliver waitingBlock, .deliver emptyBlock,
    .tryProcess, .tryProcess, .deliver nextBlock, .tryProcess]

/-- Blocks are taken when nothing is due, and delivered when none is at hand. -/
def Storage.Timely (s : Storage) : Action → Prop
  | .deliver _ => s.currentBlock = []
  | .tryProcess => ∀ entry ∈ s.pend.toList, ¬ entry.2.TimelockPassed s.currentTime
  | .puttxn tx => tx = paymentBodies (Ideal.packages.txid tx)
  | _ => False

instance (s : Storage) : ∀ a, Decidable (s.Timely a)
  | .deliver _ => inferInstanceAs (Decidable (_ = _))
  | .tryProcess => inferInstanceAs (Decidable (∀ _ ∈ s.pend.toList, _))
  | .puttxn _ => inferInstanceAs (Decidable (_ = _))
  | .updatePend | .answer _ _ => inferInstanceAs (Decidable False)

theorem Storage.Timely.punctual {s : Storage} {a : Action} (timely : s.Timely a) :
    Ideal.small.Punctual paymentBodies s a := by
  have answers : ∀ {a : Action}, (∀ n reply, a ≠ .answer n reply) → Ideal.small.AnswersInTime s a :=
    fun others n reply answers => absurd answers (others n reply)
  cases a with
  | deliver block =>
      refine ⟨by simp [Action.arriving], answers (by simp), by simp, by simp, ?_⟩
      exact fun _ _ atHand => absurd timely atHand
  | tryProcess =>
      refine ⟨by simp [Action.arriving], answers (by simp), by simp, ?_, by simp⟩
      rintro - - - - txnw ⟨⟨k, held⟩, passed⟩
      exact timely (k, txnw) (Std.ExtTreeMap.mem_toList_iff_getElem?_eq_some.mpr held) passed
  | puttxn tx =>
      refine ⟨fun other same => ?_, answers (by simp), by simp, by simp, by simp⟩
      obtain rfl : tx = other := Option.some.inj same
      exact timely
  | updatePend => exact timely.elim
  | answer => exact timely.elim

/-- The node after a run. -/
def timely (as : List Action) : Storage :=
  Ideal.small.replayFaulty Storage.Timely as Ideal.small.fresh

theorem timely_reachable (as : List Action) :
    (Ideal.small.faultyNode.restrict (Ideal.small.Punctual paymentBodies)).Reachable (timely as) :=
  (Setup.reachable_replayFaulty (.start rfl) as).weaken fun _ _ => Storage.Timely.punctual

theorem nodes_agree_schedules :
    (timely promptRun).db = (timely pairRun).db ∧ (timely promptRun).pend = (timely pairRun).pend :=
  Setup.nodes_agree (timely_reachable promptRun) (timely_reachable pairRun) (by decide +kernel)
    (by decide +kernel) (by decide +kernel)

/-- All blocks are delivered before the first is taken. -/
def lateDeliveries : List Action :=
  [.puttxn waitingPayment, .puttxn nextPayment, .deliver waitingBlock, .deliver emptyBlock,
    .deliver nextBlock, .tryProcess, .tryProcess, .tryProcess]

/-- What arrives is what every node holds, and `update_pend` runs on deliveries only. -/
def Action.Shared (a : Action) : Prop :=
  (∀ tx ∈ a.arriving, tx = paymentBodies (Ideal.packages.txid tx)) ∧ a ≠ .updatePend

instance (a : Action) : Decidable a.Shared := inferInstanceAs (Decidable (_ ∧ _))

/-- **Replicas that differ.** One node takes each block as it is delivered; the other
takes the last one before it has swept the first payment into `db`, and refuses the
second for good. -/
theorem replicas_differ :
    ¬ ∀ s t, (Ideal.small.node.restrict fun _ a => a.Shared).Reachable s →
      (Ideal.small.node.restrict fun _ a => a.Shared).Reachable t →
      queuedIn s.blockLog = queuedIn t.blockLog → s.processed = queuedIn s.blockLog →
      t.processed = queuedIn t.blockLog → s.db = t.db ∧ s.pend = t.pend := by
  intro claim
  have same := (claim _ _ (Setup.reachable_replay (.start rfl) promptRun)
    (Setup.reachable_replay (.start rfl) lateDeliveries) (by decide +kernel) (by decide +kernel)
    (by decide +kernel)).1
  have stored := congrArg (fun db : Store TxnWrapper => db[Ideal.packages.txid nextPayment]?) same
  exact absurd stored (by decide +kernel)

end Belcoin
