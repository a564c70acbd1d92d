import Belcoin.Agreement
import Belcoin.Ledger.Replay

/-!
Restarts.

The Raft log of a node is in memory, its databases are not: after a restart every
committed block is delivered and processed again, over what survived. `runBlocks_ok` and
`runBlocks_returns` say that a node which processes blocks one by one computes
`Ledger.history`; `node_restart` that it ends where it was if the crash fell between two
operations, no block was earlier than the one before, and no transaction had been
rejected for an input that is stored by now. `restart_differs` has one that was.
-/

namespace Belcoin

open Stateful

/-! ### Blocks one by one -/

section Node

variable (pkg : Packages) (bodies : Bodies)

/-- A block is delivered, the bodies of its transactions are supplied, and it is
processed. -/
def Packages.runBlock (block : Block) : M Unit := do
  pkg.addBlockToQueue block
  block.txns.forM fun txid => pkg.puttxn (bodies txid)
  pkg.tryProcess

def Packages.runBlocks (blocks : List Block) : M Unit := blocks.forM (pkg.runBlock bodies)

/-- The bodies of a block are the ones of its ids. -/
def Packages.Names (block : Block) : Prop := ∀ txid ∈ block.txns, pkg.txid (bodies txid) = txid

instance (block : Block) : Decidable (pkg.Names bodies block) :=
  inferInstanceAs (Decidable (∀ _ ∈ block.txns, _))

variable {bodies}

/-- The mempool holds these bodies, each under its id. -/
structure Storage.Stock (bodies : Bodies) (s : Storage) : Prop where
  knows : s.Knows bodies
  keyed : s.Keyed pkg

/-- The node has nothing at hand. -/
structure Storage.Ready (bodies : Bodies) (s : Storage) : Prop extends s.Stock pkg bodies where
  idle : s.processing = false
  empty : s.blockQueue = []

theorem addMissing_returns (txid : Bytes) (tx : Transaction) (s : Storage) :
    pkg.addMissing txid tx s = .ok () (final (pkg.addMissing txid tx s)) := by
  rcases addMissing_cases pkg txid tx s with ⟨-, run⟩ | ⟨-, run⟩ <;> rw [run, final_ok]

/-- The bodies are supplied. -/
theorem puttxn_supplies {txids : List Bytes} {s : Storage}
    (named : ∀ txid ∈ txids, pkg.txid (bodies txid) = txid) (stock : s.Stock pkg bodies) :
    ∃ t, (txids.forM fun txid => pkg.puttxn (bodies txid)) s = .ok () t ∧
      t.toLedger = s.toLedger ∧ t.control = s.control ∧ t.Stock pkg bodies ∧
      ∀ k, k ∈ txids ∨ k ∈ s.mempool → k ∈ t.mempool := by
  induction txids generalizing s with
  | nil => exact ⟨s, rfl, rfl, rfl, stock, by simp⟩
  | cons txid txids ih =>
      obtain ⟨name, named⟩ := List.forall_mem_cons.mp named
      have run := addMissing_returns pkg (pkg.txid (bodies txid)) (bodies txid) s
      have stock' : (final (pkg.puttxn (bodies txid) s)).Stock pkg bodies :=
        ⟨addMissing_knows pkg (by rw [name]) s stock.knows, addMissing_keyed pkg _ _ s stock.keyed⟩
      obtain ⟨t, rest, ledger, control, stock'', more⟩ := ih named stock'
      refine ⟨t, ?_, ledger.trans (addMissing_ledger pkg _ _ s),
        control.trans (transactionReceived_eq pkg _ 0 _ s).2, stock'', fun k given => ?_⟩
      · rw [forM_cons, bind_apply, Packages.puttxn, run]
        exact rest
      · refine more k ?_
        rcases given with given | before
        · rcases List.mem_cons.mp given with rfl | later
          · refine .inr ((mem_addMissing pkg).mpr ?_)
            rw [name]
            exact (em (k ∈ s.mempool)).imp_right fun absent => ⟨absent, rfl⟩
          · exact .inl later
        · exact .inr (addMissing_keeps pkg before)

/-- Where the transactions of a block are in the mempool, its turns return if settling
their bodies does. -/
theorem forM_processTxn_returns {block : List Bytes} {s : Storage} {ledger : Ledger}
    (distinct : block.Nodup) (stock : s.Stock pkg bodies) (held : ∀ txid ∈ block, txid ∈ s.mempool)
    (settles : Ledger.settleBlock pkg bodies block s.toLedger = .ok ⟨⟩ ledger) :
    ∃ t, block.forM pkg.processTxn s = .ok () t ∧ t.toLedger = ledger := by
  induction block generalizing s with
  | nil =>
      cases settles
      exact ⟨s, rfl, rfl⟩
  | cons txid block ih =>
      obtain ⟨notAgain, distinct⟩ := List.nodup_cons.mp distinct
      obtain ⟨here, held⟩ := List.forall_mem_cons.mp held
      rw [Ledger.settleBlock, forM_cons] at settles
      obtain ⟨_, next, first, rest⟩ := bind_ok.mp settles
      obtain ⟨txn, body⟩ := Option.isSome_iff_exists.mp
        (Std.ExtTreeMap.mem_iff_isSome_getElem?.mp here)
      obtain rfl := stock.knows txid txn body
      obtain ⟨middle, first', rfl⟩ :=
        (settleTxn_lockstep pkg (bodies txid)).ok_right rfl first
      obtain ⟨m, turn, same⟩ : ∃ m, pkg.processTxn txid s = .ok () m ∧
          m.toLedger = middle.toLedger := by
        rw [Packages.processTxn, get_bind, body]
        exact ⟨_, bind_ok.mpr ⟨⟨⟩, middle, first', rfl⟩, rfl⟩
      have stock' : (final (pkg.processTxn txid s)).Stock pkg bodies :=
        ⟨(knows_steady bodies).processTxn pkg txid s stock.knows,
          (keyed_steady pkg).processTxn pkg txid s stock.keyed⟩
      rw [turn] at stock'
      have held' : ∀ k ∈ block, k ∈ m.mempool := by
        intro k mem
        have other : k ≠ txid := fun same => notAgain (same ▸ mem)
        obtain ⟨left, -⟩ := processTxn_other pkg turn stock.keyed other
        rw [Std.ExtTreeMap.mem_iff_isSome_getElem?, left]
        exact Std.ExtTreeMap.mem_iff_isSome_getElem?.mp (held k mem)
      obtain ⟨t, run, ledger⟩ := ih distinct stock' held' (same ▸ rest)
      refine ⟨t, ?_, ledger⟩
      rw [forM_cons, bind_apply, turn]
      exact run

/-- With the bodies supplied, a block that is delivered is processed at once. -/
theorem runBlock_enters {block : Block} {s : Storage} {swept : Ledger}
    (names : pkg.Names bodies block) (ready : s.Ready pkg bodies)
    (sweeps : Ledger.sweep pkg s.toLedger = .ok ⟨⟩ swept) :
    ∃ u, pkg.runBlock bodies block s = pkg.processBlock block.txns u ∧
      u.toLedger = { swept with currentTime := block.time } ∧ u.blockQueue = [block] ∧
      u.Stock pkg bodies ∧ ∀ txid ∈ block.txns, txid ∈ u.mempool := by
  obtain ⟨t, delivers, rfl⟩ := (updatePend_lockstep pkg).ok_right rfl sweeps
  have stock : (final (pkg.updatePend s)).Stock pkg bodies :=
    ⟨(knows_steady bodies).updatePend pkg s ready.knows,
      (keyed_steady pkg).updatePend pkg s ready.keyed⟩
  have control := (control_steady s.control).updatePend pkg s rfl
  rw [delivers] at stock control
  let queued : Storage := { t with
    blockQueue := t.blockQueue ++ [block]
    blockLog := t.blockLog ++ [.queued block] }
  have stockQueued : queued.Stock pkg bodies := ⟨stock.knows, stock.keyed⟩
  obtain ⟨v, supplies, ledger, control', stock', held⟩ := puttxn_supplies pkg names stockQueued
  have idle : v.processing = false := by
    rw [show v.processing = t.processing from congrArg Control.processing control',
      show t.processing = s.processing from congrArg Control.processing control]
    exact ready.idle
  have queue : v.blockQueue = [block] := by
    rw [show v.blockQueue = t.blockQueue ++ [block] from congrArg Control.blockQueue control',
      show t.blockQueue = s.blockQueue from congrArg Control.blockQueue control, ready.empty]
    rfl
  have inMempool : ∀ txid ∈ block.txns, txid ∈ v.mempool := fun txid mem => held txid (.inl mem)
  refine ⟨v.take block, ?_, ?_, queue, ⟨stock'.knows, stock'.keyed⟩, inMempool⟩
  · have run : pkg.runBlock bodies block s = pkg.tryProcess v := by
      rw [Packages.runBlock, Packages.addBlockToQueue, bind_apply, bind_apply, delivers]
      change ((block.txns.forM fun txid => pkg.puttxn (bodies txid)) >>= fun _ =>
        pkg.tryProcess) queued = _
      rw [bind_apply, supplies]
    rw [run, pkg.tryProcess_takes idle queue]
    rcases processTaken_cases pkg block v with ⟨-, processes⟩ | ⟨missing, -⟩
    · exact processes
    · refine absurd (List.filter_eq_nil_iff.mpr fun txid mem => ?_) missing
      simpa using inMempool txid mem
  · change { v.toLedger with currentTime := block.time } = _
    rw [ledger]

/-- What is left when the turns of the block have returned. -/
theorem processBlock_ready {block : Block} {u v : Storage} (queue : u.blockQueue = [block])
    (stock : u.Stock pkg bodies)
    (turns : block.txns.forM pkg.processTxn (u.enter block.txns) = .ok () v) :
    ∃ t, pkg.processBlock block.txns u = .ok () t ∧ t.toLedger = v.toLedger ∧
      t.Ready pkg bodies := by
  have knows : (final (block.txns.forM pkg.processTxn (u.enter block.txns))).Knows bodies :=
    Sustains.forM (fun txid _ => (knows_steady bodies).processTxn pkg txid) _ stock.knows
  have keyed : (final (block.txns.forM pkg.processTxn (u.enter block.txns))).Keyed pkg :=
    Sustains.forM (fun txid _ => (keyed_steady pkg).processTxn pkg txid) _ stock.keyed
  rw [turns] at knows keyed
  exact ⟨_, processBlock_of_loop pkg queue turns, rfl, ⟨⟨knows, keyed⟩, rfl, rfl⟩⟩

/-- **A block that is processed is enacted.** -/
theorem runBlock_ok {block : Block} {s t : Storage} (names : pkg.Names bodies block)
    (ready : s.Ready pkg bodies) (run : pkg.runBlock bodies block s = .ok () t) :
    Ledger.enact pkg bodies block s.toLedger = .ok ⟨⟩ t.toLedger ∧ t.Ready pkg bodies ∧
      block.txns.Nodup := by
  obtain ⟨swept, sweeps⟩ : ∃ swept, Ledger.sweep pkg s.toLedger = .ok ⟨⟩ swept := by
    rw [Packages.runBlock] at run
    obtain ⟨_, _, delivers, -⟩ := bind_ok.mp run
    obtain ⟨_, _, updates, -⟩ := bind_ok.mp delivers
    obtain ⟨swept, sweeps, -⟩ := (updatePend_lockstep pkg).ok_left rfl updates
    exact ⟨swept, sweeps⟩
  obtain ⟨u, enters, ledger, queue, stock, -⟩ := runBlock_enters pkg names ready sweeps
  rw [enters] at run
  have settles := processBlock_settles pkg stock.knows run
  rw [ledger] at settles
  have processes := run
  rw [Packages.processBlock, modify_bind] at processes
  obtain ⟨_, v, turns, -⟩ := bind_ok.mp processes
  have distinct : block.txns.Nodup :=
    @forM_processTxn_distinct pkg block.txns (u.enter block.txns) v stock.keyed turns
  obtain ⟨t', run', -, ready'⟩ := processBlock_ready pkg queue stock turns
  rw [run] at run'
  cases run'
  exact ⟨Ledger.enact_ok.mpr ⟨swept, sweeps, settles⟩, ready', distinct⟩

/-- **A block that can be enacted is processed**, if it names no transaction twice. -/
theorem runBlock_returns {block : Block} {s : Storage} {ledger : Ledger}
    (names : pkg.Names bodies block) (distinct : block.txns.Nodup) (ready : s.Ready pkg bodies)
    (enacts : Ledger.enact pkg bodies block s.toLedger = .ok ⟨⟩ ledger) :
    ∃ t, pkg.runBlock bodies block s = .ok () t ∧ t.toLedger = ledger ∧ t.Ready pkg bodies := by
  obtain ⟨swept, sweeps, settles⟩ := Ledger.enact_ok.mp enacts
  obtain ⟨u, enters, same, queue, stock, held⟩ := runBlock_enters pkg names ready sweeps
  have entered : (u.enter block.txns).Stock pkg bodies := ⟨stock.knows, stock.keyed⟩
  rw [← same] at settles
  obtain ⟨v, turns, rfl⟩ := @forM_processTxn_returns pkg bodies block.txns (u.enter block.txns)
    ledger distinct entered held settles
  obtain ⟨t, processes, rfl', ready'⟩ := processBlock_ready pkg queue stock turns
  exact ⟨t, enters.trans processes, rfl', ready'⟩

/-- **Blocks processed one by one are the history.** -/
theorem runBlocks_ok {blocks : List Block} {s t : Storage}
    (names : ∀ block ∈ blocks, pkg.Names bodies block) (ready : s.Ready pkg bodies)
    (run : pkg.runBlocks bodies blocks s = .ok () t) :
    Ledger.history pkg bodies blocks s.toLedger = .ok ⟨⟩ t.toLedger ∧
      ∀ block ∈ blocks, block.txns.Nodup := by
  induction blocks generalizing s with
  | nil =>
      cases run
      exact ⟨rfl, by simp⟩
  | cons block blocks ih =>
      obtain ⟨name, names⟩ := List.forall_mem_cons.mp names
      rw [Packages.runBlocks, forM_cons] at run
      obtain ⟨_, middle, first, rest⟩ := bind_ok.mp run
      obtain ⟨enacts, ready', distinct⟩ := runBlock_ok pkg name ready first
      obtain ⟨goesOn, distincts⟩ := ih names ready' rest
      refine ⟨?_, List.forall_mem_cons.mpr ⟨distinct, distincts⟩⟩
      rw [Ledger.history, forM_cons, bind_ok]
      exact ⟨⟨⟩, middle.toLedger, enacts, goesOn⟩

theorem runBlocks_returns {blocks : List Block} {s : Storage} {ledger : Ledger}
    (names : ∀ block ∈ blocks, pkg.Names bodies block)
    (distinct : ∀ block ∈ blocks, block.txns.Nodup) (ready : s.Ready pkg bodies)
    (run : Ledger.history pkg bodies blocks s.toLedger = .ok ⟨⟩ ledger) :
    ∃ t, pkg.runBlocks bodies blocks s = .ok () t ∧ t.toLedger = ledger := by
  induction blocks generalizing s with
  | nil =>
      cases run
      exact ⟨s, rfl, rfl⟩
  | cons block blocks ih =>
      obtain ⟨name, names⟩ := List.forall_mem_cons.mp names
      obtain ⟨once, distinct⟩ := List.forall_mem_cons.mp distinct
      rw [Ledger.history, forM_cons] at run
      obtain ⟨_, middle, first, rest⟩ := bind_ok.mp run
      obtain ⟨t, runs, rfl, ready'⟩ := runBlock_returns pkg name once ready first
      obtain ⟨u, runs', same⟩ := ih names distinct ready' rest
      refine ⟨u, ?_, same⟩
      rw [Packages.runBlocks, forM_cons, bind_apply, runs]
      exact runs'

end Node

/-! ### Restarts -/

variable {setup : Setup} {bodies : Bodies}

theorem Setup.fresh_ready (setup : Setup) (bodies : Bodies) :
    setup.fresh.Ready setup.toPackages bodies := by
  refine ⟨⟨fun k txn held => ?_, fun k txn held => ?_⟩, rfl, rfl⟩
  · simp [Setup.fresh, Setup.construct] at held
  · simp [Setup.fresh, Setup.construct] at held

/-- The node that starts again over these databases, and is sent the same blocks, ends with
the databases of `s`. -/
def Setup.Recovers (setup : Setup) (bodies : Bodies) (blocks : List Block) (s : Storage)
    (db pend : Store TxnWrapper) (mempool : Store Transaction) : Prop :=
  ∃ t, setup.runBlocks bodies blocks (setup.construct db pend mempool) = .ok () t ∧
    t.db = s.db ∧ t.pend = s.pend

/-- **A restart changes nothing** if the crash fell between two operations, the times of
the blocks up to it do not decrease, and no transaction up to it is premature. The mempool
may have kept any of the bodies. -/
theorem Setup.node_restart (free : setup.CollisionFree) {blocks : List Block} {s : Storage}
    (names : ∀ block ∈ blocks, setup.Names bodies block)
    (run : setup.runBlocks bodies blocks setup.fresh = .ok () s)
    {first rest : List Turn} {reached crashed : Ledger}
    (crash : setup.Crash bodies blocks first rest reached crashed)
    (between : setup.Between bodies rest reached crashed)
    (inOrder : (timesOf first).Pairwise (· ≤ ·))
    (inTime : setup.NonePremature bodies crashed first setup.fresh.toLedger)
    {mempool : Store Transaction}
    (kept : ∀ (k : Bytes) (txn : Transaction), mempool[k]? = some txn →
      txn = bodies k ∧ setup.txid txn = k) :
    setup.Recovers bodies blocks s crashed.db crashed.pend mempool := by
  obtain ⟨once, distinct⟩ := runBlocks_ok setup.toPackages names (setup.fresh_ready bodies) run
  obtain ⟨again, run', db, pend⟩ :=
    setup.history_restart free crash once between inOrder inTime mempool
  have ready : (setup.construct crashed.db crashed.pend mempool).Ready setup.toPackages bodies :=
    ⟨⟨fun k txn held => (kept k txn held).1, fun k txn held => (kept k txn held).2⟩, rfl, rfl⟩
  obtain ⟨t, runs, rfl⟩ := runBlocks_returns setup.toPackages names distinct ready run'
  exact ⟨t, runs, db, pend⟩

/-! ### Two crashes -/

/-- The node after these blocks, and the ledger after these turns. -/
def ranBlocks (blocks : List Block) : Storage :=
  final (Ideal.small.runBlocks paymentBodies blocks Ideal.small.fresh)

def tookTurns (turns : List Turn) : Ledger :=
  final (turns.forM (Ledger.turn Ideal.packages paymentBodies) Ideal.small.fresh.toLedger)

/-- The crash after some of the writes of the next turn. -/
def crashedAt (first rest : List Turn) (n : Nat) : Ledger :=
  (tookTurns first).writeAll Ideal.packages
    ((Ledger.nextWrites Ideal.packages paymentBodies (tookTurns first) rest).flatten.take n)

/-- The node that starts again after it. -/
def restartedAt (first rest : List Turn) (n : Nat) : Storage :=
  Ideal.small.construct (crashedAt first rest n).db (crashedAt first rest n).pend ∅

/-- A payment waits, is swept into `db`, and another spends from it. -/
def payments : List Block := [waitingBlock, emptyBlock, nextBlock]

def sweptTurns : List Turn := turnsOf [waitingBlock, emptyBlock] ++ [.sweep]

theorem node_restart_swept :
    Ideal.small.Recovers paymentBodies payments (ranBlocks payments)
      (crashedAt sweptTurns nextBlock.turns.tail 0).db
      (crashedAt sweptTurns nextBlock.turns.tail 0).pend ∅ :=
  @Setup.node_restart Ideal.small paymentBodies Ideal.ideal_collisionFree payments
    (ranBlocks payments) (by decide +kernel) (eq_ok_of_returned (by decide +kernel)) sweptTurns
    nextBlock.turns.tail (tookTurns sweptTurns) _
    ⟨by decide +kernel, eq_ok_of_returned (by decide +kernel), 0, rfl⟩ ⟨0, .refl _⟩
    (by decide +kernel) (by decide +kernel) ∅ (by simp)

/-- The second payment comes before the first has been swept, and is refused. -/
def refusedPayments : List Block := [waitingBlock, nextBlock, emptyBlock]

/-- **A restart accepts what was refused.** A node that is stopped when all blocks have
been processed, and started again, finds the first payment in `db` when the turn of the
second comes. -/
theorem restart_differs :
    ¬ ∀ (bodies : Bodies) (blocks : List Block) (s : Storage) (first rest : List Turn)
      (reached crashed : Ledger) (mempool : Store Transaction),
      (∀ block ∈ blocks, Ideal.small.Names bodies block) →
      Ideal.small.runBlocks bodies blocks Ideal.small.fresh = .ok () s →
      Ideal.small.Crash bodies blocks first rest reached crashed →
      (∀ (k : Bytes) (txn : Transaction), mempool[k]? = some txn →
        txn = bodies k ∧ Ideal.small.txid txn = k) →
      Ideal.small.Recovers bodies blocks s crashed.db crashed.pend mempool := by
  intro claim
  let turns := turnsOf refusedPayments
  obtain ⟨t, run, db, -⟩ := claim paymentBodies refusedPayments (ranBlocks refusedPayments)
    turns [] (tookTurns turns) (crashedAt turns [] 0) ∅ (by decide +kernel)
    (eq_ok_of_returned (by decide +kernel))
    ⟨by decide +kernel, eq_ok_of_returned (by decide +kernel), 0, rfl⟩ (by simp)
  have accepted : Ideal.packages.txid nextPayment ∈
      (final (Ideal.small.runBlocks paymentBodies refusedPayments (restartedAt turns [] 0))).db := by
    decide +kernel
  have refused : Ideal.packages.txid nextPayment ∉ (ranBlocks refusedPayments).db := by
    decide +kernel
  rw [restartedAt, run, final_ok, db] at accepted
  exact refused accepted

end Belcoin
