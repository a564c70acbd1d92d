import Belcoin.Storage
import Belcoin.Lib.Machine
import Belcoin.Lib.Stateful

/-!
A node as a state machine: delivery of committed blocks, the polling of
`try_process`, transactions from clients and peers, and the requests for missing
transactions with their answers.

Each action is one step. For what the Twisted reactor runs, one callback at a time,
this is so; deliveries run in the thread of `SyncObj`, and that they do not overlap
with the reactor is an assumption. A request in flight is an element of
`Storage.requests`; an action `answer` takes one of them out and runs the callbacks
that `req_txn` attached to it.
-/

namespace Belcoin

/-- How a `req_txn` call ends: with the transaction, with 0 (not found), with
`None` (shown invalid on the other node) or with an error. -/
inductive Reply where
  | transaction (txn : Transaction)
  | notFound
  | shownInvalid
  | failure
  deriving DecidableEq, Repr

variable (pkg : Packages)

/-! ### Missing transactions -/

/-- The ids of a block that the mempool does not hold. -/
def Storage.missingOf (s : Storage) (block : List Bytes) : List Bytes :=
  block.filter fun txid => decide (txid ∉ s.mempool)

/-- `reactor.callFromThread(self.req_txn, txnid, i)`: `req_txn` counts the try. -/
def reqTxn (txnid : Bytes) (i : Nat) : M Unit :=
  modify fun s => { s with requests := s.requests ++ [(txnid, i + 1)] }

/-- `missing_txns.remove(txid)`, if it is there. -/
def removeMissing (txid : Bytes) : M Unit :=
  modify fun s => { s with missingTxns := s.missingTxns.erase txid }

/-- `request_missing_transaction`: every fifth try looks into the mempool
first. -/
def Packages.requestMissingTransaction (txnid : Bytes) (i : Nat) : M Unit := do
  if i % 5 = 0 ∧ txnid ∈ (← get).mempool then
    removeMissing txnid
    let s ← get
    if s.missingTxns = [] ∧ s.processingBlock = false then
      pkg.processBlock s.currentBlock
    else reqTxn txnid i
  else reqTxn txnid i

/-- The loop of `request_missing_transactions` from position `idx` on. Its body
may shorten the list it runs over, so the list is read again at each position;
`fuel` bounds the positions left. -/
def Packages.requestMissingFrom : Nat → Nat → M Unit
  | 0, _ => pure ()
  | fuel + 1, idx => do
      match (← get).missingTxns[idx]? with
      | none => pure ()
      | some txnid =>
          pkg.requestMissingTransaction txnid 0
          Packages.requestMissingFrom fuel (idx + 1)

/-- `request_missing_transactions`. -/
def Packages.requestMissingTransactions : M Unit := do
  pkg.requestMissingFrom (← get).missingTxns.length 0

/-- `find_missing_transactions`. -/
def Packages.findMissingTransactions (block : List Bytes) : M Unit := do
  modify fun s => { s with missingTxns := s.missingOf block }
  if (← get).missingTxns ≠ [] then pkg.requestMissingTransactions
  else pkg.processBlock block

/-- `if self.mempool[txid] is None: self.add_to_mempool(tx)`: the first body seen
under an id is kept. -/
def Packages.addMissing (txid : Bytes) (tx : Transaction) : M Unit := do
  if txid ∉ (← get).mempool then pkg.addToMempool tx

/-- `transaction_received`. -/
def Packages.transactionReceived (reply : Reply) (i : Nat) (txid : Bytes) : M Unit := do
  match reply with
  | .failure => pure ()
  | .notFound => pkg.requestMissingTransaction txid i
  | .shownInvalid =>
      -- `add_to_mempool(None)` raises
      if txid ∉ (← get).mempool then throw .attributeError
      received txid
  | .transaction tx =>
      pkg.addMissing txid tx
      received txid
where
  received (txid : Bytes) : M Unit := do
    removeMissing txid
    let s ← get
    if s.missingTxns = [] ∧ s.processingBlock = false then
      pkg.processBlock s.currentBlock

/-- `transaction_receive_error`. -/
def Packages.transactionReceiveError (i : Nat) (txid : Bytes) : M Unit :=
  pkg.requestMissingTransaction txid i

/-- What an answer to a `req_txn` call runs first: the errback for an error, the
callback otherwise. -/
def Packages.requestAnswered (reply : Reply) (i : Nat) (txid : Bytes) : M Unit :=
  match reply with
  | .failure => pkg.transactionReceiveError i txid
  | reply => pkg.transactionReceived reply i txid

/-- All an answer runs: a callback that raises is followed by the errback. -/
def Packages.requestChain (reply : Reply) (i : Nat) (txid : Bytes) : M Unit :=
  match reply with
  | .failure => pkg.transactionReceiveError i txid
  | reply => tryCatch (pkg.transactionReceived reply i txid) fun _ =>
      pkg.transactionReceiveError i txid

/-! ### The other entry points -/

/-- `try_process` takes a block: its time becomes the time of the node. -/
def Storage.take (s : Storage) (block : Block) : Storage :=
  { s with
    currentTime := block.time
    currentBlock := block.txns
    processing := true
    addingBlock := false
    missingTxns := s.missingOf block.txns }

/-- The rest of `try_process`: process the block that was taken, or back off a
number of times and then request what is missing. -/
def Packages.processTaken (block : Block) : M Unit := do
  if (← get).missingTxns ≠ [] then
    modify fun s => { s with missedCounter := s.missedCounter + 1 }
    if (← get).missedCounter > backoffAmount then
      modify fun s => { s with missedCounter := 0 }
      pkg.findMissingTransactions block.txns
    else modify fun s => { s with processing := false }
  else pkg.processBlock block.txns

/-- `try_process`. -/
def Packages.tryProcess : M Unit := do
  let s ← get
  if s.processing then pure ()
  else
    match s.blockQueue with
    | [] => pure ()
    | block :: _ =>
        modify fun s => s.take block
        pkg.processTaken block

theorem Packages.tryProcess_waits {s : Storage}
    (waits : s.processing = true ∨ s.blockQueue = []) : pkg.tryProcess s = .ok () s := by
  rw [tryProcess, Stateful.get_bind]
  by_cases busy : s.processing = true
  · rw [if_pos busy]
    rfl
  · rw [if_neg busy, waits.resolve_left busy]
    rfl

theorem Packages.tryProcess_takes {s : Storage} {block : Block} {rest : List Block}
    (idle : s.processing = false) (queue : s.blockQueue = block :: rest) :
    pkg.tryProcess s = pkg.processTaken block (s.take block) := by
  rw [tryProcess, Stateful.get_bind, if_neg (by simp [idle]), queue]
  rfl

/-- `add_block_to_queue`, as Raft applies it. -/
def Packages.addBlockToQueue (block : Block) : M Unit := do
  pkg.updatePend
  modify fun s => { s with
    blockQueue := s.blockQueue ++ [block]
    blockLog := s.blockLog ++ [.queued block] }

/-- `jsonrpc_puttxn`. -/
def Packages.puttxn (tx : Transaction) : M Unit :=
  pkg.addMissing (pkg.txid tx) tx

/-- `send_block`. The clock is read twice, for the comparison and for the
value. -/
def sendBlock (clock again : ℚ≥0) : M Unit := do
  let s ← get
  let txs := s.mempoolList.take blockSize
  let now := if clock > s.currentTime then again else s.currentTime
  if txs.toFinset ∩ s.currentBlock.toFinset = ∅ then
    modify fun s => { s with commandsQueue := s.commandsQueue ++ [⟨now, txs⟩] }

/-- The part of a leader's `_onTick` that proposes blocks. -/
def leaderTick (clock again : ℚ≥0) : M Unit := do
  modify fun s => { s with tickctr := s.tickctr + 1 }
  let s ← get
  if (s.tickctr ≥ blockTimeout ∧ s.mempoolList.length > 0) ∨ s.mempoolList.length ≥ blockSize then
    if !s.processing && !s.addingBlock && !s.testing then
      modify fun s => { s with addingBlock := true }
      sendBlock clock again
      modify fun s => { s with tickctr := 0 }

/-! ### The machine -/

/-- What can happen at a node between two states. -/
inductive Action where
  /-- Raft applies a committed block. -/
  | deliver (block : Block)
  /-- The looping call fires. -/
  | tryProcess
  /-- A client or a peer submits a transaction. -/
  | puttxn (tx : Transaction)
  /-- The `n`th request in flight ends. -/
  | answer (n : Nat) (reply : Reply)
  /-- `update_pend` on its own, as the tests call it. -/
  | updatePend
  deriving DecidableEq

/-- Take the `n`th request in flight and pass it on to its callbacks. -/
def withRequest (n : Nat) (callbacks : Nat → Bytes → M Unit) : M Unit := do
  match (← get).requests[n]? with
  | none => pure ()
  | some (txid, i) =>
      modify fun s => { s with requests := s.requests.eraseIdx n }
      callbacks i txid

theorem withRequest_none {n : Nat} {callbacks : Nat → Bytes → M Unit} {s : Storage}
    (ended : s.requests[n]? = none) : withRequest n callbacks s = .ok () s := by
  rw [withRequest, Stateful.get_bind, ended]
  rfl

theorem withRequest_some {n : Nat} {callbacks : Nat → Bytes → M Unit} {s : Storage}
    {entry : Bytes × Nat} (flying : s.requests[n]? = some entry) :
    withRequest n callbacks s =
      callbacks entry.2 entry.1 { s with requests := s.requests.eraseIdx n } := by
  rw [withRequest, Stateful.get_bind, flying]
  rfl

/-- The operation an action runs. -/
def Packages.perform : Action → M Unit
  | .deliver block => pkg.addBlockToQueue block
  | .tryProcess => pkg.tryProcess
  | .puttxn tx => pkg.puttxn tx
  | .answer n reply => withRequest n (pkg.requestAnswered reply)
  | .updatePend => pkg.updatePend

/-- What an action runs in all, the errback of a callback that raised
included. -/
def Packages.exec : Action → M Unit
  | .answer n reply => withRequest n (pkg.requestChain reply)
  | action => pkg.perform action

/-- The runs of a node in which no operation raises. -/
def Setup.node (setup : Setup) : Machine Storage Action where
  start s := s = setup.fresh
  step s a t := setup.perform a s = .ok () t

/-- All runs of a node: an operation that raises leaves the state it reached. -/
def Setup.faultyNode (setup : Setup) : Machine Storage Action where
  start s := s = setup.fresh
  step s a t := Stateful.final (setup.exec a s) = t

/-- A callback that returns is not followed by the errback. -/
theorem Packages.exec_of_perform {pkg : Packages} {a : Action} {s t : Storage}
    (run : pkg.perform a s = .ok () t) : pkg.exec a s = .ok () t := by
  cases a with
  | answer n reply =>
      rw [perform] at run
      rw [exec]
      cases request : s.requests[n]? with
      | none =>
          rw [withRequest_none request] at run ⊢
          exact run
      | some entry =>
          rw [withRequest_some request] at run ⊢
          cases reply <;> simp only [requestAnswered] at run <;>
            simp [requestChain, Stateful.tryCatch_apply, run]
  | _ => exact run

/-- The runs in which nothing raises are among all runs. -/
theorem Setup.faulty_of_node {setup : Setup} {s : Storage} (reached : setup.node.Reachable s) :
    setup.faultyNode.Reachable s := by
  induction reached with
  | start fresh => exact .start fresh
  | step _ run ih =>
      have same := congrArg Stateful.final (Packages.exec_of_perform run)
      exact .step ih same

/-- Run actions one after the other while they meet `C`, up to the first that
raises. -/
def Setup.replay (setup : Setup) (C : Storage → Action → Prop) [∀ s a, Decidable (C s a)] :
    List Action → Storage → Storage
  | [], s => s
  | a :: as, s =>
      if C s a then
        match setup.perform a s with
        | .ok _ t => setup.replay C as t
        | .error _ _ => s
      else s

/-- Run actions one after the other, whether they raise or not. -/
def Setup.replayFaulty (setup : Setup) (C : Storage → Action → Prop) [∀ s a, Decidable (C s a)] :
    List Action → Storage → Storage
  | [], s => s
  | a :: as, s =>
      if C s a then setup.replayFaulty C as (Stateful.final (setup.exec a s)) else s

section Replay

variable {setup : Setup} {C : Storage → Action → Prop} [∀ s a, Decidable (C s a)]

theorem Setup.reachable_replay {s : Storage} (reached : (setup.node.restrict C).Reachable s)
    (as : List Action) : (setup.node.restrict C).Reachable (setup.replay C as s) := by
  induction as generalizing s with
  | nil => exact reached
  | cons a as ih =>
      rw [replay]
      split
      · rename_i meets
        cases step : setup.perform a s with
        | error e t => exact reached
        | ok _ t => exact ih (.step reached ⟨meets, step⟩)
      · exact reached

theorem Setup.reachable_replayFaulty {s : Storage}
    (reached : (setup.faultyNode.restrict C).Reachable s) (as : List Action) :
    (setup.faultyNode.restrict C).Reachable (setup.replayFaulty C as s) := by
  induction as generalizing s with
  | nil => exact reached
  | cons a as ih =>
      rw [replayFaulty]
      split
      · rename_i meets
        exact ih (.step reached ⟨meets, rfl⟩)
      · exact reached

end Replay

/-- The state a node is in after these actions. -/
def Setup.after (setup : Setup) (as : List Action) : Storage :=
  setup.replay (fun _ _ => True) as setup.fresh

theorem Setup.reachable_after (setup : Setup) (as : List Action) :
    setup.node.Reachable (setup.after as) :=
  (setup.reachable_replay (.start rfl) as).of_restrict

end Belcoin
