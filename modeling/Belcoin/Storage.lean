import Mathlib.Data.Finset.Basic
import Belcoin.Verify

/-!
The state of a node and the part of `Storage` that settles transactions:
verification with its effects, the two databases, the balance indexes, the
mempool, `process_block` and `update_pend`.

An operation is a computation over `Storage` that may raise a Python exception
and then keeps the state it had reached, as the source does.
-/

namespace Belcoin

/-- A block: a time and a list of transaction ids. -/
structure Block where
  time : ℚ≥0
  txns : List Bytes
  deriving DecidableEq

/-- `pub_outs` and `pub_outs_pend`: the outputs of each public key. -/
abbrev Index := Std.ExtTreeMap Bytes (Finset Ref) compare

/-- The life of a block at a node: it was put into the queue, `process_block` was
entered for a list of ids, and `process_block` deleted a block from the queue after
examining such a list. -/
inductive BlockEvent where
  | queued (block : Block)
  | entered (txns : List Bytes)
  | deleted (examined : List Bytes) (block : Block)
  deriving DecidableEq

/-- A node. `requests` are the `req_txn` calls in flight, each with its txid and
retry counter, `commandsQueue` the proposals handed to Raft; `trace` and
`blockLog` record what happened and are read by no operation. -/
structure Storage extends Ledger where
  mempool : Store Transaction
  mempoolList : List Bytes
  pubOuts : Index
  pubOutsPend : Index
  invalidTxns : List Bytes
  blockQueue : List Block
  currentBlock : List Bytes
  missingTxns : List Bytes
  processing : Bool
  processingBlock : Bool
  addingBlock : Bool
  testing : Bool
  missedCounter : Nat
  tickctr : Nat
  requests : List (Bytes × Nat)
  commandsQueue : List Block
  blockLog : List BlockEvent

/-- An operation of a node. -/
abbrev M := EStateM PyError Storage

/-! ### Balance indexes -/

/-- `index[p].add(out)`, or a new entry. -/
def Index.add (index : Index) (p : Bytes) (out : Ref) : Index :=
  index.insert p (insert out (index[p]?.getD ∅))

/-- `index[p].remove(out)`; a missing key or output is passed over. -/
def Index.remove (index : Index) (p : Bytes) (out : Ref) : Index :=
  match index[p]? with
  | none => index
  | some outs => index.insert p (outs.erase out)

/-- `add_txn_to_balance_index`. -/
def Packages.addTxnToBalanceIndex (pkg : Packages) (txn : Transaction) (index : Index) : Index :=
  txn.outputs.zipIdx.foldl (fun index entry =>
    (pkg.getPubkeys entry.1).foldl (fun index p => index.add p (pkg.txid txn, entry.2)) index) index

/-- `del_out_from_balance_index`. -/
def delOutFromBalanceIndex (pubkeys : List Bytes) (out : Ref) (index : Index) : Index :=
  pubkeys.foldl (fun index p => index.remove p out) index

/-! ### Databases and mempool -/

/-- `self[key]`. -/
def getItem (key : Bytes) : M TxnWrapper := do
  match (← get).db[key]? with
  | none => throw .keyError
  | some txnw => pure txnw

/-- `self[key] = txnw`. -/
def setItem (key : Bytes) (txnw : TxnWrapper) : M Unit :=
  modify fun s => { s with db := s.db.insert key txnw }

/-- A line of the history. -/
def note (event : Event) : M Unit :=
  modify fun s => { s with trace := s.trace ++ [event] }

/-- `add_to_mempool`. -/
def Packages.addToMempool (pkg : Packages) (txn : Transaction) : M Unit :=
  modify fun s => { s with
    mempool := s.mempool.insert (pkg.txid txn) txn
    mempoolList := s.mempoolList ++ [pkg.txid txn] }

/-- `remove_from_mempool`: the list loses its first occurrence, if it has one. -/
def removeFromMempool (txid : Bytes) : M Unit :=
  modify fun s => { s with
    mempool := s.mempool.erase txid
    mempoolList := s.mempoolList.erase txid }

/-- `remove_invalid_txn_from_mempool`. -/
def removeInvalidTxnFromMempool (txid : Bytes) : M Unit := do
  modify fun s => { s with invalidTxns := s.invalidTxns ++ [txid] }
  removeFromMempool txid

/-- `del_from_pending`. -/
def Packages.delFromPending (pkg : Packages) (tx : Transaction) : M Unit := do
  modify fun s => { s with pend := s.pend.erase (pkg.txid tx) }
  tx.outputs.zipIdx.forM fun entry => modify fun s => { s with
    pubOutsPend := delOutFromBalanceIndex (pkg.getPubkeys entry.1) (pkg.txid tx, entry.2)
      s.pubOutsPend }

/-! ### Settling transactions -/

variable (pkg : Packages)

/-- `verify_txn`: the checks, and what the source does at each exit. -/
def Packages.verifyTxn (txn : Transaction) (checkPend : Bool) : M Bool := do
  match pkg.decideTxn (← get).toLedger txn checkPend with
  | .error e => throw e
  | .ok .stored =>
      removeFromMempool (pkg.txid txn)
      pure false
  | .ok .invalid =>
      removeInvalidTxnFromMempool (pkg.txid txn)
      pure false
  | .ok (.valid check) =>
      match checkPend, check with
      | true, some (.replaces tx) =>
          pkg.delFromPending tx
          note (.replaced tx txn)
          pure true
      | _, _ => pure true

/-- The body of the two loops that set the outputs an accepted transaction
refers to to spent, in `process_block` and in `write_txn_to_db`. -/
def Packages.spendOutput (inp : Input) : M Unit := do
  let outputTxnw ← getItem inp.txid
  if inp.index < outputTxnw.utxos.length then
    setItem inp.txid { outputTxnw with utxos := outputTxnw.utxos.set inp.index false }
    match outputTxnw.txn.outputs[inp.index]? with
    | none => throw .indexError
    | some o => modify fun s => { s with
        pubOuts := delOutFromBalanceIndex (pkg.getPubkeys o) inp.ref s.pubOuts }
  else throw .indexError

/-- `write_txn_to_db`. -/
def Packages.writeTxnToDb (txn : Transaction) (ts : Nat) : M Unit := do
  txn.inputs.forM pkg.spendOutput
  setItem (pkg.txid txn) (.new txn ts)
  modify fun s => { s with pubOuts := pkg.addTxnToBalanceIndex txn s.pubOuts }

/-- Put an accepted transaction with a timelock into `pend`. -/
def Packages.writeTxnToPend (txn : Transaction) (ts : Nat) : M Unit := do
  modify fun s => { s with pend := s.pend.insert (pkg.txid txn) (.new txn ts) }
  modify fun s => { s with pubOutsPend := pkg.addTxnToBalanceIndex txn s.pubOutsPend }
  txn.inputs.forM pkg.spendOutput

/-- Verify one transaction of a block and write it to `pend` or `db`. -/
def Packages.settleTxn (txn : Transaction) : M Unit := do
  let now := (← get).currentTime
  if ← pkg.verifyTxn txn true then
    note (.accepted txn now)
    if txn.timelock ≠ 0 then pkg.writeTxnToPend txn (toTimestamp now)
    else pkg.writeTxnToDb txn (toTimestamp now)

/-- The loop body of `process_block`. The source tests the transaction for
`None` a second time, after the raise; that branch is dead. -/
def Packages.processTxn (txid : Bytes) : M Unit := do
  match (← get).mempool[txid]? with
  | none => throw .invalidTransactionError
  | some txn =>
      pkg.settleTxn txn
      removeFromMempool txid

/-- The end of `process_block`: `del self.block_queue[0]`, and the flags. -/
def finishBlock (block : List Bytes) : M Unit := do
  match (← get).blockQueue with
  | [] => throw .indexError
  | head :: _ => modify fun s => { s with
      blockQueue := s.blockQueue.tail
      currentBlock := []
      processing := false
      processingBlock := false
      blockLog := s.blockLog ++ [.deleted block head] }

/-- `process_block`. -/
def Packages.processBlock (block : List Bytes) : M Unit := do
  modify fun s => { s with
    processingBlock := true
    blockLog := s.blockLog ++ [.entered block] }
  block.forM pkg.processTxn
  finishBlock block

/-- The loop body of `update_pend`. -/
def Packages.updatePendTxn (txnw : TxnWrapper) : M Unit := do
  let now := (← get).currentTime
  if txnw.TimelockPassed now then
    pkg.delFromPending txnw.txn
    if ← pkg.verifyTxn txnw.txn false then
      pkg.writeTxnToDb txnw.txn txnw.timestamp
      note (.committed txnw.txn now)
    else
      note (.dropped txnw.txn now)

/-- `update_pend`: the loop runs over a snapshot of `pend`, in the order of its
keys. -/
def Packages.updatePend : M Unit := do
  let snapshot := (← get).pend.toList
  snapshot.forM fun entry => pkg.updatePendTxn entry.2

/-! ### Construction -/

/-- `Storage.__init__` over databases that may have survived an earlier run:
genesis transactions that are not stored yet are written, and the two indexes
are built from all the outputs stored. -/
def Setup.construct (setup : Setup) (db pend : Store TxnWrapper)
    (mempool : Store Transaction) : Storage :=
  let db := setup.coinbase.foldl (fun db gentxn =>
    if setup.txid gentxn ∈ db then db else db.insert (setup.txid gentxn) (.new gentxn 0)) db
  { db, pend, currentTime := 0, trace := [], mempool, mempoolList := []
    pubOuts := db.toList.foldl (fun index entry =>
      setup.addTxnToBalanceIndex entry.2.txn index) ∅
    pubOutsPend := pend.toList.foldl (fun index entry =>
      setup.addTxnToBalanceIndex entry.2.txn index) ∅
    invalidTxns := [], blockQueue := [], currentBlock := [], missingTxns := []
    processing := false, processingBlock := false, addingBlock := false, testing := false
    missedCounter := 0, tickctr := 0, requests := [], commandsQueue := [], blockLog := [] }

/-- A freshly initialised node: all its databases are new. -/
def Setup.fresh (setup : Setup) : Storage := setup.construct ∅ ∅ ∅

end Belcoin
