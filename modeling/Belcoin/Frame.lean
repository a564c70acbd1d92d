import Belcoin.Storage
import Belcoin.Lib.Stateful

/-!
What settling transactions leaves alone.

Accepting a transaction changes the ledger and the indexes, and nothing else of a
node (`Apart`). Verification, the two writes and `update_pend` moreover note
invalid transactions and take transactions out of the mempool; a property that
none of this can break is `Steady`, and it survives all of them, also where they
raise.
-/

namespace Belcoin

open Stateful

/-- A property of nodes that the ledger and the indexes do not touch. -/
structure Apart (I : Storage → Prop) : Prop where
  ledger : ∀ s ledger, I s → I { s with toLedger := ledger }
  pubOuts : ∀ s index, I s → I { s with pubOuts := index }
  pubOutsPend : ∀ s index, I s → I { s with pubOutsPend := index }

/-- A property that, besides, the list of invalid transactions and removals from
the mempool do not touch. -/
structure Steady (I : Storage → Prop) : Prop extends Apart I where
  invalidTxns : ∀ s txids, I s → I { s with invalidTxns := txids }
  removal : ∀ s txid, I s → I { s with
    mempool := s.mempool.erase txid
    mempoolList := s.mempoolList.erase txid }

variable (pkg : Packages) {I : Storage → Prop}

namespace Apart

theorem note (apart : Apart I) (event : Event) : Sustains I (Belcoin.note event) :=
  sustains_modify fun s held => apart.ledger s _ held

theorem delFromPending (apart : Apart I) (tx : Transaction) :
    Sustains I (pkg.delFromPending tx) := by
  refine Sustains.bind (sustains_modify fun s held => apart.ledger s _ held) fun _ => ?_
  exact Sustains.forM fun entry _ => sustains_modify fun s held => apart.pubOutsPend s _ held

theorem spendOutput (apart : Apart I) (inp : Input) : Sustains I (pkg.spendOutput inp) := by
  refine Sustains.bind (Sustains.get_bind fun s => ?_) fun outputTxnw => ?_
  · cases s.db[inp.txid]? with
    | none => exact sustains_throw I _
    | some txnw => exact sustains_pure I _
  · by_cases inRange : inp.index < outputTxnw.utxos.length
    · rw [if_pos inRange]
      refine Sustains.bind (sustains_modify fun s held => apart.ledger s _ held) fun _ => ?_
      cases outputTxnw.txn.outputs[inp.index]? with
      | none => exact sustains_throw I _
      | some o => exact sustains_modify fun s held => apart.pubOuts s _ held
    · rw [if_neg inRange]
      exact sustains_throw I _

theorem writeTxnToDb (apart : Apart I) (txn : Transaction) (ts : Nat) :
    Sustains I (pkg.writeTxnToDb txn ts) :=
  (Sustains.forM fun inp _ => apart.spendOutput pkg inp).bind fun _ =>
    Sustains.bind (sustains_modify fun s held => apart.ledger s _ held) fun _ =>
      sustains_modify fun s held => apart.pubOuts s _ held

theorem writeTxnToPend (apart : Apart I) (txn : Transaction) (ts : Nat) :
    Sustains I (pkg.writeTxnToPend txn ts) :=
  Sustains.bind (sustains_modify fun s held => apart.ledger s _ held) fun _ =>
    Sustains.bind (sustains_modify fun s held => apart.pubOutsPend s _ held) fun _ =>
      Sustains.forM fun inp _ => apart.spendOutput pkg inp

end Apart

namespace Steady

theorem removeFromMempool (steady : Steady I) (txid : Bytes) :
    Sustains I (Belcoin.removeFromMempool txid) :=
  sustains_modify fun s held => steady.removal s txid held

theorem verifyTxn (steady : Steady I) (txn : Transaction) (checkPend : Bool) :
    Sustains I (pkg.verifyTxn txn checkPend) := by
  refine Sustains.get_bind fun s => ?_
  have dropped : Sustains I (removeInvalidTxnFromMempool (pkg.txid txn)) :=
    Sustains.bind (sustains_modify fun s held => steady.invalidTxns s _ held) fun _ =>
      steady.removeFromMempool _
  cases pkg.decideTxn s.toLedger txn checkPend with
  | error e => exact sustains_throw I e
  | ok decision =>
      cases decision with
      | stored => exact (steady.removeFromMempool _).bind fun _ => sustains_pure I _
      | invalid => exact dropped.bind fun _ => sustains_pure I _
      | valid check =>
          match checkPend, check with
          | false, _ => exact sustains_pure I _
          | true, none => exact sustains_pure I _
          | true, some .unmatched => exact sustains_pure I _
          | true, some .refused => exact sustains_pure I _
          | true, some (.replaces tx) =>
              exact (steady.toApart.delFromPending pkg tx).bind fun _ =>
                (steady.toApart.note _).bind fun _ => sustains_pure I _

theorem settleTxn (steady : Steady I) (txn : Transaction) : Sustains I (pkg.settleTxn txn) := by
  refine Sustains.get_bind fun s => (steady.verifyTxn pkg txn true).bind fun verified => ?_
  cases verified with
  | false => exact sustains_pure I _
  | true =>
      refine (steady.toApart.note _).bind fun _ => ?_
      by_cases locked : txn.timelock ≠ 0
      · rw [if_pos locked]
        exact steady.toApart.writeTxnToPend pkg txn _
      · rw [if_neg locked]
        exact steady.toApart.writeTxnToDb pkg txn _

/-- A whole turn of the loop of `process_block`. -/
theorem processTxn (steady : Steady I) (txid : Bytes) : Sustains I (pkg.processTxn txid) := by
  refine Sustains.get_bind fun s => ?_
  cases s.mempool[txid]? with
  | none => exact sustains_throw I _
  | some txn => exact (steady.settleTxn pkg txn).bind fun _ => steady.removeFromMempool txid

theorem updatePendTxn (steady : Steady I) (txnw : TxnWrapper) :
    Sustains I (pkg.updatePendTxn txnw) := by
  refine Sustains.get_bind fun s => ?_
  by_cases passed : txnw.TimelockPassed s.currentTime
  · rw [if_pos passed]
    refine (steady.toApart.delFromPending pkg txnw.txn).bind fun _ =>
      (steady.verifyTxn pkg txnw.txn false).bind fun verified => ?_
    cases verified with
    | false => exact steady.toApart.note _
    | true => exact (steady.toApart.writeTxnToDb pkg txnw.txn _).bind fun _ => steady.toApart.note _
  · rw [if_neg passed]
    exact sustains_pure I _

/-- **`update_pend` keeps what is steady.** -/
theorem updatePend (steady : Steady I) : Sustains I pkg.updatePend :=
  Sustains.get_bind fun _ => Sustains.forM fun entry _ => steady.updatePendTxn pkg entry.2

end Steady

end Belcoin
