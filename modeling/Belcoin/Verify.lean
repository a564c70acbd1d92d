import Std.Data.ExtTreeMap
import Mathlib.Data.Finset.Dedup
import Belcoin.Transaction

/-!
The checks of `Storage.verify_txn`.

Verification reads two of the node's databases and the time of the block at
hand; `Ledger` is that part of the state. The checks themselves change nothing:
`decideTxn` runs them in the order of the source and says which exit was taken.
`Belcoin.Storage` attaches to each exit what the source does there.
-/

namespace Belcoin

/-- A LevelDB database: a map whose iteration runs in the order of its keys.
Values are kept as objects; `unserialize` undoes `serialize`. -/
abbrev Store (V : Type) := Std.ExtTreeMap Bytes V compare

/-- A deletion adds nothing. -/
theorem getElem?_of_erase {V : Type} {db : Store V} {key k : Bytes} {v : V}
    (held : (db.erase key)[k]? = some v) : db[k]? = some v := by
  rw [Std.ExtTreeMap.getElem?_erase] at held
  split at held
  · cases held
  · exact held

/-- Ways a Python operation of the node raises. -/
inductive PyError where
  | keyError
  | indexError
  | unboundLocalError
  | invalidTransactionError
  | attributeError
  deriving DecidableEq, Repr

/-- What happened to a transaction, in the order it happened. The source prints
these lines when `VERBOSE` is set. -/
inductive Event where
  /-- `verify_txn` passed in `process_block`, at this block time. -/
  | accepted (txn : Transaction) (time : ℚ≥0)
  /-- A transaction in `pend` was deleted for one that replaces it. -/
  | replaced (old new : Transaction)
  /-- `update_pend` wrote a transaction to `db`, at this time. -/
  | committed (txn : Transaction) (time : ℚ≥0)
  /-- `update_pend` removed a transaction that no longer verifies. -/
  | dropped (txn : Transaction) (time : ℚ≥0)
  deriving DecidableEq

/-- What verification reads, with the history of its verdicts. -/
structure Ledger where
  db : Store TxnWrapper
  pend : Store TxnWrapper
  currentTime : ℚ≥0
  trace : List Event

/-- The result of `check_pend_replacement`. -/
inductive PendCheck where
  /-- `(True, False)`: no transaction in `pend` has these inputs. -/
  | unmatched
  /-- `(False, True)`: one has, and may not be replaced. -/
  | refused
  /-- `(True, True, tx)`: `tx` has, and may be replaced. -/
  | replaces (tx : Transaction)
  deriving DecidableEq, Repr

/-- The comparison of the two sets of `comparable_input`s. -/
def SameInputs (tx txn : Transaction) : Prop := tx.refs.toFinset = txn.refs.toFinset

instance (tx txn : Transaction) : Decidable (SameInputs tx txn) :=
  inferInstanceAs (Decidable (_ = _))

/-- `check_pend_replacement`: the first transaction in `pend` with the same
inputs decides. -/
def Ledger.checkPendReplacement (ledger : Ledger) (txn : Transaction) : PendCheck :=
  match ledger.pend.toList.find? fun entry => decide (SameInputs entry.2.txn txn) with
  | none => .unmatched
  | some (_, txnw) =>
      if txnw.TimelockPassed ledger.currentTime then .refused
      else if txn.seq ≤ txnw.txn.seq then .refused
      else .replaces txnw.txn

/-- The signature checks of one input, against the output it refers to and the
timestamp of that output's transaction. -/
def Packages.checkSignatures (pkg : Packages) (now : ℚ≥0) (txid : Bytes) (timestamp : Nat)
    (o : Output) (inp : Input) : Bool :=
  if o.HtlcTimeoutReached now timestamp then
    pkg.verifySig txid o.pubkey inp.signature && pkg.verifySig txid o.pubkey2 inp.signature2
  else
    pkg.sha256 inp.htlcPreimage == o.htlcHashlock &&
      pkg.verifySig txid o.htlcPubkey inp.htlcSignature

/-- Where the input loop of `verify_txn` leaves: at one of its
`remove_invalid_txn_from_mempool(txid); return False` exits, or at its end, with
the running total and the last value bound to `check`, if any. -/
inductive InputScan where
  | invalid
  | passed (hasCoins : Nat) (check : Option PendCheck)

/-- The input loop of `verify_txn`. -/
def Packages.scanInputs (pkg : Packages) (ledger : Ledger) (txn : Transaction)
    (checkPend : Bool) : List Input → Nat → Option PendCheck → Except PyError InputScan
  | [], hasCoins, check => .ok (.passed hasCoins check)
  | inp :: rest, hasCoins, check =>
      if inp.txid = pkg.noHash then
        -- skip dummy inputs
        pkg.scanInputs ledger txn checkPend rest hasCoins check
      else
        match ledger.db[inp.txid]? with
        -- `KeyError`: an unknown input, or one that is still locked in `pend`
        | none => .ok .invalid
        | some outputTxnw =>
            match outputTxnw.txn.outputs[inp.index]? with
            -- `IndexError`: input index out of bounds
            | none => .ok .invalid
            | some spentOutput =>
                if pkg.checkSignatures ledger.currentTime (pkg.txid txn) outputTxnw.timestamp
                    spentOutput inp then
                  if checkPend then
                    match ledger.checkPendReplacement txn with
                    | .refused => .ok .invalid
                    | .replaces tx =>
                        -- the outputs were set to spent for the transaction to be replaced
                        pkg.scanInputs ledger txn checkPend rest
                          (hasCoins + spentOutput.amount) (some (.replaces tx))
                    | .unmatched =>
                        match outputTxnw.utxos[inp.index]? with
                        | none => .error .indexError
                        | some false => .ok .invalid
                        | some true =>
                            pkg.scanInputs ledger txn checkPend rest
                              (hasCoins + spentOutput.amount) (some .unmatched)
                  else
                    pkg.scanInputs ledger txn checkPend rest
                      (hasCoins + spentOutput.amount) check
                else .ok .invalid

/-- The exits of `verify_txn`. -/
inductive Decision where
  /-- The transaction is already stored. -/
  | stored
  /-- A check failed. -/
  | invalid
  /-- Every check passed; `check` is what the loop left in `check`. -/
  | valid (check : Option PendCheck)

/-- The checks of `verify_txn`. The source reads `check[0]` at its end, when
`check_pend` is set: the name is unbound if the loop met no real input. -/
def Packages.decideTxn (pkg : Packages) (ledger : Ledger) (txn : Transaction)
    (checkPend : Bool) : Except PyError Decision :=
  if pkg.txid txn ∈ ledger.db then .ok .stored
  else
    match pkg.scanInputs ledger txn checkPend txn.inputs 0 none with
    | .error e => .error e
    | .ok .invalid => .ok .invalid
    | .ok (.passed hasCoins check) =>
        if hasCoins = txn.spendsCoins then
          if checkPend && check.isNone then .error .unboundLocalError
          else .ok (.valid check)
        else .ok .invalid

end Belcoin
