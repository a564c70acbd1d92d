import Belcoin.Config

/-!
Transactions and their stored form.

`Input`, `Output` and `Transaction` are the records of the tesseract package
that the node reads; their numbers are unsigned on the wire, so natural numbers
here. The functions of tesseract and ed25519ll that the node calls are the
fields of `Packages`, since neither package is part of the repository. `Setup`
adds the genesis transactions of `config.py`.
-/

namespace Belcoin

abbrev Bytes := List UInt8

structure Input where
  txid : Bytes
  index : Nat
  signature : Bytes := []
  signature2 : Bytes := []
  htlcPreimage : Bytes := []
  htlcSignature : Bytes := []
  deriving DecidableEq, Repr

structure Output where
  amount : Nat
  pubkey : Bytes
  pubkey2 : Bytes
  htlcTimeout : Nat := 0
  htlcHashlock : Bytes := []
  htlcPubkey : Bytes := []
  deriving DecidableEq, Repr

structure Transaction where
  inputs : List Input
  outputs : List Output
  seq : Nat
  timelock : Nat
  deriving DecidableEq, Repr

/-- What an input refers to: an output of an earlier transaction. -/
abbrev Ref := Bytes × Nat

/-- `comparable_input`: an input without its signatures. -/
def Input.ref (inp : Input) : Ref := (inp.txid, inp.index)

def Transaction.refs (txn : Transaction) : List Ref := txn.inputs.map Input.ref

/-- The part of a transaction its id is made of: everything but the fields
that are signed afterwards. -/
structure Body where
  refs : List Ref
  outputs : List Output
  seq : Nat
  timelock : Nat
  deriving DecidableEq, Repr

def Transaction.body (txn : Transaction) : Body :=
  ⟨txn.refs, txn.outputs, txn.seq, txn.timelock⟩

/-- The sum of the output amounts, `spends_coins` in `verify_txn`. -/
def Transaction.spendsCoins (txn : Transaction) : Nat :=
  (txn.outputs.map Output.amount).sum

/-- The signature package. `cryptoSignOpen` is `none` where it raises
`ValueError`. -/
structure Ed25519ll where
  cryptoSign : Bytes → Bytes → Bytes
  cryptoSignOpen : Bytes → Bytes → Option Bytes

/-- `crypto.verify_sig`. -/
def Ed25519ll.verifySig (lib : Ed25519ll) (msg pubKey sig : Bytes) : Bool :=
  match lib.cryptoSignOpen (sig ++ msg) pubKey with
  | none => false
  | some verified => verified == msg

/-- The functions and constants of the packages the node calls. -/
structure Packages extends Ed25519ll where
  txid : Transaction → Bytes
  noHash : Bytes
  sha256 : Bytes → Bytes
  getPubkeys : Output → List Bytes

/-- The packages and the genesis transactions. Every choice of `COINBASE` in
`config.py` builds its transactions with an empty input list. -/
structure Setup extends Packages where
  coinbase : List Transaction
  coinbase_inputs : ∀ gentxn ∈ coinbase, gentxn.inputs = []

/-- What a transaction id promises: it fixes everything but the fields signed
afterwards, and no transaction has the id of the dummy inputs. -/
structure Packages.CollisionFree (pkg : Packages) : Prop where
  body_eq : ∀ {txn txn' : Transaction}, pkg.txid txn = pkg.txid txn' → txn.body = txn'.body
  txid_ne_noHash : ∀ txn : Transaction, pkg.txid txn ≠ pkg.noHash

/-- `TxnWrapper`: a transaction with the time it was accepted at and a bitmap
of its unspent outputs. -/
structure TxnWrapper where
  txn : Transaction
  timestamp : Nat
  utxos : List Bool
  deriving DecidableEq, Repr

/-- `TxnWrapper(tx, ts)`: every output is unspent. -/
def TxnWrapper.new (tx : Transaction) (ts : Nat) : TxnWrapper :=
  ⟨tx, ts, List.replicate tx.outputs.length true⟩

@[simp] theorem TxnWrapper.new_txn (tx : Transaction) (ts : Nat) :
    (TxnWrapper.new tx ts).txn = tx := rfl

@[simp] theorem TxnWrapper.new_timestamp (tx : Transaction) (ts : Nat) :
    (TxnWrapper.new tx ts).timestamp = ts := rfl

/-- `current_time * TIME_MULTIPLIER - timestamp > timelock * TIMELOCK_CONST`,
the test of both `check_pend_replacement` and `update_pend`. -/
def TxnWrapper.TimelockPassed (now : ℚ≥0) (txnw : TxnWrapper) : Prop :=
  elapsed now txnw.timestamp > txnw.txn.timelock * timelockConst

instance (now : ℚ≥0) (txnw : TxnWrapper) : Decidable (txnw.TimelockPassed now) :=
  inferInstanceAs (Decidable (_ > _))

/-- `current_time * TIME_MULTIPLIER - timestamp >= htlc_timeout * TIMEOUT_CONST`. -/
def Output.HtlcTimeoutReached (now : ℚ≥0) (timestamp : Nat) (o : Output) : Prop :=
  elapsed now timestamp ≥ o.htlcTimeout * timeoutConst

instance (now : ℚ≥0) (timestamp : Nat) (o : Output) :
    Decidable (o.HtlcTimeoutReached now timestamp) :=
  inferInstanceAs (Decidable (_ ≥ _))

theorem TxnWrapper.TimelockPassed.mono {now later : ℚ≥0} {txnw : TxnWrapper}
    (passed : txnw.TimelockPassed now) (le : now ≤ later) : txnw.TimelockPassed later :=
  lt_of_lt_of_le passed (elapsed_mono le _)

theorem Output.HtlcTimeoutReached.mono {now later : ℚ≥0} {timestamp : Nat} {o : Output}
    (reached : o.HtlcTimeoutReached now timestamp) (le : now ≤ later) :
    o.HtlcTimeoutReached later timestamp :=
  ge_trans (elapsed_mono le _) reached

end Belcoin
