import Belcoin.Node

/-!
The ledger machine: what a node's operations do to its two ledger databases and
their history, with the mempool, the indexes and the queue left out.

`Ledger.settle` and `Ledger.sweep` are `settleTxn` and `updatePend` seen through
`Storage.toLedger`; `settleTxn_lockstep` and `updatePend_lockstep` prove it, also
for the operations that raise.
-/

namespace Belcoin

open Stateful

/-- An operation on the ledger alone. -/
abbrev LedgerM := EStateM PyError Ledger

/-- Clear the bit of one output. -/
def clearBit (db : Store TxnWrapper) (r : Ref) : Store TxnWrapper :=
  match db[r.1]? with
  | none => db
  | some txnw => db.insert r.1 { txnw with utxos := txnw.utxos.set r.2 false }

/-- The output `r` exists, and so does its bit. -/
def Stored (db : Store TxnWrapper) (r : Ref) : Prop :=
  ∃ txnw, db[r.1]? = some txnw ∧ r.2 < txnw.utxos.length ∧ r.2 < txnw.txn.outputs.length

namespace Ledger

/-- `spendOutput` on the ledger. -/
def spend (inp : Input) : LedgerM Unit := do
  match (← get).db[inp.txid]? with
  | none => throw .keyError
  | some txnw =>
      if inp.index < txnw.utxos.length then
        modify fun ledger => { ledger with db := clearBit ledger.db inp.ref }
        if inp.index < txnw.txn.outputs.length then pure () else throw .indexError
      else throw .indexError

variable (pkg : Packages)

/-- `writeTxnToDb` on the ledger. -/
def writeToDb (txn : Transaction) (ts : Nat) : LedgerM Unit := do
  txn.inputs.forM spend
  modify fun ledger => { ledger with db := ledger.db.insert (pkg.txid txn) (.new txn ts) }

/-- `writeTxnToPend` on the ledger. -/
def writeToPend (txn : Transaction) (ts : Nat) : LedgerM Unit := do
  modify fun ledger => { ledger with pend := ledger.pend.insert (pkg.txid txn) (.new txn ts) }
  txn.inputs.forM spend

/-- A line of the history. -/
def log (event : Event) : LedgerM Unit :=
  modify fun ledger => { ledger with trace := ledger.trace ++ [event] }

/-- Delete a transaction from `pend`. -/
def unpend (tx : Transaction) : LedgerM Unit :=
  modify fun ledger => { ledger with pend := ledger.pend.erase (pkg.txid tx) }

/-- `verifyTxn` on the ledger. -/
def verify (txn : Transaction) (checkPend : Bool) : LedgerM Bool := do
  match pkg.decideTxn (← get) txn checkPend with
  | .error e => throw e
  | .ok .stored => pure false
  | .ok .invalid => pure false
  | .ok (.valid check) =>
      match checkPend, check with
      | true, some (.replaces tx) =>
          unpend pkg tx
          log (.replaced tx txn)
          pure true
      | _, _ => pure true

/-- `settleTxn` on the ledger. -/
def settle (txn : Transaction) : LedgerM Unit := do
  let now := (← get).currentTime
  if ← verify pkg txn true then
    log (.accepted txn now)
    if txn.timelock ≠ 0 then writeToPend pkg txn (toTimestamp now)
    else writeToDb pkg txn (toTimestamp now)

/-- `updatePendTxn` on the ledger. -/
def expire (txnw : TxnWrapper) : LedgerM Unit := do
  let now := (← get).currentTime
  if txnw.TimelockPassed now then
    unpend pkg txnw.txn
    if ← verify pkg txnw.txn false then
      writeToDb pkg txnw.txn txnw.timestamp
      log (.committed txnw.txn now)
    else log (.dropped txnw.txn now)

/-- `updatePend` on the ledger. -/
def sweep : LedgerM Unit := do
  let snapshot := (← get).pend.toList
  snapshot.forM fun entry => expire pkg entry.2

end Ledger

/-! ### The operations of a node, seen through its ledger -/

/-- `s` holds the ledger `ledger`. -/
abbrev Holds (s : Storage) (ledger : Ledger) : Prop := s.toLedger = ledger

/-- An operation that leaves the ledger alone. -/
abbrev Silent (op : M Unit) : Prop := Lockstep Holds op (pure ⟨⟩)

variable (pkg : Packages)

theorem silent_modify {f : Storage → Storage} (kept : ∀ s, (f s).toLedger = s.toLedger) :
    Silent (modify f) :=
  lockstep_modify_left fun s _ holds => (kept s).trans holds

theorem note_lockstep (event : Event) : Lockstep Holds (note event) (Ledger.log event) :=
  lockstep_modify fun s _ holds => by subst holds; rfl

theorem delFromPending_lockstep (tx : Transaction) :
    Lockstep Holds (pkg.delFromPending tx) (Ledger.unpend pkg tx) := by
  have silent : ∀ outputs : List (Output × Nat),
      Silent (outputs.forM fun entry => modify fun s => { s with
        pubOutsPend := delOutFromBalanceIndex (pkg.getPubkeys entry.1)
          (pkg.txid tx, entry.2) s.pubOutsPend }) := by
    intro outputs
    induction outputs with
    | nil => exact lockstep_pure _
    | cons entry rest ih =>
        rw [forM_cons]
        exact .bind_silent (silent_modify fun _ => rfl) ih
  intro s ledger holds
  subst holds
  exact silent _ _ _ rfl

theorem spendOutput_lockstep (inp : Input) :
    Lockstep Holds (pkg.spendOutput inp) (Ledger.spend inp) := by
  intro s ledger holds
  subst holds
  simp only [Packages.spendOutput, getItem, Ledger.spend, bind_apply, get_apply]
  cases held : s.db[inp.txid]? with
  | none => exact .error rfl
  | some txnw =>
      simp only [pure_apply]
      by_cases inRange : inp.index < txnw.utxos.length
      · have cleared : s.db.insert inp.txid { txnw with utxos := txnw.utxos.set inp.index false } =
            clearBit s.db inp.ref := by simp only [clearBit, Input.ref, held]
        simp only [inRange, if_true, bind_apply, setItem, modify_apply, cleared]
        cases out : txnw.txn.outputs[inp.index]? with
        | none =>
            rw [if_neg (Nat.not_lt.mpr (List.getElem?_eq_none_iff.mp out))]
            exact .error rfl
        | some o =>
            rw [if_pos (List.getElem?_eq_some_iff.mp out).1]
            exact .ok rfl
      · simp only [inRange, if_false, throw_apply]
        exact .error rfl

theorem writeTxnToDb_lockstep (txn : Transaction) (ts : Nat) :
    Lockstep Holds (pkg.writeTxnToDb txn ts) (Ledger.writeToDb pkg txn ts) := by
  refine (Lockstep.forM fun inp _ => spendOutput_lockstep pkg inp).bind fun _ => ?_
  intro s ledger holds
  subst holds
  exact .ok rfl

theorem writeTxnToPend_lockstep (txn : Transaction) (ts : Nat) :
    Lockstep Holds (pkg.writeTxnToPend txn ts) (Ledger.writeToPend pkg txn ts) := by
  refine Lockstep.bind (lockstep_modify fun s _ holds => by subst holds; rfl) fun _ => ?_
  exact .bind_silent (silent_modify fun _ => rfl)
    (Lockstep.forM fun inp _ => spendOutput_lockstep pkg inp)

theorem verifyTxn_lockstep (txn : Transaction) (checkPend : Bool) :
    Lockstep Holds (pkg.verifyTxn txn checkPend) (Ledger.verify pkg txn checkPend) := by
  intro s ledger holds
  subst holds
  simp only [Packages.verifyTxn, Ledger.verify, bind_apply, get_apply]
  cases decided : pkg.decideTxn s.toLedger txn checkPend with
  | error e => exact .error rfl
  | ok decision =>
      cases decision with
      | stored => exact .ok rfl
      | invalid => exact .ok rfl
      | valid check =>
          cases checkPend with
          | false => exact .ok rfl
          | true =>
              rcases check with _ | (_ | _ | tx)
              · exact .ok rfl
              · exact .ok rfl
              · exact .ok rfl
              · exact ((delFromPending_lockstep pkg tx).bind fun _ =>
                  (note_lockstep (.replaced tx txn)).bind fun _ => lockstep_pure true) s _ rfl

/-- **`settleTxn` is `Ledger.settle` on the ledger of the node.** -/
theorem settleTxn_lockstep (txn : Transaction) :
    Lockstep Holds (pkg.settleTxn txn) (Ledger.settle pkg txn) := by
  intro s ledger holds
  subst holds
  refine ((verifyTxn_lockstep pkg txn true).bind fun verified => ?_) s _ rfl
  cases verified with
  | false => exact lockstep_pure _
  | true =>
      refine (note_lockstep _).bind fun _ => ?_
      by_cases locked : txn.timelock ≠ 0
      · rw [if_pos locked, if_pos locked]
        exact writeTxnToPend_lockstep pkg txn _
      · rw [if_neg locked, if_neg locked]
        exact writeTxnToDb_lockstep pkg txn _

/-- A transaction whose timelock has not passed stays as it is. -/
theorem updatePendTxn_waiting {txnw : TxnWrapper} {s : Storage}
    (waiting : ¬ txnw.TimelockPassed s.currentTime) : pkg.updatePendTxn txnw s = .ok ⟨⟩ s := by
  rw [Packages.updatePendTxn, get_bind]
  exact if_neg waiting ▸ rfl

theorem Ledger.expire_waiting {txnw : TxnWrapper} {ledger : Ledger}
    (waiting : ¬ txnw.TimelockPassed ledger.currentTime) :
    Ledger.expire pkg txnw ledger = .ok ⟨⟩ ledger := by
  rw [Ledger.expire, get_bind]
  exact if_neg waiting ▸ rfl

/-- What `expire` does once the timelock has passed. -/
def Ledger.settleExpired (txnw : TxnWrapper) (now : ℚ≥0) : LedgerM Unit := do
  Ledger.unpend pkg txnw.txn
  if ← Ledger.verify pkg txnw.txn false then
    Ledger.writeToDb pkg txnw.txn txnw.timestamp
    Ledger.log (.committed txnw.txn now)
  else Ledger.log (.dropped txnw.txn now)

theorem Ledger.expire_passed {txnw : TxnWrapper} {ledger : Ledger}
    (passed : txnw.TimelockPassed ledger.currentTime) :
    Ledger.expire pkg txnw ledger =
      Ledger.settleExpired pkg txnw ledger.currentTime ledger := by
  rw [Ledger.expire, get_bind]
  exact if_pos passed ▸ rfl

theorem updatePendTxn_lockstep (txnw : TxnWrapper) :
    Lockstep Holds (pkg.updatePendTxn txnw) (Ledger.expire pkg txnw) := by
  intro s ledger holds
  subst holds
  by_cases passed : txnw.TimelockPassed s.currentTime
  · rw [Ledger.expire_passed pkg passed, Packages.updatePendTxn, get_bind, if_pos passed]
    refine ((delFromPending_lockstep pkg txnw.txn).bind fun _ =>
      (verifyTxn_lockstep pkg txnw.txn false).bind fun verified => ?_) s _ rfl
    cases verified with
    | false => exact note_lockstep _
    | true => exact (writeTxnToDb_lockstep pkg txnw.txn _).bind fun _ => note_lockstep _
  · rw [Ledger.expire_waiting pkg passed, updatePendTxn_waiting pkg passed]
    exact .ok rfl

/-- **`updatePend` is `Ledger.sweep` on the ledger of the node.** -/
theorem updatePend_lockstep : Lockstep Holds pkg.updatePend (Ledger.sweep pkg) := by
  intro s ledger holds
  subst holds
  exact (Lockstep.forM fun entry _ => updatePendTxn_lockstep pkg entry.2) s _ rfl

end Belcoin
