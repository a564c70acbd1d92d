import Belcoin.Ledger.Bits

/-!
What one ledger operation can do.

* `Verifies` says in one place what `verify_txn` checks; `decideTxn_valid` proves
  that the loops of the source check exactly this.
* `settle_ok` and `settleExpired_ok` list the outcomes of settling a transaction
  and of expiring an entry of `pend`. Every invariant of the ledger is derived
  from these two.
-/

namespace Belcoin

open Stateful

/-! ### Spending -/

namespace Ledger

theorem spend_ok {inp : Input} {ledger ledger' : Ledger} :
    spend inp ledger = .ok ⟨⟩ ledger' ↔
      Stored ledger.db inp.ref ∧ ledger' = { ledger with db := clearBit ledger.db inp.ref } := by
  simp only [spend, get_bind, Stored, Input.ref]
  cases held : ledger.db[inp.txid]? with
  | none => simp
  | some txnw =>
      by_cases inBits : inp.index < txnw.utxos.length
      · by_cases inOutputs : inp.index < txnw.txn.outputs.length
        · simp [inBits, inOutputs, eq_comm]
        · simp [inBits, inOutputs]
      · simp [inBits]

/-- A spend clears one bit, or does nothing. -/
theorem final_spend (inp : Input) (ledger : Ledger) :
    final (spend inp ledger) = ledger ∨
      final (spend inp ledger) = { ledger with db := clearBit ledger.db inp.ref } := by
  rw [spend, get_bind]
  cases ledger.db[inp.txid]? with
  | none => exact .inl rfl
  | some txnw =>
      by_cases inBits : inp.index < txnw.utxos.length
      · right
        simp only [inBits, if_true, modify_bind]
        by_cases inOutputs : inp.index < txnw.txn.outputs.length
        · rw [if_pos inOutputs]
          rfl
        · rw [if_neg inOutputs]
          rfl
      · left
        simp only [inBits, if_false]
        rfl

/-- A loop of spends returns exactly when every output named is stored. -/
theorem forM_spend_ok {inputs : List Input} {ledger ledger' : Ledger} :
    inputs.forM spend ledger = .ok ⟨⟩ ledger' ↔
      (∀ inp ∈ inputs, Stored ledger.db inp.ref) ∧
        ledger' = { ledger with db := clearBits ledger.db (inputs.map Input.ref) } := by
  induction inputs generalizing ledger with
  | nil => simp [clearBits, eq_comm]
  | cons inp rest ih =>
      rw [forM_cons, bind_ok]
      constructor
      · rintro ⟨_, middle, first, others⟩
        obtain ⟨stored, rfl⟩ := spend_ok.mp first
        obtain ⟨storedRest, rfl⟩ := ih.mp others
        exact ⟨List.forall_mem_cons.mpr
          ⟨stored, fun inp' mem => (stored_clearBit _ _ _).mp (storedRest inp' mem)⟩, rfl⟩
      · rintro ⟨stored, rfl⟩
        obtain ⟨first, others⟩ := List.forall_mem_cons.mp stored
        exact ⟨⟨⟩, _, spend_ok.mpr ⟨first, rfl⟩,
          ih.mpr ⟨fun inp' mem => (stored_clearBit _ _ _).mpr (others inp' mem), rfl⟩⟩

variable (pkg : Packages)

/-- The ledger after `txn` is written to `db`. -/
def stored (ledger : Ledger) (txn : Transaction) (ts : Nat) : Ledger :=
  { ledger with db := (clearBits ledger.db txn.refs).insert (pkg.txid txn) (.new txn ts) }

/-- The ledger after `txn` is put into `pend`. -/
def reserved (ledger : Ledger) (txn : Transaction) (ts : Nat) : Ledger :=
  { ledger with
    db := clearBits ledger.db txn.refs
    pend := ledger.pend.insert (pkg.txid txn) (.new txn ts) }

theorem writeToDb_ok {txn : Transaction} {ts : Nat} {ledger ledger' : Ledger} :
    writeToDb pkg txn ts ledger = .ok ⟨⟩ ledger' ↔
      (∀ inp ∈ txn.inputs, Stored ledger.db inp.ref) ∧ ledger' = ledger.stored pkg txn ts := by
  rw [writeToDb, bind_ok]
  constructor
  · rintro ⟨_, middle, spends, writes⟩
    obtain ⟨stored, rfl⟩ := forM_spend_ok.mp spends
    cases writes
    exact ⟨stored, rfl⟩
  · rintro ⟨stored, rfl⟩
    exact ⟨⟨⟩, _, forM_spend_ok.mpr ⟨stored, rfl⟩, rfl⟩

theorem writeToPend_ok {txn : Transaction} {ts : Nat} {ledger ledger' : Ledger} :
    writeToPend pkg txn ts ledger = .ok ⟨⟩ ledger' ↔
      (∀ inp ∈ txn.inputs, Stored ledger.db inp.ref) ∧ ledger' = ledger.reserved pkg txn ts := by
  rw [writeToPend, modify_bind]
  exact forM_spend_ok

end Ledger

/-! ### Verification -/

variable (pkg : Packages)

/-- The inputs that are not dummies. -/
def Packages.realInputs (txn : Transaction) : List Input :=
  txn.inputs.filter fun inp => decide (inp.txid ≠ pkg.noHash)

theorem Packages.mem_realInputs {txn : Transaction} {inp : Input} :
    inp ∈ pkg.realInputs txn ↔ inp ∈ txn.inputs ∧ inp.txid ≠ pkg.noHash := by
  simp [Packages.realInputs]

/-- The input points at a stored output and passes the signature checks of the
branch that is in force at this time. -/
def Packages.Authorised (db : Store TxnWrapper) (now : ℚ≥0) (txn : Transaction)
    (inp : Input) : Prop :=
  ∃ entry o, record db inp.txid = some entry ∧ entry.1.outputs[inp.index]? = some o ∧
    pkg.checkSignatures now (pkg.txid txn) entry.2 o inp = true

/-- What the loop of `verify_txn` asks of one real input. -/
structure Packages.InputPasses (ledger : Ledger) (txn : Transaction) (checkPend : Bool)
    (inp : Input) : Prop where
  authorised : pkg.Authorised ledger.db ledger.currentTime txn inp
  notRefused : checkPend = true → ledger.checkPendReplacement txn ≠ .refused
  unspent : checkPend = true → ledger.checkPendReplacement txn = .unmatched →
    bit ledger.db inp.ref = some true

/-- The value of `has_coins` after the loop: what the real inputs refer to, each
counted as often as it is named. -/
def Packages.hasCoins (db : Store TxnWrapper) (txn : Transaction) : Nat :=
  ((pkg.realInputs txn).map fun inp => amountAt db inp.ref).sum

/-- What `verify_txn` checks. -/
structure Packages.Verifies (ledger : Ledger) (txn : Transaction) (checkPend : Bool) : Prop where
  fresh : pkg.txid txn ∉ ledger.db
  inputs : ∀ inp ∈ pkg.realInputs txn, pkg.InputPasses ledger txn checkPend inp
  balanced : pkg.hasCoins ledger.db txn = txn.spendsCoins

/-- The value of `check` after the loop over `inputs`. -/
def Ledger.checkAfter (ledger : Ledger) (txn : Transaction) (checkPend : Bool)
    (inputs : List Input) (check : Option PendCheck) : Option PendCheck :=
  if checkPend = true ∧ inputs ≠ [] then some (ledger.checkPendReplacement txn) else check

theorem Ledger.checkAfter_empty (ledger : Ledger) (txn : Transaction) (checkPend : Bool)
    (check : Option PendCheck) : ledger.checkAfter txn checkPend [] check = check := by
  simp [checkAfter]

theorem Ledger.checkAfter_real (ledger : Ledger) {txn : Transaction} {inputs : List Input}
    (real : inputs ≠ []) {check : Option PendCheck} :
    ledger.checkAfter txn true inputs check = some (ledger.checkPendReplacement txn) := by
  simp [checkAfter, real]

/-- One real input of the loop: it passes and the loop goes on, or the loop does
not get to its end. -/
theorem Packages.scanInputs_cons {ledger : Ledger} {txn : Transaction} {checkPend : Bool}
    {inp : Input} {rest : List Input} {coins n : Nat} {check check' : Option PendCheck}
    (real : inp.txid ≠ pkg.noHash) :
    pkg.scanInputs ledger txn checkPend (inp :: rest) coins check = .ok (.passed n check') ↔
      pkg.InputPasses ledger txn checkPend inp ∧
        pkg.scanInputs ledger txn checkPend rest (coins + amountAt ledger.db inp.ref)
          (ledger.checkAfter txn checkPend [inp] check) = .ok (.passed n check') := by
  rw [scanInputs, if_neg real]
  cases held : ledger.db[inp.txid]? with
  | none =>
      simp only [reduceCtorEq, Except.ok.injEq, false_iff, not_and]
      rintro ⟨⟨entry, o, recorded, -⟩, -⟩
      simp [record, held] at recorded
  | some txnw =>
      have recorded : record ledger.db inp.txid = some (txnw.txn, txnw.timestamp) := by
        simp [record, held]
      have amount : ∀ o, txnw.txn.outputs[inp.index]? = some o →
          amountAt ledger.db inp.ref = o.amount := by
        intro o out
        simp [amountAt, outputAt, Input.ref, held, out]
      have bitAt : bit ledger.db inp.ref = txnw.utxos[inp.index]? := by
        simp [bit, Input.ref, held]
      cases out : txnw.txn.outputs[inp.index]? with
      | none =>
          simp only [out, reduceCtorEq, Except.ok.injEq, false_iff, not_and]
          rintro ⟨⟨entry, o, recorded', out', -⟩, -⟩
          rw [recorded] at recorded'
          cases recorded'
          simp [out] at out'
      | some o =>
          have authorised : pkg.Authorised ledger.db ledger.currentTime txn inp ↔
              pkg.checkSignatures ledger.currentTime (pkg.txid txn) txnw.timestamp o inp = true := by
            constructor
            · rintro ⟨entry, o', recorded', out', signed⟩
              rw [recorded] at recorded'
              cases recorded'
              rw [out] at out'
              cases out'
              exact signed
            · exact fun signed => ⟨_, o, recorded, out, signed⟩
          rw [amount o out]
          simp only [out]
          by_cases signed : pkg.checkSignatures ledger.currentTime (pkg.txid txn)
              txnw.timestamp o inp = true
          · simp only [signed, if_true]
            cases checkPend with
            | false =>
                simp only [Bool.false_eq_true, if_false, Ledger.checkAfter, false_and]
                exact ⟨fun rest => ⟨⟨authorised.mpr signed, by simp, by simp⟩, rest⟩, And.right⟩
            | true =>
                simp only [if_true, Ledger.checkAfter, true_and, ne_eq, not_false_eq_true,
                  List.cons_ne_self]
                cases checked : ledger.checkPendReplacement txn with
                | refused =>
                    simp only [reduceCtorEq, Except.ok.injEq, false_iff, not_and]
                    exact fun passes => absurd checked (passes.notRefused rfl)
                | replaces tx =>
                    refine ⟨fun rest => ⟨⟨authorised.mpr signed, ?_, ?_⟩, rest⟩, And.right⟩ <;>
                      simp [checked]
                | unmatched =>
                    cases bitIs : txnw.utxos[inp.index]? with
                    | none =>
                        simp only [reduceCtorEq, false_iff, not_and]
                        intro passes
                        have := passes.unspent rfl checked
                        simp [bitAt, bitIs] at this
                    | some unspent =>
                        cases unspent with
                        | false =>
                            simp only [reduceCtorEq, Except.ok.injEq, false_iff, not_and]
                            intro passes
                            have := passes.unspent rfl checked
                            simp [bitAt, bitIs] at this
                        | true =>
                            simp only
                            refine ⟨fun rest => ⟨⟨authorised.mpr signed, ?_, ?_⟩, rest⟩,
                              And.right⟩ <;> simp [checked, bitAt, bitIs]
          · simp only [signed, Bool.false_eq_true, if_false, reduceCtorEq, Except.ok.injEq,
              false_iff, not_and]
            exact fun passes => absurd (authorised.mp passes.authorised) signed

/-- **The input loop.** It gets to its end exactly when every real input passes;
the total is then the sum of their amounts, and `check` is bound if there was a
real input. -/
theorem Packages.scanInputs_passed {ledger : Ledger} {txn : Transaction} {checkPend : Bool}
    {inputs : List Input} {coins n : Nat} {check check' : Option PendCheck} :
    pkg.scanInputs ledger txn checkPend inputs coins check = .ok (.passed n check') ↔
      (∀ inp ∈ inputs.filter fun inp => decide (inp.txid ≠ pkg.noHash),
        pkg.InputPasses ledger txn checkPend inp) ∧
      n = coins + ((inputs.filter fun inp => decide (inp.txid ≠ pkg.noHash)).map fun inp =>
        amountAt ledger.db inp.ref).sum ∧
      check' = ledger.checkAfter txn checkPend
        (inputs.filter fun inp => decide (inp.txid ≠ pkg.noHash)) check := by
  induction inputs generalizing coins check with
  | nil => simp [scanInputs, Ledger.checkAfter, eq_comm]
  | cons inp rest ih =>
      by_cases real : inp.txid ≠ pkg.noHash
      · rw [pkg.scanInputs_cons real, ih, List.filter_cons_of_pos (by simpa using real)]
        have after : ledger.checkAfter txn checkPend
            (rest.filter fun inp => decide (inp.txid ≠ pkg.noHash))
              (ledger.checkAfter txn checkPend [inp] check) =
            ledger.checkAfter txn checkPend
              (inp :: rest.filter fun inp => decide (inp.txid ≠ pkg.noHash)) check := by
          unfold Ledger.checkAfter
          by_cases active : checkPend = true <;> simp [active]
        rw [after, List.forall_mem_cons, List.map_cons, List.sum_cons, and_assoc, Nat.add_assoc]
      · have dummy : inp.txid = pkg.noHash := not_not.mp real
        rw [scanInputs, if_pos dummy, ih, List.filter_cons_of_neg (by simpa using dummy)]

/-- The loop over all inputs of a transaction. -/
theorem Packages.scanTxn_passed {ledger : Ledger} {txn : Transaction} {checkPend : Bool}
    {n : Nat} {check : Option PendCheck} :
    pkg.scanInputs ledger txn checkPend txn.inputs 0 none = .ok (.passed n check) ↔
      (∀ inp ∈ pkg.realInputs txn, pkg.InputPasses ledger txn checkPend inp) ∧
        n = pkg.hasCoins ledger.db txn ∧
        check = ledger.checkAfter txn checkPend (pkg.realInputs txn) none := by
  rw [pkg.scanInputs_passed, Nat.zero_add]
  rfl

/-- `verify_txn` gets to its last line exactly when the transaction verifies, and
there `check` must be bound. -/
theorem Packages.decideTxn_valid {ledger : Ledger} {txn : Transaction} {checkPend : Bool}
    {check : Option PendCheck} :
    pkg.decideTxn ledger txn checkPend = .ok (.valid check) ↔
      pkg.Verifies ledger txn checkPend ∧ (checkPend = true → pkg.realInputs txn ≠ []) ∧
        check = ledger.checkAfter txn checkPend (pkg.realInputs txn) none := by
  unfold decideTxn
  by_cases stored : pkg.txid txn ∈ ledger.db
  · rw [if_pos stored]
    simp only [Except.ok.injEq, reduceCtorEq, false_iff, not_and]
    exact fun verifies => absurd stored verifies.fresh
  · rw [if_neg stored]
    have complete : pkg.Verifies ledger txn checkPend →
        pkg.scanInputs ledger txn checkPend txn.inputs 0 none = .ok (.passed _ _) :=
      fun verifies => pkg.scanTxn_passed.mpr ⟨verifies.inputs, rfl, rfl⟩
    cases scan : pkg.scanInputs ledger txn checkPend txn.inputs 0 none with
    | error e =>
        simp only [reduceCtorEq, false_iff, not_and]
        intro verifies
        simp [scan] at complete
        exact absurd verifies complete
    | ok result =>
        cases result with
        | invalid =>
            simp only [Except.ok.injEq, reduceCtorEq, false_iff, not_and]
            intro verifies
            simp [scan] at complete
            exact absurd verifies complete
        | passed coins check' =>
            obtain ⟨inputs, rfl, rfl⟩ := pkg.scanTxn_passed.mp scan
            by_cases balanced : pkg.hasCoins ledger.db txn = txn.spendsCoins
            · have verifies : pkg.Verifies ledger txn checkPend := ⟨stored, inputs, balanced⟩
              simp only [balanced, if_true, verifies, true_and]
              cases checkPend with
              | false => simpa using eq_comm
              | true =>
                  by_cases empty : pkg.realInputs txn = []
                  · simp [ledger.checkAfter_empty, empty]
                  · rw [ledger.checkAfter_real empty]
                    simpa [empty] using eq_comm
            · simp only [balanced, if_false, Except.ok.injEq, reduceCtorEq, false_iff, not_and]
              exact fun verifies => absurd verifies.balanced balanced

/-- The bitmaps in a database are as long as the output lists. -/
def BitmapsFit (db : Store TxnWrapper) : Prop :=
  ∀ (k : Bytes) (txnw : TxnWrapper), db[k]? = some txnw → txnw.utxos.length = txnw.txn.outputs.length

/-- With bitmaps that fit, the input loop never indexes out of bounds; without
`check_pend` it does not look at them. -/
theorem Packages.scanInputs_ne_error {ledger : Ledger} {checkPend : Bool}
    (fit : checkPend = true → BitmapsFit ledger.db) {txn : Transaction} {inputs : List Input} {coins : Nat}
    {check : Option PendCheck} {e : PyError} :
    pkg.scanInputs ledger txn checkPend inputs coins check ≠ .error e := by
  induction inputs generalizing coins check with
  | nil => simp [scanInputs]
  | cons inp rest ih =>
      rw [scanInputs]
      split
      · exact ih
      · split
        · simp
        · rename_i txnw held
          split
          · simp
          · rename_i o out
            split
            · split
              · rename_i active
                have inBits : inp.index < txnw.utxos.length := by
                  rw [fit active _ _ held]
                  exact (List.getElem?_eq_some_iff.mp out).1
                split
                · simp
                · exact ih
                · split
                  · rename_i noBit
                    exact absurd inBits (Nat.not_lt.mpr (List.getElem?_eq_none_iff.mp noBit))
                  · simp
                  · exact ih
              · exact ih
            · simp

/-- **When `verify_txn` raises.** The transaction is new, its outputs sum to
nothing, and it has no real input, so `check` was never bound. -/
theorem Packages.decideTxn_error {ledger : Ledger} {checkPend : Bool}
    (fit : checkPend = true → BitmapsFit ledger.db) {txn : Transaction} {e : PyError} :
    pkg.decideTxn ledger txn checkPend = .error e ↔
      checkPend = true ∧ pkg.txid txn ∉ ledger.db ∧ pkg.realInputs txn = [] ∧
        txn.spendsCoins = 0 ∧ e = .unboundLocalError := by
  unfold decideTxn
  by_cases stored : pkg.txid txn ∈ ledger.db
  · simp [stored]
  · rw [if_neg stored]
    cases scan : pkg.scanInputs ledger txn checkPend txn.inputs 0 none with
    | error e' => exact absurd scan (pkg.scanInputs_ne_error fit)
    | ok result =>
        cases result with
        | invalid =>
            simp only [reduceCtorEq, false_iff, not_and]
            intro _ _ empty _ _
            have passed : pkg.scanInputs ledger txn checkPend txn.inputs 0 none =
                .ok (.passed _ _) := pkg.scanTxn_passed.mpr ⟨by simp [empty], rfl, rfl⟩
            rw [scan] at passed
            cases passed
        | passed coins check' =>
            obtain ⟨-, rfl, rfl⟩ := pkg.scanTxn_passed.mp scan
            cases checkPend with
            | false =>
                by_cases balanced : pkg.hasCoins ledger.db txn = txn.spendsCoins <;>
                  simp [balanced]
            | true =>
                by_cases empty : pkg.realInputs txn = []
                · rw [empty, ledger.checkAfter_empty]
                  have noCoins : pkg.hasCoins ledger.db txn = 0 := by
                    simp [Packages.hasCoins, empty]
                  by_cases zero : txn.spendsCoins = 0
                  · simpa [noCoins, zero, stored] using eq_comm
                  · simp [noCoins, zero, Ne.symm zero]
                · rw [ledger.checkAfter_real empty]
                  by_cases balanced : pkg.hasCoins ledger.db txn = txn.spendsCoins <;>
                    simp [empty, balanced]

/-! ### Settling -/

/-- `process_block` accepts the transaction: `verify_txn` returns true. -/
structure Packages.Accepts (ledger : Ledger) (txn : Transaction) : Prop
    extends pkg.Verifies ledger txn true where
  real : pkg.realInputs txn ≠ []

/-- `verify_txn` returns false. -/
def Packages.Rejects (ledger : Ledger) (txn : Transaction) (checkPend : Bool) : Prop :=
  pkg.decideTxn ledger txn checkPend = .ok .stored ∨ pkg.decideTxn ledger txn checkPend = .ok .invalid

theorem Packages.decideTxn_accepts {ledger : Ledger} {txn : Transaction}
    {check : Option PendCheck} :
    pkg.decideTxn ledger txn true = .ok (.valid check) ↔
      pkg.Accepts ledger txn ∧ check = some (ledger.checkPendReplacement txn) := by
  rw [pkg.decideTxn_valid]
  constructor
  · rintro ⟨verifies, real, rfl⟩
    exact ⟨⟨verifies, real rfl⟩, ledger.checkAfter_real (real rfl)⟩
  · rintro ⟨accepts, rfl⟩
    exact ⟨accepts.toVerifies, fun _ => accepts.real, (ledger.checkAfter_real accepts.real).symm⟩

theorem Packages.Rejects.not_accepts {pkg : Packages} {ledger : Ledger} {txn : Transaction}
    (rejects : pkg.Rejects ledger txn true) : ¬ pkg.Accepts ledger txn := by
  intro accepts
  have decided := pkg.decideTxn_accepts.mpr ⟨accepts, rfl⟩
  rcases rejects with rejected | rejected
  · rw [decided] at rejected
    cases rejected
  · rw [decided] at rejected
    cases rejected

/-- Without `check_pend` verification passes or rejects; it never raises. -/
theorem Packages.decideTxn_false (ledger : Ledger) (txn : Transaction) :
    pkg.decideTxn ledger txn false = .ok (.valid none) ∧ pkg.Verifies ledger txn false ∨
      pkg.Rejects ledger txn false ∧ ¬ pkg.Verifies ledger txn false := by
  have passes : pkg.Verifies ledger txn false → pkg.decideTxn ledger txn false = .ok (.valid none) :=
    fun verifies => pkg.decideTxn_valid.mpr ⟨verifies, by simp, by simp [Ledger.checkAfter]⟩
  cases decided : pkg.decideTxn ledger txn false with
  | error e => simpa using (pkg.decideTxn_error (by simp)).mp decided
  | ok decision =>
      cases decision with
      | valid check =>
          obtain ⟨verifies, -, rfl⟩ := pkg.decideTxn_valid.mp decided
          exact .inl ⟨by simp [Ledger.checkAfter], verifies⟩
      | stored => exact .inr ⟨.inl decided, fun verifies => by simp [decided] at passes; contradiction⟩
      | invalid => exact .inr ⟨.inr decided, fun verifies => by simp [decided] at passes; contradiction⟩

/-- What `verify_txn` reads for a transaction is the same in two ledgers. -/
structure Packages.SeenAlike (ledger ledger' : Ledger) (txn : Transaction) (checkPend : Bool) :
    Prop where
  time : ledger'.currentTime = ledger.currentTime
  known : pkg.txid txn ∈ ledger'.db ↔ pkg.txid txn ∈ ledger.db
  records : ∀ inp ∈ txn.inputs, record ledger'.db inp.txid = record ledger.db inp.txid
  bits : checkPend = true → ∀ inp ∈ txn.inputs, bit ledger'.db inp.ref = bit ledger.db inp.ref
  pending : checkPend = true →
    ledger'.checkPendReplacement txn = ledger.checkPendReplacement txn

variable {pkg}

theorem Packages.SeenAlike.symm {ledger ledger' : Ledger} {txn : Transaction} {checkPend : Bool}
    (alike : pkg.SeenAlike ledger ledger' txn checkPend) :
    pkg.SeenAlike ledger' ledger txn checkPend where
  time := alike.time.symm
  known := alike.known.symm
  records inp mem := (alike.records inp mem).symm
  bits active inp mem := (alike.bits active inp mem).symm
  pending active := (alike.pending active).symm

/-- What is seen alike is verified alike. -/
theorem Packages.SeenAlike.verifies {ledger ledger' : Ledger} {txn : Transaction}
    {checkPend : Bool} (alike : pkg.SeenAlike ledger ledger' txn checkPend)
    (verifies : pkg.Verifies ledger txn checkPend) : pkg.Verifies ledger' txn checkPend where
  fresh known := verifies.fresh (alike.known.mp known)
  inputs inp real := by
    have mem := (pkg.mem_realInputs.mp real).1
    have passes := verifies.inputs inp real
    refine ⟨?_, fun active => ?_, fun active unmatched => ?_⟩
    · rw [Authorised, alike.records inp mem, alike.time]
      exact passes.authorised
    · rw [alike.pending active]
      exact passes.notRefused active
    · rw [alike.bits active inp mem]
      exact passes.unspent active (alike.pending active ▸ unmatched)
  balanced := by
    rw [← verifies.balanced]
    refine congrArg List.sum (List.map_congr_left fun inp real => amountAt_congr ?_)
    exact alike.records inp (pkg.mem_realInputs.mp real).1

variable (pkg)

/-- Without `check_pend` verification does not look at `pend`. -/
theorem Packages.Verifies.congr_pend {ledger ledger' : Ledger} {txn : Transaction}
    (sameDb : ledger'.db = ledger.db) (sameTime : ledger'.currentTime = ledger.currentTime)
    (verifies : pkg.Verifies ledger txn false) : pkg.Verifies ledger' txn false :=
  Packages.SeenAlike.verifies
    ⟨sameTime, by rw [sameDb], fun _ _ => by rw [sameDb], by simp, by simp⟩ verifies

theorem Packages.Accepts.not_refused {ledger : Ledger} {txn : Transaction}
    (accepts : pkg.Accepts ledger txn) : ledger.checkPendReplacement txn ≠ .refused := by
  obtain ⟨inp, mem⟩ := List.exists_mem_of_ne_nil _ accepts.real
  exact (accepts.inputs inp mem).notRefused rfl

namespace Ledger

/-- The ledger once a transaction that `txn` replaces is out of `pend`. -/
def vacate (ledger : Ledger) (txn : Transaction) : Ledger :=
  match ledger.checkPendReplacement txn with
  | .replaces tx => { ledger with
      pend := ledger.pend.erase (pkg.txid tx)
      trace := ledger.trace ++ [.replaced tx txn] }
  | _ => ledger

/-- The ledger with one more line of history. -/
def noted (ledger : Ledger) (event : Event) : Ledger :=
  { ledger with trace := ledger.trace ++ [event] }

/-- The ledger after `txn` is accepted. -/
def accept (ledger : Ledger) (txn : Transaction) : Ledger :=
  let logged := (ledger.vacate pkg txn).noted (.accepted txn ledger.currentTime)
  if txn.timelock ≠ 0 then logged.reserved pkg txn (toTimestamp ledger.currentTime)
  else logged.stored pkg txn (toTimestamp ledger.currentTime)

/-- The outcomes of `verify_txn` in `process_block`. -/
theorem verify_true {ledger ledger' : Ledger} {txn : Transaction} {verified : Bool} :
    verify pkg txn true ledger = .ok verified ledger' ↔
      (pkg.Accepts ledger txn ∧ verified = true ∧ ledger' = ledger.vacate pkg txn) ∨
        (pkg.Rejects ledger txn true ∧ verified = false ∧ ledger' = ledger) := by
  have accepted : pkg.Accepts ledger txn → pkg.decideTxn ledger txn true =
      .ok (.valid (some (ledger.checkPendReplacement txn))) :=
    fun accepts => pkg.decideTxn_accepts.mpr ⟨accepts, rfl⟩
  unfold verify Packages.Rejects
  rw [get_bind]
  cases decided : pkg.decideTxn ledger txn true with
  | error e =>
      rw [decided] at accepted
      simpa using fun accepts => nomatch accepted accepts
  | ok decision =>
      rw [decided] at accepted
      cases decision with
      | stored =>
          have not : ¬ pkg.Accepts ledger txn := fun accepts => nomatch accepted accepts
          simp [not, eq_comm]
      | invalid =>
          have not : ¬ pkg.Accepts ledger txn := fun accepts => nomatch accepted accepts
          simp [not, eq_comm]
      | valid check =>
          obtain ⟨accepts, rfl⟩ := pkg.decideTxn_accepts.mp decided
          have notRefused := accepts.not_refused
          unfold vacate
          cases checked : ledger.checkPendReplacement txn with
          | refused => exact absurd checked notRefused
          | unmatched => simp [accepts, eq_comm]
          | replaces tx =>
              simp only [unpend, log, modify_bind, pure_apply]
              simp [accepts, eq_comm]

/-- An accepted transaction is logged and written, in this order. -/
theorem settle_accepts {ledger : Ledger} {txn : Transaction} (accepts : pkg.Accepts ledger txn) :
    settle pkg txn ledger =
      (if txn.timelock ≠ 0 then writeToPend pkg txn (toTimestamp ledger.currentTime)
        else writeToDb pkg txn (toTimestamp ledger.currentTime))
        ((ledger.vacate pkg txn).noted (.accepted txn ledger.currentTime)) := by
  have verified := (verify_true pkg).mpr (.inl ⟨accepts, rfl, rfl⟩)
  rw [settle, get_bind, bind_apply, verified]
  rfl

/-- Settling a transaction that is not accepted leaves the ledger as it is, also where
verification raises. -/
theorem settle_refused {ledger : Ledger} {txn : Transaction} (refused : ¬ pkg.Accepts ledger txn) :
    (pkg.Rejects ledger txn true ∧ settle pkg txn ledger = .ok ⟨⟩ ledger) ∨
      ∃ e, pkg.decideTxn ledger txn true = .error e ∧ settle pkg txn ledger = .error e ledger := by
  unfold Packages.Rejects
  rw [settle, get_bind, bind_apply, verify, get_bind]
  cases decided : pkg.decideTxn ledger txn true with
  | error e => exact .inr ⟨e, rfl, rfl⟩
  | ok decision =>
      cases decision with
      | stored => exact .inl ⟨.inl rfl, rfl⟩
      | invalid => exact .inl ⟨.inr rfl, rfl⟩
      | valid check => exact absurd (pkg.decideTxn_accepts.mp decided).1 refused

theorem vacate_db (ledger : Ledger) (txn : Transaction) :
    (ledger.vacate pkg txn).db = ledger.db := by
  unfold vacate
  split <;> rfl

/-- The write of an accepted transaction returns if all its inputs are stored. -/
theorem settle_accepts_ok {ledger ledger' : Ledger} {txn : Transaction}
    (accepts : pkg.Accepts ledger txn) :
    settle pkg txn ledger = .ok ⟨⟩ ledger' ↔
      (∀ inp ∈ txn.inputs, Stored ledger.db inp.ref) ∧ ledger' = ledger.accept pkg txn := by
  have sameDb : ((ledger.vacate pkg txn).noted (.accepted txn ledger.currentTime)).db =
      ledger.db := vacate_db pkg ledger txn
  rw [settle_accepts pkg accepts, accept]
  by_cases locked : txn.timelock ≠ 0
  · rw [if_pos locked, if_pos locked, writeToPend_ok, sameDb]
  · rw [if_neg locked, if_neg locked, writeToDb_ok, sameDb]

/-- **What settling a transaction can do**: accept it, all its inputs being
stored, or leave the ledger alone. -/
theorem settle_ok {ledger ledger' : Ledger} {txn : Transaction} :
    settle pkg txn ledger = .ok ⟨⟩ ledger' ↔
      (pkg.Accepts ledger txn ∧ (∀ inp ∈ txn.inputs, Stored ledger.db inp.ref) ∧
        ledger' = ledger.accept pkg txn) ∨
      (pkg.Rejects ledger txn true ∧ ledger' = ledger) := by
  by_cases accepts : pkg.Accepts ledger txn
  · have notRejects : ¬ pkg.Rejects ledger txn true := fun rejects => rejects.not_accepts accepts
    simp only [settle_accepts_ok pkg accepts, accepts, notRejects, true_and, false_and, or_false]
  · rcases settle_refused pkg accepts with ⟨rejects, unchanged⟩ | ⟨e, raised, unchanged⟩
    · simpa [accepts, rejects, unchanged] using eq_comm
    · simp [accepts, unchanged, Packages.Rejects, raised]

/-- The ledger without an entry of `pend`. -/
def without (ledger : Ledger) (tx : Transaction) : Ledger :=
  { ledger with pend := ledger.pend.erase (pkg.txid tx) }

/-- The ledger after a transaction leaves `pend` for `db`. -/
def commit (ledger : Ledger) (txnw : TxnWrapper) : Ledger :=
  ((ledger.without pkg txnw.txn).stored pkg txnw.txn txnw.timestamp).noted
    (.committed txnw.txn ledger.currentTime)

/-- The ledger after a transaction leaves `pend` for good. -/
def drop (ledger : Ledger) (txnw : TxnWrapper) : Ledger :=
  (ledger.without pkg txnw.txn).noted (.dropped txnw.txn ledger.currentTime)

/-- The verdict of `update_pend`. -/
theorem verify_false (ledger : Ledger) (txn : Transaction) :
    (pkg.Verifies ledger txn false ∧ verify pkg txn false ledger = .ok true ledger) ∨
      (¬ pkg.Verifies ledger txn false ∧ verify pkg txn false ledger = .ok false ledger) := by
  rw [verify, get_bind]
  rcases pkg.decideTxn_false ledger txn with ⟨decided, verifies⟩ | ⟨decided | decided, not⟩
  · exact .inl ⟨verifies, by rw [decided]; rfl⟩
  · exact .inr ⟨not, by rw [decided]; rfl⟩
  · exact .inr ⟨not, by rw [decided]; rfl⟩

theorem verifies_without {ledger : Ledger} {tx txn : Transaction} :
    pkg.Verifies (ledger.without pkg tx) txn false ↔ pkg.Verifies ledger txn false :=
  ⟨.congr_pend pkg rfl rfl, .congr_pend pkg rfl rfl⟩

theorem settleExpired_eq (ledger : Ledger) (txnw : TxnWrapper) (now : ℚ≥0) :
    settleExpired pkg txnw now ledger =
      (verify pkg txnw.txn false >>= fun verified =>
        if verified then writeToDb pkg txnw.txn txnw.timestamp >>= fun _ =>
          log (.committed txnw.txn now)
        else log (.dropped txnw.txn now)) (ledger.without pkg txnw.txn) := rfl

/-- An expired transaction that verifies is written to `db` and logged. -/
theorem settleExpired_verifies {ledger : Ledger} {txnw : TxnWrapper}
    (verifies : pkg.Verifies ledger txnw.txn false) :
    settleExpired pkg txnw ledger.currentTime ledger =
      (writeToDb pkg txnw.txn txnw.timestamp >>= fun _ =>
        log (.committed txnw.txn ledger.currentTime)) (ledger.without pkg txnw.txn) := by
  have verified := (verify_false pkg (ledger.without pkg txnw.txn) txnw.txn).resolve_right
    fun fails => fails.1 ((verifies_without pkg).mpr verifies)
  rw [settleExpired_eq, bind_apply, verified.2]
  rfl

/-- One that does not is dropped. -/
theorem settleExpired_fails {ledger : Ledger} {txnw : TxnWrapper}
    (fails : ¬ pkg.Verifies ledger txnw.txn false) :
    settleExpired pkg txnw ledger.currentTime ledger = .ok ⟨⟩ (ledger.drop pkg txnw) := by
  have verified := (verify_false pkg (ledger.without pkg txnw.txn) txnw.txn).resolve_left
    fun verifies => fails ((verifies_without pkg).mp verifies.1)
  rw [settleExpired_eq, bind_apply, verified.2]
  rfl

/-- **What an expired transaction can do**: commit, all its inputs being stored,
or be dropped because it no longer verifies. -/
theorem settleExpired_ok {ledger ledger' : Ledger} {txnw : TxnWrapper} :
    settleExpired pkg txnw ledger.currentTime ledger = .ok ⟨⟩ ledger' ↔
      (pkg.Verifies ledger txnw.txn false ∧
        (∀ inp ∈ txnw.txn.inputs, Stored ledger.db inp.ref) ∧
        ledger' = ledger.commit pkg txnw) ∨
      (¬ pkg.Verifies ledger txnw.txn false ∧ ledger' = ledger.drop pkg txnw) := by
  by_cases verifies : pkg.Verifies ledger txnw.txn false
  · rw [settleExpired_verifies pkg verifies, bind_ok]
    simp only [verifies, true_and, not_true, false_and, or_false]
    constructor
    · rintro ⟨_, middle, writes, logs⟩
      obtain ⟨stored, rfl⟩ := (writeToDb_ok pkg).mp writes
      cases logs
      exact ⟨stored, rfl⟩
    · rintro ⟨stored, rfl⟩
      exact ⟨⟨⟩, _, (writeToDb_ok pkg).mpr ⟨stored, rfl⟩, rfl⟩
  · rw [settleExpired_fails pkg verifies]
    simpa [verifies] using eq_comm

end Ledger

end Belcoin
