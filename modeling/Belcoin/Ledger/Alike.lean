import Belcoin.Ledger.Finish

/-!
Ledgers that differ in signatures only.

A block names its transactions by id, and an id fixes all of a transaction but its
signatures. Two nodes that hold different bodies under the ids of a block then
keep `Alike` ledgers as long as the bodies pass the same checks
(`processBlock_alike`); where they do not, the nodes disagree
(`bodies_disagree`).
-/

namespace Belcoin

open Stateful

/-- What a wrapper holds besides signatures. -/
def TxnWrapper.unsigned (txnw : TxnWrapper) : Body × Nat × List Bool :=
  (txnw.txn.body, txnw.timestamp, txnw.utxos)

/-- Two ledgers at the same time that differ in signatures and history only. -/
structure Ledger.Alike (l l' : Ledger) : Prop where
  db : ∀ k : Bytes, l'.db[k]?.map TxnWrapper.unsigned = l.db[k]?.map TxnWrapper.unsigned
  pend : ∀ k : Bytes, l'.pend[k]?.map TxnWrapper.unsigned = l.pend[k]?.map TxnWrapper.unsigned
  currentTime : l'.currentTime = l.currentTime

/-- Two results of `check_pend_replacement` that differ in signatures only. -/
inductive PendCheck.Alike : PendCheck → PendCheck → Prop where
  | unmatched : Alike .unmatched .unmatched
  | refused : Alike .refused .refused
  | replaces {tx tx' : Transaction} : tx.body = tx'.body → Alike (.replaces tx) (.replaces tx')

/-! ### Reading alike ledgers -/

namespace Ledger.Alike

variable {l l' : Ledger}

/-- An id is stored in both, with wrappers that differ in signatures only, or in
neither. -/
theorem stored (alike : l.Alike l') (k : Bytes) :
    (l.db[k]? = none ∧ l'.db[k]? = none) ∨ ∃ w w', l.db[k]? = some w ∧ l'.db[k]? = some w' ∧
      w.unsigned = w'.unsigned := by
  have same := alike.db k
  cases held : l.db[k]? with
  | none => exact .inl ⟨rfl, by simpa [held] using same⟩
  | some w =>
      rw [held] at same
      obtain ⟨w', held', unsigned⟩ := Option.map_eq_some_iff.mp same
      exact .inr ⟨w, w', rfl, held', unsigned.symm⟩

/-- `pend` is listed in the same order. -/
theorem pend_toList (alike : l.Alike l') :
    l'.pend.toList.map (fun entry => (entry.1, entry.2.unsigned)) =
      l.pend.toList.map fun entry => (entry.1, entry.2.unsigned) := by
  have same : l'.pend.map (fun _ => TxnWrapper.unsigned) =
      l.pend.map fun _ => TxnWrapper.unsigned := by
    ext k
    rw [Std.ExtTreeMap.getElem?_map, Std.ExtTreeMap.getElem?_map, alike.pend]
  have lists := congrArg Std.ExtTreeMap.toList same
  rwa [Std.ExtTreeMap.toList_map, Std.ExtTreeMap.toList_map] at lists

/-- The same entry of alike ledgers decides about a replacement. -/
theorem checkPend (alike : l.Alike l') {txn txn' : Transaction} (same : txn.body = txn'.body) :
    (l.checkPendReplacement txn).Alike (l'.checkPendReplacement txn') := by
  have sameRefs : txn'.refs = txn.refs := (congrArg Body.refs same).symm
  have found : (l'.pend.toList.find? fun entry => decide (SameInputs entry.2.txn txn')).map
      (fun entry => (entry.1, entry.2.unsigned)) =
      (l.pend.toList.find? fun entry => decide (SameInputs entry.2.txn txn)).map
        fun entry => (entry.1, entry.2.unsigned) := by
    have search : ∀ list : List (Bytes × TxnWrapper),
        (list.find? fun entry => decide (SameInputs entry.2.txn txn)).map
          (fun entry => (entry.1, entry.2.unsigned)) =
        (list.map fun entry => (entry.1, entry.2.unsigned)).find? fun entry =>
          decide (entry.2.1.refs.toFinset = txn.refs.toFinset) :=
      fun list => by
        rw [List.find?_map]
        rfl
    have inputs : ∀ tx : Transaction, SameInputs tx txn' ↔ SameInputs tx txn := by
      intro tx
      rw [SameInputs, SameInputs, sameRefs]
    simp only [inputs]
    rw [search, search, alike.pend_toList]
  unfold checkPendReplacement
  cases first : l.pend.toList.find? fun entry => decide (SameInputs entry.2.txn txn) with
  | none =>
      rw [first] at found
      rw [Option.map_eq_none_iff.mp found]
      exact .unmatched
  | some entry =>
      rw [first] at found
      obtain ⟨entry', first', unsigned⟩ := Option.map_eq_some_iff.mp found
      rw [first']
      obtain ⟨k, w⟩ := entry
      obtain ⟨k', w'⟩ := entry'
      simp only [Prod.mk.injEq, TxnWrapper.unsigned] at unsigned
      obtain ⟨-, body, time, -⟩ := unsigned
      have sameSeq : w'.txn.seq = w.txn.seq := congrArg Body.seq body
      have sameLock : w'.txn.timelock = w.txn.timelock := congrArg Body.timelock body
      have passed : w'.TimelockPassed l'.currentTime ↔ w.TimelockPassed l.currentTime := by
        rw [TxnWrapper.TimelockPassed, TxnWrapper.TimelockPassed, time, sameLock,
          alike.currentTime]
      have newer : txn'.seq = txn.seq := (congrArg Body.seq same).symm
      simp only [passed, sameSeq, newer]
      split
      · exact .refused
      · split
        · exact .refused
        · exact .replaces body.symm

end Ledger.Alike

/-! ### Checking alike ledgers -/

variable (pkg : Packages)

/-- What an input may read under an id while a block is processed from `o` on: what was
stored before, or, under an id of the block that was not, what is stored for it now. -/
def Ledger.Reads (o : Ledger) (block : List Bytes) (k : Bytes) (tx : Transaction) (ts : Nat) :
    Prop :=
  record o.db k = some (tx, ts) ∨
    k ∉ o.db ∧ k ∈ block ∧ pkg.txid tx = k ∧ ts = toTimestamp o.currentTime

/-- Input for input, the two transactions pass the same signature checks against
the outputs they may read. -/
def Packages.SameChecks (o : Ledger) (block : List Bytes) (txn txn' : Transaction) : Prop :=
  txn.inputs.Forall₂ (fun inp inp' => ∀ tx ts out, o.Reads pkg block inp.txid tx ts →
    tx.outputs[inp.index]? = some out →
    pkg.checkSignatures o.currentTime (pkg.txid txn) ts out inp =
      pkg.checkSignatures o.currentTime (pkg.txid txn') ts out inp') txn'.inputs

/-- Time has not passed since `o`, and what is stored could be read. -/
structure Ledger.Since (o : Ledger) (block : List Bytes) (l : Ledger) : Prop where
  currentTime : l.currentTime = o.currentTime
  keeps : ∀ k ∈ o.db, k ∈ l.db
  reads : ∀ k tx ts, record l.db k = some (tx, ts) → o.Reads pkg block k tx ts

theorem Ledger.Since.start (o : Ledger) (block : List Bytes) : o.Since pkg block o :=
  ⟨rfl, fun _ => id, fun _ _ _ => .inl⟩

/-- A transaction of the block is stored under an id that was free. -/
theorem Ledger.Since.accept {o l : Ledger} {block : List Bytes} (since : o.Since pkg block l)
    {txn : Transaction} (listed : pkg.txid txn ∈ block) (new : pkg.txid txn ∉ l.db) :
    o.Since pkg block (l.accept pkg txn) := by
  refine ⟨(accept_currentTime l txn).trans since.currentTime,
    fun k mem => mem_accept.mpr (.inl (since.keeps k mem)), fun k tx ts held => ?_⟩
  unfold Ledger.accept at held
  split at held
  · rw [record_reserved] at held
    exact since.reads k tx ts (by simpa [Ledger.noted, vacate_db] using held)
  · rw [record_stored] at held
    split at held
    · rename_i own
      cases held
      subst own
      exact .inr ⟨fun old => new (since.keeps _ old), listed, rfl, by rw [since.currentTime]⟩
    · exact since.reads k tx ts (by simpa [Ledger.noted, vacate_db] using held)

/-- Two outcomes of the input loop that differ in signatures only. -/
inductive InputScan.Alike : Except PyError InputScan → Except PyError InputScan → Prop where
  | error (e : PyError) : Alike (.error e) (.error e)
  | invalid : Alike (.ok .invalid) (.ok .invalid)
  | passed {n : Nat} {check check' : Option PendCheck} : Option.Rel PendCheck.Alike check check' →
      Alike (.ok (.passed n check)) (.ok (.passed n check'))

/-- Two outcomes of `verify_txn` that differ in signatures only. -/
inductive Decision.Alike : Except PyError Decision → Except PyError Decision → Prop where
  | error (e : PyError) : Alike (.error e) (.error e)
  | stored : Alike (.ok .stored) (.ok .stored)
  | invalid : Alike (.ok .invalid) (.ok .invalid)
  | valid {check check' : Option PendCheck} : Option.Rel PendCheck.Alike check check' →
      Alike (.ok (.valid check)) (.ok (.valid check'))

variable {pkg}

/-- The input loops run in step, input for input. -/
theorem scanInputs_alike {o l l' : Ledger} {block : List Bytes} (alike : l.Alike l')
    (since : o.Since pkg block l)
    {txn txn' : Transaction} (same : txn.body = txn'.body) {checkPend : Bool}
    {inputs inputs' : List Input} (sameRefs : inputs.map Input.ref = inputs'.map Input.ref)
    (checks : inputs.Forall₂ (fun inp inp' => ∀ tx ts out, o.Reads pkg block inp.txid tx ts →
      tx.outputs[inp.index]? = some out →
      pkg.checkSignatures o.currentTime (pkg.txid txn) ts out inp =
        pkg.checkSignatures o.currentTime (pkg.txid txn') ts out inp') inputs')
    (coins : Nat) {check check' : Option PendCheck}
    (sameCheck : Option.Rel PendCheck.Alike check check') :
    InputScan.Alike (pkg.scanInputs l txn checkPend inputs coins check)
      (pkg.scanInputs l' txn' checkPend inputs' coins check') := by
  induction checks generalizing coins check check' with
  | nil => exact .passed sameCheck
  | @cons inp inp' rest rest' signed _ ih =>
      rw [List.map_cons, List.map_cons, List.cons.injEq, Input.ref, Input.ref,
        Prod.mk.injEq] at sameRefs
      obtain ⟨⟨sameTxid, sameIndex⟩, sameRefs⟩ := sameRefs
      rw [Packages.scanInputs, Packages.scanInputs, ← sameTxid, ← sameIndex]
      by_cases dummy : inp.txid = pkg.noHash
      · rw [if_pos dummy, if_pos dummy]
        exact ih sameRefs coins sameCheck
      · rw [if_neg dummy, if_neg dummy]
        rcases alike.stored inp.txid with ⟨none, none'⟩ | ⟨w, w', held, held', unsigned⟩
        · rw [none, none']
          exact .invalid
        · rw [held, held']
          simp only [TxnWrapper.unsigned, Prod.mk.injEq] at unsigned
          obtain ⟨body, time, bits⟩ := unsigned
          have outputs : w'.txn.outputs = w.txn.outputs := (congrArg Body.outputs body).symm
          simp only [outputs, ← time, ← bits, alike.currentTime]
          cases out : w.txn.outputs[inp.index]? with
          | none => exact .invalid
          | some spent =>
              have reads : o.Reads pkg block inp.txid w.txn w.timestamp :=
                since.reads _ _ _ (by rw [record, held]; rfl)
              have agree := signed w.txn w.timestamp spent reads out
              rw [← since.currentTime] at agree
              simp only [← agree]
              split
              · cases checkPend with
                | false => exact ih sameRefs _ sameCheck
                | true =>
                    simp only [if_true]
                    have checked := alike.checkPend same
                    generalize l.checkPendReplacement txn = verdict at checked ⊢
                    generalize l'.checkPendReplacement txn' = verdict' at checked ⊢
                    cases checked with
                    | refused => exact .invalid
                    | replaces body => exact ih sameRefs _ (.some (.replaces body))
                    | unmatched =>
                        simp only
                        cases w.utxos[inp.index]? with
                        | none => exact .error _
                        | some unspent =>
                            cases unspent with
                            | false => exact .invalid
                            | true => exact ih sameRefs _ (.some .unmatched)
              · exact .invalid

/-- The assumption on ids: they are made of the body of a transaction. -/
def Packages.IdsAreBodies (pkg : Packages) : Prop :=
  ∀ txn txn' : Transaction, pkg.txid txn = pkg.txid txn' ↔ txn.body = txn'.body

theorem Ledger.Alike.mem_db {l l' : Ledger} (alike : l.Alike l') (k : Bytes) :
    k ∈ l'.db ↔ k ∈ l.db := by
  rw [Std.ExtTreeMap.mem_iff_isSome_getElem?, Std.ExtTreeMap.mem_iff_isSome_getElem?]
  rcases alike.stored k with ⟨none, none'⟩ | ⟨w, w', held, held', -⟩
  · rw [none, none']
  · rw [held, held']
    rfl

/-- **`verify_txn` judges them alike.** -/
theorem decideTxn_alike (ids : pkg.IdsAreBodies) {o l l' : Ledger} {block : List Bytes}
    (alike : l.Alike l') (since : o.Since pkg block l) {txn txn' : Transaction}
    (same : txn.body = txn'.body) (checks : pkg.SameChecks o block txn txn') (checkPend : Bool) :
    Decision.Alike (pkg.decideTxn l txn checkPend) (pkg.decideTxn l' txn' checkPend) := by
  have sameId : pkg.txid txn' = pkg.txid txn := ((ids _ _).mpr same).symm
  have spends : txn'.spendsCoins = txn.spendsCoins := by
    rw [Transaction.spendsCoins, Transaction.spendsCoins,
      show txn'.outputs = txn.outputs from (congrArg Body.outputs same).symm]
  unfold Packages.decideTxn
  rw [sameId, spends]
  by_cases stored : pkg.txid txn ∈ l.db
  · rw [if_pos stored, if_pos ((alike.mem_db _).mpr stored)]
    exact .stored
  · rw [if_neg stored, if_neg ((alike.mem_db _).not.mpr stored)]
    have scans : InputScan.Alike (pkg.scanInputs l txn checkPend txn.inputs 0 none)
        (pkg.scanInputs l' txn' checkPend txn'.inputs 0 none) :=
      scanInputs_alike alike since same (congrArg Body.refs same) checks 0 .none
    generalize pkg.scanInputs l txn checkPend txn.inputs 0 none = scan at scans ⊢
    generalize pkg.scanInputs l' txn' checkPend txn'.inputs 0 none = scan' at scans ⊢
    cases scans with
    | error e => exact .error e
    | invalid => exact .invalid
    | @passed n check check' sameCheck =>
        have unbound : check'.isNone = check.isNone := by cases sameCheck <;> rfl
        simp only [unbound]
        split
        · split
          · exact .error _
          · exact .valid sameCheck
        · exact .invalid

/-! ### Writing to alike ledgers -/

namespace Ledger

theorem Alike.insert_db {l l' : Ledger} (alike : l.Alike l') (k : Bytes) {w w' : TxnWrapper}
    (same : w.unsigned = w'.unsigned) :
    Alike { l with db := l.db.insert k w } { l' with db := l'.db.insert k w' } :=
  { alike with
    db := fun j => by
      simp only [Std.ExtTreeMap.getElem?_insert, Std.LawfulEqCmp.compare_eq_iff_eq]
      by_cases own : k = j
      · simp [own, same]
      · simp [own, alike.db j] }

theorem Alike.insert_pend {l l' : Ledger} (alike : l.Alike l') (k : Bytes) {w w' : TxnWrapper}
    (same : w.unsigned = w'.unsigned) :
    Alike { l with pend := l.pend.insert k w } { l' with pend := l'.pend.insert k w' } :=
  { alike with
    pend := fun j => by
      simp only [Std.ExtTreeMap.getElem?_insert, Std.LawfulEqCmp.compare_eq_iff_eq]
      by_cases own : k = j
      · simp [own, same]
      · simp [own, alike.pend j] }

theorem Alike.erase_pend {l l' : Ledger} (alike : l.Alike l') (k : Bytes) :
    Alike { l with pend := l.pend.erase k } { l' with pend := l'.pend.erase k } :=
  { alike with
    pend := fun j => by
      simp only [Std.ExtTreeMap.getElem?_erase, Std.LawfulEqCmp.compare_eq_iff_eq]
      by_cases own : k = j
      · simp [own]
      · simp [own, alike.pend j] }

theorem log_alike (event event' : Event) : Lockstep Alike (log event) (log event') :=
  lockstep_modify fun _ _ alike => { alike with }

theorem spend_alike {inp inp' : Input} (same : inp.ref = inp'.ref) :
    Lockstep Alike (spend inp) (spend inp') := by
  intro l l' alike
  obtain ⟨sameTxid, sameIndex⟩ : inp.txid = inp'.txid ∧ inp.index = inp'.index :=
    Prod.mk.inj same
  rw [spend, spend, get_bind, get_bind, ← sameTxid, ← sameIndex, ← same]
  rcases alike.stored inp.txid with ⟨none, none'⟩ | ⟨w, w', held, held', unsigned⟩
  · rw [none, none']
    exact .error alike
  · have cleared : Alike { l with db := clearBit l.db inp.ref }
        { l' with db := clearBit l'.db inp.ref } := by
      rw [clearBit, clearBit, Input.ref, held, held']
      refine alike.insert_db _ ?_
      simp only [TxnWrapper.unsigned, Prod.mk.injEq] at unsigned ⊢
      exact ⟨unsigned.1, unsigned.2.1, congrArg (·.set inp.index false) unsigned.2.2⟩
    rw [held, held']
    simp only [TxnWrapper.unsigned, Prod.mk.injEq] at unsigned
    obtain ⟨body, -, bits⟩ := unsigned
    have outputs : w'.txn.outputs = w.txn.outputs := (congrArg Body.outputs body).symm
    simp only [outputs, ← bits]
    split
    · rw [modify_bind, modify_bind]
      split
      · exact .ok cleared
      · exact .error cleared
    · exact .error alike

theorem forM_spend_alike {inputs inputs' : List Input}
    (same : inputs.map Input.ref = inputs'.map Input.ref) :
    Lockstep Alike (inputs.forM spend) (inputs'.forM spend) := by
  refine Lockstep.forM₂ ?_
  have refs : inputs.Forall₂ (fun inp inp' => inp.ref = inp'.ref) inputs' := by
    rw [← List.forall₂_map_left_iff (R := fun r inp' => r = Input.ref inp'),
      ← List.forall₂_map_right_iff (R := Eq), List.forall₂_eq_eq_eq]
    exact same
  exact refs.imp fun _ _ => spend_alike

theorem new_unsigned {txn txn' : Transaction} (same : txn.body = txn'.body) (ts : Nat) :
    (TxnWrapper.new txn ts).unsigned = (TxnWrapper.new txn' ts).unsigned := by
  have outputs : txn.outputs = txn'.outputs := congrArg Body.outputs same
  simp [TxnWrapper.unsigned, TxnWrapper.new, same, outputs]

/-- **Settling keeps ledgers alike**, also where it raises. -/
theorem settle_alike (ids : pkg.IdsAreBodies) {o l l' : Ledger} {block : List Bytes}
    (alike : l.Alike l') (since : o.Since pkg block l) {txn txn' : Transaction}
    (same : txn.body = txn'.body) (checks : pkg.SameChecks o block txn txn') :
    Agree Alike (settle pkg txn l) (settle pkg txn' l') := by
  have sameId : pkg.txid txn' = pkg.txid txn := ((ids _ _).mpr same).symm
  have sameLock : txn'.timelock = txn.timelock := (congrArg Body.timelock same).symm
  have verified : Agree Alike (verify pkg txn true l) (verify pkg txn' true l') := by
    have decided := decideTxn_alike ids alike since same checks true
    rw [verify, verify, get_bind, get_bind]
    generalize pkg.decideTxn l txn true = decision at decided ⊢
    generalize pkg.decideTxn l' txn' true = decision' at decided ⊢
    cases decided with
    | error e => exact .error alike
    | stored => exact .ok alike
    | invalid => exact .ok alike
    | valid sameCheck =>
        cases sameCheck with
        | none => exact .ok alike
        | some sameCheck =>
            cases sameCheck with
            | unmatched => exact .ok alike
            | refused => exact .ok alike
            | @replaces tx tx' body =>
                simp only [unpend, log, modify_bind, (ids _ _).mpr body, pure_apply]
                exact .ok { alike.erase_pend _ with }
  rw [settle, settle, get_bind, get_bind, alike.currentTime, sameLock]
  refine verified.bind fun passed => ?_
  cases passed with
  | false => exact lockstep_pure _
  | true =>
      refine (log_alike _ _).bind fun _ => ?_
      by_cases locked : txn.timelock ≠ 0
      · rw [if_pos locked, if_pos locked]
        refine Lockstep.bind (lockstep_modify fun _ _ alike => ?_) fun _ =>
          forM_spend_alike (congrArg Body.refs same)
        rw [sameId]
        exact alike.insert_pend _ (new_unsigned same _)
      · rw [if_neg locked, if_neg locked]
        refine (forM_spend_alike (congrArg Body.refs same)).bind fun _ =>
          lockstep_modify fun _ _ alike => ?_
        rw [sameId]
        exact alike.insert_db _ (new_unsigned same _)

end Ledger

/-! ### Two nodes and a block -/

/-- Two mempool entries for the id `k` of a block: none, or two bodies under this id that
pass the same checks. -/
def Packages.Matched (pkg : Packages) (o : Ledger) (block : List Bytes) (k : Bytes) :
    Option Transaction → Option Transaction → Prop :=
  Option.Rel fun txn txn' =>
    pkg.txid txn = k ∧ pkg.txid txn' = k ∧ pkg.SameChecks o block txn txn'

/-- Two nodes with alike ledgers. -/
abbrev AlikeNodes (s s' : Storage) : Prop := s.toLedger.Alike s'.toLedger

theorem settleTxn_alike (ids : pkg.IdsAreBodies) {o : Ledger} {block : List Bytes} {s s' : Storage}
    (alike : AlikeNodes s s') (since : o.Since pkg block s.toLedger) {txn txn' : Transaction}
    (same : txn.body = txn'.body) (checks : pkg.SameChecks o block txn txn') :
    Agree AlikeNodes (pkg.settleTxn txn s) (pkg.settleTxn txn' s') := by
  have left := settleTxn_lockstep pkg txn s _ rfl
  have right := settleTxn_lockstep pkg txn' s' _ rfl
  have middle := Ledger.settle_alike ids alike since same checks
  generalize Ledger.settle pkg txn s.toLedger = x at left middle
  generalize Ledger.settle pkg txn' s'.toLedger = y at right middle
  generalize pkg.settleTxn txn s = u at left ⊢
  generalize pkg.settleTxn txn' s' = v at right ⊢
  cases middle with
  | ok related =>
      cases left with
      | ok holds =>
          cases right with
          | ok holds' =>
              cases holds
              cases holds'
              exact .ok related
  | error related =>
      cases left with
      | error holds =>
          cases right with
          | error holds' =>
              cases holds
              cases holds'
              exact .error related

/-- **The loop of `process_block` keeps nodes alike**, also where it raises. -/
theorem forM_processTxn_alike (ids : pkg.IdsAreBodies) {o : Ledger} {block turns : List Bytes}
    {s s' : Storage} (alike : AlikeNodes s s') (since : o.Since pkg block s.toLedger)
    (listed : ∀ k ∈ turns, k ∈ block)
    (matched : ∀ k ∈ turns, pkg.Matched o block k s.mempool[k]? s'.mempool[k]?) :
    AlikeNodes (final (turns.forM pkg.processTxn s)) (final (turns.forM pkg.processTxn s')) := by
  induction turns generalizing s s' with
  | nil => exact alike
  | cons k rest ih =>
      obtain ⟨here, later⟩ := List.forall_mem_cons.mp matched
      obtain ⟨mine, others⟩ := List.forall_mem_cons.mp listed
      rw [forM_cons, bind_apply, bind_apply]
      cases held : s.mempool[k]? with
      | none =>
          rw [held] at here
          cases held' : s'.mempool[k]? with
          | none =>
              have raises : ∀ u : Storage, u.mempool[k]? = none →
                  pkg.processTxn k u = .error .invalidTransactionError u := by
                intro u none
                rw [Packages.processTxn, get_bind, none]
                rfl
              rw [raises s held, raises s' held']
              exact alike
          | some txn' =>
              rw [held'] at here
              cases here
      | some txn =>
          rw [held] at here
          cases held' : s'.mempool[k]? with
          | none =>
              rw [held'] at here
              cases here
          | some txn' =>
              rw [held'] at here
              cases here with
              | some both =>
                  obtain ⟨own, own', checks⟩ := both
                  have turn : ∀ {u : Storage} {tx : Transaction}, u.mempool[k]? = some tx →
                      pkg.processTxn k u = (pkg.settleTxn tx >>= fun _ => removeFromMempool k) u := by
                    intro u tx here
                    rw [Packages.processTxn, get_bind, here]
                  have settles := settleTxn_alike ids alike since
                    ((ids _ _).mp (own.trans own'.symm)) checks
                  have agree := settles.bind (k := fun _ => removeFromMempool k)
                    (l := fun _ => removeFromMempool k) fun _ =>
                      lockstep_modify fun _ _ (alike : AlikeNodes _ _) => alike
                  rw [← turn held, ← turn held'] at agree
                  rcases agree.outcomes with
                    ⟨_, t, t', run, run', alike'⟩ | ⟨e, t, t', run, run', alike'⟩
                  · rw [run, run']
                    have since' : o.Since pkg block t.toLedger := by
                      rcases processTxn_left pkg held own run with
                        ⟨accepts, -, ledger, -⟩ | ⟨-, ledger, -⟩
                      · exact ledger ▸ since.accept pkg (own.symm ▸ mine) accepts.fresh
                      · exact ledger ▸ since
                    have sameMempool : t.mempool = s.mempool.erase k := by
                      rcases processTxn_left pkg held own run with
                        ⟨-, -, -, left⟩ | ⟨-, -, left⟩ <;> exact left.mempool
                    have sameMempool' : t'.mempool = s'.mempool.erase k := by
                      rcases processTxn_left pkg held' own' run' with
                        ⟨-, -, -, left⟩ | ⟨-, -, left⟩ <;> exact left.mempool
                    refine ih alike' since' others fun j mem => ?_
                    rw [sameMempool, sameMempool']
                    simp only [Std.ExtTreeMap.getElem?_erase, Std.LawfulEqCmp.compare_eq_iff_eq]
                    split
                    · exact .none
                    · exact later j mem
                  · rw [run, run']
                    exact alike'

/-- The end of `process_block` leaves the ledger alone. -/
theorem processBlock_ledger (block : List Bytes) (s : Storage) :
    (final (pkg.processBlock block s)).toLedger =
      (final (block.forM pkg.processTxn (s.enter block))).toLedger := by
  have loop : block.forM pkg.processTxn (s.enter block) = block.forM pkg.processTxn
      { s with
        processingBlock := true
        blockLog := s.blockLog ++ [.entered block] } := rfl
  rw [Packages.processBlock, modify_bind, bind_apply, loop]
  cases block.forM pkg.processTxn
      { s with
        processingBlock := true
        blockLog := s.blockLog ++ [.entered block] } with
  | error e t => rfl
  | ok _ t =>
      simp only [finishBlock, get_bind]
      cases t.blockQueue <;> rfl

/-- The two ledgers have the same transactions and the same bitmaps. -/
structure Ledger.SameView (l l' : Ledger) : Prop where
  db : ∀ k : Bytes, k ∈ l'.db ↔ k ∈ l.db
  pend : ∀ k : Bytes, k ∈ l'.pend ↔ k ∈ l.pend
  bits : ∀ r, bit l'.db r = bit l.db r

theorem Ledger.Alike.sameView {l l' : Ledger} (alike : l.Alike l') : l.SameView l' where
  db := alike.mem_db
  pend k := by
    have same := congrArg Option.isSome (alike.pend k)
    rw [Option.isSome_map, Option.isSome_map] at same
    rw [Std.ExtTreeMap.mem_iff_isSome_getElem?, Std.ExtTreeMap.mem_iff_isSome_getElem?, same]
  bits r := by
    rcases alike.stored r.1 with ⟨none, none'⟩ | ⟨w, w', held, held', unsigned⟩
    · rw [bit, bit, none, none']
    · rw [bit, bit, held, held']
      simp only [TxnWrapper.unsigned, Prod.mk.injEq] at unsigned
      simp [unsigned.2.2]

/-- **A block of ids determines the ledger as far as the bodies pass the same
checks.** Two nodes with equal databases at the same time process a block, with
mempools that hold under each of its ids transactions with this id, whose inputs
pass the same checks. They end with the same transactions and the same bitmaps. -/
theorem processBlock_alike {pkg : Packages} (ids : pkg.IdsAreBodies) {s s' : Storage}
    (sameDb : s'.db = s.db) (samePend : s'.pend = s.pend)
    (sameTime : s'.currentTime = s.currentTime) {block : List Bytes}
    (held : ∀ k ∈ block, ∃ txn txn', s.mempool[k]? = some txn ∧ s'.mempool[k]? = some txn' ∧
      pkg.txid txn = k ∧ pkg.txid txn' = k ∧ pkg.SameChecks s.toLedger block txn txn') :
    (final (pkg.processBlock block s)).SameView (final (pkg.processBlock block s')).toLedger := by
  have alike : AlikeNodes (s.enter block) (s'.enter block) :=
    ⟨fun k => congrArg (fun db : Store TxnWrapper => db[k]?.map TxnWrapper.unsigned) sameDb,
      fun k => congrArg (fun pend : Store TxnWrapper => pend[k]?.map TxnWrapper.unsigned) samePend,
      sameTime⟩
  have matched : ∀ k ∈ block, pkg.Matched s.toLedger block k s.mempool[k]? s'.mempool[k]? := by
    intro k mem
    obtain ⟨txn, txn', held, held', both⟩ := held k mem
    rw [held, held']
    exact .some both
  have final_alike := forM_processTxn_alike ids alike (.start pkg _ block) (fun _ => id) matched
  rw [AlikeNodes, ← processBlock_ledger, ← processBlock_ledger] at final_alike
  exact final_alike.sameView

theorem ideal_idsAreBodies : Ideal.packages.IdsAreBodies := fun _ _ =>
  ⟨Ideal.ideal_collisionFree.body_eq, fun same => congrArg (fun b => 1 :: Ideal.bodyCode b) same⟩

/-- The first payment with these signatures. -/
def signedPayment (signature htlcSignature : Bytes) : Transaction :=
  ⟨[{ txid := Ideal.packages.txid Ideal.genesis, index := 0, signature, signature2 := [7],
      htlcSignature }], [Ideal.coin 1], 0, 0⟩

/-- A signature that no check looks at may differ. -/
theorem processBlock_alike_payment :
    (final (Ideal.packages.processBlock [Ideal.packages.txid (signedPayment [7] [])]
      (withBlock (signedPayment [7] [])))).SameView
        (final (Ideal.packages.processBlock [Ideal.packages.txid (signedPayment [7] [])]
          (withBlock (signedPayment [7] [1])))).toLedger := by
  refine @processBlock_alike Ideal.packages ideal_idsAreBodies (withBlock (signedPayment [7] []))
    (withBlock (signedPayment [7] [1])) rfl rfl rfl _ ?_
  intro k mem
  obtain rfl := List.mem_singleton.mp mem
  refine ⟨signedPayment [7] [], signedPayment [7] [1], by decide +kernel, by decide +kernel, rfl,
    by decide +kernel, .cons ?_ .nil⟩
  intro tx ts out reads paid
  obtain ⟨outputs, time⟩ : tx.outputs = Ideal.genesis.outputs ∧ ts = 0 := by
    rcases reads with stored | ⟨-, -, same, rfl⟩
    · have genesis : record (withBlock (signedPayment [7] [])).db
          (Ideal.packages.txid Ideal.genesis) = some (Ideal.genesis, 0) := by decide +kernel
      obtain ⟨rfl, rfl⟩ := Prod.mk.inj (Option.some.inj (genesis.symm.trans stored))
      exact ⟨rfl, rfl⟩
    · exact ⟨congrArg Body.outputs (Ideal.ideal_collisionFree.body_eq same), by decide +kernel⟩
  subst time
  rw [outputs] at paid
  obtain rfl : Ideal.coin 1 = out := Option.some.inj paid
  decide +kernel

/-- **Two nodes that disagree.** One holds the payment as its owner signed it, the
other one with a wrong signature; they accept the same block with different
results. -/
theorem bodies_disagree :
    ¬ ∀ (s s' : Storage) (block : List Bytes), Ideal.small.node.Reachable s →
      Ideal.small.node.Reachable s' → s'.db = s.db → s'.pend = s.pend →
      s'.currentTime = s.currentTime →
      (∀ k ∈ block, ∃ txn txn', s.mempool[k]? = some txn ∧ s'.mempool[k]? = some txn' ∧
        Ideal.small.txid txn = k ∧ Ideal.small.txid txn' = k) →
      (final (Ideal.small.processBlock block s)).SameView
        (final (Ideal.small.processBlock block s')).toLedger := by
  intro claim
  have view := claim (withBlock (signedPayment [7] [])) (withBlock (signedPayment [] []))
    [Ideal.packages.txid (signedPayment [7] [])] (Ideal.small.reachable_after _)
    (Ideal.small.reachable_after _) rfl rfl rfl fun k mem => by
      obtain rfl := List.mem_singleton.mp mem
      exact ⟨signedPayment [7] [], signedPayment [] [], by decide +kernel, by decide +kernel, rfl,
        by decide +kernel⟩
  exact absurd ((view.db (Ideal.packages.txid (signedPayment [7] []))).mpr (by decide +kernel))
    (by decide +kernel)

end Belcoin
