import Belcoin.Lib.TreeTotal
import Belcoin.Ledger.Exclusive
import Mathlib.Algebra.BigOperators.Group.Finset.Basic
import Mathlib.Algebra.Order.BigOperators.Group.Finset

/-!
The amount of money in a ledger.

What is unspent in `db` and what waits in `pend` never sum to more than the
genesis transactions issued (`node_supply`), as long as no transaction that is
examined names an output twice: `verify_txn` counts such an output twice
(`supply_inflated`).
-/

namespace Belcoin

open Std.ExtTreeMap

/-! ### Amounts -/

/-- The sum of the amounts whose bit is still set. -/
def unspentSum (outputs : List Output) (utxos : List Bool) : Nat :=
  ((outputs.zip utxos).map fun entry => if entry.2 then entry.1.amount else 0).sum

def TxnWrapper.unspent (txnw : TxnWrapper) : Nat := unspentSum txnw.txn.outputs txnw.utxos

/-- The amount of the unspent outputs in `db`. -/
def Ledger.unspent (ledger : Ledger) : Nat := total TxnWrapper.unspent ledger.db

/-- The amount of the outputs of the transactions in `pend`. -/
def Ledger.locked (ledger : Ledger) : Nat :=
  total (fun txnw => txnw.txn.spendsCoins) ledger.pend

/-- The amount of the outputs of the genesis transactions. -/
def Setup.issued (setup : Setup) : Nat := (setup.coinbase.map Transaction.spendsCoins).sum

/-- What clearing one bit takes away. -/
def available (db : Store TxnWrapper) (r : Ref) : Nat :=
  if bit db r = some true then amountAt db r else 0

theorem unspentSum_set (outputs : List Output) (utxos : List Bool) (i : Nat) :
    unspentSum outputs (utxos.set i false) +
        (if utxos[i]? = some true then (outputs[i]?.map Output.amount).getD 0 else 0) =
      unspentSum outputs utxos := by
  induction outputs generalizing utxos i with
  | nil => simp [unspentSum]
  | cons o outputs ih =>
      cases utxos with
      | nil => simp [unspentSum]
      | cons b utxos =>
          cases i with
          | zero => cases b <;> simp [unspentSum, Nat.add_comm]
          | succ i =>
              have rest := ih utxos i
              simp only [unspentSum, List.set_cons_succ, List.zip_cons_cons, List.map_cons,
                List.sum_cons, List.getElem?_cons_succ] at rest ⊢
              omega

theorem unspentSum_all (outputs : List Output) :
    unspentSum outputs (List.replicate outputs.length true) = (outputs.map Output.amount).sum := by
  induction outputs with
  | nil => rfl
  | cons o outputs ih =>
      simp only [unspentSum] at ih
      simp [unspentSum, List.replicate_succ, ih]

@[simp] theorem unspent_new (txn : Transaction) (ts : Nat) :
    (TxnWrapper.new txn ts).unspent = txn.spendsCoins :=
  unspentSum_all txn.outputs

theorem total_clearBit (db : Store TxnWrapper) (r : Ref) :
    total TxnWrapper.unspent (clearBit db r) + available db r = total TxnWrapper.unspent db := by
  unfold clearBit available bit amountAt outputAt
  cases held : db[r.1]? with
  | none => simp
  | some txnw =>
      have written := total_insert TxnWrapper.unspent db r.1
        { txnw with utxos := txnw.utxos.set r.2 false }
      have cleared := unspentSum_set txnw.txn.outputs txnw.utxos r.2
      simp only [share, held, Option.map_some, Option.getD_some, TxnWrapper.unspent] at written
      simp only [Option.bind_some]
      omega

theorem available_clearBit (db : Store TxnWrapper) (r r' : Ref) :
    available (clearBit db r) r' = if r' = r then 0 else available db r' := by
  unfold available
  rw [bit_clearBit, amountAt_congr (record_clearBit db r r'.1)]
  by_cases same : r' = r
  · cases bit db r <;> simp [same]
  · simp [same]

/-- Spending outputs takes away what was available of them, once each. -/
theorem total_clearBits (db : Store TxnWrapper) (refs : List Ref) :
    total TxnWrapper.unspent (clearBits db refs) + ∑ r ∈ refs.toFinset, available db r =
      total TxnWrapper.unspent db := by
  induction refs generalizing db with
  | nil => simp [clearBits]
  | cons r refs ih =>
      have first := total_clearBit db r
      have rest := ih (clearBit db r)
      have others : ∑ r' ∈ refs.toFinset, available (clearBit db r) r' =
          ∑ r' ∈ refs.toFinset.erase r, available db r' := by
        rw [← Finset.sum_erase refs.toFinset (a := r) (by simp [available_clearBit])]
        refine Finset.sum_congr rfl fun r' mem => ?_
        rw [available_clearBit, if_neg (Finset.ne_of_mem_erase mem)]
      have split : ∑ r' ∈ (r :: refs).toFinset, available db r' =
          available db r + ∑ r' ∈ refs.toFinset.erase r, available db r' := by
        rw [List.toFinset_cons, ← Finset.add_sum_erase _ _ (Finset.mem_insert_self r _),
          Finset.erase_insert_eq_erase]
      rw [clearBits_cons]
      omega

/-! ### Transactions that name each output once -/

variable (pkg : Packages)

/-- The outputs the real inputs refer to. -/
def Packages.realRefs (txn : Transaction) : List Ref := (pkg.realInputs txn).map Input.ref

/-- No output is named twice. -/
def Packages.NamesOnce (txn : Transaction) : Prop := (pkg.realRefs txn).Nodup

instance (txn : Transaction) : Decidable (pkg.NamesOnce txn) :=
  inferInstanceAs (Decidable (List.Nodup _))

variable {pkg}

theorem Packages.mem_realRefs {txn : Transaction} {r : Ref} :
    r ∈ pkg.realRefs txn ↔ r ∈ txn.refs ∧ r.1 ≠ pkg.noHash := by
  simp only [Packages.realRefs, Transaction.refs, List.mem_map, pkg.mem_realInputs]
  constructor
  · rintro ⟨inp, ⟨mem, real⟩, rfl⟩
    exact ⟨⟨inp, mem, rfl⟩, real⟩
  · rintro ⟨⟨inp, mem, rfl⟩, real⟩
    exact ⟨inp, ⟨mem, real⟩, rfl⟩

/-- What such a transaction brings is the sum over the outputs it names. -/
theorem Packages.NamesOnce.hasCoins {txn : Transaction} (once : pkg.NamesOnce txn)
    (db : Store TxnWrapper) :
    pkg.hasCoins db txn = ∑ r ∈ (pkg.realRefs txn).toFinset, amountAt db r := by
  rw [List.sum_toFinset _ once, Packages.realRefs, List.map_map]
  rfl

/-- Two such transactions with the same inputs bring the same. -/
theorem SameInputs.hasCoins {tx txn : Transaction} (same : SameInputs tx txn)
    (once : pkg.NamesOnce tx) (once' : pkg.NamesOnce txn) (db : Store TxnWrapper) :
    pkg.hasCoins db tx = pkg.hasCoins db txn := by
  rw [once.hasCoins, once'.hasCoins]
  congr 1
  ext r
  simp only [List.mem_toFinset, Packages.mem_realRefs, same.mem_iff]

/-- The outputs an accepted transaction takes from `db` cover what it spends. -/
theorem Packages.Accepts.covered {ledger : Ledger} {txn : Transaction}
    (accepts : pkg.Accepts ledger txn) (once : pkg.NamesOnce txn)
    (unmatched : ledger.checkPendReplacement txn = .unmatched) :
    txn.spendsCoins ≤ ∑ r ∈ txn.refs.toFinset, available ledger.db r := by
  rw [← accepts.balanced, once.hasCoins]
  calc ∑ r ∈ (pkg.realRefs txn).toFinset, amountAt ledger.db r
      = ∑ r ∈ (pkg.realRefs txn).toFinset, available ledger.db r := by
        refine Finset.sum_congr rfl fun r mem => ?_
        obtain ⟨inp, real, rfl⟩ := List.mem_map.mp (List.mem_toFinset.mp mem)
        rw [available, if_pos ((accepts.inputs inp real).unspent rfl unmatched)]
    _ ≤ ∑ r ∈ txn.refs.toFinset, available ledger.db r := by
        refine Finset.sum_le_sum_of_subset fun r mem => ?_
        exact List.mem_toFinset.mpr (Packages.mem_realRefs.mp (List.mem_toFinset.mp mem)).1

/-! ### The entries of `pend` are paid for -/

/-- The real inputs of a transaction refer to stored transactions, and bring what
it spends. -/
structure Packages.PaidIn (pkg : Packages) (db : Store TxnWrapper) (txn : Transaction) : Prop where
  known : ∀ inp ∈ pkg.realInputs txn, ∃ entry, record db inp.txid = some entry
  balanced : pkg.hasCoins db txn = txn.spendsCoins

/-- A transaction stays paid for while records stay. -/
theorem Packages.PaidIn.mono {db db' : Store TxnWrapper} {txn : Transaction}
    (paid : pkg.PaidIn db txn)
    (kept : ∀ k entry, record db k = some entry → record db' k = some entry) :
    pkg.PaidIn db' txn := by
  refine ⟨fun inp mem => ?_, ?_⟩
  · obtain ⟨entry, held⟩ := paid.known inp mem
    exact ⟨entry, kept _ _ held⟩
  · rw [← paid.balanced]
    refine congrArg List.sum (List.map_congr_left fun inp mem => amountAt_congr ?_)
    obtain ⟨entry, held⟩ := paid.known inp mem
    exact (kept _ _ held).trans held.symm

theorem Packages.Accepts.paid {ledger : Ledger} {txn : Transaction}
    (accepts : pkg.Accepts ledger txn) : pkg.PaidIn ledger.db txn where
  known inp mem := by
    obtain ⟨entry, o, held, -⟩ := (accepts.inputs inp mem).authorised
    exact ⟨entry, held⟩
  balanced := accepts.balanced

/-- Every entry of `pend` is paid for. -/
def Ledger.Paid (pkg : Packages) (ledger : Ledger) : Prop :=
  ∀ (k : Bytes) (txnw : TxnWrapper), ledger.pend[k]? = some txnw → pkg.PaidIn ledger.db txnw.txn

/-- What is pending after a move was pending before, or has just been accepted. -/
theorem Packages.Effect.pend {ledger ledger' : Ledger} {move : Move}
    (effect : pkg.Effect ledger move ledger') {k : Bytes} {txnw : TxnWrapper}
    (held : ledger'.pend[k]? = some txnw) :
    ledger.pend[k]? = some txnw ∨ move = .settle txnw.txn ∧ pkg.Accepts ledger txnw.txn := by
  cases effect with
  | accept accepts =>
      rcases Ledger.pend_accept held with ⟨-, -, rfl⟩ | ⟨held', -⟩
      · exact .inr ⟨rfl, accepts⟩
      · exact .inl held'
  | reject => exact .inl held
  | commit =>
      rw [Ledger.commit, Ledger.noted, Ledger.stored, Ledger.getElem?_without_pend] at held
      split at held
      · cases held
      · exact .inl held
  | drop =>
      rw [Ledger.drop, Ledger.noted, Ledger.getElem?_without_pend] at held
      split at held
      · cases held
      · exact .inl held
  | tick => exact .inl held

theorem Ledger.Paid.effect {ledger ledger' : Ledger} {move : Move} (paid : ledger.Paid pkg)
    (effect : pkg.Effect ledger move ledger') : ledger'.Paid pkg := by
  intro k txnw held
  rcases effect.pend held with before | ⟨-, accepts⟩
  · exact (paid k txnw before).mono fun _ _ => effect.kept
  · exact accepts.paid.mono fun _ _ => effect.kept

theorem Setup.paid_of_reachable {setup : Setup} {ledger : Ledger}
    (reached : setup.ledger.Reachable ledger) : ledger.Paid setup.toPackages := by
  refine reached.invariant (I := fun ledger => ledger.Paid setup.toPackages) ?_
    fun _ _ _ _ paid step => paid.effect (setup.effect_of_step step)
  rintro _ rfl k txnw held
  simp [Setup.fresh, Setup.construct] at held

/-! ### No money is created -/

/-- No entry of `pend` names an output twice, and no money was created. -/
structure Ledger.Solvent (pkg : Packages) (issued : Nat) (ledger : Ledger) : Prop where
  once : ∀ (k : Bytes) (txnw : TxnWrapper), ledger.pend[k]? = some txnw → pkg.NamesOnce txnw.txn
  bounded : ledger.unspent + ledger.locked ≤ issued

namespace Ledger

theorem unspent_reserved (pkg : Packages) (ledger : Ledger) (txn : Transaction) (ts : Nat) :
    (ledger.reserved pkg txn ts).unspent + ∑ r ∈ txn.refs.toFinset, available ledger.db r =
      ledger.unspent :=
  total_clearBits ledger.db txn.refs

theorem unspent_stored (pkg : Packages) (ledger : Ledger) {txn : Transaction} (ts : Nat)
    (fresh : pkg.txid txn ∉ ledger.db) :
    (ledger.stored pkg txn ts).unspent + ∑ r ∈ txn.refs.toFinset, available ledger.db r =
      ledger.unspent + txn.spendsCoins := by
  have written := total_insert TxnWrapper.unspent (clearBits ledger.db txn.refs) (pkg.txid txn)
    (.new txn ts)
  have absent : share TxnWrapper.unspent (clearBits ledger.db txn.refs) (pkg.txid txn) = 0 := by
    have none : (clearBits ledger.db txn.refs)[pkg.txid txn]? = none :=
      Std.ExtTreeMap.getElem?_eq_none fun mem => fresh (mem_clearBits.mp mem)
    simp [share, none]
  have cleared := total_clearBits ledger.db txn.refs
  rw [unspent_new] at written
  simp only [Ledger.unspent, Ledger.stored]
  omega

theorem locked_reserved (pkg : Packages) (ledger : Ledger) (txn : Transaction) (ts : Nat) :
    (ledger.reserved pkg txn ts).locked ≤ ledger.locked + txn.spendsCoins := by
  have written := total_insert (fun txnw : TxnWrapper => txnw.txn.spendsCoins) ledger.pend
    (pkg.txid txn) (.new txn ts)
  simp only [TxnWrapper.new_txn] at written
  simp only [locked, reserved]
  omega

/-- An entry that leaves `pend` takes its amount with it. -/
theorem locked_without {ledger : Ledger} (sound : ledger.Sound pkg) {k : Bytes}
    {txnw : TxnWrapper} (held : ledger.pend[k]? = some txnw) :
    (ledger.without pkg txnw.txn).locked + txnw.txn.spendsCoins = ledger.locked := by
  have erased := total_erase (fun txnw : TxnWrapper => txnw.txn.spendsCoins) ledger.pend k
  rw [share, held, Option.map_some, Option.getD_some] at erased
  rw [Ledger.locked, without, sound.pendKeyed k txnw held]
  exact erased

/-- After a replacement, or without one, what is left covers the new
transaction. -/
theorem Solvent.funds {ledger : Ledger} {issued : Nat} (solvent : ledger.Solvent pkg issued)
    (sound : ledger.Sound pkg) (paid : ledger.Paid pkg) {txn : Transaction}
    (accepts : pkg.Accepts ledger txn) (once : pkg.NamesOnce txn) :
    ledger.unspent + (ledger.vacate pkg txn).locked + txn.spendsCoins ≤
      issued + ∑ r ∈ txn.refs.toFinset, available ledger.db r := by
  have bounded := solvent.bounded
  unfold vacate
  cases checked : ledger.checkPendReplacement txn with
  | refused => exact absurd checked accepts.not_refused
  | unmatched =>
      have covered := accepts.covered once checked
      simp only
      omega
  | replaces tx =>
      obtain ⟨k, txnw, held, rfl, same, -⟩ := checkPend_replaces checked
      have freed := locked_without sound held
      have worth : txn.spendsCoins = txnw.txn.spendsCoins := by
        rw [← accepts.balanced, ← (paid k txnw held).balanced,
          same.hasCoins (solvent.once k txnw held) once]
      simp only [locked, without] at freed bounded ⊢
      omega

/-- **Accepting creates no money**, if no output is named twice. -/
theorem Solvent.accept {ledger : Ledger} {issued : Nat} (solvent : ledger.Solvent pkg issued)
    (sound : ledger.Sound pkg) (paid : ledger.Paid pkg) {txn : Transaction}
    (accepts : pkg.Accepts ledger txn) (once : pkg.NamesOnce txn) :
    (ledger.accept pkg txn).unspent + (ledger.accept pkg txn).locked ≤ issued := by
  have funds := solvent.funds sound paid accepts once
  have sameDb := vacate_db pkg ledger txn
  unfold Ledger.accept
  split
  · have cleared := unspent_reserved pkg
      ((ledger.vacate pkg txn).noted (.accepted txn ledger.currentTime)) txn
      (toTimestamp ledger.currentTime)
    have added := locked_reserved pkg
      ((ledger.vacate pkg txn).noted (.accepted txn ledger.currentTime)) txn
      (toTimestamp ledger.currentTime)
    simp only [noted, Ledger.unspent, locked, sameDb] at cleared added funds ⊢
    omega
  · have written := unspent_stored pkg
      ((ledger.vacate pkg txn).noted (.accepted txn ledger.currentTime))
      (toTimestamp ledger.currentTime) (vacate_fresh accepts.fresh)
    simp only [noted, Ledger.unspent, locked, sameDb, stored] at written funds ⊢
    omega

/-- **Committing creates no money.** -/
theorem Solvent.commit {ledger : Ledger} {issued : Nat} (solvent : ledger.Solvent pkg issued)
    (sound : ledger.Sound pkg) {k : Bytes} {txnw : TxnWrapper}
    (held : ledger.pend[k]? = some txnw) (fresh : pkg.txid txnw.txn ∉ ledger.db) :
    (ledger.commit pkg txnw).unspent + (ledger.commit pkg txnw).locked ≤ issued := by
  have bounded := solvent.bounded
  have freed := locked_without sound held
  have written := unspent_stored pkg (ledger.without pkg txnw.txn) txnw.timestamp fresh
  simp only [Ledger.commit, noted, Ledger.unspent, locked, without, stored]
    at bounded freed written ⊢
  omega

theorem Solvent.drop {ledger : Ledger} {issued : Nat} (solvent : ledger.Solvent pkg issued)
    (sound : ledger.Sound pkg) {k : Bytes} {txnw : TxnWrapper}
    (held : ledger.pend[k]? = some txnw) :
    (ledger.drop pkg txnw).unspent + (ledger.drop pkg txnw).locked ≤ issued := by
  have bounded := solvent.bounded
  have freed := locked_without sound held
  simp only [Ledger.drop, noted, Ledger.unspent, locked, without] at bounded freed ⊢
  omega

/-- Every move but the acceptance of a transaction that names an output twice
keeps the ledger solvent. -/
theorem Solvent.effect {ledger ledger' : Ledger} {move : Move} {issued : Nat}
    (solvent : ledger.Solvent pkg issued) (sound : ledger.Sound pkg) (paid : ledger.Paid pkg)
    (once : ∀ txn, move = .settle txn → pkg.NamesOnce txn)
    (effect : pkg.Effect ledger move ledger') : ledger'.Solvent pkg issued := by
  refine ⟨fun k txnw held => ?_, ?_⟩
  · rcases effect.pend held with before | ⟨settles, -⟩
    · exact solvent.once k txnw before
    · exact once _ settles
  · cases effect with
    | accept accepts => exact solvent.accept sound paid accepts (once _ rfl)
    | reject => exact solvent.bounded
    | commit due verifies =>
        obtain ⟨⟨k, held⟩, -⟩ := due
        exact solvent.commit sound held verifies.fresh
    | drop due =>
        obtain ⟨⟨k, held⟩, -⟩ := due
        exact solvent.drop sound held
    | tick => exact solvent.bounded

end Ledger

/-! ### The runs of a node -/

/-- No more is issued than the genesis transactions say, also if the list names
one twice. -/
theorem total_genesis (pkg : Packages) (coinbase : List Transaction) (db : Store TxnWrapper) :
    total TxnWrapper.unspent (coinbase.foldl (fun db gentxn => if pkg.txid gentxn ∈ db then db
      else db.insert (pkg.txid gentxn) (.new gentxn 0)) db) ≤
        total TxnWrapper.unspent db + (coinbase.map Transaction.spendsCoins).sum := by
  induction coinbase generalizing db with
  | nil => simp
  | cons gentxn coinbase ih =>
      rw [List.foldl_cons, List.map_cons, List.sum_cons]
      refine (ih _).trans ?_
      split
      · omega
      · have written := total_insert TxnWrapper.unspent db (pkg.txid gentxn) (.new gentxn 0)
        rw [unspent_new] at written
        omega

theorem Setup.fresh_solvent (setup : Setup) :
    setup.fresh.toLedger.Solvent setup.toPackages setup.issued := by
  refine ⟨fun k txnw held => by simp [Setup.fresh, Setup.construct] at held, ?_⟩
  have genesis := total_genesis setup.toPackages setup.coinbase ∅
  rw [total_empty, Nat.zero_add] at genesis
  have empty : setup.fresh.toLedger.locked = 0 := total_empty _
  rw [empty]
  exact genesis

/-- The transactions that `process_block` examines in the step name each output once. -/
def Setup.NamesOnce (setup : Setup) (s : Storage) (a : Action) : Prop :=
  ∀ txn, setup.Examines s a txn → setup.toPackages.NamesOnce txn

instance (setup : Setup) (s : Storage) (a : Action) : Decidable (setup.NamesOnce s a) :=
  decidable_of_iff _ (forall_examines setup.toPackages).symm

/-- **No value is created** in a run in which no transaction examined names an
output twice. -/
theorem Setup.node_supply {setup : Setup} {s : Storage}
    (reached : (setup.node.restrict setup.NamesOnce).Reachable s) :
    s.unspent + s.locked ≤ setup.issued := by
  refine (setup.node_invariant setup.fresh_solvent ?_ reached).bounded
  intro s a move ledger ledger' once _ allowed reached' solvent effect
  refine solvent.effect (sound_of_reachable reached') (paid_of_reachable reached') ?_ effect
  rintro txn rfl
  cases allowed with
  | examined examines => exact once txn examines

/-- A payment of 1 that names its input `times` times. -/
def payment (times : Nat) : Transaction :=
  ⟨List.replicate times (Ideal.spend (Ideal.packages.txid Ideal.genesis) 0),
    [Ideal.coin times], 0, 0⟩

def paymentRun (times : Nat) : List Action :=
  [.puttxn (payment times), .deliver ⟨0, [Ideal.packages.txid (payment times)]⟩, .tryProcess]

theorem node_supply_payment :
    acceptedIn (Ideal.small.replay Ideal.small.NamesOnce (paymentRun 1)
        Ideal.small.fresh).trace = [payment 1] ∧
      (Ideal.small.replay Ideal.small.NamesOnce (paymentRun 1) Ideal.small.fresh).unspent +
        (Ideal.small.replay Ideal.small.NamesOnce (paymentRun 1) Ideal.small.fresh).locked ≤
          Ideal.small.issued :=
  ⟨by decide +kernel, Setup.node_supply (Setup.reachable_replay (.start rfl) _)⟩

/-- **Money out of nothing.** A transaction that names an output of 1 twice may
spend 2. -/
theorem supply_inflated :
    ¬ ∀ s, Ideal.small.node.Reachable s → s.unspent + s.locked ≤ Ideal.small.issued := by
  intro claim
  have kept := claim _ (Ideal.small.reachable_after (paymentRun 2))
  have inflated : (Ideal.small.after (paymentRun 2)).unspent = 3 := by decide +kernel
  have issued : Ideal.small.issued = 2 := by decide +kernel
  omega

end Belcoin
