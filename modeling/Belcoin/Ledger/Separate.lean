import Belcoin.Ledger.Edits
import Belcoin.Ledger.Exclusive

/-!
Transactions that have nothing to do with each other.

Two transactions are `Separate` if neither spends the other, and `Independent` if,
besides, they share no input. What settling one writes then commutes with what settling
the other writes (`Separate.comm`), and changes nothing that verifying the other reads
(`Independent.seenAlike`, `Separate.seenAlike`).
-/

namespace Belcoin

open Stateful Independent

variable (pkg : Packages)

/-- Two transactions, neither of which spends an output of the other. -/
structure Packages.Separate (txn txn' : Transaction) : Prop where
  txids : pkg.txid txn ≠ pkg.txid txn'
  names : ∀ r ∈ txn.refs, r.1 ≠ pkg.txid txn'
  named : ∀ r ∈ txn'.refs, r.1 ≠ pkg.txid txn

/-- Two transactions without a common input, neither of which spends the other. -/
structure Packages.Independent (txn txn' : Transaction) : Prop
    extends pkg.Separate txn txn' where
  inputs : ∀ r ∈ txn.refs, r ∉ txn'.refs

/-- The transaction has inputs, and none is a dummy. -/
structure Packages.Solid (txn : Transaction) : Prop where
  some : txn.inputs ≠ []
  real : ∀ inp ∈ txn.inputs, inp.txid ≠ pkg.noHash

variable {pkg} {txn txn' : Transaction}

theorem Packages.Separate.symm (separate : pkg.Separate txn txn') : pkg.Separate txn' txn :=
  ⟨separate.txids.symm, separate.named, separate.names⟩

theorem Packages.Independent.symm (independent : pkg.Independent txn txn') :
    pkg.Independent txn' txn :=
  ⟨independent.toSeparate.symm, fun r mem mem' => independent.inputs r mem' mem⟩

instance : Std.Symm pkg.Independent := ⟨fun _ _ => Packages.Independent.symm⟩

/-- What has the inputs of one is not what has the inputs of the other. -/
theorem Packages.Independent.txid_ne (free : pkg.CollisionFree)
    (independent : pkg.Independent txn txn') (real : txn'.refs ≠ []) {tx tx' : Transaction}
    (same : SameInputs tx txn) (same' : SameInputs tx' txn') : pkg.txid tx ≠ pkg.txid tx' := by
  intro equal
  have sameRefs : tx.refs = tx'.refs := congrArg Body.refs (free.body_eq equal)
  obtain ⟨r, mem⟩ := List.exists_mem_of_ne_nil _ real
  have shared : r ∈ tx.refs := sameRefs ▸ (same'.mem_iff r).mpr mem
  exact independent.inputs r ((same.mem_iff r).mp shared) mem

/-! ### Edits commute -/

/-- The edit concerns this transaction, or takes one out of `pend`. -/
def Edit.About (txn : Transaction) : Edit → Prop
  | .spend r _ => r ∈ txn.refs
  | .store txn' _ => txn' = txn
  | .hold txn' _ => txn' = txn
  | _ => True

theorem about_spends (db : Store TxnWrapper) (txn : Transaction) :
    ∀ e ∈ pkg.spends db txn.inputs, e.About txn := by
  intro e mem
  obtain ⟨inp, named, rfl⟩ := List.mem_map.mp mem
  exact List.mem_map_of_mem named

/-- Edits about separate transactions are clear of each other, as long as neither takes
out of `pend` what the other puts there. -/
theorem Edit.About.clear (separate : pkg.Separate txn txn') {e e' : Edit} (about : e.About txn)
    (about' : e'.About txn') (kept : ∀ tx ts, e = .release tx → e' = .hold txn' ts →
      pkg.txid txn' ≠ pkg.txid tx)
    (kept' : ∀ tx ts, e' = .release tx → e = .hold txn ts → pkg.txid txn ≠ pkg.txid tx) :
    e.Clear pkg e' := by
  cases e with
  | spend r pubkeys =>
      cases e' with
      | store => exact about' ▸ separate.names r about
      | _ => trivial
  | store =>
      cases e' with
      | spend r pubkeys => exact about ▸ separate.named r about'
      | store =>
          cases about
          cases about'
          exact separate.txids
      | _ => trivial
  | hold =>
      cases about
      cases e' with
      | hold =>
          cases about'
          exact separate.txids
      | release tx => exact kept' tx _ rfl rfl
      | _ => trivial
  | release tx =>
      cases e' with
      | hold =>
          cases about'
          exact kept tx _ rfl rfl
      | _ => trivial
  | note => cases e' <;> trivial

/-- **Edits about separate transactions commute.** -/
theorem Packages.Separate.comm (separate : pkg.Separate txn txn') {es es' : List Edit}
    (about : ∀ e ∈ es, e.About txn) (about' : ∀ e ∈ es', e.About txn')
    (kept : ∀ tx ts, .release tx ∈ es → .hold txn' ts ∈ es' → pkg.txid txn' ≠ pkg.txid tx)
    (kept' : ∀ tx ts, .release tx ∈ es' → .hold txn ts ∈ es → pkg.txid txn ≠ pkg.txid tx)
    (a : Accounts) : (a.edits pkg es).edits pkg es' = (a.edits pkg es').edits pkg es := by
  have clear : ∀ e ∈ es, ∀ e' ∈ es', e.Clear pkg e' := by
    intro e mem e' mem'
    refine Edit.About.clear separate (about e mem) (about' e' mem') ?_ ?_
    · rintro tx ts rfl rfl
      exact kept tx ts mem mem'
    · rintro tx ts rfl rfl
      exact kept' tx ts mem' mem
  have steps : ∀ e ∈ es, ∀ e' ∈ es', ∀ a : Accounts,
      (a.edit pkg e).edit pkg e' = (a.edit pkg e').edit pkg e :=
    fun e mem e' mem' a => (clear e mem e' mem').comm pkg a
  exact foldl_comm steps a

/-! ### Verification sees no difference -/

namespace Ledger

variable {ledger : Ledger}

/-- What acceptance does to the rest of `db`. -/
theorem bit_accept_other {r : Ref} (other : r.1 ≠ pkg.txid txn) (unspent : r ∉ txn.refs) :
    bit (ledger.accept pkg txn).db r = bit ledger.db r := by
  unfold accept
  split
  · rw [bit_reserved, if_neg unspent, noted, vacate_db]
  · rw [bit_stored other, if_neg unspent, noted, vacate_db]

theorem record_accept_other {k : Bytes} (other : k ≠ pkg.txid txn) :
    record (ledger.accept pkg txn).db k = record ledger.db k := by
  unfold accept
  split
  · rw [record_reserved, noted, vacate_db]
  · rw [record_stored, if_neg other, noted, vacate_db]

/-- `check_pend_replacement` looks at the entries of `pend` with the same inputs only. -/
theorem checkPend_congr {ledger ledger' : Ledger} {txn : Transaction}
    (time : ledger'.currentTime = ledger.currentTime)
    (rivals : ∀ (k : Bytes) (txnw : TxnWrapper), SameInputs txnw.txn txn →
      (ledger'.pend[k]? = some txnw ↔ ledger.pend[k]? = some txnw)) :
    ledger'.checkPendReplacement txn = ledger.checkPendReplacement txn := by
  have same : ledger'.pend.filter (fun _ txnw => decide (SameInputs txnw.txn txn)) =
      ledger.pend.filter fun _ txnw => decide (SameInputs txnw.txn txn) := by
    ext k txnw
    simp only [Std.ExtTreeMap.getElem?_filter', Option.filter_eq_some_iff, decide_eq_true_eq]
    exact and_congr_left fun rival => rivals k txnw rival
  have listed := congrArg Std.ExtTreeMap.toList same
  rw [Std.ExtTreeMap.toList_filter, Std.ExtTreeMap.toList_filter] at listed
  have first := congrArg List.head? listed
  rw [List.head?_filter, List.head?_filter] at first
  unfold checkPendReplacement
  rw [first, time]

/-- Of the entries of `pend` that another transaction competes with, acceptance changes
none. -/
theorem pend_accept_rival (free : pkg.CollisionFree)
    (pendKeyed : ∀ (k : Bytes) (txnw : TxnWrapper), ledger.pend[k]? = some txnw →
      pkg.txid txnw.txn = k)
    (independent : pkg.Independent txn txn') (real : txn'.refs ≠ []) {k : Bytes}
    {txnw : TxnWrapper} (rival : SameInputs txnw.txn txn') :
    (ledger.accept pkg txn).pend[k]? = some txnw ↔ ledger.pend[k]? = some txnw := by
  have other : ∀ tx, SameInputs tx txn → pkg.txid tx ≠ pkg.txid txnw.txn :=
    fun tx same => independent.txid_ne free real same rival
  constructor
  · intro held
    rcases pend_accept held with ⟨-, -, rfl⟩ | ⟨before, -⟩
    · exact absurd rfl (other txn rfl)
    · exact before
  · intro held
    have kept : (ledger.vacate pkg txn).pend[k]? = some txnw := by
      refine vacate_pend.mpr ⟨held, fun tx checked => ?_⟩
      obtain ⟨-, -, -, -, same, -⟩ := checkPend_replaces checked
      rw [← pendKeyed k txnw held]
      exact other tx same
    unfold accept
    split
    · rw [getElem?_reserved_pend, if_neg (pendKeyed k txnw held ▸ other txn rfl)]
      exact kept
    · exact kept

/-- **What another transaction reads does not change** when one is accepted. -/
theorem seenAlike_accept (free : pkg.CollisionFree)
    (pendKeyed : ∀ (k : Bytes) (txnw : TxnWrapper), ledger.pend[k]? = some txnw →
      pkg.txid txnw.txn = k)
    (independent : pkg.Independent txn txn') (real : txn'.refs ≠ []) :
    pkg.SeenAlike ledger (ledger.accept pkg txn) txn' true where
  time := accept_currentTime ledger txn
  known := by
    rw [mem_accept]
    exact or_iff_left fun own => independent.txids own.2.symm
  records inp mem := record_accept_other (independent.named inp.ref (List.mem_map_of_mem mem))
  bits _ inp mem := by
    have named : inp.ref ∈ txn'.refs := List.mem_map_of_mem mem
    exact bit_accept_other (independent.named inp.ref named) fun shared =>
      independent.inputs inp.ref shared named
  pending _ := checkPend_congr (accept_currentTime ledger txn) fun _ _ rival =>
    pend_accept_rival free pendKeyed independent real rival

/-- What is stored stays so when a transaction leaves `pend` for `db`. -/
theorem stored_commit {txnw : TxnWrapper} {r : Ref} (other : r.1 ≠ pkg.txid txnw.txn)
    (stored : Stored ledger.db r) : Stored (ledger.commit pkg txnw).db r := by
  obtain ⟨w, held, inBits, inOutputs⟩ := (stored_clearBits _ txnw.txn.refs r).mpr stored
  refine ⟨w, ?_, inBits, inOutputs⟩
  simp only [commit, noted, Ledger.stored, without, Std.ExtTreeMap.getElem?_insert,
    Std.LawfulEqCmp.compare_eq_iff_eq, if_neg other.symm]
  exact held

/-- What `update_pend` reads of a transaction does not change when another one leaves
`pend`. -/
theorem seenAlike_commit {txnw : TxnWrapper} (separate : pkg.Separate txnw.txn txn') :
    pkg.SeenAlike ledger (ledger.commit pkg txnw) txn' false where
  time := rfl
  known := by
    refine mem_stored.trans (or_iff_left fun own => separate.txids own.symm)
  records inp mem := by
    refine record_stored.trans (if_neg ?_)
    exact separate.named inp.ref (List.mem_map_of_mem mem)
  bits := by simp
  pending := by simp

end Ledger

end Belcoin
