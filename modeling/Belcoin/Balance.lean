import Belcoin.Wallet
import Belcoin.Ledger.Supply
import Mathlib.Algebra.BigOperators.Group.Finset.Piecewise
import Mathlib.Algebra.BigOperators.Ring.Finset

/-!
Balances.

`get_balance` sorts the outputs of a key into three sums by its own test of the HTLC
timeout, and `verify_txn` chooses between two signature checks by another. `sum_credits`
says that the owners of an output are credited with twice its amount in all, whatever
the time; `node_balances` that the balances of all keys make up the ledger, and that an
unspent output is counted for those who could spend it.
-/

namespace Belcoin

open Traverse Std.ExtTreeMap

/-! ### The branches of `verify_txn` -/

/-- Who can spend an output: its owners, or who knows the preimage of its hashlock. -/
inductive Branch where
  | owners
  | htlc
  deriving DecidableEq

/-- The branch that `verify_txn` takes for an input that refers to `r`, if it gets so
far. -/
def Ledger.branch (ledger : Ledger) (r : Ref) : Option Branch :=
  ledger.db[r.1]?.bind fun outputTxnw => outputTxnw.txn.outputs[r.2]?.map fun spentOutput =>
    if spentOutput.HtlcTimeoutReached ledger.currentTime outputTxnw.timestamp then .owners
    else .htlc

/-- The signatures that each branch asks for. -/
def Packages.signed (pkg : Packages) (txid : Bytes) (o : Output) (inp : Input) : Branch → Bool
  | .owners =>
      pkg.verifySig txid o.pubkey inp.signature && pkg.verifySig txid o.pubkey2 inp.signature2
  | .htlc =>
      pkg.sha256 inp.htlcPreimage == o.htlcHashlock &&
        pkg.verifySig txid o.htlcPubkey inp.htlcSignature

/-- `verify_txn` authorises an input by the branch of the output it refers to. -/
theorem Packages.authorised_iff_branch (pkg : Packages) (ledger : Ledger) (txn : Transaction)
    (inp : Input) :
    pkg.Authorised ledger.db ledger.currentTime txn inp ↔
      ∃ o branch, outputAt ledger.db inp.ref = some o ∧ ledger.branch inp.ref = some branch ∧
        pkg.signed (pkg.txid txn) o inp branch = true := by
  unfold Packages.Authorised Ledger.branch outputAt record Input.ref
  cases ledger.db[inp.txid]? with
  | none => simp
  | some txnw =>
      cases out : txnw.txn.outputs[inp.index]? with
      | none => simp [out]
      | some o =>
          by_cases reached : o.HtlcTimeoutReached ledger.currentTime txnw.timestamp <;>
            simp [out, reached, Packages.checkSignatures, Packages.signed]

/-! ### `get_balance` -/

/-- `[bal, bal_partial, bal_htlc]`. -/
structure Balance where
  bal : Nat
  balPartial : Nat
  balHtlc : Nat
  deriving DecidableEq, Repr

/-- The two tests of the loop body of `get_balance`: the timeout is reached, and it is
not. -/
def Output.Credits (now : ℚ≥0) (pubkey : Bytes) (timestamp : Nat) (o : Output) : Branch → Prop
  | .owners => (pubkey = o.pubkey ∨ pubkey = o.pubkey2) ∧
      elapsed now timestamp ≥ o.htlcTimeout * timeoutConst
  | .htlc => pubkey = o.htlcPubkey ∧ elapsed now timestamp < o.htlcTimeout * timeoutConst

instance (now : ℚ≥0) (pubkey : Bytes) (timestamp : Nat) (o : Output) :
    DecidablePred (o.Credits now pubkey timestamp)
  | .owners => inferInstanceAs (Decidable ((_ ∨ _) ∧ _))
  | .htlc => inferInstanceAs (Decidable (_ ∧ _))

/-- The loop body of `get_balance`. -/
def Balance.credit (now : ℚ≥0) (pubkey : Bytes) (timestamp : Nat) (o : Output) (b : Balance) :
    Balance :=
  let b := if o.Credits now pubkey timestamp .owners then
      if o.pubkey = o.pubkey2 then { b with bal := b.bal + o.amount }
      else { b with balPartial := b.balPartial + o.amount }
    else b
  if o.Credits now pubkey timestamp .htlc then { b with balHtlc := b.balHtlc + o.amount } else b

/-- `get_balance`. The index is compared with `pub_outs` by value, to choose the database. -/
def Storage.getBalance (s : Storage) (order : SetOrder) (pubkey : Bytes) (index : Index) :
    Except PyError Balance :=
  match index[pubkey]? with
  | none => .ok ⟨0, 0, 0⟩
  | some outs => (order.list outs).foldlM (fun b r => do
      let txnw ← lookup (if index = s.pubOuts then s.db else s.pend) r.1
      match txnw.txn.outputs[r.2]? with
      | none => throw .indexError
      | some o => pure (b.credit s.currentTime pubkey txnw.timestamp o)) ⟨0, 0, 0⟩

/-- What a balance counts for: whole owners and claimants twice, half owners once. -/
def Balance.weight (b : Balance) : Nat := 2 * b.bal + b.balPartial + 2 * b.balHtlc

/-- What the output `r` of `db` adds to a balance. -/
def Balance.creditAt (now : ℚ≥0) (pubkey : Bytes) (db : Store TxnWrapper) (b : Balance) (r : Ref) :
    Balance :=
  match db[r.1]? with
  | none => b
  | some txnw => match txnw.txn.outputs[r.2]? with
    | none => b
    | some o => b.credit now pubkey txnw.timestamp o

/-! ### Balances as sums -/

/-- A measure of balances to which each output adds its own share. -/
def Balance.Additive (measure : Balance → Nat) : Prop :=
  measure ⟨0, 0, 0⟩ = 0 ∧ ∀ (b : Balance) now pubkey timestamp o,
    measure (b.credit now pubkey timestamp o) =
      measure b + measure (Balance.credit now pubkey timestamp o ⟨0, 0, 0⟩)

namespace Balance

/-- An output adds the same to the three sums, whatever they are. -/
theorem credit_adds (now : ℚ≥0) (pubkey : Bytes) (timestamp : Nat) (o : Output) :
    ∃ whole half claim, ∀ b : Balance, b.credit now pubkey timestamp o =
      ⟨b.bal + whole, b.balPartial + half, b.balHtlc + claim⟩ := by
  let owned := if o.Credits now pubkey timestamp .owners then o.amount else 0
  let claimed := if o.Credits now pubkey timestamp .htlc then o.amount else 0
  by_cases sole : o.pubkey = o.pubkey2
  · refine ⟨owned, 0, claimed, ?_⟩
    intro b
    simp only [credit, owned, claimed, if_pos sole]
    split <;> split <;> rfl
  · refine ⟨0, owned, claimed, ?_⟩
    intro b
    simp only [credit, owned, claimed, if_neg sole]
    split <;> split <;> rfl

/-- Sums of the three with fixed factors are additive. -/
theorem linear_additive (i j k : Nat) :
    Additive fun b => i * b.bal + j * b.balPartial + k * b.balHtlc := by
  refine ⟨rfl, ?_⟩
  intro b now pubkey timestamp o
  obtain ⟨whole, half, claim, adds⟩ := credit_adds now pubkey timestamp o
  simp only [adds]
  ring

theorem weight_additive : Additive weight := by
  have additive := linear_additive 2 1 2
  simp only [one_mul] at additive
  exact additive

theorem owned_additive : Additive fun b => b.bal + b.balPartial := by
  simpa only [one_mul, zero_mul, add_zero] using linear_additive 1 1 0

theorem htlc_additive : Additive balHtlc := by
  have additive := linear_additive 0 0 1
  simp only [one_mul, zero_mul, zero_add] at additive
  exact additive

variable {now : ℚ≥0} {pubkey : Bytes} {db : Store TxnWrapper} {measure : Balance → Nat}

/-- A reference to no output adds nothing, and any other its output. -/
theorem creditAt_cases (db : Store TxnWrapper) (r : Ref) :
    outputAt db r = none ∧ (∀ now pubkey b, creditAt now pubkey db b r = b) ∨
      ∃ txnw o, db[r.1]? = some txnw ∧ txnw.txn.outputs[r.2]? = some o ∧
        ∀ now pubkey b, creditAt now pubkey db b r = b.credit now pubkey txnw.timestamp o := by
  unfold creditAt outputAt
  cases db[r.1]? with
  | none => exact .inl ⟨rfl, fun _ _ _ => rfl⟩
  | some txnw =>
      cases out : txnw.txn.outputs[r.2]? with
      | none => exact .inl ⟨out, fun _ _ _ => by simp only [out]⟩
      | some o => exact .inr ⟨txnw, o, rfl, out, fun _ _ _ => by simp only [out]⟩

theorem measure_creditAt (additive : Additive measure) (b : Balance) (r : Ref) :
    measure (b.creditAt now pubkey db r) =
      measure b + measure (creditAt now pubkey db ⟨0, 0, 0⟩ r) := by
  obtain ⟨-, nothing⟩ | ⟨txnw, o, -, -, counted⟩ := creditAt_cases db r
  · rw [nothing, nothing, additive.1, Nat.add_zero]
  · rw [counted, counted]
    exact additive.2 b _ _ _ _

theorem measure_foldl (additive : Additive measure) (refs : List Ref) (b : Balance) :
    measure (refs.foldl (creditAt now pubkey db) b) =
      measure b + (refs.map fun r => measure (creditAt now pubkey db ⟨0, 0, 0⟩ r)).sum := by
  induction refs generalizing b with
  | nil => simp
  | cons r refs ih =>
      rw [List.foldl_cons, ih, measure_creditAt additive, List.map_cons, List.sum_cons,
        Nat.add_assoc]

/-- The measure of a balance made in any order. -/
theorem measure_refs (additive : Additive measure) (index : Index) (order : SetOrder) :
    measure ((index.refs order pubkey).foldl (creditAt now pubkey db) ⟨0, 0, 0⟩) =
      ∑ r ∈ index.outs pubkey, measure (creditAt now pubkey db ⟨0, 0, 0⟩ r) := by
  have same : (index.refs order pubkey).toFinset = index.outs pubkey := by
    ext r
    rw [List.mem_toFinset, Index.mem_refs]
  rw [measure_foldl additive, additive.1, Nat.zero_add, ← same,
    List.sum_toFinset _ (Index.nodup_refs _ _ _)]

end Balance

variable {pkg : Packages} {s : Storage} {order : SetOrder}

/-- `get_balance` returns where every output listed is in the database it looks into. -/
theorem getBalance_ok {pubkey : Bytes} {index : Index} {db : Store TxnWrapper}
    (chosen : ∀ r ∈ index.outs pubkey, (if index = s.pubOuts then s.db else s.pend) = db)
    (stored : ∀ r ∈ index.outs pubkey, ∃ txnw o, db[r.1]? = some txnw ∧
      txnw.txn.outputs[r.2]? = some o) :
    s.getBalance order pubkey index =
      .ok ((index.refs order pubkey).foldl (Balance.creditAt s.currentTime pubkey db) ⟨0, 0, 0⟩) := by
  unfold Storage.getBalance Index.refs
  cases listed : index[pubkey]? with
  | none => rfl
  | some outs =>
      have outsEq : index.outs pubkey = outs := by simp [Index.outs, listed]
      refine foldlM_ok (fun r mem b => ?_) _
      have mem' : r ∈ index.outs pubkey := outsEq ▸ (order.mem_list outs r).mp mem
      obtain ⟨txnw, o, held, out⟩ := stored r mem'
      have found : lookup db r.1 = .ok txnw := by rw [lookup, held]
      simp only [chosen r mem', found, Balance.creditAt, held, out, bind, Except.bind, pure,
        Except.pure]

/-- The balances of a key in the two indexes. -/
theorem Storage.Mirrors.getBalance (mirrors : s.Mirrors pkg) (pubkey : Bytes) :
    s.getBalance order pubkey s.pubOuts = .ok ((s.pubOuts.refs order pubkey).foldl
        (Balance.creditAt s.currentTime pubkey s.db) ⟨0, 0, 0⟩) ∧
      s.getBalance order pubkey s.pubOutsPend = .ok ((s.pubOutsPend.refs order pubkey).foldl
        (Balance.creditAt s.currentTime pubkey s.pend) ⟨0, 0, 0⟩) := by
  constructor
  · refine getBalance_ok (fun _ _ => if_pos rfl) fun r mem => ?_
    obtain ⟨txnw, held, -, o, out, -⟩ := (mirrors.outs pubkey r).mp mem
    exact ⟨txnw, o, held, out⟩
  · refine getBalance_ok (fun r mem => if_neg fun same => ?_) fun r mem => ?_
    · -- an output listed in both indexes would be in both databases
      have inDb : r ∈ s.pubOuts.outs pubkey := same ▸ mem
      obtain ⟨txnw, held, -⟩ := (mirrors.outs pubkey r).mp inDb
      obtain ⟨txnw', held', -⟩ := (mirrors.pendOuts pubkey r).mp mem
      exact mirrors.apart r.1 (Std.ExtTreeMap.mem_iff_isSome_getElem?.mpr (by simp [held]))
        (Std.ExtTreeMap.mem_iff_isSome_getElem?.mpr (by simp [held']))
    · obtain ⟨txnw, held, o, out, -⟩ := (mirrors.pendOuts pubkey r).mp mem
      exact ⟨txnw, o, held, out⟩

/-! ### Twice the amount -/

/-- `get_pubkeys` lists the three keys of an output, and no other. -/
def Packages.ListsOwners (pkg : Packages) : Prop :=
  ∀ o p, p ∈ pkg.getPubkeys o ↔ p = o.pubkey ∨ p = o.pubkey2 ∨ p = o.htlcPubkey

/-- The credits of the keys of an output make up twice its amount. -/
theorem sum_credits (now : ℚ≥0) (timestamp : Nat) (o : Output) (keys : Finset Bytes)
    (pubkey : o.pubkey ∈ keys) (pubkey2 : o.pubkey2 ∈ keys) (htlcPubkey : o.htlcPubkey ∈ keys) :
    ∑ p ∈ keys, (Balance.credit now p timestamp o ⟨0, 0, 0⟩).weight = 2 * o.amount := by
  by_cases reached : elapsed now timestamp ≥ o.htlcTimeout * timeoutConst
  · have waits : ¬elapsed now timestamp < o.htlcTimeout * timeoutConst := not_lt.mpr reached
    by_cases single : o.pubkey = o.pubkey2
    · have credit : ∀ p, (Balance.credit now p timestamp o ⟨0, 0, 0⟩).weight =
          if p = o.pubkey then 2 * o.amount else 0 := by
        intro p
        by_cases own : p = o.pubkey <;>
          simp [Balance.credit, Balance.weight, Output.Credits, reached, waits, own, ← single]
      simp only [credit, Finset.sum_ite_eq', if_pos pubkey]
    · have credit : ∀ p, (Balance.credit now p timestamp o ⟨0, 0, 0⟩).weight =
          (if p = o.pubkey then o.amount else 0) + if p = o.pubkey2 then o.amount else 0 := by
        intro p
        by_cases own : p = o.pubkey
        · simp [Balance.credit, Balance.weight, Output.Credits, reached, waits, own, single]
        · by_cases own2 : p = o.pubkey2 <;>
            simp [Balance.credit, Balance.weight, Output.Credits, reached, waits, own, own2,
              single, Ne.symm single]
      simp only [credit, Finset.sum_add_distrib, Finset.sum_ite_eq', if_pos pubkey, if_pos pubkey2,
        Nat.two_mul]
  · have waits : elapsed now timestamp < o.htlcTimeout * timeoutConst := not_le.mp reached
    have credit : ∀ p, (Balance.credit now p timestamp o ⟨0, 0, 0⟩).weight =
        if p = o.htlcPubkey then 2 * o.amount else 0 := by
      intro p
      by_cases own : p = o.htlcPubkey <;>
        simp [Balance.credit, Balance.weight, Output.Credits, reached, waits, own]
    simp only [credit, Finset.sum_ite_eq', if_pos htlcPubkey]

/-- A key that is none of the three is credited nothing. -/
theorem credit_stranger {now : ℚ≥0} {p : Bytes} {timestamp : Nat} {o : Output}
    (stranger : ¬(p = o.pubkey ∨ p = o.pubkey2 ∨ p = o.htlcPubkey)) :
    Balance.credit now p timestamp o ⟨0, 0, 0⟩ = ⟨0, 0, 0⟩ := by
  push Not at stranger
  simp [Balance.credit, Output.Credits, stranger]

/-- The outputs in `outs`, each listed under its keys, are worth twice their amounts to
the keys together. -/
theorem sum_index (owners : pkg.ListsOwners) {now : ℚ≥0} {db : Store TxnWrapper} {index : Index}
    {outs : Finset Ref} {keys : Finset Bytes}
    (listed : ∀ p r, r ∈ index.outs p ↔
      r ∈ outs ∧ ∃ txnw, db[r.1]? = some txnw ∧ pkg.Owns txnw.txn r.2 p)
    (covers : ∀ p r, r ∈ index.outs p → p ∈ keys) :
    ∑ p ∈ keys, ∑ r ∈ index.outs p, (Balance.creditAt now p db ⟨0, 0, 0⟩ r).weight =
      2 * ∑ r ∈ outs, amountAt db r := by
  have wider : ∀ p, ∑ r ∈ index.outs p, (Balance.creditAt now p db ⟨0, 0, 0⟩ r).weight =
      ∑ r ∈ outs, (Balance.creditAt now p db ⟨0, 0, 0⟩ r).weight := by
    intro p
    refine Finset.sum_subset (fun r mem => ((listed p r).mp mem).1) fun r mem unlisted => ?_
    obtain ⟨-, nothing⟩ | ⟨txnw, o, held, out, counted⟩ := Balance.creditAt_cases db r
    · rw [nothing, Balance.weight_additive.1]
    · -- what is not listed under `p` is not its own
      have stranger : ¬(p = o.pubkey ∨ p = o.pubkey2 ∨ p = o.htlcPubkey) := fun own =>
        unlisted ((listed p r).mpr ⟨mem, txnw, held, o, out, (owners o p).mpr own⟩)
      rw [counted, credit_stranger stranger, Balance.weight_additive.1]
  rw [Finset.sum_congr rfl fun p _ => wider p, Finset.sum_comm, Finset.mul_sum]
  refine Finset.sum_congr rfl fun r mem => ?_
  obtain ⟨none, nothing⟩ | ⟨txnw, o, held, out, counted⟩ := Balance.creditAt_cases db r
  · simp [nothing, amountAt, none, Balance.weight]
  · have known : ∀ p, p = o.pubkey ∨ p = o.pubkey2 ∨ p = o.htlcPubkey → p ∈ keys :=
      fun p own => covers p r ((listed p r).mpr ⟨mem, txnw, held, o, out, (owners o p).mpr own⟩)
    have amount : amountAt db r = o.amount := by simp [amountAt, outputAt, held, out]
    rw [Finset.sum_congr rfl fun p _ => congrArg Balance.weight (counted now p ⟨0, 0, 0⟩), amount]
    exact sum_credits now txnw.timestamp o keys (known _ (.inl rfl)) (known _ (.inr (.inl rfl)))
      (known _ (.inr (.inr rfl)))

/-! ### The ledger as sums over outputs -/

/-- The unspent outputs in `db`. -/
def Ledger.unspentOuts (ledger : Ledger) : Finset Ref :=
  {r ∈ cells (fun txnw => (txnw.txn.outputs.zip txnw.utxos).length) ledger.db |
    bit ledger.db r = some true}

/-- The outputs in `pend`. -/
def Ledger.pendOuts (ledger : Ledger) : Finset Ref :=
  cells (fun txnw => txnw.txn.outputs.length) ledger.pend

theorem Ledger.mem_unspentOuts {ledger : Ledger} {r : Ref} :
    r ∈ ledger.unspentOuts ↔ bit ledger.db r = some true ∧ ∃ o, outputAt ledger.db r = some o := by
  rw [unspentOuts, Finset.mem_filter, mem_cells, and_comm]
  refine and_congr_right fun unspent => ?_
  obtain ⟨txnw, held, set⟩ := Option.bind_eq_some_iff.mp unspent
  have inside : r.2 < txnw.utxos.length := (List.getElem?_eq_some_iff.mp set).1
  simp only [outputAt, held, Option.bind_some, Option.some.injEq, exists_eq_left',
    List.length_zip, lt_min_iff, inside, and_true]
  constructor
  · exact fun inside => ⟨_, List.getElem?_eq_getElem inside⟩
  · rintro ⟨o, out⟩
    exact (List.getElem?_eq_some_iff.mp out).1

theorem Ledger.unspent_eq_sum (ledger : Ledger) :
    ledger.unspent = ∑ r ∈ ledger.unspentOuts, amountAt ledger.db r := by
  have perEntry : ∀ txnw : TxnWrapper, txnw.unspent =
      ∑ i ∈ Finset.range (txnw.txn.outputs.zip txnw.utxos).length,
        (((txnw.txn.outputs.zip txnw.utxos)[i]?.map fun entry =>
          if entry.2 then entry.1.amount else 0).getD 0) :=
    fun txnw => sum_map_range _ _
  rw [Ledger.unspent, funext perEntry, total_cells, unspentOuts, Finset.sum_filter]
  refine Finset.sum_congr rfl fun r _ => ?_
  unfold bit amountAt outputAt
  cases held : ledger.db[r.1]? with
  | none => simp
  | some txnw =>
      cases out : txnw.txn.outputs[r.2]? <;> cases set : txnw.utxos[r.2]? <;>
        simp [List.zip, List.getElem?_zipWith, out, set]

theorem Ledger.locked_eq_sum (ledger : Ledger) :
    ledger.locked = ∑ r ∈ ledger.pendOuts, amountAt ledger.pend r := by
  have perEntry : ∀ txnw : TxnWrapper, txnw.txn.spendsCoins =
      ∑ i ∈ Finset.range txnw.txn.outputs.length,
        (txnw.txn.outputs[i]?.map Output.amount).getD 0 :=
    fun txnw => sum_map_range _ _
  rw [locked, funext perEntry, total_cells, pendOuts]
  refine Finset.sum_congr rfl fun r _ => ?_
  unfold amountAt outputAt
  cases ledger.pend[r.1]? <;> rfl

/-! ### What the balances say -/

/-- `get_balance` counts `r` for `pubkey` as an output of this branch. -/
def Ledger.Credits (ledger : Ledger) (pubkey : Bytes) (branch : Branch) (r : Ref) : Prop :=
  ∃ txnw ∈ ledger.db[r.1]?, ∃ o ∈ txnw.txn.outputs[r.2]?,
    o.Credits ledger.currentTime pubkey txnw.timestamp branch

instance (ledger : Ledger) (pubkey : Bytes) (branch : Branch) :
    DecidablePred (ledger.Credits pubkey branch) :=
  fun _ => inferInstanceAs (Decidable (∃ txnw ∈ _, ∃ o ∈ _, _))

/-- The outputs in `db` that contribute to `bal` or `bal_partial`, or to `bal_htlc`. -/
def Storage.credited (s : Storage) (pubkey : Bytes) (branch : Branch) : Finset Ref :=
  {r ∈ s.pubOuts.outs pubkey | s.toLedger.Credits pubkey branch r}

/-- The balances of all keys in the two indexes, and what they are made of. -/
structure Storage.Balanced (s : Storage) (order : SetOrder) (bal balPend : Bytes → Balance) :
    Prop where
  outs : ∀ p, s.getBalance order p s.pubOuts = .ok (bal p)
  pendOuts : ∀ p, s.getBalance order p s.pubOutsPend = .ok (balPend p)
  total : ∀ keys : Finset Bytes, (∀ p, p ∈ s.pubOuts ∨ p ∈ s.pubOutsPend → p ∈ keys) →
    ∑ p ∈ keys, ((bal p).weight + (balPend p).weight) = 2 * (s.unspent + s.locked)
  owned : ∀ p, (bal p).bal + (bal p).balPartial = ∑ r ∈ s.credited p .owners, amountAt s.db r
  htlc : ∀ p, (bal p).balHtlc = ∑ r ∈ s.credited p .htlc, amountAt s.db r

theorem Index.mem_of_outs {index : Index} {p : Bytes} {r : Ref} (mem : r ∈ index.outs p) :
    p ∈ index := by
  unfold Index.outs at mem
  cases listed : index[p]? with
  | none => simp [listed] at mem
  | some outs => exact mem_iff_isSome_getElem?.mpr (by simp [listed])

/-- A listed output is counted for its owners by `bal` and `bal_partial`, and for its
claimant by `bal_htlc`. -/
theorem creditAt_eq (ledger : Ledger) (p : Bytes) (r : Ref) :
    (Balance.creditAt ledger.currentTime p ledger.db ⟨0, 0, 0⟩ r).bal +
        (Balance.creditAt ledger.currentTime p ledger.db ⟨0, 0, 0⟩ r).balPartial =
      (if ledger.Credits p .owners r then amountAt ledger.db r else 0) ∧
    (Balance.creditAt ledger.currentTime p ledger.db ⟨0, 0, 0⟩ r).balHtlc =
      if ledger.Credits p .htlc r then amountAt ledger.db r else 0 := by
  obtain ⟨none, nothing⟩ | ⟨txnw, o, held, out, counted⟩ := Balance.creditAt_cases ledger.db r
  · simp [nothing, amountAt, none]
  · have amount : amountAt ledger.db r = o.amount := by simp [amountAt, outputAt, held, out]
    have credits : ∀ branch, ledger.Credits p branch r ↔
        o.Credits ledger.currentTime p txnw.timestamp branch := by
      intro branch
      simp [Ledger.Credits, held, out]
    rw [counted, amount]
    simp only [credits]
    by_cases owner : o.Credits ledger.currentTime p txnw.timestamp .owners <;>
      by_cases claimant : o.Credits ledger.currentTime p txnw.timestamp .htlc <;>
        by_cases single : o.pubkey = o.pubkey2 <;>
          simp [Balance.credit, owner, claimant, single]

/-- The balances of a node whose indexes mirror its databases. -/
theorem Storage.Mirrors.balanced (mirrors : s.Mirrors pkg) (owners : pkg.ListsOwners) :
    ∃ bal balPend, s.Balanced order bal balPend := by
  refine ⟨_, _, fun p => (mirrors.getBalance p).1, fun p => (mirrors.getBalance p).2, ?_, ?_, ?_⟩
  · intro keys covers
    have listed : ∀ p r, r ∈ s.pubOuts.outs p ↔
        r ∈ s.unspentOuts ∧ ∃ txnw, s.db[r.1]? = some txnw ∧ pkg.Owns txnw.txn r.2 p := by
      intro p r
      rw [mirrors.outs, Ledger.mem_unspentOuts]
      constructor
      · rintro ⟨txnw, held, unspent, owner⟩
        obtain ⟨o, out, -⟩ := id owner
        exact ⟨⟨by simp [bit, held, unspent], o, by simp [outputAt, held, out]⟩, txnw, held, owner⟩
      · rintro ⟨⟨unspent, -⟩, txnw, held, owner⟩
        exact ⟨txnw, held, by simpa [bit, held] using unspent, owner⟩
    have listedPend : ∀ p r, r ∈ s.pubOutsPend.outs p ↔
        r ∈ s.pendOuts ∧ ∃ txnw, s.pend[r.1]? = some txnw ∧ pkg.Owns txnw.txn r.2 p := by
      intro p r
      rw [mirrors.pendOuts, Ledger.pendOuts, mem_cells]
      refine (and_iff_right_of_imp ?_).symm
      rintro ⟨txnw, held, o, out, -⟩
      exact ⟨txnw, held, (List.getElem?_eq_some_iff.mp out).1⟩
    have outs : ∑ p ∈ keys, ∑ r ∈ s.pubOuts.outs p,
          (Balance.creditAt s.currentTime p s.db ⟨0, 0, 0⟩ r).weight =
        2 * ∑ r ∈ s.unspentOuts, amountAt s.db r :=
      sum_index owners listed fun p r mem => covers p (.inl (Index.mem_of_outs mem))
    have pendOuts : ∑ p ∈ keys, ∑ r ∈ s.pubOutsPend.outs p,
          (Balance.creditAt s.currentTime p s.pend ⟨0, 0, 0⟩ r).weight =
        2 * ∑ r ∈ s.pendOuts, amountAt s.pend r :=
      sum_index owners listedPend fun p r mem => covers p (.inr (Index.mem_of_outs mem))
    simp only [Balance.measure_refs Balance.weight_additive, Finset.sum_add_distrib]
    rw [outs, pendOuts, Ledger.unspent_eq_sum, Ledger.locked_eq_sum, Nat.mul_add]
  · intro p
    rw [Balance.measure_refs Balance.owned_additive, credited, Finset.sum_filter]
    exact Finset.sum_congr rfl fun r _ => (creditAt_eq s.toLedger p r).1
  · intro p
    rw [Balance.measure_refs Balance.htlc_additive, credited, Finset.sum_filter]
    exact Finset.sum_congr rfl fun r _ => (creditAt_eq s.toLedger p r).2

/-- An unspent output is counted for the branch that `verify_txn` takes. -/
theorem Storage.Mirrors.credited_iff (mirrors : s.Mirrors pkg) (owners : pkg.ListsOwners) {r : Ref}
    (unspent : r ∈ s.unspentOuts) (branch : Branch) :
    (∃ p, r ∈ s.credited p branch) ↔ s.branch r = some branch := by
  obtain ⟨set, o, points⟩ := Ledger.mem_unspentOuts.mp unspent
  obtain ⟨txnw, held, out⟩ := Option.bind_eq_some_iff.mp points
  have listed : ∀ p, r ∈ s.pubOuts.outs p ↔
      p = o.pubkey ∨ p = o.pubkey2 ∨ p = o.htlcPubkey := by
    intro p
    rw [mirrors.outs, ← owners]
    have bitSet : txnw.utxos[r.2]? = some true := by simpa [bit, held] using set
    simp [held, bitSet, Packages.Owns, out]
  have credits : ∀ p, s.toLedger.Credits p branch r ↔
      o.Credits s.currentTime p txnw.timestamp branch := by
    intro p
    simp [Ledger.Credits, held, out]
  simp only [credited, Finset.mem_filter, listed, credits]
  have taken : s.branch r =
      some (if o.HtlcTimeoutReached s.currentTime txnw.timestamp then .owners else .htlc) := by
    simp [Ledger.branch, held, out]
  rw [taken]
  by_cases reached : o.HtlcTimeoutReached s.currentTime txnw.timestamp
  · rw [if_pos reached]
    cases branch with
    | owners => exact iff_of_true ⟨o.pubkey, .inl rfl, .inl rfl, reached⟩ rfl
    | htlc =>
        refine iff_of_false ?_ (by simp)
        rintro ⟨_, -, -, waits⟩
        exact absurd reached (not_le.mpr waits)
  · rw [if_neg reached]
    cases branch with
    | owners =>
        refine iff_of_false ?_ (by simp)
        rintro ⟨_, -, -, passed⟩
        exact reached passed
    | htlc =>
        exact iff_of_true ⟨o.htlcPubkey, .inr (.inr rfl), rfl, not_le.mp reached⟩ rfl

/-- **Balances.** In every run without a restart, and at every time, `get_balance`
returns for every key and both indexes. A balance is the sum of the outputs that it
counts; over all keys, whole owners and claimants counted twice, the balances make up
twice the money in `db` and `pend`. An unspent output is counted for its owners when
`verify_txn` would ask for their signatures, and for its claimant when it would ask for
the preimage. -/
theorem Setup.node_balances {setup : Setup} (free : setup.CollisionFree)
    (owners : setup.ListsOwners) {s : Storage} (reached : setup.faultyNode.Reachable s)
    (now : ℚ≥0) (order : SetOrder) :
    (∃ bal balPend, (s.atTime now).Balanced order bal balPend) ∧
      ∀ r ∈ s.unspentOuts, ∀ branch,
        (∃ p, r ∈ (s.atTime now).credited p branch) ↔
          (s.atTime now).branch r = some branch := by
  have here := Setup.mirrors_of_reachable free reached
  have mirrors : (s.atTime now).Mirrors setup.toPackages :=
    ⟨here.outs, here.pendOuts, here.pendKeyed, here.pendLocked, here.apart⟩
  exact ⟨mirrors.balanced owners, fun r mem branch => mirrors.credited_iff owners mem branch⟩

theorem ideal_listsOwners : Ideal.packages.ListsOwners := by
  intro o p
  simp [Ideal.packages]

/-- One output is spent, one is reserved, and the payment's is left. -/
theorem node_balances_gift :
    ((Ideal.small.after giftRun).unspentOuts = {(Ideal.packages.txid directPayment, 0)} ∧
      Ideal.packages.txid gift ∈ (Ideal.small.after giftRun).pend) ∧
    (∃ bal balPend, ((Ideal.small.after giftRun).atTime 1).Balanced .increasing bal balPend) ∧
      ∀ r ∈ (Ideal.small.after giftRun).unspentOuts, ∀ branch,
        (∃ p, r ∈ ((Ideal.small.after giftRun).atTime 1).credited p branch) ↔
          ((Ideal.small.after giftRun).atTime 1).branch r = some branch :=
  ⟨⟨by decide +kernel, by decide +kernel⟩, @Setup.node_balances Ideal.small
    Ideal.ideal_collisionFree ideal_listsOwners _ (Setup.faulty_of_node
      (Ideal.small.reachable_after giftRun)) 1 .increasing⟩

/-- **A reserved output.** It is spent as long as the transaction it is reserved for
waits: `verify_txn` would ask its owners to sign, and no balance counts it. -/
theorem balances_skip_reserved :
    ¬ ∀ s, Ideal.small.faultyNode.Reachable s → ∀ (r : Ref) (o : Output),
      outputAt s.db r = some o → ∀ branch,
        (∃ p, r ∈ s.credited p branch) ↔ s.branch r = some branch := by
  intro claim
  have reached : Ideal.small.faultyNode.Reachable (Ideal.small.after (lockedRun.take 3)) :=
    Setup.faulty_of_node (Ideal.small.reachable_after _)
  have asked : (Ideal.small.after (lockedRun.take 3)).branch
      (Ideal.packages.txid Ideal.genesis, 0) = some .owners := by decide +kernel
  have spent : bit (Ideal.small.after (lockedRun.take 3)).db
      (Ideal.packages.txid Ideal.genesis, 0) = some false := by decide +kernel
  obtain ⟨p, counted⟩ := (claim _ reached (Ideal.packages.txid Ideal.genesis, 0) (Ideal.coin 1)
    (by decide +kernel) .owners).mpr asked
  obtain ⟨txnw, held, unspent, -⟩ :=
    ((Setup.mirrors_of_reachable Ideal.ideal_collisionFree reached).outs p _).mp
      (Finset.mem_filter.mp counted).1
  simp [bit, held, unspent] at spent

-- a later version of the payment may still take the output
example : (match Ideal.packages.decideTxn (Ideal.small.after (lockedRun.take 3)).toLedger
      (Ideal.pay (Ideal.packages.txid Ideal.genesis) 0 1 0) true with
    | .ok (.valid (some (.replaces _))) => true
    | _ => false) = true := by decide +kernel

end Belcoin
