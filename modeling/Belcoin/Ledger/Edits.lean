import Belcoin.Lib.Independent
import Belcoin.Ledger.Finish
import Belcoin.Ledger.Indexes
import Mathlib.Data.Multiset.Basic

/-!
What settling transactions writes, as a list of edits.

An `Edit` spends an output, stores a transaction, puts one into `pend`, takes one out of
it, or notes what happened. The operations of a node that return apply the edits that
`acceptEdits` and `expireEdits` list; edits that are `Clear` of each other commute.
-/

namespace Belcoin

open Stateful Independent

/-! ### The indexes -/

namespace Index

theorem getElem?_add (index : Index) (p q : Bytes) (r : Ref) :
    (index.add p r)[q]? = if p = q then some (insert r (index[q]?.getD ∅)) else index[q]? := by
  rw [add, Std.ExtTreeMap.getElem?_insert]
  by_cases same : p = q <;> simp [same]

theorem getElem?_remove (index : Index) (p q : Bytes) (r : Ref) :
    (index.remove p r)[q]? = index[q]?.map fun outs => if p = q then outs.erase r else outs := by
  unfold remove
  cases held : index[p]? with
  | none =>
      by_cases same : p = q
      · simp [← same, held]
      · simp [same]
  | some outs =>
      simp only [Std.ExtTreeMap.getElem?_insert, Std.LawfulEqCmp.compare_eq_iff_eq]
      by_cases same : p = q
      · simp [← same, held]
      · simp [same]

theorem add_comm (index : Index) (p q : Bytes) (r r' : Ref) :
    (index.add p r).add q r' = (index.add q r').add p r := by
  ext k : 1
  simp only [getElem?_add]
  by_cases atP : p = k <;> by_cases atQ : q = k <;> simp [atP, atQ, Finset.insert_comm r r']

theorem remove_comm (index : Index) (p q : Bytes) (r r' : Ref) :
    (index.remove p r).remove q r' = (index.remove q r').remove p r := by
  ext k : 1
  simp only [getElem?_remove, Option.map_map]
  congr 1
  funext outs
  by_cases atP : p = k <;> by_cases atQ : q = k <;>
    simp [atP, atQ, Finset.erase_right_comm (a := r) (b := r')]

theorem add_remove_comm (index : Index) (p q : Bytes) {r r' : Ref} (other : r ≠ r') :
    (index.add p r).remove q r' = (index.remove q r').add p r := by
  ext k : 1
  simp only [getElem?_add, getElem?_remove]
  by_cases atP : p = k
  · by_cases atQ : q = k
    · cases index[k]? <;> simp [atP, atQ, Finset.erase_insert_of_ne other, Ne.symm other]
    · cases index[k]? <;> simp [atP, atQ]
  · by_cases atQ : q = k <;> simp [atP, atQ]

end Index

/-- Where the outputs of a transaction are listed. -/
def Packages.listings (pkg : Packages) (txn : Transaction) : List (Bytes × Ref) :=
  txn.outputs.zipIdx.flatMap fun entry =>
    (pkg.getPubkeys entry.1).map fun p => (p, pkg.txid txn, entry.2)

variable (pkg : Packages)

theorem mem_listings {txn : Transaction} {l : Bytes × Ref} (mem : l ∈ pkg.listings txn) :
    l.2.1 = pkg.txid txn := by
  obtain ⟨entry, -, mem⟩ := List.mem_flatMap.mp mem
  obtain ⟨p, -, rfl⟩ := List.mem_map.mp mem
  rfl

theorem addTxn_eq (txn : Transaction) (index : Index) :
    pkg.addTxnToBalanceIndex txn index =
      (pkg.listings txn).foldl (fun index l => index.add l.1 l.2) index := by
  simp only [Packages.addTxnToBalanceIndex, Packages.listings, List.foldl_flatMap, List.foldl_map]

theorem delTxn_eq (txn : Transaction) (index : Index) :
    pkg.delTxnFromBalanceIndex txn index =
      (pkg.listings txn).foldl (fun index l => index.remove l.1 l.2) index := by
  simp only [Packages.delTxnFromBalanceIndex, delOutFromBalanceIndex, Packages.listings,
    List.foldl_flatMap, List.foldl_map]

theorem addTxn_comm (txn txn' : Transaction) (index : Index) :
    pkg.addTxnToBalanceIndex txn' (pkg.addTxnToBalanceIndex txn index) =
      pkg.addTxnToBalanceIndex txn (pkg.addTxnToBalanceIndex txn' index) := by
  simp only [addTxn_eq]
  exact foldl_comm (fun _ _ _ _ index => index.add_comm _ _ _ _) index

theorem delTxn_comm (txn txn' : Transaction) (index : Index) :
    pkg.delTxnFromBalanceIndex txn' (pkg.delTxnFromBalanceIndex txn index) =
      pkg.delTxnFromBalanceIndex txn (pkg.delTxnFromBalanceIndex txn' index) := by
  simp only [delTxn_eq]
  exact foldl_comm (fun _ _ _ _ index => index.remove_comm _ _ _ _) index

theorem delOut_comm (pubkeys pubkeys' : List Bytes) (r r' : Ref) (index : Index) :
    delOutFromBalanceIndex pubkeys' r' (delOutFromBalanceIndex pubkeys r index) =
      delOutFromBalanceIndex pubkeys r (delOutFromBalanceIndex pubkeys' r' index) :=
  foldl_comm (fun _ _ _ _ index => index.remove_comm _ _ _ _) index

/-- Listing a transaction and deleting another commute. -/
theorem addTxn_delTxn_comm {txn tx : Transaction} (other : pkg.txid txn ≠ pkg.txid tx)
    (index : Index) :
    pkg.delTxnFromBalanceIndex tx (pkg.addTxnToBalanceIndex txn index) =
      pkg.addTxnToBalanceIndex txn (pkg.delTxnFromBalanceIndex tx index) := by
  simp only [addTxn_eq, delTxn_eq]
  refine foldl_comm (fun l mem l' mem' index => index.add_remove_comm _ _ fun same => other ?_) index
  rw [← mem_listings pkg mem, ← mem_listings pkg mem', same]

/-- Listing a transaction and deleting an output of another commute. -/
theorem addTxn_delOut_comm {txn : Transaction} {r : Ref} (other : r.1 ≠ pkg.txid txn)
    (pubkeys : List Bytes) (index : Index) :
    delOutFromBalanceIndex pubkeys r (pkg.addTxnToBalanceIndex txn index) =
      pkg.addTxnToBalanceIndex txn (delOutFromBalanceIndex pubkeys r index) := by
  simp only [addTxn_eq]
  refine foldl_comm (fun l mem p _ index => index.add_remove_comm _ _ fun same => other ?_) index
  rw [← mem_listings pkg mem, same]

/-! ### The databases -/

theorem clearBit_comm (db : Store TxnWrapper) (r r' : Ref) :
    clearBit (clearBit db r) r' = clearBit (clearBit db r') r := by
  ext k : 1
  simp only [clearBit_getElem?, Option.map_map]
  congr 1
  funext txnw
  have bits : (txnw.utxos.set r.2 false).set r'.2 false = (txnw.utxos.set r'.2 false).set r.2 false := by
    by_cases same : r.2 = r'.2
    · rw [same]
    · exact List.set_comm _ _ same
  simp only [Function.comp_apply]
  split <;> split <;> simp [bits]

theorem clearBit_insert_comm (db : Store TxnWrapper) {r : Ref} {k : Bytes} (other : r.1 ≠ k)
    (txnw : TxnWrapper) : clearBit (db.insert k txnw) r = (clearBit db r).insert k txnw := by
  ext k' : 1
  simp only [clearBit_getElem?, Std.ExtTreeMap.getElem?_insert, Std.LawfulEqCmp.compare_eq_iff_eq]
  by_cases same : k = k'
  · simp [same, Ne.symm (same ▸ other)]
  · simp [same]

theorem insert_comm (db : Store TxnWrapper) {k k' : Bytes} (other : k ≠ k') (v v' : TxnWrapper) :
    (db.insert k v).insert k' v' = (db.insert k' v').insert k v := by
  ext key : 1
  simp only [Std.ExtTreeMap.getElem?_insert, Std.LawfulEqCmp.compare_eq_iff_eq]
  by_cases atK : k = key
  · simp [atK, Ne.symm (atK ▸ other)]
  · simp [atK]

theorem insert_erase_comm (db : Store TxnWrapper) {k k' : Bytes} (other : k ≠ k')
    (v : TxnWrapper) : (db.insert k v).erase k' = (db.erase k').insert k v := by
  ext key : 1
  simp only [Std.ExtTreeMap.getElem?_insert, Std.ExtTreeMap.getElem?_erase,
    Std.LawfulEqCmp.compare_eq_iff_eq]
  by_cases atK : k = key
  · simp [atK, Ne.symm (atK ▸ other)]
  · simp [atK]

theorem erase_comm (db : Store TxnWrapper) (k k' : Bytes) :
    (db.erase k).erase k' = (db.erase k').erase k := by
  ext key : 1
  simp only [Std.ExtTreeMap.getElem?_erase]
  split <;> split <;> rfl

/-! ### Edits -/

/-- The databases and indexes of a node, and what happened to its transactions, in any
order. -/
structure Accounts where
  db : Store TxnWrapper
  pend : Store TxnWrapper
  pubOuts : Index
  pubOutsPend : Index
  events : Multiset Event

def Storage.accounts (s : Storage) : Accounts where
  db := s.db
  pend := s.pend
  pubOuts := s.pubOuts
  pubOutsPend := s.pubOutsPend
  events := s.trace

/-- A change of the accounts. -/
inductive Edit where
  /-- The output at `r` is spent, and no longer listed under these keys. -/
  | spend (r : Ref) (pubkeys : List Bytes)
  /-- A transaction enters `db`. -/
  | store (txn : Transaction) (ts : Nat)
  /-- A transaction enters `pend`. -/
  | hold (txn : Transaction) (ts : Nat)
  /-- A transaction leaves `pend`. -/
  | release (tx : Transaction)
  | note (event : Event)

def Accounts.edit (a : Accounts) : Edit → Accounts
  | .spend r pubkeys => { a with
      db := clearBit a.db r
      pubOuts := delOutFromBalanceIndex pubkeys r a.pubOuts }
  | .store txn ts => { a with
      db := a.db.insert (pkg.txid txn) (.new txn ts)
      pubOuts := pkg.addTxnToBalanceIndex txn a.pubOuts }
  | .hold txn ts => { a with
      pend := a.pend.insert (pkg.txid txn) (.new txn ts)
      pubOutsPend := pkg.addTxnToBalanceIndex txn a.pubOutsPend }
  | .release tx => { a with
      pend := a.pend.erase (pkg.txid tx)
      pubOutsPend := pkg.delTxnFromBalanceIndex tx a.pubOutsPend }
  | .note event => { a with events := event ::ₘ a.events }

/-- The edits are about different transactions, as far as they change the same part. -/
def Edit.Clear : Edit → Edit → Prop
  | .spend r _, .store txn _ => r.1 ≠ pkg.txid txn
  | .store txn _, .spend r _ => r.1 ≠ pkg.txid txn
  | .store txn _, .store txn' _ => pkg.txid txn ≠ pkg.txid txn'
  | .hold txn _, .hold txn' _ => pkg.txid txn ≠ pkg.txid txn'
  | .hold txn _, .release tx => pkg.txid txn ≠ pkg.txid tx
  | .release tx, .hold txn _ => pkg.txid txn ≠ pkg.txid tx
  | _, _ => True

/-- **Clear edits commute.** -/
theorem Edit.Clear.comm {e e' : Edit} (clear : e.Clear pkg e') (a : Accounts) :
    (a.edit pkg e).edit pkg e' = (a.edit pkg e').edit pkg e := by
  cases e with
  | spend r pubkeys =>
      cases e' with
      | spend r' pubkeys' => simp only [Accounts.edit, clearBit_comm, delOut_comm]
      | store txn ts =>
          simp only [Accounts.edit, clearBit_insert_comm _ clear, addTxn_delOut_comm pkg clear]
      | hold => rfl
      | release => rfl
      | note => rfl
  | store txn ts =>
      cases e' with
      | spend r pubkeys =>
          simp only [Accounts.edit, clearBit_insert_comm _ clear, addTxn_delOut_comm pkg clear]
      | store txn' ts' => simp only [Accounts.edit, insert_comm _ clear, addTxn_comm pkg txn]
      | hold => rfl
      | release => rfl
      | note => rfl
  | hold txn ts =>
      cases e' with
      | spend => rfl
      | store => rfl
      | hold txn' ts' => simp only [Accounts.edit, insert_comm _ clear, addTxn_comm pkg txn]
      | release tx =>
          simp only [Accounts.edit, insert_erase_comm _ clear, addTxn_delTxn_comm pkg clear]
      | note => rfl
  | release tx =>
      cases e' with
      | spend => rfl
      | store => rfl
      | hold txn ts =>
          simp only [Accounts.edit, insert_erase_comm _ clear, addTxn_delTxn_comm pkg clear]
      | release tx' => simp only [Accounts.edit, erase_comm, delTxn_comm pkg tx]
      | note => rfl
  | note event =>
      cases e' with
      | note event' => simp only [Accounts.edit, Multiset.cons_swap event]
      | spend => rfl
      | store => rfl
      | hold => rfl
      | release => rfl

/-- One edit after the other. -/
def Accounts.edits (a : Accounts) (es : List Edit) : Accounts := es.foldl (Accounts.edit pkg) a

theorem Accounts.edits_append (a : Accounts) (es es' : List Edit) :
    a.edits pkg (es ++ es') = (a.edits pkg es).edits pkg es' :=
  List.foldl_append

/-! ### Operations as edits -/

/-- The keys of an output. -/
def Packages.keysAt (db : Store TxnWrapper) (r : Ref) : List Bytes :=
  ((outputAt db r).map pkg.getPubkeys).getD []

/-- Every output that a transaction refers to is spent. -/
def Packages.spends (db : Store TxnWrapper) (inputs : List Input) : List Edit :=
  inputs.map fun inp => .spend inp.ref (pkg.keysAt db inp.ref)

/-- What `process_block` does for an accepted transaction. -/
def Packages.acceptEdits (ledger : Ledger) (txn : Transaction) : List Edit :=
  let ts := toTimestamp ledger.currentTime
  (match ledger.checkPendReplacement txn with
    | .replaces tx => [.release tx, .note (.replaced tx txn)]
    | _ => []) ++
  .note (.accepted txn ledger.currentTime) ::
  if txn.timelock ≠ 0 then .hold txn ts :: pkg.spends ledger.db txn.inputs
  else pkg.spends ledger.db txn.inputs ++ [.store txn ts]

/-- What `update_pend` does for a transaction that still verifies. -/
def Packages.commitEdits (ledger : Ledger) (txnw : TxnWrapper) : List Edit :=
  .release txnw.txn :: pkg.spends ledger.db txnw.txn.inputs ++
    [.store txnw.txn txnw.timestamp, .note (.committed txnw.txn ledger.currentTime)]

/-- What it does for one that does not. -/
def Ledger.dropEdits (ledger : Ledger) (txnw : TxnWrapper) : List Edit :=
  [.release txnw.txn, .note (.dropped txnw.txn ledger.currentTime)]

variable {s : Storage}

theorem accounts_note (event : Event) :
    { s with trace := s.trace ++ [event] : Storage }.accounts =
      s.accounts.edit pkg (.note event) := by
  simp only [Storage.accounts, Accounts.edit]
  congr 1
  exact Multiset.coe_eq_coe.mpr (List.perm_append_singleton event s.trace)

variable {pkg}

theorem spends_congr {db db' : Store TxnWrapper} {inputs : List Input}
    (same : ∀ inp ∈ inputs, record db' inp.txid = record db inp.txid) :
    pkg.spends db' inputs = pkg.spends db inputs := by
  refine List.map_congr_left fun inp mem => ?_
  have output : outputAt db' inp.ref = outputAt db inp.ref := by
    rw [outputAt_eq_record, outputAt_eq_record, Input.ref, same inp mem]
  rw [Packages.keysAt, Packages.keysAt, output]

theorem spendOutput_edits {inp : Input} (stored : Stored s.db inp.ref) :
    ∃ t, pkg.spendOutput inp s = .ok () t ∧ t.db = clearBit s.db inp.ref ∧
      t.accounts = s.accounts.edit pkg (.spend inp.ref (pkg.keysAt s.db inp.ref)) := by
  obtain ⟨txnw, held, inBits, inOutputs⟩ : ∃ txnw, s.db[inp.txid]? = some txnw ∧
    inp.index < txnw.utxos.length ∧ inp.index < txnw.txn.outputs.length := stored
  have out : txnw.txn.outputs[inp.index]? = some txnw.txn.outputs[inp.index] :=
    List.getElem?_eq_getElem inOutputs
  have cleared : s.db.insert inp.txid { txnw with utxos := txnw.utxos.set inp.index false } =
      clearBit s.db inp.ref := by simp only [clearBit, Input.ref, held]
  have keys : pkg.keysAt s.db inp.ref = pkg.getPubkeys txnw.txn.outputs[inp.index] := by
    simp only [Packages.keysAt, outputAt, Input.ref, held, Option.bind_some, out, Option.map_some,
      Option.getD_some]
  refine ⟨{ s with
    db := clearBit s.db inp.ref
    pubOuts := delOutFromBalanceIndex (pkg.keysAt s.db inp.ref) inp.ref s.pubOuts }, ?_, rfl, rfl⟩
  simp only [Packages.spendOutput, getItem, setItem, bind_apply, get_apply, held, pure_apply,
    inBits, if_true, modify_apply, out, cleared, keys]

/-- A loop of spends. -/
theorem forM_spendOutput_edits {inputs : List Input}
    (stored : ∀ inp ∈ inputs, Stored s.db inp.ref) :
    ∃ t, inputs.forM pkg.spendOutput s = .ok () t ∧
      t.accounts = s.accounts.edits pkg (pkg.spends s.db inputs) := by
  induction inputs generalizing s with
  | nil => exact ⟨s, rfl, rfl⟩
  | cons inp rest ih =>
      obtain ⟨here, stored⟩ := List.forall_mem_cons.mp stored
      obtain ⟨m, first, db, edited⟩ := @spendOutput_edits pkg s inp here
      have stored' : ∀ inp ∈ rest, Stored m.db inp.ref := by
        rw [db]
        exact fun inp mem => (stored_clearBit _ _ _).mpr (stored inp mem)
      obtain ⟨t, later, edited'⟩ := ih stored'
      refine ⟨t, ?_, ?_⟩
      · rw [forM_cons, bind_apply, first]
        exact later
      · have same : pkg.spends m.db rest = pkg.spends s.db rest :=
          spends_congr fun inp _ => by rw [db, record_clearBit]
        rw [edited', edited, same]
        rfl

theorem writeTxnToDb_edits {txn : Transaction} (stored : ∀ inp ∈ txn.inputs, Stored s.db inp.ref)
    (ts : Nat) :
    ∃ t, pkg.writeTxnToDb txn ts s = .ok () t ∧
      t.accounts = s.accounts.edits pkg (pkg.spends s.db txn.inputs ++ [.store txn ts]) := by
  obtain ⟨m, spends, edited⟩ := @forM_spendOutput_edits pkg s _ stored
  refine ⟨_, bind_ok.mpr ⟨(), m, spends, rfl⟩, ?_⟩
  rw [Accounts.edits_append, ← edited]
  rfl

theorem writeTxnToPend_edits {txn : Transaction} (stored : ∀ inp ∈ txn.inputs, Stored s.db inp.ref)
    (ts : Nat) :
    ∃ t, pkg.writeTxnToPend txn ts s = .ok () t ∧
      t.accounts = s.accounts.edits pkg (.hold txn ts :: pkg.spends s.db txn.inputs) := by
  obtain ⟨t, spends, edited⟩ := @forM_spendOutput_edits pkg { s with
    pend := s.pend.insert (pkg.txid txn) (.new txn ts)
    pubOutsPend := pkg.addTxnToBalanceIndex txn s.pubOutsPend } _ stored
  exact ⟨t, spends, edited⟩

/-- **An accepted transaction** is settled by its edits. -/
theorem settleTxn_edits {txn : Transaction} (accepts : pkg.Accepts s.toLedger txn)
    (stored : ∀ inp ∈ txn.inputs, Stored s.db inp.ref) :
    ∃ t, pkg.settleTxn txn s = .ok () t ∧
      t.accounts = s.accounts.edits pkg (pkg.acceptEdits s.toLedger txn) := by
  -- the transaction that is replaced leaves `pend`, and the verdict is noted
  obtain ⟨m, verified, db, edited⟩ : ∃ m, pkg.verifyTxn txn true s = .ok true m ∧ m.db = s.db ∧
      m.accounts = s.accounts.edits pkg (match s.checkPendReplacement txn with
        | .replaces tx => [.release tx, .note (.replaced tx txn)]
        | _ => []) := by
    rw [Packages.verifyTxn, get_bind, pkg.decideTxn_accepts.mpr ⟨accepts, rfl⟩]
    cases s.checkPendReplacement txn with
    | unmatched => exact ⟨s, rfl, rfl, rfl⟩
    | refused => exact ⟨s, rfl, rfl, rfl⟩
    | replaces tx =>
        refine ⟨_, bind_ok.mpr ⟨(), _, delFromPending_eq pkg tx s,
          bind_ok.mpr ⟨(), _, rfl, rfl⟩⟩, rfl,
          accounts_note pkg _⟩
  have noted : { m with trace := m.trace ++ [.accepted txn s.currentTime] : Storage }.accounts =
      m.accounts.edit pkg (.note (.accepted txn s.currentTime)) := accounts_note pkg _
  have stored' : ∀ inp ∈ txn.inputs, Stored m.db inp.ref := db ▸ stored
  rw [Packages.acceptEdits, Accounts.edits_append, ← edited, Packages.settleTxn, get_bind, bind_apply,
    verified]
  by_cases locked : txn.timelock ≠ 0
  · obtain ⟨t, written, edited'⟩ := @writeTxnToPend_edits pkg
      { m with trace := m.trace ++ [.accepted txn s.currentTime] } txn stored'
      (toTimestamp s.currentTime)
    refine ⟨t, bind_ok.mpr ⟨(), _, rfl, ?_⟩, ?_⟩
    · rw [if_pos locked]
      exact written
    · rw [if_pos locked, edited', noted, db]
      rfl
  · obtain ⟨t, written, edited'⟩ := @writeTxnToDb_edits pkg
      { m with trace := m.trace ++ [.accepted txn s.currentTime] } txn stored'
      (toTimestamp s.currentTime)
    refine ⟨t, bind_ok.mpr ⟨(), _, rfl, ?_⟩, ?_⟩
    · rw [if_neg locked]
      exact written
    · rw [if_neg locked, edited', noted, db]
      rfl

/-- **An expired transaction** leaves `pend` by its edits. -/
theorem updatePendTxn_edits {txnw : TxnWrapper} (passed : txnw.TimelockPassed s.currentTime) :
    (pkg.Verifies s.toLedger txnw.txn false → (∀ inp ∈ txnw.txn.inputs, Stored s.db inp.ref) →
      ∃ t, pkg.updatePendTxn txnw s = .ok () t ∧
        t.accounts = s.accounts.edits pkg (pkg.commitEdits s.toLedger txnw)) ∧
    (¬ pkg.Verifies s.toLedger txnw.txn false → ∃ t, pkg.updatePendTxn txnw s = .ok () t ∧
      t.accounts = s.accounts.edits pkg (s.dropEdits txnw)) := by
  set m : Storage := { s with
    pend := s.pend.erase (pkg.txid txnw.txn)
    pubOutsPend := pkg.delTxnFromBalanceIndex txnw.txn s.pubOutsPend } with released
  have same : pkg.Verifies m.toLedger txnw.txn false ↔ pkg.Verifies s.toLedger txnw.txn false :=
    Ledger.verifies_without pkg
  have turn : pkg.updatePendTxn txnw s = (pkg.verifyTxn txnw.txn false >>= fun verified =>
      if verified then pkg.writeTxnToDb txnw.txn txnw.timestamp >>= fun _ =>
        note (.committed txnw.txn s.currentTime)
      else note (.dropped txnw.txn s.currentTime)) m := by
    rw [Packages.updatePendTxn, get_bind, if_pos passed, bind_apply, delFromPending_eq]
  rw [turn, bind_apply]
  constructor
  · intro verifies stored
    have verified : pkg.verifyTxn txnw.txn false m = .ok true m := by
      rw [Packages.verifyTxn, get_bind, pkg.decideTxn_valid.mpr ⟨same.mpr verifies, by simp, rfl⟩]
      rfl
    obtain ⟨t, written, edited⟩ := @writeTxnToDb_edits pkg m txnw.txn stored txnw.timestamp
    refine ⟨{ t with trace := t.trace ++ [.committed txnw.txn s.currentTime] }, ?_, ?_⟩
    · rw [verified]
      exact bind_ok.mpr ⟨(), t, written, rfl⟩
    · rw [accounts_note pkg, edited]
      simp only [Packages.commitEdits, Accounts.edits, List.foldl_cons, List.foldl_append,
        List.foldl_nil, List.cons_append]
      rfl
  · intro fails
    obtain ⟨-, verifies⟩ | ⟨rejects, -⟩ := pkg.decideTxn_false m.toLedger txnw.txn
    · exact absurd (same.mp verifies) fails
    obtain ⟨t, verified, edited⟩ : ∃ t, pkg.verifyTxn txnw.txn false m = .ok false t ∧
        t.accounts = m.accounts := by
      rw [Packages.verifyTxn, get_bind]
      rcases rejects with stored | invalid
      · rw [stored]
        exact ⟨_, rfl, rfl⟩
      · rw [invalid]
        exact ⟨_, rfl, rfl⟩
    refine ⟨{ t with trace := t.trace ++ [.dropped txnw.txn s.currentTime] }, ?_, ?_⟩
    · rw [verified]
      rfl
    · rw [accounts_note pkg, edited]
      rfl

end Belcoin
