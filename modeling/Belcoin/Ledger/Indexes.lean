import Belcoin.Ideal
import Belcoin.Ledger.Moves
import Belcoin.Ledger.Persist

/-!
The balance indexes.

`pub_outs` and `pub_outs_pend` are kept by hand, next to the databases. `Mirrors` is
the invariant that ties them together; `node_indexes` proves it for all runs, also
where operations raise: every write that clears a bit takes the output out of the
index before anything can fail.

The constructor builds the indexes anew and lists every output that is stored, spent
or not. `node_rebuild` says when this makes a difference.
-/

namespace Belcoin

open Stateful

/-! ### The outputs of a key -/

/-- `index[p]`, empty when absent. -/
def Index.outs (index : Index) (p : Bytes) : Finset Ref := index[p]?.getD ∅

theorem Index.mem_add {index : Index} {p q : Bytes} {out r : Ref} :
    r ∈ (index.add p out).outs q ↔ (q = p ∧ r = out) ∨ r ∈ index.outs q := by
  unfold Index.add Index.outs
  simp only [Std.ExtTreeMap.getElem?_insert, Std.LawfulEqCmp.compare_eq_iff_eq]
  by_cases same : p = q
  · subst same
    simp
  · simp [same, Ne.symm same]

theorem Index.mem_remove {index : Index} {p q : Bytes} {out r : Ref} :
    r ∈ (index.remove p out).outs q ↔ r ∈ index.outs q ∧ ¬ (q = p ∧ r = out) := by
  unfold Index.remove
  cases held : index[p]? with
  | none =>
      refine ⟨fun mem => ⟨mem, ?_⟩, And.left⟩
      rintro ⟨rfl, -⟩
      simp [Index.outs, held] at mem
  | some outs =>
      unfold Index.outs
      simp only [Std.ExtTreeMap.getElem?_insert, Std.LawfulEqCmp.compare_eq_iff_eq]
      by_cases same : p = q
      · subst same
        simp [held, and_comm]
      · simp [same, Ne.symm same]

theorem mem_delOut {pubkeys : List Bytes} {out r : Ref} {index : Index} {q : Bytes} :
    r ∈ (delOutFromBalanceIndex pubkeys out index).outs q ↔
      r ∈ index.outs q ∧ ¬ (q ∈ pubkeys ∧ r = out) := by
  induction pubkeys generalizing index with
  | nil => simp [delOutFromBalanceIndex]
  | cons p pubkeys ih =>
      rw [delOutFromBalanceIndex, List.foldl_cons]
      refine ih.trans ?_
      rw [Index.mem_remove, List.mem_cons]
      tauto

variable (pkg : Packages)

/-- The output of a transaction belongs to a key. -/
def Packages.Owns (txn : Transaction) (i : Nat) (p : Bytes) : Prop :=
  ∃ o, txn.outputs[i]? = some o ∧ p ∈ pkg.getPubkeys o

theorem mem_zipIdx_iff {txn : Transaction} {r : Ref} {p : Bytes} :
    (∃ entry ∈ txn.outputs.zipIdx, p ∈ pkg.getPubkeys entry.1 ∧ r = (pkg.txid txn, entry.2)) ↔
      r.1 = pkg.txid txn ∧ pkg.Owns txn r.2 p := by
  obtain ⟨k, i⟩ := r
  constructor
  · rintro ⟨⟨o, j⟩, mem, owner, same⟩
    obtain ⟨rfl, rfl⟩ := Prod.mk.inj same
    exact ⟨rfl, o, List.mk_mem_zipIdx_iff_getElem?.mp mem, owner⟩
  · rintro ⟨rfl, o, out, owner⟩
    exact ⟨(o, i), List.mk_mem_zipIdx_iff_getElem?.mpr out, owner, rfl⟩

theorem mem_addOuts {pubkeys : List Bytes} {out r : Ref} {index : Index} {q : Bytes} :
    r ∈ Index.outs (pubkeys.foldl (fun index p => index.add p out) index) q ↔
      (q ∈ pubkeys ∧ r = out) ∨ r ∈ index.outs q := by
  induction pubkeys generalizing index with
  | nil => simp
  | cons p pubkeys ih =>
      rw [List.foldl_cons]
      refine ih.trans ?_
      rw [Index.mem_add, List.mem_cons]
      tauto

/-- `add_txn_to_balance_index` adds the outputs of the transaction, under their keys. -/
theorem mem_addTxn {txn : Transaction} {index : Index} {r : Ref} {q : Bytes} :
    r ∈ (pkg.addTxnToBalanceIndex txn index).outs q ↔
      (r.1 = pkg.txid txn ∧ pkg.Owns txn r.2 q) ∨ r ∈ index.outs q := by
  rw [← mem_zipIdx_iff, Packages.addTxnToBalanceIndex]
  generalize txn.outputs.zipIdx = entries
  induction entries generalizing index with
  | nil => simp
  | cons entry entries ih =>
      rw [List.foldl_cons]
      refine ih.trans ?_
      rw [mem_addOuts]
      simp only [List.mem_cons, exists_eq_or_imp]
      exact or_left_comm.trans or_assoc.symm

/-- What `del_from_pending` does to the index. -/
def Packages.delTxnFromBalanceIndex (tx : Transaction) (index : Index) : Index :=
  tx.outputs.zipIdx.foldl (fun index entry =>
    delOutFromBalanceIndex (pkg.getPubkeys entry.1) (pkg.txid tx, entry.2) index) index

theorem mem_delTxn {tx : Transaction} {index : Index} {r : Ref} {q : Bytes} :
    r ∈ (pkg.delTxnFromBalanceIndex tx index).outs q ↔
      r ∈ index.outs q ∧ ¬ (r.1 = pkg.txid tx ∧ pkg.Owns tx r.2 q) := by
  rw [← mem_zipIdx_iff, Packages.delTxnFromBalanceIndex]
  generalize tx.outputs.zipIdx = entries
  induction entries generalizing index with
  | nil => simp
  | cons entry entries ih =>
      rw [List.foldl_cons]
      refine ih.trans ?_
      rw [mem_delOut, and_assoc, ← not_or]
      simp only [List.mem_cons, exists_eq_or_imp]

theorem delFromPending_eq (tx : Transaction) (s : Storage) :
    pkg.delFromPending tx s = .ok ⟨⟩ { s with
      pend := s.pend.erase (pkg.txid tx)
      pubOutsPend := pkg.delTxnFromBalanceIndex tx s.pubOutsPend } := by
  have loop : ∀ (entries : List (Output × Nat)) (u : Storage),
      (entries.forM fun entry => modify fun s => { s with
        pubOutsPend := delOutFromBalanceIndex (pkg.getPubkeys entry.1) (pkg.txid tx, entry.2)
          s.pubOutsPend } : M Unit) u = .ok ⟨⟩ { u with
        pubOutsPend := entries.foldl (fun index entry => delOutFromBalanceIndex
          (pkg.getPubkeys entry.1) (pkg.txid tx, entry.2) index) u.pubOutsPend } := by
    intro entries
    induction entries with
    | nil => exact fun u => rfl
    | cons entry entries ih =>
        intro u
        rw [forM_cons, modify_bind, ih]
        rfl
  rw [Packages.delFromPending, modify_bind, loop]
  rfl

/-! ### What the operations do to the books -/

/-- What spending does to the keys of the databases: nothing. -/
theorem spendOutput_keys (k : Bytes) (inp : Input) :
    Sustains (fun s : Storage => k ∉ s.db ∧ k ∉ s.pend) (pkg.spendOutput inp) := by
  intro s absent
  have same := (spendOutput_lockstep pkg inp).final (s := s) rfl
  rcases Ledger.final_spend inp s.toLedger with unchanged | cleared
  · rw [unchanged] at same
    rw [same]
    exact absent
  · rw [cleared] at same
    rw [same]
    exact ⟨fun mem => absent.1 ((@mem_clearBits s.db [inp.ref] k).mp mem), absent.2⟩

/-- A property of the databases and indexes that every elementary write keeps: spending
an output, storing a transaction, putting one into `pend`, and taking one out. -/
structure Storage.Tracked (I : Storage → Prop) : Prop where
  ofBooks : ∀ s t : Storage, I s → t.db = s.db → t.pend = s.pend → t.pubOuts = s.pubOuts →
    t.pubOutsPend = s.pubOutsPend → I t
  spend : ∀ inp, Sustains I (pkg.spendOutput inp)
  store : ∀ s txn ts, I s → pkg.txid txn ∉ s.db → pkg.txid txn ∉ s.pend → I { s with
    db := s.db.insert (pkg.txid txn) (.new txn ts)
    pubOuts := pkg.addTxnToBalanceIndex txn s.pubOuts }
  hold : ∀ s txn ts, I s → pkg.txid txn ∉ s.db → txn.timelock ≠ 0 → I { s with
    pend := s.pend.insert (pkg.txid txn) (.new txn ts)
    pubOutsPend := pkg.addTxnToBalanceIndex txn s.pubOutsPend }
  release : ∀ s tx, I s → I { s with
    pend := s.pend.erase (pkg.txid tx)
    pubOutsPend := pkg.delTxnFromBalanceIndex tx s.pubOutsPend }
  notPending : ∀ s txn, I s → txn.timelock = 0 → pkg.txid txn ∉ s.pend

namespace Storage.Tracked

variable {pkg} {I : Storage → Prop} {s : Storage}

theorem writeTxnToDb (tracked : Tracked pkg I) {txn : Transaction} (holds : I s)
    (fresh : pkg.txid txn ∉ s.db) (notPending : pkg.txid txn ∉ s.pend) (ts : Nat) :
    I (final (pkg.writeTxnToDb txn ts s)) := by
  have spent : I (final (txn.inputs.forM pkg.spendOutput s)) :=
    Sustains.forM (fun inp _ => tracked.spend inp) s holds
  have absent := Sustains.forM (I := fun s : Storage => pkg.txid txn ∉ s.db ∧ pkg.txid txn ∉ s.pend)
    (fun inp (_ : inp ∈ txn.inputs) => spendOutput_keys pkg _ inp) s ⟨fresh, notPending⟩
  rw [Packages.writeTxnToDb, bind_apply]
  cases run : txn.inputs.forM pkg.spendOutput s with
  | error e t =>
      rw [run] at spent
      exact spent
  | ok _ t =>
      rw [run] at spent absent
      exact tracked.store t txn ts spent absent.1 absent.2

theorem writeTxnToPend (tracked : Tracked pkg I) {txn : Transaction} (holds : I s)
    (fresh : pkg.txid txn ∉ s.db) (locked : txn.timelock ≠ 0) (ts : Nat) :
    I (final (pkg.writeTxnToPend txn ts s)) := by
  rw [Packages.writeTxnToPend, modify_bind, modify_bind]
  exact Sustains.forM (fun inp _ => tracked.spend inp) _ (tracked.hold s txn ts holds fresh locked)

theorem delFromPending (tracked : Tracked pkg I) (holds : I s) (tx : Transaction) :
    I (final (pkg.delFromPending tx s)) ∧
      pkg.txid tx ∉ (final (pkg.delFromPending tx s)).pend := by
  rw [delFromPending_eq]
  exact ⟨tracked.release s tx holds, fun pending => by simp at pending⟩

theorem note (tracked : Tracked pkg I) (holds : I s) (event : Event) :
    I (final (Belcoin.note event s)) :=
  tracked.ofBooks s _ holds rfl rfl rfl rfl

theorem verifyTxn (tracked : Tracked pkg I) (holds : I s) (txn : Transaction) (checkPend : Bool) :
    I (final (pkg.verifyTxn txn checkPend s)) ∧
      ∀ t, pkg.verifyTxn txn checkPend s = .ok true t → pkg.txid txn ∉ t.db ∧
        (pkg.txid txn ∉ s.pend → pkg.txid txn ∉ t.pend) := by
  rw [Packages.verifyTxn, get_bind]
  cases decided : pkg.decideTxn s.toLedger txn checkPend with
  | error e => exact ⟨holds, fun t run => by cases run⟩
  | ok decision =>
      cases decision with
      | stored => exact ⟨tracked.ofBooks s _ holds rfl rfl rfl rfl, fun t run => by cases run⟩
      | invalid => exact ⟨tracked.ofBooks s _ holds rfl rfl rfl rfl, fun t run => by cases run⟩
      | valid check =>
          have fresh : pkg.txid txn ∉ s.db := (pkg.decideTxn_valid.mp decided).1.fresh
          have unchanged : ∀ t, (.ok true s : EStateM.Result PyError Storage Bool) = .ok true t →
              pkg.txid txn ∉ t.db ∧ (pkg.txid txn ∉ s.pend → pkg.txid txn ∉ t.pend) := by
            intro t run
            cases run
            exact ⟨fresh, id⟩
          cases checkPend with
          | false => exact ⟨holds, unchanged⟩
          | true =>
              rcases check with _ | (_ | _ | tx)
              · exact ⟨holds, unchanged⟩
              · exact ⟨holds, unchanged⟩
              · exact ⟨holds, unchanged⟩
              · simp only [bind_apply, delFromPending_eq]
                refine ⟨tracked.note (tracked.release s tx holds) _, fun t run => ?_⟩
                cases run
                exact ⟨fresh, fun absent pending => absent (Std.ExtTreeMap.mem_of_mem_erase pending)⟩

/-- Settling keeps what is tracked, also where it raises. -/
theorem settleTxn (tracked : Tracked pkg I) (txn : Transaction) :
    Sustains I (pkg.settleTxn txn) := by
  intro s holds
  rw [Packages.settleTxn, get_bind]
  obtain ⟨verified, accepted⟩ := tracked.verifyTxn holds txn true
  refine final_bind verified fun passed t run holds => ?_
  cases passed with
  | false => exact holds
  | true =>
      refine final_bind (tracked.note holds _) fun _ u logs noted => ?_
      cases logs
      by_cases locked : txn.timelock ≠ 0
      · rw [if_pos locked]
        exact tracked.writeTxnToPend noted (accepted t run).1 locked _
      · rw [if_neg locked]
        exact tracked.writeTxnToDb noted (accepted t run).1
          (tracked.notPending _ txn noted (not_not.mp locked)) _

theorem processTxn (tracked : Tracked pkg I) (txid : Bytes) : Sustains I (pkg.processTxn txid) := by
  refine Sustains.get_bind fun u => ?_
  cases u.mempool[txid]? with
  | none => exact sustains_throw _ _
  | some txn =>
      exact (tracked.settleTxn txn).bind fun _ =>
        sustains_modify fun s holds => tracked.ofBooks s _ holds rfl rfl rfl rfl

/-- The expiry of a pending transaction keeps what is tracked. -/
theorem updatePendTxn (tracked : Tracked pkg I) (txnw : TxnWrapper) :
    Sustains I (pkg.updatePendTxn txnw) := by
  intro s holds
  rw [Packages.updatePendTxn, get_bind]
  by_cases passed : txnw.TimelockPassed s.currentTime
  swap
  · rw [if_neg passed]
    exact holds
  rw [if_pos passed]
  obtain ⟨deleted, gone⟩ := tracked.delFromPending holds txnw.txn
  refine final_bind deleted fun _ t deletes holds => ?_
  rw [deletes] at gone
  obtain ⟨verified, accepted⟩ := tracked.verifyTxn holds txnw.txn false
  refine final_bind verified fun passes u run holds => ?_
  cases passes with
  | false => exact tracked.note holds _
  | true =>
      obtain ⟨fresh, absent⟩ := accepted u run
      exact final_bind (tracked.writeTxnToDb holds fresh (absent gone) _)
        fun _ v _ holds => tracked.note holds _

theorem updatePend (tracked : Tracked pkg I) : Sustains I pkg.updatePend :=
  Sustains.get_bind fun _ => Sustains.forM fun entry _ => tracked.updatePendTxn entry.2

/-- **The rule for the books**: what the elementary writes keep, every action keeps, also
where it raises. -/
theorem exec (tracked : Tracked pkg I) (a : Action) : Sustains I (pkg.exec a) := by
  intro s holds
  refine exec_sustains (fun u v books kept => ?_) (fun txid tx => ?_) tracked.processTxn
    (tracked.updatePend s holds) holds a
  · exact tracked.ofBooks u v kept books.db books.pend books.pubOuts books.pubOutsPend
  · refine Sustains.get_bind fun u => ?_
    split
    · exact sustains_modify fun u kept => tracked.ofBooks u _ kept rfl rfl rfl rfl
    · exact sustains_pure _ _

end Storage.Tracked

/-! ### The invariants -/

/-- What an index lists is stored, or pending: all that survives a restart. -/
structure Storage.Lists (s : Storage) : Prop where
  outs : ∀ (p : Bytes) (r : Ref), r ∈ s.pubOuts.outs p → ∃ txnw, s.db[r.1]? = some txnw ∧
    pkg.Owns txnw.txn r.2 p
  pendOuts : ∀ (p : Bytes) (r : Ref), r ∈ s.pubOutsPend.outs p ↔
    ∃ txnw, s.pend[r.1]? = some txnw ∧ pkg.Owns txnw.txn r.2 p
  pendKeyed : ∀ (k : Bytes) (txnw : TxnWrapper), s.pend[k]? = some txnw → pkg.txid txnw.txn = k
  pendLocked : ∀ (k : Bytes) (txnw : TxnWrapper), s.pend[k]? = some txnw → txnw.txn.timelock ≠ 0
  apart : ∀ k, k ∈ s.db → k ∉ s.pend

/-- The databases and the indexes of a node agree. -/
structure Storage.Mirrors (s : Storage) : Prop where
  outs : ∀ (p : Bytes) (r : Ref), r ∈ s.pubOuts.outs p ↔ ∃ txnw, s.db[r.1]? = some txnw ∧
    txnw.utxos[r.2]? = some true ∧ pkg.Owns txnw.txn r.2 p
  pendOuts : ∀ (p : Bytes) (r : Ref), r ∈ s.pubOutsPend.outs p ↔
    ∃ txnw, s.pend[r.1]? = some txnw ∧ pkg.Owns txnw.txn r.2 p
  pendKeyed : ∀ (k : Bytes) (txnw : TxnWrapper), s.pend[k]? = some txnw → pkg.txid txnw.txn = k
  pendLocked : ∀ (k : Bytes) (txnw : TxnWrapper), s.pend[k]? = some txnw → txnw.txn.timelock ≠ 0
  apart : ∀ k, k ∈ s.db → k ∉ s.pend

variable {pkg}

namespace Storage.Lists

variable {s : Storage}

theorem of_books {t : Storage} (lists : s.Lists pkg) (db : t.db = s.db) (pend : t.pend = s.pend)
    (outs : t.pubOuts = s.pubOuts) (pendOuts : t.pubOutsPend = s.pubOutsPend) : t.Lists pkg where
  outs := by
    rw [db, outs]
    exact lists.outs
  pendOuts := by
    rw [pend, pendOuts]
    exact lists.pendOuts
  pendKeyed := pend ▸ lists.pendKeyed
  pendLocked := pend ▸ lists.pendLocked
  apart := by
    rw [db, pend]
    exact lists.apart

/-- A spent output may be listed still, but its transaction stays stored. -/
theorem spendOutput (inp : Input) : Sustains (fun s => s.Lists pkg) (pkg.spendOutput inp) := by
  intro s lists
  simp only [Packages.spendOutput, getItem, setItem, bind_apply, get_apply]
  cases held : s.db[inp.txid]? with
  | none => exact lists
  | some txnw =>
      simp only [pure_apply]
      by_cases inRange : inp.index < txnw.utxos.length
      swap
      · rw [if_neg inRange]
        exact lists
      rw [if_pos inRange, modify_bind]
      have keys : ∀ k, k ∈ s.db.insert inp.txid { txnw with utxos := txnw.utxos.set inp.index false } →
          k ∉ s.pend := by
        intro k mem
        rcases Std.ExtTreeMap.mem_insert.mp mem with same | old
        · rw [← Std.LawfulEqCmp.compare_eq_iff_eq.mp same]
          exact lists.apart _ (Std.ExtTreeMap.mem_iff_isSome_getElem?.mpr (by simp [held]))
        · exact lists.apart k old
      have entry : ∀ (p : Bytes) (r : Ref), r ∈ s.pubOuts.outs p → ∃ w, (s.db.insert inp.txid
          { txnw with utxos := txnw.utxos.set inp.index false })[r.1]? = some w ∧
            pkg.Owns w.txn r.2 p := by
        intro p r mem
        obtain ⟨w, held', owner⟩ := lists.outs p r mem
        simp only [Std.ExtTreeMap.getElem?_insert, Std.LawfulEqCmp.compare_eq_iff_eq]
        by_cases same : inp.txid = r.1
        · rw [← same, held] at held'
          cases held'
          exact ⟨_, if_pos same, owner⟩
        · exact ⟨w, (if_neg same).trans held', owner⟩
      cases txnw.txn.outputs[inp.index]? with
      | none => exact ⟨entry, lists.pendOuts, lists.pendKeyed, lists.pendLocked, keys⟩
      | some o =>
          refine ⟨fun p r mem => ?_, lists.pendOuts, lists.pendKeyed, lists.pendLocked, keys⟩
          exact entry p r (mem_delOut.mp mem).1

/-- A new transaction enters `db` with its outputs. -/
theorem store (lists : s.Lists pkg) {txn : Transaction} (fresh : pkg.txid txn ∉ s.db)
    (notPending : pkg.txid txn ∉ s.pend) (ts : Nat) : Lists pkg { s with
      db := s.db.insert (pkg.txid txn) (.new txn ts)
      pubOuts := pkg.addTxnToBalanceIndex txn s.pubOuts } := by
  refine ⟨fun p r mem => ?_, lists.pendOuts, lists.pendKeyed, lists.pendLocked, fun k mem => ?_⟩
  · simp only [Std.ExtTreeMap.getElem?_insert, Std.LawfulEqCmp.compare_eq_iff_eq]
    rcases (mem_addTxn pkg).mp mem with ⟨own, owner⟩ | before
    · exact ⟨_, if_pos own.symm, owner⟩
    · obtain ⟨w, held, owner⟩ := lists.outs p r before
      have other : pkg.txid txn ≠ r.1 := fun own => fresh
        (own ▸ Std.ExtTreeMap.mem_iff_isSome_getElem?.mpr (by simp [held]))
      exact ⟨w, (if_neg other).trans held, owner⟩
  · rcases Std.ExtTreeMap.mem_insert.mp mem with same | old
    · rw [← Std.LawfulEqCmp.compare_eq_iff_eq.mp same]
      exact notPending
    · exact lists.apart k old

variable (free : pkg.CollisionFree)
include free

/-- Transactions with one id have the same outputs. -/
theorem owns_congr {txn txn' : Transaction} (same : pkg.txid txn = pkg.txid txn') {i : Nat}
    {p : Bytes} : pkg.Owns txn i p ↔ pkg.Owns txn' i p := by
  have outputs : txn.outputs = txn'.outputs := congrArg Body.outputs (free.body_eq same)
  rw [Packages.Owns, Packages.Owns, outputs]

/-- A transaction with a timelock enters `pend` with its outputs. -/
theorem hold (lists : s.Lists pkg) {txn : Transaction} (fresh : pkg.txid txn ∉ s.db)
    (locked : txn.timelock ≠ 0) (ts : Nat) : Lists pkg { s with
      pend := s.pend.insert (pkg.txid txn) (.new txn ts)
      pubOutsPend := pkg.addTxnToBalanceIndex txn s.pubOutsPend } := by
  have entry : ∀ (k : Bytes) (w : TxnWrapper),
      (s.pend.insert (pkg.txid txn) (.new txn ts))[k]? = some w →
        (k = pkg.txid txn ∧ w = .new txn ts) ∨ s.pend[k]? = some w := by
    intro k w held
    simp only [Std.ExtTreeMap.getElem?_insert, Std.LawfulEqCmp.compare_eq_iff_eq] at held
    split at held
    · rename_i same
      exact .inl ⟨same.symm, (Option.some.inj held).symm⟩
    · exact .inr held
  refine ⟨lists.outs, fun p r => ?_, fun k w held => ?_, fun k w held => ?_, fun k mem pending => ?_⟩
  · refine (mem_addTxn pkg).trans ?_
    rw [lists.pendOuts p r]
    simp only [Std.ExtTreeMap.getElem?_insert, Std.LawfulEqCmp.compare_eq_iff_eq]
    by_cases own : pkg.txid txn = r.1
    · simp only [own, if_true, true_and, Option.some.injEq, exists_eq_left', TxnWrapper.new_txn]
      refine ⟨?_, .inl⟩
      rintro (owner | ⟨w, before, owner⟩)
      · exact owner
      · exact (owns_congr free (own.trans (lists.pendKeyed _ _ before).symm)).mpr owner
    · simp [own, Ne.symm own]
  · rcases entry k w held with ⟨rfl, rfl⟩ | before
    · rfl
    · exact lists.pendKeyed k w before
  · rcases entry k w held with ⟨rfl, rfl⟩ | before
    · exact locked
    · exact lists.pendLocked k w before
  · rcases Std.ExtTreeMap.mem_insert.mp pending with same | before
    · rw [← Std.LawfulEqCmp.compare_eq_iff_eq.mp same] at mem
      exact fresh mem
    · exact lists.apart k mem before

/-- A transaction leaves `pend` with its outputs. -/
theorem release (lists : s.Lists pkg) (tx : Transaction) : Lists pkg { s with
    pend := s.pend.erase (pkg.txid tx)
    pubOutsPend := pkg.delTxnFromBalanceIndex tx s.pubOutsPend } := by
  refine ⟨lists.outs, fun p r => ?_, fun k w held => ?_, fun k w held => ?_, fun k mem pending => ?_⟩
  · refine (mem_delTxn pkg).trans ?_
    rw [lists.pendOuts p r]
    simp only [Std.ExtTreeMap.getElem?_erase, Std.LawfulEqCmp.compare_eq_iff_eq]
    by_cases own : pkg.txid tx = r.1
    · simp only [own, if_true, reduceCtorEq, false_and, exists_false, iff_false, not_and, not_not,
        true_and]
      rintro ⟨w, before, owner⟩
      exact (owns_congr free (own.trans (lists.pendKeyed _ _ before).symm)).mpr owner
    · simp [own, Ne.symm own]
  · exact lists.pendKeyed k w (getElem?_of_erase held)
  · exact lists.pendLocked k w (getElem?_of_erase held)
  · exact lists.apart k mem (Std.ExtTreeMap.mem_of_mem_erase pending)

/-- A transaction without a timelock is not pending. -/
theorem notPending (lists : s.Lists pkg) {txn : Transaction} (unlocked : txn.timelock = 0) :
    pkg.txid txn ∉ s.pend := by
  intro pending
  obtain ⟨w, held⟩ := Option.isSome_iff_exists.mp (Std.ExtTreeMap.mem_iff_isSome_getElem?.mp pending)
  have sameLock : w.txn.timelock = txn.timelock :=
    congrArg Body.timelock (free.body_eq (lists.pendKeyed _ w held))
  exact lists.pendLocked _ w held (sameLock.trans unlocked)

theorem tracked : Tracked pkg fun s => s.Lists pkg where
  ofBooks _ _ lists := lists.of_books
  spend := spendOutput
  store _ _ ts lists fresh notPending := lists.store fresh notPending ts
  hold _ _ ts lists fresh locked := lists.hold free fresh locked ts
  release _ tx lists := lists.release free tx
  notPending _ _ lists := lists.notPending free

end Storage.Lists

namespace Storage.Mirrors

variable {s : Storage}

theorem lists (mirrors : s.Mirrors pkg) : s.Lists pkg where
  outs p r mem := by
    obtain ⟨txnw, held, -, owner⟩ := (mirrors.outs p r).mp mem
    exact ⟨txnw, held, owner⟩
  pendOuts := mirrors.pendOuts
  pendKeyed := mirrors.pendKeyed
  pendLocked := mirrors.pendLocked
  apart := mirrors.apart

theorem of_lists (lists : s.Lists pkg) (outs : ∀ (p : Bytes) (r : Ref), r ∈ s.pubOuts.outs p ↔
    ∃ txnw, s.db[r.1]? = some txnw ∧ txnw.utxos[r.2]? = some true ∧ pkg.Owns txnw.txn r.2 p) :
    s.Mirrors pkg :=
  ⟨outs, lists.pendOuts, lists.pendKeyed, lists.pendLocked, lists.apart⟩

/-- The output that an input refers to is taken out as its bit is cleared. -/
theorem spendOutput (inp : Input) : Sustains (fun s => s.Mirrors pkg) (pkg.spendOutput inp) := by
  intro s mirrors
  refine of_lists (Lists.spendOutput inp s mirrors.lists) ?_
  simp only [Packages.spendOutput, getItem, setItem, bind_apply, get_apply]
  cases held : s.db[inp.txid]? with
  | none => exact mirrors.outs
  | some txnw =>
      simp only [pure_apply]
      by_cases inRange : inp.index < txnw.utxos.length
      swap
      · rw [if_neg inRange]
        exact mirrors.outs
      rw [if_pos inRange, modify_bind]
      -- the entry keeps its transaction, and one bit is cleared
      have entry : ∀ (p : Bytes) (r : Ref), (∃ w, (s.db.insert inp.txid
          { txnw with utxos := txnw.utxos.set inp.index false })[r.1]? = some w ∧
            w.utxos[r.2]? = some true ∧ pkg.Owns w.txn r.2 p) ↔
          r ∈ s.pubOuts.outs p ∧ r ≠ inp.ref := by
        intro p r
        rw [mirrors.outs p r]
        simp only [Std.ExtTreeMap.getElem?_insert, Std.LawfulEqCmp.compare_eq_iff_eq]
        by_cases same : inp.txid = r.1
        · rw [← same, held, if_pos rfl]
          by_cases index : inp.index = r.2
          · have own : r = inp.ref := Prod.ext same.symm index.symm
            simp [own, Input.ref, inRange]
          · have other : r ≠ inp.ref := fun own => index (congrArg Prod.snd own).symm
            simp [List.getElem?_set_ne index, other]
        · have other : r ≠ inp.ref := fun own => same (congrArg Prod.fst own).symm
          simp [same, other]
      intro p r
      cases out : txnw.txn.outputs[inp.index]? with
      | none =>
          refine Iff.trans ⟨fun mem => ⟨mem, ?_⟩, And.left⟩ (entry p r).symm
          rintro rfl
          obtain ⟨w, held', -, o, out', -⟩ := (mirrors.outs p _).mp mem
          cases held.symm.trans held'
          exact absurd (out.symm.trans out') (by simp)
      | some o =>
          refine (mem_delOut.trans ⟨fun mem => ⟨mem.1, ?_⟩, fun mem =>
            ⟨mem.1, fun own => mem.2 own.2⟩⟩).trans (entry p r).symm
          rintro rfl
          obtain ⟨w, held', -, o', out', owner⟩ := (mirrors.outs p _).mp mem.1
          cases held.symm.trans held'
          cases out.symm.trans out'
          exact mem.2 ⟨owner, rfl⟩

/-- A new transaction enters `db` with all its outputs unspent. -/
theorem store (mirrors : s.Mirrors pkg) {txn : Transaction} (fresh : pkg.txid txn ∉ s.db)
    (notPending : pkg.txid txn ∉ s.pend) (ts : Nat) : Mirrors pkg { s with
      db := s.db.insert (pkg.txid txn) (.new txn ts)
      pubOuts := pkg.addTxnToBalanceIndex txn s.pubOuts } := by
  refine of_lists (mirrors.lists.store fresh notPending ts) fun p r => ?_
  refine (mem_addTxn pkg).trans ?_
  rw [mirrors.outs p r]
  simp only [Std.ExtTreeMap.getElem?_insert, Std.LawfulEqCmp.compare_eq_iff_eq]
  by_cases own : pkg.txid txn = r.1
  · have absent : s.db[r.1]? = none := by
      rw [← own]
      exact Std.ExtTreeMap.getElem?_eq_none fresh
    rw [if_pos own, absent]
    simp only [own, TxnWrapper.new, Option.some.injEq, exists_eq_left', reduceCtorEq,
      false_and, exists_false, or_false, true_and]
    refine ⟨fun owner => ⟨?_, owner⟩, And.right⟩
    obtain ⟨o, out, -⟩ := owner
    simpa [List.getElem?_replicate] using (List.getElem?_eq_some_iff.mp out).1
  · simp [own, Ne.symm own]

theorem tracked (free : pkg.CollisionFree) : Tracked pkg fun s => s.Mirrors pkg where
  ofBooks s t mirrors db pend outs pendOuts := by
    refine of_lists (mirrors.lists.of_books db pend outs pendOuts) ?_
    rw [db, outs]
    exact mirrors.outs
  spend := spendOutput
  store _ _ ts mirrors fresh notPending := mirrors.store fresh notPending ts
  hold _ _ ts mirrors fresh locked := of_lists (mirrors.lists.hold free fresh locked ts) mirrors.outs
  release _ tx mirrors := of_lists (mirrors.lists.release free tx) mirrors.outs
  notPending _ _ mirrors := mirrors.lists.notPending free

end Storage.Mirrors

variable (pkg)

/-! ### The runs of a node -/

/-- The index of a list of stored transactions. -/
theorem mem_indexed {entries : List (Bytes × TxnWrapper)}
    (keyed : ∀ entry ∈ entries, pkg.txid entry.2.txn = entry.1) {index : Index} {r : Ref} {q : Bytes} :
    r ∈ Index.outs (entries.foldl (fun index entry =>
        pkg.addTxnToBalanceIndex entry.2.txn index) index) q ↔
      (∃ txnw, (r.1, txnw) ∈ entries ∧ pkg.Owns txnw.txn r.2 q) ∨ r ∈ index.outs q := by
  induction entries generalizing index with
  | nil => simp
  | cons entry entries ih =>
      obtain ⟨first, rest⟩ := List.forall_mem_cons.mp keyed
      rw [List.foldl_cons]
      refine (ih rest).trans ?_
      rw [mem_addTxn, first]
      constructor
      · rintro (⟨txnw, mem, owner⟩ | ⟨own, owner⟩ | before)
        · exact .inl ⟨txnw, List.mem_cons_of_mem _ mem, owner⟩
        · exact .inl ⟨entry.2, by rw [own]; exact List.mem_cons_self, owner⟩
        · exact .inr before
      · rintro (⟨txnw, mem, owner⟩ | before)
        · rcases List.mem_cons.mp mem with rfl | later
          · exact .inr (.inl ⟨rfl, owner⟩)
          · exact .inl ⟨txnw, later, owner⟩
        · exact .inr (.inr before)

/-- The index that the constructor builds over a database. -/
theorem mem_rebuilt {db : Store TxnWrapper}
    (keyed : ∀ (k : Bytes) (txnw : TxnWrapper), db[k]? = some txnw → pkg.txid txnw.txn = k)
    {r : Ref} {q : Bytes} :
    r ∈ Index.outs (db.toList.foldl (fun index entry =>
        pkg.addTxnToBalanceIndex entry.2.txn index) ∅) q ↔
      ∃ txnw, db[r.1]? = some txnw ∧ pkg.Owns txnw.txn r.2 q := by
  refine (mem_indexed pkg fun entry mem => keyed _ _
    (Std.ExtTreeMap.mem_toList_iff_getElem?_eq_some.mp mem)).trans ?_
  simp [Std.ExtTreeMap.mem_toList_iff_getElem?_eq_some, Index.outs]

variable {setup : Setup}

theorem Setup.fresh_mirrors (setup : Setup) : setup.fresh.Mirrors setup.toPackages := by
  have sound := setup.fresh_sound
  refine ⟨fun p r => ?_, fun p r => ?_, sound.pendKeyed, fun k txnw held => ?_, fun k _ pending => ?_⟩
  · refine (mem_rebuilt setup.toPackages sound.dbKeyed).trans ?_
    refine exists_congr fun txnw => and_congr_right fun held => ⟨fun owner => ⟨?_, owner⟩, And.right⟩
    obtain ⟨gentxn, -, -, rfl⟩ := setup.fresh_entry held
    obtain ⟨o, out, -⟩ := owner
    simpa [TxnWrapper.new, List.getElem?_replicate] using (List.getElem?_eq_some_iff.mp out).1
  · exact mem_rebuilt setup.toPackages sound.pendKeyed
  · simp [Setup.fresh, Setup.construct] at held
  · simp [Setup.fresh, Setup.construct] at pending

/-- The indexes mirror the databases in every run, also where operations raised. -/
theorem Setup.mirrors_of_reachable (free : setup.CollisionFree) {s : Storage}
    (reached : setup.faultyNode.Reachable s) : s.Mirrors setup.toPackages := by
  refine reached.invariant (I := fun s => s.Mirrors setup.toPackages) ?_ ?_
  · rintro _ rfl
    exact setup.fresh_mirrors
  · rintro s a _ _ mirrors rfl
    exact (Storage.Mirrors.tracked free).exec a s mirrors

/-- **The balance indexes mirror the ledger**, in every run without a restart, whether
operations raise or not: `pub_outs` lists the unspent outputs in `db` under each of
their keys, `pub_outs_pend` the outputs in `pend`, and no id is in both databases. -/
theorem Setup.node_indexes (free : setup.CollisionFree) {s : Storage}
    (reached : setup.faultyNode.Reachable s) :
    (∀ (p : Bytes) (r : Ref), r ∈ s.pubOuts.outs p ↔ ∃ txnw, s.db[r.1]? = some txnw ∧
      txnw.utxos[r.2]? = some true ∧ ∃ o, txnw.txn.outputs[r.2]? = some o ∧ p ∈ setup.getPubkeys o) ∧
    (∀ (p : Bytes) (r : Ref), r ∈ s.pubOutsPend.outs p ↔ ∃ txnw, s.pend[r.1]? = some txnw ∧
      ∃ o, txnw.txn.outputs[r.2]? = some o ∧ p ∈ setup.getPubkeys o) ∧
    ∀ k, k ∈ s.db → k ∉ s.pend := by
  have mirrors := Setup.mirrors_of_reachable free reached
  exact ⟨mirrors.outs, mirrors.pendOuts, mirrors.apart⟩

/-- A payment waits in `pend` and is committed when its timelock has passed. -/
def lockedRun : List Action :=
  [.puttxn (Ideal.pay (Ideal.packages.txid Ideal.genesis) 0 0 5),
    .deliver ⟨0, [Ideal.packages.txid (Ideal.pay (Ideal.packages.txid Ideal.genesis) 0 0 5)]⟩,
    .tryProcess, .deliver ⟨Nat.cast 6, []⟩, .tryProcess, .updatePend]

theorem node_indexes_committed :
    (Ideal.packages.txid (Ideal.pay (Ideal.packages.txid Ideal.genesis) 0 0 5), 0) ∈
      (Ideal.small.after lockedRun).pubOuts.outs [7] :=
  ((@Setup.node_indexes Ideal.small Ideal.ideal_collisionFree _
    (Setup.faulty_of_node (Ideal.small.reachable_after lockedRun))).1 [7] _).mpr
      ⟨.new (Ideal.pay (Ideal.packages.txid Ideal.genesis) 0 0 5) 0, by decide +kernel,
        by decide +kernel, Ideal.coin 1, by decide +kernel, by decide +kernel⟩

/-- Payments of the two genesis outputs, the second to another key and with a timelock. -/
def directPayment : Transaction := Ideal.pay (Ideal.packages.txid Ideal.genesis) 0 0 0

def gift : Transaction :=
  ⟨[Ideal.spend (Ideal.packages.txid Ideal.genesis) 1],
    [{ amount := 1, pubkey := [8], pubkey2 := [8] }], 0, 5⟩

/-- The first payment is committed, and the second waits in `pend`. -/
def giftRun : List Action :=
  [.puttxn directPayment, .puttxn gift,
    .deliver ⟨0, [Ideal.packages.txid directPayment, Ideal.packages.txid gift]⟩, .tryProcess]

/-! ### A restart -/

/-- The process is stopped and `Storage` constructed again. -/
def Setup.restart (setup : Setup) (s : Storage) : Storage :=
  setup.construct s.db s.pend s.mempool

/-- Genesis transactions that are stored are not written again. -/
theorem genesis_stored {pkg : Packages} {coinbase : List Transaction} {db : Store TxnWrapper}
    (stored : ∀ gentxn ∈ coinbase, pkg.txid gentxn ∈ db) :
    coinbase.foldl (fun db gentxn => if pkg.txid gentxn ∈ db then db
      else db.insert (pkg.txid gentxn) (.new gentxn 0)) db = db := by
  induction coinbase with
  | nil => rfl
  | cons gentxn coinbase ih =>
      obtain ⟨first, rest⟩ := List.forall_mem_cons.mp stored
      rw [List.foldl_cons, if_pos first]
      exact ih rest

/-- A database of genesis transactions holds all of them. -/
theorem mem_genesis {pkg : Packages} {coinbase : List Transaction} {db : Store TxnWrapper}
    {gentxn : Transaction} (held : gentxn ∈ coinbase ∨ pkg.txid gentxn ∈ db) :
    pkg.txid gentxn ∈ coinbase.foldl (fun db gentxn => if pkg.txid gentxn ∈ db then db
      else db.insert (pkg.txid gentxn) (.new gentxn 0)) db := by
  induction coinbase generalizing db with
  | nil => exact held.resolve_left (by simp)
  | cons first coinbase ih =>
      rw [List.foldl_cons]
      refine ih ?_
      rcases held with (_ | ⟨_, later⟩) | before
      · refine .inr ?_
        split
        · assumption
        · exact Std.ExtTreeMap.mem_insert_self
      · exact .inl later
      · refine .inr ?_
        split
        · exact before
        · exact Std.ExtTreeMap.mem_insert.mpr (.inr before)

/-- Every entry of `db` is kept under its id, and the genesis transactions stay. -/
theorem Setup.node_keyed {s : Storage} (reached : setup.faultyNode.Reachable s) :
    (∀ gentxn ∈ setup.coinbase, setup.txid gentxn ∈ s.db) ∧
      ∀ (k : Bytes) (txnw : TxnWrapper), s.db[k]? = some txnw → setup.txid txnw.txn = k := by
  refine ⟨fun gentxn genesis => ?_, ?_⟩
  · exact setup.node_persistent (stored_persistent setup.toPackages _) (fun _ _ held => held)
      (mem_genesis (.inl genesis)) reached
  · exact setup.node_persistent (keyed_persistent setup.toPackages) (fun _ _ held => held)
      setup.fresh_sound.dbKeyed reached

/-- What a restart finds in the databases is what was there, and the indexes list all
of it. -/
theorem Setup.restart_outs (free : setup.CollisionFree) {s : Storage}
    (reached : setup.faultyNode.Reachable s) (p : Bytes) (r : Ref) :
    (r ∈ (setup.restart s).pubOuts.outs p ↔
      ∃ txnw, s.db[r.1]? = some txnw ∧ setup.Owns txnw.txn r.2 p) ∧
    (r ∈ (setup.restart s).pubOutsPend.outs p ↔ r ∈ s.pubOutsPend.outs p) := by
  obtain ⟨genesis, keyed⟩ := setup.node_keyed reached
  have mirrors := Setup.mirrors_of_reachable free reached
  refine ⟨?_, ?_⟩
  · rw [restart, construct, genesis_stored genesis]
    exact mem_rebuilt setup.toPackages keyed
  · rw [mirrors.pendOuts]
    exact mem_rebuilt setup.toPackages mirrors.pendKeyed

/-- **When a rebuild agrees.** Constructing the node again over its databases yields
the indexes it had, exactly when no output that has a key is spent. -/
theorem Setup.node_rebuild (free : setup.CollisionFree) {s : Storage}
    (reached : setup.faultyNode.Reachable s) :
    (∀ p, (setup.restart s).pubOuts.outs p = s.pubOuts.outs p ∧
      (setup.restart s).pubOutsPend.outs p = s.pubOutsPend.outs p) ↔
    ∀ r, bit s.db r = some false → ∀ o, outputAt s.db r = some o → setup.getPubkeys o = [] := by
  have rebuilt := Setup.restart_outs free reached
  have mirrors := Setup.mirrors_of_reachable free reached
  constructor
  · intro agree r spent o out
    refine List.eq_nil_iff_forall_not_mem.mpr fun p owner => ?_
    obtain ⟨txnw, held, out'⟩ := Option.bind_eq_some_iff.mp out
    have listed := ((rebuilt p r).1.mpr ⟨txnw, held, o, out', owner⟩)
    rw [(agree p).1] at listed
    obtain ⟨txnw', held', unspent, -⟩ := (mirrors.outs p r).mp listed
    cases held.symm.trans held'
    rw [bit, held] at spent
    cases spent.symm.trans unspent
  · intro keyless p
    refine ⟨Finset.ext fun r => (rebuilt p r).1.trans ?_, Finset.ext fun r => (rebuilt p r).2⟩
    rw [mirrors.outs]
    refine exists_congr fun txnw => and_congr_right fun held => ⟨fun owner => ⟨?_, owner⟩, And.right⟩
    have fit := setup.node_persistent (fit_persistent setup.toPackages) (fun _ _ fit => fit)
      setup.fresh_sound.fit reached
    obtain ⟨o, out, mem⟩ := owner
    have inBits : r.2 < txnw.utxos.length := by
      rw [fit _ _ held]
      exact (List.getElem?_eq_some_iff.mp out).1
    rw [List.getElem?_eq_getElem inBits]
    cases unspent : txnw.utxos[r.2] with
    | true => rfl
    | false =>
        have none := keyless r (by simp [bit, held, inBits, unspent]) o (by simp [outputAt, held, out])
        simp [none] at mem

/-- A payment with a wrong signature, and a block with it. -/
def forgedPayment : Transaction :=
  ⟨[{ txid := Ideal.packages.txid Ideal.genesis, index := 0, signature := [9],
      signature2 := [9] }], [Ideal.coin 1], 0, 0⟩

def forgedRun : List Action :=
  [.puttxn forgedPayment, .deliver ⟨0, [Ideal.packages.txid forgedPayment]⟩, .tryProcess]

/-- The owner of the genesis outputs, after a block was refused and a restart. -/
theorem node_rebuild_forged :
    (Ideal.small.after forgedRun).invalidTxns = [Ideal.packages.txid forgedPayment] ∧
      (Ideal.small.restart (Ideal.small.after forgedRun)).pubOuts.outs [7] =
        (Ideal.small.after forgedRun).pubOuts.outs [7] ∧
      (Ideal.small.restart (Ideal.small.after forgedRun)).pubOutsPend.outs [7] =
        (Ideal.small.after forgedRun).pubOutsPend.outs [7] := by
  refine ⟨by decide +kernel, (@Setup.node_rebuild Ideal.small Ideal.ideal_collisionFree _
    (Setup.faulty_of_node (Ideal.small.reachable_after forgedRun))).mpr ?_ [7]⟩
  intro r spent
  have unspent : (Ideal.small.after forgedRun).db.toList.all (fun entry => entry.2.utxos.all id) = true := by
    decide +kernel
  obtain ⟨txnw, held, cleared⟩ := Option.bind_eq_some_iff.mp spent
  have bits := List.all_eq_true.mp unspent (r.1, txnw)
    (Std.ExtTreeMap.mem_toList_iff_getElem?_eq_some.mpr held)
  cases List.all_eq_true.mp bits false (List.mem_of_getElem? cleared)

/-- **Spent outputs listed again.** After a payment and a restart the index offers the
output that the payment has spent. -/
theorem spent_listed :
    ¬ ∀ s, Ideal.small.node.Reachable s → ∀ p,
      (Ideal.small.restart s).pubOuts.outs p = s.pubOuts.outs p ∧
        (Ideal.small.restart s).pubOutsPend.outs p = s.pubOutsPend.outs p := by
  intro claim
  have same := (claim _ (Ideal.small.reachable_after lockedRun) [7]).1
  exact absurd same (by decide +kernel)

end Belcoin
