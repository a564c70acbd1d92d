import Belcoin.Queue
import Belcoin.Ledger.Persist
import Belcoin.Ledger.Simulation

/-!
When a block can be finished.

Two kinds of transaction make `process_block` raise in the middle of a block: one
on which `verify_txn` reads `check` before anything was bound to it, and one that
is accepted and has a dummy input, which the writes look up in `db`.

* `processTxn_left` and `processTxn_returns` — what one turn of the loop does to
  the mempool, and when it returns at all.
* `clears_iff` — a block is finished exactly when `Digests` holds of it.
* `node_finishes` — the same for every block at a reachable ledger.
-/

namespace Belcoin

open Stateful

variable (pkg : Packages)

/-! ### What every run keeps -/

/-- The mempool keeps transactions under their ids. -/
def Storage.Keyed (s : Storage) : Prop :=
  ∀ (k : Bytes) (txn : Transaction), s.mempool[k]? = some txn → pkg.txid txn = k

theorem keyed_steady : Steady (Storage.Keyed pkg) where
  ledger _ _ keyed := keyed
  pubOuts _ _ keyed := keyed
  pubOutsPend _ _ keyed := keyed
  invalidTxns _ _ keyed := keyed
  removal _ _ keyed k txn held := keyed k txn (getElem?_of_erase held)

theorem addMissing_keyed (txid : Bytes) (tx : Transaction) :
    Sustains (Storage.Keyed pkg) (pkg.addMissing txid tx) :=
  addMissing_bodies pkg rfl txid

/-- Every action keeps the mempool keyed. -/
theorem exec_keyed {s : Storage} (a : Action) (keyed : s.Keyed pkg) :
    (final (pkg.exec a s)).Keyed pkg := by
  have steady := keyed_steady pkg
  refine exec_sustains (fun u v books kept k txn held => ?_) (addMissing_keyed pkg)
    (steady.processTxn pkg) (steady.updatePend pkg s keyed) keyed a
  exact kept k txn (books.mempool ▸ held)

theorem Setup.fresh_keyed (setup : Setup) : setup.fresh.Keyed setup.toPackages := by
  intro k txn held
  simp [Setup.fresh, Setup.construct] at held

/-- The bitmaps of a node fit, and its mempool is keyed, in every run. -/
theorem Setup.node_fit {setup : Setup} {s : Storage} (reached : setup.faultyNode.Reachable s) :
    BitmapsFit s.db ∧ s.Keyed setup.toPackages := by
  constructor
  · exact setup.node_persistent (fit_persistent setup.toPackages) (fun _ _ held => held)
      setup.fresh_sound.fit reached
  · refine reached.invariant (I := Storage.Keyed setup.toPackages) ?_ ?_
    · rintro _ rfl
      exact setup.fresh_keyed
    · rintro s a _ _ keyed rfl
      exact exec_keyed setup.toPackages a keyed

/-! ### One turn of the loop -/

/-- Accepting a transaction touches nothing but the ledger and the indexes. -/
theorem Apart.settle_accepts {I : Storage → Prop} (apart : Apart I) {s : Storage}
    {txn : Transaction} (accepts : pkg.Accepts s.toLedger txn) (held : I s) :
    I (final (pkg.settleTxn txn s)) := by
  have verified : I (final (pkg.verifyTxn txn true s)) := by
    rw [Packages.verifyTxn, get_bind, pkg.decideTxn_accepts.mpr ⟨accepts, rfl⟩]
    cases s.checkPendReplacement txn with
    | unmatched => exact held
    | refused => exact held
    | replaces tx =>
        exact ((apart.delFromPending pkg tx).bind fun _ =>
          (apart.note _).bind fun _ => sustains_pure I true) s held
  rw [Packages.settleTxn, get_bind, bind_apply]
  cases run : pkg.verifyTxn txn true s with
  | error e t =>
      rw [run] at verified
      exact verified
  | ok passed t =>
      rw [run] at verified
      cases passed with
      | false => exact verified
      | true =>
          refine ((apart.note _).bind fun _ => ?_) t verified
          by_cases locked : txn.timelock ≠ 0
          · rw [if_pos locked]
            exact apart.writeTxnToPend pkg txn _
          · rw [if_neg locked]
            exact apart.writeTxnToDb pkg txn _

/-- A transaction that is rejected leaves the mempool, and the ledger stays. -/
theorem settleTxn_rejects {s : Storage} {txn : Transaction}
    (rejects : pkg.Rejects s.toLedger txn true) :
    ∃ t, pkg.settleTxn txn s = .ok () t ∧ t.toLedger = s.toLedger ∧
      t.mempool = s.mempool.erase (pkg.txid txn) ∧
      t.mempoolList = s.mempoolList.erase (pkg.txid txn) := by
  rw [Packages.settleTxn, get_bind, bind_apply, Packages.verifyTxn, get_bind]
  rcases rejects with stored | invalid
  · rw [stored]
    exact ⟨_, rfl, rfl, rfl, rfl⟩
  · rw [invalid]
    exact ⟨_, rfl, rfl, rfl, rfl⟩

/-- The turn took `txid` out of the mempool, and out of its list this often. -/
structure Storage.Left (s t : Storage) (txid : Bytes) (times : Nat) : Prop where
  mempool : t.mempool = s.mempool.erase txid
  list : ∀ k, t.mempoolList.count k = s.mempoolList.count k - if k = txid then times else 0

theorem Storage.Left.other {s t : Storage} {txid k : Bytes} {times : Nat}
    (left : s.Left t txid times) (other : k ≠ txid) :
    t.mempool[k]? = s.mempool[k]? ∧ t.mempoolList.count k = s.mempoolList.count k := by
  refine ⟨?_, ?_⟩
  · rw [left.mempool, Std.ExtTreeMap.getElem?_erase]
    simp [Ne.symm other]
  · simp [left.list, other]

/-- **What a turn that returns did**: it accepted the transaction, or left the
ledger alone and took the id out of the mempool list twice. -/
theorem processTxn_left {s t : Storage} {txid : Bytes} {txn : Transaction}
    (held : s.mempool[txid]? = some txn) (keyed : pkg.txid txn = txid)
    (run : pkg.processTxn txid s = .ok () t) :
    (pkg.Accepts s.toLedger txn ∧ (∀ inp ∈ txn.inputs, Stored s.db inp.ref) ∧
        t.toLedger = s.toLedger.accept pkg txn ∧ s.Left t txid 1) ∨
      (¬ pkg.Accepts s.toLedger txn ∧ t.toLedger = s.toLedger ∧ s.Left t txid 2) := by
  rw [Packages.processTxn, get_bind, held] at run
  obtain ⟨_, middle, settles, removes⟩ := bind_ok.mp run
  cases removes
  obtain ⟨ledger, settles', rfl⟩ := (settleTxn_lockstep pkg txn).ok_left rfl settles
  by_cases accepts : pkg.Accepts s.toLedger txn
  · left
    have same := (show Apart fun t : Storage => t.mempool = s.mempool ∧
        t.mempoolList = s.mempoolList from ⟨fun _ _ h => h, fun _ _ h => h, fun _ _ h => h⟩)
      |>.settle_accepts pkg accepts ⟨rfl, rfl⟩
    rw [settles] at same
    obtain ⟨sameMempool, sameList⟩ := same
    rw [final_ok] at sameMempool sameList
    obtain ⟨stored, ledgerEq⟩ := (Ledger.settle_accepts_ok pkg accepts).mp settles'
    refine ⟨accepts, stored, ledgerEq, by rw [← sameMempool], fun k => ?_⟩
    change (middle.mempoolList.erase txid).count k = _
    rw [sameList, List.count_erase]
    by_cases own : k = txid
    · simp [own]
    · simp [own, Ne.symm own]
  · right
    rcases Ledger.settle_refused pkg accepts with ⟨rejects, -⟩ | ⟨e, -, raised⟩
    · obtain ⟨u, settles'', sameLedger, sameMempool, sameList⟩ := settleTxn_rejects pkg rejects
      rw [settles''] at settles
      cases settles
      refine ⟨accepts, sameLedger, ?_, fun k => ?_⟩
      · change middle.mempool.erase txid = _
        rw [sameMempool, keyed]
        ext k
        simp [Std.ExtTreeMap.getElem?_erase]
      · change (middle.mempoolList.erase txid).count k = _
        rw [sameList, keyed, List.count_erase, List.count_erase]
        by_cases own : k = txid
        · simp [own, Nat.sub_sub]
        · simp [own, Ne.symm own]
    · rw [raised] at settles'
      cases settles'

/-- A turn that returns found its transaction. -/
theorem processTxn_held {s t : Storage} {txid : Bytes} (run : pkg.processTxn txid s = .ok () t) :
    ∃ txn, s.mempool[txid]? = some txn := by
  rw [Packages.processTxn, get_bind] at run
  cases held : s.mempool[txid]? with
  | none =>
      rw [held] at run
      cases run
  | some txn => exact ⟨txn, rfl⟩

/-- A turn leaves the other ids in the mempool and in its list. -/
theorem processTxn_other {s t : Storage} {txid k : Bytes}
    (run : pkg.processTxn txid s = .ok () t) (keyed : s.Keyed pkg) (other : k ≠ txid) :
    t.mempool[k]? = s.mempool[k]? ∧ t.mempoolList.count k = s.mempoolList.count k := by
  obtain ⟨txn, held⟩ := processTxn_held pkg run
  rcases processTxn_left pkg held (keyed _ _ held) run with ⟨-, -, -, left⟩ | ⟨-, -, left⟩
  · exact left.other other
  · exact left.other other

/-- Turns leave the other ids in the mempool and in its list. -/
theorem forM_processTxn_other {block : List Bytes} {s u : Storage}
    (run : block.forM pkg.processTxn s = .ok () u) (keyed : s.Keyed pkg) {k : Bytes}
    (other : k ∉ block) :
    u.mempool[k]? = s.mempool[k]? ∧ u.mempoolList.count k = s.mempoolList.count k := by
  induction block generalizing s with
  | nil =>
      cases run
      exact ⟨rfl, rfl⟩
  | cons txid rest ih =>
      obtain ⟨notFirst, notRest⟩ := not_or.mp (List.mem_cons.not.mp other)
      rw [forM_cons] at run
      obtain ⟨_, t, first, later⟩ := bind_ok.mp run
      have keyed' := (keyed_steady pkg).processTxn pkg txid s keyed
      rw [first] at keyed'
      have same := processTxn_other pkg first keyed notFirst
      obtain ⟨sameMempool, sameList⟩ := ih later keyed' notRest
      exact ⟨sameMempool.trans same.1, sameList.trans same.2⟩

/-- Turns that return find their transactions in the mempool. -/
theorem forM_processTxn_found {block : List Bytes} {s u : Storage} (keyed : s.Keyed pkg)
    (run : block.forM pkg.processTxn s = .ok () u) : ∀ txid ∈ block, txid ∈ s.mempool := by
  intro txid mem
  obtain ⟨before, after, split, notBefore⟩ := List.eq_append_cons_of_mem mem
  rw [split, forM_append] at run
  obtain ⟨_, v, turns, later⟩ := bind_ok.mp run
  rw [forM_cons] at later
  obtain ⟨_, _, turn, -⟩ := bind_ok.mp later
  obtain ⟨txn, held⟩ := processTxn_held pkg turn
  rw [(forM_processTxn_other pkg turns keyed notBefore).1] at held
  rw [Std.ExtTreeMap.mem_iff_isSome_getElem?, held]
  rfl

/-- Turns that return name no transaction twice. -/
theorem forM_processTxn_distinct {block : List Bytes} {s t : Storage} (keyed : s.Keyed pkg)
    (run : block.forM pkg.processTxn s = .ok () t) : block.Nodup := by
  induction block generalizing s with
  | nil => exact List.nodup_nil
  | cons txid block ih =>
      rw [forM_cons] at run
      obtain ⟨_, middle, first, rest⟩ := bind_ok.mp run
      have keyed' := (keyed_steady pkg).processTxn pkg txid s keyed
      rw [first] at keyed'
      refine List.nodup_cons.mpr ⟨fun again => ?_, ih keyed' rest⟩
      -- the first turn took the transaction out, so the second does not find it
      obtain ⟨txn, held⟩ := processTxn_held pkg first
      have gone : middle.mempool[txid]? = none := by
        rcases processTxn_left pkg held (keyed _ _ held) first with
          ⟨-, -, -, left⟩ | ⟨-, -, left⟩ <;> simp [left.mempool]
      obtain ⟨before, after, split, notBefore⟩ := List.eq_append_cons_of_mem again
      rw [split, forM_append] at rest
      obtain ⟨_, v, turns, later⟩ := bind_ok.mp rest
      rw [forM_cons] at later
      obtain ⟨_, _, second, -⟩ := bind_ok.mp later
      obtain ⟨txn', held'⟩ := processTxn_held pkg second
      rw [(forM_processTxn_other pkg turns keyed' notBefore).1, gone] at held'
      cases held'

/-- `verify_txn` reads `check` unbound: the transaction is new, its outputs sum to
nothing, and it has no input but dummies. -/
structure Packages.Unbound (ledger : Ledger) (txn : Transaction) : Prop where
  fresh : pkg.txid txn ∉ ledger.db
  unreal : pkg.realInputs txn = []
  empty : txn.spendsCoins = 0

/-- Without dummies, all that an accepted transaction refers to is stored. -/
theorem Packages.Accepts.refsStored {pkg : Packages} {ledger : Ledger} {txn : Transaction}
    (accepts : pkg.Accepts ledger txn) (fit : BitmapsFit ledger.db)
    (real : ∀ inp ∈ txn.inputs, inp.txid ≠ pkg.noHash) :
    ∀ inp ∈ txn.inputs, Stored ledger.db inp.ref := by
  intro inp mem
  obtain ⟨entry, o, recorded, out, -⟩ :=
    (accepts.inputs inp (pkg.mem_realInputs.mpr ⟨mem, real inp mem⟩)).authorised
  refine stored_of_output fit (o := o) ?_
  rw [outputAt_eq_record, Input.ref, recorded]
  exact out

/-- **When a turn returns**: an accepted transaction has no dummy input, and one
that is not accepted does not leave `check` unbound. -/
theorem processTxn_returns {s : Storage} {txid : Bytes} {txn : Transaction}
    (held : s.mempool[txid]? = some txn) (fit : BitmapsFit s.db) (noDummy : pkg.noHash ∉ s.db) :
    (∃ t, pkg.processTxn txid s = .ok () t) ↔
      (pkg.Accepts s.toLedger txn → ∀ inp ∈ txn.inputs, inp.txid ≠ pkg.noHash) ∧
        (¬ pkg.Accepts s.toLedger txn → ¬ pkg.Unbound s.toLedger txn) := by
  have settles : (∃ t, pkg.processTxn txid s = .ok () t) ↔
      ∃ ledger, Ledger.settle pkg txn s.toLedger = .ok () ledger := by
    rw [Packages.processTxn, get_bind, held]
    constructor
    · rintro ⟨t, run⟩
      obtain ⟨_, middle, first, -⟩ := bind_ok.mp run
      obtain ⟨ledger, first', -⟩ := (settleTxn_lockstep pkg txn).ok_left rfl first
      exact ⟨ledger, first'⟩
    · rintro ⟨ledger, first⟩
      obtain ⟨middle, first', -⟩ := (settleTxn_lockstep pkg txn).ok_right rfl first
      exact ⟨_, bind_ok.mpr ⟨(), middle, first', rfl⟩⟩
  rw [settles]
  by_cases accepts : pkg.Accepts s.toLedger txn
  · simp only [Ledger.settle_accepts_ok pkg accepts, accepts, true_implies, not_true,
      false_implies, and_true]
    constructor
    · rintro ⟨_, stored, -⟩ inp mem dummy
      obtain ⟨txnw, held', -⟩ := stored inp mem
      refine noDummy (Std.ExtTreeMap.mem_iff_isSome_getElem?.mpr ?_)
      rw [← dummy, show s.db[inp.txid]? = some txnw from held']
      rfl
    · exact fun real => ⟨_, accepts.refsStored fit real, rfl⟩
  · simp only [accepts, false_implies, not_false_eq_true, true_implies, true_and]
    have unbound : (∃ e, pkg.decideTxn s.toLedger txn true = .error e) ↔
        pkg.Unbound s.toLedger txn := by
      constructor
      · rintro ⟨e, raised⟩
        obtain ⟨-, fresh, unreal, empty, -⟩ := (pkg.decideTxn_error fun _ => fit).mp raised
        exact ⟨fresh, unreal, empty⟩
      · rintro ⟨fresh, unreal, empty⟩
        exact ⟨_, (pkg.decideTxn_error fun _ => fit).mpr ⟨rfl, fresh, unreal, empty, rfl⟩⟩
    rw [← unbound]
    rcases Ledger.settle_refused pkg accepts with ⟨rejects, unchanged⟩ | ⟨e, raised, unchanged⟩
    · simp only [unchanged, EStateM.Result.ok.injEq, true_and, exists_eq', true_iff]
      rintro ⟨e, raised⟩
      rcases rejects with decided | decided <;> simp [decided] at raised
    · simp [unchanged, raised]

/-! ### Whole blocks -/

/-- The transaction is accepted as a whole: its real inputs are spent, and it is in
one of the two databases. -/
def Packages.Whole (ledger : Ledger) (txn : Transaction) : Prop :=
  (∀ inp ∈ pkg.realInputs txn, bit ledger.db inp.ref = some false) ∧
    (pkg.txid txn ∈ ledger.db ∨ pkg.txid txn ∈ ledger.pend)

/-- The turns of `process_block` over a list of ids all return, and each accepts its
transaction as a whole or leaves both databases alone. -/
inductive Packages.Turns : List Bytes → Storage → Storage → Prop where
  | done (s : Storage) : Turns [] s s
  | turn {s t u : Storage} {txid : Bytes} {rest : List Bytes} {txn : Transaction} :
      s.mempool[txid]? = some txn → pkg.processTxn txid s = .ok () t →
      pkg.Whole t.toLedger txn ∨ t.db = s.db ∧ t.pend = s.pend →
      Turns rest t u → Turns (txid :: rest) s u

/-- Every transaction of a block can be settled when its turn comes, and its id is
not more often in the mempool list than the turn takes it out. `o` is the node
before the block. -/
def Packages.Digests (o : Storage) : List Bytes → Ledger → Prop
  | [], _ => True
  | txid :: rest, ledger => ∀ txn, o.mempool[txid]? = some txn →
      (pkg.Accepts ledger txn → (∀ inp ∈ txn.inputs, inp.txid ≠ pkg.noHash) ∧
        o.mempoolList.count txid ≤ 1 ∧ Digests o rest (ledger.accept pkg txn)) ∧
      (¬ pkg.Accepts ledger txn → ¬ pkg.Unbound ledger txn ∧
        o.mempoolList.count txid ≤ 2 ∧ Digests o rest ledger)

/-- A block whose transactions are never accepted can be finished, unless one of them
leaves `check` unbound. -/
theorem digests_of_refused {o : Storage} {block : List Bytes}
    (refused : ∀ txid ∈ block, ∀ txn, o.mempool[txid]? = some txn → ∀ ledger,
      ¬ pkg.Accepts ledger txn ∧ ¬ pkg.Unbound ledger txn)
    (listed : ∀ txid ∈ block, o.mempoolList.count txid ≤ 2) (ledger : Ledger) :
    pkg.Digests o block ledger := by
  induction block with
  | nil => trivial
  | cons txid rest ih =>
      obtain ⟨first, refused⟩ := List.forall_mem_cons.mp refused
      obtain ⟨count, listed⟩ := List.forall_mem_cons.mp listed
      intro txn held
      obtain ⟨never, bound⟩ := first txn held ledger
      exact ⟨fun accepts => absurd accepts never, fun _ => ⟨bound, count, ih refused listed⟩⟩

/-- An accepted transaction is accepted as a whole. -/
theorem Packages.Accepts.whole {pkg : Packages} {ledger : Ledger} {txn : Transaction}
    (accepts : pkg.Accepts ledger txn) (stored : ∀ inp ∈ txn.inputs, Stored ledger.db inp.ref) :
    pkg.Whole (ledger.accept pkg txn) txn := by
  refine ⟨fun inp real => ?_, ?_⟩
  · exact Ledger.refs_accept accepts.fresh stored
      (List.mem_map_of_mem (pkg.mem_realInputs.mp real).1)
  · by_cases locked : txn.timelock ≠ 0
    · right
      rw [Ledger.accept, if_pos locked, Std.ExtTreeMap.mem_iff_isSome_getElem?,
        Ledger.getElem?_reserved_pend, if_pos rfl]
      rfl
    · left
      exact Ledger.mem_accept.mpr (.inr ⟨not_not.mp locked, rfl⟩)

/-- Turns are the loop of `process_block`. -/
theorem Packages.Turns.run {pkg : Packages} {block : List Bytes} {s u : Storage}
    (turns : pkg.Turns block s u) : block.forM pkg.processTxn s = .ok () u := by
  induction turns with
  | done s => rfl
  | turn _ first _ _ ih =>
      rw [forM_cons, bind_apply, first]
      exact ih

/-- Turns leave the other ids where they are. -/
theorem Packages.Turns.other {pkg : Packages} {block : List Bytes} {s u : Storage}
    (turns : pkg.Turns block s u) (keyed : s.Keyed pkg) {k : Bytes} (other : k ∉ block) :
    u.mempool[k]? = s.mempool[k]? ∧ u.mempoolList.count k = s.mempoolList.count k :=
  forM_processTxn_other pkg turns.run keyed other

/-- The turns end with no id of the block left in the mempool or its list. -/
def Packages.Clears (block : List Bytes) (s u : Storage) : Prop :=
  pkg.Turns block s u ∧ ∀ txid ∈ block, txid ∉ u.mempool ∧ txid ∉ u.mempoolList

/-- After the first turn, the rest of the block decides. -/
theorem clears_cons {s t : Storage} {txid : Bytes} {rest : List Bytes} {txn : Transaction}
    {times : Nat} (keyed : s.Keyed pkg) (notAgain : txid ∉ rest)
    (held : s.mempool[txid]? = some txn) (run : pkg.processTxn txid s = .ok () t)
    (verdict : pkg.Whole t.toLedger txn ∨ t.db = s.db ∧ t.pend = s.pend)
    (left : s.Left t txid times) :
    (∃ u, pkg.Clears (txid :: rest) s u) ↔
      s.mempoolList.count txid ≤ times ∧ ∃ u, pkg.Clears rest t u := by
  have keyed' := (keyed_steady pkg).processTxn pkg txid s keyed
  rw [run] at keyed'
  have gone : ∀ u, pkg.Turns rest t u →
      (txid ∉ u.mempool ∧ (txid ∉ u.mempoolList ↔ s.mempoolList.count txid ≤ times)) := by
    intro u turns
    obtain ⟨sameMempool, sameList⟩ := turns.other keyed' notAgain
    refine ⟨?_, ?_⟩
    · rw [Std.ExtTreeMap.mem_iff_isSome_getElem?, sameMempool, left.mempool]
      simp
    · rw [← List.count_eq_zero, sameList, left.list, if_pos rfl, Nat.sub_eq_zero_iff_le]
  constructor
  · rintro ⟨u, turns, cleared⟩
    cases turns with
    | turn held' run' _ turns =>
        rw [run] at run'
        cases run'
        obtain ⟨first, others⟩ := List.forall_mem_cons.mp cleared
        exact ⟨(gone u turns).2.mp first.2, u, turns, others⟩
  · rintro ⟨count, u, turns, cleared⟩
    exact ⟨u, .turn held run verdict turns, List.forall_mem_cons.mpr
      ⟨⟨(gone u turns).1, (gone u turns).2.mpr count⟩, cleared⟩⟩

/-- **A block is finished exactly when `Digests` holds of it.** -/
theorem clears_iff {o s : Storage} {block : List Bytes} (distinct : block.Nodup)
    (keyed : s.Keyed pkg) (fit : BitmapsFit s.db) (noDummy : pkg.noHash ∉ s.db)
    (notNamed : pkg.noHash ∉ block) (held : ∀ txid ∈ block, txid ∈ s.mempool)
    (same : ∀ txid ∈ block, s.mempool[txid]? = o.mempool[txid]? ∧
      s.mempoolList.count txid = o.mempoolList.count txid) :
    (∃ u, pkg.Clears block s u) ↔ pkg.Digests o block s.toLedger := by
  induction block generalizing s with
  | nil => exact ⟨fun _ => trivial, fun _ => ⟨s, .done s, by simp⟩⟩
  | cons txid rest ih =>
      obtain ⟨notAgain, distinct⟩ := List.nodup_cons.mp distinct
      obtain ⟨dummyFirst, dummyRest⟩ := not_or.mp (List.mem_cons.not.mp notNamed)
      obtain ⟨here, heldRest⟩ := List.forall_mem_cons.mp held
      obtain ⟨⟨sameMempool, sameCount⟩, sameRest⟩ := List.forall_mem_cons.mp same
      obtain ⟨txn, held'⟩ := Option.isSome_iff_exists.mp
        (Std.ExtTreeMap.mem_iff_isSome_getElem?.mp here)
      rw [Packages.Digests, ← sameMempool, held']
      simp only [Option.some.injEq, forall_eq']
      have own : pkg.txid txn = txid := keyed txid txn held'
      have returns := processTxn_returns pkg held' fit noDummy
      -- what the induction needs of the state after the turn
      have next : ∀ {t : Storage} {times : Nat}, pkg.processTxn txid s = .ok () t →
          s.Left t txid times → BitmapsFit t.db → pkg.noHash ∉ t.db →
          ((∃ u, pkg.Clears rest t u) ↔ pkg.Digests o rest t.toLedger) := by
        intro t times run left fit' noDummy'
        have keyed' := (keyed_steady pkg).processTxn pkg txid s keyed
        rw [run] at keyed'
        have other : ∀ k ∈ rest, k ≠ txid := fun k mem same => notAgain (same ▸ mem)
        refine ih distinct keyed' fit' noDummy' dummyRest (fun k mem => ?_) fun k mem => ?_
        · rw [Std.ExtTreeMap.mem_iff_isSome_getElem?, (left.other (other k mem)).1]
          exact Std.ExtTreeMap.mem_iff_isSome_getElem?.mp (heldRest k mem)
        · obtain ⟨first, second⟩ := left.other (other k mem)
          rw [first, second]
          exact sameRest k mem
      by_cases returned : ∃ t, pkg.processTxn txid s = .ok () t
      · obtain ⟨t, run⟩ := returned
        have passes := returns.mp ⟨t, run⟩
        rcases processTxn_left pkg held' own run with
          ⟨accepts, stored, ledger, left⟩ | ⟨refused, ledger, left⟩
        · have fit' : BitmapsFit t.db := by
            have sustained := (fit_persistent pkg).settle txn s.toLedger fit
            rw [(Ledger.settle_accepts_ok pkg accepts).mpr ⟨stored, rfl⟩, final_ok] at sustained
            rw [ledger]
            exact sustained
          have noDummy' : pkg.noHash ∉ t.db := by
            rw [ledger, Ledger.mem_accept, not_or, own]
            exact ⟨noDummy, fun isNew => dummyFirst isNew.2⟩
          rw [clears_cons pkg keyed notAgain held' run (.inl (ledger ▸ accepts.whole stored)) left,
            next run left fit' noDummy', ledger, sameCount]
          have real := passes.1 accepts
          simp only [accepts, true_implies, not_true, false_implies, and_true]
          exact ⟨fun ⟨count, digests⟩ => ⟨real, count, digests⟩, And.right⟩
        · rw [clears_cons pkg keyed notAgain held' run
              (.inr ⟨congrArg Ledger.db ledger, congrArg Ledger.pend ledger⟩) left,
            next run left (congrArg Ledger.db ledger ▸ fit) (congrArg Ledger.db ledger ▸ noDummy),
            ledger, sameCount]
          have bound := passes.2 refused
          simp only [refused, false_implies, not_false_eq_true, true_implies, true_and]
          exact ⟨fun ⟨count, digests⟩ => ⟨bound, count, digests⟩, And.right⟩
      · constructor
        · rintro ⟨u, turns, -⟩
          cases turns with
          | turn _ run => exact absurd ⟨_, run⟩ returned
        · rintro ⟨accepted, refused⟩
          refine absurd (returns.mpr ⟨fun accepts => ?_, fun not => ?_⟩) returned
          · exact (accepted accepts).1
          · exact (refused not).1

/-- A node that has entered `process_block`. -/
def Storage.enter (s : Storage) (block : List Bytes) : Storage :=
  { s with
    processingBlock := true
    blockLog := s.blockLog ++ [.entered block] }

/-- Once its turns have returned, `process_block` deletes the head of the queue. -/
theorem processBlock_of_loop {s u : Storage} {block : List Bytes} {head : Block}
    {rest : List Block} (queue : s.blockQueue = head :: rest)
    (loop : block.forM pkg.processTxn (s.enter block) = .ok () u) :
    pkg.processBlock block s = .ok () { u with
      blockQueue := rest
      currentBlock := []
      processing := false
      processingBlock := false
      blockLog := u.blockLog ++ [.deleted block head] } := by
  have control : (final (block.forM pkg.processTxn (s.enter block))).control =
      (s.enter block).control :=
    Sustains.forM (fun txid _ => (control_steady _).processTxn pkg txid) _ rfl
  rw [loop] at control
  have sameQueue : u.blockQueue = s.blockQueue := congrArg Control.blockQueue control
  rw [Storage.enter] at loop
  rw [Packages.processBlock, modify_bind, bind_apply, loop]
  simp only [finishBlock, get_bind, sameQueue, queue, modify_apply, List.tail_cons]

/-- `process_block` finishes the block at the head of the queue: it returns, the
block is gone, the flags are down, the mempool is rid of its ids, and every
transaction was accepted as a whole or changed nothing. -/
def Packages.Finishes (s : Storage) (head : Block) (rest : List Block) : Prop :=
  ∃ t u, pkg.processBlock head.txns s = .ok () t ∧
    t.blockQueue = rest ∧ t.processing = false ∧ t.processingBlock = false ∧
    (∀ txid ∈ head.txns, txid ∉ t.mempool ∧ txid ∉ t.mempoolList) ∧
    t.toLedger = u.toLedger ∧ pkg.Turns head.txns (s.enter head.txns) u

/-- `process_block` returns when its turns do, since there is a block to delete. -/
theorem finishes_iff {s : Storage} {head : Block} {rest : List Block}
    (queue : s.blockQueue = head :: rest) :
    pkg.Finishes s head rest ↔ ∃ u, pkg.Clears head.txns (s.enter head.txns) u := by
  have process : ∀ u, pkg.Turns head.txns (s.enter head.txns) u → _ :=
    fun u turns => processBlock_of_loop pkg queue turns.run
  constructor
  · rintro ⟨t, u, run, -, -, -, cleared, -, turns⟩
    rw [process u turns] at run
    cases run
    exact ⟨u, turns, cleared⟩
  · rintro ⟨u, turns, cleared⟩
    exact ⟨_, u, process u turns, rfl, rfl, rfl, cleared, rfl, turns⟩

/-- **When a block can be finished.** At every ledger that a run of a node reaches,
and with any mempool, `process_block` finishes a block whose ids are all in the
mempool exactly when `Digests` holds of it. -/
theorem Setup.node_finishes {setup : Setup} {s u : Storage}
    (reached : setup.faultyNode.Reachable s) (sameDb : u.db = s.db)
    (keyed : u.Keyed setup.toPackages) {head : Block} {rest : List Block}
    (queue : u.blockQueue = head :: rest) (distinct : head.txns.Nodup)
    (held : ∀ txid ∈ head.txns, txid ∈ u.mempool) (noDummy : setup.noHash ∉ u.db)
    (notNamed : setup.noHash ∉ head.txns) :
    setup.Finishes u head rest ↔ setup.Digests u head.txns u.toLedger := by
  have fit : BitmapsFit u.db := sameDb ▸ (setup.node_fit reached).1
  rw [finishes_iff setup.toPackages queue]
  exact clears_iff setup.toPackages distinct keyed fit noDummy notNamed held
    fun txid _ => ⟨rfl, rfl⟩

/-- A node with one transaction to process. -/
def withBlock (txn : Transaction) : Storage :=
  Ideal.small.after [.puttxn txn, .deliver ⟨0, [Ideal.packages.txid txn]⟩]

theorem node_finishes_payment :
    Ideal.small.Finishes ((withBlock firstPayment).take ⟨0, [Ideal.packages.txid firstPayment]⟩)
      ⟨0, [Ideal.packages.txid firstPayment]⟩ [] := by
  have reached : Ideal.small.faultyNode.Reachable (withBlock firstPayment) :=
    Setup.faulty_of_node (Ideal.small.reachable_after _)
  refine (Setup.node_finishes (u := (withBlock firstPayment).take _) reached rfl ?_ rfl (by decide +kernel) (by decide +kernel)
    (by decide +kernel) (by decide +kernel)).mpr ?_
  · exact (Setup.node_fit reached).2
  · rintro txn held
    obtain rfl : firstPayment = txn := Option.some.inj (held ▸ by decide +kernel)
    refine ⟨fun _ => ⟨by decide +kernel, by decide +kernel, trivial⟩, fun _ => ⟨?_,
      by decide +kernel, trivial⟩⟩
    exact fun unbound => absurd unbound.unreal (by decide +kernel)

/-- **A block that cannot be finished.** The transaction without inputs and outputs
is one that a client may submit. -/
theorem block_unfinished :
    ¬ ∀ (s : Storage) (head : Block) (rest : List Block), Ideal.small.node.Reachable s →
      s.blockQueue = head :: rest → head.txns.Nodup →
      (∀ txid ∈ head.txns, txid ∈ s.mempool) → Ideal.small.noHash ∉ s.db →
      Ideal.small.Finishes (s.take head) head rest := by
  intro claim
  obtain ⟨t, -, run, -, -, outside, -⟩ := claim (withBlock ⟨[], [], 0, 0⟩)
    ⟨0, [Ideal.packages.txid ⟨[], [], 0, 0⟩]⟩ [] (Ideal.small.reachable_after _)
    rfl (by decide +kernel) (by decide +kernel) (by decide +kernel)
  have inside : (final (Ideal.small.processBlock [Ideal.packages.txid ⟨[], [], 0, 0⟩]
      ((withBlock ⟨[], [], 0, 0⟩).take
        ⟨0, [Ideal.packages.txid ⟨[], [], 0, 0⟩]⟩))).processingBlock = true := by decide +kernel
  rw [run, final_ok, outside] at inside
  cases inside

end Belcoin
