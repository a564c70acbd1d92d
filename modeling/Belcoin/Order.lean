import Belcoin.Life
import Belcoin.Ledger.Authority
import Belcoin.Ledger.Separate

/-!
The order in which transactions are settled.

* `life_block_order` — independent transactions of a block may be processed in any order.
* `life_sweep_order` — `update_pend` may visit the pending transactions in any order, and
  a second call does nothing.
-/

namespace Belcoin

open Stateful Independent

variable (pkg : Packages)

/-! ### Blocks -/

/-- What a turn of `process_block` does to the accounts. -/
def Packages.settleEdits (ledger : Ledger) (txn : Transaction) : List Edit :=
  match pkg.decideTxn ledger txn true with
  | .ok (.valid _) => pkg.acceptEdits ledger txn
  | _ => []

variable {pkg}

theorem settleEdits_accepts {ledger : Ledger} {txn : Transaction}
    (accepts : pkg.Accepts ledger txn) :
    pkg.settleEdits ledger txn = pkg.acceptEdits ledger txn := by
  rw [Packages.settleEdits, pkg.decideTxn_accepts.mpr ⟨accepts, rfl⟩]

theorem settleEdits_refused {ledger : Ledger} {txn : Transaction}
    (refused : ¬ pkg.Accepts ledger txn) : pkg.settleEdits ledger txn = [] := by
  unfold Packages.settleEdits
  cases decided : pkg.decideTxn ledger txn true with
  | error e => rfl
  | ok decision =>
      cases decision with
      | stored => rfl
      | invalid => rfl
      | valid check => exact absurd (pkg.decideTxn_accepts.mp decided).1 refused

/-- What is seen alike is settled alike. -/
theorem settleEdits_congr {ledger ledger' : Ledger} {txn : Transaction}
    (alike : pkg.SeenAlike ledger ledger' txn true) :
    pkg.settleEdits ledger' txn = pkg.settleEdits ledger txn := by
  by_cases accepts : pkg.Accepts ledger txn
  · have accepts' : pkg.Accepts ledger' txn := ⟨alike.verifies accepts.toVerifies, accepts.real⟩
    rw [settleEdits_accepts accepts, settleEdits_accepts accepts', Packages.acceptEdits,
      Packages.acceptEdits, alike.time, alike.pending rfl, spends_congr alike.records]
  · have refused : ¬ pkg.Accepts ledger' txn := fun accepts' =>
      accepts ⟨alike.symm.verifies accepts'.toVerifies, accepts'.real⟩
    rw [settleEdits_refused accepts, settleEdits_refused refused]

/-- What is taken out of `pend` for a transaction has its inputs. -/
theorem mem_settleEdits {ledger : Ledger} {txn : Transaction} {e : Edit}
    (mem : e ∈ pkg.settleEdits ledger txn) :
    e.About txn ∧ ∀ tx, e = .release tx → SameInputs tx txn := by
  by_cases accepts : pkg.Accepts ledger txn
  · rw [settleEdits_accepts accepts, Packages.acceptEdits] at mem
    have written : ∀ e ∈ (if txn.timelock ≠ 0 then
          .hold txn (toTimestamp ledger.currentTime) :: pkg.spends ledger.db txn.inputs
        else pkg.spends ledger.db txn.inputs ++ [.store txn (toTimestamp ledger.currentTime)]),
        e.About txn ∧ ∀ tx, e ≠ .release tx := by
      have spends : ∀ e ∈ pkg.spends ledger.db txn.inputs, e.About txn ∧ ∀ tx, e ≠ .release tx := by
        intro e mem
        refine ⟨about_spends _ _ e mem, ?_⟩
        rintro tx rfl
        obtain ⟨inp, -, spend⟩ := List.mem_map.mp mem
        cases spend
      intro e mem
      split at mem
      · rcases List.mem_cons.mp mem with rfl | mem
        · exact ⟨rfl, by simp⟩
        · exact spends e mem
      · rcases List.mem_append.mp mem with mem | mem
        · exact spends e mem
        · cases List.mem_singleton.mp mem
          exact ⟨rfl, by simp⟩
    rcases List.mem_append.mp mem with mem | mem
    · split at mem
      · rename_i tx checked
        rcases List.mem_cons.mp mem with rfl | mem
        · obtain ⟨-, -, -, -, same, -⟩ := Ledger.checkPend_replaces checked
          refine ⟨trivial, ?_⟩
          rintro _ ⟨⟩
          exact same
        · cases List.mem_singleton.mp mem
          exact ⟨trivial, by simp⟩
      · cases mem
    · rcases List.mem_cons.mp mem with rfl | mem
      · exact ⟨trivial, by simp⟩
      · obtain ⟨about, never⟩ := written e mem
        exact ⟨about, fun tx release => absurd release (never tx)⟩
  · rw [settleEdits_refused accepts] at mem
    cases mem

/-- **One turn of the loop**: the transaction is settled by its edits. -/
theorem processTxn_edits {s : Storage} {txn : Transaction}
    (held : s.mempool[pkg.txid txn]? = some txn) (fit : BitmapsFit s.db) (solid : pkg.Solid txn) :
    ∃ t, pkg.processTxn (pkg.txid txn) s = .ok () t ∧
      t.accounts = s.accounts.edits pkg (pkg.settleEdits s.toLedger txn) := by
  rw [Packages.processTxn, get_bind, held]
  by_cases accepts : pkg.Accepts s.toLedger txn
  · obtain ⟨m, settled, edited⟩ := settleTxn_edits accepts (accepts.refsStored fit solid.real)
    refine ⟨final (removeFromMempool (pkg.txid txn) m), bind_ok.mpr ⟨(), m, settled, rfl⟩, ?_⟩
    rw [settleEdits_accepts accepts]
    exact edited
  · have real : pkg.realInputs txn ≠ [] := by
      obtain ⟨inp, mem⟩ := List.exists_mem_of_ne_nil _ solid.some
      exact List.ne_nil_of_mem (pkg.mem_realInputs.mpr ⟨mem, solid.real inp mem⟩)
    obtain ⟨rejects, -⟩ | ⟨e, raised, -⟩ := Ledger.settle_refused pkg accepts
    · rw [settleEdits_refused accepts]
      simp only [Packages.settleTxn, Packages.verifyTxn, bind_apply, get_apply]
      rcases rejects with stored | invalid
      · rw [stored]
        exact ⟨_, rfl, rfl⟩
      · rw [invalid]
        exact ⟨_, rfl, rfl⟩
    · exact absurd ((pkg.decideTxn_error fun _ => fit).mp raised).2.2.1 real

/-- The node is ready to process these transactions; `start` is the ledger before the
block. -/
structure Storage.Holding (pkg : Packages) (start : Ledger) (s : Storage)
    (txns : List Transaction) : Prop where
  fit : BitmapsFit s.db
  lists : s.Lists pkg
  grown : start.trace <+: s.trace
  held : ∀ txn ∈ txns, s.mempool[pkg.txid txn]? = some txn
  solid : ∀ txn ∈ txns, pkg.Solid txn
  independent : txns.Pairwise pkg.Independent

theorem Packages.Solid.refs {txn : Transaction} (solid : pkg.Solid txn) : txn.refs ≠ [] :=
  fun none => solid.some (List.map_eq_nil_iff.mp none)

/-- Independent transactions are settled turn by turn. -/
theorem holding_patched (free : pkg.CollisionFree) (start : Ledger) :
    Patched (fun txn => pkg.processTxn (pkg.txid txn)) Storage.accounts
      (fun s txn a => a.edits pkg (pkg.settleEdits s.toLedger txn))
      (Storage.Holding pkg start) where
  turn {s txn rest} ready := by
    obtain ⟨held, heldRest⟩ := List.forall_mem_cons.mp ready.held
    obtain ⟨solid, solidRest⟩ := List.forall_mem_cons.mp ready.solid
    obtain ⟨apart, independent⟩ := List.pairwise_cons.mp ready.independent
    obtain ⟨t, run, edited⟩ := processTxn_edits held ready.fit solid
    have fit := (fit_persistent pkg).processTxn (pkg.txid txn) s ready.fit
    have lists := (Storage.Lists.tracked free).processTxn (pkg.txid txn) s ready.lists
    rw [run, final_ok] at fit lists
    -- the ledger changed by an acceptance, or not at all
    have moved : (t.toLedger = s.toLedger ∨ t.toLedger = s.toLedger.accept pkg txn ∧
        pkg.Effect s.toLedger (.settle txn) t.toLedger) ∧
        ∀ k ≠ pkg.txid txn, t.mempool[k]? = s.mempool[k]? := by
      rcases processTxn_left pkg held rfl run with
        ⟨accepts, stored, ledger, left⟩ | ⟨-, ledger, left⟩
      · exact ⟨.inr ⟨ledger, ledger ▸ .accept accepts stored⟩, fun k other => (left.other other).1⟩
      · exact ⟨.inl ledger, fun k other => (left.other other).1⟩
    obtain ⟨ledger, mempool⟩ := moved
    refine ⟨t, run, edited, ⟨fit, lists, ?_, fun txn' mem => ?_, solidRest, independent⟩,
      fun txn' mem => ?_⟩
    · rcases ledger with same | ⟨-, effect⟩
      · exact same ▸ ready.grown
      · exact ready.grown.trans effect.trace_extends
    · rw [mempool _ (apart txn' mem).txids.symm]
      exact heldRest txn' mem
    · rcases ledger with same | ⟨accepted, -⟩
      · rw [same]
      · rw [accepted, settleEdits_congr (Ledger.seenAlike_accept free ready.lists.pendKeyed
          (apart txn' mem) (solidRest txn' mem).refs)]

/-- What settling independent transactions writes commutes. -/
theorem settleEdits_comm (free : pkg.CollisionFree) {txn txn' : Transaction}
    (independent : pkg.Independent txn txn') (real : txn.refs ≠ []) (real' : txn'.refs ≠ [])
    (ledger : Ledger) (a : Accounts) :
    (a.edits pkg (pkg.settleEdits ledger txn)).edits pkg (pkg.settleEdits ledger txn') =
      (a.edits pkg (pkg.settleEdits ledger txn')).edits pkg (pkg.settleEdits ledger txn) := by
  refine independent.comm (fun e mem => (mem_settleEdits mem).1)
    (fun e mem => (mem_settleEdits mem).1) (fun tx ts mem _ => ?_) (fun tx ts mem _ => ?_) a
  · exact (independent.txid_ne free real' ((mem_settleEdits mem).2 tx rfl) rfl).symm
  · exact (independent.symm.txid_ne free real ((mem_settleEdits mem).2 tx rfl) rfl).symm

/-- The two nodes have the same databases and indexes. -/
structure Storage.SameRecords (s t : Storage) : Prop where
  db : t.db = s.db
  pend : t.pend = s.pend
  pubOuts : t.pubOuts = s.pubOuts
  pubOutsPend : t.pubOutsPend = s.pubOutsPend

/-- The two nodes ended alike: with the same databases and indexes, and having accepted
the same transactions since `start`. -/
structure Storage.EndAlike (start s t : Storage) : Prop extends s.SameRecords t where
  accepted : ∀ txn, start.AcceptedSince t.toLedger txn ↔ start.AcceptedSince s.toLedger txn

theorem Storage.SameRecords.of_accounts {s t : Storage} (same : t.accounts = s.accounts) :
    s.SameRecords t where
  db := congrArg Accounts.db same
  pend := congrArg Accounts.pend same
  pubOuts := congrArg Accounts.pubOuts same
  pubOutsPend := congrArg Accounts.pubOutsPend same

theorem Storage.EndAlike.of_accounts {start s t : Storage} (same : t.accounts = s.accounts)
    (grown : start.trace <+: s.trace) (grown' : start.trace <+: t.trace) :
    start.EndAlike s t where
  toSameRecords := .of_accounts same
  accepted txn := by
    obtain ⟨since, extends'⟩ := grown
    obtain ⟨since', extends''⟩ := grown'
    have events : (t.trace : Multiset Event) = s.trace := congrArg Accounts.events same
    rw [← extends', ← extends'', Multiset.coe_eq_coe, List.perm_append_left_iff] at events
    rw [Ledger.AcceptedSince, Ledger.AcceptedSince, ← extends', ← extends'', List.drop_left,
      List.drop_left]
    exact exists_congr fun c => events.mem_iff

/-- Once its turns have returned, `process_block` leaves the accounts alone, and raises only
where no block is queued. -/
theorem processBlock_accounts {s u : Storage} {block : List Bytes}
    (loop : block.forM pkg.processTxn (s.enter block) = .ok () u) :
    (final (pkg.processBlock block s)).accounts = u.accounts ∧
      (final (pkg.processBlock block s)).trace = u.trace ∧
      returned (pkg.processBlock block s) = !s.blockQueue.isEmpty := by
  have control : (final (block.forM pkg.processTxn (s.enter block))).control =
      (s.enter block).control :=
    Sustains.forM (fun txid _ => (control_steady _).processTxn pkg txid) _ rfl
  rw [loop] at control
  have sameQueue : u.blockQueue = s.blockQueue := congrArg Control.blockQueue control
  rw [Storage.enter] at loop
  rw [Packages.processBlock, modify_bind, bind_apply, loop]
  simp only [finishBlock, get_bind, sameQueue]
  cases s.blockQueue with
  | nil => exact ⟨rfl, rfl, rfl⟩
  | cons head rest => exact ⟨rfl, rfl, rfl⟩

/-- **The order of independent transactions.** In every state of a node's life, at every
block time, a block of transactions that have real inputs, share none and do not spend
each other ends in the same databases and indexes, and accepts the same transactions, in
whatever order they stand. -/
theorem Setup.life_block_order {setup : Setup} (free : setup.CollisionFree) {s : Storage}
    (reached : setup.life.Reachable s) (now : ℚ≥0) {txns txns' : List Transaction}
    (held : ∀ txn ∈ txns, s.mempool[setup.txid txn]? = some txn)
    (solid : ∀ txn ∈ txns, setup.Solid txn) (independent : txns.Pairwise setup.Independent)
    (perm : txns.Perm txns') :
    returned (setup.processBlock (txns'.map setup.txid) (s.atTime now)) =
        returned (setup.processBlock (txns.map setup.txid) (s.atTime now)) ∧
      (s.atTime now).EndAlike (final (setup.processBlock (txns.map setup.txid) (s.atTime now)))
        (final (setup.processBlock (txns'.map setup.txid) (s.atTime now))) := by
  have lists := life_lists free reached
  have holding : ∀ (block : List Bytes) (txns' : List Transaction), txns.Perm txns' →
      Storage.Holding setup.toPackages (s.atTime now).toLedger ((s.atTime now).enter block) txns' :=
    fun block txns' perm =>
      { fit := (life_entries reached).2
        lists := lists.of_books rfl rfl rfl rfl
        grown := List.prefix_rfl
        held := fun txn mem => held txn (perm.mem_iff.mpr mem)
        solid := fun txn mem => solid txn (perm.mem_iff.mpr mem)
        independent := (perm.pairwise_iff Packages.Independent.symm).mp independent }
  obtain ⟨t, t', run, run', done, done', same⟩ := (holding_patched free _).perm
    (holding (txns.map setup.txid) txns (.refl _)) (holding (txns'.map setup.txid) txns' perm)
    perm rfl (fun _ _ => rfl) fun txn mem txn' mem' a => by
      by_cases equal : txn = txn'
      · rw [equal]
      · exact settleEdits_comm free (independent.forall mem mem' equal)
          (solid txn mem).refs (solid txn' mem').refs _ a
  rw [← forM_map setup.txid setup.processTxn] at run run'
  obtain ⟨accounts, trace, returns⟩ := processBlock_accounts run
  obtain ⟨accounts', trace', returns'⟩ := processBlock_accounts run'
  refine ⟨returns'.trans returns.symm, .of_accounts ?_ ?_ ?_⟩
  · rw [accounts, accounts', same]
  · exact trace ▸ done.grown
  · exact trace' ▸ done'.grown

/-- Two payments from the outputs of the genesis transaction. -/
def twoPayments : List Transaction :=
  [Ideal.pay (Ideal.packages.txid Ideal.genesis) 0 0 0,
    Ideal.pay (Ideal.packages.txid Ideal.genesis) 1 0 5]

/-- A node that has them in its mempool. -/
def holdingTwo : Storage := Ideal.small.after (twoPayments.map Action.puttxn)

theorem twoPayments_independent : twoPayments.Pairwise Ideal.packages.Independent := by
  refine List.pairwise_pair.mpr ⟨⟨?_, ?_, ?_⟩, ?_⟩ <;> decide +kernel

theorem life_block_order_swapped :
    returned (Ideal.small.processBlock (twoPayments.reverse.map Ideal.packages.txid)
        (holdingTwo.atTime 1)) =
      returned (Ideal.small.processBlock (twoPayments.map Ideal.packages.txid)
        (holdingTwo.atTime 1)) ∧
    (holdingTwo.atTime 1).EndAlike
      (final (Ideal.small.processBlock (twoPayments.map Ideal.packages.txid)
        (holdingTwo.atTime 1)))
      (final (Ideal.small.processBlock (twoPayments.reverse.map Ideal.packages.txid)
        (holdingTwo.atTime 1))) :=
  @Setup.life_block_order Ideal.small Ideal.ideal_collisionFree holdingTwo
    (Setup.life_of_faulty (Setup.faulty_of_node (Ideal.small.reachable_after _))) 1
    twoPayments twoPayments.reverse (by decide +kernel)
    (by
      intro txn mem
      rcases List.mem_pair.mp mem with rfl | rfl
      · exact ⟨by decide +kernel, by decide +kernel⟩
      · exact ⟨by decide +kernel, by decide +kernel⟩)
    twoPayments_independent twoPayments.reverse_perm.symm

/-! ### `update_pend` -/

/-- What a visit of `update_pend` does to the accounts. -/
def Packages.expireEdits (pkg : Packages) (ledger : Ledger) (txnw : TxnWrapper) : List Edit :=
  if txnw.TimelockPassed ledger.currentTime then
    match pkg.decideTxn ledger txnw.txn false with
    | .ok (.valid _) => pkg.commitEdits ledger txnw
    | _ => ledger.dropEdits txnw
  else []

/-- The loop of `update_pend`, over the pending transactions in some order. -/
def Packages.sweepIn (pkg : Packages) (order : List (Bytes × TxnWrapper)) : M Unit :=
  order.forM fun entry => pkg.updatePendTxn entry.2

theorem expireEdits_cases (ledger : Ledger) {txnw : TxnWrapper}
    (passed : txnw.TimelockPassed ledger.currentTime) :
    pkg.Verifies ledger txnw.txn false ∧
        pkg.expireEdits ledger txnw = pkg.commitEdits ledger txnw ∨
      ¬ pkg.Verifies ledger txnw.txn false ∧
        pkg.expireEdits ledger txnw = ledger.dropEdits txnw := by
  rw [Packages.expireEdits, if_pos passed]
  rcases pkg.decideTxn_false ledger txnw.txn with ⟨decided, verifies⟩ | ⟨decided | decided, fails⟩
  · exact .inl ⟨verifies, by rw [decided]⟩
  · exact .inr ⟨fails, by rw [decided]⟩
  · exact .inr ⟨fails, by rw [decided]⟩

theorem expireEdits_congr {ledger ledger' : Ledger} {txnw : TxnWrapper}
    (alike : pkg.SeenAlike ledger ledger' txnw.txn false) :
    pkg.expireEdits ledger' txnw = pkg.expireEdits ledger txnw := by
  by_cases passed : txnw.TimelockPassed ledger.currentTime
  · have passed' : txnw.TimelockPassed ledger'.currentTime := alike.time ▸ passed
    rcases @expireEdits_cases pkg ledger _ passed with ⟨verifies, edits⟩ | ⟨fails, edits⟩
    · rcases @expireEdits_cases pkg ledger' _ passed' with ⟨-, edits'⟩ | ⟨fails, -⟩
      · rw [edits, edits', Packages.commitEdits, Packages.commitEdits, alike.time,
          spends_congr alike.records]
      · exact absurd (alike.verifies verifies) fails
    · rcases @expireEdits_cases pkg ledger' _ passed' with ⟨verifies, -⟩ | ⟨-, edits'⟩
      · exact absurd (alike.symm.verifies verifies) fails
      · rw [edits, edits', Ledger.dropEdits, Ledger.dropEdits, alike.time]
  · have waits : ¬ txnw.TimelockPassed ledger'.currentTime := alike.time ▸ passed
    rw [Packages.expireEdits, Packages.expireEdits, if_neg passed, if_neg waits]

/-- The edits of a sweep are about the transaction, and put nothing into `pend`. -/
theorem mem_expireEdits {ledger : Ledger} {txnw : TxnWrapper} {e : Edit}
    (mem : e ∈ pkg.expireEdits ledger txnw) : e.About txnw.txn ∧ ∀ txn ts, e ≠ .hold txn ts := by
  by_cases passed : txnw.TimelockPassed ledger.currentTime
  · rcases @expireEdits_cases pkg ledger _ passed with ⟨-, edits⟩ | ⟨-, edits⟩
    · rw [edits, Packages.commitEdits, List.cons_append, List.mem_cons, List.mem_append] at mem
      rcases mem with rfl | mem | mem
      · exact ⟨trivial, by simp⟩
      · refine ⟨about_spends _ _ e mem, ?_⟩
        rintro txn ts rfl
        obtain ⟨inp, -, spend⟩ := List.mem_map.mp mem
        cases spend
      · simp only [List.mem_cons, List.not_mem_nil, or_false] at mem
        rcases mem with rfl | rfl
        · exact ⟨rfl, by simp⟩
        · exact ⟨trivial, by simp⟩
    · rw [edits, Ledger.dropEdits] at mem
      simp only [List.mem_cons, List.not_mem_nil, or_false] at mem
      rcases mem with rfl | rfl
      · exact ⟨trivial, by simp⟩
      · exact ⟨trivial, by simp⟩
  · rw [Packages.expireEdits, if_neg passed] at mem
    cases mem

/-- **One visit to a transaction whose timelock has passed**: it is committed or dropped, by
its edits. -/
theorem updatePendTxn_turn {s : Storage} {txnw : TxnWrapper}
    (passed : txnw.TimelockPassed s.currentTime)
    (stored : ∀ inp ∈ txnw.txn.inputs, Stored s.db inp.ref) :
    ∃ t, pkg.updatePendTxn txnw s = .ok () t ∧
      t.accounts = s.accounts.edits pkg (pkg.expireEdits s.toLedger txnw) ∧
      (t.toLedger = s.toLedger.commit pkg txnw ∨ t.toLedger = s.toLedger.drop pkg txnw) := by
  obtain ⟨t, run, edited⟩ : ∃ t, pkg.updatePendTxn txnw s = .ok () t ∧
      t.accounts = s.accounts.edits pkg (pkg.expireEdits s.toLedger txnw) := by
    obtain ⟨commits, drops⟩ := @updatePendTxn_edits pkg s txnw passed
    rcases @expireEdits_cases pkg s.toLedger _ passed with ⟨verifies, edits⟩ | ⟨fails, edits⟩
    · rw [edits]
      exact commits verifies stored
    · rw [edits]
      exact drops fails
  obtain ⟨ledger, run', rfl⟩ := (updatePendTxn_lockstep pkg txnw).ok_left rfl run
  rw [Ledger.expire_passed pkg passed] at run'
  refine ⟨t, run, edited, ?_⟩
  rcases (Ledger.settleExpired_ok pkg).mp run' with ⟨-, -, committed⟩ | ⟨-, dropped⟩
  · exact .inl committed
  · exact .inr dropped

/-- The node is ready to visit these entries of `pend`. -/
structure Storage.Sweepable (pkg : Packages) (s : Storage) (entries : List (Bytes × TxnWrapper)) :
    Prop where
  stored : ∀ entry ∈ entries, ∀ inp ∈ entry.2.txn.inputs, Stored s.db inp.ref
  separate : entries.Pairwise fun entry entry' => pkg.Separate entry.2.txn entry'.2.txn

/-- The entries are visited one by one. -/
theorem sweepable_patched : Patched (fun entry => pkg.updatePendTxn entry.2) Storage.accounts
    (fun s entry a => a.edits pkg (pkg.expireEdits s.toLedger entry.2))
    (Storage.Sweepable pkg) where
  turn {s entry rest} ready := by
    obtain ⟨stored, storedRest⟩ := List.forall_mem_cons.mp ready.stored
    obtain ⟨apart, separate⟩ := List.pairwise_cons.mp ready.separate
    by_cases passed : entry.2.TimelockPassed s.currentTime
    · obtain ⟨t, run, edited, ledger⟩ := @updatePendTxn_turn pkg s _ passed stored
      refine ⟨t, run, edited, ⟨fun entry' mem inp input => ?_, separate⟩, fun entry' mem => ?_⟩
      · have before := storedRest entry' mem inp input
        rcases ledger with committed | dropped
        · rw [committed]
          exact Ledger.stored_commit
            ((apart entry' mem).named inp.ref (List.mem_map_of_mem input)) before
        · rw [dropped]
          exact before
      · have alike : pkg.SeenAlike s.toLedger t.toLedger entry'.2.txn false := by
          rcases ledger with committed | dropped
          · exact committed ▸ Ledger.seenAlike_commit (apart entry' mem)
          · exact dropped ▸ ⟨rfl, .rfl, fun _ _ => rfl, by simp, by simp⟩
        rw [expireEdits_congr alike]
    · refine ⟨s, updatePendTxn_waiting pkg passed, ?_, ⟨storedRest, separate⟩, fun _ _ => rfl⟩
      rw [Packages.expireEdits, if_neg passed]
      rfl

/-- What visits to separate transactions write commutes. -/
theorem expireEdits_comm {txnw txnw' : TxnWrapper} (separate : pkg.Separate txnw.txn txnw'.txn)
    (ledger : Ledger) (a : Accounts) :
    (a.edits pkg (pkg.expireEdits ledger txnw)).edits pkg (pkg.expireEdits ledger txnw') =
      (a.edits pkg (pkg.expireEdits ledger txnw')).edits pkg (pkg.expireEdits ledger txnw) := by
  refine separate.comm (fun e mem => (mem_expireEdits mem).1)
    (fun e mem => (mem_expireEdits mem).1) (fun tx ts _ mem => ?_) (fun tx ts _ mem => ?_) a
  · exact absurd rfl ((mem_expireEdits mem).2 _ ts)
  · exact absurd rfl ((mem_expireEdits mem).2 _ ts)

/-- Nothing in the list is due, so a visit changes nothing. -/
theorem sweepIn_waiting {s : Storage} {order : List (Bytes × TxnWrapper)}
    (waiting : ∀ entry ∈ order, ¬ entry.2.TimelockPassed s.currentTime) :
    pkg.sweepIn order s = .ok () s := by
  induction order with
  | nil => rfl
  | cons entry rest ih =>
      obtain ⟨first, waiting⟩ := List.forall_mem_cons.mp waiting
      rw [Packages.sweepIn, forM_cons, bind_ok]
      exact ⟨(), s, updatePendTxn_waiting pkg first, ih waiting⟩

/-! ### Pending transactions -/

/-- The step raised nothing. -/
def Setup.Unraised (setup : Setup) (s : Storage) : Happens → Prop
  | .act a => returned (setup.perform a s) = true
  | .restart => True

variable {setup : Setup}

theorem Setup.Moves.sound {P : Move → Prop} {ledger ledger' : Ledger}
    (moves : setup.Moves P ledger ledger') (sound : ledger.Sound setup.toPackages) :
    ledger'.Sound setup.toPackages := by
  obtain ⟨moves, run, -⟩ := moves
  induction run with
  | nil => exact sound
  | cons step _ ih => exact ih (sound.effect (setup.effect_of_step step))

/-- A life without exceptions keeps the ledger sound. -/
theorem Setup.life_sound {s : Storage} (reached : (setup.life.restrict setup.Unraised).Reachable s) :
    s.toLedger.Sound setup.toPackages := by
  refine reached.invariant (I := fun s => s.toLedger.Sound setup.toPackages) ?_ ?_
  · rintro _ rfl
    exact setup.fresh_sound
  · rintro s event t before sound ⟨unraised, step⟩
    cases event with
    | act a =>
        have run := eq_ok_of_returned unraised
        have same := congrArg final (Packages.exec_of_perform run)
        rw [final_ok] at same
        cases step.symm.trans same
        exact (setup.perform_moves sound run).sound sound
    | restart =>
        cases step
        obtain ⟨db, pend⟩ := life_books before.of_restrict
        exact sound.of_subset db fun k txnw held => pend ▸ held

/-- A pending transaction refers to stored outputs, so it spends no other that is
pending. -/
theorem Storage.sweepable {pkg : Packages} {s : Storage} (sound : s.toLedger.Sound pkg)
    (lists : s.Lists pkg) {order : List (Bytes × TxnWrapper)} (perm : order.Perm s.pend.toList) :
    s.Sweepable pkg order := by
  have pending : ∀ entry ∈ s.pend.toList, s.pend[entry.1]? = some entry.2 :=
    fun entry mem => Std.ExtTreeMap.mem_toList_iff_getElem?_eq_some.mp mem
  have names : ∀ entry ∈ s.pend.toList, pkg.txid entry.2.txn = entry.1 :=
    fun entry mem => sound.pendKeyed entry.1 entry.2 (pending entry mem)
  have stored : ∀ entry ∈ s.pend.toList, ∀ r ∈ entry.2.txn.refs, Stored s.db r := by
    intro entry mem r named
    have spent := sound.pendSpent entry.1 entry.2 (pending entry mem) r named
    obtain ⟨txnw, held, inBits⟩ := Option.bind_eq_some_iff.mp spent
    have inside : r.2 < txnw.utxos.length := (List.getElem?_eq_some_iff.mp inBits).1
    exact ⟨txnw, held, inside, sound.fit r.1 txnw held ▸ inside⟩
  have never : ∀ entry ∈ s.pend.toList, ∀ entry' ∈ s.pend.toList, ∀ r ∈ entry.2.txn.refs,
      r.1 ≠ pkg.txid entry'.2.txn := by
    intro entry mem entry' mem' r named same
    obtain ⟨txnw, held, -⟩ := stored entry mem r named
    refine lists.apart r.1 (Std.ExtTreeMap.mem_iff_isSome_getElem?.mpr (by rw [held]; rfl)) ?_
    rw [same, names entry' mem']
    exact Std.ExtTreeMap.mem_iff_isSome_getElem?.mpr (by rw [pending entry' mem']; rfl)
  refine ⟨fun entry mem inp input =>
    stored entry (perm.mem_iff.mp mem) inp.ref (List.mem_map_of_mem input), ?_⟩
  have distinct : s.pend.toList.Pairwise fun entry entry' =>
      pkg.Separate entry.2.txn entry'.2.txn := by
    refine List.Pairwise.imp_of_mem (fun {entry entry'} mem mem' apart => ?_)
      (Std.ExtTreeMap.distinct_keys_toList (t := s.pend))
    refine ⟨fun same => apart ?_, never entry mem entry' mem', never entry' mem' entry mem⟩
    rw [← names entry mem, ← names entry' mem', same]
    exact Std.ReflCmp.compare_self
  exact (perm.pairwise_iff Packages.Separate.symm).mpr distinct

/-- **The order of `update_pend`.** In every state of a life in which nothing raised, the
pending transactions may be visited in any order: the loop returns and leaves the same
databases and indexes; `pend` keeps what was not due, as it was, and nothing else; and
another call, in any order, changes nothing. -/
theorem Setup.life_sweep_order (free : setup.CollisionFree) {s : Storage}
    (reached : (setup.life.restrict setup.Unraised).Reachable s) :
    ∃ t, setup.updatePend s = .ok () t ∧
      ∀ order : List (Bytes × TxnWrapper), order.Perm s.pend.toList →
        ∃ u, setup.sweepIn order s = .ok () u ∧ t.SameRecords u ∧
          u.currentTime = s.currentTime ∧
          (∀ (k : Bytes) (txnw : TxnWrapper), u.pend[k]? = some txnw ↔
            s.pend[k]? = some txnw ∧ ¬ txnw.TimelockPassed s.currentTime) ∧
          ∀ order' : List (Bytes × TxnWrapper), order'.Perm u.pend.toList →
            setup.sweepIn order' u = .ok () u := by
  have sound := life_sound reached
  have lists := life_lists free reached.of_restrict
  have distinct : s.pend.toList.Pairwise fun entry entry' => entry.1 ≠ entry'.1 :=
    Std.ExtTreeMap.distinct_keys_toList.imp fun apart same =>
      apart (Std.LawfulEqCmp.compare_eq_iff_eq.mpr same)
  -- two visits commute, also a visit with itself
  have comm : ∀ entry ∈ s.pend.toList, ∀ entry' ∈ s.pend.toList, ∀ a : Accounts,
      (a.edits setup.toPackages (setup.expireEdits s.toLedger entry.2)).edits setup.toPackages
          (setup.expireEdits s.toLedger entry'.2) =
        (a.edits setup.toPackages (setup.expireEdits s.toLedger entry'.2)).edits setup.toPackages
          (setup.expireEdits s.toLedger entry.2) := by
    intro entry mem entry' mem' a
    by_cases equal : entry = entry'
    · rw [equal]
    · have symm : Std.Symm fun entry entry' : Bytes × TxnWrapper =>
        setup.Separate entry.2.txn entry'.2.txn := ⟨fun _ _ => Packages.Separate.symm⟩
      have separate := (Storage.sweepable sound lists (.refl _)).separate
      exact expireEdits_comm (separate.forall mem mem' equal) _ a
  obtain ⟨t, run, -⟩ := sweepable_patched.run (Storage.sweepable sound lists (.refl _))
  refine ⟨t, run, fun order perm => ?_⟩
  obtain ⟨t', u, run', runIn, -, -, same⟩ := sweepable_patched.perm
    (Storage.sweepable sound lists (.refl _)) (Storage.sweepable sound lists perm) perm.symm rfl
    (fun _ _ => rfl) comm
  cases run.symm.trans run'
  have lockstep : Lockstep Holds (setup.sweepIn order)
      (order.forM fun entry => Ledger.expire setup.toPackages entry.2) :=
    Lockstep.forM fun entry _ => updatePendTxn_lockstep setup.toPackages entry.2
  obtain ⟨ledger, loop, rfl⟩ := lockstep.ok_left rfl runIn
  obtain ⟨-, time, after⟩ := setup.forM_expire sound
    ((perm.pairwise_iff fun apart => Ne.symm apart).mpr distinct)
    (fun entry mem => Std.ExtTreeMap.mem_toList_iff_getElem?_eq_some.mp (perm.mem_iff.mp mem)) loop
  have left : ∀ (k : Bytes) (txnw : TxnWrapper), u.pend[k]? = some txnw ↔
      s.pend[k]? = some txnw ∧ ¬ txnw.TimelockPassed s.currentTime := by
    intro k txnw
    rw [after, perm.mem_iff, Std.ExtTreeMap.mem_toList_iff_getElem?_eq_some]
    exact and_congr_right fun held => by simp [held]
  refine ⟨u, runIn, .of_accounts same, time, left, fun order' perm' => sweepIn_waiting ?_⟩
  intro entry mem
  have held := Std.ExtTreeMap.mem_toList_iff_getElem?_eq_some.mp (perm'.mem_iff.mp mem)
  rw [show u.currentTime = s.currentTime from time]
  exact ((left entry.1 entry.2).mp held).2

/-- A run without restarts in which nothing raised is such a life. -/
theorem Setup.unraised_of_node {s : Storage} (reached : setup.node.Reachable s) :
    (setup.life.restrict setup.Unraised).Reachable s := by
  induction reached with
  | start fresh => exact .start fresh
  | @step s t a before run ih =>
      have unraised : returned (setup.perform a s) = true := congrArg returned run
      exact .step (a := .act a) ih ⟨unraised, congrArg final (Packages.exec_of_perform run)⟩

/-- Two payments wait in `pend`, and the timelock of one has passed. -/
def twoLockedRun : List Action :=
  [.puttxn (Ideal.pay (Ideal.packages.txid Ideal.genesis) 0 0 5),
    .puttxn (Ideal.pay (Ideal.packages.txid Ideal.genesis) 1 0 50),
    .deliver ⟨0, [Ideal.packages.txid (Ideal.pay (Ideal.packages.txid Ideal.genesis) 0 0 5),
      Ideal.packages.txid (Ideal.pay (Ideal.packages.txid Ideal.genesis) 1 0 50)]⟩,
    .tryProcess, .deliver ⟨Nat.cast 6, []⟩, .tryProcess]

theorem life_sweep_order_due :
    (Ideal.small.after twoLockedRun).pend.toList.map (fun entry => (entry.2.txn.timelock,
        decide (entry.2.TimelockPassed (Ideal.small.after twoLockedRun).currentTime))) =
      [(5, true), (50, false)] ∧
    ∃ t, Ideal.small.updatePend (Ideal.small.after twoLockedRun) = .ok () t ∧
      ∀ order : List (Bytes × TxnWrapper),
        order.Perm (Ideal.small.after twoLockedRun).pend.toList →
        ∃ u, Ideal.small.sweepIn order (Ideal.small.after twoLockedRun) = .ok () u ∧
          t.SameRecords u ∧
          u.currentTime = (Ideal.small.after twoLockedRun).currentTime ∧
          (∀ (k : Bytes) (txnw : TxnWrapper), u.pend[k]? = some txnw ↔
            (Ideal.small.after twoLockedRun).pend[k]? = some txnw ∧
              ¬ txnw.TimelockPassed (Ideal.small.after twoLockedRun).currentTime) ∧
          ∀ order' : List (Bytes × TxnWrapper), order'.Perm u.pend.toList →
            Ideal.small.sweepIn order' u = .ok () u :=
  ⟨by decide +kernel, @Setup.life_sweep_order Ideal.small Ideal.ideal_collisionFree _
    (Setup.unraised_of_node (Ideal.small.reachable_after twoLockedRun))⟩

end Belcoin
