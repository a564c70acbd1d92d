import Belcoin.Mempool
import Belcoin.Ledger.Coins
import Belcoin.Ledger.Finish
import Belcoin.Ledger.History
import Belcoin.Step

/-!
Waiting for the transactions of a block.

A node that has taken a block may wait for some of its transactions while blocks,
transactions and answers arrive.

* `updatePend_mempool` — when `update_pend` leaves a transaction in the mempool.
* `node_entries` — whenever `process_block` is entered, the transactions of its block
  are in the mempool and stay there until their turn.
-/

namespace Belcoin

open Stateful

variable (pkg : Packages)

/-! ### The transactions of a waiting block stay -/

/-- A larger database does not change the verdict of `update_pend`, unless it stores
the transaction. -/
theorem Packages.Verifies.mono {pkg : Packages} {ledger ledger' : Ledger} {txn : Transaction}
    (verifies : pkg.Verifies ledger txn false) (sameTime : ledger'.currentTime = ledger.currentTime)
    (kept : ∀ k ∈ ledger.db, record ledger'.db k = record ledger.db k)
    (fresh : pkg.txid txn ∉ ledger'.db) : pkg.Verifies ledger' txn false := by
  have sameRecord : ∀ inp ∈ pkg.realInputs txn,
      record ledger'.db inp.txid = record ledger.db inp.txid := by
    intro inp real
    obtain ⟨entry, o, held, -⟩ := (verifies.inputs inp real).authorised
    exact kept _ (mem_iff_record.mpr ⟨entry, held⟩)
  refine ⟨fresh, fun inp real => ⟨?_, by simp, by simp⟩, ?_⟩
  · obtain ⟨entry, o, held, rest⟩ := (verifies.inputs inp real).authorised
    rw [sameTime]
    exact ⟨entry, o, (sameRecord inp real).trans held, rest⟩
  · have sameCoins : pkg.hasCoins ledger'.db txn = pkg.hasCoins ledger.db txn := by
      refine congrArg List.sum (List.map_congr_left fun inp real => ?_)
      exact amountAt_congr (sameRecord inp real)
    exact sameCoins.trans verifies.balanced

/-- What one turn of `update_pend` leaves of the databases, also where it raises. -/
structure Ledger.Grown (ledger ledger' : Ledger) (txid : Bytes) : Prop where
  sameTime : ledger'.currentTime = ledger.currentTime
  kept : ∀ k ∈ ledger.db, record ledger'.db k = record ledger.db k
  added : ∀ k ∈ ledger'.db, k ∈ ledger.db ∨ k = txid

theorem expire_grown (ledger : Ledger) (txnw : TxnWrapper) :
    ledger.Grown (final (Ledger.expire pkg txnw ledger)) (pkg.txid txnw.txn) := by
  have same : ledger.Grown ledger (pkg.txid txnw.txn) := ⟨rfl, fun _ _ => rfl, fun _ => .inl⟩
  by_cases passed : txnw.TimelockPassed ledger.currentTime
  · rw [Ledger.expire_passed pkg passed]
    by_cases verifies : pkg.Verifies ledger txnw.txn false
    · rw [Ledger.settleExpired_verifies pkg verifies]
      have spends : Sustains (fun ledger' => ledger.Grown ledger' (pkg.txid txnw.txn))
          (txnw.txn.inputs.forM Ledger.spend) := by
        refine Sustains.forM fun inp _ ledger' grown => ?_
        rcases Ledger.final_spend inp ledger' with unchanged | cleared
        · rw [unchanged]
          exact grown
        · rw [cleared]
          refine ⟨grown.sameTime, fun k mem => ?_, fun k mem => ?_⟩
          · exact (record_clearBit _ _ _).trans (grown.kept k mem)
          · exact grown.added k ((@mem_clearBits ledger'.db [inp.ref] k).mp mem)
      have stores : Sustains (fun ledger' => ledger.Grown ledger' (pkg.txid txnw.txn))
          (Ledger.writeToDb pkg txnw.txn txnw.timestamp) := by
        refine spends.bind fun _ => sustains_modify fun ledger' grown => ?_
        refine ⟨grown.sameTime, fun k mem => ?_, fun k mem => ?_⟩
        · have other : pkg.txid txnw.txn ≠ k := fun own => verifies.fresh (own ▸ mem)
          rw [← grown.kept k mem, record, record, Std.ExtTreeMap.getElem?_insert]
          simp [other]
        · rcases Std.ExtTreeMap.mem_insert.mp mem with own | old
          · exact .inr (Std.LawfulEqCmp.compare_eq_iff_eq.mp own).symm
          · exact grown.added k old
      have logs : Sustains (fun ledger' => ledger.Grown ledger' (pkg.txid txnw.txn))
          (Ledger.log (.committed txnw.txn ledger.currentTime)) :=
        sustains_modify fun ledger' grown => ⟨grown.sameTime, grown.kept, grown.added⟩
      exact (stores.bind fun _ => logs) (ledger.without pkg txnw.txn)
        ⟨rfl, fun _ _ => rfl, fun _ => .inl⟩
    · rw [Ledger.settleExpired_fails pkg verifies]
      exact ⟨rfl, fun _ _ => rfl, fun _ => .inl⟩
  · rw [Ledger.expire_waiting pkg passed]
    exact same

/-- Without `check_pend` verification takes no transaction out of the mempool that it
does not refuse. -/
theorem verifyTxn_mempool {s : Storage} {txn : Transaction} {k : Bytes} (held : k ∈ s.mempool)
    (passes : pkg.txid txn = k → pkg.Verifies s.toLedger txn false) :
    k ∈ (final (pkg.verifyTxn txn false s)).mempool := by
  rw [Packages.verifyTxn, get_bind]
  rcases pkg.decideTxn_false s.toLedger txn with ⟨decided, -⟩ | ⟨decided, refused⟩
  · rw [decided]
    exact held
  · have stays : k ∈ s.mempool.erase (pkg.txid txn) := by
      refine Std.ExtTreeMap.mem_erase.mpr ⟨fun own => refused (passes ?_), held⟩
      exact Std.LawfulEqCmp.compare_eq_iff_eq.mp own
    rcases decided with stored | invalid
    · rw [stored]
      exact stays
    · rw [invalid]
      exact stays

/-- One turn of `update_pend` takes out no transaction that it does not refuse. -/
theorem updatePendTxn_mempool {s : Storage} {txnw : TxnWrapper} {k : Bytes} (held : k ∈ s.mempool)
    (passes : pkg.txid txnw.txn = k → txnw.TimelockPassed s.currentTime →
      pkg.Verifies s.toLedger txnw.txn false) :
    k ∈ (final (pkg.updatePendTxn txnw s)).mempool := by
  have apart : Apart fun t => k ∈ t.mempool :=
    ⟨fun _ _ held => held, fun _ _ held => held, fun _ _ held => held⟩
  by_cases passed : txnw.TimelockPassed s.currentTime
  · rw [Packages.updatePendTxn, get_bind, if_pos passed, bind_apply, delFromPending_eq]
    refine final_bind (I := fun t : Storage => k ∈ t.mempool)
      (verifyTxn_mempool pkg held fun own => ?_) fun verified t _ held' => ?_
    · exact (Ledger.verifies_without pkg).mpr (passes own passed)
    · cases verified with
      | false => exact apart.note _ t held'
      | true => exact ((apart.writeTxnToDb pkg _ _).bind fun _ => apart.note _) t held'
  · rw [updatePendTxn_waiting pkg passed]
    exact held

/-- The loop of `update_pend`, over distinct transactions. -/
theorem forM_updatePendTxn_mempool {entries : List (Bytes × TxnWrapper)} {s : Storage} {k : Bytes}
    (distinct : entries.Pairwise fun a b => pkg.txid a.2.txn ≠ pkg.txid b.2.txn)
    (held : k ∈ s.mempool)
    (passes : ∀ entry ∈ entries, pkg.txid entry.2.txn = k →
      entry.2.TimelockPassed s.currentTime → pkg.Verifies s.toLedger entry.2.txn false) :
    k ∈ (final (entries.forM (fun entry => pkg.updatePendTxn entry.2) s)).mempool := by
  induction entries generalizing s with
  | nil => exact held
  | cons entry entries ih =>
      obtain ⟨apart, distinct⟩ := List.pairwise_cons.mp distinct
      obtain ⟨first, rest⟩ := List.forall_mem_cons.mp passes
      have held' := updatePendTxn_mempool pkg held first
      rw [forM_cons]
      refine final_bind (I := fun t : Storage => k ∈ t.mempool) held' fun _ t run stays => ?_
      have grown : s.toLedger.Grown t.toLedger (pkg.txid entry.2.txn) := by
        have same := (updatePendTxn_lockstep pkg entry.2).final (rfl : Holds s s.toLedger)
        rw [run] at same
        exact same ▸ expire_grown pkg s.toLedger entry.2
      refine ih distinct stays fun other mem own passed => ?_
      have verifies := rest other mem own (grown.sameTime ▸ passed)
      refine verifies.mono grown.sameTime grown.kept fun stored => ?_
      rcases grown.added _ stored with old | new
      · exact verifies.fresh old
      · exact apart other mem new.symm

/-- **`update_pend` takes no transaction out of the mempool that it does not refuse.** -/
theorem updatePend_mempool {s : Storage} {k : Bytes}
    (pendKeyed : ∀ (k : Bytes) (txnw : TxnWrapper), s.pend[k]? = some txnw → pkg.txid txnw.txn = k)
    (held : k ∈ s.mempool)
    (passes : ∀ txnw, s.pend[k]? = some txnw → txnw.TimelockPassed s.currentTime →
      pkg.Verifies s.toLedger txnw.txn false) :
    k ∈ (final (pkg.updatePend s)).mempool := by
  obtain ⟨distinct, pending⟩ := s.toLedger.pend_snapshot
  refine forM_updatePendTxn_mempool pkg ?_ held fun entry mem own passed => ?_
  · refine distinct.imp_of_mem fun {a b} memA memB apart same => apart ?_
    rw [← pendKeyed _ _ (pending a memA), ← pendKeyed _ _ (pending b memB), same]
  · have named := pendKeyed _ _ (pending entry mem)
    exact passes entry.2 (own ▸ named ▸ pending entry mem) passed

/-! ### Entering `process_block` -/

/-- What is not missing of the block at hand is in the mempool. -/
def Storage.Whole (s : Storage) : Prop :=
  ∀ txid ∈ s.currentBlock, txid ∈ s.missingTxns ∨ txid ∈ s.mempool

/-- While a node waits, its block is whole. -/
def Storage.Covered (s : Storage) : Prop :=
  s.processing = true → s.processingBlock = false → s.Whole

/-- `update_pend` refuses no transaction that is pending and, submitted again, in the block
at hand as well. -/
def Setup.Confirms (setup : Setup) (s : Storage) : Prop :=
  ∀ (k : Bytes) (txnw : TxnWrapper), s.pend[k]? = some txnw →
    txnw.TimelockPassed s.currentTime → k ∈ s.currentBlock → k ∉ s.missingTxns →
    setup.Verifies s.toLedger txnw.txn false

/-- Nothing takes a transaction away from the block at hand, whether the node waits for
others or backs off: answers are genuine, and `update_pend` refuses none of it. -/
structure Setup.Spared (setup : Setup) (s : Storage) (a : Action) : Prop where
  genuine : setup.Genuine s a
  updates : a.sweeps = true → s.processingBlock = false → setup.Confirms s

/-- Nothing takes a transaction away from a block that waits for others: answers are
genuine, no `update_pend` refuses a transaction of it, and a block that is completed while
the node is backing off from it has not lost one. -/
structure Setup.Undisturbed (setup : Setup) (s : Storage) (a : Action) : Prop where
  genuine : setup.Genuine s a
  updates : a.sweeps = true → s.processing = true → s.processingBlock = false → setup.Confirms s
  late : ∀ n reply, a = .answer n reply → s.Completes n reply → s.processing = false → s.Whole

/-- A transaction that arrives takes none away. -/
theorem addMissing_keeps {s : Storage} {txid k : Bytes} {tx : Transaction} (held : k ∈ s.mempool) :
    k ∈ (final (pkg.addMissing txid tx s)).mempool :=
  (mem_addMissing pkg).mpr (.inl held)

/-- One that arrives under its own id is there afterwards. -/
theorem addMissing_holds {s : Storage} {txid : Bytes} {tx : Transaction}
    (own : pkg.txid tx = txid) : txid ∈ (final (pkg.addMissing txid tx s)).mempool := by
  refine (mem_addMissing pkg).mpr ?_
  exact (em (txid ∈ s.mempool)).imp_right fun absent => ⟨absent, own⟩

/-- What an answer leaves in the mempool. -/
theorem mem_answered {s : Storage} {n : Nat} {txid k : Bytes} {reply : Reply}
    (held : k ∈ s.mempool) : k ∈ (pkg.answered s n txid reply).mempool := by
  cases reply with
  | transaction tx => exact addMissing_keeps pkg held
  | _ => exact held

theorem answered_holds {s : Storage} {n : Nat} {entry : Bytes × Nat} {reply : Reply}
    (genuine : pkg.Genuine s (.answer n reply)) (flying : s.requests[n]? = some entry)
    (present : (∀ tx, reply ≠ .transaction tx) → entry.1 ∈ s.mempool) :
    entry.1 ∈ (pkg.answered s n entry.1 reply).mempool := by
  cases reply with
  | transaction tx => exact addMissing_holds pkg (genuine n tx entry rfl flying)
  | _ => exact present nofun

theorem answered_keyed {s : Storage} {n : Nat} {txid : Bytes} {reply : Reply}
    (keyed : s.Keyed pkg) : (pkg.answered s n txid reply).Keyed pkg := by
  cases reply with
  | transaction tx => exact addMissing_keyed pkg txid tx _ keyed
  | _ => exact keyed

variable {setup : Setup}

theorem Setup.updatePend_whole {s : Storage} (mirrors : s.Mirrors setup.toPackages)
    (whole : s.Whole) (confirms : setup.Confirms s) : (final (setup.updatePend s)).Whole := by
  have control : (final (setup.updatePend s)).control = s.control :=
    (control_steady s.control).updatePend setup.toPackages s rfl
  have sameBlock : (final (setup.updatePend s)).currentBlock = s.currentBlock :=
    congrArg Control.currentBlock control
  have sameMissing : (final (setup.updatePend s)).missingTxns = s.missingTxns :=
    congrArg Control.missingTxns control
  intro txid mem
  rw [sameBlock] at mem
  rw [sameMissing]
  by_cases missing : txid ∈ s.missingTxns
  · exact .inl missing
  · have held := (whole txid mem).resolve_left missing
    exact .inr (updatePend_mempool setup.toPackages mirrors.pendKeyed held fun txnw pending passed =>
      confirms txid txnw pending passed mem missing)

/-- Ids may leave `missing_txns` once their transactions are there. -/
theorem Storage.Whole.shorten {s t : Storage} (whole : s.Whole) {missing : List Bytes}
    (control : t.control = { s.control with missingTxns := missing })
    (fewer : ∀ txid ∈ s.missingTxns, txid ∈ missing ∨ txid ∈ t.mempool)
    (keeps : ∀ k ∈ s.mempool, k ∈ t.mempool) : t.Whole := by
  have sameBlock : t.currentBlock = s.currentBlock := congrArg Control.currentBlock control
  have sameMissing : t.missingTxns = missing := congrArg Control.missingTxns control
  intro txid mem
  rw [sameBlock] at mem
  rw [sameMissing]
  rcases whole txid mem with missed | held
  · exact fewer txid missed
  · exact .inr (keeps txid held)

theorem mem_erase_or {missing : List Bytes} {txid k : Bytes} {P : Bytes → Prop} (present : P k)
    (mem : txid ∈ missing) : txid ∈ missing.erase k ∨ P txid := by
  by_cases own : txid = k
  · exact .inr (own ▸ present)
  · exact .inl ((List.mem_erase_of_ne own).mpr mem)

/-- What is missing of a block has just been listed. -/
theorem whole_take (s : Storage) (block : Block) : (s.take block).Whole := by
  intro txid mem
  by_cases held : txid ∈ s.mempool
  · exact .inr held
  · exact .inl (List.mem_filter.mpr ⟨mem, by simpa using held⟩)

/-- Quiet steps take a block, or leave the flags alone and the block at hand whole. -/
theorem Packages.Quiet.whole {s t : Storage} {a : Action} (quiet : setup.Quiet s a t)
    (mirrors : s.Mirrors setup.toPackages) (genuine : setup.Genuine s a) :
    t.Whole ∨ (t.processing = s.processing ∧ t.processingBlock = s.processingBlock) ∧
      (s.Whole → (a.sweeps = true → setup.Confirms s) → t.Whole) := by
  have kept : ∀ {u : Storage} {missing : List Bytes},
      u.control = { s.control with missingTxns := missing } →
      u.processing = s.processing ∧ u.processingBlock = s.processingBlock := fun control =>
    ⟨congrArg Control.processing control, congrArg Control.processingBlock control⟩
  have sweeps : (final (setup.updatePend s)).control = s.control :=
    (control_steady s.control).updatePend setup.toPackages s rfl
  have swept : a.sweeps = true → s.Whole → (a.sweeps = true → setup.Confirms s) →
      (final (setup.updatePend s)).Whole := fun due whole confirms =>
    setup.updatePend_whole mirrors whole (confirms due)
  cases quiet with
  | waits => exact .inr ⟨⟨rfl, rfl⟩, fun whole _ => whole⟩
  | @backsOff block => exact .inl (whole_take s block)
  | @asks block => exact .inl (whole_take s block)
  | @delivered block =>
      have after : ∀ {I : Storage → Prop}, I (final (setup.updatePend s)) →
          (∀ u queue log, I u → I { u with blockQueue := queue, blockLog := log }) →
          I (final (setup.addBlockToQueue block s)) := fun start queues =>
        final_bind start fun _ u _ held => queues u _ _ held
      exact .inr ⟨after (I := fun u => u.processing = s.processing ∧
          u.processingBlock = s.processingBlock) (kept sweeps) fun _ _ _ same => same,
        fun whole confirms => after (I := Storage.Whole) (swept rfl whole confirms)
          fun _ _ _ held => held⟩
  | swept => exact .inr ⟨kept sweeps, swept rfl⟩
  | @submitted tx =>
      have control : (final (setup.puttxn tx s)).control = s.control :=
        (transactionReceived_eq setup.toPackages tx 0 (setup.txid tx) s).2
      exact .inr ⟨kept control, fun whole _ => whole.shorten control (fun _ => .inl) fun k =>
        addMissing_keeps setup.toPackages⟩
  | ended => exact .inr ⟨⟨rfl, rfl⟩, fun whole _ => whole⟩
  | @received n reply entry flying present =>
      have control := answered_control setup.toPackages s n entry.1 reply
      have held := answered_holds setup.toPackages genuine flying present
      exact .inr ⟨kept control, fun whole _ => whole.shorten control (fun _ => mem_erase_or held)
        fun k => mem_answered setup.toPackages⟩
  | again => exact .inr ⟨⟨rfl, rfl⟩, fun whole _ => whole⟩
  | @found n reply entry _ _ present =>
      exact .inr ⟨⟨rfl, rfl⟩, fun whole _ => whole.shorten rfl (fun _ => mem_erase_or present)
        fun _ held => held⟩

/-- Quiet steps keep a waiting block covered. -/
theorem Packages.Quiet.covered {s t : Storage} {a : Action} (quiet : setup.Quiet s a t)
    (mirrors : s.Mirrors setup.toPackages) (covered : s.Covered)
    (undisturbed : setup.Undisturbed s a) : t.Covered := by
  intro busy outside
  rcases quiet.whole mirrors undisturbed.genuine with whole | ⟨⟨sameBusy, sameOutside⟩, keeps⟩
  · exact whole
  · rw [sameBusy] at busy
    rw [sameOutside] at outside
    exact keeps (covered busy outside) fun sweeps => undisturbed.updates sweeps busy outside

/-- Whatever `process_block` is entered with is in the mempool, if the block is whole. -/
theorem Packages.Enters.held_of_whole {s u : Storage} {a : Action} {block : List Bytes}
    (enters : setup.Enters s a block u) (genuine : setup.Genuine s a)
    (whole : s.processingBlock = false → ∀ n reply, a = .answer n reply → s.Completes n reply →
      s.Whole) : ∀ txid ∈ block, txid ∈ u.mempool := by
  cases enters with
  | taken _ _ noMissing =>
      intro txid mem
      have held : txid ∈ s.mempool := by
        simpa using List.filter_eq_nil_iff.mp noMissing txid mem
      exact held
  | @completed n reply entry flying completes =>
      obtain ⟨outside, none, present⟩ := (completes_iff flying).mp completes
      have held : entry.1 ∈ (setup.answered s n entry.1 reply).mempool := by
        refine answered_holds setup.toPackages genuine flying fun noBody => ?_
        cases reply with
        | transaction tx => exact absurd rfl (noBody tx)
        | shownInvalid => exact present
        | notFound => exact present.2
        | failure => exact present.2
      intro txid mem
      rcases whole outside n reply rfl completes txid mem with missing | there
      · have gone := (mem_erase_or held missing).resolve_left
        rw [none] at gone
        exact gone List.not_mem_nil
      · exact mem_answered setup.toPackages there

theorem Packages.Enters.held {s u : Storage} {a : Action} {block : List Bytes}
    (enters : setup.Enters s a block u) (covered : s.Covered)
    (undisturbed : setup.Undisturbed s a) : ∀ txid ∈ block, txid ∈ u.mempool := by
  refine enters.held_of_whole undisturbed.genuine fun outside n reply same completes => ?_
  by_cases busy : s.processing = true
  · exact covered busy outside
  · exact undisturbed.late n reply same completes (by simpa using busy)

/-- What `process_block` leaves of the control state, errback included. -/
theorem Packages.EntersWith.control {pkg : Packages} {s u : Storage} {a : Action}
    {block : List Bytes} (enters : pkg.EntersWith s a block u) :
    (∃ head rest, pkg.perform a s = .ok () (final (pkg.exec a s)) ∧ u.blockQueue = head :: rest ∧
        (final (pkg.exec a s)).control = u.control.finish block head rest) ∨
      (∃ e t, pkg.perform a s = .error e t) ∧ ∃ missingTxns,
        (final (pkg.exec a s)).control = { u.control.enter block with missingTxns } := by
  obtain ⟨performs, ⟨t, run, same⟩ | ⟨e, t, missingTxns, requests, run, same⟩⟩ := enters
  · rw [same, performs]
    rcases processBlock_control pkg block u with
      ⟨t', head, rest, run', queue, control⟩ | ⟨e, t', run', -⟩
    · rw [run] at run'
      cases run'
      exact .inl ⟨head, rest, run, queue, control⟩
    · rw [run] at run'
      cases run'
  · rw [same, performs]
    rcases processBlock_control pkg block u with
      ⟨t', head, rest, run', -, -⟩ | ⟨e', t', run', control⟩
    · rw [run] at run'
      cases run'
    · rw [run] at run'
      cases run'
      refine .inr ⟨⟨e, t, run⟩, missingTxns, ?_⟩
      exact congrArg (fun c : Control => { c with missingTxns }) control

/-- After `process_block` no block waits, unless it raised. -/
theorem Packages.EntersWith.covered {pkg : Packages} {s u : Storage} {a : Action}
    {block : List Bytes} (enters : pkg.EntersWith s a block u) :
    (final (pkg.exec a s)).Covered := by
  rcases enters.control with ⟨head, rest, -, -, control⟩ | ⟨-, missingTxns, control⟩
  · intro busy
    rw [show (final (pkg.exec a s)).processing = false from congrArg Control.processing control]
      at busy
    cases busy
  · intro _ outside
    rw [show (final (pkg.exec a s)).processingBlock = true from
      congrArg Control.processingBlock control] at outside
    cases outside

/-- Quiet steps log nothing but deliveries. -/
theorem Packages.Quiet.blockLog {pkg : Packages} {s t : Storage} {a : Action}
    (quiet : pkg.Quiet s a t) : t.blockLog = s.blockLog ∨
      ∃ block, a = .deliver block ∧ t.blockLog = s.blockLog ++ [.queued block] := by
  have sweeps := (control_steady s.control).updatePend pkg s rfl
  have swept : (final (pkg.updatePend s)).blockLog = s.blockLog := congrArg Control.blockLog sweeps
  cases quiet with
  | waits => exact .inl rfl
  | backsOff => exact .inl rfl
  | asks => exact .inl rfl
  | @delivered block =>
      rw [Packages.addBlockToQueue, bind_apply]
      cases run : pkg.updatePend s with
      | error e u =>
          rw [run] at swept
          exact .inl swept
      | ok _ u =>
          rw [run] at swept
          exact .inr ⟨block, rfl, congrArg (· ++ [BlockEvent.queued block]) swept⟩
  | swept => exact .inl swept
  | @submitted tx =>
      exact .inl (congrArg Control.blockLog (transactionReceived_eq pkg tx 0 (pkg.txid tx) s).2)
  | ended => exact .inl rfl
  | received => exact .inl (congrArg Control.blockLog (answered_control pkg s _ _ _))
  | again => exact .inl rfl
  | found => exact .inl rfl

/-- Quiet steps do not enter `process_block`. -/
theorem Packages.Quiet.entered {pkg : Packages} {s t : Storage} {a : Action}
    (quiet : pkg.Quiet s a t) : enteredIn t.blockLog = enteredIn s.blockLog := by
  rcases quiet.blockLog with same | ⟨block, -, longer⟩
  · rw [same]
  · rw [longer]
    simp [enteredIn]

/-- The log before `process_block` is entered. -/
theorem Packages.Enters.blockLog {pkg : Packages} {s u : Storage} {a : Action} {block : List Bytes}
    (enters : pkg.Enters s a block u) : u.blockLog = s.blockLog := by
  cases enters with
  | taken => rfl
  | completed => exact congrArg Control.blockLog (answered_control pkg s _ _ _)

/-- A transaction that is in the mempool stays there until its turn. -/
theorem held_until_turn {block : List Bytes} {u : Storage} (keyed : u.Keyed pkg)
    (held : ∀ txid ∈ block, txid ∈ u.mempool) (distinct : block.Nodup) {before after : List Bytes}
    {v : Storage} (split : block = before ++ after)
    (run : before.forM pkg.processTxn (u.enter block) = .ok () v) :
    ∀ txid ∈ after, txid ∈ v.mempool := by
  intro txid mem
  have later : txid ∉ before := by
    rw [split] at distinct
    exact fun mem' => (List.nodup_append.mp distinct).2.2 txid mem' txid mem rfl
  have there := held txid (split ▸ List.mem_append_right before mem)
  obtain ⟨same, -⟩ := forM_processTxn_other pkg run keyed later
  rw [Std.ExtTreeMap.mem_iff_isSome_getElem?, same]
  exact Std.ExtTreeMap.mem_iff_isSome_getElem?.mp there

theorem Packages.Enters.keyed {pkg : Packages} {s u : Storage} {a : Action} {block : List Bytes}
    (enters : pkg.Enters s a block u) (keyed : s.Keyed pkg) : u.Keyed pkg := by
  cases enters with
  | taken => exact keyed
  | completed => exact answered_keyed pkg keyed

/-- A waiting block is covered in every run in which it is left undisturbed. -/
theorem Setup.node_covered (free : setup.CollisionFree) {s : Storage}
    (reached : (setup.faultyNode.restrict setup.Undisturbed).Reachable s) : s.Covered := by
  refine reached.invariant ?_ ?_
  · rintro _ rfl busy
    cases busy
  · rintro s a _ before covered ⟨undisturbed, rfl⟩
    rcases exec_cases setup.toPackages s a with ⟨block, u, -, enters⟩ | quiet
    · exact enters.covered
    · exact quiet.covered (Setup.mirrors_of_reachable free before.of_restrict) covered undisturbed

/-- After `process_block` no block is at hand, unless it raised. -/
theorem Packages.EntersWith.whole {pkg : Packages} {s u : Storage} {a : Action}
    {block : List Bytes} (enters : pkg.EntersWith s a block u)
    (outside : (final (pkg.exec a s)).processingBlock = false) : (final (pkg.exec a s)).Whole := by
  rcases enters.control with ⟨head, rest, -, -, control⟩ | ⟨-, missingTxns, control⟩
  · intro txid mem
    rw [show (final (pkg.exec a s)).currentBlock = [] from congrArg Control.currentBlock control]
      at mem
    cases mem
  · rw [show (final (pkg.exec a s)).processingBlock = true from
      congrArg Control.processingBlock control] at outside
    cases outside

/-- The block at hand is whole in every run in which it is spared. -/
theorem Setup.node_whole (free : setup.CollisionFree) {s : Storage}
    (reached : (setup.faultyNode.restrict setup.Spared).Reachable s)
    (outside : s.processingBlock = false) : s.Whole := by
  refine reached.invariant (I := fun s => s.processingBlock = false → s.Whole) ?_ ?_ outside
  · rintro _ rfl _ txid mem
    cases mem
  · rintro s a _ before whole ⟨spared, rfl⟩ outside
    rcases exec_cases setup.toPackages s a with ⟨block, u, -, enters⟩ | quiet
    · exact enters.whole outside
    · rcases quiet.whole (Setup.mirrors_of_reachable free before.of_restrict) spared.genuine with
        fresh | ⟨⟨-, sameOutside⟩, keeps⟩
      · exact fresh
      · rw [sameOutside] at outside
        exact keeps (whole outside) fun sweeps => spared.updates sweeps outside

/-- **The check of `process_block` never fails** in a run in which the block at hand is
spared, whether operations raise or not. A step that enters `process_block` finds every
transaction of the block in the mempool, and if the block names none twice, each is still
there after the turns of those before it. -/
theorem Setup.node_entries (free : setup.CollisionFree) {s : Storage} {a : Action}
    (reached : (setup.faultyNode.restrict setup.Spared).Reachable s)
    (spared : setup.Spared s a) :
    enteredIn (final (setup.exec a s)).blockLog = enteredIn s.blockLog ∨
      ∃ block u, setup.perform a s = setup.processBlock block u ∧
        enteredIn (final (setup.exec a s)).blockLog = enteredIn s.blockLog ++ [block] ∧
        (∀ txid ∈ block, txid ∈ u.mempool) ∧
        (block.Nodup → ∀ before after v, block = before ++ after →
          before.forM setup.processTxn (u.enter block) = .ok () v →
          ∀ txid ∈ after, txid ∈ v.mempool) := by
  rcases exec_cases setup.toPackages s a with ⟨block, u, enters, goes⟩ | quiet
  · have held := enters.held_of_whole spared.genuine fun outside _ _ _ _ =>
      setup.node_whole free reached outside
    have keyed := enters.keyed (Setup.node_fit reached.of_restrict).2
    refine .inr ⟨block, u, goes.1, ?_, held, fun distinct before after v split run =>
      held_until_turn setup.toPackages keyed held distinct split run⟩
    rw [← enters.blockLog]
    rcases goes.control with ⟨head, rest, -, -, control⟩ | ⟨-, missingTxns, control⟩
    · rw [show (final (setup.exec a s)).blockLog = _ from congrArg Control.blockLog control]
      simp [Control.finish, enteredIn, Storage.control]
    · rw [show (final (setup.exec a s)).blockLog = _ from congrArg Control.blockLog control]
      simp [Control.enter, enteredIn, Storage.control]
  · exact .inl quiet.entered

instance (s : Storage) (a : Action) : Decidable (pkg.Genuine s a) :=
  match a with
  | .answer n (.transaction tx) =>
      decidable_of_iff (∀ entry ∈ s.requests[n]?, pkg.txid tx = entry.1) <| by
        constructor
        · rintro genuine n tx entry ⟨⟩ flying
          exact genuine entry flying
        · exact fun genuine entry flying => genuine n tx entry rfl flying
  | .answer _ .notFound => isTrue nofun
  | .answer _ .shownInvalid => isTrue nofun
  | .answer _ .failure => isTrue nofun
  | .deliver _ => isTrue nofun
  | .tryProcess => isTrue nofun
  | .puttxn _ => isTrue nofun
  | .updatePend => isTrue nofun

/-- Answers are genuine and come in time, and nothing is pending. -/
def Storage.Unhurried (s : Storage) (a : Action) : Prop :=
  Ideal.packages.Genuine s a ∧ s.Answering a ∧ s.pend.toList = []

instance (s : Storage) (a : Action) : Decidable (s.Unhurried a) :=
  inferInstanceAs (Decidable (_ ∧ _ ∧ _))

theorem Storage.Unhurried.spared {s : Storage} {a : Action} (unhurried : s.Unhurried a) :
    Ideal.small.Spared s a where
  genuine := unhurried.1
  updates _ _ k txnw pending := by
    have listed := Std.ExtTreeMap.mem_toList_iff_getElem?_eq_some.mpr pending
    rw [unhurried.2.2] at listed
    cases listed

/-- One of two transactions requested has come. -/
def halfAnswered : Storage :=
  Ideal.small.replayFaulty Storage.Unhurried (requestsRun ++ [.answer 0 (.transaction firstPayment)])
    Ideal.small.fresh

theorem node_entries_completed :
    ∃ block u, Ideal.small.perform (.answer 0 (.transaction secondPayment)) halfAnswered =
      Ideal.small.processBlock block u ∧ ∀ txid ∈ block, txid ∈ u.mempool := by
  have reached : (Ideal.small.faultyNode.restrict Ideal.small.Spared).Reachable halfAnswered :=
    (Setup.reachable_replayFaulty (.start rfl) _).weaken fun _ _ => Storage.Unhurried.spared
  have unhurried : halfAnswered.Unhurried (.answer 0 (.transaction secondPayment)) := by
    decide +kernel
  rcases Setup.node_entries Ideal.ideal_collisionFree reached unhurried.spared with
    same | ⟨block, u, enters, -, held, -⟩
  · exact absurd same (by decide +kernel)
  · exact ⟨block, u, enters, held⟩

/-- Blocks name no transaction twice, and a request is answered with the transaction it
asked for, with 0 or with an error. -/
def Packages.Ordinary (s : Storage) (a : Action) : Prop :=
  a.Repeatless ∧ pkg.Genuine s a ∧ ∀ n, a ≠ .answer n .shownInvalid

instance (s : Storage) (a : Action) : Decidable (pkg.Ordinary s a) :=
  have : Decidable (∀ n, a ≠ .answer n .shownInvalid) :=
    match a with
    | .answer n .shownInvalid => isFalse fun other => other n rfl
    | .answer _ (.transaction _) => isTrue nofun
    | .answer _ .notFound => isTrue nofun
    | .answer _ .failure => isTrue nofun
    | .deliver _ => isTrue nofun
    | .tryProcess => isTrue nofun
    | .puttxn _ => isTrue nofun
    | .updatePend => isTrue nofun
  inferInstanceAs (Decidable (_ ∧ _ ∧ _))

/-- A payment that the claim's block names besides. -/
def unheard : Transaction := Ideal.pay [1] 0 0 0

/-- The claim is pending and submitted again. While its second block waits for the
payment, another block is delivered after the timeout, and `update_pend` refuses the
claim. -/
def refusedRun : List Action :=
  [.puttxn htlcClaim, .deliver ⟨0, [Ideal.packages.txid htlcClaim]⟩, .tryProcess,
    .puttxn htlcClaim,
    .deliver ⟨Nat.cast 6, [Ideal.packages.txid htlcClaim, Ideal.packages.txid unheard]⟩] ++
    List.replicate 301 .tryProcess ++ [.deliver ⟨Nat.cast 7, []⟩]

def refusedState : Storage :=
  htlcSetup.replay htlcSetup.Ordinary refusedRun htlcSetup.fresh

/-- **A transaction taken away.** No operation has raised, and the answer completes a
block whose first transaction is no longer there. -/
theorem entry_missing :
    ¬ ∀ s a block u, (htlcSetup.node.restrict htlcSetup.Ordinary).Reachable s →
      htlcSetup.Ordinary s a → htlcSetup.Enters s a block u → block.Nodup →
      ∀ txid ∈ block, txid ∈ u.mempool := by
  intro claim
  have reached : (htlcSetup.node.restrict htlcSetup.Ordinary).Reachable refusedState :=
    Setup.reachable_replay (.start rfl) refusedRun
  have flying : refusedState.requests[0]? = some (Ideal.packages.txid unheard, 1) := by
    decide +kernel
  have completes : refusedState.Completes 0 (.transaction unheard) :=
    (completes_iff flying).mpr ⟨by decide +kernel, by decide +kernel, trivial⟩
  have held := claim _ _ _ _ reached (by decide +kernel) (.completed flying completes)
    (by decide +kernel) (Ideal.packages.txid htlcClaim) (by decide +kernel)
  exact absurd held (by decide +kernel)

end Belcoin
