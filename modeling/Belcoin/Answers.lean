import Belcoin.Life
import Belcoin.Requests

/-!
What a waiting node does with an answer.

A request is answered with the transaction, with 0 or with `None`, for a transaction that
was shown invalid elsewhere. `Setup.Handles` says what `transaction_received` is to do
with each of them, up to the end of the block; `Setup.life_handles` says exactly when it
does. A `None` for a transaction that is not in the mempool is never handled
(`answer_raises`).
-/

namespace Belcoin

open Stateful

variable (pkg : Packages)

/-! ### The turns of a block with refused transactions -/

/-- The turns of `process_block` over a list of ids all return. A transaction in
`refused` counts as rejected, and any other is accepted exactly if it passes. -/
inductive Packages.Judges (refused : List Bytes) : List Bytes → Storage → Storage → Prop where
  | done (s : Storage) : Judges refused [] s s
  | rejected {s t u : Storage} {txid : Bytes} {rest : List Bytes} : txid ∈ refused →
      pkg.processTxn txid s = .ok () t → t.toLedger = s.toLedger → txid ∉ t.mempool →
      Judges refused rest t u → Judges refused (txid :: rest) s u
  | verified {s t u : Storage} {txid : Bytes} {rest : List Bytes} {txn : Transaction} :
      txid ∉ refused → s.mempool[txid]? = some txn → pkg.processTxn txid s = .ok () t →
      (pkg.Accepts s.toLedger txn ∧ t.toLedger = s.toLedger.accept pkg txn ∨
        ¬ pkg.Accepts s.toLedger txn ∧ t.toLedger = s.toLedger) → txid ∉ t.mempool →
      Judges refused rest t u → Judges refused (txid :: rest) s u

/-- No transaction in `refused` is accepted when its turn comes. `o` is the node before
the block. -/
def Packages.Spares (refused : List Bytes) (o : Storage) : List Bytes → Ledger → Prop
  | [], _ => True
  | txid :: rest, ledger => ∀ txn, o.mempool[txid]? = some txn →
      (pkg.Accepts ledger txn →
        txid ∉ refused ∧ Spares refused o rest (ledger.accept pkg txn)) ∧
      (¬ pkg.Accepts ledger txn → Spares refused o rest ledger)

variable {refused : List Bytes}

/-- An acceptance is recorded, so it does not leave the ledger as it was. -/
theorem accept_differs (ledger : Ledger) (txn : Transaction) : ledger.accept pkg txn ≠ ledger := by
  intro same
  have longer : ledger.trace.length < (ledger.accept pkg txn).trace.length := by
    rw [Ledger.accept_trace, List.length_append]
    have grown : ledger.trace.length ≤ (ledger.vacate pkg txn).trace.length := by
      unfold Ledger.vacate
      split <;> simp
    exact Nat.lt_add_one_of_le grown
  rw [same] at longer
  exact lt_irrefl _ longer

/-- Judged turns are the loop of `process_block`. -/
theorem Packages.Judges.run {pkg : Packages} {block : List Bytes} {s u : Storage}
    (judges : pkg.Judges refused block s u) : block.forM pkg.processTxn s = .ok () u := by
  induction judges with
  | done s => rfl
  | rejected _ first _ _ _ ih =>
      rw [forM_cons, bind_apply, first]
      exact ih
  | verified _ _ first _ _ _ ih =>
      rw [forM_cons, bind_apply, first]
      exact ih

/-- **Turns that return are judged turns exactly when `Spares` holds of the block.** -/
theorem judges_of_run {o s u : Storage} {block : List Bytes} (keyed : s.Keyed pkg)
    (same : ∀ txid ∈ block, s.mempool[txid]? = o.mempool[txid]?)
    (run : block.forM pkg.processTxn s = .ok () u) :
    pkg.Judges refused block s u ↔ pkg.Spares refused o block s.toLedger := by
  have distinct := forM_processTxn_distinct pkg keyed run
  induction block generalizing s with
  | nil =>
      cases run
      exact ⟨fun _ => trivial, fun _ => .done _⟩
  | cons txid rest ih =>
      obtain ⟨notAgain, distinct⟩ := List.nodup_cons.mp distinct
      obtain ⟨sameFirst, sameRest⟩ := List.forall_mem_cons.mp same
      rw [forM_cons] at run
      obtain ⟨_, t, first, later⟩ := bind_ok.mp run
      obtain ⟨txn, held⟩ := processTxn_held pkg first
      have keyed' := (keyed_steady pkg).processTxn pkg txid s keyed
      rw [first] at keyed'
      have stays : ∀ k ∈ rest, t.mempool[k]? = o.mempool[k]? := by
        intro k mem
        refine Eq.trans ?_ (sameRest k mem)
        exact (processTxn_other pkg first keyed fun own => notAgain (own ▸ mem)).1
      have next : pkg.Judges refused rest t u ↔ pkg.Spares refused o rest t.toLedger :=
        ih keyed' stays later distinct
      have gone : ∀ {times : Nat}, s.Left t txid times → txid ∉ t.mempool := by
        intro times left
        simp [left.mempool]
      have onlyTurn : ∀ t', pkg.processTxn txid s = .ok () t' → t' = t := by
        intro t' first'
        rw [first] at first'
        cases first'
        rfl
      rw [Packages.Spares, ← sameFirst, held]
      simp only [Option.some.injEq, forall_eq']
      rcases processTxn_left pkg held (keyed _ _ held) first with
        ⟨accepts, -, ledger, left⟩ | ⟨refuses, ledger, left⟩
      · rw [ledger] at next
        simp only [accepts, true_implies, not_true, false_implies, and_true]
        constructor
        · intro judges
          cases judges with
          | rejected _ first' unchanged =>
              cases onlyTurn _ first'
              exact absurd (ledger.symm.trans unchanged) (accept_differs pkg _ _)
          | verified notRefused _ first' _ _ judges =>
              cases onlyTurn _ first'
              exact ⟨notRefused, next.mp judges⟩
        · rintro ⟨notRefused, spares⟩
          exact .verified notRefused held first (.inl ⟨accepts, ledger⟩) (gone left)
            (next.mpr spares)
      · rw [ledger] at next
        simp only [refuses, false_implies, not_false_eq_true, true_implies, true_and]
        constructor
        · intro judges
          cases judges with
          | rejected _ first' _ _ judges =>
              cases onlyTurn _ first'
              exact next.mp judges
          | verified _ _ first' _ _ judges =>
              cases onlyTurn _ first'
              exact next.mp judges
        · intro spares
          by_cases named : txid ∈ refused
          · exact .rejected named first ledger (gone left) (next.mpr spares)
          · exact .verified named held first (.inr ⟨refuses, ledger⟩) (gone left)
              (next.mpr spares)

/-- What is wanted of a node that enters `process_block` with its current block. -/
structure Packages.Processable (refused : List Bytes) (o : Storage) : Prop where
  outside : o.processingBlock = false
  distinct : o.currentBlock.Nodup
  held : ∀ txid ∈ o.currentBlock, txid ∈ o.mempool
  settles : pkg.Settles o o.currentBlock o.toLedger
  spares : pkg.Spares refused o o.currentBlock o.toLedger

/-- **When the turns of a block are judged turns.** -/
theorem judges_iff (free : pkg.CollisionFree) (o : Storage) {s : Storage} {block : List Bytes}
    (kept : s.Kept pkg) (same : ∀ txid ∈ block, s.mempool[txid]? = o.mempool[txid]?) :
    (∃ u, pkg.Judges refused block s u) ↔ block.Nodup ∧ (∀ txid ∈ block, txid ∈ s.mempool) ∧
      pkg.Settles o block s.toLedger ∧ pkg.Spares refused o block s.toLedger := by
  constructor
  · rintro ⟨u, judges⟩
    have distinct := forM_processTxn_distinct pkg kept.keyed judges.run
    have found := forM_processTxn_found pkg kept.keyed judges.run
    have settles := (settles_iff pkg free distinct kept found same).mp ⟨u, judges.run⟩
    exact ⟨distinct, found, settles, (judges_of_run pkg kept.keyed same judges.run).mp judges⟩
  · rintro ⟨distinct, found, settles, spares⟩
    obtain ⟨u, run⟩ := (settles_iff pkg free distinct kept found same).mpr settles
    exact ⟨u, (judges_of_run pkg kept.keyed same run).mpr spares⟩

/-- The block has been processed to the end: every turn was judged, the block is gone,
and the node is idle. -/
def Packages.Concludes (refused block : List Bytes) (s t : Storage) : Prop :=
  ∃ v, pkg.Judges refused block (s.enter block) v ∧ t.toLedger = v.toLedger ∧
    t.blockQueue = s.blockQueue.tail ∧ t.currentBlock = [] ∧ t.processing = false ∧
    t.processingBlock = false

/-- `process_block` concludes a block when its turns are judged turns. -/
theorem processBlock_concludes {block : List Bytes} {s : Storage} (queued : s.blockQueue ≠ []) :
    (∃ t, pkg.processBlock block s = .ok () t ∧ pkg.Concludes refused block s t) ↔
      ∃ v, pkg.Judges refused block (s.enter block) v := by
  obtain ⟨head, rest, queue⟩ := List.exists_cons_of_ne_nil queued
  constructor
  · rintro ⟨t, -, v, judges, -⟩
    exact ⟨v, judges⟩
  · rintro ⟨v, judges⟩
    refine ⟨_, processBlock_of_loop pkg queue judges.run, v, judges, rfl, ?_, rfl, rfl, rfl⟩
    rw [queue]
    rfl

/-! ### Answers -/

/-- The transactions that were answered with `None`, with this answer. -/
def Reply.shown (reply : Reply) (txid : Bytes) (refused : List Bytes) : List Bytes :=
  match reply with
  | .shownInvalid => txid :: refused
  | _ => refused

/-- The node with the transaction of an answer at hand. -/
def Storage.given (s : Storage) (txid : Bytes) (reply : Reply) : Storage :=
  match reply with
  | .transaction tx =>
      if txid ∈ s.mempool then s else { s with mempool := s.mempool.insert txid tx }
  | _ => s

/-- `transaction_received` handles the answer to the `n`th request, the `i`th for `txid`:
it returns; the transaction is not missing any more, or it is requested again as long as
something is missing; and once nothing is, the block has been processed to the end, the
transactions answered with `None` as rejected. -/
def Setup.Handles (setup : Setup) (refused : List Bytes) (s : Storage) (n : Nat) (txid : Bytes)
    (i : Nat) (reply : Reply) : Prop :=
  ∃ t, setup.perform (.answer n reply) s = .ok () t ∧
    (reply ≠ .notFound → txid ∉ t.missingTxns) ∧
    (reply = .notFound → t.missingTxns ≠ [] →
      t.requests = s.requests.eraseIdx n ++ [(txid, i + 1)]) ∧
    (t.missingTxns = [] → setup.Concludes (reply.shown txid refused) s.currentBlock
      (setup.answered s n txid reply) t)

/-- What the code wants of an answer: the transaction answered with `None` is in the
mempool, a transaction is not listed as missing twice, and if the answer is the last one
the block can be processed. -/
structure Setup.Answerable (setup : Setup) (refused : List Bytes) (s : Storage) (txid : Bytes)
    (i : Nat) (reply : Reply) : Prop where
  held : reply = .shownInvalid → txid ∈ s.mempool
  once : reply ≠ .notFound → txid ∉ s.missingTxns.erase txid
  last : s.missingTxns.erase txid = [] → (reply = .notFound → i % 5 = 0 ∧ txid ∈ s.mempool) →
    setup.Processable (reply.shown txid refused) (s.given txid reply)

/-- Nothing but the mempool has changed. -/
theorem given_frame {α : Type} (part : Storage → α)
    (apart : ∀ u mempool, part { u with mempool } = part u) (s : Storage) (txid : Bytes)
    (reply : Reply) : part (s.given txid reply) = part s := by
  cases reply with
  | transaction tx =>
      rw [Storage.given]
      split
      · rfl
      · exact apart _ _
  | _ => rfl

/-- The mempool is the one the answer leaves. -/
theorem given_mempool {s : Storage} {n : Nat} {txid : Bytes} {reply : Reply}
    (own : ∀ tx, reply = .transaction tx → pkg.txid tx = txid) :
    (s.given txid reply).mempool = (pkg.answered s n txid reply).mempool := by
  cases reply with
  | transaction tx =>
      have answered : (pkg.answered s n txid (.transaction tx)).mempool =
          (final (pkg.addMissing txid tx { s with requests := s.requests.eraseIdx n })).mempool :=
        rfl
      rw [Storage.given, answered]
      rcases addMissing_cases pkg txid tx { s with requests := s.requests.eraseIdx n } with
        ⟨present, run⟩ | ⟨absent, run⟩
      · rw [run, if_pos present]
        rfl
      · rw [run, if_neg absent, ← own tx rfl]
        rfl
  | _ => rfl

variable {setup : Setup}

/-! ### What holds of a waiting node -/

/-- The databases and the mempool keep transactions under their ids. -/
theorem Setup.life_kept {s : Storage} (reached : setup.life.Reachable s) :
    s.Kept setup.toPackages := by
  obtain ⟨dbKeyed, fit⟩ := setup.life_entries reached
  refine ⟨?_, fit, dbKeyed⟩
  refine reached.invariant (I := Storage.Keyed setup.toPackages) ?_ ?_
  · rintro _ rfl
    exact setup.fresh_keyed
  · rintro s event t _ keyed step
    cases event with
    | act a =>
        cases step
        exact exec_keyed setup.toPackages a keyed
    | restart =>
        cases step
        exact keyed

/-- What is missing does not matter for it. -/
theorem Storage.atHead_of_control {s t : Storage} {missing : List Bytes}
    (held : s.processing = true → s.AtHead)
    (control : t.control = { s.control with missingTxns := missing }) :
    t.processing = true → t.AtHead := by
  simp only [Storage.control, Control.mk.injEq] at control
  obtain ⟨queue, current, -, busy, -⟩ := control
  rw [busy, Storage.AtHead, queue, current]
  exact held

/-- Quiet steps leave a busy node at the head of its queue. -/
theorem Packages.Quiet.atHead {s t : Storage} {a : Action} (quiet : setup.Quiet s a t)
    (held : s.processing = true → s.AtHead) : t.processing = true → t.AtHead := by
  have swept := (control_steady s.control).updatePend setup.toPackages s rfl
  cases quiet with
  | waits => exact held
  | backsOff => exact nofun
  | asks _ queue => exact fun _ => ⟨_, _, queue, rfl⟩
  | @delivered block =>
      refine final_bind (I := fun t : Storage => t.processing = true → t.AtHead)
        (Storage.atHead_of_control held swept) fun _ u _ kept busy => ?_
      obtain ⟨head, rest, queue, current⟩ := kept busy
      exact ⟨head, rest ++ [block], by simp [queue], current⟩
  | swept => exact Storage.atHead_of_control held swept
  | @submitted tx =>
      exact Storage.atHead_of_control held
        (transactionReceived_eq setup.toPackages tx 0 (setup.txid tx) s).2
  | ended => exact held
  | received => exact Storage.atHead_of_control held (answered_control _ s _ _ _)
  | again => exact held
  | found => exact held

/-- **A busy node works on the head of its queue.** -/
theorem Setup.life_atHead {s : Storage} (reached : setup.life.Reachable s) :
    s.processing = true → s.AtHead := by
  refine reached.invariant (I := fun s => s.processing = true → s.AtHead) ?_ ?_
  · rintro _ rfl busy
    cases busy
  · rintro s event t _ held step
    cases event with
    | restart =>
        cases step
        exact nofun
    | act a =>
        cases step
        rcases exec_cases setup.toPackages s a with ⟨block, u, enters, goes⟩ | quiet
        · have entered : u.processing = true → u.AtHead := by
            cases enters with
            | taken _ queue => exact fun _ => ⟨_, _, queue, rfl⟩
            | completed => exact Storage.atHead_of_control held (answered_control _ s _ _ _)
          rcases goes.control with ⟨head, rest, -, -, control⟩ | ⟨-, missingTxns, control⟩
          · rw [show (final (setup.exec a s)).processing = false from
              congrArg Control.processing control]
            exact nofun
          · simp only [Storage.control, Control.enter, Control.mk.injEq] at control
            obtain ⟨queue, current, -, busy, -⟩ := control
            rw [busy, Storage.AtHead, queue, current]
            exact entered
        · exact quiet.atHead held

/-! ### The answers of a waiting node -/

/-- What is wanted of the node, read off the state before the answer. -/
theorem processable_iff (free : setup.CollisionFree) {s : Storage} {n : Nat} {txid : Bytes}
    {reply : Reply} (kept : s.Kept setup.toPackages)
    (own : ∀ tx, reply = .transaction tx → setup.txid tx = txid)
    (outside : s.processingBlock = false) :
    setup.Processable refused (s.given txid reply) ↔ ∃ v, setup.Judges refused s.currentBlock
      ((setup.answered s n txid reply).enter s.currentBlock) v := by
  have ledger := answered_ledger setup.toPackages s n txid reply
  have mempool := @given_mempool setup.toPackages s n txid reply own
  have keyed := @answered_keyed setup.toPackages s n txid reply kept.keyed
  have sameDb : (setup.answered s n txid reply).db = s.db := congrArg Ledger.db ledger
  have keptEntered : ((setup.answered s n txid reply).enter s.currentBlock).Kept
      setup.toPackages := ⟨keyed, sameDb ▸ kept.fit, sameDb ▸ kept.dbKeyed⟩
  have sameLedger : ((setup.answered s n txid reply).enter s.currentBlock).toLedger =
      (s.given txid reply).toLedger :=
    ledger.trans (given_frame Storage.toLedger (fun _ _ => rfl) s txid reply).symm
  have sameBlock : (s.given txid reply).currentBlock = s.currentBlock :=
    given_frame Storage.currentBlock (fun _ _ => rfl) s txid reply
  have sameOutside : (s.given txid reply).processingBlock = s.processingBlock :=
    given_frame Storage.processingBlock (fun _ _ => rfl) s txid reply
  rw [judges_iff setup.toPackages free (s.given txid reply) keptEntered
    fun k _ => by rw [mempool]; rfl, sameLedger]
  constructor
  · rintro ⟨-, distinct, held, settles, spares⟩
    rw [sameBlock] at distinct held settles spares
    rw [mempool] at held
    exact ⟨distinct, held, settles, spares⟩
  · rintro ⟨distinct, held, settles, spares⟩
    refine ⟨sameOutside.trans outside, ?_, ?_, ?_, ?_⟩ <;> rw [sameBlock]
    · exact distinct
    · rw [mempool]
      exact held
    · exact settles
    · exact spares

/-- A last answer is handled exactly when the block can be processed. -/
theorem Setup.handles_of_process (free : setup.CollisionFree) {s : Storage} {n : Nat}
    {txid : Bytes} {i : Nat} {reply : Reply} (kept : s.Kept setup.toPackages) (atHead : s.AtHead)
    (own : ∀ tx, reply = .transaction tx → setup.txid tx = txid)
    (none : s.missingTxns.erase txid = []) (outside : s.processingBlock = false)
    (enters : setup.perform (.answer n reply) s =
      setup.processBlock s.currentBlock (setup.answered s n txid reply)) :
    setup.Handles refused s n txid i reply ↔
      setup.Processable (reply.shown txid refused) (s.given txid reply) := by
  have control := answered_control setup.toPackages s n txid reply
  have queued : (setup.answered s n txid reply).blockQueue ≠ [] := by
    obtain ⟨head, rest, queue, -⟩ := atHead
    rw [show (setup.answered s n txid reply).blockQueue = s.blockQueue from
      congrArg Control.blockQueue control, queue]
    exact List.cons_ne_nil head rest
  have noneLeft : ∀ t, setup.processBlock s.currentBlock (setup.answered s n txid reply) =
      .ok () t → t.missingTxns = [] := by
    intro t run
    rcases processBlock_control setup.toPackages s.currentBlock
        (setup.answered s n txid reply) with
      ⟨t', head, rest, run', -, control'⟩ | ⟨e, t', run', -⟩
    · rw [run] at run'
      cases run'
      rw [control] at control'
      exact (congrArg Control.missingTxns control').trans none
    · rw [run] at run'
      cases run'
  rw [processable_iff free kept own outside, ← processBlock_concludes setup.toPackages queued,
    Setup.Handles, enters]
  constructor
  · rintro ⟨t, run, -, -, ends⟩
    exact ⟨t, run, ends (noneLeft t run)⟩
  · rintro ⟨t, run, concludes⟩
    refine ⟨t, run, ?_, fun _ some => absurd (noneLeft t run) some, fun _ => concludes⟩
    intro _
    rw [noneLeft t run]
    exact List.not_mem_nil

/-- An answer after which the node still works on its block is handled if something of
it is missing, and the transaction of the answer is not, or requested again. -/
theorem Setup.handles_of_returns {s t : Storage} {n : Nat} {txid : Bytes} {i : Nat} {reply : Reply}
    (returns : setup.perform (.answer n reply) s = .ok () t) (busy : t.processing = true) :
    setup.Handles refused s n txid i reply ↔ t.missingTxns ≠ [] ∧
      (reply ≠ .notFound → txid ∉ t.missingTxns) ∧
      (reply = .notFound → t.requests = s.requests.eraseIdx n ++ [(txid, i + 1)]) := by
  constructor
  · rintro ⟨t', run, gone, again, ends⟩
    rw [returns] at run
    cases run
    have some : t.missingTxns ≠ [] := by
      intro none
      obtain ⟨v, -, -, -, -, idle, -⟩ := ends none
      rw [busy] at idle
      cases idle
    exact ⟨some, gone, fun notFound => again notFound some⟩
  · rintro ⟨some, gone, again⟩
    exact ⟨t, returns, gone, fun notFound _ => again notFound, fun none => absurd none some⟩

/-- A waiting node, one of whose requests is answered. -/
structure Setup.Awaits (setup : Setup) (s : Storage) (n : Nat) (txid : Bytes) (i : Nat)
    (reply : Reply) : Prop where
  flying : s.requests[n]? = some (txid, i)
  missing : txid ∈ s.missingTxns
  busy : s.processing = true
  own : ∀ tx, reply = .transaction tx → setup.txid tx = txid

/-- An answer that is taken as the transaction. -/
theorem Setup.handles_received (free : setup.CollisionFree) {s t : Storage} {n : Nat}
    {txid : Bytes} {i : Nat} {reply : Reply} (kept : s.Kept setup.toPackages) (atHead : s.AtHead)
    (awaits : setup.Awaits s n txid i reply) (positive : reply ≠ .notFound)
    (receives : setup.requestAnswered reply i txid { s with requests := s.requests.eraseIdx n } =
      Packages.transactionReceived.received setup.toPackages txid t)
    (control : t.control = s.control)
    (sameState : setup.answered s n txid reply =
      { t with missingTxns := t.missingTxns.erase txid }) :
    setup.Handles refused s n txid i reply ↔ txid ∉ s.missingTxns.erase txid ∧
      (s.missingTxns.erase txid = [] →
        setup.Processable (reply.shown txid refused) (s.given txid reply)) := by
  have performs : setup.perform (.answer n reply) s =
      Packages.transactionReceived.received setup.toPackages txid t :=
    (withRequest_some awaits.flying).trans receives
  have sameMissing : t.missingTxns = s.missingTxns := congrArg Control.missingTxns control
  have sameOutside : t.processingBlock = s.processingBlock :=
    congrArg Control.processingBlock control
  have sameBlock : t.currentBlock = s.currentBlock := congrArg Control.currentBlock control
  have sameBusy : t.processing = s.processing := congrArg Control.processing control
  rcases received_cases setup.toPackages txid t with ⟨none, outside, enters⟩ | ⟨some, returns⟩
  · rw [← sameState, sameBlock] at enters
    rw [sameMissing] at none
    rw [setup.handles_of_process free kept atHead awaits.own none (sameOutside ▸ outside)
      (performs.trans enters), none]
    exact ⟨fun processable => ⟨List.not_mem_nil, fun _ => processable⟩, fun both => both.2 rfl⟩
  · rw [sameMissing, sameOutside] at some
    rw [setup.handles_of_returns (performs.trans returns) (sameBusy.trans awaits.busy)]
    change t.missingTxns.erase txid ≠ [] ∧ (_ → txid ∉ t.missingTxns.erase txid) ∧ _ ↔ _
    rw [sameMissing]
    constructor
    · rintro ⟨others, gone, -⟩
      exact ⟨gone positive, fun none => absurd none others⟩
    · rintro ⟨gone, last⟩
      refine ⟨?_, fun _ => gone, fun notFound => absurd notFound positive⟩
      intro none
      have outside := (last none).outside
      rw [given_frame Storage.processingBlock (fun _ _ => rfl), some none] at outside
      cases outside

/-- `add_to_mempool(None)` raises. -/
theorem shownInvalid_raises {s : Storage} {n : Nat} {txid : Bytes} {i : Nat}
    (flying : s.requests[n]? = some (txid, i)) (absent : txid ∉ s.mempool) :
    pkg.perform (.answer n .shownInvalid) s =
      .error .attributeError { s with requests := s.requests.eraseIdx n } := by
  refine (withRequest_some flying).trans ?_
  change pkg.transactionReceived .shownInvalid i txid { s with
    requests := s.requests.eraseIdx n } = _
  rw [Packages.transactionReceived, get_bind, if_pos absent]
  rfl

/-- An answer 0. -/
theorem Setup.handles_notFound (free : setup.CollisionFree) {s : Storage} {n : Nat}
    {txid : Bytes} {i : Nat} (kept : s.Kept setup.toPackages) (atHead : s.AtHead)
    (awaits : setup.Awaits s n txid i .notFound) :
    setup.Handles refused s n txid i .notFound ↔
      (s.missingTxns.erase txid = [] → i % 5 = 0 ∧ txid ∈ s.mempool →
        setup.Processable refused s) := by
  let t := { s with requests := s.requests.eraseIdx n }
  have performs : setup.perform (.answer n .notFound) s =
      setup.requestMissingTransaction txid i t := withRequest_some awaits.flying
  rcases requestMissing_cases setup.toPackages txid i t with
    ⟨present, none, outside, enters⟩ | ⟨present, some, again⟩ | ⟨absent, again⟩
  · rw [setup.handles_of_process free kept atHead awaits.own none outside (performs.trans enters)]
    exact ⟨fun processable _ _ => processable, fun last => last none present⟩
  · rw [setup.handles_of_returns (performs.trans again) awaits.busy]
    constructor
    · rintro ⟨others, -⟩ none
      exact absurd none others
    · intro last
      refine ⟨fun none => ?_, fun positive => absurd rfl positive, fun _ => rfl⟩
      have outside := (last none present).outside
      rw [show s.processingBlock = true from some none] at outside
      cases outside
  · rw [setup.handles_of_returns (performs.trans again) awaits.busy]
    constructor
    · intro _ _ present
      exact absurd present absent
    · intro _
      refine ⟨fun none => ?_, fun positive => absurd rfl positive, fun _ => rfl⟩
      have missing : txid ∈ s.missingTxns := awaits.missing
      rw [show s.missingTxns = [] from none] at missing
      cases missing

/-- **Which answers are handled.** A waiting node handles an answer for a missing
transaction exactly if: a `None` is about a transaction that the mempool holds all the
same; the transaction is not listed as missing twice; and if the answer is the last one,
the node is outside of `process_block`, the transactions of the block are there, and can
be settled, none of those answered with `None` being accepted. `refused` are the
transactions answered with `None` before. -/
theorem Setup.life_handles (free : setup.CollisionFree) {s : Storage}
    (reached : setup.life.Reachable s) (refused : List Bytes) {n : Nat} {txid : Bytes} {i : Nat}
    {reply : Reply} (answers : reply ≠ .failure) (awaits : setup.Awaits s n txid i reply) :
    setup.Handles refused s n txid i reply ↔ setup.Answerable refused s txid i reply := by
  have kept := setup.life_kept reached
  have atHead := setup.life_atHead reached awaits.busy
  let t := { s with requests := s.requests.eraseIdx n }
  cases reply with
  | failure => exact absurd rfl answers
  | notFound =>
      rw [setup.handles_notFound free kept atHead awaits]
      constructor
      · intro last
        refine ⟨?_, fun positive => absurd rfl positive, fun none fifth => last none (fifth rfl)⟩
        intro other
        cases other
      · intro answerable none fifth
        exact answerable.last none fun _ => fifth
  | shownInvalid =>
      have positive : Reply.shownInvalid ≠ .notFound := by simp
      by_cases absent : txid ∉ s.mempool
      · constructor
        · rintro ⟨u, run, -⟩
          rw [shownInvalid_raises setup.toPackages awaits.flying absent] at run
          cases run
        · intro answerable
          exact absurd (answerable.held rfl) absent
      · have receives : setup.requestAnswered .shownInvalid i txid t =
            Packages.transactionReceived.received setup.toPackages txid t := by
          change setup.transactionReceived .shownInvalid i txid t = _
          rw [Packages.transactionReceived, get_bind, if_neg absent]
        rw [setup.handles_received free kept atHead awaits positive receives rfl rfl]
        constructor
        · rintro ⟨once, last⟩
          exact ⟨fun _ => not_not.mp absent, fun _ => once, fun none _ => last none⟩
        · intro answerable
          refine ⟨answerable.once positive, ?_⟩
          intro none
          exact answerable.last none fun zero => absurd zero positive
  | transaction tx =>
      have positive : Reply.transaction tx ≠ .notFound := by simp
      obtain ⟨receives, control⟩ := transactionReceived_eq setup.toPackages tx i txid t
      rw [setup.handles_received free kept atHead awaits positive receives control rfl]
      constructor
      · rintro ⟨once, last⟩
        refine ⟨?_, fun _ => once, fun none _ => last none⟩
        intro other
        cases other
      · intro answerable
        refine ⟨answerable.once positive, ?_⟩
        intro none
        exact answerable.last none fun zero => absurd zero positive

/-- If no transaction was answered with `None`, none of them is accepted. -/
theorem spares_nil (o : Storage) (block : List Bytes) (ledger : Ledger) :
    pkg.Spares [] o block ledger := by
  induction block generalizing ledger with
  | nil => trivial
  | cons txid rest ih =>
      intro txn _
      exact ⟨fun _ => ⟨List.not_mem_nil, ih _⟩, fun _ => ih _⟩

/-- Transactions that spend something, and no dummy, can be settled at every turn. -/
theorem settles_of_spending {o : Storage} {block : List Bytes}
    (spending : ∀ txid ∈ block, ∀ txn, o.mempool[txid]? = some txn →
      pkg.realInputs txn ≠ [] ∧ ∀ inp ∈ txn.inputs, inp.txid ≠ pkg.noHash) (ledger : Ledger) :
    pkg.Settles o block ledger := by
  induction block generalizing ledger with
  | nil => trivial
  | cons txid rest ih =>
      obtain ⟨first, spending⟩ := List.forall_mem_cons.mp spending
      intro txn held
      obtain ⟨real, noDummy⟩ := first txn held
      exact ⟨fun _ => ⟨noDummy, ih spending _⟩,
        fun _ => ⟨fun unbound => real unbound.unreal, ih spending _⟩⟩

/-- A transaction is handled if no other was answered with `None` and all of the block
spend something. -/
theorem Setup.Answerable.of_spending {s : Storage} {txid : Bytes} {i : Nat} {tx : Transaction}
    (once : txid ∉ s.missingTxns.erase txid) (outside : s.processingBlock = false)
    (distinct : s.currentBlock.Nodup)
    (held : ∀ k ∈ s.currentBlock, k ∈ (s.given txid (.transaction tx)).mempool)
    (spending : ∀ entry ∈ (s.given txid (.transaction tx)).mempool.toList,
      setup.realInputs entry.2 ≠ [] ∧ ∀ inp ∈ entry.2.inputs, inp.txid ≠ setup.noHash) :
    setup.Answerable [] s txid i (.transaction tx) where
  held := nofun
  once _ := once
  last _ _ := by
    have sameBlock : (s.given txid (.transaction tx)).currentBlock = s.currentBlock :=
      given_frame Storage.currentBlock (fun _ _ => rfl) s txid _
    refine ⟨?_, ?_, ?_, ?_, spares_nil setup.toPackages _ _ _⟩
    · exact (given_frame Storage.processingBlock (fun _ _ => rfl) s txid _).trans outside
    · rw [sameBlock]
      exact distinct
    · rw [sameBlock]
      exact held
    · refine settles_of_spending setup.toPackages (fun k _ txn found => ?_) _
      exact spending (k, txn) (Std.ExtTreeMap.mem_toList_iff_getElem?_eq_some.mpr found)

/-- The second of two payments completes the block. -/
theorem life_handles_payment : Ideal.small.Handles [] halfAnswered 0
    (Ideal.packages.txid secondPayment) 1 (.transaction secondPayment) := by
  have reached : Ideal.small.life.Reachable halfAnswered :=
    Setup.life_of_faulty (Setup.reachable_replayFaulty (.start rfl) _).of_restrict
  have awaits : Ideal.small.Awaits halfAnswered 0 (Ideal.packages.txid secondPayment) 1
      (.transaction secondPayment) :=
    ⟨by decide +kernel, by decide +kernel, by decide +kernel,
      fun _ same => congrArg Ideal.packages.txid (Reply.transaction.inj same).symm⟩
  refine (Setup.life_handles Ideal.ideal_collisionFree reached [] (by simp) awaits).mpr ?_
  exact .of_spending (by decide +kernel) (by decide +kernel) (by decide +kernel)
    (by decide +kernel) (by decide +kernel)

/-- **A `None` that is not handled.** The payment was shown invalid elsewhere, and
`add_to_mempool(None)` raises. -/
theorem answer_raises :
    ¬ ∀ s n txid i reply, Ideal.small.life.Reachable s → reply ≠ .failure →
      Ideal.small.Awaits s n txid i reply → Ideal.small.Handles [] s n txid i reply := by
  intro claim
  have reached : Ideal.small.life.Reachable requested :=
    Setup.life_of_faulty (Setup.reachable_replayFaulty (.start rfl) _).of_restrict
  have awaits : Ideal.small.Awaits requested 0 (Ideal.packages.txid firstPayment) 1 .shownInvalid :=
    ⟨by decide +kernel, by decide +kernel, by decide +kernel, fun tx same => by cases same⟩
  obtain ⟨t, run, -⟩ := claim _ _ _ _ _ reached (by simp) awaits
  rw [shownInvalid_raises Ideal.small.toPackages awaits.flying (by decide +kernel)] at run
  cases run

end Belcoin
