import Belcoin.Waiting

/-!
What a waiting node waits for.

`try_process` is not run again while `processing` is set, so a node that waits must
have all it waits for on its way. `Storage.Attentive` is the invariant: the node is
outside of `process_block`, and it either waits for nothing or has a request in flight
for each missing transaction (`node_waits`). Answers to these requests are then enough
to enter `process_block` (`Attentive.answered`).
-/

namespace Belcoin

open Stateful

variable (pkg : Packages)

/-! ### Turns that return -/

/-- Every transaction of a block can be settled when its turn comes. `o` is the node
before the block. -/
def Packages.Settles (o : Storage) : List Bytes → Ledger → Prop
  | [], _ => True
  | txid :: rest, ledger => ∀ txn, o.mempool[txid]? = some txn →
      (pkg.Accepts ledger txn → (∀ inp ∈ txn.inputs, inp.txid ≠ pkg.noHash) ∧
        Settles o rest (ledger.accept pkg txn)) ∧
      (¬ pkg.Accepts ledger txn → ¬ pkg.Unbound ledger txn ∧ Settles o rest ledger)

/-- A node whose databases keep transactions under their ids. -/
structure Storage.Kept (s : Storage) : Prop where
  keyed : s.Keyed pkg
  fit : BitmapsFit s.db
  dbKeyed : ∀ (k : Bytes) (txnw : TxnWrapper), s.db[k]? = some txnw → pkg.txid txnw.txn = k

theorem Storage.Kept.noDummy {pkg : Packages} (free : pkg.CollisionFree) {s : Storage}
    (kept : s.Kept pkg) : pkg.noHash ∉ s.db := by
  intro mem
  obtain ⟨txnw, held⟩ := Option.isSome_iff_exists.mp (Std.ExtTreeMap.mem_iff_isSome_getElem?.mp mem)
  exact free.txid_ne_noHash _ (kept.dbKeyed _ _ held)

theorem Storage.Kept.processTxn {pkg : Packages} (txid : Bytes) :
    Sustains (fun s => s.Kept pkg) (pkg.processTxn txid) := fun s kept =>
  ⟨(keyed_steady pkg).processTxn pkg txid s kept.keyed,
    (fit_persistent pkg).processTxn txid s kept.fit,
    (keyed_persistent pkg).processTxn txid s kept.dbKeyed⟩

/-- **The turns of a block all return exactly when `Settles` holds of it.** -/
theorem settles_iff (free : pkg.CollisionFree) {o s : Storage} {block : List Bytes}
    (distinct : block.Nodup) (kept : s.Kept pkg) (held : ∀ txid ∈ block, txid ∈ s.mempool)
    (same : ∀ txid ∈ block, s.mempool[txid]? = o.mempool[txid]?) :
    (∃ u, block.forM pkg.processTxn s = .ok () u) ↔ pkg.Settles o block s.toLedger := by
  induction block generalizing s with
  | nil => exact ⟨fun _ => trivial, fun _ => ⟨s, rfl⟩⟩
  | cons txid rest ih =>
      obtain ⟨notAgain, distinct⟩ := List.nodup_cons.mp distinct
      obtain ⟨here, heldRest⟩ := List.forall_mem_cons.mp held
      obtain ⟨sameMempool, sameRest⟩ := List.forall_mem_cons.mp same
      obtain ⟨txn, held'⟩ := Option.isSome_iff_exists.mp
        (Std.ExtTreeMap.mem_iff_isSome_getElem?.mp here)
      have own : pkg.txid txn = txid := kept.keyed txid txn held'
      have returns := processTxn_returns pkg held' kept.fit (kept.noDummy free)
      -- what the induction needs of the state after the turn
      have next : ∀ {t : Storage}, pkg.processTxn txid s = .ok () t →
          ((∃ u, (txid :: rest).forM pkg.processTxn s = .ok () u) ↔
            pkg.Settles o rest t.toLedger) := by
        intro t run
        have kept' := Storage.Kept.processTxn txid s kept
        rw [run] at kept'
        have stays : ∀ k ∈ rest, t.mempool[k]? = s.mempool[k]? := by
          intro k mem
          exact (processTxn_other pkg run kept.keyed fun own => notAgain (own ▸ mem)).1
        refine Iff.trans ?_ (ih distinct kept' (fun k mem => ?_) fun k mem =>
          (stays k mem).trans (sameRest k mem))
        · rw [forM_cons]
          constructor
          · rintro ⟨u, both⟩
            obtain ⟨_, t', first, later⟩ := bind_ok.mp both
            rw [run] at first
            cases first
            exact ⟨u, later⟩
          · exact fun ⟨u, later⟩ => ⟨u, bind_ok.mpr ⟨(), t, run, later⟩⟩
        · rw [Std.ExtTreeMap.mem_iff_isSome_getElem?, stays k mem]
          exact Std.ExtTreeMap.mem_iff_isSome_getElem?.mp (heldRest k mem)
      rw [Packages.Settles, ← sameMempool, held']
      simp only [Option.some.injEq, forall_eq']
      by_cases returned : ∃ t, pkg.processTxn txid s = .ok () t
      · obtain ⟨t, run⟩ := returned
        have passes := returns.mp ⟨t, run⟩
        rw [next run]
        rcases processTxn_left pkg held' own run with
          ⟨accepts, -, sameLedger, -⟩ | ⟨refused, sameLedger, -⟩
        · rw [sameLedger]
          exact ⟨fun settles => ⟨fun _ => ⟨passes.1 accepts, settles⟩,
            fun refused => absurd accepts refused⟩, fun both => (both.1 accepts).2⟩
        · rw [sameLedger]
          exact ⟨fun settles => ⟨fun accepts => absurd accepts refused,
            fun _ => ⟨passes.2 refused, settles⟩⟩, fun both => (both.2 refused).2⟩
      · constructor
        · rintro ⟨u, run⟩
          rw [forM_cons] at run
          obtain ⟨_, t, first, -⟩ := bind_ok.mp run
          exact absurd ⟨t, first⟩ returned
        · rintro ⟨accepted, refused⟩
          refine absurd (returns.mpr ⟨fun accepts => ?_, fun not => ?_⟩) returned
          · exact (accepted accepts).1
          · exact (refused not).1

/-! ### The invariant -/

/-- Every missing transaction has a request in flight. -/
def Storage.Asked (s : Storage) : Prop := ∀ txid ∈ s.missingTxns, ∃ i, (txid, i) ∈ s.requests

/-- The node works on the head of its queue. -/
def Storage.AtHead (s : Storage) : Prop :=
  ∃ head rest, s.blockQueue = head :: rest ∧ s.currentBlock = head.txns

/-- A node between two steps: it is not inside `process_block`, and it waits for nothing,
backs off from the block at the head, or has requested what is missing of it. -/
structure Storage.Attentive (s : Storage) : Prop where
  outside : s.processingBlock = false
  repeatless : ∀ block ∈ s.blockQueue, block.txns.Nodup
  distinct : s.missingTxns.Nodup
  idle : s.processing = false → s.missingTxns = [] → s.currentBlock = []
  atHead : s.processing = true ∨ s.missingTxns ≠ [] → s.AtHead
  waiting : s.processing = true → s.missingTxns ≠ [] ∧ s.Asked

/-- Beyond leaving waiting blocks undisturbed: blocks name no transaction twice, no
answer completes the empty list while no block is queued, and the transactions of a
block that is entered can be settled, none of them being accepted with a dummy input. -/
structure Setup.Attended (setup : Setup) (s : Storage) (a : Action) : Prop
    extends setup.Undisturbed s a where
  repeatless : a.Repeatless
  queued : ∀ n reply, a = .answer n reply → s.Completes n reply → s.missingTxns = [] →
    s.blockQueue ≠ []
  settles : ∀ block u, setup.Enters s a block u → setup.Settles u block u.toLedger

/-- A block may be queued. -/
theorem Storage.Attentive.queue {s : Storage} (attentive : s.Attentive) {block : Block}
    (repeatless : block.txns.Nodup) (log : List BlockEvent) :
    { s with blockQueue := s.blockQueue ++ [block], blockLog := log }.Attentive where
  outside := attentive.outside
  repeatless queued mem := by
    rcases List.mem_append.mp mem with old | new
    · exact attentive.repeatless queued old
    · rw [List.mem_singleton.mp new]
      exact repeatless
  distinct := attentive.distinct
  idle := attentive.idle
  atHead busy := by
    obtain ⟨head, rest, queue, current⟩ := attentive.atHead busy
    exact ⟨head, rest ++ [block], by simp [queue], current⟩
  waiting := attentive.waiting

/-- The invariant reads the control state and the requests. -/
theorem Storage.Attentive.of_control {s t : Storage} (attentive : s.Attentive)
    (control : t.control = s.control) (requests : t.requests = s.requests) : t.Attentive := by
  simp only [Storage.control, Control.mk.injEq] at control
  obtain ⟨queue, current, missing, busy, outside, -⟩ := control
  refine ⟨outside ▸ attentive.outside, queue ▸ attentive.repeatless, missing ▸ attentive.distinct,
    ?_, ?_, ?_⟩
  · rw [busy, missing, current]
    exact attentive.idle
  · rw [busy, missing, Storage.AtHead, queue, current]
    exact attentive.atHead
  · rw [busy, Storage.Asked, missing, requests]
    exact attentive.waiting

/-- A request in flight is the one that ends, or stays in flight. -/
theorem mem_eraseIdx_or {requests : List (Bytes × Nat)} {n : Nat} {entry other : Bytes × Nat}
    (flying : requests[n]? = some entry) (asked : other ∈ requests) :
    other = entry ∨ other ∈ requests.eraseIdx n := by
  obtain ⟨m, at_m⟩ := List.mem_iff_getElem?.mp asked
  by_cases same : m = n
  · rw [same, flying] at at_m
    exact .inl (Option.some.inj at_m).symm
  · exact .inr (List.mem_eraseIdx_iff_getElem?.mpr ⟨m, same, at_m⟩)

/-- A request ends, and its transaction stops being missing. -/
theorem Storage.Attentive.end {s : Storage} (attentive : s.Attentive) {n : Nat}
    {entry : Bytes × Nat} (flying : s.requests[n]? = some entry)
    (some : s.missingTxns.erase entry.1 = [] → s.processingBlock = true)
    {t : Storage} (control : t.control = { s.control with missingTxns := s.missingTxns.erase entry.1 })
    (requests : ∀ other ∈ s.requests.eraseIdx n, other ∈ t.requests) : t.Attentive := by
  have others : s.missingTxns.erase entry.1 ≠ [] := by
    intro none
    have inside := some none
    rw [attentive.outside] at inside
    cases inside
  have nonempty : s.missingTxns ≠ [] := fun none => others (by rw [none]; rfl)
  simp only [Storage.control, Control.mk.injEq] at control
  obtain ⟨queue, current, missing, busy, outside, -⟩ := control
  refine ⟨outside ▸ attentive.outside, queue ▸ attentive.repeatless,
    missing ▸ attentive.distinct.erase _, ?_, ?_, ?_⟩
  · rw [missing]
    exact fun _ none => absurd none others
  · rw [Storage.AtHead, queue, current]
    exact fun _ => attentive.atHead (.inr nonempty)
  · rw [busy, Storage.Asked, missing]
    refine fun waits => ⟨others, fun txid mem => ?_⟩
    obtain ⟨other, mem'⟩ := (attentive.distinct.mem_erase_iff).mp mem
    obtain ⟨i, asked⟩ := (attentive.waiting waits).2 txid mem'
    refine ⟨i, requests _ ((mem_eraseIdx_or flying asked).resolve_left fun same => other ?_)⟩
    exact congrArg Prod.fst same

/-- A request is made again. -/
theorem Storage.Attentive.again {s : Storage} (attentive : s.Attentive) {n : Nat}
    {entry : Bytes × Nat} (flying : s.requests[n]? = some entry) :
    { s with requests := s.requests.eraseIdx n ++ [(entry.1, entry.2 + 1)] }.Attentive := by
  refine { attentive with waiting := fun waits => ⟨(attentive.waiting waits).1, fun txid mem => ?_⟩ }
  obtain ⟨i, asked⟩ := (attentive.waiting waits).2 txid mem
  rcases mem_eraseIdx_or flying asked with rfl | other
  · exact ⟨_, List.mem_append_right _ (List.mem_singleton.mpr rfl)⟩
  · exact ⟨i, List.mem_append_left _ other⟩

/-- Requests are not touched by settling transactions. -/
theorem requests_steady (requests : List (Bytes × Nat)) :
    Steady fun s => s.requests = requests where
  ledger _ _ held := held
  pubOuts _ _ held := held
  pubOutsPend _ _ held := held
  invalidTxns _ _ held := held
  removal _ _ held := held

theorem answered_requests (s : Storage) (n : Nat) (txid : Bytes) (reply : Reply) :
    (pkg.answered s n txid reply).requests = s.requests.eraseIdx n :=
  answered_frame pkg Storage.requests (fun _ _ _ => rfl) s n txid reply

variable {setup : Setup}

theorem Setup.updatePend_attentive {s : Storage} (attentive : s.Attentive) :
    (final (setup.updatePend s)).Attentive :=
  attentive.of_control ((control_steady s.control).updatePend setup.toPackages s rfl)
    ((requests_steady s.requests).updatePend setup.toPackages s rfl)

/-- The head of the queue has just been taken, and some of it is missing. -/
theorem Storage.Attentive.take {s : Storage} (attentive : s.Attentive) {block : Block}
    {rest : List Block} (queue : s.blockQueue = block :: rest)
    (missing : s.missingOf block.txns ≠ []) {processing : Bool} {missedCounter : Nat}
    {requests : List (Bytes × Nat)}
    (asked : processing = true → ∀ txid ∈ s.missingOf block.txns, ∃ i, (txid, i) ∈ requests) :
    { s.take block with processing, missedCounter, requests }.Attentive where
  outside := attentive.outside
  repeatless := attentive.repeatless
  distinct := (attentive.repeatless block (queue ▸ List.mem_cons_self)).filter _
  idle _ none := absurd none missing
  atHead _ := ⟨block, rest, queue, rfl⟩
  waiting busy := ⟨missing, asked busy⟩

/-- **Quiet steps keep a node attentive.** -/
theorem Packages.Quiet.attentive {s t : Storage} {a : Action} (quiet : setup.Quiet s a t)
    (attentive : s.Attentive) (repeatless : a.Repeatless) : t.Attentive := by
  cases quiet with
  | waits => exact attentive
  | backsOff _ queue missing => exact attentive.take queue missing nofun
  | asks _ queue missing =>
      refine attentive.take queue missing fun _ txid mem => ⟨1, ?_⟩
      exact List.mem_append_right _ (List.mem_map_of_mem mem)
  | delivered =>
      exact final_bind (Setup.updatePend_attentive attentive) fun _ _ _ kept =>
        kept.queue repeatless _
  | swept => exact Setup.updatePend_attentive attentive
  | @submitted tx =>
      exact attentive.of_control (transactionReceived_eq setup.toPackages tx 0 (setup.txid tx) s).2
        (addMissing_frame setup.toPackages Storage.requests (fun _ _ _ => rfl) _ tx s)
  | ended => exact attentive
  | @received n reply entry flying _ some =>
      refine attentive.end flying some (answered_control _ s _ _ _) fun other mem => ?_
      rw [answered_requests]
      exact mem
  | again flying => exact attentive.again flying
  | found flying _ _ some =>
      exact attentive.end flying some rfl fun other mem => List.mem_append_left _ mem

/-! ### Finishing a block -/

/-- Neither taking a block nor an answer touches the ledger database. -/
theorem Packages.Enters.db {pkg : Packages} {s u : Storage} {a : Action} {block : List Bytes}
    (enters : pkg.Enters s a block u) : u.db = s.db := by
  cases enters with
  | taken => rfl
  | @completed n reply entry => exact congrArg Ledger.db (answered_ledger pkg s n entry.1 reply)

/-- What an attentive node enters `process_block` with: a block without repetition, while
one is queued and none is missing any more. -/
theorem Packages.Enters.ready {s u : Storage} {a : Action} {block : List Bytes}
    (enters : setup.Enters s a block u) (attentive : s.Attentive)
    (attended : setup.Attended s a) :
    block.Nodup ∧ (∃ head rest, u.blockQueue = head :: rest) ∧
      (∀ queued ∈ u.blockQueue, queued.txns.Nodup) ∧ u.missingTxns = [] := by
  cases enters with
  | @taken head rest _ queue noMissing =>
      exact ⟨attentive.repeatless head (queue ▸ List.mem_cons_self), ⟨head, rest, queue⟩,
        attentive.repeatless, noMissing⟩
  | @completed n reply entry flying completes =>
      have control := answered_control setup.toPackages s n entry.1 reply
      have sameQueue : (setup.answered s n entry.1 reply).blockQueue = s.blockQueue :=
        congrArg Control.blockQueue control
      have fewer : (setup.answered s n entry.1 reply).missingTxns = s.missingTxns.erase entry.1 :=
        congrArg Control.missingTxns control
      have none := ((completes_iff flying).mp completes).2.1
      rw [sameQueue, fewer]
      by_cases noMissing : s.missingTxns = []
      · have idle : s.processing = false := by
          by_contra busy
          exact (attentive.waiting (by simpa using busy)).1 noMissing
        rw [attentive.idle idle noMissing]
        have queued := attended.queued n reply rfl completes noMissing
        exact ⟨List.nodup_nil, List.exists_cons_of_ne_nil queued, attentive.repeatless, none⟩
      · obtain ⟨head, rest, queue, current⟩ := attentive.atHead (.inr noMissing)
        rw [current]
        exact ⟨attentive.repeatless head (queue ▸ List.mem_cons_self), ⟨head, rest, queue⟩,
          attentive.repeatless, none⟩

/-- **A block that is entered is finished.** -/
theorem Packages.EntersWith.finishes (free : setup.CollisionFree) {s u : Storage} {a : Action}
    {block : List Bytes} (goes : setup.EntersWith s a block u) (enters : setup.Enters s a block u)
    (attentive : s.Attentive) (covered : s.Covered) (kept : s.Kept setup.toPackages)
    (attended : setup.Attended s a) : ∃ head rest, u.blockQueue = head :: rest ∧
      (final (setup.exec a s)).control = u.control.finish block head rest := by
  obtain ⟨distinct, ⟨head, rest, queue⟩, -⟩ := enters.ready attentive attended
  have keptEntered : (u.enter block).Kept setup.toPackages :=
    ⟨enters.keyed kept.keyed, enters.db ▸ kept.fit, enters.db ▸ kept.dbKeyed⟩
  obtain ⟨v, turns⟩ : ∃ v, block.forM setup.processTxn (u.enter block) = .ok () v :=
    (settles_iff setup.toPackages free (o := u) distinct keptEntered
      (enters.held covered attended.toUndisturbed) fun _ _ => rfl).mpr
        (attended.settles block u enters)
  rcases goes.control with ⟨head', rest', -, queue', control⟩ | ⟨⟨e, t, raised⟩, -⟩
  · exact ⟨head', rest', queue', control⟩
  · rw [goes.1, processBlock_of_loop setup.toPackages queue turns] at raised
    cases raised

/-- The node that has finished a block is attentive. -/
theorem Storage.Attentive.finish {u t : Storage} {block : List Bytes} {head : Block}
    {rest : List Block} (queue : u.blockQueue = head :: rest)
    (repeatless : ∀ queued ∈ u.blockQueue, queued.txns.Nodup) (noMissing : u.missingTxns = [])
    (control : t.control = u.control.finish block head rest) : t.Attentive := by
  simp only [Storage.control, Control.finish, Control.mk.injEq] at control
  obtain ⟨left, current, missing, idle, outside, -⟩ := control
  refine ⟨outside, fun block mem => repeatless block ?_, ?_, fun _ _ => current, ?_, ?_⟩
  · rw [queue]
    exact List.mem_cons_of_mem head (left ▸ mem)
  · rw [missing, noMissing]
    exact List.nodup_nil
  · rw [idle, missing, noMissing]
    rintro (busy | some)
    · cases busy
    · exact absurd rfl some
  · rw [idle]
    intro busy
    cases busy

/-! ### The runs of a node -/

theorem Setup.node_kept {s : Storage} (reached : setup.faultyNode.Reachable s) :
    s.Kept setup.toPackages :=
  ⟨(Setup.node_fit reached).2, (Setup.node_fit reached).1, (Setup.node_keyed reached).2⟩

/-- What holds in every run that is attended to. -/
theorem Setup.node_attentive (free : setup.CollisionFree) {s : Storage}
    (reached : (setup.faultyNode.restrict setup.Attended).Reachable s) : s.Attentive := by
  refine reached.invariant ?_ ?_
  · rintro _ rfl
    refine ⟨rfl, ?_, List.nodup_nil, fun _ _ => rfl, ?_, nofun⟩
    · intro block mem
      cases mem
    · rintro (busy | some)
      · cases busy
      · exact absurd rfl some
  · rintro s a _ before attentive ⟨attended, rfl⟩
    rcases exec_cases setup.toPackages s a with ⟨block, u, enters, goes⟩ | quiet
    · have covered := setup.node_covered free (before.weaken fun _ _ => Attended.toUndisturbed)
      obtain ⟨head, rest, queue, control⟩ := goes.finishes free enters attentive covered
        (setup.node_kept before.of_restrict) attended
      obtain ⟨-, -, repeatless, noMissing⟩ := enters.ready attentive attended
      exact Storage.Attentive.finish queue repeatless noMissing control
    · exact quiet.attentive attentive attended.repeatless

/-- The action answers a request in flight with the body of its transaction. -/
def Storage.AnsweredBy (bodies : Bytes → Transaction) (s : Storage) (a : Action) : Prop :=
  ∃ n entry, s.requests[n]? = some entry ∧ a = .answer n (.transaction (bodies entry.1))

/-- Answers to requests in flight bring the node to one that completes its block, and
that finishes it if its transactions can be settled. -/
def Setup.AnswersSuffice (setup : Setup) (bodies : Bytes → Transaction) (s : Storage) : Prop :=
  ∃ as t a u, (setup.faultyNode.restrict (Storage.AnsweredBy bodies)).Run s as t ∧
    t.AnsweredBy bodies a ∧ setup.Enters t a s.currentBlock u ∧
    (setup.Settles u s.currentBlock u.toLedger → (final (setup.exec a t)).processing = false ∧
      (final (setup.exec a t)).blockQueue = s.blockQueue.tail)

/-- **The answers to the requests in flight suffice** for the block a node works on. -/
theorem Setup.answers_suffice (free : setup.CollisionFree) (bodies : Bytes → Transaction)
    {s : Storage} (reached : (setup.faultyNode.restrict setup.Attended).Reachable s)
    (busy : s.processing = true)
    (own : ∀ txid ∈ s.missingTxns, setup.txid (bodies txid) = txid) :
    setup.AnswersSuffice bodies s := by
  -- by induction on what is missing: each answer brings one transaction
  induction count : s.missingTxns.length generalizing s with
  | zero =>
      have none := List.length_eq_zero_iff.mp count
      exact absurd none ((setup.node_attentive free reached).waiting busy).1
  | succ count' ih =>
      have attentive := setup.node_attentive free reached
      obtain ⟨some, asked⟩ := attentive.waiting busy
      obtain ⟨txid, rest, missing⟩ := List.exists_cons_of_ne_nil some
      have mem : txid ∈ s.missingTxns := missing ▸ List.mem_cons_self
      obtain ⟨i, flies⟩ := asked txid mem
      obtain ⟨n, flying⟩ := List.mem_iff_getElem?.mp flies
      have answered : s.AnsweredBy bodies (.answer n (.transaction (bodies txid))) :=
        ⟨n, _, flying, rfl⟩
      have attended : (∀ block u, setup.Enters s (.answer n (.transaction (bodies txid))) block u →
          setup.Settles u block u.toLedger) →
          setup.Attended s (.answer n (.transaction (bodies txid))) := by
        refine fun settles => ⟨⟨?_, nofun, ?_⟩, trivial, ?_, settles⟩
        · rintro _ _ entry ⟨⟩ flying'
          rw [flying] at flying'
          cases flying'
          exact own txid mem
        · rintro _ _ ⟨⟩ _ idle
          rw [busy] at idle
          cases idle
        · rintro _ _ ⟨⟩ _ none
          exact absurd none some
      have control := answered_control setup.toPackages s n txid (.transaction (bodies txid))
      simp only [Storage.control, Control.mk.injEq] at control
      obtain ⟨sameQueue, sameBlock, fewer, sameBusy, -, -⟩ := control
      rcases @answer_cases setup.toPackages s n (.transaction (bodies txid)) _ flying with
        ⟨completes, goes⟩ | ⟨incomplete, quiet⟩
      · have enters : setup.Enters s (.answer n (.transaction (bodies txid))) s.currentBlock _ :=
          .completed flying completes
        refine ⟨[], s, _, _, .nil s, answered, enters, fun settles => ?_⟩
        have covered := setup.node_covered free (reached.weaken fun _ _ => Attended.toUndisturbed)
        obtain ⟨head, rest, queue, control⟩ := goes.finishes free enters attentive covered
          (setup.node_kept reached.of_restrict) (attended fun block u enters' => by
            cases enters' with
            | completed flying' =>
                rw [flying] at flying'
                cases flying'
                exact settles)
        refine ⟨congrArg Control.processing control, ?_⟩
        rw [← sameQueue, queue]
        exact congrArg Control.blockQueue control
      · have next := attended fun block u enters' => by
          cases enters' with
          | completed _ completes => exact absurd completes incomplete
        obtain ⟨t, same⟩ : ∃ t, final (setup.exec (.answer n (.transaction (bodies txid))) s) = t :=
          ⟨_, rfl⟩
        rw [same] at quiet
        cases quiet with
        | ended ended =>
            rw [flying] at ended
            cases ended
        | again _ noBody => exact absurd rfl (noBody _)
        | found _ noBody => exact absurd rfl (noBody _)
        | received flying' =>
            rw [flying] at flying'
            cases flying'
            have count'' : (s.missingTxns.erase txid).length = count' := by
              rw [List.length_erase_of_mem mem, count]
              rfl
            obtain ⟨as, t, a, u, run, last, enters, finishes⟩ := ih
              (.step reached ⟨next, same⟩) (sameBusy.trans busy)
              (fun k mem' => own k (List.mem_of_mem_erase (fewer ▸ mem'))) (fewer ▸ count'')
            refine ⟨_ :: as, t, a, u, .cons ⟨answered, same⟩ run, last, sameBlock ▸ enters, ?_⟩
            rw [sameBlock, sameQueue] at finishes
            exact finishes

/-- **A waiting node has requested what it waits for**, in every run that is attended
to: it works on the head of its queue, outside of `process_block`, and every missing
transaction has a request in flight. Answers to these requests finish the block. -/
theorem Setup.node_waits (free : setup.CollisionFree) {s : Storage}
    (reached : (setup.faultyNode.restrict setup.Attended).Reachable s)
    (busy : s.processing = true) :
    (∃ head rest, s.blockQueue = head :: rest ∧ s.currentBlock = head.txns) ∧
      s.processingBlock = false ∧ s.missingTxns ≠ [] ∧
      (∀ txid ∈ s.missingTxns, ∃ i, (txid, i) ∈ s.requests) ∧
      ∀ bodies, (∀ txid ∈ s.missingTxns, setup.txid (bodies txid) = txid) →
        setup.AnswersSuffice bodies s := by
  have attentive := setup.node_attentive free reached
  obtain ⟨some, asked⟩ := attentive.waiting busy
  exact ⟨attentive.atHead (.inl busy), attentive.outside, some, asked,
    fun bodies own => setup.answers_suffice free bodies reached busy own⟩

/-- Blocks are delivered while nothing is pending, and taken while something of them is
missing. -/
def Storage.Asking (s : Storage) : Action → Prop
  | .deliver block => block.txns.Nodup ∧ s.pend.toList = []
  | .tryProcess => ∀ block ∈ s.blockQueue.head?, s.missingOf block.txns ≠ []
  | _ => False

instance (s : Storage) : ∀ a, Decidable (s.Asking a)
  | .deliver _ => inferInstanceAs (Decidable (_ ∧ _))
  | .tryProcess => inferInstanceAs (Decidable (∀ _ ∈ s.blockQueue.head?, _))
  | .updatePend | .puttxn _ | .answer _ _ => inferInstanceAs (Decidable False)

theorem Storage.Asking.attended {s : Storage} {a : Action} (asking : s.Asking a) :
    Ideal.small.Attended s a := by
  cases a with
  | deliver block =>
      refine ⟨⟨by simp [Packages.Genuine], fun _ _ _ k txnw pending => ?_, by simp⟩, asking.1, by simp,
        fun block u enters => by cases enters⟩
      have listed := Std.ExtTreeMap.mem_toList_iff_getElem?_eq_some.mpr pending
      rw [asking.2] at listed
      cases listed
  | tryProcess =>
      refine ⟨⟨by simp [Packages.Genuine], by simp [Action.sweeps], by simp⟩, trivial, by simp, fun block u enters => ?_⟩
      cases enters with
      | taken _ queue noMissing => exact absurd noMissing (asking _ (by rw [queue]; rfl))
  | _ => exact asking.elim

/-- Two payments are requested. -/
def requested : Storage := Ideal.small.replayFaulty Storage.Asking requestsRun Ideal.small.fresh

theorem node_waits_requested :
    requested.missingTxns ≠ [] ∧
      ∀ txid ∈ requested.missingTxns, ∃ i, (txid, i) ∈ requested.requests := by
  have reached : (Ideal.small.faultyNode.restrict Ideal.small.Attended).Reachable requested :=
    (Setup.reachable_replayFaulty (.start rfl) _).weaken fun _ _ => Storage.Asking.attended
  obtain ⟨-, -, some, asked, -⟩ :=
    Setup.node_waits Ideal.ideal_collisionFree reached (by decide +kernel)
  exact ⟨some, asked⟩

/-- The transactions that arrive spend something, and no dummy: verification does not
raise on them. -/
def Packages.Spending : Action → Prop
  | .puttxn tx => pkg.realInputs tx ≠ [] ∧ ∀ inp ∈ tx.inputs, inp.txid ≠ pkg.noHash
  | .answer _ (.transaction tx) =>
      pkg.realInputs tx ≠ [] ∧ ∀ inp ∈ tx.inputs, inp.txid ≠ pkg.noHash
  | _ => True

instance (a : Action) : Decidable (pkg.Spending a) := by
  unfold Packages.Spending
  split <;> infer_instance

/-- The last answer of a block comes when the block is finished and no other is queued.
The next block waits for a payment that nobody has sent. -/
def overdueRun : List Action :=
  requestsRun ++ [.answer 0 .notFound, .puttxn firstPayment, .answer 1 .notFound,
    .answer 1 .notFound, .answer 1 .notFound, .answer 1 .notFound,
    .answer 0 (.transaction secondPayment), .answer 0 (.transaction firstPayment),
    .deliver ⟨1, [Ideal.packages.txid unheard]⟩] ++ List.replicate 301 .tryProcess

/-- **A node that waits for ever.** The answer made `process_block` raise on the empty
list, so the node is still inside of it, and no answer completes the next block. -/
theorem waits_inside :
    ¬ ∀ s, (Ideal.small.faultyNode.restrict fun s a =>
        Ideal.small.Ordinary s a ∧ Ideal.small.Spending a).Reachable s → s.processing = true →
      (∃ head rest, s.blockQueue = head :: rest ∧ s.currentBlock = head.txns) ∧
        s.processingBlock = false ∧ s.missingTxns ≠ [] ∧
        ∀ txid ∈ s.missingTxns, ∃ i, (txid, i) ∈ s.requests := by
  intro claim
  have reached := @Setup.reachable_replayFaulty Ideal.small
    (fun s a => Ideal.small.Ordinary s a ∧ Ideal.small.Spending a) _ _ (.start rfl) overdueRun
  obtain ⟨-, outside, -⟩ := claim _ reached (by decide +kernel)
  exact absurd outside (by decide +kernel)

end Belcoin
