import Belcoin.Ledger.Exclusive
import Belcoin.Ledger.Indexes

/-!
Timelocks.

A transaction with a timelock waits in `pend` with the time it was accepted at
(`Ledger.Stamped`). `update_pend` is the only way from there to `db`
(`Packages.Effect.entry`), and until then its outputs are of no use to anyone. The
window in which it can be replaced ends where the window in which it is committed
begins (`Ledger.Exclusive.window`).
-/

namespace Belcoin

open Stateful

/-! ### The time of acceptance -/

/-- An id that was accepted once was accepted at one time, with one body. -/
theorem accepted_unique {pkg : Packages} {trace : List Event}
    (once : ((acceptedIn trace).map pkg.txid).Nodup) {txn txn' : Transaction} {time time' : ℚ≥0}
    (mem : .accepted txn time ∈ trace) (mem' : .accepted txn' time' ∈ trace)
    (same : pkg.txid txn = pkg.txid txn') : txn = txn' ∧ time = time' := by
  have listed : ∀ {events : List Event} {tx : Transaction} {at' : ℚ≥0},
      .accepted tx at' ∈ events → pkg.txid tx ∈ (acceptedIn events).map pkg.txid :=
    fun mem => List.mem_map_of_mem (List.mem_filterMap.mpr ⟨_, mem, rfl⟩)
  induction trace with
  | nil => cases mem
  | cons event trace ih =>
      have rest : ((acceptedIn trace).map pkg.txid).Nodup := by
        refine once.sublist (List.Sublist.map _ ?_)
        exact (List.sublist_cons_self event trace).filterMap _
      rcases List.mem_cons.mp mem with rfl | later
      · have first : pkg.txid txn ∉ (acceptedIn trace).map pkg.txid := (List.nodup_cons.mp once).1
        rcases List.mem_cons.mp mem' with eq | later'
        · cases eq
          exact ⟨rfl, rfl⟩
        · exact absurd (same ▸ listed later') first
      · rcases List.mem_cons.mp mem' with rfl | later'
        · have first : pkg.txid txn' ∉ (acceptedIn trace).map pkg.txid := (List.nodup_cons.mp once).1
          exact absurd (same ▸ listed later) first
        · exact ih rest later later'

/-- Each entry of `pend` carries the time its transaction was accepted at. -/
def Ledger.Stamped (ledger : Ledger) : Prop :=
  ∀ (k : Bytes) (txnw : TxnWrapper), ledger.pend[k]? = some txnw →
    ∃ time, .accepted txnw.txn time ∈ ledger.trace ∧ txnw.timestamp = toTimestamp time

/-- Every move keeps the stamps. -/
theorem Ledger.Stamped.effect {pkg : Packages} {ledger ledger' : Ledger} {move : Move}
    (stamped : ledger.Stamped) (effect : pkg.Effect ledger move ledger') : ledger'.Stamped := by
  have older : ∀ {k : Bytes} {txnw : TxnWrapper}, ledger.pend[k]? = some txnw →
      ∃ time, .accepted txnw.txn time ∈ ledger'.trace ∧ txnw.timestamp = toTimestamp time := by
    intro k txnw held
    obtain ⟨time, mem, stamp⟩ := stamped k txnw held
    exact ⟨time, effect.trace_extends.subset mem, stamp⟩
  intro k txnw held
  cases effect with
  | @accept txn =>
      rcases pend_accept held with ⟨-, -, rfl⟩ | ⟨before, -⟩
      · refine ⟨ledger.currentTime, ?_, rfl⟩
        rw [accept_trace]
        simp
      · exact older before
  | reject => exact older held
  | commit => exact older (getElem?_of_erase held)
  | drop => exact older (getElem?_of_erase held)
  | tick => exact older held

theorem Setup.stamped_of_reachable {setup : Setup} {ledger : Ledger}
    (reached : setup.ledger.Reachable ledger) : ledger.Stamped := by
  refine reached.invariant ?_ fun _ _ _ _ stamped step => stamped.effect (setup.effect_of_step step)
  rintro _ rfl k txnw held
  simp [Setup.fresh, Setup.construct] at held

/-! ### The way into `db` -/

/-- A transaction with a timelock comes into `db` only as an expired entry of `pend`. -/
theorem Packages.Effect.entry {pkg : Packages} (free : pkg.CollisionFree) {ledger ledger' : Ledger}
    {move : Move} (effect : pkg.Effect ledger move ledger') {txn : Transaction}
    (locked : txn.timelock ≠ 0) (absent : pkg.txid txn ∉ ledger.db)
    (present : pkg.txid txn ∈ ledger'.db) :
    ∃ txnw, move = .expire txnw ∧ pkg.txid txnw.txn = pkg.txid txn ∧
      record ledger'.db (pkg.txid txn) = some (txnw.txn, txnw.timestamp) := by
  cases effect with
  | @accept txn' =>
      obtain ⟨unlocked, same⟩ := (Ledger.mem_accept.mp present).resolve_left absent
      have sameLock : txn.timelock = txn'.timelock := congrArg Body.timelock (free.body_eq same)
      exact absurd (sameLock.trans unlocked) locked
  | reject => exact absurd present absent
  | @commit txnw =>
      have same : pkg.txid txn = pkg.txid txnw.txn := (Ledger.mem_stored.mp present).resolve_left absent
      refine ⟨txnw, rfl, same.symm, ?_⟩
      rw [Ledger.commit, Ledger.noted, Ledger.record_stored, if_pos same]
  | drop => exact absurd present absent
  | tick => exact absurd present absent

/-! ### The two windows -/

/-- A transaction with the same inputs and a higher sequence number replaces the
entry, whatever else it contains. -/
def Ledger.Replaceable (ledger : Ledger) (txnw : TxnWrapper) : Prop :=
  ∀ txn, SameInputs txnw.txn txn → txnw.txn.seq < txn.seq →
    ledger.checkPendReplacement txn = .replaces txnw.txn

/-- Only one entry of `pend` has the inputs of `txn`. -/
theorem Ledger.Exclusive.entry_unique {pkg : Packages} {ledger : Ledger}
    (exclusive : ledger.Exclusive pkg) (sound : ledger.Sound pkg) {k k' : Bytes}
    {txnw txnw' : TxnWrapper} (held : ledger.pend[k]? = some txnw)
    (held' : ledger.pend[k']? = some txnw') {txn : Transaction} (same : SameInputs txnw.txn txn)
    (same' : SameInputs txnw'.txn txn) : txnw = txnw' := by
  obtain ⟨r, mem⟩ := List.exists_mem_of_ne_nil _ (exclusive.real _ (exclusive.pending _ _ held))
  have shares : Shares txnw.txn txnw'.txn :=
    ⟨r, mem, (same'.mem_iff r).mpr ((same.mem_iff r).mp mem)⟩
  have one : txnw.txn = txnw'.txn := by
    by_contra ne
    exact exclusive.live_apart sound (.inr ⟨k, txnw, held, rfl⟩) (.inr ⟨k', txnw', held', rfl⟩)
      ne shares
  have sameKey : k = k' := by
    rw [← sound.pendKeyed k txnw held, ← sound.pendKeyed k' txnw' held', one]
  subst sameKey
  exact Option.some.inj (held.symm.trans held')

/-- The entry of `pend` with the inputs of `txn` decides, wherever it stands. -/
theorem Ledger.checkPend_entry {pkg : Packages} {ledger : Ledger} (sound : ledger.Sound pkg)
    (exclusive : ledger.Exclusive pkg) {k : Bytes} {txnw : TxnWrapper}
    (held : ledger.pend[k]? = some txnw) {txn : Transaction} (same : SameInputs txnw.txn txn) :
    ledger.checkPendReplacement txn =
      if txnw.TimelockPassed ledger.currentTime then .refused
      else if txn.seq ≤ txnw.txn.seq then .refused else .replaces txnw.txn := by
  unfold checkPendReplacement
  cases found : ledger.pend.toList.find? fun entry => decide (SameInputs entry.2.txn txn) with
  | none =>
      have := List.find?_eq_none.mp found (k, txnw)
        (Std.ExtTreeMap.mem_toList_iff_getElem?_eq_some.mpr held)
      exact absurd same (by simpa using this)
  | some entry =>
      have held' : ledger.pend[entry.1]? = some entry.2 :=
        Std.ExtTreeMap.mem_toList_iff_getElem?_eq_some.mp (List.mem_of_find?_eq_some found)
      have same' : SameInputs entry.2.txn txn := by simpa using List.find?_some found
      rw [exclusive.entry_unique sound held held' same same']

/-- **The windows meet**: at any time an entry of `pend` is replaceable exactly until
its timelock has passed. -/
theorem Ledger.Exclusive.window {pkg : Packages} {ledger : Ledger} (exclusive : ledger.Exclusive pkg)
    (sound : ledger.Sound pkg) {k : Bytes} {txnw : TxnWrapper}
    (held : ledger.pend[k]? = some txnw) :
    ledger.Replaceable txnw ↔ ¬ txnw.TimelockPassed ledger.currentTime := by
  constructor
  · intro replaceable passed
    let newer : Transaction := { txnw.txn with seq := txnw.txn.seq + 1 }
    have same : SameInputs txnw.txn newer := rfl
    have replaced := replaceable newer same (Nat.lt_succ_self _)
    rw [checkPend_entry sound exclusive held same, if_pos passed] at replaced
    cases replaced
  · intro waiting txn same newer
    rw [checkPend_entry sound exclusive held same, if_neg waiting, if_neg (Nat.not_le.mpr newer)]

/-! ### The runs of a node -/

/-- The node at another time. -/
def Ledger.at (ledger : Ledger) (now : ℚ≥0) : Ledger := { ledger with currentTime := now }

theorem Setup.reachable_at {setup : Setup} {ledger : Ledger}
    (reached : setup.ledger.Reachable ledger) (now : ℚ≥0) : setup.ledger.Reachable (ledger.at now) :=
  reached.step (a := .tick now) rfl

variable {setup : Setup}

/-- A step that brings a transaction with a timelock into `db` runs `update_pend` on
an entry of `pend` that is due. -/
theorem Setup.node_entry (free : setup.CollisionFree) {s t : Storage} {a : Action}
    (reached : setup.node.Reachable s) (run : setup.perform a s = .ok () t) {txn : Transaction}
    (locked : txn.timelock ≠ 0) (absent : setup.txid txn ∉ s.db) (present : setup.txid txn ∈ t.db) :
    (a = .updatePend ∨ ∃ block, a = .deliver block) ∧ ∃ txnw, s.toLedger.Due txnw ∧
      setup.txid txnw.txn = setup.txid txn ∧
      record t.db (setup.txid txn) = some (txnw.txn, txnw.timestamp) := by
  have sound := Setup.sound_of_reachable (setup.node_ledger reached)
  obtain ⟨moves, run', allowed⟩ := setup.perform_moves sound run
  refine (run'.preserves (P := setup.Allows s a) (I := fun ledger => setup.txid txn ∈ ledger.db →
    (a = .updatePend ∨ ∃ block, a = .deliver block) ∧ ∃ txnw, s.toLedger.Due txnw ∧
      setup.txid txnw.txn = setup.txid txn ∧
      record ledger.db (setup.txid txn) = some (txnw.txn, txnw.timestamp)) ?_ allowed
    (setup.node_ledger reached) fun stored => absurd stored absent) present
  intro ledger move ledger' _ before allow step present'
  have effect := setup.effect_of_step step
  by_cases already : setup.txid txn ∈ ledger.db
  · obtain ⟨called, txnw, due, same, recorded⟩ := before already
    exact ⟨called, txnw, due, same, effect.kept recorded⟩
  · obtain ⟨txnw, rfl, same, recorded⟩ := effect.entry free locked already present'
    cases allow with
    | delivered due => exact ⟨.inr ⟨_, rfl⟩, txnw, due, same, recorded⟩
    | swept due => exact ⟨.inl rfl, txnw, due, same, recorded⟩

/-- **Timelocks are respected.** A transaction with a timelock that was accepted at
`time` enters `db` only as `update_pend` is called once the timelock has passed, with
that time as its timestamp; until then nothing that refers to it is accepted and
`pub_outs` lists none of its outputs. Every entry of `pend` is at any time either
still replaceable or due, and not both. -/
theorem Setup.node_timelocks (free : setup.CollisionFree) {s : Storage}
    (reached : setup.node.Reachable s) :
    (∀ (a : Action) (t : Storage), setup.node.step s a t → ∀ (txn : Transaction) (time : ℚ≥0),
      txn.timelock ≠ 0 → .accepted txn time ∈ t.trace →
      setup.txid txn ∉ s.db → setup.txid txn ∈ t.db →
        (a = .updatePend ∨ ∃ block, a = .deliver block) ∧
        elapsed s.currentTime (toTimestamp time) > txn.timelock * timelockConst ∧
        record t.db (setup.txid txn) = some (txn, toTimestamp time)) ∧
    (∀ txn : Transaction, setup.txid txn ∉ s.db →
        (∀ user ∈ acceptedIn s.trace, ∀ inp ∈ user.inputs, inp.txid ≠ setup.txid txn) ∧
        ∀ (p : Bytes) (i : Nat), (setup.txid txn, i) ∉ s.pubOuts.outs p) ∧
    ∀ (k : Bytes) (txnw : TxnWrapper), s.pend[k]? = some txnw → ∀ now,
      (s.toLedger.at now).Replaceable txnw ↔ ¬ (s.toLedger.at now).Due txnw := by
  have ledgerReached := setup.node_ledger reached
  refine ⟨fun a t run txn time locked accepted absent present => ?_,
    fun txn absent => ⟨fun user mem inp input same => ?_, fun p i listed => ?_⟩,
    fun k txnw held now => ?_⟩
  · obtain ⟨called, txnw, ⟨⟨k, held⟩, passed⟩, same, recorded⟩ :=
      setup.node_entry free reached run locked absent present
    obtain ⟨time', stamp, timestamp⟩ := setup.stamped_of_reachable ledgerReached k txnw held
    have grown := setup.node_trace_extends reached (.cons run (.nil t))
    have later := setup.exclusive_of_reachable free (setup.node_ledger (reached.step run))
    obtain ⟨rfl, rfl⟩ := accepted_unique later.once (grown.subset stamp) accepted same
    rw [TxnWrapper.TimelockPassed, timestamp] at passed
    exact ⟨called, passed, timestamp ▸ recorded⟩
  · have exclusive := setup.exclusive_of_reachable free ledgerReached
    have spent := exclusive.spent user mem inp.ref (List.mem_map_of_mem input)
    have stored : inp.txid ∈ s.db := mem_of_bit spent
    exact absent (same ▸ stored)
  · have mirrors := Setup.mirrors_of_reachable free (Setup.faulty_of_node reached)
    obtain ⟨txnw, held, -⟩ := (mirrors.outs p _).mp listed
    exact absent (Std.ExtTreeMap.mem_iff_isSome_getElem?.mpr (by simp [held]))
  · have there := setup.reachable_at ledgerReached now
    have pending : (s.toLedger.at now).pend[k]? = some txnw := held
    exact ((setup.exclusive_of_reachable free there).window (Setup.sound_of_reachable there)
      pending).trans (not_congr ⟨fun passed => ⟨⟨k, held⟩, passed⟩, And.right⟩)

/-- The transaction of `lockedRun` enters `db` with the time it was accepted at. -/
theorem node_timelocks_committed :
    record (final (Ideal.small.perform .updatePend (Ideal.small.after (lockedRun.take 5)))).db
        (Ideal.small.txid (Ideal.pay (Ideal.packages.txid Ideal.genesis) 0 0 5)) =
      some (Ideal.pay (Ideal.packages.txid Ideal.genesis) 0 0 5, toTimestamp 0) := by
  have history : .accepted (Ideal.pay (Ideal.packages.txid Ideal.genesis) 0 0 5) 0 ∈
      (final (Ideal.small.perform .updatePend (Ideal.small.after (lockedRun.take 5)))).trace := by
    decide +kernel
  have present : Ideal.small.txid (Ideal.pay (Ideal.packages.txid Ideal.genesis) 0 0 5) ∈
      (final (Ideal.small.perform .updatePend (Ideal.small.after (lockedRun.take 5)))).db := by
    decide +kernel
  have step : Ideal.small.node.step (Ideal.small.after (lockedRun.take 5)) .updatePend _ :=
    eq_ok_of_returned (by decide +kernel)
  exact ((@Setup.node_timelocks Ideal.small Ideal.ideal_collisionFree _
    (Ideal.small.reachable_after (lockedRun.take 5))).1 .updatePend _ step _ 0 (by decide)
      history (by decide +kernel) present).2.2

end Belcoin
