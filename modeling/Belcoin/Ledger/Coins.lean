import Belcoin.Ledger.Supply

/-!
Which outputs are spent.

A cleared bit should belong to a transaction in `db` or in `pend`. `node_coins`
proves it for the runs in which every transaction that `update_pend` finds due
still passes its signature checks. Where one does not, because the HTLC timeout
of an input has passed meanwhile, it is dropped and what it had reserved is lost
(`coins_lost`).
-/

namespace Belcoin

variable {pkg : Packages}

/-- Every spent output has a transaction in `db` or `pend` that refers to it. -/
def Ledger.Accounted (ledger : Ledger) : Prop :=
  ∀ r, bit ledger.db r = some false → ∃ txn, ledger.Live txn ∧ r ∈ txn.refs

namespace Ledger

theorem live_iff_record {ledger : Ledger} {txn : Transaction} :
    ledger.Live txn ↔ (∃ k ts, record ledger.db k = some (txn, ts)) ∨
      ∃ (k : Bytes) (txnw : TxnWrapper), ledger.pend[k]? = some txnw ∧ txnw.txn = txn := by
  refine or_congr_left ⟨?_, ?_⟩
  · rintro ⟨k, txnw, held, rfl⟩
    exact ⟨k, txnw.timestamp, by simp [record, held]⟩
  · rintro ⟨k, ts, held⟩
    obtain ⟨txnw, held', same⟩ := Option.map_eq_some_iff.mp held
    exact ⟨k, txnw, held', congrArg Prod.fst same⟩

/-- The transactions in `db` and in `pend`. -/
def holders (ledger : Ledger) : List Transaction :=
  (ledger.db.toList ++ ledger.pend.toList).map fun entry => entry.2.txn

theorem live_iff_mem {ledger : Ledger} {txn : Transaction} :
    ledger.Live txn ↔ txn ∈ ledger.holders := by
  simp only [Live, holders, List.map_append, List.mem_append, List.mem_map, Prod.exists,
    Std.ExtTreeMap.mem_toList_iff_getElem?_eq_some]

/-- The converse holds of every sound ledger. -/
theorem Sound.live_spent {ledger : Ledger} (sound : ledger.Sound pkg) {txn : Transaction}
    (live : ledger.Live txn) {r : Ref} (mem : r ∈ txn.refs) : bit ledger.db r = some false := by
  rcases live with ⟨k, txnw, held, rfl⟩ | ⟨k, txnw, held, rfl⟩
  · exact sound.dbSpent k txnw held r mem
  · exact sound.pendSpent k txnw held r mem

/-- A bit cleared by an acceptance was clear before or belongs to the
transaction. -/
theorem bit_accept {ledger : Ledger} {txn : Transaction} {r : Ref}
    (spent : bit (ledger.accept pkg txn).db r = some false) :
    r ∈ txn.refs ∨ bit ledger.db r = some false := by
  unfold accept at spent
  split at spent
  · rw [bit_reserved] at spent
    split at spent
    · exact .inl ‹_›
    · exact .inr (by simpa [noted, vacate_db] using spent)
  · by_cases isNew : r.1 = pkg.txid txn
    · rw [stored, bit_insert_new, if_pos isNew] at spent
      split at spent <;> cases spent
    · rw [bit_stored isNew] at spent
      split at spent
      · exact .inl ‹_›
      · exact .inr (by simpa [noted, vacate_db] using spent)

theorem bit_commit {ledger : Ledger} {txnw : TxnWrapper} {r : Ref}
    (spent : bit (ledger.commit pkg txnw).db r = some false) :
    r ∈ txnw.txn.refs ∨ bit ledger.db r = some false := by
  rw [Ledger.commit, noted] at spent
  by_cases isNew : r.1 = pkg.txid txnw.txn
  · rw [stored, bit_insert_new, if_pos isNew] at spent
    split at spent <;> cases spent
  · rw [bit_stored isNew] at spent
    split at spent
    · exact .inl ‹_›
    · exact .inr spent

/-- An accepted transaction is in `db` or in `pend`. -/
theorem live_accept (ledger : Ledger) (txn : Transaction) :
    (ledger.accept pkg txn).Live txn := by
  rw [live_iff_record]
  unfold accept
  split
  · refine .inr ⟨pkg.txid txn, .new txn (toTimestamp ledger.currentTime), ?_, rfl⟩
    rw [getElem?_reserved_pend, if_pos rfl]
  · refine .inl ⟨pkg.txid txn, toTimestamp ledger.currentTime, ?_⟩
    rw [record_stored, if_pos rfl]

theorem live_commit (ledger : Ledger) (txnw : TxnWrapper) :
    (ledger.commit pkg txnw).Live txnw.txn := by
  refine live_iff_record.mpr (.inl ⟨pkg.txid txnw.txn, txnw.timestamp, ?_⟩)
  rw [Ledger.commit, noted, record_stored, if_pos rfl]

/-- **Acceptance keeps the spent outputs accounted for.** Whatever leaves `pend`
for the new transaction has the same inputs. -/
theorem Accounted.accept {ledger : Ledger} (accounted : ledger.Accounted)
    (free : pkg.CollisionFree) (sound : ledger.Sound pkg) {txn : Transaction}
    (fresh : pkg.txid txn ∉ ledger.db) : (ledger.accept pkg txn).Accounted := by
  intro r spent
  by_cases named : r ∈ txn.refs
  · exact ⟨txn, live_accept ledger txn, named⟩
  obtain ⟨txn', live, mem⟩ := accounted r ((bit_accept spent).resolve_left named)
  refine ⟨txn', live_iff_record.mpr ?_, mem⟩
  rcases live_iff_record.mp live with ⟨k, ts, held⟩ | ⟨k, txnw, held, rfl⟩
  · exact .inl ⟨k, ts, kept_accept fresh held⟩
  · refine .inr ⟨k, txnw, ?_, rfl⟩
    have otherId : pkg.txid txn ≠ k := by
      intro same
      have sameBody := free.body_eq (same.trans (sound.pendKeyed k txnw held).symm)
      have sameRefs : txn.refs = txnw.txn.refs := congrArg Body.refs sameBody
      exact named (sameRefs ▸ mem)
    have staying : (ledger.vacate pkg txn).pend[k]? = some txnw := by
      refine vacate_pend.mpr ⟨held, fun tx checked gone => ?_⟩
      obtain ⟨k', txnw', held', rfl, same, -⟩ := checkPend_replaces checked
      rw [sound.pendKeyed k' txnw' held'] at gone
      subst gone
      rw [held] at held'
      cases held'
      exact named ((same.mem_iff r).mp mem)
    unfold Ledger.accept
    split
    · rw [getElem?_reserved_pend, if_neg otherId]
      exact staying
    · exact staying

/-- **So does a commitment.** -/
theorem Accounted.commit {ledger : Ledger} (accounted : ledger.Accounted)
    (sound : ledger.Sound pkg) {k : Bytes} {txnw : TxnWrapper}
    (held : ledger.pend[k]? = some txnw) (fresh : pkg.txid txnw.txn ∉ ledger.db) :
    (ledger.commit pkg txnw).Accounted := by
  intro r spent
  by_cases named : r ∈ txnw.txn.refs
  · exact ⟨txnw.txn, live_commit ledger txnw, named⟩
  obtain ⟨txn', live, mem⟩ := accounted r ((bit_commit spent).resolve_left named)
  refine ⟨txn', live_iff_record.mpr ?_, mem⟩
  rcases live_iff_record.mp live with ⟨k', ts, held'⟩ | ⟨k', w, held', rfl⟩
  · exact .inl ⟨k', ts, kept_stored fresh held'⟩
  · refine .inr ⟨k', w, ?_, rfl⟩
    have other : pkg.txid txnw.txn ≠ k' := by
      rintro rfl
      rw [← sound.pendKeyed k txnw held, held'] at held
      cases held
      exact named mem
    rw [Ledger.commit, noted, stored, getElem?_without_pend, if_neg other]
    exact held'

/-- A pending transaction passes `verify_txn` when it is due, if its signatures
still do. -/
theorem Paid.verifies {ledger : Ledger} (paid : ledger.Paid pkg)
    (exclusive : ledger.Exclusive pkg) (sound : ledger.Sound pkg) {k : Bytes} {txnw : TxnWrapper}
    (held : ledger.pend[k]? = some txnw)
    (authorised : ∀ inp ∈ pkg.realInputs txnw.txn,
      pkg.Authorised ledger.db ledger.currentTime txnw.txn inp) :
    pkg.Verifies ledger txnw.txn false where
  fresh := by
    rw [sound.pendKeyed k txnw held]
    exact exclusive.apart k (mem_pend.mpr ⟨_, held⟩)
  inputs inp mem :=
    { authorised := authorised inp mem
      notRefused := by simp
      unspent := by simp }
  balanced := (paid k txnw held).balanced

end Ledger

/-- Records that stay keep an input authorised. -/
theorem Packages.Authorised.mono {db db' : Store TxnWrapper} {now : ℚ≥0} {txn : Transaction}
    {inp : Input} (authorised : pkg.Authorised db now txn inp)
    (kept : ∀ k entry, record db k = some entry → record db' k = some entry) :
    pkg.Authorised db' now txn inp := by
  obtain ⟨entry, o, held, rest⟩ := authorised
  exact ⟨entry, o, kept _ _ held, rest⟩

instance (db : Store TxnWrapper) (now : ℚ≥0) (txn : Transaction) (inp : Input) :
    Decidable (pkg.Authorised db now txn inp) :=
  decidable_of_iff (((record db inp.txid).bind fun entry => entry.1.outputs[inp.index]?.map
      fun o => pkg.checkSignatures now (pkg.txid txn) entry.2 o inp) = some true) <| by
    simp only [Packages.Authorised, Option.bind_eq_some_iff, Option.map_eq_some_iff]
    constructor
    · rintro ⟨entry, held, o, out, signed⟩
      exact ⟨entry, o, held, out, signed⟩
    · rintro ⟨entry, o, held, out, signed⟩
      exact ⟨entry, held, o, out, signed⟩

/-- Every transaction that `update_pend` would find due still passes the signature
checks, at the time of the node. -/
def Storage.DueAuthorised (pkg : Packages) (s : Storage) : Prop :=
  ∀ entry ∈ s.pend.toList, entry.2.TimelockPassed s.currentTime →
    ∀ inp ∈ pkg.realInputs entry.2.txn, pkg.Authorised s.db s.currentTime entry.2.txn inp

instance (s : Storage) : Decidable (s.DueAuthorised pkg) :=
  inferInstanceAs (Decidable (∀ entry ∈ _, _ → ∀ inp ∈ _, _))

/-- Actions that run `update_pend`. -/
def Action.sweeps : Action → Bool
  | .deliver _ => true
  | .updatePend => true
  | _ => false

/-- `update_pend` finds no due transaction whose signatures no longer pass. -/
def Setup.ExpiriesPass (setup : Setup) (s : Storage) (a : Action) : Prop :=
  a.sweeps = true → s.DueAuthorised setup.toPackages

instance (setup : Setup) (s : Storage) (a : Action) : Decidable (setup.ExpiriesPass s a) :=
  inferInstanceAs (Decidable (_ → _))

/-- **No coins are lost** in a run in which every transaction that `update_pend`
finds due still passes its signature checks: a bit is cleared exactly when a
transaction in `db` or in `pend` refers to the output. -/
theorem Setup.node_coins {setup : Setup} (free : setup.CollisionFree) {s : Storage}
    (reached : (setup.node.restrict setup.ExpiriesPass).Reachable s) (r : Ref) (b : Bool)
    (held : bit s.db r = some b) : b = false ↔ ∃ txn, s.Live txn ∧ r ∈ txn.refs := by
  have sound := Setup.sound_of_reachable (setup.node_ledger reached.of_restrict)
  have accounted : s.Accounted := by
    refine setup.node_invariant ?_ ?_ reached
    · intro r spent
      obtain ⟨txnw, stored, cleared⟩ := Option.bind_eq_some_iff.mp spent
      obtain ⟨gentxn, -, -, rfl⟩ := setup.fresh_entry stored
      simp [TxnWrapper.new, List.getElem?_replicate] at cleared
    · intro s a move ledger ledger' pass moves allowed reached' accounted effect
      have sound := Setup.sound_of_reachable reached'
      have exclusive := Setup.exclusive_of_reachable free reached'
      have authorised : ∀ txnw, s.toLedger.Due txnw → a.sweeps = true →
          ∀ inp ∈ setup.realInputs txnw.txn,
            setup.Authorised ledger.db ledger.currentTime txnw.txn inp := by
        rintro txnw ⟨⟨k, pending⟩, passed⟩ sweeps inp mem
        have still : ∀ time, ¬ setup.Allows s a (.tick time) := by
          rintro time ⟨⟩
          cases sweeps
        rw [moves.sameTime still]
        exact (pass sweeps (k, txnw) (Std.ExtTreeMap.mem_toList_iff_getElem?_eq_some.mpr pending)
          passed inp mem).mono moves.kept
      have passes : ∀ txnw, ledger.Due txnw → setup.Allows s a (.expire txnw) →
          setup.Verifies ledger txnw.txn false := by
        rintro txnw ⟨⟨k, pending⟩, -⟩ allowed
        refine (Setup.paid_of_reachable reached').verifies exclusive sound pending ?_
        cases allowed with
        | delivered due => exact authorised txnw due rfl
        | swept due => exact authorised txnw due rfl
      cases effect with
      | accept accepts => exact accounted.accept free sound accepts.fresh
      | reject => exact accounted
      | commit due verifies =>
          obtain ⟨⟨k, pending⟩, -⟩ := due
          exact accounted.commit sound pending verifies.fresh
      | drop due not => exact absurd (passes _ due allowed) not
      | tick => exact accounted
  constructor
  · rintro rfl
    exact accounted r held
  · rintro ⟨txn, live, mem⟩
    have spent := sound.live_spent live mem
    rw [held] at spent
    exact Option.some.inj spent

/-- A payment in `pend` that commits when its timelock has passed. -/
def patientRun : List Action :=
  [.puttxn (channel 0), .deliver ⟨0, [Ideal.packages.txid (channel 0)]⟩, .tryProcess,
    .deliver ⟨6, []⟩, .tryProcess, .updatePend]

theorem node_coins_patient :
    ∃ txn, (Ideal.small.replay Ideal.small.ExpiriesPass patientRun Ideal.small.fresh).Live txn ∧
      (Ideal.packages.txid Ideal.genesis, 0) ∈ txn.refs :=
  (@Setup.node_coins Ideal.small Ideal.ideal_collisionFree _
    (Setup.reachable_replay (.start rfl) patientRun)
    (Ideal.packages.txid Ideal.genesis, 0) false (by decide +kernel)).mp rfl

/-- An output that a preimage opens until its timeout. -/
def htlcOutput : Output :=
  { amount := 1, pubkey := [7], pubkey2 := [7], htlcTimeout := 3, htlcHashlock := [9],
    htlcPubkey := [8] }

def htlcSetup : Setup := Ideal.setup [[htlcOutput]]

/-- The output is spent by preimage, with a timelock that outlasts the timeout. -/
def htlcClaim : Transaction :=
  ⟨[{ txid := Ideal.packages.txid ⟨[], [htlcOutput], 0, 0⟩, index := 0, htlcPreimage := [9],
      htlcSignature := [8] }], [Ideal.coin 1], 0, 5⟩

def htlcRun : List Action :=
  [.puttxn htlcClaim, .deliver ⟨0, [Ideal.packages.txid htlcClaim]⟩, .tryProcess,
    .deliver ⟨6, []⟩, .tryProcess, .updatePend]

/-- **Coins lost.** Accepted by preimage and dropped at its expiry, the claim
leaves its input spent, and no transaction refers to it any more. -/
theorem coins_lost :
    ¬ ∀ s, htlcSetup.node.Reachable s → ∀ r b, bit s.db r = some b →
      (b = false ↔ ∃ txn, s.Live txn ∧ r ∈ txn.refs) := by
  intro claim
  have spent : bit (htlcSetup.after htlcRun).db
      (Ideal.packages.txid ⟨[], [htlcOutput], 0, 0⟩, 0) = some false := by decide +kernel
  obtain ⟨txn, live, mem⟩ := (claim _ (htlcSetup.reachable_after htlcRun) _ _ spent).mp rfl
  have none : ∀ txn ∈ (htlcSetup.after htlcRun).holders,
      (Ideal.packages.txid ⟨[], [htlcOutput], 0, 0⟩, 0) ∉ txn.refs := by decide +kernel
  exact none txn (Ledger.live_iff_mem.mp live) mem

end Belcoin
