import Belcoin.Ledger.Effect

/-!
Well-formed ledgers, and that every ledger operation that returns keeps them so.

`Ledger.Sound` holds of the genesis ledger and of the ledger of every node whose
operations all returned (`Belcoin.Ledger.Moves`): entries are kept under their
ids, bitmaps fit their output lists, and every output that a stored or pending
transaction refers to is spent.
-/

namespace Belcoin

variable (pkg : Packages)

/-- The invariant of the two databases. -/
structure Ledger.Sound (ledger : Ledger) : Prop where
  dbKeyed : ∀ (k : Bytes) (txnw : TxnWrapper), ledger.db[k]? = some txnw → pkg.txid txnw.txn = k
  pendKeyed : ∀ (k : Bytes) (txnw : TxnWrapper), ledger.pend[k]? = some txnw →
    pkg.txid txnw.txn = k
  fit : BitmapsFit ledger.db
  dbSpent : ∀ (k : Bytes) (txnw : TxnWrapper), ledger.db[k]? = some txnw →
    ∀ r ∈ txnw.txn.refs, bit ledger.db r = some false
  pendSpent : ∀ (k : Bytes) (txnw : TxnWrapper), ledger.pend[k]? = some txnw →
    ∀ r ∈ txnw.txn.refs, bit ledger.db r = some false

/-! ### The database after a write -/

theorem mem_of_bit {db : Store TxnWrapper} {r : Ref} {b : Bool} (held : bit db r = some b) :
    r.1 ∈ db := by
  obtain ⟨txnw, held', -⟩ := Option.bind_eq_some_iff.mp held
  exact Std.ExtTreeMap.mem_iff_isSome_getElem?.mpr (by simp [held'])

/-- A stored output has a bit. -/
theorem Stored.bit {db : Store TxnWrapper} {r : Ref} (stored : Stored db r) :
    ∃ b, Belcoin.bit db r = some b := by
  obtain ⟨txnw, held, inBits, -⟩ := stored
  exact ⟨txnw.utxos[r.2], by simp [Belcoin.bit, held, inBits]⟩

/-- Where bitmaps fit, an output that exists is stored. -/
theorem stored_of_output {db : Store TxnWrapper} (fit : BitmapsFit db) {r : Ref} {o : Output}
    (out : outputAt db r = some o) : Stored db r := by
  obtain ⟨txnw, held, out'⟩ := Option.bind_eq_some_iff.mp out
  have inOutputs := (List.getElem?_eq_some_iff.mp out').1
  exact ⟨txnw, held, by rwa [fit _ _ held], inOutputs⟩

theorem getElem?_clearBits {db : Store TxnWrapper} {refs : List Ref} {k : Bytes}
    {txnw : TxnWrapper} (held : (clearBits db refs)[k]? = some txnw) :
    ∃ old, db[k]? = some old ∧ txnw.txn = old.txn ∧ txnw.timestamp = old.timestamp ∧
      txnw.utxos.length = old.utxos.length := by
  induction refs generalizing db with
  | nil => exact ⟨txnw, held, rfl, rfl, rfl⟩
  | cons r refs ih =>
      obtain ⟨mid, held', sameTxn, sameTime, sameLen⟩ := ih held
      rw [clearBit_getElem?] at held'
      obtain ⟨old, held'', rfl⟩ := Option.map_eq_some_iff.mp held'
      refine ⟨old, held'', ?_⟩
      by_cases same : k = r.1 <;> simp_all

theorem bit_insert_new {db : Store TxnWrapper} {txid : Bytes} {txn : Transaction} {ts : Nat}
    {r : Ref} : bit (db.insert txid (.new txn ts)) r =
      if r.1 = txid then (if r.2 < txn.outputs.length then some true else none)
      else bit db r := by
  unfold bit
  simp only [Std.ExtTreeMap.getElem?_insert, Std.LawfulEqCmp.compare_eq_iff_eq]
  by_cases same : txid = r.1
  · simp [same, TxnWrapper.new, List.getElem?_replicate]
  · rw [if_neg same, if_neg (Ne.symm same)]

theorem record_insert_new {db : Store TxnWrapper} {txid k : Bytes} {txn : Transaction} {ts : Nat} :
    record (db.insert txid (.new txn ts)) k =
      if k = txid then some (txn, ts) else record db k := by
  unfold record
  simp only [Std.ExtTreeMap.getElem?_insert, Std.LawfulEqCmp.compare_eq_iff_eq]
  by_cases same : txid = k
  · simp [same]
  · rw [if_neg same, if_neg (Ne.symm same)]

namespace Ledger

variable {pkg}

/-- The bits after a write to `db`. -/
theorem bit_stored {ledger : Ledger} {txn : Transaction} {ts : Nat} {r : Ref}
    (old : r.1 ≠ pkg.txid txn) :
    bit (ledger.stored pkg txn ts).db r =
      if r ∈ txn.refs then (bit ledger.db r).map fun _ => false else bit ledger.db r := by
  rw [stored, bit_insert_new, if_neg old, bit_clearBits]

theorem record_stored {ledger : Ledger} {txn : Transaction} {ts : Nat} {k : Bytes} :
    record (ledger.stored pkg txn ts).db k =
      if k = pkg.txid txn then some (txn, ts) else record ledger.db k := by
  rw [stored, record_insert_new, record_clearBits]

theorem bit_reserved {ledger : Ledger} {txn : Transaction} {ts : Nat} {r : Ref} :
    bit (ledger.reserved pkg txn ts).db r =
      if r ∈ txn.refs then (bit ledger.db r).map fun _ => false else bit ledger.db r :=
  bit_clearBits _ _ _

theorem record_reserved {ledger : Ledger} {txn : Transaction} {ts : Nat} {k : Bytes} :
    record (ledger.reserved pkg txn ts).db k = record ledger.db k :=
  record_clearBits _ _ _

theorem getElem?_reserved_pend {ledger : Ledger} {txn : Transaction} {ts : Nat} {k : Bytes} :
    (ledger.reserved pkg txn ts).pend[k]? =
      if pkg.txid txn = k then some (.new txn ts) else ledger.pend[k]? := by
  simp [reserved, Std.ExtTreeMap.getElem?_insert]

theorem getElem?_without_pend {ledger : Ledger} {tx : Transaction} {k : Bytes} :
    (ledger.without pkg tx).pend[k]? =
      if pkg.txid tx = k then none else ledger.pend[k]? := by
  simp [without, Std.ExtTreeMap.getElem?_erase]

/-! ### What a write cannot undo -/

theorem spent_reserved {ledger : Ledger} {txn : Transaction} {ts : Nat} {r : Ref}
    (spent : bit ledger.db r = some false) :
    bit (ledger.reserved pkg txn ts).db r = some false := by
  rw [bit_reserved]
  split <;> simp [spent]

theorem spent_stored {ledger : Ledger} {txn : Transaction} {ts : Nat} {r : Ref}
    (fresh : pkg.txid txn ∉ ledger.db) (spent : bit ledger.db r = some false) :
    bit (ledger.stored pkg txn ts).db r = some false := by
  rw [bit_stored fun same => fresh (same ▸ mem_of_bit spent)]
  split <;> simp [spent]

theorem kept_stored {ledger : Ledger} {txn : Transaction} {ts : Nat} {k : Bytes}
    {entry : Transaction × Nat} (fresh : pkg.txid txn ∉ ledger.db)
    (held : record ledger.db k = some entry) :
    record (ledger.stored pkg txn ts).db k = some entry := by
  have old : k ≠ pkg.txid txn := fun same => fresh (same ▸ mem_iff_record.mpr ⟨_, held⟩)
  rw [record_stored, if_neg old, held]

/-- The outputs a transaction refers to are spent once it is put into `pend`. -/
theorem refs_reserved {ledger : Ledger} {txn : Transaction} {ts : Nat} {r : Ref}
    (refsStored : ∀ inp ∈ txn.inputs, Stored ledger.db inp.ref) (mem : r ∈ txn.refs) :
    bit (ledger.reserved pkg txn ts).db r = some false := by
  obtain ⟨inp, inputMem, rfl⟩ := List.mem_map.mp mem
  obtain ⟨b, held⟩ := (refsStored inp inputMem).bit
  rw [bit_reserved, if_pos mem, held]
  rfl

/-- The outputs a transaction refers to are spent once it is written to `db`. -/
theorem refs_stored {ledger : Ledger} {txn : Transaction} {ts : Nat} {r : Ref}
    (fresh : pkg.txid txn ∉ ledger.db)
    (refsStored : ∀ inp ∈ txn.inputs, Stored ledger.db inp.ref) (mem : r ∈ txn.refs) :
    bit (ledger.stored pkg txn ts).db r = some false := by
  obtain ⟨inp, inputMem, rfl⟩ := List.mem_map.mp mem
  obtain ⟨b, held⟩ := (refsStored inp inputMem).bit
  rw [bit_stored fun same => fresh (same ▸ mem_of_bit held), if_pos mem, held]
  rfl

/-! ### Accepting a transaction -/

theorem vacate_pend {ledger : Ledger} {txn : Transaction} {k : Bytes} {txnw : TxnWrapper} :
    (ledger.vacate pkg txn).pend[k]? = some txnw ↔ ledger.pend[k]? = some txnw ∧
      ∀ tx, ledger.checkPendReplacement txn = .replaces tx → pkg.txid tx ≠ k := by
  unfold vacate
  split
  · rename_i tx checked
    simp only [checked, PendCheck.replaces.injEq, forall_eq']
    simp only [Std.ExtTreeMap.getElem?_erase, Std.LawfulEqCmp.compare_eq_iff_eq]
    by_cases same : pkg.txid tx = k <;> simp [same]
  · rename_i none
    exact ⟨fun held => ⟨held, fun tx checked => absurd checked (none tx)⟩, And.left⟩

theorem vacate_refsStored {ledger : Ledger} {txn : Transaction} {event : Event}
    (refsStored : ∀ inp ∈ txn.inputs, Stored ledger.db inp.ref) :
    ∀ inp ∈ txn.inputs, Stored ((ledger.vacate pkg txn).noted event).db inp.ref := by
  simpa [noted, vacate_db] using refsStored

theorem vacate_fresh {ledger : Ledger} {txn : Transaction} {event : Event}
    (fresh : pkg.txid txn ∉ ledger.db) :
    pkg.txid txn ∉ ((ledger.vacate pkg txn).noted event).db := by
  simpa [noted, vacate_db] using fresh

theorem mem_stored {ledger : Ledger} {txn : Transaction} {ts : Nat} {k : Bytes} :
    k ∈ (ledger.stored pkg txn ts).db ↔ k ∈ ledger.db ∨ k = pkg.txid txn := by
  rw [mem_iff_record, record_stored, mem_iff_record]
  by_cases same : k = pkg.txid txn <;> simp [same]

theorem mem_reserved {ledger : Ledger} {txn : Transaction} {ts : Nat} {k : Bytes} :
    k ∈ (ledger.reserved pkg txn ts).db ↔ k ∈ ledger.db :=
  mem_clearBits

/-- Accepting writes the transaction to `pend` if it has a timelock, and to `db`
otherwise. -/
theorem mem_accept {ledger : Ledger} {txn : Transaction} {k : Bytes} :
    k ∈ (ledger.accept pkg txn).db ↔
      k ∈ ledger.db ∨ (txn.timelock = 0 ∧ k = pkg.txid txn) := by
  unfold accept
  split
  · rename_i locked
    simp [mem_reserved, noted, vacate_db, locked]
  · rename_i open'
    simp [mem_stored, noted, vacate_db, not_not.mp open']

theorem pend_accept {ledger : Ledger} {txn : Transaction} {k : Bytes} {txnw : TxnWrapper}
    (held : (ledger.accept pkg txn).pend[k]? = some txnw) :
    (txn.timelock ≠ 0 ∧ k = pkg.txid txn ∧
        txnw = .new txn (toTimestamp ledger.currentTime)) ∨
      (ledger.pend[k]? = some txnw ∧
        ∀ tx, ledger.checkPendReplacement txn = .replaces tx → pkg.txid tx ≠ k) := by
  unfold accept at held
  split at held
  · rename_i locked
    rw [getElem?_reserved_pend] at held
    split at held
    · rename_i same
      cases held
      exact .inl ⟨locked, same.symm, rfl⟩
    · exact .inr (vacate_pend.mp held)
  · exact .inr (vacate_pend.mp held)

theorem spent_accept {ledger : Ledger} {txn : Transaction} {r : Ref}
    (fresh : pkg.txid txn ∉ ledger.db) (spent : bit ledger.db r = some false) :
    bit (ledger.accept pkg txn).db r = some false := by
  unfold accept
  split
  · exact spent_reserved (by simpa [noted, vacate_db] using spent)
  · exact spent_stored (vacate_fresh fresh) (by simpa [noted, vacate_db] using spent)

theorem kept_accept {ledger : Ledger} {txn : Transaction} {k : Bytes}
    {entry : Transaction × Nat} (fresh : pkg.txid txn ∉ ledger.db)
    (held : record ledger.db k = some entry) :
    record (ledger.accept pkg txn).db k = some entry := by
  unfold accept
  split
  · rw [record_reserved]
    simpa [noted, vacate_db] using held
  · exact kept_stored (vacate_fresh fresh) (by simpa [noted, vacate_db] using held)

/-- Accepting spends the outputs a transaction refers to. -/
theorem refs_accept {ledger : Ledger} {txn : Transaction} {r : Ref}
    (fresh : pkg.txid txn ∉ ledger.db)
    (refsStored : ∀ inp ∈ txn.inputs, Stored ledger.db inp.ref) (mem : r ∈ txn.refs) :
    bit (ledger.accept pkg txn).db r = some false := by
  unfold accept
  split
  · exact refs_reserved (vacate_refsStored refsStored) mem
  · exact refs_stored (vacate_fresh fresh) (vacate_refsStored refsStored) mem

@[simp] theorem accept_currentTime (ledger : Ledger) (txn : Transaction) :
    (ledger.accept pkg txn).currentTime = ledger.currentTime := by
  unfold accept vacate
  split <;> split <;> rfl

/-- The history of an acceptance: a replacement, if there is one, and the
verdict. -/
theorem accept_trace (ledger : Ledger) (txn : Transaction) :
    (ledger.accept pkg txn).trace =
      (ledger.vacate pkg txn).trace ++ [.accepted txn ledger.currentTime] := by
  unfold accept
  split <;> rfl

/-! ### Each write keeps the ledger sound -/

/-- Fewer pending transactions, the same database. -/
theorem Sound.of_subset {ledger ledger' : Ledger} (sound : ledger.Sound pkg)
    (sameDb : ledger'.db = ledger.db)
    (fewer : ∀ (k : Bytes) (txnw : TxnWrapper), ledger'.pend[k]? = some txnw →
      ledger.pend[k]? = some txnw) : ledger'.Sound pkg where
  dbKeyed k txnw held := sound.dbKeyed k txnw (sameDb ▸ held)
  pendKeyed k txnw held := sound.pendKeyed k txnw (fewer k txnw held)
  fit := sameDb ▸ sound.fit
  dbSpent k txnw held := by
    rw [sameDb] at held ⊢
    exact sound.dbSpent k txnw held
  pendSpent k txnw held := by
    rw [sameDb]
    exact sound.pendSpent k txnw (fewer k txnw held)

theorem Sound.noted {ledger : Ledger} (sound : ledger.Sound pkg) (event : Event) :
    (ledger.noted event).Sound pkg :=
  sound.of_subset rfl fun _ _ held => held

theorem Sound.without {ledger : Ledger} (sound : ledger.Sound pkg) (tx : Transaction) :
    (ledger.without pkg tx).Sound pkg := by
  refine sound.of_subset rfl fun k txnw held => ?_
  rw [getElem?_without_pend] at held
  split at held
  · cases held
  · exact held

theorem Sound.vacate {ledger : Ledger} (sound : ledger.Sound pkg) (txn : Transaction) :
    (ledger.vacate pkg txn).Sound pkg :=
  sound.of_subset (vacate_db pkg ledger txn) fun _ _ held => (vacate_pend.mp held).1

theorem Sound.reserved {ledger : Ledger} (sound : ledger.Sound pkg) {txn : Transaction}
    (refsStored : ∀ inp ∈ txn.inputs, Stored ledger.db inp.ref) (ts : Nat) :
    (ledger.reserved pkg txn ts).Sound pkg := by
  refine ⟨fun k txnw held => ?_, fun k txnw held => ?_, fun k txnw held => ?_,
    fun k txnw held r mem => ?_, fun k txnw held r mem => ?_⟩
  · obtain ⟨old, held', sameTxn, -⟩ := getElem?_clearBits held
    rw [sameTxn]
    exact sound.dbKeyed k old held'
  · rw [getElem?_reserved_pend] at held
    split at held
    · cases held
      assumption
    · exact sound.pendKeyed k txnw held
  · obtain ⟨old, held', sameTxn, -, sameLen⟩ := getElem?_clearBits held
    rw [sameLen, sameTxn]
    exact sound.fit k old held'
  · obtain ⟨old, held', sameTxn, -⟩ := getElem?_clearBits held
    exact spent_reserved (sound.dbSpent k old held' r (sameTxn ▸ mem))
  · rw [getElem?_reserved_pend] at held
    split at held
    · cases held
      exact refs_reserved refsStored mem
    · exact spent_reserved (sound.pendSpent k txnw held r mem)

theorem Sound.stored {ledger : Ledger} (sound : ledger.Sound pkg) {txn : Transaction}
    (fresh : pkg.txid txn ∉ ledger.db)
    (refsStored : ∀ inp ∈ txn.inputs, Stored ledger.db inp.ref) (ts : Nat) :
    (ledger.stored pkg txn ts).Sound pkg := by
  have entry : ∀ (k : Bytes) (txnw : TxnWrapper),
      (ledger.stored pkg txn ts).db[k]? = some txnw →
      (k = pkg.txid txn ∧ txnw = .new txn ts) ∨ ∃ old, ledger.db[k]? = some old ∧
        txnw.txn = old.txn ∧ txnw.utxos.length = old.utxos.length := by
    intro k txnw held
    simp only [Ledger.stored, Std.ExtTreeMap.getElem?_insert,
      Std.LawfulEqCmp.compare_eq_iff_eq] at held
    split at held
    · rename_i same
      cases held
      exact .inl ⟨same.symm, rfl⟩
    · obtain ⟨old, held', sameTxn, -, sameLen⟩ := getElem?_clearBits held
      exact .inr ⟨old, held', sameTxn, sameLen⟩
  refine ⟨fun k txnw held => ?_, sound.pendKeyed, fun k txnw held => ?_,
    fun k txnw held r mem => ?_, fun k txnw held r mem =>
      spent_stored fresh (sound.pendSpent k txnw held r mem)⟩
  · rcases entry k txnw held with ⟨rfl, rfl⟩ | ⟨old, held', sameTxn, -⟩
    · rfl
    · rw [sameTxn]
      exact sound.dbKeyed k old held'
  · rcases entry k txnw held with ⟨rfl, rfl⟩ | ⟨old, held', sameTxn, sameLen⟩
    · simp [TxnWrapper.new]
    · rw [sameLen, sameTxn]
      exact sound.fit k old held'
  · rcases entry k txnw held with ⟨rfl, rfl⟩ | ⟨old, held', sameTxn, -⟩
    · exact refs_stored fresh refsStored mem
    · exact spent_stored fresh (sound.dbSpent k old held' r (sameTxn ▸ mem))

/-- **Accepting keeps the ledger sound.** -/
theorem Sound.accept {ledger : Ledger} (sound : ledger.Sound pkg) {txn : Transaction}
    (fresh : pkg.txid txn ∉ ledger.db)
    (refsStored : ∀ inp ∈ txn.inputs, Stored ledger.db inp.ref) :
    (ledger.accept pkg txn).Sound pkg := by
  have logged := (sound.vacate txn).noted (.accepted txn ledger.currentTime)
  unfold Ledger.accept
  split
  · exact logged.reserved (vacate_refsStored refsStored) _
  · exact logged.stored (vacate_fresh fresh) (vacate_refsStored refsStored) _

/-- **Committing keeps the ledger sound.** -/
theorem Sound.commit {ledger : Ledger} (sound : ledger.Sound pkg) {txnw : TxnWrapper}
    (fresh : pkg.txid txnw.txn ∉ ledger.db)
    (refsStored : ∀ inp ∈ txnw.txn.inputs, Stored ledger.db inp.ref) :
    (ledger.commit pkg txnw).Sound pkg :=
  ((sound.without txnw.txn).stored fresh refsStored _).noted _

theorem Sound.drop {ledger : Ledger} (sound : ledger.Sound pkg) (txnw : TxnWrapper) :
    (ledger.drop pkg txnw).Sound pkg :=
  (sound.without txnw.txn).noted _

end Ledger

end Belcoin
