import Belcoin.Ledger.Settle

/-!
The two halves of a stored wrapper: the bitmap, which spending clears, and the
record, that is the transaction with its timestamp, which never changes.

`bit_clearBits` and `record_clearBits` are all that later modules use of the
bitmap representation.
-/

namespace Belcoin

open Stateful

/-- The bit of an output, if it has one. -/
def bit (db : Store TxnWrapper) (r : Ref) : Option Bool := db[r.1]?.bind fun txnw => txnw.utxos[r.2]?

/-- The transaction stored under an id, and its timestamp. -/
def record (db : Store TxnWrapper) (k : Bytes) : Option (Transaction × Nat) :=
  db[k]?.map fun txnw => (txnw.txn, txnw.timestamp)

/-- The output a reference points at. -/
def outputAt (db : Store TxnWrapper) (r : Ref) : Option Output :=
  db[r.1]?.bind fun txnw => txnw.txn.outputs[r.2]?

/-- The amount of an output; nothing if there is no such output. -/
def amountAt (db : Store TxnWrapper) (r : Ref) : Nat := ((outputAt db r).map Output.amount).getD 0

/-- Clear the bits of a list of outputs. -/
def clearBits (db : Store TxnWrapper) (refs : List Ref) : Store TxnWrapper := refs.foldl clearBit db

theorem clearBit_getElem? (db : Store TxnWrapper) (r : Ref) (k : Bytes) :
    (clearBit db r)[k]? = db[k]?.map fun txnw =>
      if k = r.1 then { txnw with utxos := txnw.utxos.set r.2 false } else txnw := by
  unfold clearBit
  cases held : db[r.1]? with
  | none =>
      by_cases same : k = r.1
      · simp [same, held]
      · cases db[k]? <;> simp [same]
  | some txnw =>
      simp only [Std.ExtTreeMap.getElem?_insert, Std.LawfulEqCmp.compare_eq_iff_eq]
      by_cases same : r.1 = k
      · subst same
        simp [held]
      · rw [if_neg same]
        cases db[k]? <;> simp [Ne.symm same]

theorem bit_clearBit (db : Store TxnWrapper) (r r' : Ref) :
    bit (clearBit db r) r' = if r' = r then (bit db r).map fun _ => false else bit db r' := by
  unfold bit
  rw [clearBit_getElem?]
  obtain ⟨k, i⟩ := r
  obtain ⟨k', i'⟩ := r'
  by_cases sameKey : k' = k
  · subst sameKey
    cases db[k']? with
    | none => simp
    | some txnw =>
        by_cases sameIndex : i' = i
        · subst sameIndex
          by_cases inRange : i' < txnw.utxos.length
          · simp [inRange]
          · simp [inRange]
        · simp [sameIndex, List.getElem?_set_ne (Ne.symm sameIndex)]
  · cases db[k']? <;> simp [sameKey]

@[simp] theorem record_clearBit (db : Store TxnWrapper) (r : Ref) (k : Bytes) :
    record (clearBit db r) k = record db k := by
  unfold record
  rw [clearBit_getElem?, Option.map_map]
  congr 1
  funext txnw
  by_cases same : k = r.1 <;> simp [same]

@[simp] theorem stored_clearBit (db : Store TxnWrapper) (r r' : Ref) :
    Stored (clearBit db r) r' ↔ Stored db r' := by
  unfold Stored
  rw [clearBit_getElem?]
  constructor
  · rintro ⟨txnw', held, len, out⟩
    obtain ⟨txnw, held', rfl⟩ := Option.map_eq_some_iff.mp held
    by_cases same : r'.1 = r.1 <;> exact ⟨txnw, held', by simpa [same] using len,
      by simpa [same] using out⟩
  · rintro ⟨txnw, held, len, out⟩
    refine ⟨_, by rw [held]; rfl, ?_, ?_⟩ <;> by_cases same : r'.1 = r.1 <;> simpa [same]

theorem clearBits_cons (db : Store TxnWrapper) (r : Ref) (refs : List Ref) :
    clearBits db (r :: refs) = clearBits (clearBit db r) refs := rfl

/-- Spending changes the bits of the outputs named, and no others. -/
theorem bit_clearBits (db : Store TxnWrapper) (refs : List Ref) (r : Ref) :
    bit (clearBits db refs) r = if r ∈ refs then (bit db r).map fun _ => false else bit db r := by
  induction refs generalizing db with
  | nil => rfl
  | cons r' refs ih =>
      rw [clearBits_cons, ih, bit_clearBit]
      by_cases same : r = r'
      · subst same
        by_cases mem : r ∈ refs <;> cases bit db r <;> simp [mem]
      · by_cases mem : r ∈ refs <;> simp [same, mem]

@[simp] theorem record_clearBits (db : Store TxnWrapper) (refs : List Ref) (k : Bytes) :
    record (clearBits db refs) k = record db k := by
  induction refs generalizing db with
  | nil => rfl
  | cons r refs ih => rw [clearBits_cons, ih, record_clearBit]

@[simp] theorem stored_clearBits (db : Store TxnWrapper) (refs : List Ref) (r : Ref) :
    Stored (clearBits db refs) r ↔ Stored db r := by
  induction refs generalizing db with
  | nil => rfl
  | cons r' refs ih => rw [clearBits_cons, ih, stored_clearBit]

theorem outputAt_eq_record (db : Store TxnWrapper) (r : Ref) :
    outputAt db r = (record db r.1).bind fun entry => entry.1.outputs[r.2]? := by
  unfold outputAt record
  cases db[r.1]? <;> rfl

/-- Databases with the same records have the same amounts. -/
theorem amountAt_congr {db db' : Store TxnWrapper} {r : Ref}
    (same : record db' r.1 = record db r.1) : amountAt db' r = amountAt db r := by
  rw [amountAt, amountAt, outputAt_eq_record, outputAt_eq_record, same]

theorem mem_iff_record {db : Store TxnWrapper} {k : Bytes} :
    k ∈ db ↔ ∃ entry, record db k = some entry := by
  unfold record
  rw [Std.ExtTreeMap.mem_iff_isSome_getElem?, Option.isSome_iff_exists]
  constructor
  · rintro ⟨txnw, held⟩
    exact ⟨_, by rw [held]; rfl⟩
  · rintro ⟨entry, held⟩
    obtain ⟨txnw, held', -⟩ := Option.map_eq_some_iff.mp held
    exact ⟨txnw, held'⟩

/-- Spending neither adds nor removes a transaction. -/
theorem mem_clearBits {db : Store TxnWrapper} {refs : List Ref} {k : Bytes} :
    k ∈ clearBits db refs ↔ k ∈ db := by
  rw [mem_iff_record, mem_iff_record, record_clearBits]

end Belcoin
