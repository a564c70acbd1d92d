import Belcoin.Serialize
import Belcoin.Ledger.Bits

/-!
The database as it is stored: under each key the bytes of a wrapper.

A bitmap holds booleans until it is written and numbers once it is read. `serialize_congr`
says that the bytes depend only on the values, so neither the round trip nor the cycle
that each spend goes through (read a wrapper, clear one bit, write it back) can lose
anything: `stored_form`. `spendBit_refines` connects the bytes to the wrappers that the
rest of the development takes the database to hold.
-/

namespace Belcoin

/-- An entry of `utxos`: a boolean where the node set it, a number where it was read. -/
inductive Flag where
  | bool (b : Bool)
  | num (n : Nat)
  deriving DecidableEq, Repr

/-- The number an entry stands for, in comparisons as in writers. -/
def Flag.value : Flag → Nat
  | .bool b => b.toNat
  | .num n => n

/-- `TxnWrapper` with its bitmap as Python holds it. -/
structure TxnWrapper.Raw where
  txn : Transaction
  timestamp : Nat
  utxos : List Flag
  deriving DecidableEq, Repr

namespace TxnWrapper.Raw

/-- `TxnWrapper.__init__`. -/
def init (tx : Transaction) (ts : Nat) : Option (List Flag) → Raw
  | none => ⟨tx, ts, List.replicate tx.outputs.length (.bool true)⟩
  | some utxos => ⟨tx, ts, utxos⟩

/-- `w.utxos[i] = False`. -/
def clear (w : Raw) (i : Nat) : Except PyError Raw :=
  if i < w.utxos.length then .ok { w with utxos := w.utxos.set i (.bool false) }
  else .error .indexError

/-- Equal to Python: the entries have the same values. -/
structure Same (w w' : Raw) : Prop where
  txn : w.txn = w'.txn
  timestamp : w.timestamp = w'.timestamp
  utxos : w.utxos.map Flag.value = w'.utxos.map Flag.value

/-- The wrapper as it is read back: its entries are numbers. -/
def asRead (w : Raw) : Raw := { w with utxos := w.utxos.map fun flag => .num flag.value }

/-- The wrapper with all these bits cleared. -/
def cleared (w : Raw) (indices : List Nat) : Raw :=
  { w with utxos := indices.foldl (fun utxos i => utxos.set i (.bool false)) w.utxos }

theorem asRead_same (w : Raw) : w.asRead.Same w where
  txn := rfl
  timestamp := rfl
  utxos := by simp [asRead, Flag.value]

theorem values_cleared (w : Raw) (indices : List Nat) :
    (w.cleared indices).utxos.map Flag.value =
      (w.utxos.map Flag.value).mapIdx fun j value => if j ∈ indices then 0 else value := by
  suffices general : ∀ utxos : List Flag,
      (indices.foldl (fun utxos i => utxos.set i (.bool false)) utxos).map Flag.value =
        (utxos.map Flag.value).mapIdx fun j value => if j ∈ indices then 0 else value from
    general w.utxos
  induction indices with
  | nil =>
      intro utxos
      apply List.ext_getElem?
      intro j
      simp [Function.comp_def]
  | cons i indices ih =>
      intro utxos
      rw [List.foldl_cons, ih]
      apply List.ext_getElem?
      intro j
      rw [List.getElem?_mapIdx, List.getElem?_mapIdx, List.map_set, List.getElem?_set]
      by_cases here : i = j
      · subst here
        by_cases inside : i < utxos.length <;> simp [inside, Flag.value]
      · simp [here, Ne.symm here]

theorem Same.cleared {w w' : Raw} (same : w.Same w') (indices : List Nat) :
    (w.cleared indices).Same (w'.cleared indices) where
  txn := same.txn
  timestamp := same.timestamp
  utxos := by rw [values_cleared, values_cleared, same.utxos]

end TxnWrapper.Raw

open TxnWrapper

/-- The package with the writer of one byte on every number, and not only on bits. -/
structure ByteTesseract extends Tesseract where
  /-- `write_num(1, i)`. -/
  writeByte : Nat → Bytes

/-- Reading a byte undoes writing it, and a boolean is written as its number. -/
structure ByteTesseract.Faithful (tess : ByteTesseract) : Prop
    extends tess.toTesseract.Faithful where
  byte : ∀ n rest, n < 256 → tess.readNum (tess.writeByte n ++ rest) = .ok (n, rest)
  writeNum_eq : ∀ b, tess.writeNum b = tess.writeByte b.toNat

namespace ByteTesseract

variable (tess : ByteTesseract)

/-- `TxnWrapper.serialize`. -/
def serializeRaw (w : Raw) : Bytes :=
  tess.serializeTxn w.txn ++ (tess.writeVaruint w.timestamp ++
    (tess.writeVaruint w.utxos.length ++ w.utxos.flatMap fun i => tess.writeByte i.value))

/-- The loop of `TxnWrapper.unserialize`. -/
def readFlags : Nat → Bytes → Except PyError (List Flag × Bytes)
  | 0, buf => .ok ([], buf)
  | n + 1, buf => do
      let (bit, buf) ← tess.readNum buf
      let (utxos, buf) ← readFlags n buf
      pure (.num bit :: utxos, buf)

/-- `TxnWrapper.unserialize`, with what is left of the buffer. -/
def unserializeRaw (buf : Bytes) : Except PyError (Raw × Bytes) := do
  let (txn, buf) ← tess.unserializeTxn buf
  let (ts, buf) ← tess.readVaruint buf
  let (size, buf) ← tess.readVaruint buf
  let (utxos, buf) ← tess.readFlags size buf
  pure (Raw.init txn ts (some utxos), buf)

/-- `Storage.get`. -/
def get (db : Store Bytes) (key : Bytes) : Except PyError (Option Raw) :=
  match db[key]? with
  | none => .ok none
  | some val => do
      let (w, _) ← tess.unserializeRaw (← tess.serializationBuffer (.bytes val))
      pure (some w)

/-- `Storage.__getitem__`. -/
def getItem (db : Store Bytes) (key : Bytes) : Except PyError Raw := do
  match ← tess.get db key with
  | none => .error .keyError
  | some obj => pure obj

/-- `Storage.__setitem__`. -/
def setItem (db : Store Bytes) (key : Bytes) (obj : Raw) : Store Bytes :=
  db.insert key (tess.serializeRaw obj)

/-- What `write_txn_to_db` does to the database for one input:
`w = self[x]; w.utxos[i] = False; self[x] = w`. -/
def spendBit (x : Bytes) (db : Store Bytes) (i : Nat) : Except PyError (Store Bytes) := do
  let w ← tess.getItem db x
  let w ← w.clear i
  pure (tess.setItem db x w)

variable {tess}

/-! ### Reading what was written -/

/-- The bytes of a wrapper depend only on what Python compares. -/
theorem serialize_congr {w w' : Raw} (same : w.Same w') :
    tess.serializeRaw w = tess.serializeRaw w' := by
  have bytes : ∀ utxos : List Flag, (utxos.flatMap fun i => tess.writeByte i.value) =
      (utxos.map Flag.value).flatMap tess.writeByte := fun utxos => (List.flatMap_map ..).symm
  have lengths : w.utxos.length = w'.utxos.length := by
    simpa using congrArg List.length same.utxos
  rw [serializeRaw, serializeRaw, same.txn, same.timestamp, lengths, bytes, bytes, same.utxos]

theorem readFlags_write (faithful : tess.Faithful) {utxos : List Flag}
    (small : ∀ flag ∈ utxos, flag.value < 256) (rest : Bytes) :
    tess.readFlags utxos.length ((utxos.flatMap fun i => tess.writeByte i.value) ++ rest) =
      .ok (utxos.map fun flag => .num flag.value, rest) := by
  induction utxos with
  | nil => rfl
  | cons flag utxos ih =>
      obtain ⟨first, later⟩ := List.forall_mem_cons.mp small
      rw [List.flatMap_cons, List.append_assoc, List.length_cons, readFlags,
        faithful.byte _ _ first]
      change (tess.readFlags utxos.length _ >>= fun entry => _) = _
      rw [ih later]
      rfl

/-- A wrapper that the writers admit. -/
structure Admitted (tess : ByteTesseract) (w : Raw) : Prop where
  timestamp : tess.Admits w.timestamp
  size : tess.Admits w.utxos.length
  flags : ∀ flag ∈ w.utxos, flag.value < 256

/-- The wrapper is read back with numbers for its entries, and what follows it is left. -/
theorem unserialize_serialize (faithful : tess.Faithful) {w : Raw} (admitted : tess.Admitted w)
    (rest : Bytes) :
    tess.unserializeRaw (tess.serializeRaw w ++ rest) =
      .ok (w.asRead, rest) := by
  rw [unserializeRaw, serializeRaw, List.append_assoc, List.append_assoc, List.append_assoc,
    faithful.txn]
  change (tess.readVaruint (tess.writeVaruint w.timestamp ++ _) >>= fun entry => _) = _
  rw [faithful.varuint _ _ admitted.timestamp]
  change (tess.readVaruint (tess.writeVaruint w.utxos.length ++ _) >>= fun entry => _) = _
  rw [faithful.varuint _ _ admitted.size]
  change (tess.readFlags w.utxos.length _ >>= fun entry => _) = _
  rw [readFlags_write faithful admitted.flags]
  rfl

theorem getItem_stored (faithful : tess.Faithful) {db : Store Bytes} {x : Bytes} {w : Raw}
    (admitted : tess.Admitted w) (stored : db[x]? = some (tess.serializeRaw w)) :
    tess.getItem db x = .ok w.asRead := by
  have read := unserialize_serialize faithful admitted []
  rw [List.append_nil] at read
  rw [getItem, get, stored]
  simp only [faithful.ofBytes]
  change ((tess.unserializeRaw (tess.serializeRaw w) >>= fun entry => pure (some entry.1)) >>=
    fun obj => _) = _
  rw [read]
  rfl

/-! ### Reading, changing and writing back -/

/-- One cycle clears one bit. -/
theorem spendBit_ok (faithful : tess.Faithful) {db : Store Bytes} {x : Bytes} {w : Raw}
    (admitted : tess.Admitted w) (stored : db[x]? = some (tess.serializeRaw w)) {i : Nat}
    (inside : i < w.utxos.length) :
    tess.spendBit x db i = .ok (db.insert x (tess.serializeRaw (w.cleared [i]))) := by
  have insideRead : i < w.asRead.utxos.length := by simpa [Raw.asRead] using inside
  rw [spendBit, getItem_stored faithful admitted stored]
  change (w.asRead.clear i >>= fun w => pure (tess.setItem db x w)) = _
  rw [Raw.clear, if_pos insideRead, ← serialize_congr (w.asRead_same.cleared [i])]
  rfl

theorem Admitted.cleared {w : Raw} (admitted : tess.Admitted w) (indices : List Nat) :
    tess.Admitted (w.cleared indices) := by
  have values := w.values_cleared indices
  have lengths : (w.cleared indices).utxos.length = w.utxos.length := by
    simpa using congrArg List.length values
  refine ⟨admitted.timestamp, lengths ▸ admitted.size, ?_⟩
  intro flag listed
  have value : flag.value ∈ (w.utxos.map Flag.value).mapIdx fun j value =>
      if j ∈ indices then 0 else value := values ▸ List.mem_map_of_mem listed
  obtain ⟨j, inside, eq⟩ := List.mem_mapIdx.mp value
  rw [← eq, List.getElem_map]
  split
  · decide
  · exact admitted.flags _ (List.getElem_mem _)

/-- Any sequence of cycles on one key accumulates, and leaves the other keys alone. -/
theorem spendBits_ok (faithful : tess.Faithful) {x : Bytes} (indices : List Nat) :
    ∀ {db : Store Bytes} {w : Raw}, tess.Admitted w → db[x]? = some (tess.serializeRaw w) →
      (∀ i ∈ indices, i < w.utxos.length) →
      ∃ db', indices.foldlM (tess.spendBit x) db = .ok db' ∧
        db'[x]? = some (tess.serializeRaw (w.cleared indices)) ∧
        ∀ key, key ≠ x → db'[key]? = db[key]? := by
  induction indices with
  | nil =>
      intro db w _ stored _
      exact ⟨db, rfl, stored, fun _ _ => rfl⟩
  | cons i indices ih =>
      intro db w admitted stored inside
      obtain ⟨here, later⟩ := List.forall_mem_cons.mp inside
      have cycle := spendBit_ok faithful admitted stored here
      have written : (db.insert x (tess.serializeRaw (w.cleared [i])))[x]? =
          some (tess.serializeRaw (w.cleared [i])) := by simp
      have lengths : (w.cleared [i]).utxos.length = w.utxos.length := List.length_set
      obtain ⟨db', run, stored', others⟩ :=
        ih (admitted.cleared [i]) written fun j listed => lengths ▸ later j listed
      refine ⟨db', ?_, stored', ?_⟩
      · rw [List.foldlM_cons, cycle]
        exact run
      · intro key other
        rw [others key other, Std.ExtTreeMap.getElem?_insert]
        simp [Ne.symm other]

/-- **The stored form loses nothing.** A wrapper is read back equal, with what follows it
left over; and any sequence of cycles on the key it is stored under clears just the bits
named, of this key and no other. -/
theorem stored_form (faithful : tess.Faithful) {w : Raw} (admitted : tess.Admitted w) :
    (∀ rest, ∃ w', tess.unserializeRaw (tess.serializeRaw w ++ rest) = .ok (w', rest) ∧
      w'.Same w) ∧
    ∀ (db : Store Bytes) (x : Bytes), db[x]? = some (tess.serializeRaw w) →
      ∀ indices : List Nat, (∀ i ∈ indices, i < w.utxos.length) →
      ∃ db' w', indices.foldlM (tess.spendBit x) db = .ok db' ∧ tess.getItem db' x = .ok w' ∧
        w'.txn = w.txn ∧ w'.timestamp = w.timestamp ∧
        w'.utxos.map Flag.value =
          (w.utxos.map Flag.value).mapIdx (fun j value => if j ∈ indices then 0 else value) ∧
        ∀ key, key ≠ x → db'[key]? = db[key]? := by
  refine ⟨fun rest => ⟨_, unserialize_serialize faithful admitted rest, w.asRead_same⟩, ?_⟩
  intro db x stored indices inside
  obtain ⟨db', run, stored', others⟩ := spendBits_ok faithful indices admitted stored inside
  refine ⟨db', _, run, getItem_stored faithful (admitted.cleared indices) stored', rfl, rfl, ?_,
    others⟩
  rw [(w.cleared indices).asRead_same.utxos, w.values_cleared]

/-! ### The wrappers that the bytes stand for -/

end ByteTesseract

/-- A wrapper with its bits as booleans, as the node builds it. -/
def TxnWrapper.raw (txnw : TxnWrapper) : TxnWrapper.Raw :=
  ⟨txnw.txn, txnw.timestamp, txnw.utxos.map .bool⟩

theorem TxnWrapper.raw_new (tx : Transaction) (ts : Nat) :
    (TxnWrapper.new tx ts).raw = TxnWrapper.Raw.init tx ts none := by
  simp [TxnWrapper.raw, TxnWrapper.new, TxnWrapper.Raw.init]

namespace ByteTesseract

/-- A database of bytes holds the wrappers of `db`. -/
def Represents (tess : ByteTesseract) (bytes : Store Bytes) (db : Store TxnWrapper) : Prop :=
  ∀ key : Bytes, bytes[key]? = db[key]?.map tess.serialize

variable {tess : ByteTesseract}

theorem serializeRaw_raw (faithful : tess.Faithful) (txnw : TxnWrapper) :
    tess.serializeRaw txnw.raw = tess.serialize txnw := by
  simp [serializeRaw, Tesseract.serialize, TxnWrapper.raw, Flag.value, List.flatMap_map,
    funext faithful.writeNum_eq]

/-- The cycle on bytes is `clearBit` on wrappers. -/
theorem spendBit_refines (faithful : tess.Faithful) {bytes : Store Bytes} {db : Store TxnWrapper}
    (represents : tess.Represents bytes db) {x : Bytes} {txnw : TxnWrapper}
    (held : db[x]? = some txnw) (timestamp : tess.Admits txnw.timestamp)
    (size : tess.Admits txnw.utxos.length) {i : Nat} (inside : i < txnw.utxos.length) :
    ∃ bytes', tess.spendBit x bytes i = .ok bytes' ∧ tess.Represents bytes' (clearBit db (x, i)) := by
  have admitted : tess.Admitted txnw.raw := by
    refine ⟨timestamp, by simpa [TxnWrapper.raw] using size, ?_⟩
    intro flag listed
    obtain ⟨b, -, rfl⟩ := List.mem_map.mp listed
    cases b <;> decide
  have stored : bytes[x]? = some (tess.serializeRaw txnw.raw) := by
    rw [represents, held, serializeRaw_raw faithful]
    rfl
  refine ⟨_, spendBit_ok faithful admitted stored (by simpa [TxnWrapper.raw] using inside), ?_⟩
  intro key
  have cleared : txnw.raw.cleared [i] = { txnw with utxos := txnw.utxos.set i false }.raw := by
    simp [Raw.cleared, TxnWrapper.raw, List.map_set]
  rw [cleared, serializeRaw_raw faithful, clearBit_getElem?, Std.ExtTreeMap.getElem?_insert]
  by_cases here : x = key
  · subst here
    simp [held]
  · simp [here, Ne.symm here, represents key]

end ByteTesseract

/-! ### The ideal buffer -/

namespace Ideal

/-- A number below 256 is one byte. -/
def byteTesseract : ByteTesseract where
  toTesseract := tesseract
  writeByte n := [UInt8.ofNat n]

theorem byteTesseract_faithful : byteTesseract.Faithful where
  toFaithful := tesseract_faithful
  byte n rest small := congrArg (fun n => Except.ok (n, rest)) (UInt8.toNat_ofNat_of_lt' small)
  writeNum_eq b := by cases b <;> rfl

/-- A wrapper with booleans and numbers in its bitmap. -/
def mixed : TxnWrapper.Raw := ⟨genesis, 9, [.bool true, .num 1]⟩

end Ideal

open Belcoin.Ideal in
theorem stored_form_mixed :
    (∀ rest, ∃ w', byteTesseract.unserializeRaw (byteTesseract.serializeRaw mixed ++ rest) =
        .ok (w', rest) ∧ w'.Same mixed) ∧
      ∃ db' w', [1].foldlM (byteTesseract.spendBit [5])
          ((∅ : Store Bytes).insert [5] (byteTesseract.serializeRaw mixed)) = .ok db' ∧
        byteTesseract.getItem db' [5] = .ok w' ∧ w'.utxos.map Flag.value = [1, 0] := by
  have admitted : byteTesseract.Admitted mixed := ⟨trivial, trivial, by decide⟩
  have lossless := ByteTesseract.stored_form byteTesseract_faithful admitted
  have stored : ((∅ : Store Bytes).insert [5] (byteTesseract.serializeRaw mixed))[([5] : Bytes)]? =
      some (byteTesseract.serializeRaw mixed) := by simp
  obtain ⟨db', w', run, item, -, -, values, -⟩ := lossless.2 _ [5] stored [1] (by decide)
  exact ⟨lossless.1, db', w', run, item, values⟩

end Belcoin
