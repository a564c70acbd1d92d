import Belcoin.Ideal
import Belcoin.Lib.Codec

/-!
The stored form of a transaction.

`TxnWrapper.serialize` writes the transaction, the timestamp, the number of outputs and
one number for each bit; `TxnWrapper.unserialize` reads them back in this order. The
buffer they use belongs to the tesseract package: its writers append bytes, and its
readers take from the front what they read.
-/

namespace Belcoin

/-- What `SerializationBuffer` can be handed: the bytes of a database, or an object that
was unserialized before. -/
inductive Buffered where
  | bytes (b : Bytes)
  | object (txnw : TxnWrapper)

/-- The functions of the tesseract package that read and write. -/
structure Tesseract where
  /-- `SerializationBuffer(value)`: the bytes that can be read from it. -/
  serializationBuffer : Buffered → Except PyError Bytes
  serializeTxn : Transaction → Bytes
  unserializeTxn : Bytes → Except PyError (Transaction × Bytes)
  writeVaruint : Nat → Bytes
  readVaruint : Bytes → Except PyError (Nat × Bytes)
  /-- `write_num(1, i)`. -/
  writeNum : Bool → Bytes
  /-- `read_num(1)`. -/
  readNum : Bytes → Except PyError (Nat × Bytes)
  /-- The numbers that a varuint can hold. -/
  Admits : Nat → Prop

/-- Each reader undoes its writer, consuming exactly the bytes written; a buffer over
bytes yields these, and over anything else nothing can be read. -/
structure Tesseract.Faithful (tess : Tesseract) : Prop where
  ofBytes : ∀ b, tess.serializationBuffer (.bytes b) = .ok b
  ofObject : ∀ txnw, ∃ e, tess.serializationBuffer (.object txnw) = .error e
  txn : ∀ txn rest, tess.unserializeTxn (tess.serializeTxn txn ++ rest) = .ok (txn, rest)
  varuint : ∀ n rest, tess.Admits n → tess.readVaruint (tess.writeVaruint n ++ rest) = .ok (n, rest)
  num : ∀ b rest, tess.readNum (tess.writeNum b ++ rest) = .ok (b.toNat, rest)

variable (tess : Tesseract)

/-- `TxnWrapper.serialize`. -/
def Tesseract.serialize (txnw : TxnWrapper) : Bytes :=
  tess.serializeTxn txnw.txn ++ (tess.writeVaruint txnw.timestamp ++
    (tess.writeVaruint txnw.utxos.length ++ txnw.utxos.flatMap tess.writeNum))

/-- The loop of `TxnWrapper.unserialize`: so many numbers, each read as a bit. -/
def Tesseract.readUtxos : Nat → Bytes → Except PyError (List Bool × Bytes)
  | 0, buf => .ok ([], buf)
  | n + 1, buf => do
      let (bit, buf) ← tess.readNum buf
      let (utxos, buf) ← Tesseract.readUtxos n buf
      pure ((bit != 0) :: utxos, buf)

/-- `TxnWrapper.unserialize`, with what is left of the buffer. -/
def Tesseract.unserialize (buf : Bytes) : Except PyError (TxnWrapper × Bytes) := do
  let (txn, buf) ← tess.unserializeTxn buf
  let (timestamp, buf) ← tess.readVaruint buf
  let (size, buf) ← tess.readVaruint buf
  let (utxos, buf) ← tess.readUtxos size buf
  pure (⟨txn, timestamp, utxos⟩, buf)

variable {tess}

theorem Tesseract.readUtxos_write (faithful : tess.Faithful) (utxos : List Bool) (rest : Bytes) :
    tess.readUtxos utxos.length (utxos.flatMap tess.writeNum ++ rest) = .ok (utxos, rest) := by
  induction utxos with
  | nil => rfl
  | cons b utxos ih =>
      have bit : (b.toNat != 0) = b := by cases b <;> rfl
      rw [List.flatMap_cons, List.append_assoc, List.length_cons, readUtxos, faithful.num]
      change (tess.readUtxos utxos.length (utxos.flatMap tess.writeNum ++ rest) >>= fun entry =>
        pure ((b.toNat != 0) :: entry.1, entry.2)) = _
      rw [ih, bit]
      rfl

/-- What was written is read back, and what follows it is left. -/
theorem Tesseract.unserialize_write (faithful : tess.Faithful) {txnw : TxnWrapper}
    (timestamp : tess.Admits txnw.timestamp) (size : tess.Admits txnw.utxos.length) (rest : Bytes) :
    tess.unserialize (tess.serialize txnw ++ rest) = .ok (txnw, rest) := by
  rw [unserialize, serialize, List.append_assoc, List.append_assoc, List.append_assoc,
    faithful.txn]
  change (tess.readVaruint (tess.writeVaruint txnw.timestamp ++ _) >>= fun entry => _) = _
  rw [faithful.varuint _ _ timestamp]
  change (tess.readVaruint (tess.writeVaruint txnw.utxos.length ++ _) >>= fun entry => _) = _
  rw [faithful.varuint _ _ size]
  change (tess.readUtxos txnw.utxos.length _ >>= fun entry => _) = _
  rw [readUtxos_write faithful]
  rfl

/-! ### Ideal readers and writers -/

namespace Ideal

/-- A number is so many ones and a zero. -/
def numberCodec : Codec Nat UInt8 := @Codec.nat UInt8 _ 1 0 (by decide)

def bytesCodec : Codec Bytes UInt8 := .list numberCodec (.symbol UInt8)

def inputCodec : Codec Input UInt8 :=
  .image (.pair bytesCodec (.pair numberCodec (.pair bytesCodec (.pair bytesCodec
      (.pair bytesCodec bytesCodec)))))
    (fun inp => (inp.txid, inp.index, inp.signature, inp.signature2, inp.htlcPreimage,
      inp.htlcSignature))
    (fun p => ⟨p.1, p.2.1, p.2.2.1, p.2.2.2.1, p.2.2.2.2.1, p.2.2.2.2.2⟩) fun _ => rfl

def outputCodec : Codec Output UInt8 :=
  .image (.pair numberCodec (.pair bytesCodec (.pair bytesCodec (.pair numberCodec
      (.pair bytesCodec bytesCodec)))))
    (fun o => (o.amount, o.pubkey, o.pubkey2, o.htlcTimeout, o.htlcHashlock, o.htlcPubkey))
    (fun p => ⟨p.1, p.2.1, p.2.2.1, p.2.2.2.1, p.2.2.2.2.1, p.2.2.2.2.2⟩) fun _ => rfl

def txnCodec : Codec Transaction UInt8 :=
  .image (.pair (.list numberCodec inputCodec) (.pair (.list numberCodec outputCodec)
      (.pair numberCodec numberCodec)))
    (fun txn => (txn.inputs, txn.outputs, txn.seq, txn.timelock))
    (fun p => ⟨p.1, p.2.1, p.2.2.1, p.2.2.2⟩) fun _ => rfl

/-- What a reader that finds nothing raises. -/
def orRaise {α : Type} : Option α → Except PyError α
  | none => .error .indexError
  | some a => .ok a

/-- Readers and writers that meet every assumption made of the real ones. -/
def tesseract : Tesseract where
  serializationBuffer
    | .bytes b => .ok b
    | .object _ => .error .attributeError
  serializeTxn := txnCodec.write
  unserializeTxn buf := orRaise (txnCodec.read buf)
  writeVaruint := numberCodec.write
  readVaruint buf := orRaise (numberCodec.read buf)
  writeNum b := [if b then 1 else 0]
  readNum
    | [] => .error .indexError
    | b :: rest => .ok (b.toNat, rest)
  Admits _ := True

theorem tesseract_faithful : tesseract.Faithful where
  ofBytes _ := rfl
  ofObject _ := ⟨_, rfl⟩
  txn txn rest := congrArg orRaise (txnCodec.read_write txn rest)
  varuint n rest _ := congrArg orRaise (numberCodec.read_write n rest)
  num b rest := by cases b <;> rfl

end Ideal

end Belcoin
