import Belcoin.Serialize
import Belcoin.Ledger.Finish
import Belcoin.Ledger.Indexes

/-!
How a node answers requests for transactions.

`jsonrpc_req_txn` looks into four places, one after the other: the list of invalid
transactions, the mempool, `db` and `pend`. The list is never pruned, and what
`PendingDB.get` returns is unserialized already. `node_answers` says for which ids the
answer is the truth all the same.
-/

namespace Belcoin

/-- What `jsonrpc_req_txn` returns: the serialized transaction in hex, `None` or 0. -/
inductive Answer where
  | hex (serialized : Bytes)
  | shownInvalid
  | notFound
  deriving DecidableEq

/-- The node has the transaction in its mempool, in `db` or in `pend`. -/
def Storage.Holds (s : Storage) (txid : Bytes) : Prop :=
  txid ∈ s.mempool ∨ txid ∈ s.db ∨ txid ∈ s.pend

/-- `jsonrpc_req_txn`. `db` is read as it is stored, `pend` through `PendingDB.get`. -/
def Tesseract.jsonrpcReqTxn (tess : Tesseract) (s : Storage) (txid : Bytes) :
    Except PyError Answer :=
  if txid ∈ s.invalidTxns then .ok .shownInvalid
  else
    match s.mempool[txid]? with
    | some txn => .ok (.hex (tess.serializeTxn txn))
    | none =>
        let txnw := match s.db[txid]? with
          | some txnw => some (Buffered.bytes (tess.serialize txnw))
          | none => s.pend[txid]?.map .object
        match txnw with
        | none => .ok .notFound
        | some txnw => do
            let (txnw, _) ← tess.unserialize (← tess.serializationBuffer txnw)
            pure (.hex (tess.serializeTxn txnw.txn))

variable (pkg : Packages) (tess : Tesseract)

/-- The answer is the truth. -/
structure Storage.Truthful (s : Storage) (txid : Bytes) : Prop where
  returns : ∃ answer, tess.jsonrpcReqTxn s txid = .ok answer
  held : s.Holds txid → ∃ txn, pkg.txid txn = txid ∧
    tess.jsonrpcReqTxn s txid = .ok (.hex (tess.serializeTxn txn))
  shownInvalid : tess.jsonrpcReqTxn s txid = .ok .shownInvalid →
    txid ∈ s.invalidTxns ∧ ¬ s.Holds txid
  notFound : tess.jsonrpcReqTxn s txid = .ok .notFound → txid ∉ s.invalidTxns ∧ ¬ s.Holds txid

variable {tess}

/-- What `db` holds is read back. -/
theorem jsonrpcReqTxn_stored (faithful : tess.Faithful) {s : Storage} {txid : Bytes}
    {txnw : TxnWrapper} (listed : txid ∉ s.invalidTxns) (absent : s.mempool[txid]? = none)
    (stored : s.db[txid]? = some txnw) (timestamp : tess.Admits txnw.timestamp)
    (size : tess.Admits txnw.utxos.length) :
    tess.jsonrpcReqTxn s txid = .ok (.hex (tess.serializeTxn txnw.txn)) := by
  have read := Tesseract.unserialize_write faithful timestamp size []
  rw [List.append_nil] at read
  rw [Tesseract.jsonrpcReqTxn, if_neg listed, absent, stored]
  simp only [faithful.ofBytes]
  change (tess.unserialize (tess.serialize txnw) >>= fun entry => _) = _
  rw [read]
  rfl

/-- What only `pend` holds is not. -/
theorem jsonrpcReqTxn_pending (faithful : tess.Faithful) {s : Storage} {txid : Bytes}
    {txnw : TxnWrapper} (listed : txid ∉ s.invalidTxns) (absent : s.mempool[txid]? = none)
    (notStored : s.db[txid]? = none) (pending : s.pend[txid]? = some txnw) :
    ∃ e, tess.jsonrpcReqTxn s txid = .error e := by
  obtain ⟨e, raised⟩ := faithful.ofObject txnw
  refine ⟨e, ?_⟩
  rw [Tesseract.jsonrpcReqTxn, if_neg listed, absent, notStored, pending]
  simp only [Option.map_some, raised]
  rfl

/-- **When answers are truthful.** At every state that a run reaches, whether
operations raised or not, and for every id, the answer to a request is truthful exactly
when the id is not held although it was rejected before, and not held by `pend`
alone. -/
theorem Setup.node_answers {setup : Setup} (faithful : tess.Faithful) {s : Storage}
    (reached : setup.faultyNode.Reachable s)
    (admitted : ∀ (k : Bytes) (txnw : TxnWrapper), s.db[k]? = some txnw →
      tess.Admits txnw.timestamp ∧ tess.Admits txnw.utxos.length) (txid : Bytes) :
    s.Truthful setup.toPackages tess txid ↔
      (txid ∈ s.invalidTxns → ¬ s.Holds txid) ∧
        (txid ∈ s.pend → txid ∈ s.mempool ∨ txid ∈ s.db) := by
  have present : ∀ {V : Type} {db : Store V} {v : V}, db[txid]? = some v → txid ∈ db :=
    fun held => Std.ExtTreeMap.mem_iff_isSome_getElem?.mpr (by simp [held])
  have missing : ∀ {V : Type} {db : Store V}, db[txid]? = none → txid ∉ db :=
    fun absent => by simp [Std.ExtTreeMap.mem_iff_isSome_getElem?, absent]
  by_cases listed : txid ∈ s.invalidTxns
  · have answer : tess.jsonrpcReqTxn s txid = .ok .shownInvalid := if_pos listed
    constructor
    · intro truthful
      have away := (truthful.shownInvalid answer).2
      exact ⟨fun _ => away, fun pending => absurd (.inr (.inr pending)) away⟩
    · rintro ⟨away, -⟩
      refine ⟨⟨_, answer⟩, fun held => absurd held (away listed), fun _ => ⟨listed, away listed⟩, ?_⟩
      rw [answer]
      nofun
  · have hexed : ∀ txn, setup.txid txn = txid →
        tess.jsonrpcReqTxn s txid = .ok (.hex (tess.serializeTxn txn)) →
        s.Truthful setup.toPackages tess txid := fun txn own answer =>
      ⟨⟨_, answer⟩, fun _ => ⟨txn, own, answer⟩, by rw [answer]; nofun, by rw [answer]; nofun⟩
    cases submitted : s.mempool[txid]? with
    | some txn =>
        have answer : tess.jsonrpcReqTxn s txid = .ok (.hex (tess.serializeTxn txn)) := by
          rw [Tesseract.jsonrpcReqTxn, if_neg listed, submitted]
        refine iff_of_true (hexed txn ((setup.node_fit reached).2 txid txn submitted) answer) ?_
        exact ⟨fun rejected => absurd rejected listed, fun _ => .inl (present submitted)⟩
    | none =>
        cases stored : s.db[txid]? with
        | some txnw =>
            have admits := admitted txid txnw stored
            refine iff_of_true (hexed txnw.txn ((setup.node_keyed reached).2 txid txnw stored)
              (jsonrpcReqTxn_stored faithful listed submitted stored admits.1 admits.2)) ?_
            exact ⟨fun rejected => absurd rejected listed, fun _ => .inr (present stored)⟩
        | none =>
            cases pending : s.pend[txid]? with
            | some txnw =>
                obtain ⟨e, raised⟩ := jsonrpcReqTxn_pending faithful listed submitted stored pending
                refine iff_of_false (fun truthful => ?_) fun either => ?_
                · obtain ⟨answer, returned⟩ := truthful.returns
                  rw [raised] at returned
                  cases returned
                · exact (either.2 (present pending)).elim (missing submitted) (missing stored)
            | none =>
                have away : ¬ s.Holds txid := by
                  rintro (held | held | held)
                  · exact missing submitted held
                  · exact missing stored held
                  · exact missing pending held
                have answer : tess.jsonrpcReqTxn s txid = .ok .notFound := by
                  rw [Tesseract.jsonrpcReqTxn, if_neg listed, submitted, stored, pending]
                  rfl
                refine iff_of_true ⟨⟨_, answer⟩, fun held => absurd held away, ?_, fun _ =>
                  ⟨listed, away⟩⟩ ⟨fun _ => away, fun pended => absurd pended (missing pending)⟩
                rw [answer]
                nofun

/-- A payment that was committed is sent to whoever asks for it. -/
theorem node_answers_committed :
    (Ideal.small.after lockedRun).Truthful Ideal.packages Ideal.tesseract
      (Ideal.packages.txid (Ideal.pay (Ideal.packages.txid Ideal.genesis) 0 0 5)) :=
  (@Setup.node_answers Ideal.tesseract Ideal.small Ideal.tesseract_faithful _
    (Setup.faulty_of_node (Ideal.small.reachable_after lockedRun))
    (fun _ _ _ => ⟨trivial, trivial⟩) _).mpr ⟨fun rejected => absurd rejected (by decide +kernel),
      fun _ => .inr (by decide +kernel)⟩

/-- **A pending transaction that cannot be sent.** While the payment waits for its
timelock, the request for it raises. -/
theorem pending_unanswered :
    ¬ ∀ s, Ideal.small.node.Reachable s → ∀ txid,
      s.Truthful Ideal.packages Ideal.tesseract txid := by
  intro claim
  have truthful := claim _ (Ideal.small.reachable_after (lockedRun.take 3))
    (Ideal.packages.txid (Ideal.pay (Ideal.packages.txid Ideal.genesis) 0 0 5))
  obtain ⟨answer, returned⟩ := truthful.returns
  have raised : (match Ideal.tesseract.jsonrpcReqTxn (Ideal.small.after (lockedRun.take 3))
      (Ideal.packages.txid (Ideal.pay (Ideal.packages.txid Ideal.genesis) 0 0 5)) with
      | .ok _ => true
      | .error _ => false) = false := by decide +kernel
  rw [returned] at raised
  cases raised

end Belcoin
