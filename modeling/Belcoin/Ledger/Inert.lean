import Belcoin.Ledger.Exclusive
import Belcoin.Ledger.Finish
import Belcoin.Ledger.Indexes

/-!
Rejected transactions are inert.

A rejection only takes ids out of the mempool. So a block and the same block without
its rejected transactions run side by side: the node that processes the second keeps
the ledger and the indexes of the other, and a mempool that holds at least as much
(`Storage.Above`).
-/

namespace Belcoin

open Stateful

variable (pkg : Packages)

/-! ### The block without its rejected transactions -/

/-- `verify_txn` returns false for the transaction that the mempool holds under this
id. -/
def Packages.refuses (s : Storage) (txid : Bytes) : Bool :=
  match s.mempool[txid]? with
  | none => false
  | some txn =>
      match pkg.verifyTxn txn true s with
      | .ok verified _ => !verified
      | .error _ _ => false

/-- What is left of a block without the transactions that are rejected at their turn;
`s` is the node as its loop starts. -/
def Packages.unrejected : List Bytes → Storage → List Bytes
  | [], _ => []
  | txid :: rest, s =>
      let later := Packages.unrejected rest (final (pkg.processTxn txid s))
      if pkg.refuses s txid then later else txid :: later

/-! ### Side by side -/

/-- `t` has the ledger and the indexes of `s`, and holds at least its mempool. -/
structure Storage.Above (s t : Storage) : Prop where
  ledger : t.toLedger = s.toLedger
  pubOuts : t.pubOuts = s.pubOuts
  pubOutsPend : t.pubOutsPend = s.pubOutsPend
  mempool : ∀ (k : Bytes) (txn : Transaction), s.mempool[k]? = some txn → t.mempool[k]? = some txn

namespace Storage.Above

variable {pkg}

/-- A step that both take on the ledger. -/
theorem modifyLedger {f : Ledger → Ledger} :
    Lockstep (ε := PyError) Above (modify fun s => { s with toLedger := f s.toLedger })
      (modify fun s => { s with toLedger := f s.toLedger }) :=
  lockstep_modify fun _ _ above =>
    ⟨congrArg f above.ledger, above.pubOuts, above.pubOutsPend, above.mempool⟩

theorem modifyPubOuts {f : Index → Index} :
    Lockstep (ε := PyError) Above (modify fun s => { s with pubOuts := f s.pubOuts })
      (modify fun s => { s with pubOuts := f s.pubOuts }) :=
  lockstep_modify fun _ _ above =>
    ⟨above.ledger, congrArg f above.pubOuts, above.pubOutsPend, above.mempool⟩

theorem modifyPubOutsPend {f : Index → Index} :
    Lockstep (ε := PyError) Above (modify fun s => { s with pubOutsPend := f s.pubOutsPend })
      (modify fun s => { s with pubOutsPend := f s.pubOutsPend }) :=
  lockstep_modify fun _ _ above =>
    ⟨above.ledger, above.pubOuts, congrArg f above.pubOutsPend, above.mempool⟩

/-- What is read of the ledger is the same on both sides. -/
theorem get_bind {β : Type} {f g : Storage → M β}
    (rest : ∀ s t : Storage, s.Above t → Agree Above (f s s) (g t t)) :
    Lockstep Above (get >>= f) (get >>= g) :=
  fun s t above => rest s t above

theorem getItem (key : Bytes) : Lockstep Above (Belcoin.getItem key) (Belcoin.getItem key) := by
  refine get_bind fun s t above => ?_
  rw [above.ledger]
  cases s.db[key]? with
  | none => exact .error above
  | some txnw => exact .ok above

theorem note (event : Event) : Lockstep Above (Belcoin.note event) (Belcoin.note event) :=
  modifyLedger (f := fun ledger => { ledger with trace := ledger.trace ++ [event] })

theorem setItem (key : Bytes) (txnw : TxnWrapper) :
    Lockstep Above (Belcoin.setItem key txnw) (Belcoin.setItem key txnw) :=
  modifyLedger (f := fun ledger => { ledger with db := ledger.db.insert key txnw })

theorem delFromPending (tx : Transaction) :
    Lockstep Above (pkg.delFromPending tx) (pkg.delFromPending tx) :=
  (modifyLedger (f := fun ledger => { ledger with pend := ledger.pend.erase (pkg.txid tx) })).bind
    fun _ => Lockstep.forM fun _ _ => modifyPubOutsPend

theorem spendOutput (inp : Input) : Lockstep Above (pkg.spendOutput inp) (pkg.spendOutput inp) := by
  refine (getItem inp.txid).bind fun txnw => ?_
  by_cases inRange : inp.index < txnw.utxos.length
  · rw [if_pos inRange]
    refine (setItem _ _).bind fun _ => ?_
    cases txnw.txn.outputs[inp.index]? with
    | none => exact lockstep_throw _
    | some o => exact modifyPubOuts
  · rw [if_neg inRange]
    exact lockstep_throw _

theorem writeTxnToDb (txn : Transaction) (ts : Nat) :
    Lockstep Above (pkg.writeTxnToDb txn ts) (pkg.writeTxnToDb txn ts) :=
  (Lockstep.forM fun inp _ => spendOutput inp).bind fun _ =>
    (setItem _ _).bind fun _ => modifyPubOuts

theorem writeTxnToPend (txn : Transaction) (ts : Nat) :
    Lockstep Above (pkg.writeTxnToPend txn ts) (pkg.writeTxnToPend txn ts) :=
  (modifyLedger (f := fun ledger =>
      { ledger with pend := ledger.pend.insert (pkg.txid txn) (.new txn ts) })).bind fun _ =>
    modifyPubOutsPend.bind fun _ => Lockstep.forM fun inp _ => spendOutput inp

/-- A mempool that holds more still does when both lose an id. -/
theorem erase {s t : Storage} (above : s.Above t) (txid : Bytes) (k : Bytes) (txn : Transaction)
    (held : (s.mempool.erase txid)[k]? = some txn) : (t.mempool.erase txid)[k]? = some txn := by
  rw [Std.ExtTreeMap.getElem?_erase] at held ⊢
  split at held
  · cases held
  · rename_i other
    rw [if_neg other]
    exact above.mempool k txn held

theorem removeFromMempool (txid : Bytes) :
    Lockstep Above (Belcoin.removeFromMempool txid) (Belcoin.removeFromMempool txid) :=
  lockstep_modify fun _ _ above => ⟨above.ledger, above.pubOuts, above.pubOutsPend, above.erase txid⟩

theorem verifyTxn (txn : Transaction) (checkPend : Bool) :
    Lockstep Above (pkg.verifyTxn txn checkPend) (pkg.verifyTxn txn checkPend) := by
  refine get_bind fun s t above => ?_
  have noted : Lockstep Above (removeInvalidTxnFromMempool (pkg.txid txn))
      (removeInvalidTxnFromMempool (pkg.txid txn)) :=
    Lockstep.bind (lockstep_modify fun _ _ above =>
      ⟨above.ledger, above.pubOuts, above.pubOutsPend, above.mempool⟩) fun _ => removeFromMempool _
  rw [above.ledger]
  cases pkg.decideTxn s.toLedger txn checkPend with
  | error e => exact .error above
  | ok decision =>
      cases decision with
      | stored => exact ((removeFromMempool _).bind fun _ => lockstep_pure false) s t above
      | invalid => exact (noted.bind fun _ => lockstep_pure false) s t above
      | valid check =>
          match checkPend, check with
          | false, _ => exact .ok above
          | true, none => exact .ok above
          | true, some .unmatched => exact .ok above
          | true, some .refused => exact .ok above
          | true, some (.replaces tx) =>
              exact ((delFromPending tx).bind fun _ => (note _).bind fun _ => lockstep_pure true)
                s t above

theorem settleTxn (txn : Transaction) : Lockstep Above (pkg.settleTxn txn) (pkg.settleTxn txn) := by
  refine get_bind fun s t above => ?_
  have sameTime : t.currentTime = s.currentTime := congrArg Ledger.currentTime above.ledger
  rw [sameTime]
  refine ((verifyTxn txn true).bind fun verified => ?_) s t above
  cases verified with
  | false => exact lockstep_pure _
  | true =>
      refine (note _).bind fun _ => ?_
      by_cases locked : txn.timelock ≠ 0
      · rw [if_pos locked]
        exact writeTxnToPend txn _
      · rw [if_neg locked]
        exact writeTxnToDb txn _

/-- A turn, on a transaction that both hold. -/
theorem processTxn {s t : Storage} (above : s.Above t) {txid : Bytes} {txn : Transaction}
    (held : s.mempool[txid]? = some txn) :
    Agree Above (pkg.processTxn txid s) (pkg.processTxn txid t) := by
  rw [Packages.processTxn, Stateful.get_bind, Stateful.get_bind, held, above.mempool _ _ held]
  exact ((settleTxn txn).bind fun _ => removeFromMempool txid) s t above

/-- A turn that rejects its transaction, skipped on the other side. -/
theorem skip {s t u : Storage} (above : s.Above t) {txid : Bytes}
    (refused : pkg.refuses s txid = true) (run : pkg.processTxn txid s = .ok () u) : u.Above t := by
  have fewer : ∀ {m : Store Transaction}, (∀ (k : Bytes) (txn : Transaction), m[k]? = some txn →
      s.mempool[k]? = some txn) → ∀ (k : Bytes) (txn : Transaction), m[k]? = some txn →
        t.mempool[k]? = some txn :=
    fun sub k txn held => above.mempool k txn (sub k txn held)
  rw [Packages.processTxn, Stateful.get_bind] at run
  cases held : s.mempool[txid]? with
  | none => simp [Packages.refuses, held] at refused
  | some txn =>
      simp only [held, Packages.settleTxn, Packages.verifyTxn, bind_apply, get_apply] at run
      simp only [Packages.refuses, held, Packages.verifyTxn, bind_apply, get_apply] at refused
      cases decided : pkg.decideTxn s.toLedger txn true with
      | error e => simp [decided] at refused
      | ok decision =>
          cases decision with
          | stored =>
              rw [decided] at run
              cases run
              exact ⟨above.ledger, above.pubOuts, above.pubOutsPend,
                fewer fun k txn held => getElem?_of_erase (getElem?_of_erase held)⟩
          | invalid =>
              rw [decided] at run
              cases run
              exact ⟨above.ledger, above.pubOuts, above.pubOutsPend,
                fewer fun k txn held => getElem?_of_erase (getElem?_of_erase held)⟩
          | valid check =>
              -- a transaction that passes is not refused
              rw [decided] at refused
              rcases check with _ | (_ | _ | tx)
              · cases refused
              · cases refused
              · cases refused
              · simp only [bind_apply, delFromPending_eq] at refused
                cases refused

/-- **The loop of `process_block`**, over a block and over what is left of it without
its rejected transactions. -/
theorem forM_processTxn {block : List Bytes} {s t u : Storage} (above : s.Above t)
    (run : block.forM pkg.processTxn s = .ok () u) :
    ∃ v, (pkg.unrejected block s).forM pkg.processTxn t = .ok () v ∧ u.Above v := by
  induction block generalizing s t with
  | nil =>
      cases run
      exact ⟨t, rfl, above⟩
  | cons txid rest ih =>
      rw [forM_cons] at run
      obtain ⟨_, middle, first, others⟩ := bind_ok.mp run
      rw [Packages.unrejected, first, final_ok]
      by_cases refused : pkg.refuses s txid = true
      · rw [if_pos refused]
        exact ih (above.skip refused first) others
      · rw [if_neg refused]
        cases held : s.mempool[txid]? with
        | none =>
            rw [Packages.processTxn, Stateful.get_bind, held] at first
            cases first
        | some txn =>
            have agree := @processTxn pkg _ _ above _ _ held
            rw [first] at agree
            rcases agree.outcomes with ⟨_, s', t', left, right, above'⟩ | ⟨e, s', t', left, -, -⟩
            · cases left
              obtain ⟨v, run', above''⟩ := ih above' others
              refine ⟨v, ?_, above''⟩
              rw [forM_cons]
              exact bind_ok.mpr ⟨⟨⟩, t', right, run'⟩
            · cases left

end Storage.Above

/-! ### The whole block -/

/-- **Rejected transactions are inert.** If `process_block` returns on a block, then
on the block without its rejected transactions it returns too, from the same node at
the same time, having accepted the same transactions and with the same databases and
indexes. -/
theorem processBlock_inert {pkg : Packages} {s t : Storage} {block : List Bytes}
    (run : pkg.processBlock block s = .ok () t) :
    ∃ u, pkg.processBlock (pkg.unrejected block (s.enter block)) s = .ok () u ∧
      acceptedIn u.trace = acceptedIn t.trace ∧ u.db = t.db ∧ u.pend = t.pend ∧
      u.pubOuts = t.pubOuts ∧ u.pubOutsPend = t.pubOutsPend := by
  rw [Packages.processBlock, modify_bind] at run
  obtain ⟨_, looped, loop, finish⟩ := bind_ok.mp run
  have above : (s.enter block).Above (s.enter (pkg.unrejected block (s.enter block))) :=
    ⟨rfl, rfl, rfl, fun _ _ held => held⟩
  obtain ⟨looped', loop', above'⟩ := above.forM_processTxn loop
  -- the queue, which the loops do not touch, has a block to delete
  have queue : ∀ {b b' : List Bytes} {v : Storage}, b.forM pkg.processTxn (s.enter b') = .ok () v →
      v.blockQueue = s.blockQueue := by
    intro b b' v loop
    have control : (final (b.forM pkg.processTxn (s.enter b'))).control = (s.enter b').control :=
      Sustains.forM (fun txid _ => (control_steady _).processTxn pkg txid) _ rfl
    rw [loop] at control
    exact congrArg Control.blockQueue control
  rw [finishBlock, get_bind, queue loop] at finish
  cases head : s.blockQueue with
  | nil =>
      rw [head] at finish
      cases finish
  | cons block' rest =>
      rw [head] at finish
      cases finish
      let rejectless := pkg.unrejected block (s.enter block)
      refine ⟨{ looped' with
        blockQueue := rest
        currentBlock := []
        processing := false
        processingBlock := false
        blockLog := looped'.blockLog ++ [.deleted rejectless block'] }, ?_, ?_⟩
      · rw [Packages.processBlock, modify_bind]
        refine bind_ok.mpr ⟨⟨⟩, looped', loop', ?_⟩
        simp only [finishBlock, get_bind, queue loop', head, modify_apply, List.tail_cons, rejectless]
      · exact ⟨congrArg (fun ledger : Ledger => acceptedIn ledger.trace) above'.ledger,
          congrArg Ledger.db above'.ledger, congrArg Ledger.pend above'.ledger,
          above'.pubOuts, above'.pubOutsPend⟩

/-- Two payments from one output, of which the second is rejected. -/
def rivals : List Transaction :=
  [Ideal.pay (Ideal.packages.txid Ideal.genesis) 0 0 0,
    Ideal.pay (Ideal.packages.txid Ideal.genesis) 0 1 0]

theorem processBlock_inert_rivals :
    ∃ u, Ideal.small.processBlock [Ideal.packages.txid (Ideal.pay (Ideal.packages.txid Ideal.genesis) 0 0 0)]
        (Ideal.small.after (rivals.map .puttxn ++ [.deliver ⟨0, []⟩])) = .ok () u ∧
      acceptedIn u.trace = [Ideal.pay (Ideal.packages.txid Ideal.genesis) 0 0 0] := by
  let s := Ideal.small.after (rivals.map .puttxn ++ [.deliver ⟨0, []⟩])
  let block := rivals.map Ideal.packages.txid
  have left : Ideal.small.unrejected block (s.enter block) =
      [Ideal.packages.txid (Ideal.pay (Ideal.packages.txid Ideal.genesis) 0 0 0)] := by
    decide +kernel
  have history : acceptedIn (final (Ideal.small.processBlock block s)).trace =
      [Ideal.pay (Ideal.packages.txid Ideal.genesis) 0 0 0] := by decide +kernel
  obtain ⟨u, run, accepted, -⟩ := @processBlock_inert Ideal.small.toPackages _ _ _
    (eq_ok_of_returned (r := Ideal.small.processBlock block s) (by decide +kernel))
  rw [left] at run
  exact ⟨u, run, accepted.trans history⟩

end Belcoin
