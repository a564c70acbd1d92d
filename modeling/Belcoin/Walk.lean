import Belcoin.Node

/-!
One walk over the operations of a node.

Below `process_block` the operations only pass control: they read the state,
change what is outside the ledger, and call each other. What a logic proves of
the turns of `process_block` and of arrivals (`Logic`, `addMissing_cases`), the walk
proves of all of them.
-/

namespace Belcoin

open Stateful

section Arrivals

variable (pkg : Packages)

/-- A transaction that arrives was there before, or enters the mempool and its list. -/
theorem addMissing_cases (txid : Bytes) (tx : Transaction) (s : Storage) :
    txid ∈ s.mempool ∧ pkg.addMissing txid tx s = .ok () s ∨
      txid ∉ s.mempool ∧ pkg.addMissing txid tx s = .ok () { s with
        mempool := s.mempool.insert (pkg.txid tx) tx
        mempoolList := s.mempoolList ++ [pkg.txid tx] } := by
  rw [Packages.addMissing, get_bind]
  by_cases absent : txid ∉ s.mempool
  · rw [if_pos absent]
    exact .inr ⟨absent, rfl⟩
  · rw [if_neg absent]
    exact .inl ⟨not_not.mp absent, rfl⟩

/-- What is apart from the mempool stays. -/
theorem addMissing_frame {α : Type} (part : Storage → α)
    (apart : ∀ u mempool mempoolList, part { u with mempool, mempoolList } = part u)
    (txid : Bytes) (tx : Transaction) (s : Storage) :
    part (final (pkg.addMissing txid tx s)) = part s := by
  rcases addMissing_cases pkg txid tx s with ⟨-, run⟩ | ⟨-, run⟩
  · rw [run, final_ok]
  · rw [run, final_ok, apart]

/-- What holds of the bodies in the mempool holds afterwards, if it holds of the new one. -/
theorem addMissing_bodies {P : Bytes → Transaction → Prop} {tx : Transaction}
    (arrives : P (pkg.txid tx) tx) (txid : Bytes) :
    Sustains (fun s => ∀ (k : Bytes) (txn : Transaction), s.mempool[k]? = some txn → P k txn)
      (pkg.addMissing txid tx) := by
  intro s holds
  rcases addMissing_cases pkg txid tx s with ⟨-, run⟩ | ⟨-, run⟩
  · rw [run]
    exact holds
  · rw [run]
    intro k txn held
    simp only [final_ok, Std.ExtTreeMap.getElem?_insert, Std.LawfulEqCmp.compare_eq_iff_eq] at held
    split at held
    · rename_i own
      cases held
      exact own ▸ arrives
    · exact holds k txn held

theorem mem_addMissing {txid k : Bytes} {tx : Transaction} {s : Storage} :
    k ∈ (final (pkg.addMissing txid tx s)).mempool ↔
      k ∈ s.mempool ∨ txid ∉ s.mempool ∧ pkg.txid tx = k := by
  rcases addMissing_cases pkg txid tx s with ⟨present, run⟩ | ⟨absent, run⟩
  · simp [run, present]
  · rw [run, final_ok, Std.ExtTreeMap.mem_insert, Std.LawfulEqCmp.compare_eq_iff_eq, or_comm,
      and_iff_right absent]

end Arrivals

/-- The mempool holds under the named ids only transactions that meet `N`, and the
ids of the current block are named. -/
structure Within (named : Bytes → Prop) (N : Transaction → Prop) (s : Storage) : Prop where
  bodies : ∀ txid, named txid → ∀ txn, s.mempool[txid]? = some txn → N txn
  current : ∀ txid ∈ s.currentBlock, named txid

/-- Two nodes with the same databases, history, indexes, mempool and list of invalid
transactions; only the time, the flags, the queue and the requests may differ. -/
structure Storage.SameBooks (s t : Storage) : Prop where
  db : t.db = s.db
  pend : t.pend = s.pend
  trace : t.trace = s.trace
  mempool : t.mempool = s.mempool
  mempoolList : t.mempoolList = s.mempoolList
  pubOuts : t.pubOuts = s.pubOuts
  pubOutsPend : t.pubOutsPend = s.pubOutsPend
  invalidTxns : t.invalidTxns = s.invalidTxns

/-- What two such nodes share. -/
def Storage.books (s : Storage) :=
  (s.db, s.pend, s.trace, s.mempool, s.mempoolList, s.pubOuts, s.pubOutsPend, s.invalidTxns)

theorem Storage.SameBooks.of_books {s t : Storage} (same : t.books = s.books) : s.SameBooks t := by
  simp only [Storage.books, Prod.mk.injEq] at same
  obtain ⟨db, pend, trace, mempool, mempoolList, pubOuts, pubOutsPend, invalidTxns⟩ := same
  exact ⟨db, pend, trace, mempool, mempoolList, pubOuts, pubOutsPend, invalidTxns⟩

/-- A property of operations that is closed under what connects them, and holds of
the turns of `process_block` and of what an arrival does to the mempool. -/
structure Logic (pkg : Packages) (named : Bytes → Prop) (N : Transaction → Prop)
    (Arrives : Bytes → Transaction → Prop) (Good : ∀ {α : Type}, M α → Prop) : Prop where
  pure : ∀ {α : Type} (a : α), Good (Pure.pure a)
  throw : ∀ {α : Type} (e : PyError), Good (throw e : M α)
  bind : ∀ {α β : Type} {m : M α} {f : α → M β}, Good m → (∀ a, Good (f a)) → Good (m >>= f)
  get : ∀ {β : Type} {f : Storage → M β}, (∀ s, Within named N s → Good (f s)) → Good (get >>= f)
  control : ∀ {f : Storage → Storage}, (∀ s, (f s).toLedger = s.toLedger) →
    (∀ s : Storage, s.SameBooks (f s)) →
    (∀ s, (f s).currentBlock = s.currentBlock ∨ (f s).currentBlock = []) →
    (∀ s, (f s).blockQueue <:+ s.blockQueue) → Good (modify f)
  addMissing : ∀ txid tx, Arrives txid tx → Good (pkg.addMissing txid tx)
  processTxn : ∀ txid, named txid → Good (pkg.processTxn txid)

/-- What control changes leave alone. -/
theorem Within.control {named : Bytes → Prop} {N : Transaction → Prop} {s t : Storage}
    (within : Within named N s) (mempool : t.mempool = s.mempool)
    (current : t.currentBlock = s.currentBlock ∨ t.currentBlock = []) : Within named N t where
  bodies := mempool ▸ within.bodies
  current := by
    rcases current with same | none
    · rw [same]
      exact within.current
    · simp [none]

namespace Logic

variable {pkg : Packages} {named : Bytes → Prop} {N : Transaction → Prop}
  {Arrives : Bytes → Transaction → Prop} {Good : ∀ {α : Type}, M α → Prop}

/-- A change of the flags and of the requests. -/
theorem flags (logic : Logic pkg named N Arrives Good) {f : Storage → Storage}
    (sameLedger : ∀ s, (f s).toLedger = s.toLedger)
    (sameBooks : ∀ s : Storage, s.SameBooks (f s))
    (sameBlocks : ∀ s, (f s).currentBlock = s.currentBlock ∧ (f s).blockQueue = s.blockQueue) :
    Good (modify f) :=
  logic.control sameLedger sameBooks (fun s => .inl (sameBlocks s).1) fun s => by
    rw [(sameBlocks s).2]

theorem forM (logic : Logic pkg named N Arrives Good) {α : Type} {op : α → M Unit} {as : List α}
    (body : ∀ a ∈ as, Good (op a)) : Good (as.forM op) := by
  induction as with
  | nil => exact logic.pure _
  | cons a as ih =>
      rw [forM_cons]
      exact logic.bind (body a List.mem_cons_self) fun _ =>
        ih fun b mem => body b (List.mem_cons_of_mem _ mem)

theorem processBlock (logic : Logic pkg named N Arrives Good) {block : List Bytes}
    (sub : ∀ txid ∈ block, named txid) : Good (pkg.processBlock block) := by
  refine logic.bind (logic.flags (fun _ => rfl) (fun _ => .of_books rfl) fun _ => ⟨rfl, rfl⟩) fun _ =>
    logic.bind (logic.forM fun txid mem => logic.processTxn txid (sub txid mem)) fun _ =>
      logic.get fun s _ => ?_
  cases s.blockQueue with
  | nil => exact logic.throw _
  | cons head rest =>
      exact logic.control (fun _ => rfl) (fun _ => .of_books rfl) (fun _ => .inr rfl) fun s =>
        s.blockQueue.tail_suffix

theorem reqTxn (logic : Logic pkg named N Arrives Good) (txnid : Bytes) (i : Nat) :
    Good (Belcoin.reqTxn txnid i) :=
  logic.flags (fun _ => rfl) (fun _ => .of_books rfl) fun _ => ⟨rfl, rfl⟩

theorem requestMissingTransaction (logic : Logic pkg named N Arrives Good) (txnid : Bytes) (i : Nat) :
    Good (pkg.requestMissingTransaction txnid i) := by
  refine logic.get fun s _ => ?_
  by_cases inMempool : i % 5 = 0 ∧ txnid ∈ s.mempool
  · rw [if_pos inMempool]
    refine logic.bind (logic.flags (fun _ => rfl) (fun _ => .of_books rfl) fun _ => ⟨rfl, rfl⟩) fun _ =>
      logic.get fun t within => ?_
    by_cases done : t.missingTxns = [] ∧ t.processingBlock = false
    · rw [if_pos done]
      exact logic.processBlock within.current
    · rw [if_neg done]
      exact logic.reqTxn txnid i
  · rw [if_neg inMempool]
    exact logic.reqTxn txnid i

theorem requestMissingFrom (logic : Logic pkg named N Arrives Good) (fuel idx : Nat) :
    Good (pkg.requestMissingFrom fuel idx) := by
  induction fuel generalizing idx with
  | zero => exact logic.pure _
  | succ fuel ih =>
      refine logic.get fun s _ => ?_
      cases s.missingTxns[idx]? with
      | none => exact logic.pure _
      | some txnid =>
          exact logic.bind (logic.requestMissingTransaction txnid 0) fun _ => ih (idx + 1)

theorem findMissingTransactions (logic : Logic pkg named N Arrives Good) {block : List Bytes}
    (sub : ∀ txid ∈ block, named txid) : Good (pkg.findMissingTransactions block) := by
  refine logic.bind (logic.flags (fun _ => rfl) (fun _ => .of_books rfl) fun _ => ⟨rfl, rfl⟩) fun _ =>
    logic.get fun s _ => ?_
  by_cases missing : s.missingTxns ≠ []
  · rw [if_pos missing]
    exact logic.get fun s _ => logic.requestMissingFrom _ _
  · rw [if_neg missing]
    exact logic.processBlock sub

/-- What `try_process` does after it took a block. -/
theorem processTaken (logic : Logic pkg named N Arrives Good) {block : Block}
    (sub : ∀ txid ∈ block.txns, named txid) : Good (pkg.processTaken block) := by
  refine logic.get fun s _ => ?_
  by_cases missing : s.missingTxns ≠ []
  · rw [if_pos missing]
    refine logic.bind (logic.flags (fun _ => rfl) (fun _ => .of_books rfl) fun _ => ⟨rfl, rfl⟩) fun _ =>
      logic.get fun t _ => ?_
    by_cases patient : t.missedCounter > backoffAmount
    · rw [if_pos patient]
      exact logic.bind (logic.flags (fun _ => rfl) (fun _ => .of_books rfl) fun _ => ⟨rfl, rfl⟩) fun _ =>
        logic.findMissingTransactions sub
    · rw [if_neg patient]
      exact logic.flags (fun _ => rfl) (fun _ => .of_books rfl) fun _ => ⟨rfl, rfl⟩
  · rw [if_neg missing]
    exact logic.processBlock sub

theorem received (logic : Logic pkg named N Arrives Good) (txid : Bytes) :
    Good (Packages.transactionReceived.received pkg txid) := by
  refine logic.bind (logic.flags (fun _ => rfl) (fun _ => .of_books rfl) fun _ => ⟨rfl, rfl⟩) fun _ =>
    logic.get fun s within => ?_
  by_cases done : s.missingTxns = [] ∧ s.processingBlock = false
  · rw [if_pos done]
    exact logic.processBlock within.current
  · rw [if_neg done]
    exact logic.pure _

theorem transactionReceived (logic : Logic pkg named N Arrives Good) {reply : Reply}
    {txid : Bytes} (arrived : ∀ tx, reply = .transaction tx → Arrives txid tx) (i : Nat) :
    Good (pkg.transactionReceived reply i txid) := by
  cases reply with
  | failure => exact logic.pure _
  | notFound => exact logic.requestMissingTransaction txid i
  | shownInvalid =>
      refine logic.get fun s _ => ?_
      by_cases absent : txid ∉ s.mempool
      · rw [if_pos absent]
        exact logic.bind (logic.throw _) fun _ => logic.received txid
      · rw [if_neg absent]
        exact logic.received txid
  | transaction tx =>
      exact logic.bind (logic.addMissing txid tx (arrived tx rfl)) fun _ => logic.received txid

end Logic

/-! ### Properties kept also where operations raise -/

variable {pkg : Packages} {I : Storage → Prop}

/-- What the books decide, and arrivals and the turns of `process_block` keep, is a
logic. -/
theorem sustains_logic {Arrives : Bytes → Transaction → Prop}
    (books : ∀ s t : Storage, s.SameBooks t → I s → I t)
    (arrives : ∀ txid tx, Arrives txid tx → Sustains I (pkg.addMissing txid tx))
    (turns : ∀ txid, Sustains I (pkg.processTxn txid)) :
    Logic pkg (fun _ => True) (fun _ => True) Arrives fun op => Sustains I op where
  pure a := sustains_pure I a
  throw e := sustains_throw I e
  bind first rest := first.bind rest
  get rest := .get_bind fun s => rest s ⟨fun _ _ _ _ => trivial, fun _ _ => trivial⟩
  control _ sameBooks _ _ := sustains_modify fun s => books s _ (sameBooks s)
  addMissing := arrives
  processTxn txid _ := turns txid

/-- A callback that raised is followed by a request, so an answer keeps what the
two keep. -/
theorem Logic.requestChain {Arrives : Bytes → Transaction → Prop} {named : Bytes → Prop}
    {N : Transaction → Prop}
    (logic : Logic pkg named N Arrives fun op => Sustains I op) {reply : Reply} {txid : Bytes}
    (arrived : ∀ tx, reply = .transaction tx → Arrives txid tx) (i : Nat) :
    Sustains I (pkg.requestChain reply i txid) := by
  cases reply with
  | failure => exact logic.requestMissingTransaction _ _
  | _ =>
      exact (logic.transactionReceived arrived _).tryCatch fun _ =>
        logic.requestMissingTransaction _ _

/-- **The rule for all runs of a node**: what the books decide, and arrivals, the
turns of `process_block` and `update_pend` keep, every action keeps, also where it
raises. `Arrives` is what is known of an answer to a request for `txid`. -/
theorem exec_sustains_arriving {Arrives : Bytes → Transaction → Prop}
    (books : ∀ s t : Storage, s.SameBooks t → I s → I t)
    (arrives : ∀ txid tx, Arrives txid tx → Sustains I (pkg.addMissing txid tx))
    (turns : ∀ txid, Sustains I (pkg.processTxn txid)) {s : Storage} {a : Action}
    (updates : I (final (pkg.updatePend s))) (held : I s)
    (submitted : ∀ tx, a = .puttxn tx → Arrives (pkg.txid tx) tx)
    (arrived : ∀ n tx entry, a = .answer n (.transaction tx) → s.requests[n]? = some entry →
      Arrives entry.1 tx) : I (final (pkg.exec a s)) := by
  have logic := sustains_logic books arrives turns
  cases a with
  | deliver block =>
      change I (final (pkg.addBlockToQueue block s))
      rw [Packages.addBlockToQueue, bind_apply]
      cases run : pkg.updatePend s with
      | error e t =>
          rw [run] at updates
          exact updates
      | ok _ t =>
          rw [run] at updates
          exact books t _ (.of_books rfl) updates
  | tryProcess =>
      change I (final (pkg.tryProcess s))
      rw [Packages.tryProcess, get_bind]
      by_cases busy : s.processing = true
      · rw [if_pos busy]
        exact held
      · rw [if_neg busy]
        cases s.blockQueue with
        | nil => exact held
        | cons block rest =>
            have taken : I (s.take block) := books s _ (.of_books rfl) held
            exact logic.processTaken (fun _ _ => trivial) _ taken
  | puttxn tx => exact arrives _ tx (submitted tx rfl) s held
  | answer n reply =>
      rw [Packages.exec]
      cases request : s.requests[n]? with
      | none =>
          rw [withRequest_none request]
          exact held
      | some entry =>
          rw [withRequest_some request]
          refine logic.requestChain (fun tx same => arrived n tx entry (same ▸ rfl) request) _ _ ?_
          exact books s { s with requests := s.requests.eraseIdx n } (.of_books rfl) held
  | updatePend => exact updates

/-- The rule for all runs of a node in which an arrival may be any transaction. -/
theorem exec_sustains (books : ∀ s t : Storage, s.SameBooks t → I s → I t)
    (arrives : ∀ txid tx, Sustains I (pkg.addMissing txid tx))
    (turns : ∀ txid, Sustains I (pkg.processTxn txid)) {s : Storage}
    (updates : I (final (pkg.updatePend s))) (held : I s) (a : Action) :
    I (final (pkg.exec a s)) :=
  @exec_sustains_arriving _ _ (fun _ _ => True) books (fun txid tx _ => arrives txid tx)
    turns _ _ updates held (fun _ _ => trivial) fun _ _ _ _ _ => trivial

end Belcoin
