import Belcoin.Frame
import Belcoin.Ideal
import Belcoin.Walk

/-!
Which block a node works on.

Four call sites enter `process_block`, and three flags are to keep them apart.
`node_blocks` proves, for all runs, that blocks are processed one by one as they
were delivered, as long as an answer only completes a block that the node is
working on. An answer to a request that outlived its block can delete a block
that was never looked at (`block_skipped`).
-/

namespace Belcoin

open Stateful

/-! ### The control state -/

/-- The part of a node that decides which block it works on. -/
structure Control where
  blockQueue : List Block
  currentBlock : List Bytes
  missingTxns : List Bytes
  processing : Bool
  processingBlock : Bool
  blockLog : List BlockEvent

def Storage.control (s : Storage) : Control :=
  ⟨s.blockQueue, s.currentBlock, s.missingTxns, s.processing, s.processingBlock, s.blockLog⟩

/-- Settling transactions does not touch it. -/
theorem control_steady (c : Control) : Steady fun s => s.control = c where
  ledger _ _ held := held
  pubOuts _ _ held := held
  pubOutsPend _ _ held := held
  invalidTxns _ _ held := held
  removal _ _ held := held

/-- The blocks put into the queue. -/
def queuedIn (log : List BlockEvent) : List Block :=
  log.filterMap fun event => match event with
    | .queued block => some block
    | _ => none

/-- The lists of ids `process_block` was entered with. -/
def enteredIn (log : List BlockEvent) : List (List Bytes) :=
  log.filterMap fun event => match event with
    | .entered txns => some txns
    | _ => none

/-- The blocks deleted from the queue, each with the ids examined before. -/
def deletedIn (log : List BlockEvent) : List (List Bytes × Block) :=
  log.filterMap fun event => match event with
    | .deleted examined block => some (examined, block)
    | _ => none

/-! ### What `process_block` does to it -/

variable (pkg : Packages)

/-- The state of the flags while `process_block` runs. -/
def Control.enter (c : Control) (block : List Bytes) : Control :=
  { c with processingBlock := true, blockLog := c.blockLog ++ [.entered block] }

/-- The state of the flags after `process_block` has deleted the head of the queue. -/
def Control.finish (c : Control) (block : List Bytes) (head : Block) (rest : List Block) : Control :=
  { c with
    blockQueue := rest
    currentBlock := []
    processing := false
    processingBlock := false
    blockLog := c.blockLog ++ [.entered block, .deleted block head] }

/-- `process_block` returns after deleting the head of the queue, or raises with
`processing_block` still set. -/
theorem processBlock_control (block : List Bytes) (s : Storage) :
    (∃ t head rest, pkg.processBlock block s = .ok () t ∧ s.blockQueue = head :: rest ∧
        t.control = s.control.finish block head rest) ∨
      ∃ e t, pkg.processBlock block s = .error e t ∧ t.control = s.control.enter block := by
  have loop : Sustains (fun t => t.control = s.control.enter block)
      (block.forM pkg.processTxn) :=
    Sustains.forM fun txid _ => (control_steady _).processTxn pkg txid
  rw [Packages.processBlock, modify_bind, bind_apply]
  have kept := loop { s with
    processingBlock := true
    blockLog := s.blockLog ++ [.entered block] } rfl
  cases run : block.forM pkg.processTxn { s with
      processingBlock := true
      blockLog := s.blockLog ++ [.entered block] } with
  | error e t =>
      rw [run] at kept
      exact .inr ⟨e, t, rfl, kept⟩
  | ok _ t =>
      rw [run] at kept
      have sameQueue : t.blockQueue = s.blockQueue := congrArg Control.blockQueue kept
      simp only [finishBlock, get_bind]
      cases queue : t.blockQueue with
      | nil => exact .inr ⟨_, t, rfl, kept⟩
      | cons head rest =>
          refine .inl ⟨_, head, rest, rfl, sameQueue ▸ queue, ?_⟩
          have sameLog : t.blockLog = s.blockLog ++ [.entered block] :=
            congrArg Control.blockLog kept
          have sameMissing : t.missingTxns = s.missingTxns := congrArg Control.missingTxns kept
          simp [Storage.control, Control.finish, sameLog, sameMissing, queue]

theorem processBlock_raises {block : List Bytes} {s t : Storage} {e : PyError}
    (raised : pkg.processBlock block s = .error e t) : t.processingBlock = true := by
  rcases processBlock_control pkg block s with ⟨_, _, _, run, -⟩ | ⟨_, _, run, control⟩
  · rw [run] at raised
    cases raised
  · rw [run] at raised
    cases raised
    exact congrArg Control.processingBlock control

/-! ### The invariant -/

/-- What a node is doing, when the blocks `done` are behind it. -/
inductive Control.Phase (c : Control) (done : List Block) : Prop where
  /-- Between blocks, or backing off from the one at the head. -/
  | idle : c.processing = false → c.processingBlock = false →
      enteredIn c.blockLog = done.map Block.txns →
      (c.missingTxns ≠ [] → ∃ head rest, c.blockQueue = head :: rest ∧
        c.currentBlock = head.txns) → Phase c done
  /-- Waiting for transactions of the block at the head. -/
  | waiting {head : Block} {rest : List Block} : c.processing = true → c.processingBlock = false →
      enteredIn c.blockLog = done.map Block.txns → c.blockQueue = head :: rest →
      c.currentBlock = head.txns → Phase c done
  /-- Processing the block at the head raised. -/
  | stuck {head : Block} {rest : List Block} : c.processing = true → c.processingBlock = true →
      enteredIn c.blockLog = done.map Block.txns ++ [head.txns] → c.blockQueue = head :: rest →
      Phase c done

/-- The blocks `done` were deleted in the order they were queued, each after its
own ids were examined. -/
structure Control.Behind (c : Control) (done : List Block) : Prop where
  queued : queuedIn c.blockLog = done ++ c.blockQueue
  deleted : deletedIn c.blockLog = done.map fun block => (block.txns, block)
  phase : c.Phase done

/-- Some blocks are behind the node. -/
def Storage.Orderly (s : Storage) : Prop := ∃ done, s.control.Behind done

/-- A block may be queued in every phase. -/
theorem Control.Behind.queue {c : Control} {done : List Block} (behind : c.Behind done)
    (block : Block) : { c with
      blockQueue := c.blockQueue ++ [block]
      blockLog := c.blockLog ++ [BlockEvent.queued block] }.Behind done := by
  have sameEntered : enteredIn (c.blockLog ++ [BlockEvent.queued block]) = enteredIn c.blockLog := by
    simp [enteredIn]
  refine ⟨?_, ?_, ?_⟩
  · have queued := behind.queued
    simp only [queuedIn, List.filterMap_append] at queued ⊢
    simp [queued]
  · have deleted := behind.deleted
    simp only [deletedIn, List.filterMap_append] at deleted ⊢
    simp [deleted]
  · cases behind.phase with
    | idle processing processingBlock entered missing =>
        refine .idle processing processingBlock (sameEntered.trans entered) fun some => ?_
        obtain ⟨head, rest, queue, current⟩ := missing some
        exact ⟨head, rest ++ [block], by simp [queue], current⟩
    | @waiting head rest processing processingBlock entered queue current =>
        have longer : c.blockQueue ++ [block] = head :: (rest ++ [block]) := by simp [queue]
        exact .waiting processing processingBlock (sameEntered.trans entered) longer current
    | @stuck head rest processing processingBlock entered queue =>
        have longer : c.blockQueue ++ [block] = head :: (rest ++ [block]) := by simp [queue]
        exact .stuck processing processingBlock (sameEntered.trans entered) longer

/-- Requests that leave `missing_txns` may shorten it in every phase. -/
theorem Control.Behind.shorten {c : Control} {done : List Block} (behind : c.Behind done)
    (txid : Bytes) : { c with missingTxns := c.missingTxns.erase txid }.Behind done := by
  refine ⟨behind.queued, behind.deleted, ?_⟩
  cases behind.phase with
  | idle processing processingBlock entered missing =>
      refine .idle processing processingBlock entered fun some => missing fun none => some ?_
      simp [none]
  | waiting processing processingBlock entered queue current =>
      exact .waiting processing processingBlock entered queue current
  | stuck processing processingBlock entered queue =>
      exact .stuck processing processingBlock entered queue

/-- **Processing the head of the queue keeps the order**, if it returns or the
node was not to take another block meanwhile. -/
theorem Control.Behind.process {s : Storage} {done : List Block} {head : Block} {rest : List Block}
    (behind : s.control.Behind done) (notBusy : s.processingBlock = false)
    (queue : s.blockQueue = head :: rest) (noMissing : s.missingTxns = [])
    (held : s.processing = true ∨ ∃ t, pkg.processBlock head.txns s = .ok () t) :
    (final (pkg.processBlock head.txns s)).Orderly := by
  have entered : enteredIn s.blockLog = done.map Block.txns := by
    cases behind.phase with
    | idle _ _ entered => exact entered
    | waiting _ _ entered => exact entered
    | stuck _ busy => exact absurd busy (by simpa [Storage.control] using notBusy)
  have queued : queuedIn s.blockLog = done ++ s.blockQueue := behind.queued
  have deleted : deletedIn s.blockLog = done.map fun block => (block.txns, block) := behind.deleted
  rcases processBlock_control pkg head.txns s with
    ⟨t, head', rest', run, queue', control⟩ | ⟨e, t, run, control⟩
  · rw [queue] at queue'
    cases queue'
    rw [run, final_ok]
    refine ⟨done ++ [head], ?_, ?_, ?_⟩ <;> rw [control]
    · rw [queue] at queued
      simpa [Control.finish, Storage.control, queuedIn] using queued
    · simpa [Control.finish, Storage.control, deletedIn] using deleted
    · refine .idle rfl rfl ?_ fun missing => absurd noMissing missing
      simpa [Control.finish, Storage.control, enteredIn] using entered
  · rw [run, final_error]
    have busy : s.processing = true := by
      refine held.resolve_right ?_
      rintro ⟨t', run'⟩
      rw [run] at run'
      cases run'
    refine ⟨done, ?_, ?_, ?_⟩ <;> rw [control]
    · simpa [Control.enter, Storage.control, queuedIn] using queued
    · simpa [Control.enter, Storage.control, deletedIn] using deleted
    · refine .stuck busy rfl ?_ queue
      simpa [Control.enter, Storage.control, enteredIn] using entered

theorem Storage.Orderly.of_control {s t : Storage} (order : s.Orderly)
    (same : t.control = s.control) : t.Orderly := by
  rw [Storage.Orderly, same]
  exact order

/-! ### Taking a block -/

/-- Without a look into the mempool a transaction is only requested. -/
theorem requestMissingTransaction_sends {txnid : Bytes} {i : Nat} {s : Storage}
    (absent : ¬ (i % 5 = 0 ∧ txnid ∈ s.mempool)) :
    pkg.requestMissingTransaction txnid i s =
      .ok () { s with requests := s.requests ++ [(txnid, i + 1)] } := by
  rw [Packages.requestMissingTransaction, get_bind, if_neg absent]
  rfl

/-- Requests for transactions the mempool does not hold are only sent. -/
theorem requestMissingFrom_sends (fuel idx : Nat) (s : Storage)
    (absent : ∀ txid ∈ s.missingTxns, txid ∉ s.mempool) :
    pkg.requestMissingFrom fuel idx s = .ok () { s with
      requests := s.requests ++ ((s.missingTxns.drop idx).take fuel).map fun txid => (txid, 1) } := by
  induction fuel generalizing idx s with
  | zero => simp [Packages.requestMissingFrom]
  | succ fuel ih =>
      rw [Packages.requestMissingFrom, get_bind]
      cases named : s.missingTxns[idx]? with
      | none =>
          have short := List.getElem?_eq_none_iff.mp named
          simp [List.drop_eq_nil_of_le short]
      | some txnid =>
          have notHeld : ¬ (0 % 5 = 0 ∧ txnid ∈ s.mempool) :=
            fun held => absent txnid (List.mem_of_getElem? named) held.2
          have split : s.missingTxns.drop idx = txnid :: s.missingTxns.drop (idx + 1) :=
            (List.drop_eq_getElem?_toList_append).trans (by rw [named]; rfl)
          change (pkg.requestMissingTransaction txnid 0 >>= fun _ =>
            pkg.requestMissingFrom fuel (idx + 1)) s = _
          rw [bind_apply, requestMissingTransaction_sends pkg notHeld, split]
          refine (ih (idx + 1) { s with requests := s.requests ++ [(txnid, 0 + 1)] } absent).trans ?_
          simp

/-- The ids requested are those that were not in the mempool. -/
theorem findMissing_sends {block : List Bytes} {s : Storage} (missing : s.missingOf block ≠ []) :
    pkg.findMissingTransactions block s = .ok () { s with
      missingTxns := s.missingOf block
      requests := s.requests ++ (s.missingOf block).map fun txid => (txid, 1) } := by
  rw [Packages.findMissingTransactions, modify_bind, get_bind, if_pos missing]
  refine (requestMissingFrom_sends pkg _ _ _ fun txid mem => ?_).trans ?_
  · simpa using (List.mem_filter.mp mem).2
  · simp

/-- A block that was taken is processed, if nothing of it is missing; otherwise the
node backs off, or requests what is missing and waits. -/
theorem processTaken_cases (block : Block) (s : Storage) :
    s.missingOf block.txns = [] ∧
        pkg.processTaken block (s.take block) = pkg.processBlock block.txns (s.take block) ∨
      s.missingOf block.txns ≠ [] ∧
        ((∃ missedCounter, pkg.processTaken block (s.take block) =
            .ok () { s.take block with processing := false, missedCounter }) ∨
          pkg.processTaken block (s.take block) = .ok () { s.take block with
            missedCounter := 0
            requests := s.requests ++ (s.missingOf block.txns).map fun txid => (txid, 1) }) := by
  rw [Packages.processTaken, get_bind]
  by_cases missing : (s.take block).missingTxns ≠ []
  · refine .inr ⟨missing, ?_⟩
    rw [if_pos missing, modify_bind, get_bind]
    split
    · rw [modify_bind]
      exact .inr (@findMissing_sends pkg block.txns { s.take block with missedCounter := 0 } missing)
    · exact .inl ⟨_, rfl⟩
  · rw [if_neg missing]
    exact .inl ⟨not_not.mp missing, rfl⟩

/-- **Taking the head of the queue keeps the order.** -/
theorem processTaken_orderly {s : Storage} {done : List Block} {head : Block} {rest : List Block}
    (behind : s.control.Behind done) (notBusy : s.processing = false)
    (queue : s.blockQueue = head :: rest) :
    (final (pkg.processTaken head (s.take head))).Orderly := by
  obtain ⟨idle, entered⟩ : s.processingBlock = false ∧
      enteredIn s.blockLog = done.map Block.txns := by
    cases behind.phase with
    | idle _ idle entered => exact ⟨idle, entered⟩
    | waiting busy => exact absurd busy (by simpa [Storage.control] using notBusy)
    | stuck busy => exact absurd busy (by simpa [Storage.control] using notBusy)
  rcases processTaken_cases pkg head s with
    ⟨noMissing, run⟩ | ⟨-, ⟨missedCounter, run⟩ | run⟩
  · have taken : (s.take head).control.Behind done :=
      ⟨behind.queued, behind.deleted, .waiting rfl idle entered queue rfl⟩
    rw [run]
    exact taken.process pkg idle queue noMissing (.inl rfl)
  · rw [run]
    exact ⟨done, behind.queued, behind.deleted, .idle rfl idle entered fun _ => ⟨head, rest, queue, rfl⟩⟩
  · rw [run]
    exact ⟨done, behind.queued, behind.deleted, .waiting rfl idle entered queue rfl⟩

theorem tryProcess_orderly {s : Storage} (order : s.Orderly) :
    (final (pkg.tryProcess s)).Orderly := by
  obtain ⟨done, behind⟩ := order
  by_cases busy : s.processing = true
  · rw [pkg.tryProcess_waits (.inl busy)]
    exact ⟨done, behind⟩
  · cases queue : s.blockQueue with
    | nil =>
        rw [pkg.tryProcess_waits (.inr queue)]
        exact ⟨done, behind⟩
    | cons head rest =>
        have idle : s.processing = false := by simpa using busy
        rw [pkg.tryProcess_takes idle queue]
        exact processTaken_orderly pkg behind idle queue

/-! ### Answers -/

/-- The answer makes the node enter `process_block`: it arrives outside of it, its
transaction is there, and no other is missing. -/
def Storage.Completes (s : Storage) (n : Nat) (reply : Reply) : Prop :=
  ∃ entry ∈ s.requests[n]?, s.processingBlock = false ∧ s.missingTxns.erase entry.1 = [] ∧
    match reply with
    | .transaction _ => True
    | .shownInvalid => entry.1 ∈ s.mempool
    | _ => entry.2 % 5 = 0 ∧ entry.1 ∈ s.mempool

/-- A property of nodes that survives what answers do: requests come and go, ids leave
`missing_txns`, and a block is completed while the node works on it, or while it is
backing off and processing it returns. -/
structure Enduring (J : Storage → Prop) : Prop where
  requests : ∀ s requests, J s → J { s with requests }
  shorten : ∀ s txid, J s → (s.missingTxns.erase txid = [] → s.processingBlock = true) →
    J { s with missingTxns := s.missingTxns.erase txid }
  complete : ∀ s txid, J s → s.missingTxns.erase txid = [] → s.processingBlock = false →
    (s.processing = true ∨ s.missingTxns ≠ [] ∧
      ∃ t, pkg.processBlock s.currentBlock { s with missingTxns := s.missingTxns.erase txid } =
        .ok () t) →
    J (final (pkg.processBlock s.currentBlock { s with missingTxns := s.missingTxns.erase txid }))

/-- Where a request raises, `process_block` did. -/
theorem requestMissing_raises {s t : Storage} {txid : Bytes} {i : Nat} {e : PyError}
    (raised : pkg.requestMissingTransaction txid i s = .error e t) : t.processingBlock = true := by
  rw [Packages.requestMissingTransaction, get_bind] at raised
  split at raised
  · rw [removeMissing, modify_bind, get_bind] at raised
    split at raised
    · exact processBlock_raises pkg raised
    · cases raised
  · cases raised

theorem received_raises {s t : Storage} {txid : Bytes} {e : PyError}
    (raised : Packages.transactionReceived.received pkg txid s = .error e t) :
    t.processingBlock = true := by
  rw [Packages.transactionReceived.received, removeMissing, modify_bind, get_bind] at raised
  split at raised
  · exact processBlock_raises pkg raised
  · cases raised

/-- The callback goes on with the transaction in the mempool. -/
theorem transactionReceived_eq (tx : Transaction) (i : Nat) (txid : Bytes) (s : Storage) :
    pkg.transactionReceived (.transaction tx) i txid s =
        Packages.transactionReceived.received pkg txid (final (pkg.addMissing txid tx s)) ∧
      (final (pkg.addMissing txid tx s)).control = s.control := by
  refine ⟨?_, addMissing_frame pkg Storage.control (fun _ _ _ => rfl) txid tx s⟩
  rw [Packages.transactionReceived, bind_apply]
  rcases addMissing_cases pkg txid tx s with ⟨-, run⟩ | ⟨-, run⟩ <;> rw [run, final_ok]

namespace Enduring

variable {pkg} {J : Storage → Prop}

theorem requestMissing (enduring : Enduring pkg J) {s : Storage} {txid : Bytes} {i : Nat}
    (holds : J s) (held : i % 5 = 0 ∧ txid ∈ s.mempool → s.missingTxns.erase txid = [] →
      s.processingBlock = false → s.processing = true ∨ s.missingTxns ≠ [] ∧
        ∃ t, pkg.requestMissingTransaction txid i s = .ok () t) :
    J (final (pkg.requestMissingTransaction txid i s)) := by
  rw [Packages.requestMissingTransaction, get_bind] at held ⊢
  by_cases present : i % 5 = 0 ∧ txid ∈ s.mempool
  · rw [if_pos present, removeMissing, modify_bind, get_bind] at held ⊢
    split
    · rename_i complete
      rw [if_pos complete] at held
      exact enduring.complete s txid holds complete.1 complete.2
        (held present complete.1 complete.2)
    · rename_i incomplete
      refine enduring.requests _ _ (enduring.shorten s txid holds fun none => ?_)
      simpa using not_and.mp incomplete none
  · rw [if_neg present]
    exact enduring.requests _ _ holds

theorem received (enduring : Enduring pkg J) {s : Storage} {txid : Bytes} (holds : J s)
    (held : s.missingTxns.erase txid = [] → s.processingBlock = false →
      s.processing = true ∨ s.missingTxns ≠ [] ∧
        ∃ t, Packages.transactionReceived.received pkg txid s = .ok () t) :
    J (final (Packages.transactionReceived.received pkg txid s)) := by
  rw [Packages.transactionReceived.received, removeMissing, modify_bind, get_bind] at held ⊢
  split
  · rename_i complete
    rw [if_pos complete] at held
    exact enduring.complete s txid holds complete.1 complete.2 (held complete.1 complete.2)
  · rename_i incomplete
    refine enduring.shorten s txid holds fun none => ?_
    simpa using not_and.mp incomplete none

/-- The errback after a callback that raised only asks again. -/
theorem errback (enduring : Enduring pkg J) {s : Storage} {txid : Bytes} {i : Nat} (holds : J s)
    (inside : s.processingBlock = true ∨ txid ∉ s.mempool) :
    J (final (pkg.requestMissingTransaction txid i s)) := by
  refine enduring.requestMissing holds fun present _ outside => ?_
  rcases inside with inside | absent
  · rw [outside] at inside
    cases inside
  · exact absurd present.2 absent

/-- **An answer keeps what is enduring**, if it completes a block only while the node
works on it. -/
theorem requestChain (enduring : Enduring pkg J) {s : Storage} {reply : Reply} {i : Nat}
    {txid : Bytes} (holds : J s)
    (held : s.processingBlock = false → s.missingTxns.erase txid = [] →
      (match reply with
        | .transaction _ => True
        | .shownInvalid => txid ∈ s.mempool
        | _ => i % 5 = 0 ∧ txid ∈ s.mempool) →
      s.processing = true ∨ s.missingTxns ≠ [] ∧
        ∃ t, pkg.requestAnswered reply i txid s = .ok () t)
    (arrives : ∀ tx, reply = .transaction tx → J (final (pkg.addMissing txid tx s))) :
    J (final (pkg.requestChain reply i txid s)) := by
  have chained : ∀ {m : M Unit}, J (final (m s)) →
      (∀ e t, m s = .error e t → t.processingBlock = true ∨ txid ∉ t.mempool) →
      J (final ((tryCatch m fun _ => pkg.transactionReceiveError i txid : M Unit) s)) := by
    intro m first inside
    rw [tryCatch_apply]
    cases run : m s with
    | ok _ t =>
        rw [run] at first
        exact first
    | error e t =>
        rw [run] at first
        exact enduring.errback first (inside e t run)
  cases reply with
  | failure =>
      exact enduring.requestMissing holds fun present none outside => held outside none present
  | notFound =>
      exact chained (enduring.requestMissing holds fun present none outside =>
        held outside none present) fun e t raised => .inl (requestMissing_raises pkg raised)
  | shownInvalid =>
      by_cases absent : txid ∉ s.mempool
      · -- `add_to_mempool(None)` raised, and the node asks again
        have raised : pkg.transactionReceived .shownInvalid i txid s = .error .attributeError s := by
          rw [Packages.transactionReceived, get_bind, if_pos absent]
          rfl
        refine chained (by rw [raised]; exact holds) fun e t raised' => ?_
        rw [raised] at raised'
        cases raised'
        exact .inr absent
      · have same : pkg.transactionReceived .shownInvalid i txid s =
            Packages.transactionReceived.received pkg txid s := by
          rw [Packages.transactionReceived, get_bind, if_neg absent]
        refine chained ?_ fun e t raised => .inl (received_raises pkg (same ▸ raised))
        rw [same]
        exact enduring.received holds fun none outside =>
          (held outside none (not_not.mp absent)).imp_right fun later =>
            ⟨later.1, same ▸ later.2⟩
  | transaction tx =>
      obtain ⟨same, control⟩ := transactionReceived_eq pkg tx i txid s
      have sameMissing : (final (pkg.addMissing txid tx s)).missingTxns = s.missingTxns :=
        congrArg Control.missingTxns control
      have sameOutside : (final (pkg.addMissing txid tx s)).processingBlock = s.processingBlock :=
        congrArg Control.processingBlock control
      have sameBusy : (final (pkg.addMissing txid tx s)).processing = s.processing :=
        congrArg Control.processing control
      refine chained ?_ fun e t raised => .inl (received_raises pkg (same ▸ raised))
      rw [same]
      refine enduring.received (arrives tx rfl) fun none outside => ?_
      rw [sameMissing] at none ⊢
      rw [sameOutside] at outside
      rw [sameBusy]
      exact (held outside none trivial).imp_right fun later => ⟨later.1, same ▸ later.2⟩

end Enduring

/-- Completing the block at the head keeps the order. -/
theorem orderly_enduring : Enduring pkg Storage.Orderly where
  requests _ _ order := order
  shorten s txid order _ := by
    obtain ⟨done, behind⟩ := order
    exact ⟨done, behind.shorten txid⟩
  complete s txid order none outside held := by
    obtain ⟨done, behind⟩ := order
    obtain ⟨head, rest, queue, current⟩ : ∃ head rest, s.blockQueue = head :: rest ∧
        s.currentBlock = head.txns := by
      cases behind.phase with
      | idle notBusy _ _ missing =>
          refine missing (held.resolve_left fun busy => ?_).1
          exact absurd busy (by simpa [Storage.control] using notBusy)
      | waiting _ _ _ queue current => exact ⟨_, _, queue, current⟩
      | stuck _ inside => exact absurd inside (by simpa [Storage.control] using outside)
    rw [current] at held ⊢
    have shorter : { s with
        currentBlock := head.txns
        missingTxns := s.missingTxns.erase txid }.control.Behind done := current ▸ behind.shorten txid
    exact shorter.process pkg outside queue none (held.imp_right And.right)

/-! ### The runs of a node -/

/-- An answer that makes the node enter `process_block` comes while the node works
on a block; or the block is still backing off, and processing it returns. -/
def Setup.AnswersInTime (setup : Setup) (s : Storage) (a : Action) : Prop :=
  ∀ n reply, a = .answer n reply → s.Completes n reply →
    s.processing = true ∨ s.missingTxns ≠ [] ∧ ∃ t, setup.perform a s = .ok () t

theorem Setup.exec_orderly {setup : Setup} {s : Storage} {a : Action} (order : s.Orderly)
    (inTime : setup.AnswersInTime s a) : (final (setup.exec a s)).Orderly := by
  cases a with
  | deliver block =>
      change (final (setup.addBlockToQueue block s)).Orderly
      have kept := (control_steady s.control).updatePend setup.toPackages s rfl
      rw [Packages.addBlockToQueue, bind_apply]
      cases run : setup.updatePend s with
      | error e t =>
          rw [run] at kept
          exact order.of_control kept
      | ok _ t =>
          rw [run] at kept
          obtain ⟨done, behind⟩ := order.of_control kept
          exact ⟨done, behind.queue block⟩
  | tryProcess => exact tryProcess_orderly setup.toPackages order
  | puttxn tx =>
      change (final (setup.puttxn tx s)).Orderly
      rw [Packages.puttxn, Packages.addMissing, get_bind]
      split
      · exact order
      · exact order
  | answer n reply =>
      rw [Packages.exec, withRequest, get_bind]
      cases request : s.requests[n]? with
      | none => exact order
      | some entry =>
          refine (orderly_enduring setup.toPackages).requestChain
            (s := { s with requests := s.requests.eraseIdx n }) order
            (fun outside none present => ?_) fun tx _ =>
              order.of_control (transactionReceived_eq _ tx entry.2 entry.1 _).2
          refine (inTime n reply rfl ⟨entry, request, outside, none, present⟩).imp_right ?_
          rintro ⟨some, t, run⟩
          refine ⟨some, t, ?_⟩
          rw [Packages.perform, withRequest, get_bind, request] at run
          exact run
  | updatePend =>
      exact order.of_control ((control_steady s.control).updatePend setup.toPackages s rfl)

/-- Every block was processed once, in the order of delivery, up to the ones that
still wait: the blocks deleted from the queue are the first ones delivered, each
deleted after its own ids were examined, and `process_block` was entered for these,
and at most once for the one that is now at the head. -/
def Storage.InOrder (s : Storage) : Prop :=
  ∃ done, queuedIn s.blockLog = done ++ s.blockQueue ∧
    deletedIn s.blockLog = done.map (fun block => (block.txns, block)) ∧
    (enteredIn s.blockLog = done.map Block.txns ∨
      ∃ head rest, s.blockQueue = head :: rest ∧
        enteredIn s.blockLog = done.map Block.txns ++ [head.txns])

/-- **Every committed block is processed exactly once, in commit order**, in every
run in which answers come in time, whether operations raise or not. -/
theorem Setup.node_blocks {setup : Setup} {s : Storage}
    (reached : (setup.faultyNode.restrict setup.AnswersInTime).Reachable s) : s.InOrder := by
  have orderly : s.Orderly := by
    refine reached.invariant ?_ ?_
    · rintro _ rfl
      exact ⟨[], rfl, rfl, .idle rfl rfl rfl fun missing => absurd rfl missing⟩
    · rintro s a _ _ order ⟨inTime, rfl⟩
      exact Setup.exec_orderly order inTime
  obtain ⟨done, queued, deleted, phase⟩ := orderly
  refine ⟨done, queued, deleted, ?_⟩
  cases phase with
  | idle _ _ entered => exact .inl entered
  | waiting _ _ entered => exact .inl entered
  | stuck _ _ entered queue => exact .inr ⟨_, _, queue, entered⟩

/-! ### The blocks behind a node -/

/-- The blocks deleted from the queue. -/
def Storage.done (s : Storage) : List Block := (deletedIn s.blockLog).map Prod.snd

/-- The blocks that were fully processed: deleted after their own ids were examined. -/
def Storage.processed (s : Storage) : List Block :=
  (deletedIn s.blockLog).filterMap fun entry =>
    if entry.1 = entry.2.txns then some entry.2 else none

theorem Storage.Orderly.behind {s : Storage} (order : s.Orderly) :
    s.control.Behind s.done ∧ s.processed = s.done := by
  obtain ⟨done, behind⟩ := order
  have deleted : deletedIn s.blockLog = done.map fun block => (block.txns, block) := behind.deleted
  have same : s.done = done := by
    rw [Storage.done, deleted, List.map_map]
    exact List.map_id done
  refine ⟨same ▸ behind, ?_⟩
  rw [same, Storage.processed, deleted, List.filterMap_map]
  simp

theorem Storage.done_of_log {s t : Storage} (same : t.blockLog = s.blockLog ∨
    ∃ block, t.blockLog = s.blockLog ++ [.queued block]) : t.done = s.done := by
  rcases same with same | ⟨block, longer⟩
  · rw [Storage.done, same, Storage.done]
  · rw [Storage.done, longer]
    simp [Storage.done, deletedIn]

/-! ### Payments that are requested -/

/-- Two payments, from the two genesis outputs. -/
def firstPayment : Transaction := Ideal.pay (Ideal.packages.txid Ideal.genesis) 0 0 0

def secondPayment : Transaction := Ideal.pay (Ideal.packages.txid Ideal.genesis) 1 0 0

/-- The payments of a block are missing and are requested. -/
def requestsRun : List Action :=
  .deliver ⟨0, [Ideal.packages.txid firstPayment, Ideal.packages.txid secondPayment]⟩ ::
    List.replicate 301 .tryProcess

/-- An answer comes only while the node works on a block. -/
def Storage.Answering (s : Storage) : Action → Prop
  | .answer _ _ => s.processing = true
  | _ => True

instance (s : Storage) (a : Action) : Decidable (s.Answering a) := by
  unfold Storage.Answering
  split <;> infer_instance

theorem node_blocks_answered :
    (Ideal.small.replayFaulty Storage.Answering
        (requestsRun ++ [.answer 0 (.transaction firstPayment), .answer 0 (.transaction secondPayment)])
        Ideal.small.fresh).blockQueue = [] ∧
      (Ideal.small.replayFaulty Storage.Answering
        (requestsRun ++ [.answer 0 (.transaction firstPayment), .answer 0 (.transaction secondPayment)])
        Ideal.small.fresh).InOrder := by
  refine ⟨by decide +kernel, @Setup.node_blocks Ideal.small _ ?_⟩
  refine (Setup.reachable_replayFaulty (C := Storage.Answering) (.start rfl) _).weaken ?_
  rintro s a answering n reply rfl -
  exact .inl answering

/-- The first payment reaches the node on another way while its request is
answered with 0, again and again; at the fifth try it is found, and requested once
more. The second payment completes the block, and the last answer comes when the
next block is waiting. -/
def lateRun : List Action :=
  requestsRun ++ [.answer 0 .notFound, .puttxn firstPayment, .answer 1 .notFound,
    .answer 1 .notFound, .answer 1 .notFound, .answer 1 .notFound,
    .answer 0 (.transaction secondPayment),
    .deliver ⟨1, [Ideal.packages.txid (Ideal.pay [] 0 0 0)]⟩, .answer 0 (.transaction firstPayment)]

/-- The blocks that are delivered name no transaction twice. -/
def Action.Repeatless : Action → Prop
  | .deliver block => block.txns.Nodup
  | _ => True

instance (a : Action) : Decidable a.Repeatless := by
  unfold Action.Repeatless
  split <;> infer_instance

/-- **A block skipped.** No operation raises, and the second block is deleted after
`process_block` examined the empty list. -/
theorem block_skipped :
    ¬ ∀ s, (Ideal.small.node.restrict fun _ a => a.Repeatless).Reachable s → s.InOrder := by
  intro claim
  obtain ⟨done, -, deleted, -⟩ := claim _ (Setup.reachable_replay (.start rfl) lateRun)
  have examined : ∃ entry ∈ deletedIn (Ideal.small.replay (fun _ a => a.Repeatless) lateRun
      Ideal.small.fresh).blockLog, entry.1 ≠ entry.2.txns := by decide +kernel
  obtain ⟨entry, mem, differs⟩ := examined
  rw [deleted] at mem
  obtain ⟨block, -, rfl⟩ := List.mem_map.mp mem
  exact differs rfl

end Belcoin
