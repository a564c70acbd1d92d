import Belcoin.Queue

/-!
What a step of a node does.

An action enters `process_block` at most once. `exec_cases` says that it does so
(`Enters`), or does one of the things that `Quiet` lists; what a property of nodes
survives is proved by these cases.
-/

namespace Belcoin

open Stateful

variable (pkg : Packages)

/-! ### Entering `process_block`, or not -/

/-- The node as an answer has been taken in: the transaction is in the mempool, and no
longer missing. -/
def Packages.answered (s : Storage) (n : Nat) (txid : Bytes) (reply : Reply) : Storage :=
  let s := { s with requests := s.requests.eraseIdx n }
  let s := match reply with
    | .transaction tx => final (pkg.addMissing txid tx s)
    | _ => s
  { s with missingTxns := s.missingTxns.erase txid }

/-- Apart from the mempool an answer takes a request and a missing transaction away. -/
theorem answered_frame {α : Type} (part : Storage → α)
    (apart : ∀ u mempool mempoolList, part { u with mempool, mempoolList } = part u)
    (s : Storage) (n : Nat) (txid : Bytes) (reply : Reply) :
    part (pkg.answered s n txid reply) = part { s with
      requests := s.requests.eraseIdx n
      missingTxns := s.missingTxns.erase txid } := by
  cases reply with
  | transaction tx =>
      exact addMissing_frame pkg (fun u => part { u with missingTxns := u.missingTxns.erase txid })
        (fun u => apart { u with missingTxns := u.missingTxns.erase txid }) txid tx
        { s with requests := s.requests.eraseIdx n }
  | _ => rfl

/-- An answer leaves the rest of the control state to the callbacks. -/
theorem answered_control (s : Storage) (n : Nat) (txid : Bytes) (reply : Reply) :
    (pkg.answered s n txid reply).control =
      { s.control with missingTxns := s.missingTxns.erase txid } :=
  answered_frame pkg Storage.control (fun _ _ _ => rfl) s n txid reply

theorem addMissing_ledger (txid : Bytes) (tx : Transaction) (s : Storage) :
    (final (pkg.addMissing txid tx s)).toLedger = s.toLedger :=
  addMissing_frame pkg Storage.toLedger (fun _ _ _ => rfl) txid tx s

theorem answered_ledger (s : Storage) (n : Nat) (txid : Bytes) (reply : Reply) :
    (pkg.answered s n txid reply).toLedger = s.toLedger :=
  answered_frame pkg Storage.toLedger (fun _ _ _ => rfl) s n txid reply

/-- The action enters `process_block` with this block, from this state. -/
inductive Packages.Enters (s : Storage) : Action → List Bytes → Storage → Prop where
  | taken {block : Block} {rest : List Block} : s.processing = false →
      s.blockQueue = block :: rest → s.missingOf block.txns = [] →
      Enters s .tryProcess block.txns (s.take block)
  | completed {n : Nat} {reply : Reply} {entry : Bytes × Nat} : s.requests[n]? = some entry →
      s.Completes n reply →
      Enters s (.answer n reply) s.currentBlock (pkg.answered s n entry.1 reply)

/-- What an action does that does not enter `process_block`. -/
inductive Packages.Quiet (s : Storage) : Action → Storage → Prop where
  | waits : Quiet s .tryProcess s
  | backsOff {block : Block} {rest : List Block} {missedCounter : Nat} : s.processing = false →
      s.blockQueue = block :: rest → s.missingOf block.txns ≠ [] →
      Quiet s .tryProcess { s.take block with processing := false, missedCounter }
  | asks {block : Block} {rest : List Block} : s.processing = false →
      s.blockQueue = block :: rest → s.missingOf block.txns ≠ [] →
      Quiet s .tryProcess { s.take block with
        missedCounter := 0
        requests := s.requests ++ (s.missingOf block.txns).map fun txid => (txid, 1) }
  | delivered {block : Block} : Quiet s (.deliver block) (final (pkg.addBlockToQueue block s))
  | swept : Quiet s .updatePend (final (pkg.updatePend s))
  | submitted {tx : Transaction} : Quiet s (.puttxn tx) (final (pkg.puttxn tx s))
  | ended {n : Nat} {reply : Reply} : s.requests[n]? = none → Quiet s (.answer n reply) s
  /-- The transaction is there, and others are missing. -/
  | received {n : Nat} {reply : Reply} {entry : Bytes × Nat} : s.requests[n]? = some entry →
      ((∀ tx, reply ≠ .transaction tx) → entry.1 ∈ s.mempool) →
      (s.missingTxns.erase entry.1 = [] → s.processingBlock = true) →
      Quiet s (.answer n reply) (pkg.answered s n entry.1 reply)
  /-- The transaction is not there, and is requested again. -/
  | again {n : Nat} {reply : Reply} {entry : Bytes × Nat} : s.requests[n]? = some entry →
      (∀ tx, reply ≠ .transaction tx) → Quiet s (.answer n reply)
        { s with requests := s.requests.eraseIdx n ++ [(entry.1, entry.2 + 1)] }
  /-- The transaction has come on another way, and is requested all the same. -/
  | found {n : Nat} {reply : Reply} {entry : Bytes × Nat} : s.requests[n]? = some entry →
      (∀ tx, reply ≠ .transaction tx) → entry.1 ∈ s.mempool →
      (s.missingTxns.erase entry.1 = [] → s.processingBlock = true) →
      Quiet s (.answer n reply) { s with
        missingTxns := s.missingTxns.erase entry.1
        requests := s.requests.eraseIdx n ++ [(entry.1, entry.2 + 1)] }

/-- What a request for a transaction does. -/
theorem requestMissing_cases (txid : Bytes) (i : Nat) (s : Storage) :
    ((i % 5 = 0 ∧ txid ∈ s.mempool) ∧ s.missingTxns.erase txid = [] ∧ s.processingBlock = false ∧
        pkg.requestMissingTransaction txid i s = pkg.processBlock s.currentBlock
          { s with missingTxns := s.missingTxns.erase txid }) ∨
      ((i % 5 = 0 ∧ txid ∈ s.mempool) ∧ (s.missingTxns.erase txid = [] → s.processingBlock = true) ∧
        pkg.requestMissingTransaction txid i s = .ok () { s with
          missingTxns := s.missingTxns.erase txid
          requests := s.requests ++ [(txid, i + 1)] }) ∨
      (¬ (i % 5 = 0 ∧ txid ∈ s.mempool) ∧ pkg.requestMissingTransaction txid i s =
        .ok () { s with requests := s.requests ++ [(txid, i + 1)] }) := by
  by_cases present : i % 5 = 0 ∧ txid ∈ s.mempool
  · rw [Packages.requestMissingTransaction, get_bind, if_pos present, removeMissing, modify_bind,
      get_bind]
    by_cases complete : s.missingTxns.erase txid = [] ∧ s.processingBlock = false
    · rw [if_pos complete]
      exact .inl ⟨present, complete.1, complete.2, rfl⟩
    · rw [if_neg complete]
      exact .inr (.inl ⟨present, fun none => by simpa using not_and.mp complete none, rfl⟩)
  · exact .inr (.inr ⟨present, requestMissingTransaction_sends pkg present⟩)

/-- What a transaction that is there does, when the answer comes. -/
theorem received_cases (txid : Bytes) (s : Storage) :
    (s.missingTxns.erase txid = [] ∧ s.processingBlock = false ∧
        Packages.transactionReceived.received pkg txid s = pkg.processBlock s.currentBlock
          { s with missingTxns := s.missingTxns.erase txid }) ∨
      ((s.missingTxns.erase txid = [] → s.processingBlock = true) ∧
        Packages.transactionReceived.received pkg txid s =
          .ok () { s with missingTxns := s.missingTxns.erase txid }) := by
  rw [Packages.transactionReceived.received, removeMissing, modify_bind, get_bind]
  by_cases complete : s.missingTxns.erase txid = [] ∧ s.processingBlock = false
  · rw [if_pos complete]
    exact .inl ⟨complete.1, complete.2, rfl⟩
  · rw [if_neg complete]
    exact .inr ⟨fun none => by simpa using not_and.mp complete none, rfl⟩

/-- How a step goes on that enters `process_block`: where that raises, an errback may
ask again. -/
def Packages.EntersWith (s : Storage) (a : Action) (block : List Bytes) (u : Storage) : Prop :=
  pkg.perform a s = pkg.processBlock block u ∧
    ((∃ t, pkg.processBlock block u = .ok () t ∧ final (pkg.exec a s) = t) ∨
      ∃ e t missingTxns requests, pkg.processBlock block u = .error e t ∧
        final (pkg.exec a s) = { t with missingTxns, requests })

/-- The errback of a callback that raised in `process_block`. -/
theorem errback_cases {m : M Unit} {s u : Storage} {block : List Bytes} (txid : Bytes) (i : Nat)
    (enters : m s = pkg.processBlock block u) :
    (∃ t, pkg.processBlock block u = .ok () t ∧ final ((tryCatch m fun _ =>
        pkg.transactionReceiveError i txid : M Unit) s) = t) ∨
      ∃ e t missingTxns requests, pkg.processBlock block u = .error e t ∧
        final ((tryCatch m fun _ => pkg.transactionReceiveError i txid : M Unit) s) =
          { t with missingTxns, requests } := by
  rw [tryCatch_apply, enters]
  cases run : pkg.processBlock block u with
  | ok _ t => exact .inl ⟨t, rfl, rfl⟩
  | error e t =>
      have inside := processBlock_raises pkg run
      refine .inr ?_
      rcases requestMissing_cases pkg txid i t with ⟨-, -, outside, -⟩ | ⟨-, -, again⟩ | ⟨-, again⟩
      · rw [outside] at inside
        cases inside
      · exact ⟨e, t, _, _, rfl, congrArg final again⟩
      · exact ⟨e, t, _, _, rfl, congrArg final again⟩

/-- When the answer to a request in flight completes a block. -/
theorem completes_iff {s : Storage} {n : Nat} {reply : Reply} {txid : Bytes} {i : Nat}
    (flying : s.requests[n]? = some (txid, i)) :
    s.Completes n reply ↔ s.processingBlock = false ∧ s.missingTxns.erase txid = [] ∧
      match reply with
        | .transaction _ => True
        | .shownInvalid => txid ∈ s.mempool
        | _ => i % 5 = 0 ∧ txid ∈ s.mempool := by
  constructor
  · rintro ⟨entry, flying', completes⟩
    rw [flying] at flying'
    cases flying'
    exact completes
  · exact fun completes => ⟨_, flying, completes⟩

/-- The rest of an answer that has entered `process_block`. -/
theorem entersWith_answer {s : Storage} {n : Nat} {reply : Reply} {txid : Bytes} {i : Nat}
    (flying : s.requests[n]? = some (txid, i)) {block : List Bytes} {u : Storage}
    (enters : pkg.requestAnswered reply i txid { s with requests := s.requests.eraseIdx n } =
      pkg.processBlock block u) : pkg.EntersWith s (.answer n reply) block u := by
  have performs : pkg.perform (.answer n reply) s = pkg.processBlock block u :=
    (withRequest_some flying).trans enters
  have runs : pkg.exec (.answer n reply) s =
      pkg.requestChain reply i txid { s with requests := s.requests.eraseIdx n } :=
    withRequest_some flying
  refine ⟨performs, ?_⟩
  rw [runs]
  cases reply with
  | failure =>
      have chain : pkg.requestChain .failure i txid { s with requests := s.requests.eraseIdx n } =
          pkg.processBlock block u := enters
      rw [chain]
      cases run : pkg.processBlock block u with
      | ok _ t => exact .inl ⟨t, rfl, rfl⟩
      | error e t => exact .inr ⟨e, t, t.missingTxns, t.requests, rfl, rfl⟩
  | notFound => exact errback_cases pkg txid i enters
  | shownInvalid => exact errback_cases pkg txid i enters
  | transaction tx => exact errback_cases pkg txid i enters

/-- The rest of an answer whose callback returns. -/
theorem exec_answer {s t : Storage} {n : Nat} {reply : Reply} {txid : Bytes} {i : Nat}
    (flying : s.requests[n]? = some (txid, i))
    (returns : pkg.requestAnswered reply i txid { s with requests := s.requests.eraseIdx n } =
      .ok () t) : final (pkg.exec (.answer n reply) s) = t := by
  have performs : pkg.perform (.answer n reply) s = .ok () t :=
    (withRequest_some flying).trans returns
  rw [Packages.exec_of_perform performs]
  rfl

/-- What an answer that asks again does. -/
theorem answer_again {s : Storage} {n : Nat} {reply : Reply} {txid : Bytes} {i : Nat}
    (flying : s.requests[n]? = some (txid, i)) (negative : reply = .failure ∨ reply = .notFound) :
    (s.Completes n reply ∧ pkg.EntersWith s (.answer n reply) s.currentBlock
        (pkg.answered s n txid reply)) ∨
      (¬ s.Completes n reply ∧
        pkg.Quiet s (.answer n reply) (final (pkg.exec (.answer n reply) s))) := by
  let t := { s with requests := s.requests.eraseIdx n }
  have asks : pkg.requestAnswered reply i txid t = pkg.requestMissingTransaction txid i t := by
    rcases negative with rfl | rfl <;> rfl
  have noBody : ∀ tx, reply ≠ .transaction tx := by
    rcases negative with rfl | rfl <;> nofun
  have sameState : pkg.answered s n txid reply =
      { t with missingTxns := t.missingTxns.erase txid } := by
    rcases negative with rfl | rfl <;> rfl
  have completes : s.Completes n reply ↔ s.processingBlock = false ∧
      s.missingTxns.erase txid = [] ∧ i % 5 = 0 ∧ txid ∈ s.mempool := by
    rw [completes_iff flying]
    rcases negative with rfl | rfl <;> rfl
  rw [completes]
  rcases requestMissing_cases pkg txid i t with
    ⟨present, none, outside, enters⟩ | ⟨present, some, again⟩ | ⟨absent, again⟩
  · refine .inl ⟨⟨outside, none, present⟩, entersWith_answer pkg flying ?_⟩
    rw [sameState]
    exact asks.trans enters
  · refine .inr ⟨fun complete => ?_, ?_⟩
    · have outside := complete.1
      rw [some complete.2.1] at outside
      cases outside
    · rw [exec_answer pkg flying (asks.trans again)]
      exact .found flying noBody present.2 some
  · refine .inr ⟨fun complete => absent complete.2.2, ?_⟩
    rw [exec_answer pkg flying (asks.trans again)]
    exact .again flying noBody

/-- What an answer that goes on to `received` does. -/
theorem answer_received {s : Storage} {n : Nat} {reply : Reply} {txid : Bytes} {i : Nat}
    {t : Storage} (flying : s.requests[n]? = some (txid, i))
    (receives : pkg.requestAnswered reply i txid { s with requests := s.requests.eraseIdx n } =
      Packages.transactionReceived.received pkg txid t)
    (control : t.control = s.control)
    (sameState : pkg.answered s n txid reply =
      { t with missingTxns := t.missingTxns.erase txid })
    (completes : s.Completes n reply ↔ s.processingBlock = false ∧ s.missingTxns.erase txid = [])
    (present : (∀ tx, reply ≠ .transaction tx) → txid ∈ s.mempool) :
    (s.Completes n reply ∧ pkg.EntersWith s (.answer n reply) s.currentBlock
        (pkg.answered s n txid reply)) ∨
      (¬ s.Completes n reply ∧
        pkg.Quiet s (.answer n reply) (final (pkg.exec (.answer n reply) s))) := by
  have sameMissing : t.missingTxns = s.missingTxns := congrArg Control.missingTxns control
  have sameOutside : t.processingBlock = s.processingBlock :=
    congrArg Control.processingBlock control
  have sameBlock : t.currentBlock = s.currentBlock := congrArg Control.currentBlock control
  rw [completes]
  rcases received_cases pkg txid t with ⟨none, outside, enters⟩ | ⟨some, returns⟩
  · rw [sameMissing] at none
    rw [sameOutside] at outside
    refine .inl ⟨⟨outside, none⟩, entersWith_answer pkg flying ?_⟩
    rw [sameState]
    exact (receives.trans enters).trans (by rw [sameBlock])
  · rw [sameMissing, sameOutside] at some
    refine .inr ⟨fun complete => ?_, ?_⟩
    · have outside := complete.1
      rw [some complete.2] at outside
      cases outside
    · rw [exec_answer pkg flying (receives.trans returns), ← sameState]
      exact .received flying present some

/-- What an answer does. -/
theorem answer_cases {s : Storage} {n : Nat} {reply : Reply} {entry : Bytes × Nat}
    (flying : s.requests[n]? = some entry) :
    (s.Completes n reply ∧ pkg.EntersWith s (.answer n reply) s.currentBlock
        (pkg.answered s n entry.1 reply)) ∨
      (¬ s.Completes n reply ∧
        pkg.Quiet s (.answer n reply) (final (pkg.exec (.answer n reply) s))) := by
  obtain ⟨txid, i⟩ := entry
  let t := { s with requests := s.requests.eraseIdx n }
  cases reply with
  | failure => exact answer_again pkg flying (.inl rfl)
  | notFound => exact answer_again pkg flying (.inr rfl)
  | shownInvalid =>
      have completes : s.Completes n .shownInvalid ↔ s.processingBlock = false ∧
          s.missingTxns.erase txid = [] ∧ txid ∈ s.mempool := completes_iff flying
      by_cases absent : txid ∉ s.mempool
      · -- `add_to_mempool(None)` raises, and the errback asks again
        refine .inr ⟨fun complete => absent (completes.mp complete).2.2, ?_⟩
        have raises : pkg.transactionReceived .shownInvalid i txid t = .error .attributeError t := by
          rw [Packages.transactionReceived, get_bind, if_pos absent]
          rfl
        have runs : pkg.exec (.answer n .shownInvalid) s =
            .ok () { t with requests := t.requests ++ [(txid, i + 1)] } := by
          refine (withRequest_some flying).trans ?_
          change (tryCatch (pkg.transactionReceived .shownInvalid i txid) fun _ =>
            pkg.transactionReceiveError i txid : M Unit) t = _
          rw [tryCatch_apply, raises]
          exact requestMissingTransaction_sends pkg fun present => absent present.2
        rw [runs]
        exact .again flying fun tx body => by cases body
      · have receives : pkg.requestAnswered .shownInvalid i txid t =
            Packages.transactionReceived.received pkg txid t := by
          change pkg.transactionReceived .shownInvalid i txid t = _
          rw [Packages.transactionReceived, get_bind, if_neg absent]
        refine answer_received pkg flying receives rfl rfl ?_ fun _ => not_not.mp absent
        rw [completes]
        exact ⟨fun complete => ⟨complete.1, complete.2.1⟩,
          fun complete => ⟨complete.1, complete.2, not_not.mp absent⟩⟩
  | transaction tx =>
      obtain ⟨receives, control⟩ := transactionReceived_eq pkg tx i txid t
      have completes : s.Completes n (.transaction tx) ↔ s.processingBlock = false ∧
          s.missingTxns.erase txid = [] ∧ True := completes_iff flying
      refine answer_received pkg flying receives control rfl ?_ fun noBody => absurd rfl (noBody tx)
      rw [completes, and_true]

/-- **What a step does**: it enters `process_block` once, or it is quiet. -/
theorem exec_cases (s : Storage) (a : Action) :
    (∃ block u, pkg.Enters s a block u ∧ pkg.EntersWith s a block u) ∨
      pkg.Quiet s a (final (pkg.exec a s)) := by
  cases a with
  | deliver block => exact .inr .delivered
  | tryProcess =>
      have runs : pkg.exec .tryProcess s = pkg.tryProcess s := rfl
      by_cases busy : s.processing = true
      · rw [runs, pkg.tryProcess_waits (.inl busy)]
        exact .inr .waits
      · have idle : s.processing = false := by simpa using busy
        cases queue : s.blockQueue with
        | nil =>
            rw [runs, pkg.tryProcess_waits (.inr queue)]
            exact .inr .waits
        | cons block rest =>
            have takes := pkg.tryProcess_takes idle queue
            rcases processTaken_cases pkg block s with
              ⟨noMissing, run⟩ | ⟨missing, ⟨missedCounter, run⟩ | run⟩
            · refine .inl ⟨block.txns, s.take block, .taken idle queue noMissing,
                takes.trans run, ?_⟩
              rw [runs, takes, run]
              cases result : pkg.processBlock block.txns (s.take block) with
              | ok _ t => exact .inl ⟨t, rfl, rfl⟩
              | error e t => exact .inr ⟨e, t, t.missingTxns, t.requests, rfl, rfl⟩
            · rw [runs, takes, run]
              exact .inr (.backsOff idle queue missing)
            · rw [runs, takes, run]
              exact .inr (.asks idle queue missing)
  | puttxn tx => exact .inr .submitted
  | answer n reply =>
      cases flying : s.requests[n]? with
      | none =>
          have runs : pkg.exec (.answer n reply) s = .ok () s := withRequest_none flying
          rw [runs]
          exact .inr (.ended flying)
      | some entry =>
          rcases answer_cases pkg flying with ⟨completes, enters⟩ | ⟨-, quiet⟩
          · exact .inl ⟨_, _, .completed flying completes, enters⟩
          · exact .inr quiet
  | updatePend => exact .inr .swept

/-! ### What `process_block` is entered with -/

instance (s : Storage) (n : Nat) : ∀ reply, Decidable (s.Completes n reply)
  | .transaction _ => inferInstanceAs (Decidable (∃ entry ∈ s.requests[n]?, _ ∧ _ ∧ True))
  | .shownInvalid => inferInstanceAs (Decidable (∃ entry ∈ s.requests[n]?, _ ∧ _ ∧ _ ∈ s.mempool))
  | .notFound => inferInstanceAs (Decidable (∃ entry ∈ s.requests[n]?, _ ∧ _ ∧ _ = 0 ∧ _))
  | .failure => inferInstanceAs (Decidable (∃ entry ∈ s.requests[n]?, _ ∧ _ ∧ _ = 0 ∧ _))

/-- The block that an action enters `process_block` with, and the state it enters it in. -/
def Packages.entry (s : Storage) : Action → Option (List Bytes × Storage)
  | .tryProcess =>
      match s.blockQueue with
      | [] => none
      | block :: _ =>
          if s.processing = false ∧ s.missingOf block.txns = [] then
            some (block.txns, s.take block)
          else none
  | .answer n reply =>
      match s.requests[n]? with
      | none => none
      | some request =>
          if s.Completes n reply then
            some (s.currentBlock, pkg.answered s n request.1 reply)
          else none
  | _ => none

theorem entry_iff {s u : Storage} {a : Action} {block : List Bytes} :
    pkg.entry s a = some (block, u) ↔ pkg.Enters s a block u := by
  constructor
  · intro entered
    cases a with
    | tryProcess =>
        cases queue : s.blockQueue with
        | nil => simp [Packages.entry, queue] at entered
        | cons head rest =>
            simp only [Packages.entry, queue] at entered
            split at entered
            · rename_i here
              cases entered
              exact .taken here.1 queue here.2
            · cases entered
    | answer n reply =>
        cases flying : s.requests[n]? with
        | none => simp [Packages.entry, flying] at entered
        | some request =>
            simp only [Packages.entry, flying] at entered
            split at entered
            · rename_i completes
              cases entered
              exact .completed flying completes
            · cases entered
    | deliver => cases entered
    | puttxn => cases entered
    | updatePend => cases entered
  · rintro (⟨idle, queue, none⟩ | ⟨flying, completes⟩)
    · simp [Packages.entry, queue, idle, none]
    · simp [Packages.entry, flying, completes]

end Belcoin
