import Belcoin.Cluster
import Belcoin.Waiting

/-!
Proposals on their way through Raft.

`adding_block` keeps a leader from proposing a second block while its first is on the
way. It is set by the tick that proposes and cleared when `try_process` takes a block.
Of Raft the machine assumes no more than this: an entry is copied from node to node, a
node may lose its copy when it follows another leader, an entry that some node still
holds may be committed, and committed entries are delivered to every node in order. A
delivery on which `update_pend` raises ends the thread of its node: from then on the node
gets nothing and does nothing in Raft, and only the reactor goes on.

* `raft_flag` — the flag is set only while a block is on its way to `try_process`, in
  the runs in which nothing strands it.
* `flag_sticks` — an entry that is discarded leaves the flag set for good.
-/

namespace Belcoin

open Stateful

/-! ### The flag of one node -/

/-- Settling transactions does not touch the flag. -/
theorem addingBlock_steady (flag : Bool) : Steady fun s => s.addingBlock = flag where
  ledger _ _ held := held
  pubOuts _ _ held := held
  pubOutsPend _ _ held := held
  invalidTxns _ _ held := held
  removal _ _ held := held

section Node

variable (pkg : Packages)

theorem processBlock_adding (block : List Bytes) (s : Storage) :
    (final (pkg.processBlock block s)).addingBlock = s.addingBlock := by
  have steady := addingBlock_steady s.addingBlock
  have sustains : Sustains (fun t => t.addingBlock = s.addingBlock) (pkg.processBlock block) := by
    refine Sustains.bind (sustains_modify fun _ held => held) fun _ =>
      Sustains.bind (Sustains.forM fun txid _ => steady.processTxn pkg txid) fun _ =>
        Sustains.get_bind fun t => ?_
    cases t.blockQueue with
    | nil => exact sustains_throw _ _
    | cons head rest => exact sustains_modify fun _ held => held
  exact sustains s rfl

/-- An errback leaves the flag to `process_block`. -/
theorem Packages.EntersWith.adding {pkg : Packages} {s u : Storage} {a : Action}
    {block : List Bytes} (goes : pkg.EntersWith s a block u) :
    (final (pkg.exec a s)).addingBlock = u.addingBlock := by
  have kept := processBlock_adding pkg block u
  rcases goes.2 with ⟨t, run, same⟩ | ⟨e, t, missingTxns, requests, run, same⟩
  · rw [same]
    rw [run] at kept
    exact kept
  · rw [same]
    rw [run] at kept
    exact kept

theorem addMissing_adding (txid : Bytes) (tx : Transaction) (s : Storage) :
    (final (pkg.addMissing txid tx s)).addingBlock = s.addingBlock :=
  addMissing_frame pkg Storage.addingBlock (fun _ _ _ => rfl) txid tx s

theorem answered_adding (s : Storage) (n : Nat) (txid : Bytes) (reply : Reply) :
    (pkg.answered s n txid reply).addingBlock = s.addingBlock :=
  answered_frame pkg Storage.addingBlock (fun _ _ _ => rfl) s n txid reply

/-- The flag is down while a block is processed, and a block at hand is queued. -/
structure Storage.Poised (s : Storage) : Prop where
  lowered : s.processing = true → s.addingBlock = false
  queued : s.currentBlock ≠ [] → s.blockQueue ≠ []

/-- The answer completes a block from which the node is backing off, or the empty list. -/
def Storage.CompletesLate (s : Storage) (a : Action) : Prop :=
  s.processing = false ∧ ∃ n reply, a = .answer n reply ∧ s.Completes n reply

/-- What a node does to the flag on its own, and to the queue if it leaves the flag set. -/
inductive Storage.FlagAfter (s : Storage) : Action → Storage → Prop where
  | lowered {a : Action} {t : Storage} : t.addingBlock = false → FlagAfter s a t
  | same {a : Action} {t : Storage} : t.addingBlock = s.addingBlock →
      t.blockQueue = s.blockQueue → FlagAfter s a t
  | late {a : Action} {t : Storage} : s.CompletesLate a → t.addingBlock = s.addingBlock →
      FlagAfter s a t

/-- Nothing that the flag depends on has changed. -/
theorem Storage.Poised.congr {s t : Storage} (poised : s.Poised)
    (processing : t.processing = s.processing) (adding : t.addingBlock = s.addingBlock)
    (current : t.currentBlock = s.currentBlock)
    (queue : s.blockQueue ≠ [] → t.blockQueue ≠ []) : t.Poised := by
  refine ⟨?_, ?_⟩
  · rw [processing, adding]
    exact poised.lowered
  · rw [current]
    exact fun some => queue (poised.queued some)

theorem answered_queue (s : Storage) (n : Nat) (txid : Bytes) (reply : Reply) :
    (pkg.answered s n txid reply).blockQueue = s.blockQueue :=
  congrArg Control.blockQueue (answered_control pkg s n txid reply)

/-- An answer leaves the node poised. -/
theorem answered_poised {s : Storage} (poised : s.Poised) (n : Nat) (txid : Bytes) (reply : Reply) :
    (pkg.answered s n txid reply).Poised := by
  have control := answered_control pkg s n txid reply
  refine poised.congr (congrArg Control.processing control) (answered_adding pkg s n txid reply)
    (congrArg Control.currentBlock control) fun some => ?_
  rw [answered_queue]
  exact some

/-- A delivery queues its block, or raises where `update_pend` does. -/
theorem deliver_cases (block : Block) (s : Storage) :
    ∃ u, u.control = s.control ∧ u.addingBlock = s.addingBlock ∧
      (pkg.updatePend s = .ok () u ∧ pkg.exec (.deliver block) s = .ok () { u with
          blockQueue := u.blockQueue ++ [block]
          blockLog := u.blockLog ++ [.queued block] } ∨
        ∃ e, pkg.updatePend s = .error e u ∧ pkg.exec (.deliver block) s = .error e u) := by
  have control := (control_steady s.control).updatePend pkg s rfl
  have adding := (addingBlock_steady s.addingBlock).updatePend pkg s rfl
  have runs : pkg.exec (.deliver block) s = pkg.addBlockToQueue block s := rfl
  rw [Packages.addBlockToQueue, bind_apply] at runs
  cases run : pkg.updatePend s with
  | error e u =>
      rw [run] at control adding runs
      exact ⟨u, control, adding, .inr ⟨e, rfl, runs⟩⟩
  | ok _ u =>
      rw [run] at control adding runs
      exact ⟨u, control, adding, .inl ⟨rfl, runs⟩⟩

/-- A delivery leaves the node poised. -/
theorem deliver_poised {s : Storage} (poised : s.Poised) (block : Block) :
    (final (pkg.exec (.deliver block) s)).Poised := by
  obtain ⟨u, control, adding, ⟨-, run⟩ | ⟨e, -, run⟩⟩ := deliver_cases pkg block s
  · rw [run]
    exact poised.congr (congrArg Control.processing control) adding
      (congrArg Control.currentBlock control) fun _ => List.append_ne_nil_of_right_ne_nil _ (by simp)
  · have queue : u.blockQueue = s.blockQueue := congrArg Control.blockQueue control
    rw [run]
    refine poised.congr (congrArg Control.processing control) adding
      (congrArg Control.currentBlock control) fun some => ?_
    rw [final_error, queue]
    exact some

/-- What a quiet step does to the flag. -/
theorem Packages.Quiet.flag {pkg : Packages} {s t : Storage} {a : Action}
    (local' : ∀ block, a ≠ .deliver block) (quiet : pkg.Quiet s a t) (poised : s.Poised) :
    s.FlagAfter a t ∧ t.Poised := by
  have unmoved : ∀ {u : Storage}, u.control = s.control → u.addingBlock = s.addingBlock →
      s.FlagAfter a u ∧ u.Poised := by
    intro u control adding
    have queue : u.blockQueue = s.blockQueue := congrArg Control.blockQueue control
    exact ⟨.same adding queue, poised.congr (congrArg Control.processing control) adding
      (congrArg Control.currentBlock control) fun some => queue ▸ some⟩
  cases quiet with
  | waits => exact ⟨.same rfl rfl, poised⟩
  | backsOff _ queue =>
      refine ⟨.lowered rfl, fun _ => rfl, fun _ => ?_⟩
      change s.blockQueue ≠ []
      simp [queue]
  | asks _ queue =>
      refine ⟨.lowered rfl, fun _ => rfl, fun _ => ?_⟩
      change s.blockQueue ≠ []
      simp [queue]
  | @delivered block => exact absurd rfl (local' block)
  | swept =>
      exact unmoved ((control_steady s.control).updatePend pkg s rfl)
        ((addingBlock_steady s.addingBlock).updatePend pkg s rfl)
  | @submitted tx =>
      exact unmoved (transactionReceived_eq pkg tx 0 (pkg.txid tx) s).2 (addMissing_adding pkg _ tx s)
  | ended => exact ⟨.same rfl rfl, poised⟩
  | @received n reply entry =>
      exact ⟨.same (answered_adding pkg s n entry.1 reply) (answered_queue pkg s n entry.1 reply),
        answered_poised pkg poised n entry.1 reply⟩
  | again => exact ⟨.same rfl rfl, poised.congr rfl rfl rfl id⟩
  | found => exact ⟨.same rfl rfl, poised.congr rfl rfl rfl id⟩

/-- What `process_block` does to the flag. -/
theorem Packages.Enters.flag {pkg : Packages} {s u : Storage} {a : Action} {block : List Bytes}
    (enters : pkg.Enters s a block u) (goes : pkg.EntersWith s a block u) (poised : s.Poised) :
    s.FlagAfter a (final (pkg.exec a s)) ∧ (final (pkg.exec a s)).Poised := by
  have poisedU : u.Poised := by
    cases enters with
    | taken _ queue =>
        refine ⟨fun _ => rfl, fun _ => ?_⟩
        change s.blockQueue ≠ []
        simp [queue]
    | @completed n reply entry => exact answered_poised pkg poised n entry.1 reply
  have adding := goes.adding
  have after : (final (pkg.exec a s)).Poised := by
    rcases goes.control with ⟨head, rest, -, -, control⟩ | ⟨-, missingTxns, control⟩
    · refine ⟨fun busy => ?_, fun some => ?_⟩
      · rw [show (final (pkg.exec a s)).processing = false from congrArg Control.processing control]
          at busy
        cases busy
      · exact absurd (congrArg Control.currentBlock control) some
    · have queue : (final (pkg.exec a s)).blockQueue = u.blockQueue :=
        congrArg Control.blockQueue control
      exact poisedU.congr (congrArg Control.processing control) adding
        (congrArg Control.currentBlock control) fun some => queue ▸ some
  refine ⟨?_, after⟩
  cases enters with
  | taken => exact .lowered adding
  | @completed n reply entry flying completes =>
      rw [answered_adding] at adding
      cases busy : s.processing with
      | true => exact .lowered (adding.trans (poised.lowered busy))
      | false => exact .late ⟨busy, n, reply, rfl, completes⟩ adding

/-- **What a node does to the flag on its own.** -/
theorem exec_flag {s : Storage} (poised : s.Poised) {a : Action}
    (local' : ∀ block, a ≠ .deliver block) :
    s.FlagAfter a (final (pkg.exec a s)) ∧ (final (pkg.exec a s)).Poised := by
  rcases exec_cases pkg s a with ⟨block, u, enters, goes⟩ | quiet
  · exact enters.flag goes poised
  · exact quiet.flag local' poised

end Node

/-- `__onBecomeLeader`, as far as it concerns blocks. -/
def onBecomeLeader : M Unit := modify fun s => { s with tickctr := 0 }

/-! ### The machine -/

/-- A block on its way through Raft, and the nodes that have it in their command queue
or their log. -/
structure Entry (ι : Type) where
  proposer : ι
  block : Block
  copies : List ι

/-- The nodes, which of them lead, the entries not yet committed, the committed blocks
with their proposers, how many of these were delivered to each node, and the nodes whose
`_autoTickThread` an exception has ended. -/
structure Raft (ι : Type) where
  node : ι → Storage
  leads : ι → Bool
  entries : List (Entry ι)
  log : List (ι × Block)
  delivered : ι → Nat
  halted : ι → Bool

/-- What can happen. -/
inductive Occurrence (ι : Type) where
  /-- A node becomes leader. -/
  | elect (i : ι)
  /-- A node stops leading. -/
  | depose (i : ι)
  /-- A leader ticks, and may propose a block. -/
  | tick (i : ι) (clock again : ℚ≥0)
  /-- A node gets a copy of the `n`th entry. -/
  | replicate (n : Nat) (i : ι)
  /-- A node loses its copy of the `n`th entry. -/
  | discard (n : Nat) (i : ι)
  /-- Raft commits the `n`th entry. -/
  | commit (n : Nat)
  /-- Raft delivers the next committed block to a node. -/
  | deliver (i : ι)
  /-- A node acts on its own. -/
  | act (i : ι) (a : Action)

variable {ι : Type}

/-- The node in whose `_autoTickThread` it happens. -/
def Occurrence.thread : Occurrence ι → Option ι
  | .elect i | .depose i | .tick i _ _ | .replicate _ i | .discard _ i | .deliver i => some i
  | .commit _ | .act _ _ => none

/-- A tick of the leader `i`. -/
def Raft.tick [DecidableEq ι] (c : Raft ι) (i : ι) (clock again : ℚ≥0) : Raft ι :=
  let s := c.node i
  let t := final (leaderTick clock again s)
  { c with
    node := Function.update c.node i t
    entries := c.entries ++
      (t.commandsQueue.drop s.commandsQueue.length).map fun block => ⟨i, block, [i]⟩ }

/-- The `n`th entry has other copies. -/
def Raft.recopy (c : Raft ι) (n : Nat) (copies : List ι → List ι) : Raft ι :=
  { c with entries := c.entries.modify n fun e => { e with copies := copies e.copies } }

/-- How a call of `add_block_to_queue` ends for node `i`. An exception leaves `_onTick`
before `raftLastApplied` is counted, and ends the thread. -/
def Raft.called [DecidableEq ι] (c : Raft ι) (i : ι) : EStateM.Result PyError Storage Unit → Raft ι
  | .ok _ t => { c with
      node := Function.update c.node i t
      delivered := Function.update c.delivered i (c.delivered i + 1) }
  | .error _ t => { c with
      node := Function.update c.node i t
      halted := Function.update c.halted i true }

/-- The runs of a cluster over Raft. -/
def Setup.raft (setup : Setup) (ι : Type) [DecidableEq ι] : Machine (Raft ι) (Occurrence ι) where
  start c := c.entries = [] ∧ c.log = [] ∧
    ∀ i, c.node i = setup.fresh ∧ c.delivered i = 0 ∧ c.halted i = false
  step c o c' := (∀ i ∈ o.thread, c.halted i = false) ∧ match o with
    | .elect i => c' = { c with
        node := Function.update c.node i (final (onBecomeLeader (c.node i)))
        leads := Function.update c.leads i true }
    | .depose i => c' = { c with leads := Function.update c.leads i false }
    | .tick i clock again => c.leads i = true ∧ clock ≤ again ∧ c' = c.tick i clock again
    | .replicate n i => (∃ e ∈ c.entries[n]?, e.copies ≠ []) ∧ c' = c.recopy n (i :: ·)
    | .discard n i => c' = c.recopy n (·.filter (· ≠ i))
    | .commit n => ∃ e, c.entries[n]? = some e ∧ e.copies ≠ [] ∧ c' = { c with
        entries := c.entries.eraseIdx n
        log := c.log ++ [(e.proposer, e.block)] }
    | .deliver i => ∃ entry, c.log[c.delivered i]? = some entry ∧
        c' = c.called i (setup.exec (.deliver entry.2) (c.node i))
    | .act i a => (∀ block, a ≠ .deliver block) ∧ c' = { c with
        node := Function.update c.node i (final (setup.exec a (c.node i))) }

namespace Raft

/-- A block is on its way to `try_process` of node `i`: in its queue, committed and not
delivered yet, or in its command queue or its log. -/
def OnTheWay (c : Raft ι) (i : ι) : Prop :=
  (c.node i).blockQueue ≠ [] ∨ c.delivered i < c.log.length ∨ ∃ e ∈ c.entries, i ∈ e.copies

/-- A block is on its way, and if it waits to be committed the node has proposed it
itself. -/
def Backed (c : Raft ι) (i : ι) : Prop :=
  (c.node i).blockQueue ≠ [] ∨ c.delivered i < c.log.length ∨
    ∃ e ∈ c.entries, e.proposer = i ∧ i ∈ e.copies

theorem Backed.onTheWay {c : Raft ι} {i : ι} (backed : c.Backed i) : c.OnTheWay i :=
  backed.imp_right (.imp_right fun ⟨e, mem, _, copied⟩ => ⟨e, mem, copied⟩)

end Raft

/-- A node whose flag is set keeps what it has proposed itself, and no answer completes a
block from which it is backing off. -/
def Raft.Unstranded (c : Raft ι) : Occurrence ι → Prop
  | .discard n i => (c.node i).addingBlock = true →
      ∀ e ∈ c.entries[n]?, i ∈ e.copies → e.proposer ≠ i
  | .act i a => (c.node i).addingBlock = true → ¬ (c.node i).CompletesLate a
  | _ => True

/-! ### The invariant -/

namespace Raft

/-- What holds of every node. -/
structure Supplied (c : Raft ι) (i : ι) : Prop where
  poised : (c.node i).Poised
  delivered : c.delivered i ≤ c.log.length
  backed : (c.node i).addingBlock = true → c.Backed i

variable {c c' : Raft ι} {i : ι}

/-- A node that has not changed stays supplied, if no copy of its own entries is lost. -/
theorem Supplied.congr (supplied : c.Supplied i) (node : c'.node i = c.node i)
    (delivered : c'.delivered i = c.delivered i) (log : c.log.length ≤ c'.log.length)
    (copies : (∃ e ∈ c.entries, e.proposer = i ∧ i ∈ e.copies) → c'.Backed i) : c'.Supplied i := by
  refine ⟨node ▸ supplied.poised, delivered ▸ supplied.delivered.trans log, fun adding => ?_⟩
  rw [node] at adding
  rcases supplied.backed adding with queued | committed | copied
  · exact .inl (node ▸ queued)
  · exact .inr (.inl (delivered ▸ committed.trans_le log))
  · exact copies copied

/-- A node that has changed is supplied, if its new state is. -/
theorem Supplied.of_node {t : Storage} {delivered : Nat} (node : c'.node i = t)
    (sameDelivered : c'.delivered i = delivered) (poised : t.Poised)
    (inLog : delivered ≤ c'.log.length)
    (backed : t.addingBlock = true → t.blockQueue ≠ [] ∨ delivered < c'.log.length ∨
      ∃ e ∈ c'.entries, e.proposer = i ∧ i ∈ e.copies) : c'.Supplied i := by
  subst node sameDelivered
  exact ⟨poised, inLog, backed⟩

/-- The entries after a change to the copies of one of them. -/
theorem getElem?_recopy {n m : Nat} {e : Entry ι} (copies : List ι → List ι)
    (at_m : c.entries[m]? = some e) : (c.recopy n copies).entries[m]? =
      some (if n = m then { e with copies := copies e.copies } else e) := by
  rw [Raft.recopy, List.getElem?_modify, at_m]
  split <;> rfl

/-- An entry that keeps its copy backs the node as before. -/
theorem backed_recopy {n : Nat} {copies : List ι → List ι}
    (keeps : ∀ e ∈ c.entries[n]?, e.proposer = i → i ∈ e.copies → i ∈ copies e.copies)
    (copied : ∃ e ∈ c.entries, e.proposer = i ∧ i ∈ e.copies) : (c.recopy n copies).Backed i := by
  obtain ⟨e, mem, own, here⟩ := copied
  obtain ⟨m, at_m⟩ := List.mem_iff_getElem?.mp mem
  refine .inr (.inr ⟨_, List.mem_of_getElem? (getElem?_recopy copies at_m), ?_⟩)
  split
  · subst n
    exact ⟨own, keeps e at_m own here⟩
  · exact ⟨own, here⟩

/-- A tick of the leader `i` supplies it with what it sets its flag for. -/
theorem supplied_tick [DecidableEq ι] (supplied : ∀ j, c.Supplied j) (clock again : ℚ≥0) (j : ι) :
    (c.tick i clock again).Supplied j := by
  have kept : (∃ e ∈ c.entries, e.proposer = j ∧ j ∈ e.copies) → (c.tick i clock again).Backed j :=
    fun ⟨e, mem, copied⟩ => .inr (.inr ⟨e, List.mem_append_left _ mem, copied⟩)
  by_cases own : j = i
  · subst own
    have old := supplied j
    have node : (c.tick j clock again).node j = final (leaderTick clock again (c.node j)) :=
      Function.update_self j _ _
    rcases leaderTick_cases clock again (c.node j) with
      counts | ⟨⟨idle, -⟩, ⟨shares, waits⟩ | ⟨-, proposes⟩⟩
    · refine ⟨?_, old.delivered, fun adding => ?_⟩
      · rw [node, counts]
        exact old.poised.congr rfl rfl rfl id
      · rw [node, counts] at adding
        rcases old.backed adding with queued | committed | copied
        · refine .inl ?_
          rw [node, counts]
          exact queued
        · exact .inr (.inl committed)
        · exact kept copied
    · -- a block at hand is queued
      have queued : (c.node j).blockQueue ≠ [] := by
        refine old.poised.queued fun none => shares ?_
        rw [none, List.toFinset_nil, Finset.inter_empty]
      refine ⟨?_, old.delivered, fun _ => .inl ?_⟩
      · rw [node, waits]
        exact ⟨fun busy => absurd (idle.symm.trans busy) (by decide), old.poised.queued⟩
      · rw [node, waits]
        exact queued
    · let new : Entry ι := ⟨j, (c.node j).proposal clock again, [j]⟩
      refine ⟨?_, old.delivered, fun _ => .inr (.inr ⟨new, ?_, rfl, ?_⟩)⟩
      · rw [node, proposes]
        exact ⟨fun busy => absurd (idle.symm.trans busy) (by decide), old.poised.queued⟩
      · simp [Raft.tick, proposes, new]
      · exact List.mem_singleton_self j
  · exact (supplied j).congr (Function.update_of_ne own _ _) rfl le_rfl kept

/-- A delivery leaves its block in the queue, or still to be delivered. -/
theorem supplied_called [DecidableEq ι] (supplied : c.Supplied i) {setup : Setup}
    {entry : ι × Block} (next : c.log[c.delivered i]? = some entry) :
    (c.called i (setup.exec (.deliver entry.2) (c.node i))).Supplied i := by
  have inLog := (List.getElem?_eq_some_iff.mp next).1
  have poised := deliver_poised setup.toPackages supplied.poised entry.2
  obtain ⟨u, -, -, ⟨-, run⟩ | ⟨e, -, run⟩⟩ := deliver_cases setup.toPackages entry.2 (c.node i)
  · rw [run] at poised ⊢
    refine .of_node (Function.update_self i _ _) (Function.update_self i _ _) poised
      (Nat.succ_le_of_lt inLog) fun _ => .inl (by simp)
  · rw [run] at poised ⊢
    exact .of_node (Function.update_self i _ _) rfl poised supplied.delivered fun _ =>
      .inr (.inl inLog)

/-- A delivery does not change other nodes. -/
theorem called_of_ne [DecidableEq ι] {j : ι} (other : j ≠ i)
    (result : EStateM.Result PyError Storage Unit) :
    (c.called i result).node j = c.node j ∧ (c.called i result).delivered j = c.delivered j ∧
      (c.called i result).log = c.log ∧ (c.called i result).entries = c.entries := by
  cases result with
  | ok _ t => exact ⟨Function.update_of_ne other _ _, Function.update_of_ne other _ _, rfl, rfl⟩
  | error e t => exact ⟨Function.update_of_ne other _ _, rfl, rfl, rfl⟩

end Raft

/-- **One step keeps every node supplied.** -/
theorem Setup.raft_step [DecidableEq ι] {setup : Setup} {c c' : Raft ι} {o : Occurrence ι}
    (supplied : ∀ i, c.Supplied i) (unstranded : c.Unstranded o)
    (step : (setup.raft ι).step c o c') (j : ι) : c'.Supplied j := by
  have old := supplied j
  replace step := step.2
  cases o with
  | elect i =>
      cases step
      by_cases own : j = i
      · subst own
        have node : final (onBecomeLeader (c.node j)) = { c.node j with tickctr := 0 } := rfl
        refine .of_node (Function.update_self j _ _) rfl ?_ old.delivered ?_
        · rw [node]
          exact old.poised.congr rfl rfl rfl id
        · rw [node]
          exact old.backed
      · exact old.congr (Function.update_of_ne own _ _) rfl le_rfl fun copied => .inr (.inr copied)
  | depose i =>
      cases step
      exact old.congr rfl rfl le_rfl fun copied => .inr (.inr copied)
  | tick i clock again =>
      obtain ⟨-, -, rfl⟩ := step
      exact Raft.supplied_tick supplied clock again j
  | replicate n i =>
      obtain ⟨-, rfl⟩ := step
      exact old.congr rfl rfl le_rfl
        (Raft.backed_recopy fun _ _ _ here => List.mem_cons_of_mem i here)
  | discard n i =>
      cases step
      refine ⟨old.poised, old.delivered, fun adding => ?_⟩
      rcases old.backed adding with queued | committed | copied
      · exact .inl queued
      · exact .inr (.inl committed)
      · refine Raft.backed_recopy (fun e at_n own here => ?_) copied
        -- the flag keeps its own entries, and another's copies are not its own
        have other : j ≠ i := by
          rintro rfl
          exact unstranded adding e at_n here own
        simpa [other] using here
  | commit n =>
      obtain ⟨e, -, -, rfl⟩ := step
      have later : c.log.length < (c.log ++ [(e.proposer, e.block)]).length := by simp
      exact old.congr rfl rfl later.le fun _ => .inr (.inl (old.delivered.trans_lt later))
  | deliver i =>
      obtain ⟨entry, next, rfl⟩ := step
      by_cases own : j = i
      · subst own
        exact Raft.supplied_called old next
      · obtain ⟨node, delivered, log, entries⟩ :=
          Raft.called_of_ne own (setup.exec (.deliver entry.2) (c.node i))
        refine old.congr node delivered (by rw [log]) fun copied => .inr (.inr ?_)
        rw [entries]
        exact copied
  | act i a =>
      obtain ⟨local', rfl⟩ := step
      by_cases own : j = i
      · subst own
        obtain ⟨flag, poised⟩ := exec_flag setup.toPackages old.poised local'
        refine .of_node (Function.update_self j _ _) rfl poised old.delivered fun adding => ?_
        generalize final (setup.exec a (c.node j)) = t at flag adding ⊢
        cases flag with
        | lowered lowered =>
            rw [lowered] at adding
            cases adding
        | same same queue =>
            rw [queue]
            exact old.backed (same ▸ adding)
        | late late same => exact absurd late (unstranded (same ▸ adding))
      · exact old.congr (Function.update_of_ne own _ _) rfl le_rfl fun copied => .inr (.inr copied)

/-- Every node is supplied in the runs in which nothing is stranded. -/
theorem Setup.raft_supplied [DecidableEq ι] {setup : Setup} {c : Raft ι}
    (reached : ((setup.raft ι).restrict Raft.Unstranded).Reachable c) (i : ι) : c.Supplied i := by
  refine reached.invariant (I := fun c => ∀ i, c.Supplied i) ?_ ?_ i
  · rintro c ⟨noEntries, noLog, nodes⟩ i
    obtain ⟨fresh, nothing, -⟩ := nodes i
    refine ⟨?_, by simp [nothing], fun adding => ?_⟩
    · rw [fresh]
      exact ⟨nofun, fun some => absurd rfl some⟩
    · rw [fresh] at adding
      cases adding
  · exact fun c o c' _ supplied ⟨unstranded, step⟩ i => setup.raft_step supplied unstranded step i

/-! ### Clearing the flag -/

/-- Taking a block lowers the flag. -/
theorem tryProcess_lowers {pkg : Packages} {s : Storage} (idle : s.processing = false)
    (queued : s.blockQueue ≠ []) : (final (pkg.exec .tryProcess s)).addingBlock = false := by
  obtain ⟨block, rest, queue⟩ := List.exists_cons_of_ne_nil queued
  have runs : pkg.exec .tryProcess s = pkg.processTaken block (s.take block) :=
    pkg.tryProcess_takes idle queue
  rw [runs]
  rcases processTaken_cases pkg block s with ⟨-, run⟩ | ⟨-, ⟨missedCounter, run⟩ | run⟩
  · rw [run]
    exact processBlock_adding pkg block.txns (s.take block)
  · rw [run]
    rfl
  · rw [run]
    rfl

/-- What brings a block to node `i`, and takes it there. -/
def Occurrence.Brings (i : ι) : Occurrence ι → Prop
  | .commit _ => True
  | .deliver j => j = i
  | .act j a => j = i ∧ a = .tryProcess
  | _ => False

section Clearing

variable [DecidableEq ι] {setup : Setup} {c : Raft ι} {i : ι}

/-- A node can be rid of its flag. -/
def Setup.Clears (setup : Setup) (c : Raft ι) (i : ι) : Prop :=
  ∃ os c', ((setup.raft ι).restrict fun _ o => o.Brings i).Run c os c' ∧
    (c'.node i).addingBlock = false

theorem clears_queued (idle : (c.node i).processing = false)
    (queued : (c.node i).blockQueue ≠ []) : setup.Clears c i := by
  refine ⟨[.act i .tryProcess], _, .cons ⟨⟨rfl, rfl⟩, by simp [Occurrence.thread], by simp, rfl⟩
    (.nil _), ?_⟩
  simpa using tryProcess_lowers idle queued

theorem clears_committed (running : c.halted i = false) (idle : (c.node i).processing = false)
    (returns : ∃ t, setup.updatePend (c.node i) = .ok () t)
    (committed : c.delivered i < c.log.length) : setup.Clears c i := by
  obtain ⟨entry, next⟩ : ∃ entry, c.log[c.delivered i]? = some entry :=
    ⟨_, List.getElem?_eq_getElem committed⟩
  obtain ⟨t, run⟩ := returns
  have delivers : ((setup.raft ι).restrict fun _ o => o.Brings i).step c (.deliver i)
      (c.called i (setup.exec (.deliver entry.2) (c.node i))) :=
    ⟨rfl, by simpa [Occurrence.thread] using running, entry, next, rfl⟩
  obtain ⟨u, control, -, ⟨-, ends⟩ | ⟨e, raises, -⟩⟩ :=
    deliver_cases setup.toPackages entry.2 (c.node i)
  · rw [ends] at delivers
    obtain ⟨os, c', rest, lowered⟩ := @clears_queued ι _ setup (c.called i (.ok () { u with
        blockQueue := u.blockQueue ++ [entry.2]
        blockLog := u.blockLog ++ [.queued entry.2] })) i
      (by
        have same : u.processing = (c.node i).processing := congrArg Control.processing control
        simpa [Raft.called] using same.trans idle)
      (by simp [Raft.called])
    exact ⟨.deliver i :: os, c', .cons delivers rest, lowered⟩
  · rw [run] at raises
    cases raises

/-- Whatever is on its way can be brought to the node. -/
theorem clears_onTheWay (running : c.halted i = false) (idle : (c.node i).processing = false)
    (returns : ∃ t, setup.updatePend (c.node i) = .ok () t)
    (delivered : c.delivered i ≤ c.log.length) (onTheWay : c.OnTheWay i) : setup.Clears c i := by
  rcases onTheWay with queued | committed | ⟨e, mem, copied⟩
  · exact clears_queued idle queued
  · exact clears_committed running idle returns committed
  · obtain ⟨n, at_n⟩ := List.mem_iff_getElem?.mp mem
    obtain ⟨os, c', rest, lowered⟩ := @clears_committed ι _ setup { c with
        entries := c.entries.eraseIdx n
        log := c.log ++ [(e.proposer, e.block)] } i running idle returns (by
      simpa using Nat.lt_succ_of_le delivered)
    exact ⟨.commit n :: os, c', .cons ⟨trivial, by simp [Occurrence.thread], e, at_n,
      List.ne_nil_of_mem copied, rfl⟩ rest, lowered⟩

end Clearing

/-- **The flag is set only while a block is on its way**, in every run in which nothing
strands it; so what is on its way can be brought to the node and lowers the flag, unless a
delivery has ended its thread or `update_pend` raises at the next one. -/
theorem Setup.raft_flag [DecidableEq ι] {setup : Setup} {c : Raft ι}
    (reached : ((setup.raft ι).restrict Raft.Unstranded).Reachable c) (i : ι) :
    ((c.node i).addingBlock = true → c.OnTheWay i) ∧
      (c.halted i = false → (c.node i).processing = false →
        (∃ t, setup.updatePend (c.node i) = .ok () t) → setup.Clears c i) := by
  have supplied := setup.raft_supplied reached i
  refine ⟨fun adding => (supplied.backed adding).onTheWay, fun running idle returns => ?_⟩
  cases adding : (c.node i).addingBlock with
  | false => exact ⟨[], c, .nil c, adding⟩
  | true =>
      exact clears_onTheWay running idle returns supplied.delivered (supplied.backed adding).onTheWay

/-! ### A leader that is deposed -/

/-- A node may be sent any transactions. -/
theorem raft_submit [DecidableEq ι] {setup : Setup} {C : Raft ι → Occurrence ι → Prop} {c : Raft ι}
    (i : ι) (allowed : ∀ c tx, C c (.act i (.puttxn tx)))
    (reached : ((setup.raft ι).restrict C).Reachable c) (txs : List Transaction) :
    ((setup.raft ι).restrict C).Reachable { c with
      node := Function.update c.node i
        (txs.foldl (fun s tx => final (setup.exec (.puttxn tx) s)) (c.node i)) } := by
  induction txs generalizing c with
  | nil => simpa using reached
  | cons tx txs ih =>
      have step : ((setup.raft ι).restrict C).step c (.act i (.puttxn tx)) { c with
          node := Function.update c.node i (final (setup.exec (.puttxn tx) (c.node i))) } :=
        ⟨allowed c tx, by simp [Occurrence.thread], by simp, rfl⟩
      simpa using ih (.step reached step)

/-- Two nodes that hold transactions, of which the first leads and has proposed its own. -/
def proposed (txs others : List Transaction) (time : ℚ≥0) : Raft Bool where
  node first := bif first then proposer txs time else stocked others
  leads first := first
  entries := [⟨true, blockOf txs time, [true]⟩]
  log := []
  delivered _ := 0
  halted _ := false

theorem tick_eq [DecidableEq ι] {c : Raft ι} {i : ι} {txs : List Transaction}
    (full : blockSize ≤ txs.length) (node : c.node i = stocked txs) {time : ℚ≥0} (late : 0 < time) :
    c.tick i time time = { c with
      node := Function.update c.node i (proposer txs time)
      entries := c.entries ++ [⟨i, blockOf txs time, [i]⟩] } := by
  rw [Raft.tick, node, lead_stocked full late]
  rfl

theorem proposed_reachable {C : Raft Bool → Occurrence Bool → Prop}
    (submits : ∀ c i tx, C c (.act i (.puttxn tx))) (elects : ∀ c i, C c (.elect i))
    {txs others : List Transaction} {time : ℚ≥0} (late : 0 < time) (distinct : (txs.map Ideal.packages.txid).Nodup)
    (distinct' : (others.map Ideal.packages.txid).Nodup) (full : blockSize ≤ txs.length)
    (ticks : ∀ c : Raft Bool, c.entries = [] → c.log = [] → C c (.tick true time time)) :
    ((Ideal.small.raft Bool).restrict C).Reachable (proposed txs others time) := by
  have start : ((Ideal.small.raft Bool).restrict C).Reachable
      ⟨fun _ => Ideal.small.fresh, fun _ => false, [], [], fun _ => 0, fun _ => false⟩ :=
    .start ⟨rfl, rfl, fun _ => ⟨rfl, rfl, rfl⟩⟩
  have both := raft_submit false (fun c => submits c false)
    (raft_submit true (fun c => submits c true) start txs) others
  have ready : ((Ideal.small.raft Bool).restrict C).Reachable
      ⟨fun first => bif first then stocked txs else stocked others, fun _ => false, [], [],
        fun _ => 0, fun _ => false⟩ := by
    convert both using 2
    funext first
    cases first <;> simp [submit_fresh distinct, submit_fresh distinct']
  have elected := ready.step (a := Occurrence.elect true)
    ⟨elects _ _, by simp [Occurrence.thread], rfl⟩
  have tick := elected.step (a := Occurrence.tick true time time)
    ⟨ticks _ rfl rfl, by simp [Occurrence.thread], by simp, le_rfl, rfl⟩
  rw [tick_eq full rfl late] at tick
  convert tick using 2
  · funext first
    cases first <;> rfl
  · funext first
    cases first <;> rfl
  all_goals rfl

/-- The proposal of the first node is on its way to it, and lowers its flag. -/
theorem raft_flag_proposed : (proposed minting minting 100).OnTheWay true ∧
    Ideal.small.Clears (proposed minting minting 100) true := by
  have reached : ((Ideal.small.raft Bool).restrict Raft.Unstranded).Reachable
      (proposed minting minting 100) := by
    refine proposed_reachable (fun c i tx _ late => ?_) (fun _ _ => trivial) (by norm_num)
      minting_distinct minting_distinct minting_full fun _ _ _ => trivial
    obtain ⟨-, n, reply, other, -⟩ := late
    cases other
  have calm : (proposer minting 100).pend.toList = [] := by
    simp [show (proposer minting 100).pend = ∅ from rfl]
  have returns : Ideal.small.updatePend (proposer minting 100) = .ok () (proposer minting 100) := by
    rw [Packages.updatePend, get_bind, calm]
    rfl
  obtain ⟨onTheWay, clears⟩ := Setup.raft_flag reached true
  exact ⟨onTheWay rfl, clears rfl rfl ⟨_, returns⟩⟩

/-- **A flag that sticks.** The first node is deposed and its entry discarded: its flag
is set, nothing is queued, committed or logged, and becoming leader again changes none
of this. -/
theorem flag_sticks :
    ¬ ∀ c, (Ideal.small.raft Bool).Reachable c → ∀ i, (c.node i).addingBlock = true →
      c.OnTheWay i := by
  intro claim
  have reached : ((Ideal.small.raft Bool).restrict fun _ _ => True).Reachable
      (proposed minting minting 100) :=
    proposed_reachable (fun _ _ _ => trivial) (fun _ _ => trivial) (by norm_num) minting_distinct
      minting_distinct minting_full fun _ _ _ => trivial
  have running : ∀ i ∈ (some true : Option Bool), (proposed minting minting 100).halted i = false :=
    fun _ _ => rfl
  have deposed := reached.of_restrict.step (a := Occurrence.depose true) ⟨running, rfl⟩
  have discarded := deposed.step (a := Occurrence.discard 0 true) ⟨running, rfl⟩
  have again := discarded.step (a := Occurrence.elect true) ⟨running, rfl⟩
  rcases claim _ again true rfl with queued | committed | ⟨e, mem, copied⟩
  · exact queued rfl
  · exact absurd committed (lt_irrefl 0)
  · obtain rfl := List.mem_singleton.mp mem
    cases copied

end Belcoin
