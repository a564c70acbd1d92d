import Mathlib.Data.Finset.Lattice.Lemmas
import Belcoin.Ledger.Finish

/-!
A cluster: nodes with clocks of their own, the blocks their leaders propose, and
the log in which Raft commits them and from which it delivers them to every node.

Any node may lead at any time, proposals are committed in any order or not at all,
and a node may lag behind the log. `cluster_time` proves that the time of a node
never runs backwards, as long as no proposal is committed behind a block that its
proposer had not taken and whose time is later than what its clock showed. That
much is not checked by `send_block` (`time_reversed`).
-/

namespace Belcoin

open Stateful

/-! ### The queue and the time of one node -/

/-- The block that an action takes from the queue. -/
def Storage.takes (s : Storage) : Action → Option Block
  | .tryProcess => if s.processing then none else s.blockQueue.head?
  | _ => none

/-- The block that is taken is the head of the queue. -/
theorem Storage.takes_head {s : Storage} {a : Action} {head : Block}
    (takes : s.takes a = some head) : ∃ rest, s.blockQueue = head :: rest := by
  cases a with
  | tryProcess =>
      simp only [Storage.takes] at takes
      split at takes
      · cases takes
      · exact List.head?_eq_some_iff.mp takes
  | _ => cases takes

section Node

variable (pkg : Packages)

/-- Outside of `try_process` and deliveries the queue only loses blocks, and time
stands still. -/
theorem queue_logic (queue : List Block) (now : ℚ≥0) :
    Logic pkg (fun _ => True) (fun _ => True) (fun _ _ => True) fun op =>
      Sustains (fun s => s.blockQueue <:+ queue ∧ s.currentTime = now) op where
  pure a := sustains_pure _ a
  throw e := sustains_throw _ e
  bind first rest := first.bind rest
  get rest := .get_bind fun s => rest s ⟨fun _ _ _ _ => trivial, fun _ _ => trivial⟩
  control sameLedger _ _ shorter := sustains_modify fun s held =>
    ⟨(shorter s).trans held.1, (congrArg Ledger.currentTime (sameLedger s)).trans held.2⟩
  addMissing txid tx _ := by
    refine Sustains.get_bind fun s => ?_
    split
    · exact sustains_modify fun _ held => held
    · exact sustains_pure _ _
  processTxn txid _ := by
    intro s held
    have control := (control_steady s.control).processTxn pkg txid s rfl
    have sameQueue := congrArg Control.blockQueue control
    refine ⟨?_, (time_persistent pkg now).processTxn txid s held.2⟩
    rw [show (final (pkg.processTxn txid s)).blockQueue = s.blockQueue from sameQueue]
    exact held.1

/-- **What an action does to the queue and the time**, unless it is a delivery: the
queue only loses blocks, and the time becomes that of the block taken, if one is. -/
theorem exec_queue {a : Action} (local' : ∀ block, a ≠ .deliver block) (s : Storage) :
    (final (pkg.exec a s)).blockQueue <:+ s.blockQueue ∧
      (final (pkg.exec a s)).currentTime = ((s.takes a).map Block.time).getD s.currentTime := by
  have logic := queue_logic pkg s.blockQueue s.currentTime
  cases a with
  | deliver block => exact absurd rfl (local' block)
  | tryProcess =>
      change (final (pkg.tryProcess s)).blockQueue <:+ _ ∧ (final (pkg.tryProcess s)).currentTime = _
      rw [Storage.takes]
      by_cases busy : s.processing = true
      · rw [pkg.tryProcess_waits (.inl busy), if_pos busy]
        exact ⟨List.suffix_rfl, rfl⟩
      · rw [if_neg busy]
        cases queue : s.blockQueue with
        | nil =>
            rw [pkg.tryProcess_waits (.inr queue)]
            exact ⟨by rw [final_ok, queue], rfl⟩
        | cons block rest =>
            rw [pkg.tryProcess_takes (by simpa using busy) queue]
            have processes : Sustains _ (pkg.processTaken block) :=
              (queue_logic pkg s.blockQueue block.time).processTaken fun _ _ => trivial
            obtain ⟨fewer, time⟩ := processes (s.take block) ⟨List.suffix_rfl, rfl⟩
            exact ⟨queue ▸ fewer, time⟩
  | puttxn tx => exact logic.addMissing _ tx trivial s ⟨List.suffix_rfl, rfl⟩
  | answer n reply =>
      rw [Packages.exec]
      cases request : s.requests[n]? with
      | none =>
          rw [withRequest_none request]
          exact ⟨List.suffix_rfl, rfl⟩
      | some entry =>
          rw [withRequest_some request]
          exact logic.requestChain (fun _ _ => trivial) _ { s with
            requests := s.requests.eraseIdx n } ⟨List.suffix_rfl, rfl⟩
  | updatePend =>
      have control := (control_steady s.control).updatePend pkg s rfl
      have sameQueue := congrArg Control.blockQueue control
      refine ⟨?_, (time_persistent pkg s.currentTime).updatePend s rfl⟩
      change (final (pkg.updatePend s)).blockQueue <:+ _
      rw [show (final (pkg.updatePend s)).blockQueue = s.blockQueue from sameQueue]

/-- A delivery appends its block, or raises before it does. -/
theorem deliver_queue (block : Block) (s : Storage) :
    (final (pkg.exec (.deliver block) s)).blockQueue.Sublist (s.blockQueue ++ [block]) ∧
      (final (pkg.exec (.deliver block) s)).currentTime = s.currentTime := by
  change (final (pkg.addBlockToQueue block s)).blockQueue.Sublist _ ∧
    (final (pkg.addBlockToQueue block s)).currentTime = _
  have control := (control_steady s.control).updatePend pkg s rfl
  have time := (time_persistent pkg s.currentTime).updatePend s rfl
  rw [Packages.addBlockToQueue, bind_apply]
  cases run : pkg.updatePend s with
  | error e t =>
      rw [run] at control time
      have sameQueue : t.blockQueue = s.blockQueue := congrArg Control.blockQueue control
      refine ⟨?_, time⟩
      change t.blockQueue.Sublist _
      rw [sameQueue]
      exact List.sublist_append_left _ _
  | ok _ t =>
      rw [run] at control time
      have sameQueue : t.blockQueue = s.blockQueue := congrArg Control.blockQueue control
      refine ⟨?_, time⟩
      change (t.blockQueue ++ [block]).Sublist _
      rw [sameQueue]

end Node

/-! ### The tick of a leader -/

/-- The first transactions of the mempool list, that a block would hold. -/
def Storage.front (s : Storage) : List Bytes := s.mempoolList.take blockSize

/-- The block that a leader would propose. -/
def Storage.proposal (clock again : ℚ≥0) (s : Storage) : Block where
  time := if clock > s.currentTime then again else s.currentTime
  txns := s.front

/-- `send_block` proposes, unless the block would share a transaction with the one at
hand. -/
theorem sendBlock_cases (clock again : ℚ≥0) (s : Storage) :
    s.front.toFinset ∩ s.currentBlock.toFinset ≠ ∅ ∧ sendBlock clock again s = .ok ⟨⟩ s ∨
      s.front.toFinset ∩ s.currentBlock.toFinset = ∅ ∧ sendBlock clock again s =
        .ok ⟨⟩ { s with commandsQueue := s.commandsQueue ++ [s.proposal clock again] } := by
  rw [Storage.front, sendBlock, get_bind]
  by_cases apart : (s.mempoolList.take blockSize).toFinset ∩ s.currentBlock.toFinset = ∅
  · rw [if_pos apart]
    exact .inr ⟨apart, rfl⟩
  · rw [if_neg apart]
    exact .inl ⟨apart, rfl⟩

/-- What a tick of a leader does: it counts, or sets the flag and calls `send_block`. -/
theorem leaderTick_cases (clock again : ℚ≥0) (s : Storage) :
    final (leaderTick clock again s) = { s with tickctr := s.tickctr + 1 } ∨
      (s.processing = false ∧ s.addingBlock = false) ∧
        (s.front.toFinset ∩ s.currentBlock.toFinset ≠ ∅ ∧
            final (leaderTick clock again s) = { s with tickctr := 0, addingBlock := true } ∨
          s.front.toFinset ∩ s.currentBlock.toFinset = ∅ ∧
            final (leaderTick clock again s) = { s with
              tickctr := 0
              addingBlock := true
              commandsQueue := s.commandsQueue ++ [s.proposal clock again] }) := by
  rw [leaderTick, modify_bind, get_bind]
  split
  · split
    · rename_i free
      simp only [Bool.and_eq_true, Bool.not_eq_eq_eq_not, Bool.not_true] at free
      refine .inr ⟨free.1, ?_⟩
      rw [modify_bind, bind_apply]
      rcases sendBlock_cases clock again { s with tickctr := s.tickctr + 1, addingBlock := true } with
        ⟨shares, run⟩ | ⟨apart, run⟩
      · rw [run]
        exact .inl ⟨shares, rfl⟩
      · rw [run]
        exact .inr ⟨apart, rfl⟩
    · exact .inl rfl
  · exact .inl rfl

/-- A tick of the leader would propose a block: one is due, or the mempool list fills one,
none is at work or on its way, and the block shares no transaction with the one at hand. -/
def Storage.Offers (s : Storage) : Prop :=
  ((s.tickctr + 1 ≥ blockTimeout ∧ s.mempoolList.length > 0) ∨ s.mempoolList.length ≥ blockSize) ∧
    (s.processing = false ∧ s.addingBlock = false ∧ s.testing = false) ∧
    s.front.Disjoint s.currentBlock

theorem front_disjoint {s : Storage} :
    s.front.Disjoint s.currentBlock ↔ s.front.toFinset ∩ s.currentBlock.toFinset = ∅ := by
  rw [← List.disjoint_toFinset_iff_disjoint, Finset.disjoint_iff_inter_eq_empty]

/-- A tick that passes the checks proposes a block. -/
theorem Storage.Offers.proposes {s : Storage} (offers : s.Offers) (clock again : ℚ≥0) :
    final (leaderTick clock again s) = { s with
      tickctr := 0
      addingBlock := true
      commandsQueue := s.commandsQueue ++ [s.proposal clock again] } := by
  obtain ⟨due, ⟨idle, waiting, live⟩, apart⟩ := offers
  let flagged : Storage := { s with tickctr := s.tickctr + 1, addingBlock := true }
  obtain ⟨shares, -⟩ | ⟨-, sends⟩ := sendBlock_cases clock again flagged
  · exact absurd (front_disjoint.mp apart) shares
  · rw [leaderTick, modify_bind, get_bind, if_pos due, if_pos (by simp [idle, waiting, live]),
      modify_bind, bind_apply, sends]
    rfl

/-- A tick that proposes a block has passed the checks. -/
theorem offers_of_proposes {clock again : ℚ≥0} {s : Storage} {block : Block}
    (mem : block ∈ (final (leaderTick clock again s)).commandsQueue.drop s.commandsQueue.length) :
    s.Offers := by
  have nothing : block ∉ s.commandsQueue.drop s.commandsQueue.length := by simp
  rw [leaderTick, modify_bind, get_bind] at mem
  split at mem
  · rename_i due
    split at mem
    · rename_i free
      simp only [Bool.and_eq_true, Bool.not_eq_eq_eq_not, Bool.not_true] at free
      rw [modify_bind, bind_apply] at mem
      rcases sendBlock_cases clock again { s with tickctr := s.tickctr + 1, addingBlock := true } with
        ⟨-, run⟩ | ⟨apart, -⟩
      · rw [run] at mem
        exact absurd mem nothing
      · exact ⟨due, ⟨free.1.1, free.1.2, free.2⟩, front_disjoint.mpr apart⟩
    · exact absurd mem nothing
  · exact absurd mem nothing

/-- A tick of the leader proposes blocks with the time of its clock, or its current
time if that is later. -/
theorem leaderTick_final (clock again : ℚ≥0) (s : Storage) :
    (final (leaderTick clock again s)).toLedger = s.toLedger ∧
      (final (leaderTick clock again s)).blockQueue = s.blockQueue ∧
      ∃ blocks, (final (leaderTick clock again s)).commandsQueue = s.commandsQueue ++ blocks ∧
        ∀ block ∈ blocks, block.time = if clock > s.currentTime then again else s.currentTime := by
  rcases leaderTick_cases clock again s with counts | ⟨-, ⟨-, waits⟩ | ⟨-, proposes⟩⟩
  · rw [counts]
    exact ⟨rfl, rfl, [], by simp, by simp⟩
  · rw [waits]
    exact ⟨rfl, rfl, [], by simp, by simp⟩
  · rw [proposes]
    refine ⟨rfl, rfl, [s.proposal clock again], rfl, fun block mem => ?_⟩
    rw [List.mem_singleton.mp mem, Storage.proposal]

/-! ### The machine -/

/-- A proposal on its way through Raft, with what its proposer knew: the clock it
compared with, its current time, and the blocks it had taken. -/
structure Proposal where
  block : Block
  clock : ℚ≥0
  currentTime : ℚ≥0
  taken : List Block

/-- The nodes, their clocks, how much of the log was delivered to each, and the
blocks each has taken. -/
structure Cluster (ι : Type) where
  node : ι → Storage
  clock : ι → ℚ≥0
  delivered : ι → Nat
  taken : ι → List Block
  log : List Block
  proposals : List Proposal

/-- What can happen in a cluster. -/
inductive Happening (ι : Type) where
  /-- Time passes at a node. -/
  | pass (i : ι) (time : ℚ≥0)
  /-- A node that leads reads its clock and may propose a block. -/
  | lead (i : ι) (clock again : ℚ≥0)
  /-- Raft commits the `n`th proposal. -/
  | commit (n : Nat)
  /-- Raft delivers the next block of the log to a node. -/
  | deliver (i : ι)
  /-- A node acts on its own. -/
  | act (i : ι) (a : Action)

variable {ι : Type}

/-- A tick of node `i` as leader. -/
def Cluster.lead [DecidableEq ι] (c : Cluster ι) (i : ι) (clock again : ℚ≥0) : Cluster ι :=
  let s := c.node i
  let t := final (leaderTick clock again s)
  { c with
    node := Function.update c.node i t
    clock := Function.update c.clock i again
    proposals := c.proposals ++ (t.commandsQueue.drop s.commandsQueue.length).map fun block =>
      ⟨block, clock, s.currentTime, c.taken i⟩ }

/-- The runs of a cluster. Clocks do not go back, and a node reads its own. -/
def Setup.cluster (setup : Setup) (ι : Type) [DecidableEq ι] : Machine (Cluster ι) (Happening ι) where
  start c := c.log = [] ∧ c.proposals = [] ∧
    ∀ i, c.node i = setup.fresh ∧ c.delivered i = 0 ∧ c.taken i = []
  step c e c' := match e with
    | .pass i time => c.clock i ≤ time ∧ c' = { c with clock := Function.update c.clock i time }
    | .lead i clock again => c.clock i ≤ clock ∧ clock ≤ again ∧ c' = c.lead i clock again
    | .commit n => ∃ p, c.proposals[n]? = some p ∧ c' = { c with
        log := c.log ++ [p.block]
        proposals := c.proposals.eraseIdx n }
    | .deliver i => ∃ block, c.log[c.delivered i]? = some block ∧ c' = { c with
        node := Function.update c.node i (final (setup.exec (.deliver block) (c.node i)))
        delivered := Function.update c.delivered i (c.delivered i + 1) }
    | .act i a => (∀ block, a ≠ .deliver block) ∧ c' = { c with
        node := Function.update c.node i (final (setup.exec a (c.node i)))
        taken := Function.update c.taken i (c.taken i ++ ((c.node i).takes a).toList) }

/-- No proposal is committed behind a block that its proposer had not taken and that
is later than both its clock and its current time. -/
def Cluster.ClocksKeepUp (c : Cluster ι) : Happening ι → Prop
  | .commit n => ∀ p ∈ c.proposals[n]?, ∀ b ∈ c.log, b ∉ p.taken →
      b.time ≤ p.clock ∨ b.time ≤ p.currentTime
  | _ => True

/-! ### The invariant -/

/-- The blocks that a node still has before it. -/
def Cluster.ahead (c : Cluster ι) (i : ι) : List Block :=
  (c.node i).blockQueue ++ c.log.drop (c.delivered i)

/-- The times of these blocks do not decrease. -/
def InTimeOrder (blocks : List Block) : Prop := blocks.Pairwise fun a b => a.time ≤ b.time

/-- Where a node stands: what is ahead of it comes from the log and is not earlier
than its time, what it took is not later. -/
structure Cluster.Standing (c : Cluster ι) (i : ι) : Prop where
  delivered : c.delivered i ≤ c.log.length
  fromLog : (c.ahead i).Sublist c.log
  ahead : ∀ b ∈ c.ahead i, (c.node i).currentTime ≤ b.time
  now : (c.node i).currentTime = 0 ∨ ∃ b ∈ c.log, b.time = (c.node i).currentTime
  behind : ∀ b ∈ c.taken i, b.time ≤ (c.node i).currentTime
  inOrder : InTimeOrder (c.taken i)

/-- What a proposer knew was not later than the block it proposed. -/
structure Proposal.Sound (p : Proposal) : Prop where
  clock : p.clock ≤ p.block.time
  currentTime : p.currentTime ≤ p.block.time
  taken : ∀ b ∈ p.taken, b.time ≤ p.currentTime

/-- The invariant of a cluster. -/
structure Cluster.Timely (c : Cluster ι) : Prop where
  log : InTimeOrder c.log
  standing : ∀ i, c.Standing i
  proposals : ∀ p ∈ c.proposals, p.Sound

namespace Cluster

variable {c c' : Cluster ι} {i : ι}

/-- Nothing that matters to the standing of a node has changed. -/
theorem Standing.congr (standing : c.Standing i) (log : c'.log = c.log)
    (delivered : c'.delivered i = c.delivered i) (taken : c'.taken i = c.taken i)
    (queue : (c'.node i).blockQueue = (c.node i).blockQueue)
    (time : (c'.node i).currentTime = (c.node i).currentTime) : c'.Standing i := by
  have same : c'.ahead i = c.ahead i := by
    rw [Cluster.ahead, Cluster.ahead, queue, delivered, log]
  refine ⟨?_, ?_, ?_, ?_, ?_, ?_⟩
  · rw [delivered, log]
    exact standing.delivered
  · rw [same, log]
    exact standing.fromLog
  · rw [same, time]
    exact standing.ahead
  · rw [time, log]
    exact standing.now
  · rw [taken, time]
    exact standing.behind
  · rw [taken]
    exact standing.inOrder

/-- A block that is not earlier than the log may be committed. -/
theorem Standing.commit (standing : c.Standing i) {block : Block} (log : c'.log = c.log ++ [block])
    (delivered : c'.delivered i = c.delivered i) (taken : c'.taken i = c.taken i)
    (node : c'.node i = c.node i) (later : ∀ b ∈ c.log, b.time ≤ block.time) : c'.Standing i := by
  have longer : c'.ahead i = c.ahead i ++ [block] := by
    rw [Cluster.ahead, Cluster.ahead, node, delivered, log,
      List.drop_append_of_le_length standing.delivered, List.append_assoc]
  refine ⟨?_, ?_, fun b mem => ?_, ?_, ?_, ?_⟩
  · rw [delivered, log, List.length_append]
    exact standing.delivered.trans (Nat.le_add_right _ _)
  · rw [longer, log]
    exact standing.fromLog.append_right _
  · rw [longer] at mem
    rw [node]
    rcases List.mem_append.mp mem with before | new
    · exact standing.ahead b before
    · obtain rfl := List.mem_singleton.mp new
      rcases standing.now with start | ⟨last, logged, now⟩
      · rw [start]
        exact zero_le
      · rw [← now]
        exact later last logged
  · rw [node, log]
    exact standing.now.imp_right fun ⟨last, logged, now⟩ => ⟨last, List.mem_append_left _ logged, now⟩
  · rw [taken, node]
    exact standing.behind
  · rw [taken]
    exact standing.inOrder

/-- A node that took nothing may lose blocks that were ahead of it. -/
theorem Standing.shorten (standing : c.Standing i) (log : c'.log = c.log)
    (delivered : c'.delivered i ≤ c.log.length) (taken : c'.taken i = c.taken i)
    (ahead : (c'.ahead i).Sublist (c.ahead i))
    (time : (c'.node i).currentTime = (c.node i).currentTime) : c'.Standing i := by
  refine ⟨log ▸ delivered, ?_, fun b mem => ?_, ?_, ?_, ?_⟩
  · rw [log]
    exact ahead.trans standing.fromLog
  · rw [time]
    exact standing.ahead b (ahead.subset mem)
  · rw [time, log]
    exact standing.now
  · rw [taken, time]
    exact standing.behind
  · rw [taken]
    exact standing.inOrder

/-- **Taking the head of the queue** moves the time of a node forward. -/
theorem Standing.take (standing : c.Standing i) (sorted : InTimeOrder c.log) (log : c'.log = c.log)
    (delivered : c'.delivered i = c.delivered i) {head : Block} {rest : List Block}
    (queue : (c.node i).blockQueue = head :: rest) (taken : c'.taken i = c.taken i ++ [head])
    (ahead : (c'.ahead i).Sublist (c.ahead i)) (time : (c'.node i).currentTime = head.time) :
    c'.Standing i ∧ (c.node i).currentTime ≤ head.time := by
  have split : c.ahead i = head :: (rest ++ c.log.drop (c.delivered i)) := by
    rw [Cluster.ahead, queue, List.cons_append]
  have here : head ∈ c.ahead i := by simp [split]
  have forward := standing.ahead head here
  have ordered : InTimeOrder (c.ahead i) := sorted.sublist standing.fromLog
  refine ⟨⟨?_, ?_, fun b mem => ?_, ?_, fun b mem => ?_, ?_⟩, forward⟩
  · rw [delivered, log]
    exact standing.delivered
  · rw [log]
    exact ahead.trans standing.fromLog
  · have among := ahead.subset mem
    rw [split] at among ordered
    rw [time]
    rcases List.mem_cons.mp among with rfl | later
    · exact le_rfl
    · exact (List.pairwise_cons.mp ordered).1 b later
  · rw [time, log]
    exact .inr ⟨head, standing.fromLog.subset here, rfl⟩
  · rw [taken] at mem
    rw [time]
    rcases List.mem_append.mp mem with before | new
    · exact (standing.behind b before).trans forward
    · obtain rfl := List.mem_singleton.mp new
      exact le_rfl
  · rw [taken]
    refine List.pairwise_append.mpr ⟨standing.inOrder, List.pairwise_singleton _ _, ?_⟩
    intro a before b new
    obtain rfl := List.mem_singleton.mp new
    exact (standing.behind a before).trans forward

/-- A node that acts loses blocks from its queue, and moves on if it takes one. -/
theorem act_standing [DecidableEq ι] (timely : c.Timely) {a : Action} {t : Storage}
    (queue : t.blockQueue <:+ (c.node i).blockQueue)
    (time : t.currentTime = (((c.node i).takes a).map Block.time).getD (c.node i).currentTime) :
    let c' := { c with
      node := Function.update c.node i t
      taken := Function.update c.taken i (c.taken i ++ ((c.node i).takes a).toList) }
    c'.Standing i ∧ (c.node i).currentTime ≤ (c'.node i).currentTime := by
  intro c'
  have ahead : (c'.ahead i).Sublist (c.ahead i) := by
    simp only [c', Cluster.ahead, Function.update_self]
    exact queue.sublist.append_right _
  have standing := timely.standing i
  cases takes : (c.node i).takes a with
  | none =>
      rw [takes] at time
      have sameTime : (c'.node i).currentTime = (c.node i).currentTime := by simpa [c'] using time
      refine ⟨standing.shorten rfl standing.delivered ?_ ahead sameTime, sameTime.ge⟩
      simp [c', takes]
  | some head =>
      rw [takes] at time
      have newTime : (c'.node i).currentTime = head.time := by simpa [c'] using time
      obtain ⟨rest, here⟩ := Storage.takes_head takes
      have taken : c'.taken i = c.taken i ++ [head] := by simp [c', takes]
      obtain ⟨standing', forward⟩ :=
        @Standing.take ι c c' i standing timely.log rfl rfl head rest here taken ahead newTime
      exact ⟨standing', newTime ▸ forward⟩

/-- A new proposal is not earlier than what its proposer knew. -/
theorem lead_proposals [DecidableEq ι] (timely : c.Timely) {clock again : ℚ≥0} (reading : clock ≤ again) :
    ∀ p ∈ (c.lead i clock again).proposals, p.Sound := by
  intro p mem
  obtain ⟨-, -, blocks, commands, times⟩ := leaderTick_final clock again (c.node i)
  rcases List.mem_append.mp mem with before | new
  · exact timely.proposals p before
  · rw [commands, List.drop_left] at new
    obtain ⟨block, sent, rfl⟩ := List.mem_map.mp new
    have time := times block sent
    refine ⟨?_, ?_, (timely.standing i).behind⟩
    · change clock ≤ block.time
      rw [time]
      split
      · exact reading
      · exact not_lt.mp ‹_›
    · change (c.node i).currentTime ≤ block.time
      rw [time]
      split
      · exact (le_of_lt ‹_›).trans reading
      · exact le_rfl

end Cluster

/-- **One step keeps a cluster timely**, and moves the time of no node back. -/
theorem Setup.cluster_step [DecidableEq ι] {setup : Setup} {c c' : Cluster ι} {e : Happening ι}
    (timely : c.Timely) (keepsUp : c.ClocksKeepUp e) (step : (setup.cluster ι).step c e c') :
    c'.Timely ∧ ∀ i, (c.node i).currentTime ≤ (c'.node i).currentTime := by
  cases e with
  | pass i time =>
      obtain ⟨-, rfl⟩ := step
      exact ⟨⟨timely.log, fun j => (timely.standing j).congr rfl rfl rfl rfl rfl,
        timely.proposals⟩, fun j => le_rfl⟩
  | lead i clock again =>
      obtain ⟨-, reading, rfl⟩ := step
      obtain ⟨ledger, queue, -⟩ := leaderTick_final clock again (c.node i)
      have same : ∀ j, ((c.lead i clock again).node j).blockQueue = (c.node j).blockQueue ∧
          ((c.lead i clock again).node j).currentTime = (c.node j).currentTime := by
        intro j
        by_cases own : j = i
        · subst own
          simp only [Cluster.lead, Function.update_self]
          exact ⟨queue, congrArg Ledger.currentTime ledger⟩
        · simp [Cluster.lead, Function.update_of_ne own]
      exact ⟨⟨timely.log, fun j => (timely.standing j).congr rfl rfl rfl (same j).1 (same j).2,
        Cluster.lead_proposals timely reading⟩, fun j => (same j).2.ge⟩
  | commit n =>
      obtain ⟨p, proposed, rfl⟩ := step
      have sound := timely.proposals p (List.mem_of_getElem? proposed)
      have later : ∀ b ∈ c.log, b.time ≤ p.block.time := by
        intro b logged
        by_cases known : b ∈ p.taken
        · exact (sound.taken b known).trans sound.currentTime
        · exact (keepsUp p proposed b logged known).elim (·.trans sound.clock)
            (·.trans sound.currentTime)
      refine ⟨⟨?_, fun j => (timely.standing j).commit rfl rfl rfl rfl later, fun q mem => ?_⟩,
        fun j => le_rfl⟩
      · refine List.pairwise_append.mpr ⟨timely.log, List.pairwise_singleton _ _, ?_⟩
        intro a logged b new
        obtain rfl := List.mem_singleton.mp new
        exact later a logged
      · exact timely.proposals q (List.mem_of_mem_eraseIdx mem)
  | deliver i =>
      obtain ⟨block, next, rfl⟩ := step
      obtain ⟨queue, time⟩ := deliver_queue setup.toPackages block (c.node i)
      have inLog := (List.getElem?_eq_some_iff.mp next).1
      have rest : c.log.drop (c.delivered i) = block :: c.log.drop (c.delivered i + 1) := by
        rw [List.drop_eq_getElem_cons inLog, (List.getElem?_eq_some_iff.mp next).2]
      refine ⟨⟨timely.log, fun j => ?_, timely.proposals⟩, fun j => ?_⟩
      · by_cases own : j = i
        · subst own
          refine (timely.standing j).shorten rfl ?_ rfl ?_ ?_
          · simpa using Nat.succ_le_of_lt inLog
          · simp only [Cluster.ahead, Function.update_self, rest]
            simpa using queue.append_right (c.log.drop (c.delivered j + 1))
          · simpa using time
        · exact (timely.standing j).congr rfl (Function.update_of_ne own _ _) rfl
            (by simp [Function.update_of_ne own]) (by simp [Function.update_of_ne own])
      · by_cases own : j = i
        · subst own
          simpa using time.ge
        · simp [Function.update_of_ne own]
  | act i a =>
      obtain ⟨local', rfl⟩ := step
      obtain ⟨queue, time⟩ := exec_queue setup.toPackages local' (c.node i)
      refine ⟨⟨timely.log, fun j => ?_, timely.proposals⟩, fun j => ?_⟩
      · by_cases own : j = i
        · subst own
          exact (Cluster.act_standing timely queue time).1
        · exact (timely.standing j).congr rfl rfl (Function.update_of_ne own _ _)
            (by simp [Function.update_of_ne own]) (by simp [Function.update_of_ne own])
      · by_cases own : j = i
        · subst own
          exact (Cluster.act_standing timely queue time).2
        · simp [Function.update_of_ne own]

theorem Setup.cluster_start [DecidableEq ι] (setup : Setup) (c : Cluster ι)
    (starts : (setup.cluster ι).start c) : c.Timely := by
  obtain ⟨noLog, noProposals, nodes⟩ := starts
  refine ⟨by simp [noLog, InTimeOrder], fun j => ?_, by simp [noProposals]⟩
  obtain ⟨fresh, nothing, none⟩ := nodes j
  refine ⟨by simp [nothing], ?_, ?_, ?_, by simp [none], by simp [none, InTimeOrder]⟩
  · simp [Cluster.ahead, fresh, noLog, Setup.fresh, Setup.construct]
  · simp [Cluster.ahead, fresh, noLog, Setup.fresh, Setup.construct]
  · exact .inl (by rw [fresh]; rfl)

/-- **Ledger time never runs backwards** in a run whose proposals keep up: every
node takes blocks in the order of their times, so its current time never
decreases, and a timelock or an HTLC timeout that has passed stays passed. -/
theorem Setup.cluster_time [DecidableEq ι] {setup : Setup} {c c' : Cluster ι} {e : Happening ι}
    (reached : ((setup.cluster ι).restrict Cluster.ClocksKeepUp).Reachable c)
    (step : ((setup.cluster ι).restrict Cluster.ClocksKeepUp).step c e c') (i : ι) :
    InTimeOrder (c.taken i) ∧ (c.node i).currentTime ≤ (c'.node i).currentTime ∧
      (∀ txnw : TxnWrapper, txnw.TimelockPassed (c.node i).currentTime →
        txnw.TimelockPassed (c'.node i).currentTime) ∧
      ∀ (o : Output) (timestamp : Nat), o.HtlcTimeoutReached (c.node i).currentTime timestamp →
        o.HtlcTimeoutReached (c'.node i).currentTime timestamp := by
  have timely : c.Timely := by
    refine reached.invariant (I := Cluster.Timely) ?_ ?_
    · exact setup.cluster_start
    · rintro u e v - timely ⟨keepsUp, moves⟩
      exact (setup.cluster_step timely keepsUp moves).1
  have forward := (setup.cluster_step timely step.1 step.2).2 i
  exact ⟨(timely.standing i).inOrder, forward, fun _ passed => passed.mono forward,
    fun _ _ passed => passed.mono forward⟩

/-! ### Two leaders -/

section Stock

variable (pkg : Packages)

/-- Put transactions into a mempool. -/
def Packages.stock (mempool : Store Transaction) (txs : List Transaction) : Store Transaction :=
  txs.foldl (fun mempool tx => mempool.insert (pkg.txid tx) tx) mempool

theorem mem_stock {mempool : Store Transaction} {txs : List Transaction} {k : Bytes} :
    k ∈ pkg.stock mempool txs ↔ k ∈ mempool ∨ k ∈ txs.map pkg.txid := by
  induction txs generalizing mempool with
  | nil => simp [Packages.stock]
  | cons tx txs ih =>
      rw [Packages.stock, List.foldl_cons]
      refine (@ih (mempool.insert (pkg.txid tx) tx)).trans ?_
      rw [Std.ExtTreeMap.mem_insert, Std.LawfulEqCmp.compare_eq_iff_eq, List.map_cons,
        List.mem_cons, eq_comm (a := k), ← or_assoc, or_comm (a := k ∈ mempool)]

theorem of_mem_stock {mempool : Store Transaction} {txs : List Transaction} {k : Bytes}
    {txn : Transaction} (held : (pkg.stock mempool txs)[k]? = some txn) :
    mempool[k]? = some txn ∨ txn ∈ txs ∧ pkg.txid txn = k := by
  induction txs generalizing mempool with
  | nil => exact .inl held
  | cons tx txs ih =>
      rcases @ih (mempool.insert (pkg.txid tx) tx) held with before | ⟨later, own⟩
      · simp only [Std.ExtTreeMap.getElem?_insert, Std.LawfulEqCmp.compare_eq_iff_eq] at before
        split at before
        · cases before
          exact .inr ⟨List.mem_cons_self, ‹_›⟩
        · exact .inl before
      · exact .inr ⟨List.mem_cons_of_mem _ later, own⟩

/-- Transactions submitted one after the other fill the mempool. -/
theorem foldl_puttxn {s : Storage} {txs : List Transaction} (distinct : (txs.map pkg.txid).Nodup)
    (absent : ∀ tx ∈ txs, pkg.txid tx ∉ s.mempool) :
    txs.foldl (fun s tx => final (pkg.exec (.puttxn tx) s)) s = { s with
      mempool := pkg.stock s.mempool txs
      mempoolList := s.mempoolList ++ txs.map pkg.txid } := by
  induction txs generalizing s with
  | nil => simp [Packages.stock]
  | cons tx txs ih =>
      obtain ⟨new, distinct⟩ := List.nodup_cons.mp distinct
      obtain ⟨here, later⟩ := List.forall_mem_cons.mp absent
      have first : final (pkg.exec (.puttxn tx) s) = { s with
          mempool := s.mempool.insert (pkg.txid tx) tx
          mempoolList := s.mempoolList ++ [pkg.txid tx] } := by
        change final (pkg.addMissing (pkg.txid tx) tx s) = _
        rw [Packages.addMissing, get_bind, if_pos here]
        rfl
      rw [List.foldl_cons, first, ih distinct]
      · simp [Packages.stock]
      · intro tx' mem held
        rcases Std.ExtTreeMap.mem_insert.mp held with same | before
        · refine new ?_
          rw [Std.LawfulEqCmp.compare_eq_iff_eq.mp same]
          exact List.mem_map_of_mem mem
        · exact later tx' mem before

end Stock

/-- A delivery to a node with nothing pending only appends the block. -/
theorem exec_deliver {pkg : Packages} {s : Storage} (calm : s.pend = ∅) (block : Block) :
    pkg.exec (.deliver block) s = .ok () { s with
      blockQueue := s.blockQueue ++ [block]
      blockLog := s.blockLog ++ [.queued block] } := by
  have nothing : s.pend.toList = [] := by simp [calm]
  change pkg.addBlockToQueue block s = _
  rw [Packages.addBlockToQueue, bind_apply, Packages.updatePend, get_bind, nothing]
  rfl

/-- A node that may propose a block of these transactions, and the node once it has
proposed it. -/
def stocked (txs : List Transaction) : Storage :=
  { Ideal.small.fresh with
    mempool := Ideal.packages.stock ∅ txs
    mempoolList := txs.map Ideal.packages.txid }

def blockOf (txs : List Transaction) (time : ℚ≥0) : Block :=
  ⟨time, (txs.map Ideal.packages.txid).take blockSize⟩

def proposer (txs : List Transaction) (time : ℚ≥0) : Storage :=
  { stocked txs with
    tickctr := 0
    addingBlock := true
    commandsQueue := [blockOf txs time] }

/-- Two nodes have led one after the other, the second with a clock behind that of
the first. The block of the first is committed, but not delivered yet. -/
def twoLeaders (txs : List Transaction) : Cluster Bool where
  node first := proposer txs (bif first then 100 else 50)
  clock first := bif first then 100 else 50
  delivered _ := 0
  taken _ := []
  log := [blockOf txs 100]
  proposals := [⟨blockOf txs 50, 50, 0, []⟩]

/-- The first leader, when both blocks have been delivered to it. -/
def lagging (txs : List Transaction) : Storage :=
  { proposer txs 100 with
    blockQueue := [blockOf txs 100, blockOf txs 50]
    blockLog := [.queued (blockOf txs 100), .queued (blockOf txs 50)] }

section TwoLeaders

variable {txs : List Transaction} (distinct : (txs.map Ideal.packages.txid).Nodup)
  (full : blockSize ≤ txs.length)

include distinct in
theorem submit_fresh :
    txs.foldl (fun s tx => final (Ideal.small.exec (.puttxn tx) s)) Ideal.small.fresh =
      stocked txs := by
  refine (foldl_puttxn Ideal.packages distinct fun _ _ => ?_).trans rfl
  simp [Setup.fresh, Setup.construct]

include full in
theorem stocked_full : (stocked txs).mempoolList.length ≥ blockSize := by
  simpa [stocked] using full

include full in
theorem lead_stocked {time : ℚ≥0} (late : 0 < time) :
    final (leaderTick time time (stocked txs)) = proposer txs time := by
  have offers : (stocked txs).Offers :=
    ⟨.inr (stocked_full full), ⟨rfl, rfl, rfl⟩, List.disjoint_nil_right _⟩
  rw [offers.proposes]
  have now : (if time > (stocked txs).currentTime then time else (stocked txs).currentTime) = time :=
    if_pos late
  rw [Storage.proposal, now]
  rfl

include full in
theorem lead_eq [DecidableEq ι] {c : Cluster ι} {i : ι} (node : c.node i = stocked txs)
    (nothing : c.taken i = []) {time : ℚ≥0} (late : 0 < time) :
    c.lead i time time = { c with
      node := Function.update c.node i (proposer txs time)
      clock := Function.update c.clock i time
      proposals := c.proposals ++ [⟨blockOf txs time, time, 0, []⟩] } := by
  rw [Cluster.lead, node, nothing, lead_stocked full late]
  rfl

/-- A node may be sent any transactions. -/
theorem reachable_submit [DecidableEq ι] {setup : Setup} {c : Cluster ι}
    (reached : ((setup.cluster ι).restrict Cluster.ClocksKeepUp).Reachable c) (i : ι)
    (txs : List Transaction) :
    ((setup.cluster ι).restrict Cluster.ClocksKeepUp).Reachable { c with
      node := Function.update c.node i
        (txs.foldl (fun s tx => final (setup.exec (.puttxn tx) s)) (c.node i)) } := by
  induction txs generalizing c with
  | nil => simpa using reached
  | cons tx txs ih =>
      have step : ((setup.cluster ι).restrict Cluster.ClocksKeepUp).step c (.act i (.puttxn tx))
          { c with node := Function.update c.node i (final (setup.exec (.puttxn tx) (c.node i))) } :=
        ⟨trivial, by simp, by simp [Storage.takes]⟩
      simpa using ih (.step reached step)

include distinct full in
theorem twoLeaders_reachable :
    ((Ideal.small.cluster Bool).restrict Cluster.ClocksKeepUp).Reachable (twoLeaders txs) := by
  have start : ((Ideal.small.cluster Bool).restrict Cluster.ClocksKeepUp).Reachable
      ⟨fun _ => Ideal.small.fresh, fun _ => 0, fun _ => 0, fun _ => [], [], []⟩ :=
    .start ⟨rfl, rfl, fun _ => ⟨rfl, rfl, rfl⟩⟩
  have both := reachable_submit (reachable_submit start true txs) false txs
  have ready : ((Ideal.small.cluster Bool).restrict Cluster.ClocksKeepUp).Reachable
      ⟨fun _ => stocked txs, fun _ => 0, fun _ => 0, fun _ => [], [], []⟩ := by
    convert both using 2
    funext first
    cases first <;> simp [submit_fresh distinct]
  have proposed := ready.step (a := Happening.lead true 100 100)
    ⟨trivial, zero_le, le_rfl, (lead_eq full rfl rfl (by norm_num)).symm⟩
  have committed := proposed.step (a := Happening.commit 0)
    ⟨by simp [Cluster.ClocksKeepUp], _, rfl, rfl⟩
  have again := committed.step (a := Happening.lead false 50 50)
    ⟨trivial, zero_le, le_rfl, (lead_eq full rfl rfl (by norm_num)).symm⟩
  convert again using 2
  · funext first
    cases first <;> rfl
  · funext first
    cases first <;> rfl
  all_goals rfl

theorem lagging_eq : final (Ideal.small.exec (.deliver (blockOf txs 50))
    (final (Ideal.small.exec (.deliver (blockOf txs 100)) (proposer txs 100)))) = lagging txs := by
  rw [exec_deliver rfl, exec_deliver rfl]
  rfl

include distinct in
/-- A node that holds these transactions processes a block of them, and accepts none. -/
theorem stock_processes (refused : ∀ txn ∈ txs, ∀ ledger,
    ¬ Ideal.packages.Accepts ledger txn ∧ ¬ Ideal.packages.Unbound ledger txn)
    {s : Storage} {time : ℚ≥0} {rest : List Block} (mempool : s.mempool = Ideal.packages.stock ∅ txs)
    (list : s.mempoolList = txs.map Ideal.packages.txid) (db : s.db = Ideal.small.fresh.db)
    (idle : s.processing = false) (queue : s.blockQueue = blockOf txs time :: rest) :
    ∃ t, Ideal.small.tryProcess s = .ok () t ∧ t.blockQueue = rest ∧ t.processing = false := by
  have inMempool : ∀ txid ∈ (blockOf txs time).txns, txid ∈ s.mempool := fun txid mem =>
    mempool ▸ (mem_stock _).mpr (.inr (List.mem_of_mem_take mem))
  have nothingMissing : (s.take (blockOf txs time)).missingTxns = [] :=
    List.filter_eq_nil_iff.mpr fun txid mem => by simpa using inMempool txid mem
  have held : ∀ (k : Bytes) (txn : Transaction), s.mempool[k]? = some txn →
      txn ∈ txs ∧ Ideal.packages.txid txn = k := fun k txn held =>
    (of_mem_stock _ (mempool ▸ held)).resolve_left (by simp)
  have noDummy : Ideal.packages.noHash ∉ s.db := fun mem => by
    rw [db] at mem
    obtain ⟨entry, recorded⟩ := mem_iff_record.mp mem
    obtain ⟨txnw, stored, -⟩ := Option.map_eq_some_iff.mp recorded
    obtain ⟨gentxn, -, own, -⟩ := Ideal.small.fresh_entry stored
    exact Ideal.ideal_collisionFree.txid_ne_noHash gentxn own
  have notNamed : Ideal.packages.noHash ∉ (blockOf txs time).txns := fun named => by
    obtain ⟨txn, -, own⟩ := List.mem_map.mp (List.mem_of_mem_take named)
    exact Ideal.ideal_collisionFree.txid_ne_noHash txn own
  have digests : Ideal.small.Digests s (blockOf txs time).txns (s.take (blockOf txs time)).toLedger :=
    digests_of_refused _ (fun txid _ txn mem ledger => refused txn (held txid txn mem).1 ledger)
      (fun txid _ => by
        rw [list]
        exact (List.nodup_iff_count_le_one.mp distinct txid).trans (by decide)) _
  obtain ⟨t, -, run, shorter, free, -⟩ :
      Ideal.small.Finishes (s.take (blockOf txs time)) (blockOf txs time) rest := by
    have queue' : (s.take (blockOf txs time)).blockQueue = blockOf txs time :: rest := queue
    refine (finishes_iff Ideal.small.toPackages queue').mpr ?_
    exact (clears_iff Ideal.small.toPackages (o := s)
      (s := (s.take (blockOf txs time)).enter (blockOf txs time).txns)
      (distinct.sublist (List.take_sublist _ _)) (fun k txn mem => (held k txn mem).2)
      (by rw [show ((s.take _).enter _).db = s.db from rfl, db]; exact Ideal.small.fresh_sound.fit)
      noDummy notNamed inMempool fun txid _ => ⟨rfl, rfl⟩).mpr digests
  refine ⟨t, ?_, shorter, free⟩
  rw [Ideal.small.tryProcess_takes idle queue, Packages.processTaken, get_bind,
    if_neg (by simp [nothingMissing])]
  exact run

include distinct in
/-- The lagging node processes the first block, and accepts none of its transactions. -/
theorem lagging_processes (refused : ∀ txn ∈ txs, ∀ ledger,
    ¬ Ideal.packages.Accepts ledger txn ∧ ¬ Ideal.packages.Unbound ledger txn) :
    ∃ t, Ideal.small.tryProcess (lagging txs) = .ok () t ∧ t.blockQueue = [blockOf txs 50] ∧
      t.processing = false :=
  stock_processes distinct refused rfl rfl rfl rfl rfl

include distinct full in
theorem delivered_reachable : ∃ c : Cluster Bool,
    ((Ideal.small.cluster Bool).restrict Cluster.ClocksKeepUp).Reachable c ∧
      c.node true = final (Ideal.small.exec (.deliver (blockOf txs 100)) (proposer txs 100)) := by
  have reached := twoLeaders_reachable distinct full
  exact ⟨_, reached.step (a := Happening.deliver true) ⟨trivial, _, rfl, rfl⟩, rfl⟩

include distinct full in
theorem lagging_reachable : ∃ c : Cluster Bool,
    (Ideal.small.cluster Bool).Reachable c ∧ c.node true = lagging txs := by
  have reached := (twoLeaders_reachable distinct full).of_restrict
  have committed := reached.step (a := Happening.commit 0) ⟨_, rfl, rfl⟩
  have first := committed.step (a := Happening.deliver true) ⟨_, rfl, rfl⟩
  exact ⟨_, first.step (a := Happening.deliver true) ⟨_, rfl, rfl⟩, lagging_eq⟩

include distinct full in
theorem reversed_of_stock (refused : ∀ txn ∈ txs, ∀ ledger,
    ¬ Ideal.packages.Accepts ledger txn ∧ ¬ Ideal.packages.Unbound ledger txn) :
    ¬ ∀ (c c' : Cluster Bool) (e : Happening Bool), (Ideal.small.cluster Bool).Reachable c →
      (Ideal.small.cluster Bool).step c e c' → ∀ i,
        (c.node i).currentTime ≤ (c'.node i).currentTime := by
  intro claim
  obtain ⟨c, reached, node⟩ := lagging_reachable distinct full
  obtain ⟨t, run, queue, idle⟩ := lagging_processes distinct refused
  have processed : final (Ideal.small.exec .tryProcess (lagging txs)) = t := congrArg final run
  have taken := reached.step (a := Happening.act true .tryProcess) ⟨by simp, rfl⟩
  have backwards := claim _ _ (.act true .tryProcess) taken ⟨by simp, rfl⟩ true
  simp only [Function.update_self, node, processed] at backwards
  have first := (exec_queue Ideal.small.toPackages (a := .tryProcess) (by simp) (lagging txs)).2
  have second := (exec_queue Ideal.small.toPackages (a := .tryProcess) (by simp) t).2
  have ahead : t.currentTime = 100 := by
    rw [processed] at first
    exact first
  have behind : (final (Ideal.small.exec .tryProcess t)).currentTime = 50 := by
    rw [second, Storage.takes, idle, queue]
    rfl
  rw [ahead, behind] at backwards
  norm_num at backwards

end TwoLeaders

/-- Transactions that create coins, as many as fill a block. -/
def minting : List Transaction :=
  (List.range blockSize).map fun n => ⟨[], [Ideal.coin (n + 1)], 0, 0⟩

theorem minting_distinct : (minting.map Ideal.packages.txid).Nodup := by
  rw [minting, List.map_map]
  refine List.nodup_range.map fun m n same => ?_
  have outputs := congrArg Body.outputs (Ideal.ideal_collisionFree.body_eq same)
  simpa [Transaction.body, Ideal.coin] using outputs

theorem minting_full : blockSize ≤ minting.length := by
  simp [minting]

theorem minting_refused {txn : Transaction} (mem : txn ∈ minting) (ledger : Ledger) :
    ¬ Ideal.packages.Accepts ledger txn ∧ ¬ Ideal.packages.Unbound ledger txn := by
  obtain ⟨n, -, rfl⟩ := List.mem_map.mp mem
  exact ⟨fun accepts => accepts.real rfl, fun unbound => nomatch unbound.empty⟩

/-- The first leader takes its block, when it has been delivered. -/
theorem cluster_time_first :
    (final (Ideal.small.exec (.deliver (blockOf minting 100)) (proposer minting 100))).currentTime ≤
      (final (Ideal.small.exec .tryProcess (final
        (Ideal.small.exec (.deliver (blockOf minting 100)) (proposer minting 100))))).currentTime := by
  obtain ⟨c, reached, node⟩ := delivered_reachable minting_distinct minting_full
  have step : ((Ideal.small.cluster Bool).restrict Cluster.ClocksKeepUp).step c
      (.act true .tryProcess) _ := ⟨trivial, by simp, rfl⟩
  have forward := (Setup.cluster_time reached step true).2.1
  simpa only [Function.update_self, node] using forward

/-- **Time runs backwards.** The second leader had not taken the block of the first
when it proposed its own, with an earlier time. -/
theorem time_reversed :
    ¬ ∀ (c c' : Cluster Bool) (e : Happening Bool), (Ideal.small.cluster Bool).Reachable c →
      (Ideal.small.cluster Bool).step c e c' → ∀ i,
        (c.node i).currentTime ≤ (c'.node i).currentTime :=
  reversed_of_stock minting_distinct minting_full fun _ => minting_refused

end Belcoin
