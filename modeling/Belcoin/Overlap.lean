import Belcoin.Raft

/-!
Blocks in flight.

Transactions stay in the mempool list until their block is processed, so a leader must
not propose again what is still on its way. `raft_disjoint` proves that it does not, in
the runs in which a leader proposes no block before it has processed those of the others,
but for the one at hand, and takes no block while one of its own is on its way.
`blocks_overlap` is a change of leaders that breaks this.
-/

namespace Belcoin

open Stateful

/-! ### What a step advances -/

/-- What a step does to the blocks behind a node, to its flag and to its block. -/
inductive Storage.Advances (s : Storage) (a : Action) (t : Storage) : Prop where
  | stays : t.done = s.done → t.addingBlock = s.addingBlock → t.currentBlock = s.currentBlock →
      Advances s a t
  | takes {head : Block} : a = .tryProcess → s.takes a = some head → t.done = s.done →
      t.currentBlock = head.txns → Advances s a t
  | finishes {head : Block} : (a = .tryProcess → s.takes a = some head) →
      t.done = s.done ++ [head] → (a ≠ .tryProcess → t.addingBlock = s.addingBlock) →
      Advances s a t

theorem Packages.Quiet.advances {pkg : Packages} {s t : Storage} {a : Action}
    (quiet : pkg.Quiet s a t) : s.Advances a t := by
  have done : t.done = s.done :=
    Storage.done_of_log (quiet.blockLog.imp_right fun longer =>
      ⟨longer.choose, longer.choose_spec.2⟩)
  have takes : ∀ {block : Block} {rest : List Block}, s.processing = false →
      s.blockQueue = block :: rest → s.takes .tryProcess = some block := by
    intro block rest idle queue
    simp [Storage.takes, idle, queue]
  have sweeps := (control_steady s.control).updatePend pkg s rfl
  have lowers := (addingBlock_steady s.addingBlock).updatePend pkg s rfl
  cases quiet with
  | waits => exact .stays done rfl rfl
  | backsOff idle queue => exact .takes rfl (takes idle queue) done rfl
  | asks idle queue => exact .takes rfl (takes idle queue) done rfl
  | delivered =>
      refine .stays done ?_ ?_
      · exact final_bind (I := fun u : Storage => u.addingBlock = s.addingBlock) lowers
          fun _ _ _ kept => kept
      · exact final_bind (I := fun u : Storage => u.currentBlock = s.currentBlock)
          (congrArg Control.currentBlock sweeps) fun _ _ _ kept => kept
  | swept => exact .stays done lowers (congrArg Control.currentBlock sweeps)
  | @submitted tx =>
      exact .stays done (addMissing_adding pkg _ tx s)
        (congrArg Control.currentBlock (transactionReceived_eq pkg tx 0 (pkg.txid tx) s).2)
  | ended => exact .stays done rfl rfl
  | received =>
      exact .stays done (answered_adding pkg s _ _ _)
        (congrArg Control.currentBlock (answered_control pkg s _ _ _))
  | again => exact .stays done rfl rfl
  | found => exact .stays done rfl rfl

theorem Packages.Enters.advances {pkg : Packages} {s u : Storage} {a : Action}
    {block : List Bytes} (enters : pkg.Enters s a block u) (goes : pkg.EntersWith s a block u) :
    s.Advances a (final (pkg.exec a s)) := by
  have adding := goes.adding
  rcases goes.control with ⟨head, rest, -, queue, control⟩ | ⟨-, missingTxns, control⟩
  · have done : (final (pkg.exec a s)).done = s.done ++ [head] := by
      rw [Storage.done, show (final (pkg.exec a s)).blockLog = _ from congrArg Control.blockLog control]
      simp [Control.finish, Storage.control, Storage.done, deletedIn, enters.blockLog]
    refine .finishes (fun polls => ?_) done fun answers => ?_
    · cases enters with
      | taken idle queue' =>
          have same : s.blockQueue = head :: rest := queue
          simp [Storage.takes, idle, same]
      | completed => cases polls
    · cases enters with
      | taken => exact absurd rfl answers
      | completed => exact adding.trans (answered_adding pkg s _ _ _)
  · have done : (final (pkg.exec a s)).done = s.done := by
      rw [Storage.done, show (final (pkg.exec a s)).blockLog = _ from congrArg Control.blockLog control]
      simp [Control.enter, Storage.control, Storage.done, deletedIn, enters.blockLog]
    have current : (final (pkg.exec a s)).currentBlock = u.currentBlock :=
      congrArg Control.currentBlock control
    cases enters with
    | taken idle queue => exact .takes rfl (by simp [Storage.takes, idle, queue]) done current
    | completed =>
        exact .stays done (adding.trans (answered_adding pkg s _ _ _))
          (current.trans (congrArg Control.currentBlock (answered_control pkg s _ _ _)))

theorem exec_advances (pkg : Packages) (s : Storage) (a : Action) :
    s.Advances a (final (pkg.exec a s)) := by
  rcases exec_cases pkg s a with ⟨block, u, enters, goes⟩ | quiet
  · exact enters.advances goes
  · exact quiet.advances

theorem exec_queued (pkg : Packages) {s : Storage} {a : Action}
    (local' : ∀ block, a ≠ .deliver block) :
    queuedIn (final (pkg.exec a s)).blockLog = queuedIn s.blockLog := by
  rcases exec_cases pkg s a with ⟨block, u, enters, goes⟩ | quiet
  · rw [← enters.blockLog]
    rcases goes.control with ⟨head, rest, -, -, control⟩ | ⟨-, missingTxns, control⟩
    · rw [show (final (pkg.exec a s)).blockLog = _ from congrArg Control.blockLog control]
      simp [Control.finish, queuedIn, Storage.control]
    · rw [show (final (pkg.exec a s)).blockLog = _ from congrArg Control.blockLog control]
      simp [Control.enter, queuedIn, Storage.control]
  · rcases quiet.blockLog with same | ⟨block, rfl, -⟩
    · rw [same]
    · exact absurd rfl (local' block)

/-! ### What is on its way -/

variable {ι : Type}

/-- The block was proposed or committed, was not discarded, and has not been fully
processed by node `i`. -/
def Raft.Outstanding (c : Raft ι) (i : ι) (block : Block) : Prop :=
  (∃ e ∈ c.entries, e.copies ≠ [] ∧ e.block = block) ∨
    block ∈ (c.log.map Prod.snd).diff (c.node i).processed

/-- The committed blocks that node `i` still has before it, with their proposers. -/
def Raft.before (c : Raft ι) (i : ι) : List (ι × Block) := c.log.drop (c.node i).done.length

/-- Leaders take turns: when one proposes a block, every block that is not discarded and
that it has not processed is its own, but for the one at hand; it takes no block while
another of its own is on its way; and answers complete a block in time. -/
def Setup.Turnwise (setup : Setup) (c : Raft ι) : Occurrence ι → Prop
  | .tick i _ _ => (c.node i).Offers → (∀ e ∈ c.entries, e.copies ≠ [] → e.proposer = i) ∧
      ∀ entry ∈ c.before i, entry.1 = i ∨ (c.node i).currentBlock = entry.2.txns
  | .act i a => setup.AnswersInTime (c.node i) a ∧ (a = .tryProcess →
      ((c.node i).takes a).isSome → (∀ e ∈ c.entries, e.copies ≠ [] → e.proposer ≠ i) ∧
        ∀ entry ∈ (c.before i).tail, entry.1 ≠ i)
  | _ => True

namespace Raft

/-- What holds of every node: its queue is what was delivered to it and is not done, and
its flag is set for every block of its own on its way, but for the one at hand. -/
structure Flagged (c : Raft ι) (i : ι) : Prop where
  order : (c.node i).Orderly
  delivered : c.delivered i ≤ c.log.length
  queued : queuedIn (c.node i).blockLog = (c.log.take (c.delivered i)).map Prod.snd
  entries : ∀ e ∈ c.entries, e.copies ≠ [] → e.proposer = i → (c.node i).addingBlock = true
  later : ∀ entry ∈ (c.before i).tail, entry.1 = i → (c.node i).addingBlock = true
  next : ∀ entry ∈ (c.before i).head?, entry.1 = i → (c.node i).addingBlock = true ∨
    (c.node i).currentBlock = entry.2.txns

variable {c c' : Raft ι} {i : ι}

theorem append_diff_self {α : Type} [DecidableEq α] (as bs : List α) : (as ++ bs).diff as = bs := by
  induction as with
  | nil => rfl
  | cons a as ih => rw [List.cons_append, List.diff_cons, List.erase_cons_head, ih]

/-- The committed blocks are those done, those queued and those not delivered. -/
theorem Flagged.split (flagged : c.Flagged i) : c.log.map Prod.snd = (c.node i).done ++
    ((c.node i).blockQueue ++ (c.log.drop (c.delivered i)).map Prod.snd) := by
  have queued : queuedIn (c.node i).blockLog = (c.node i).done ++ (c.node i).blockQueue :=
    flagged.order.behind.1.queued
  rw [← List.append_assoc, ← queued, flagged.queued, ← List.map_append, List.take_append_drop]

/-- What is before a node is what is not done. -/
theorem Flagged.map_before (flagged : c.Flagged i) : (c.before i).map Prod.snd =
    (c.node i).blockQueue ++ (c.log.drop (c.delivered i)).map Prod.snd := by
  rw [Raft.before, List.map_drop, flagged.split, List.drop_left]

/-- A committed block that is not processed is before the node. -/
theorem Flagged.mem_before (flagged : c.Flagged i) {block : Block}
    (mem : block ∈ (c.log.map Prod.snd).diff (c.node i).processed) :
    ∃ j, (j, block) ∈ c.before i := by
  rw [flagged.order.behind.2, flagged.split, append_diff_self, ← flagged.map_before] at mem
  obtain ⟨⟨j, _⟩, mem', rfl⟩ := List.mem_map.mp mem
  exact ⟨j, mem'⟩

/-- **A block that is outstanding** is either another leader's, or the one at hand, as
long as the flag is down. -/
theorem Flagged.outstanding (flagged : c.Flagged i) (lowered : (c.node i).addingBlock = false)
    {block : Block} (outstanding : c.Outstanding i block) :
    (∃ e ∈ c.entries, e.copies ≠ [] ∧ e.proposer ≠ i ∧ e.block = block) ∨
      (∃ j, j ≠ i ∧ (j, block) ∈ c.before i) ∨ (c.node i).currentBlock = block.txns := by
  have down : ¬ (c.node i).addingBlock = true := by simp [lowered]
  rcases outstanding with ⟨e, mem, copied, same⟩ | committed
  · exact .inl ⟨e, mem, copied, fun own => down (flagged.entries e mem copied own), same⟩
  · obtain ⟨j, mem⟩ := flagged.mem_before committed
    by_cases own : j = i
    · refine .inr (.inr ?_)
      cases ahead : c.before i with
      | nil =>
          rw [ahead] at mem
          cases mem
      | cons first rest =>
          have next := flagged.next
          have later := flagged.later
          rw [ahead] at mem next later
          rcases List.mem_cons.mp mem with rfl | mem
          · exact (next (j, block) rfl own).resolve_left down
          · exact absurd (later _ mem own) down
    · exact .inr (.inl ⟨j, own, mem⟩)

/-- A node that has not changed. -/
theorem Flagged.congr (flagged : c.Flagged i) (node : c'.node i = c.node i)
    (delivered : c'.delivered i = c.delivered i) (log : c'.log = c.log)
    (entries : ∀ e ∈ c'.entries, e.copies ≠ [] → e.proposer = i →
      (c.node i).addingBlock = true) : c'.Flagged i := by
  have before : c'.before i = c.before i := by rw [Raft.before, node, log, Raft.before]
  refine ⟨node ▸ flagged.order, delivered ▸ log ▸ flagged.delivered, ?_, node ▸ entries, ?_, ?_⟩
  · rw [node, delivered, log]
    exact flagged.queued
  · rw [before, node]
    exact flagged.later
  · rw [before, node]
    exact flagged.next

/-- A node whose flag may have been set, and whose control state is the same. -/
theorem Flagged.raise (flagged : c.Flagged i) {t : Storage} (node : c'.node i = t)
    (control : t.control = (c.node i).control)
    (raised : (c.node i).addingBlock = true → t.addingBlock = true)
    (delivered : c'.delivered i = c.delivered i) (log : c'.log = c.log)
    (entries : ∀ e ∈ c'.entries, e.copies ≠ [] → e.proposer = i → t.addingBlock = true) :
    c'.Flagged i := by
  subst node
  have sameLog : (c'.node i).blockLog = (c.node i).blockLog := congrArg Control.blockLog control
  have current : (c'.node i).currentBlock = (c.node i).currentBlock :=
    congrArg Control.currentBlock control
  have before : c'.before i = c.before i := by
    rw [Raft.before, log, Storage.done_of_log (.inl sameLog), Raft.before]
  refine ⟨flagged.order.of_control control, delivered ▸ log ▸ flagged.delivered, ?_, entries, ?_, ?_⟩
  · rw [sameLog, delivered, log]
    exact flagged.queued
  · rw [before]
    exact fun entry mem own => raised (flagged.later entry mem own)
  · rw [before, current]
    exact fun entry mem own => (flagged.next entry mem own).imp_left raised

/-- An entry is committed. -/
theorem Flagged.commit (flagged : c.Flagged i) {e : Entry ι} (mem : e ∈ c.entries)
    (copied : e.copies ≠ []) (node : c'.node i = c.node i)
    (delivered : c'.delivered i = c.delivered i) (log : c'.log = c.log ++ [(e.proposer, e.block)])
    (entries : ∀ e ∈ c'.entries, e ∈ c.entries) : c'.Flagged i := by
  have inLog : (c.node i).done.length ≤ c.log.length := by
    have lengths := congrArg List.length flagged.split
    simp only [List.length_map, List.length_append] at lengths
    omega
  have before : c'.before i = c.before i ++ [(e.proposer, e.block)] := by
    rw [Raft.before, node, log, List.drop_append_of_le_length inLog, Raft.before]
  refine ⟨node ▸ flagged.order, ?_, ?_, ?_, ?_, ?_⟩
  · rw [delivered, log, List.length_append]
    exact flagged.delivered.trans (Nat.le_add_right _ _)
  · rw [node, delivered, log, List.take_append_of_le_length flagged.delivered]
    exact flagged.queued
  · rw [node]
    exact fun e' mem' => flagged.entries e' (entries e' mem')
  · rw [before, node]
    intro entry mem' own
    cases ahead : c.before i with
    | nil =>
        rw [ahead] at mem'
        cases mem'
    | cons first rest =>
        have later := flagged.later
        rw [ahead] at mem' later
        rcases List.mem_append.mp mem' with old | new
        · exact later entry old own
        · rw [List.mem_singleton.mp new] at own
          exact flagged.entries e mem copied own
  · rw [before, node]
    intro entry mem' own
    cases ahead : c.before i with
    | nil =>
        rw [ahead] at mem'
        cases mem'
        exact .inl (flagged.entries e mem copied own)
    | cons first rest =>
        have next := flagged.next
        rw [ahead] at mem' next
        exact next entry mem' own

/-- A block is delivered and queued, or the delivery raises and does not count. -/
theorem Flagged.called [DecidableEq ι] {setup : Setup} (flagged : c.Flagged i) {entry : ι × Block}
    (logged : c.log[c.delivered i]? = some entry) :
    (c.called i (setup.exec (.deliver entry.2) (c.node i))).Flagged i := by
  have order := @Setup.exec_orderly setup _ (.deliver entry.2) flagged.order
    (by simp [Setup.AnswersInTime])
  obtain ⟨u, control, lowers, ⟨-, run⟩ | ⟨e, -, run⟩⟩ :=
    deliver_cases setup.toPackages entry.2 (c.node i)
  · have sameLog : u.blockLog = (c.node i).blockLog := congrArg Control.blockLog control
    have current : u.currentBlock = (c.node i).currentBlock := congrArg Control.currentBlock control
    rw [run] at order ⊢
    generalize same : c.called i _ = c'
    have node : c'.node i = { u with
        blockQueue := u.blockQueue ++ [entry.2]
        blockLog := u.blockLog ++ [.queued entry.2] } := same ▸ Function.update_self i _ _
    have delivered : c'.delivered i = c.delivered i + 1 := same ▸ Function.update_self i _ _
    have log : c'.log = c.log := same ▸ rfl
    have entries : c'.entries = c.entries := same ▸ rfl
    have adding : (c'.node i).addingBlock = (c.node i).addingBlock := by
      rw [node]
      exact lowers
    have before : c'.before i = c.before i := by
      have done : (c'.node i).done = (c.node i).done := by
        refine Storage.done_of_log (.inr ⟨entry.2, ?_⟩)
        rw [node, ← sameLog]
      rw [Raft.before, log, done, Raft.before]
    have here := (List.getElem?_eq_some_iff.mp logged).1
    refine ⟨node ▸ order, ?_, ?_, ?_, ?_, ?_⟩
    · rw [delivered, log]
      exact Nat.succ_le_of_lt here
    · rw [node, delivered, log, List.take_add_one, logged, List.map_append, ← flagged.queued,
        ← sameLog]
      simp [queuedIn]
    · rw [entries, adding]
      exact flagged.entries
    · rw [before, adding]
      exact flagged.later
    · rw [before, adding, node]
      exact fun other mem own => (flagged.next other mem own).imp_right current.trans
  · rw [run]
    exact flagged.raise (Function.update_self i _ _) control (fun adding => lowers.trans adding)
      rfl rfl fun e mem copied own => lowers.trans (flagged.entries e mem copied own)

/-- A node acts on its own. -/
theorem Flagged.act {setup : Setup} (flagged : c.Flagged i) {a : Action}
    (local' : ∀ block, a ≠ .deliver block) (turnwise : setup.Turnwise c (.act i a))
    (node : c'.node i = final (setup.exec a (c.node i)))
    (delivered : c'.delivered i = c.delivered i) (log : c'.log = c.log)
    (entries : c'.entries = c.entries) : c'.Flagged i := by
  have order : (c'.node i).Orderly := node ▸ Setup.exec_orderly flagged.order turnwise.1
  have queued : queuedIn (c'.node i).blockLog = (c'.log.take (c'.delivered i)).map Prod.snd := by
    rw [node, exec_queued setup.toPackages local', delivered, log]
    exact flagged.queued
  have inLog : c'.delivered i ≤ c'.log.length := delivered ▸ log ▸ flagged.delivered
  have advances := exec_advances setup.toPackages (c.node i) a
  rw [← node] at advances
  cases advances with
  | stays done adding current =>
      have before : c'.before i = c.before i := by rw [Raft.before, log, done, Raft.before]
      refine ⟨order, inLog, queued, ?_, ?_, ?_⟩
      · rw [entries, adding]
        exact flagged.entries
      · rw [before, adding]
        exact flagged.later
      · rw [before, adding, current]
        exact flagged.next
  | @takes head polls takes done current =>
      have before : c'.before i = c.before i := by rw [Raft.before, log, done, Raft.before]
      obtain ⟨noEntry, none⟩ := turnwise.2 polls (by rw [takes]; rfl)
      refine ⟨order, inLog, queued, ?_, ?_, ?_⟩
      · rw [entries]
        exact fun e mem copied own => absurd own (noEntry e mem copied)
      · rw [before]
        exact fun entry mem own => absurd own (none entry mem)
      · rw [before]
        intro entry mem _
        obtain ⟨rest, queue⟩ := Storage.takes_head takes
        have ahead := flagged.map_before
        rw [queue] at ahead
        cases first : c.before i with
        | nil =>
            rw [first] at mem
            cases mem
        | cons oldest younger =>
            rw [first] at mem ahead
            cases mem
            have same : entry.2 = head := (List.cons.inj ahead).1
            exact .inr (by rw [current, same])
  | @finishes head takes done adding =>
      have before : c'.before i = (c.before i).tail := by
        rw [Raft.before, log, done, List.length_append, List.length_singleton, ← List.tail_drop,
          Raft.before]
      by_cases polls : a = .tryProcess
      · obtain ⟨noEntry, none⟩ := turnwise.2 polls (by rw [takes polls]; rfl)
        refine ⟨order, inLog, queued, ?_, ?_, ?_⟩
        · rw [entries]
          exact fun e mem copied own => absurd own (noEntry e mem copied)
        · rw [before]
          exact fun entry mem own => absurd own (none entry (List.mem_of_mem_tail mem))
        · rw [before]
          exact fun entry mem own => absurd own (none entry (List.mem_of_mem_head? mem))
      · refine ⟨order, inLog, queued, ?_, ?_, ?_⟩
        · rw [entries, adding polls]
          exact flagged.entries
        · rw [before, adding polls]
          exact fun entry mem => flagged.later entry (List.mem_of_mem_tail mem)
        · rw [before, adding polls]
          exact fun entry mem own => .inl (flagged.later entry (List.mem_of_mem_head? mem) own)

/-- The copies of an entry change. -/
theorem Flagged.recopy (flagged : c.Flagged i) {n : Nat} {copies : List ι → List ι}
    (was : ∀ e, c.entries[n]? = some e → copies e.copies ≠ [] → e.copies ≠ []) :
    (c.recopy n copies).Flagged i := by
  refine flagged.congr rfl rfl rfl fun e' mem copied own => ?_
  obtain ⟨m, at_m⟩ := List.mem_iff_getElem?.mp mem
  rw [Raft.recopy, List.getElem?_modify] at at_m
  obtain ⟨e, at_m', rfl⟩ := Option.map_eq_some_iff.mp at_m
  by_cases here : n = m
  · subst here
    rw [if_pos rfl] at copied own
    exact flagged.entries e (List.mem_of_getElem? at_m') (was e at_m' copied) own
  · rw [if_neg here] at copied own
    exact flagged.entries e (List.mem_of_getElem? at_m') copied own

/-- A leader ticks: it sets its flag before it proposes. -/
theorem flagged_tick [DecidableEq ι] (flagged : ∀ j, c.Flagged j) (clock again : ℚ≥0) (j : ι) :
    (c.tick i clock again).Flagged j := by
  have old := flagged j
  by_cases own : j = i
  · subst own
    have node : (c.tick j clock again).node j = final (leaderTick clock again (c.node j)) :=
      Function.update_self j _ _
    rcases leaderTick_cases clock again (c.node j) with counts | ⟨-, ⟨-, waits⟩ | ⟨-, proposes⟩⟩
    · have same : (c.tick j clock again).entries = c.entries := by simp [Raft.tick, counts]
      refine old.raise (node.trans counts) rfl id rfl rfl ?_
      rw [same]
      exact old.entries
    · exact old.raise (node.trans waits) rfl (fun _ => rfl) rfl rfl fun _ _ _ _ => rfl
    · exact old.raise (node.trans proposes) rfl (fun _ => rfl) rfl rfl fun _ _ _ _ => rfl
  · refine old.congr (Function.update_of_ne own _ _) rfl rfl fun e mem copied proposes => ?_
    rcases List.mem_append.mp mem with mem | new
    · exact old.entries e mem copied proposes
    · obtain ⟨block, -, rfl⟩ := List.mem_map.mp new
      exact absurd proposes.symm own

end Raft

variable [DecidableEq ι]

/-- **One step keeps every node flagged.** -/
theorem Setup.raft_turnwise_step {setup : Setup} {c c' : Raft ι} {o : Occurrence ι}
    (flagged : ∀ i, c.Flagged i) (turnwise : setup.Turnwise c o)
    (step : (setup.raft ι).step c o c') (j : ι) : c'.Flagged j := by
  have old := flagged j
  replace step := step.2
  cases o with
  | elect i =>
      cases step
      by_cases own : j = i
      · subst own
        exact old.raise (Function.update_self j _ _) rfl id rfl rfl old.entries
      · exact old.congr (Function.update_of_ne own _ _) rfl rfl old.entries
  | depose i =>
      cases step
      exact old.congr rfl rfl rfl old.entries
  | tick i clock again =>
      obtain ⟨-, -, rfl⟩ := step
      exact Raft.flagged_tick flagged clock again j
  | replicate n i =>
      obtain ⟨⟨e, at_n, copied⟩, rfl⟩ := step
      refine old.recopy fun e' at_n' _ => ?_
      obtain rfl : e = e' := Option.some.inj (at_n.symm.trans at_n')
      exact copied
  | discard n i =>
      cases step
      refine old.recopy fun e _ some none => some ?_
      rw [none, List.filter_nil]
  | commit n =>
      obtain ⟨e, at_n, copied, rfl⟩ := step
      exact old.commit (List.mem_of_getElem? at_n) copied rfl rfl rfl fun _ =>
        List.mem_of_mem_eraseIdx
  | deliver i =>
      obtain ⟨entry, logged, rfl⟩ := step
      by_cases own : j = i
      · subst own
        exact old.called logged
      · obtain ⟨node, delivered, log, entries⟩ :=
          Raft.called_of_ne own (setup.exec (.deliver entry.2) (c.node i))
        refine old.congr node delivered log ?_
        rw [entries]
        exact old.entries
  | act i a =>
      obtain ⟨local', rfl⟩ := step
      by_cases own : j = i
      · subst own
        exact old.act local' turnwise (Function.update_self j _ _) rfl rfl rfl
      · exact old.congr (Function.update_of_ne own _ _) rfl rfl old.entries

/-- Every node is flagged in the runs in which leaders take turns. -/
theorem Setup.raft_flagged {setup : Setup} {c : Raft ι}
    (reached : ((setup.raft ι).restrict setup.Turnwise).Reachable c) (i : ι) : c.Flagged i := by
  refine reached.invariant (I := fun c => ∀ i, c.Flagged i) ?_ ?_ i
  · rintro c ⟨noEntries, noLog, nodes⟩ i
    obtain ⟨fresh, nothing, -⟩ := nodes i
    have noBefore : c.before i = [] := by simp [Raft.before, noLog]
    refine ⟨?_, by simp [nothing], ?_, by simp [noEntries], by simp [noBefore], by simp [noBefore]⟩
    · rw [fresh]
      exact ⟨[], rfl, rfl, .idle rfl rfl rfl fun missing => absurd rfl missing⟩
    · rw [fresh, noLog, List.take_nil]
      rfl
  · exact fun c o c' _ flagged ⟨turnwise, step⟩ i =>
      setup.raft_turnwise_step flagged turnwise step i

/-- **Blocks in flight are disjoint** in the runs in which leaders take turns: what a
tick proposes shares no transaction with a block that is outstanding. -/
theorem Setup.raft_disjoint {setup : Setup} {c c' : Raft ι} {i : ι} {clock again : ℚ≥0}
    (reached : ((setup.raft ι).restrict setup.Turnwise).Reachable c)
    (step : ((setup.raft ι).restrict setup.Turnwise).step c (.tick i clock again) c')
    {e : Entry ι} (new : e ∈ c'.entries.drop c.entries.length) {block : Block}
    (outstanding : c.Outstanding i block) : e.block.txns.Disjoint block.txns := by
  obtain ⟨turnwise, -, -, -, rfl⟩ := step
  rw [Raft.tick, List.drop_left] at new
  obtain ⟨proposal, mem, rfl⟩ := List.mem_map.mp new
  have offers := offers_of_proposes mem
  obtain ⟨-, ⟨-, lowered, -⟩, apart⟩ := id offers
  obtain ⟨noEntry, none⟩ := turnwise offers
  obtain rfl : proposal = (c.node i).proposal clock again := by
    simpa [offers.proposes] using mem
  have atHand : (c.node i).currentBlock = block.txns →
      ((c.node i).proposal clock again).txns.Disjoint block.txns :=
    fun current => current ▸ apart
  rcases (setup.raft_flagged reached i).outstanding lowered outstanding with
    ⟨e, mem, copied, other, -⟩ | ⟨j, other, mem⟩ | current
  · exact absurd (noEntry e mem copied) other
  · exact atHand ((none (j, block) mem).resolve_left other)
  · exact atHand current

/-! ### A change of leaders -/

/-- Other transactions, as many. -/
def reminting : List Transaction := minting.map fun txn => { txn with seq := 1 }

theorem reminting_distinct : (reminting.map Ideal.packages.txid).Nodup := by
  rw [reminting, List.map_map]
  refine (minting_distinct.of_map _).map_on fun txn mem txn' mem' same => ?_
  obtain ⟨m, -, rfl⟩ := List.mem_map.mp mem
  obtain ⟨n, -, rfl⟩ := List.mem_map.mp mem'
  have outputs := congrArg Body.outputs (Ideal.ideal_collisionFree.body_eq same)
  simpa [Transaction.body, Ideal.coin] using outputs

theorem reminting_full : blockSize ≤ reminting.length := by
  simpa [reminting] using minting_full

theorem minting_disjoint_reminting :
    (minting.map Ideal.packages.txid).Disjoint (reminting.map Ideal.packages.txid) := by
  intro txid mem mem'
  obtain ⟨txn, txn_mem, rfl⟩ := List.mem_map.mp mem
  obtain ⟨txn', txn_mem', same⟩ := List.mem_map.mp mem'
  obtain ⟨n, -, rfl⟩ := List.mem_map.mp txn_mem
  obtain ⟨other, -, rfl⟩ := List.mem_map.mp txn_mem'
  have seq := congrArg Body.seq (Ideal.ideal_collisionFree.body_eq same)
  simp [Transaction.body] at seq

section Proposed

variable {C : Raft Bool → Occurrence Bool → Prop} {txs others : List Transaction} {time : ℚ≥0}

/-- The second node leads too. -/
def deposing (txs others : List Transaction) (time : ℚ≥0) : Raft Bool :=
  { proposed txs others time with leads := fun _ => true }

theorem deposing_reachable (elects : ∀ c i, C c (.elect i))
    (reached : ((Ideal.small.raft Bool).restrict C).Reachable (proposed txs others time)) :
    ((Ideal.small.raft Bool).restrict C).Reachable (deposing txs others time) := by
  have elected := reached.step (a := Occurrence.elect false)
    ⟨elects _ _, by simp [Occurrence.thread, proposed], rfl⟩
  convert elected using 2
  · funext first
    cases first <;> rfl
  · funext first
    cases first <;> rfl
  all_goals rfl

/-- The second node proposes a block. -/
theorem deposing_tick (full : blockSize ≤ others.length)
    (allowed : C (deposing txs others time) (.tick false 50 50)) :
    ∃ c', ((Ideal.small.raft Bool).restrict C).step (deposing txs others time) (.tick false 50 50) c' ∧
      ⟨false, blockOf others 50, [false]⟩ ∈ c'.entries.drop (deposing txs others time).entries.length := by
  refine ⟨_, ⟨allowed, by simp [Occurrence.thread, deposing, proposed], rfl, le_rfl, rfl⟩, ?_⟩
  rw [tick_eq full rfl (by norm_num), List.drop_left]
  exact List.mem_singleton_self _

/-- The block of the first is on its way. -/
theorem deposing_outstanding : (deposing txs others time).Outstanding false (blockOf txs time) :=
  .inl ⟨⟨true, blockOf txs time, [true]⟩, List.mem_singleton_self _, List.cons_ne_nil _ _, rfl⟩

theorem blockOf_not_disjoint (full : blockSize ≤ txs.length) (first second : ℚ≥0) :
    ¬ (blockOf txs first).txns.Disjoint (blockOf txs second).txns := by
  intro disjoint
  have none : (txs.map Ideal.packages.txid).take blockSize = [] :=
    List.eq_nil_iff_forall_not_mem.mpr fun _ mem => disjoint mem mem
  have length := congrArg List.length none
  rw [List.length_take, List.length_map, Nat.min_eq_left full] at length
  exact absurd length (by decide)

end Proposed

section BlockAtHand

/-- A node that lacks transactions of a block backs off from it a number of times. -/
theorem processTaken_backsOff (pkg : Packages) {block : Block} {s : Storage}
    (missing : s.missingOf block.txns ≠ []) (patient : s.missedCounter < backoffAmount) :
    pkg.processTaken block (s.take block) = .ok () { s.take block with
      processing := false
      missedCounter := s.missedCounter + 1 } := by
  have lacks : (s.take block).missingTxns ≠ [] := missing
  rw [Packages.processTaken, get_bind, if_pos lacks, modify_bind, get_bind]
  exact congrFun (if_neg (Nat.not_lt.mpr patient)) _

/-- A node that holds other transactions has a block of these in its queue, and the node
once it is backing off from the block. -/
def queueing (txs others : List Transaction) (time : ℚ≥0) : Storage :=
  { stocked others with
    blockQueue := [blockOf txs time]
    blockLog := [.queued (blockOf txs time)] }

def backingOff (txs others : List Transaction) (time : ℚ≥0) : Storage :=
  { queueing txs others time with
    currentTime := time
    currentBlock := (blockOf txs time).txns
    missingTxns := (stocked others).missingOf (blockOf txs time).txns
    missedCounter := 1 }

/-- The block of the first leader is committed, and at hand on the second. -/
def atHand (txs others : List Transaction) (time : ℚ≥0) : Raft Bool where
  node first := bif first then proposer txs time else backingOff txs others time
  leads _ := true
  entries := []
  log := [(true, blockOf txs time)]
  delivered := Function.update (fun _ => 0) false 1
  halted _ := false

variable {txs others : List Transaction} {time : ℚ≥0}

/-- A node that holds other transactions lacks some of a block of these. -/
theorem missingOf_stocked (full : blockSize ≤ txs.length)
    (apart : (txs.map Ideal.packages.txid).Disjoint (others.map Ideal.packages.txid)) :
    (stocked others).missingOf (blockOf txs time).txns ≠ [] := by
  intro none
  have held := List.filter_eq_nil_iff.mp none
  have empty : (blockOf txs time).txns = [] := by
    refine List.eq_nil_iff_forall_not_mem.mpr fun txid mem => held txid mem ?_
    have absent : txid ∉ (stocked others).mempool := by
      intro here
      rcases (mem_stock Ideal.packages).mp here with old | other
      · simp at old
      · exact apart (List.mem_of_mem_take mem) other
    simpa using absent
  have length := congrArg List.length empty
  rw [blockOf, List.length_take, List.length_map, Nat.min_eq_left full] at length
  exact absurd length (by decide)

/-- The second leader takes the block and backs off. -/
theorem queueing_backsOff (full : blockSize ≤ txs.length)
    (apart : (txs.map Ideal.packages.txid).Disjoint (others.map Ideal.packages.txid)) :
    Ideal.small.exec .tryProcess (queueing txs others time) = .ok () (backingOff txs others time) := by
  have missing : (queueing txs others time).missingOf (blockOf txs time).txns ≠ [] :=
    missingOf_stocked full apart
  have patient : (queueing txs others time).missedCounter < backoffAmount := by
    change 0 < backoffAmount
    decide
  change Ideal.packages.tryProcess _ = _
  rw [Packages.tryProcess_takes Ideal.packages rfl rfl, processTaken_backsOff _ missing patient]
  rfl

theorem atHand_reachable (full : blockSize ≤ txs.length)
    (apart : (txs.map Ideal.packages.txid).Disjoint (others.map Ideal.packages.txid))
    (reached : ((Ideal.small.raft Bool).restrict Ideal.small.Turnwise).Reachable
      (deposing txs others time)) :
    ((Ideal.small.raft Bool).restrict Ideal.small.Turnwise).Reachable (atHand txs others time) := by
  have committed := reached.step (a := Occurrence.commit 0)
    ⟨trivial, by simp [Occurrence.thread], _, rfl, List.cons_ne_nil _ _, rfl⟩
  have delivered := committed.step (a := Occurrence.deliver false)
    ⟨trivial, by simp [Occurrence.thread, deposing, proposed], (true, blockOf txs time), rfl, rfl⟩
  have delivery : Ideal.small.exec (.deliver (blockOf txs time)) (stocked others) =
      .ok () (queueing txs others time) := exec_deliver rfl _
  change ((Ideal.small.raft Bool).restrict Ideal.small.Turnwise).Reachable
    (Raft.called _ false (Ideal.small.exec (.deliver (blockOf txs time)) (stocked others))) at delivered
  rw [delivery] at delivered
  have takes := delivered.step (a := Occurrence.act false .tryProcess) ⟨⟨by simp [Setup.AnswersInTime],
    fun _ _ => ⟨fun e mem => (List.not_mem_nil mem).elim, fun e mem => (List.not_mem_nil mem).elim⟩⟩,
    by simp [Occurrence.thread], by simp, rfl⟩
  convert takes using 2
  · funext first
    cases first
    · exact (congrArg final (queueing_backsOff full apart)).symm
    · rfl
  all_goals rfl

/-- The second leader proposes its own transactions meanwhile. -/
theorem atHand_tick (full : blockSize ≤ others.length) {later : ℚ≥0} (late : time < later)
    (apart : (txs.map Ideal.packages.txid).Disjoint (others.map Ideal.packages.txid)) :
    ∃ c', ((Ideal.small.raft Bool).restrict Ideal.small.Turnwise).step (atHand txs others time)
        (.tick false later later) c' ∧
      ⟨false, blockOf others later, [false]⟩ ∈ c'.entries.drop (atHand txs others time).entries.length := by
  have offers : (backingOff txs others time).Offers :=
    ⟨.inr (stocked_full full), ⟨rfl, rfl, rfl⟩, fun txid mine theirs =>
      apart (List.mem_of_mem_take theirs) (List.mem_of_mem_take mine)⟩
  refine ⟨_, ⟨fun _ => ⟨fun e mem => (List.not_mem_nil mem).elim, fun entry mem => .inr ?_⟩,
    by simp [Occurrence.thread, atHand], rfl, le_rfl, rfl⟩, ?_⟩
  · obtain rfl : entry = (true, blockOf txs time) := List.mem_singleton.mp mem
    rfl
  · have proposal : (backingOff txs others time).proposal later later = blockOf others later := by
      have now : (if later > (backingOff txs others time).currentTime then later
          else (backingOff txs others time).currentTime) = later := if_pos late
      rw [Storage.proposal, now]
      rfl
    change _ ∈ (List.map _ ((final (leaderTick later later (backingOff txs others time))).commandsQueue.drop _))
    rw [offers.proposes, proposal]
    exact List.mem_singleton_self _

end BlockAtHand

/-- The second leader proposes its own transactions while the block of the first is at hand. -/
theorem raft_disjoint_proposed :
    (blockOf reminting 150).txns.Disjoint (blockOf minting 100).txns := by
  have submits : ∀ (c : Raft Bool) i tx, Ideal.small.Turnwise c (.act i (.puttxn tx)) :=
    fun _ _ _ => ⟨by simp [Setup.AnswersInTime], by simp⟩
  have ticks : ∀ c : Raft Bool, c.entries = [] → c.log = [] →
      Ideal.small.Turnwise c (.tick true 100 100) := by
    intro c noEntries noLog _
    simp [noEntries, noLog, Raft.before]
  have both := deposing_reachable (fun _ _ => trivial) (proposed_reachable submits
    (fun _ _ => trivial) (by norm_num) minting_distinct reminting_distinct minting_full ticks)
  have reached := atHand_reachable minting_full minting_disjoint_reminting both
  have late : (100 : ℚ≥0) < 150 := by norm_num
  obtain ⟨c', step, new⟩ := atHand_tick reminting_full late minting_disjoint_reminting
  exact Setup.raft_disjoint reached step new (.inr (List.mem_singleton_self _))

/-- **Blocks that overlap.** The block of the first leader is on its way when the second
proposes the same transactions. -/
theorem blocks_overlap :
    ¬ ∀ (c c' : Raft Bool) i clock again, (Ideal.small.raft Bool).Reachable c →
      (Ideal.small.raft Bool).step c (.tick i clock again) c' →
      ∀ e ∈ c'.entries.drop c.entries.length, ∀ block, c.Outstanding i block →
        e.block.txns.Disjoint block.txns := by
  intro claim
  have reached : ((Ideal.small.raft Bool).restrict fun _ _ => True).Reachable
      (proposed minting minting 100) :=
    proposed_reachable (fun _ _ _ => trivial) (fun _ _ => trivial) (by norm_num) minting_distinct
      minting_distinct minting_full fun _ _ _ => trivial
  have both := (deposing_reachable (fun _ _ => trivial) reached).of_restrict
  obtain ⟨c', ⟨-, step⟩, new⟩ := deposing_tick (C := fun _ _ => True) minting_full trivial
  exact blockOf_not_disjoint minting_full 50 100
    (claim _ _ _ _ _ both step _ new _ deposing_outstanding)

end Belcoin
