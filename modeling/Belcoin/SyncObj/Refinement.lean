import Belcoin.SyncObj.Program
import Belcoin.SyncObj.Proposals

/-!
The program is a run over Raft.

`Setup.raft` says of Raft only that proposals are committed in one order and delivered in
that order; `program_refines_raft` says that the messages and logs of `SyncObj` do no more
than that. What has been proposed is committed in the other machine, or waits there; what
has been called on some node is committed, in the order of the calls (`Tracks`).
-/

namespace Belcoin.SyncObj

open Consensus Network Deployment Stateful

variable {ι : Type} [DecidableEq ι]

/-! ### Runs of `Setup.raft` -/

section Raft

variable {setup : Setup} {r : Belcoin.Raft ι} {i : ι}

/-- A node that becomes leader or stops leading. -/
theorem role_run (setup : Setup) (before after : State ι) (running : r.halted i = false)
    (leads : r.leads i = true ↔ before.raftState = .leader) :
    ∃ os, (setup.raft ι).Run r os { r with
      node := Function.update r.node i (crown before after (r.node i))
      leads := Function.update r.leads i (decide (after.raftState = .leader)) } := by
  by_cases crowned : before.raftState ≠ .leader ∧ after.raftState = .leader
  · refine ⟨[.elect i], .single ⟨by simpa [Occurrence.thread] using running, ?_⟩⟩
    change _ = _
    rw [crown, if_pos crowned, decide_eq_true crowned.2]
  · rw [crown, if_neg crowned, Function.update_eq_self]
    by_cases leading : after.raftState = .leader
    · have led : r.leads i = true := leads.mpr (by_contra fun other => crowned ⟨other, leading⟩)
      rw [decide_eq_true leading, ← led, Function.update_eq_self]
      exact ⟨[], .nil r⟩
    · refine ⟨[.depose i], .single ⟨by simpa [Occurrence.thread] using running, ?_⟩⟩
      change _ = _
      rw [decide_eq_false leading]

/-- A leader proposes a block. -/
theorem propose_run (setup : Setup) (elected : State ι) {clock again : ℚ≥0}
    (running : r.halted i = false) (forward : clock ≤ again)
    (leads : r.leads i = true ↔ elected.raftState = .leader) :
    ∃ os, (setup.raft ι).Run r os { r with
      node := Function.update r.node i (if elected.raftState = .leader then
        final (leaderTick clock again (r.node i)) else r.node i)
      entries := r.entries ++ (if elected.raftState = .leader then
        Storage.proposes clock again (r.node i) else []).map fun block => ⟨i, block, [i]⟩ } := by
  by_cases leading : elected.raftState = .leader
  · rw [if_pos leading, if_pos leading]
    exact ⟨[.tick i clock again], .single ⟨by simpa [Occurrence.thread] using running,
      leads.mpr leading, forward, rfl⟩⟩
  · rw [if_neg leading, if_neg leading, Function.update_eq_self, List.map_nil, List.append_nil]
    exact ⟨[], .nil r⟩

/-- The commands that are committed, in order, and those that are not. -/
def committed (calls : Calls) (r : Belcoin.Raft ι) : List Bytes :=
  r.log.map fun entry => calls.dumps entry.2

def waiting (calls : Calls) (r : Belcoin.Raft ι) : List Bytes :=
  r.entries.map fun e => calls.dumps e.block

/-- Commands that wait may be committed in any order. -/
theorem commit_run (setup : Setup) (calls : Calls) (commands : List Bytes)
    (held : ∀ e ∈ r.entries, e.copies ≠ [])
    (enough : ∀ command, commands.count command ≤ (waiting calls r).count command) :
    ∃ os log entries, (setup.raft ι).Run r os { r with log, entries } ∧
      committed calls { r with log, entries } = committed calls r ++ commands ∧
      (∀ command, (waiting calls { r with log, entries }).count command + commands.count command =
        (waiting calls r).count command) ∧ ∀ e ∈ entries, e.copies ≠ [] := by
  induction commands generalizing r with
  | nil => exact ⟨[], r.log, r.entries, .nil r, by simp, by simp, held⟩
  | cons command commands ih =>
      have mem : command ∈ waiting calls r := by
        apply List.count_pos_iff.mp
        have := enough command
        rw [List.count_cons_self] at this
        omega
      obtain ⟨n, here⟩ := List.mem_iff_getElem?.mp mem
      rw [waiting, List.getElem?_map] at here
      obtain ⟨e, found, same⟩ := Option.map_eq_some_iff.mp here
      have step : (setup.raft ι).step r (.commit n) { r with
          entries := r.entries.eraseIdx n
          log := r.log ++ [(e.proposer, e.block)] } :=
        ⟨by simp [Occurrence.thread], e, found, held e (List.mem_of_getElem? found), rfl⟩
      have fewer : ∀ other, (waiting calls { r with entries := r.entries.eraseIdx n }).count other +
          [command].count other = (waiting calls r).count other := by
        intro other
        have inside := (List.getElem?_eq_some_iff.mp found).1
        have split := List.take_append_drop n r.entries
        rw [List.drop_eq_getElem_cons inside, (List.getElem?_eq_some_iff.mp found).2] at split
        rw [waiting, waiting, List.eraseIdx_eq_take_drop_succ]
        conv_rhs => rw [← split]
        simp only [List.map_append, List.map_cons, List.count_append, List.count_cons, same]
        simp only [List.count_nil]
        omega
      obtain ⟨os, log, entries, run, order, counts, held'⟩ := ih (r := { r with
          entries := r.entries.eraseIdx n
          log := r.log ++ [(e.proposer, e.block)] })
        (fun e' mem' => held e' (List.mem_of_mem_eraseIdx mem')) (fun other => by
          have := fewer other
          have := enough other
          rw [← List.singleton_append, List.count_append] at this
          simp only [waiting] at *
          omega)
      refine ⟨.commit n :: os, log, entries, .cons step run, ?_, fun other => ?_, held'⟩
      · rw [order]
        simp [committed, same]
      · have := counts other
        have := fewer other
        rw [← List.singleton_append, List.count_append]
        simp only [waiting] at *
        omega

/-- Committed commands are delivered in order. -/
theorem deliver_run (p : Program ι) (commands : List Bytes) {s : Storage}
    (running : r.halted i = false)
    (next : commands <+: (committed p.calls r).drop (r.delivered i))
    (adds : p.addBlocksToQueue commands (r.node i) = some s) :
    ∃ os, (p.setup.raft ι).Run r os { r with
      node := Function.update r.node i s
      delivered := Function.update r.delivered i (r.delivered i + commands.length) } := by
  induction commands generalizing r with
  | nil =>
      cases adds
      refine ⟨[], ?_⟩
      rw [Function.update_eq_self, List.length_nil, Nat.add_zero, Function.update_eq_self]
      exact .nil r
  | cons command commands ih =>
      have here : (committed p.calls r)[r.delivered i]? = some command := by
        obtain ⟨rest, whole⟩ := next
        have first : ((committed p.calls r).drop (r.delivered i))[0]? = some command := by
          rw [← whole]
          rfl
        rwa [List.getElem?_drop, Nat.add_zero] at first
      obtain ⟨entry, found, rfl⟩ := Option.map_eq_some_iff.mp
        (List.getElem?_map.symm.trans here)
      rw [Program.addBlocksToQueue, List.foldlM_cons] at adds
      simp only [p.calls.loads_dumps, Option.bind_eq_bind, Option.bind_some] at adds
      cases run : p.setup.addBlockToQueue entry.2 (r.node i) with
      | error e t =>
          rw [run] at adds
          cases adds
      | ok a t =>
          rw [run] at adds
          have delivers : (p.setup.raft ι).step r (.deliver i) { r with
              node := Function.update r.node i t
              delivered := Function.update r.delivered i (r.delivered i + 1) } :=
            ⟨by simpa [Occurrence.thread] using running, entry, found, by
              rw [show p.setup.exec (.deliver entry.2) (r.node i) = .ok a t from run]
              rfl⟩
          have next' : commands <+: (committed p.calls r).drop (r.delivered i + 1) := by
            obtain ⟨rest, whole⟩ := next
            refine ⟨rest, ?_⟩
            rw [← List.tail_drop, ← whole]
            rfl
          obtain ⟨os, rest⟩ := ih (r := { r with
            node := Function.update r.node i t
            delivered := Function.update r.delivered i (r.delivered i + 1) })
            running (by simpa [committed] using next') (by
              change p.addBlocksToQueue commands (Function.update r.node i t i) = some s
              rw [Function.update_self]
              exact adds)
          refine ⟨.deliver i :: os, .cons delivers ?_⟩
          simpa [Nat.add_assoc, Nat.add_comm 1] using rest

/-- What a tick amounts to: the node is elected, proposes, calls what is committed by then,
and falls back. -/
theorem tick_run (p : Program ι) (before elected after : State ι) {clock again : ℚ≥0}
    {more next : List Bytes} {s : Storage} (running : r.halted i = false)
    (held : ∀ e ∈ r.entries, e.copies ≠ []) (forward : clock ≤ again)
    (leads : r.leads i = true ↔ before.raftState = .leader)
    (falls : after.raftState = .leader → elected.raftState = .leader)
    (enough : ∀ command, more.count command ≤ (waiting p.calls r).count command +
      ((if elected.raftState = .leader then
        Storage.proposes clock again (crown before elected (r.node i)) else []).map
          p.calls.dumps).count command)
    (coming : next <+: (committed p.calls r ++ more).drop (r.delivered i))
    (adds : p.addBlocksToQueue next (if elected.raftState = .leader then
      final (leaderTick clock again (crown before elected (r.node i)))
        else crown before elected (r.node i)) = some s) :
    ∃ os log entries, (p.setup.raft ι).Run r os { r with
        log, entries
        node := Function.update r.node i s
        leads := Function.update r.leads i (decide (after.raftState = .leader))
        delivered := Function.update r.delivered i (r.delivered i + next.length) } ∧
      committed p.calls { r with log } = committed p.calls r ++ more ∧
      (∀ command, (waiting p.calls { r with entries }).count command + more.count command =
        (waiting p.calls r).count command + ((if elected.raftState = .leader then
          Storage.proposes clock again (crown before elected (r.node i)) else []).map
            p.calls.dumps).count command) ∧
      ∀ e ∈ entries, e.copies ≠ [] := by
  obtain ⟨os₁, run₁⟩ := role_run p.setup before elected running leads
  obtain ⟨os₂, run₂⟩ := propose_run p.setup elected (i := i) (r := { r with
      node := Function.update r.node i (crown before elected (r.node i))
      leads := Function.update r.leads i (decide (elected.raftState = .leader)) }) running forward
    (by simp)
  simp only [Function.update_self, Function.update_idem] at run₂
  generalize (if elected.raftState = .leader then
    Storage.proposes clock again (crown before elected (r.node i)) else []) = blocks at *
  generalize (if elected.raftState = .leader then
    final (leaderTick clock again (crown before elected (r.node i)))
      else crown before elected (r.node i)) = t at *
  obtain ⟨os₃, log, entries, run₃, order, counts, held'⟩ := commit_run p.setup p.calls more
    (r := { r with
      node := Function.update r.node i t
      leads := Function.update r.leads i (decide (elected.raftState = .leader))
      entries := r.entries ++ blocks.map fun block => ⟨i, block, [i]⟩ })
    (fun e mem => by
      rcases List.mem_append.mp mem with old | new
      · exact held e old
      · obtain ⟨block, -, rfl⟩ := List.mem_map.mp new
        exact List.cons_ne_nil _ _)
    (fun command => by simpa [waiting, Function.comp_def] using enough command)
  obtain ⟨os₄, run₄⟩ := deliver_run p next (i := i) (s := s) (r := { r with
      log, entries
      node := Function.update r.node i t
      leads := Function.update r.leads i (decide (elected.raftState = .leader)) })
    running (by rw [order]; exact coming) (by
      change p.addBlocksToQueue next (Function.update r.node i t i) = some s
      rw [Function.update_self]
      exact adds)
  obtain ⟨os₅, run₅⟩ := role_run p.setup elected after (i := i) (r := { r with
      log, entries
      node := Function.update r.node i s
      leads := Function.update r.leads i (decide (elected.raftState = .leader))
      delivered := Function.update r.delivered i (r.delivered i + next.length) }) running (by simp)
  have uncrowned : crown elected after s = s := if_neg fun crowned => crowned.1 (falls crowned.2)
  simp only [Function.update_self, Function.update_idem, uncrowned] at run₄ run₅
  refine ⟨_, log, entries, run₁.append (run₂.append (run₃.append (run₄.append run₅))), order, ?_,
    held'⟩
  intro command
  simpa [waiting, Function.comp_def] using counts command

end Raft

/-! ### The refinement -/

variable [Fintype ι] {p : Program ι} {c c' : System ι} {es : List (Event ι)} {r : Belcoin.Raft ι}

/-- The network got here by the events `es`, and what it has proposed, committed and
delivered is what the other machine has. All its threads run, since all its ticks have
returned. -/
structure Tracks (p : Program ι) (c : System ι) (es : List (Event ι)) (r : Belcoin.Raft ι) : Prop where
  run : (p.cluster.restrict p.Quiet).Run .initial es c.network
  node : r.node = c.node
  running : ∀ i, r.halted i = false
  leads : ∀ i, r.leads i = true ↔ (c.network.node i).raftState = .leader
  short : ∀ i, r.delivered i ≤ r.log.length
  delivered : ∀ i, (c.network.node i).delivered = (committed p.calls r).take (r.delivered i)
  longest : r.log = [] ∨ ∃ i, r.delivered i = r.log.length
  proposed : ∀ command, (es.filterMap Event.proposal).count command =
    (committed p.calls r).count command + (waiting p.calls r).count command
  held : ∀ e ∈ r.entries, e.copies ≠ []

omit [Fintype ι] in
/-- A message may make a node leader, or depose it. -/
theorem Tracks.message (tracks : Tracks p c es r) (e : Event ι) (dst : ι)
    (plain : e.proposal = none) (quiet : p.Quiet c.network e)
    (steps : p.toDeployment.Steps c.network e c'.network)
    (others : ∀ i, i ≠ dst → c'.network.node i = c.network.node i)
    (applied : (c'.network.node dst).applied = (c.network.node dst).applied)
    (node : c'.node = Function.update c.node dst
      (crown (c.network.node dst) (c'.network.node dst) (c.node dst))) :
    ∃ os r', (p.setup.raft ι).Run r os r' ∧ Tracks p c' (es ++ [e]) r' := by
  obtain ⟨os, run⟩ := role_run p.setup _ (c'.network.node dst) (tracks.running dst) (tracks.leads dst)
  refine ⟨os, _, run, ?_⟩
  have calls : ∀ i, (c'.network.node i).delivered = (c.network.node i).delivered := by
    intro i
    by_cases here : i = dst
    · subst here
      rw [State.delivered, applied, State.delivered]
    · rw [others i here]
  exact
    { run := tracks.run.append (.single ⟨quiet, steps⟩)
      node := by rw [node, tracks.node]
      running := tracks.running
      leads := by
        intro i
        by_cases here : i = dst
        · subst here
          simp
        · simp only [Function.update_of_ne here, others i here]
          exact tracks.leads i
      short := tracks.short
      delivered := fun i => (calls i).trans (tracks.delivered i)
      longest := tracks.longest
      proposed := by
        intro command
        rw [List.filterMap_append, List.filterMap_cons_none plain, List.filterMap_nil, List.append_nil]
        exact tracks.proposed command
      held := tracks.held }

omit [Fintype ι] in
theorem Tracks.called (tracks : Tracks p c es r) (i : ι) :
    (c.network.node i).delivered.length = r.delivered i := by
  rw [tracks.delivered i, List.length_take, min_eq_left]
  simpa [committed] using tracks.short i

/-- What a node calls after a step is committed, or follows what is. -/
theorem Tracks.ahead (small : p.conf.Fits .noOp) (tracks : Tracks p c es r) {es' : List (Event ι)}
    {network : Network ι} (run : (p.cluster.restrict p.Quiet).Run c.network es' network) (i : ι) :
    ∃ more, (network.node i).delivered <+: committed p.calls r ++ more ∧
      (more ≠ [] → (network.node i).delivered = committed p.calls r ++ more) ∧
      ∀ command, more.count command ≤
        (waiting p.calls r).count command + (es'.filterMap Event.proposal).count command := by
  have counts : ∀ command, (network.node i).delivered.count command ≤
      (committed p.calls r).count command + (waiting p.calls r).count command +
        (es'.filterMap Event.proposal).count command := by
    intro command
    have total := count_delivered_le small ((tracks.run.append run).weaken fun _ _ quiet => quiet.1)
      i command
    rw [List.filterMap_append, List.count_append, tracks.proposed] at total
    exact total
  have follows : ∀ more, (network.node i).delivered = committed p.calls r ++ more →
      ∃ more, (network.node i).delivered <+: committed p.calls r ++ more ∧
      (more ≠ [] → (network.node i).delivered = committed p.calls r ++ more) ∧
      ∀ command, more.count command ≤
        (waiting p.calls r).count command + (es'.filterMap Event.proposal).count command := by
    intro more whole
    refine ⟨more, by rw [whole], fun _ => whole, fun command => ?_⟩
    have total := counts command
    rw [whole, List.count_append] at total
    omega
  rcases tracks.longest with empty | ⟨j, full⟩
  · have nothing : committed p.calls r = [] := by rw [committed, empty, List.map_nil]
    exact follows _ (by rw [nothing, List.nil_append])
  · have all : (c.network.node j).delivered = committed p.calls r := by
      rw [tracks.delivered j, full, List.take_of_length_le (by simp [committed])]
    rcases applied_comparable small ((Machine.Reachable.start rfl).run tracks.run) run j i with
      before | after
    · obtain ⟨more, whole⟩ := before.filterMap fun entry => doApplyCommand entry.command
      rw [show (c.network.node j).applied.filterMap _ = committed p.calls r from all] at whole
      exact follows more whole.symm
    · refine ⟨[], ?_, fun some => absurd rfl some, fun command => by simp⟩
      rw [List.append_nil, ← all]
      exact after.filterMap _

/-- For the network, a node that proposes has proposed before its tick. -/
theorem tick_events {i : ι} {tick : Tick ι} {elected sync' : State ι} {requests sent : Outbox ι}
    {commands : List Bytes} (fits : ∀ command ∈ commands, p.conf.Fits (.regular command))
    (elects : (p.env i).checkElection tick (c.network.node i) = some (elected, requests))
    (finishes : (p.env i).finishTick tick ((p.env i).enqueue commands elected) = some (sync', sent))
    (unsplit : p.Unsplit c.network (.tick i tick)) :
    (p.cluster.restrict p.Quiet).Run c.network (commands.map (.propose i) ++ [.tick i tick])
      (c.network.put i sync' (requests ++ sent)) := by
  obtain ⟨queue, enqueues⟩ := enqueue_eq (p.env i) commands
  refine (enqueue_run fits).append (.single ⟨⟨trivial, ?_, trivial⟩, sync', requests ++ sent, ?_, ?_⟩)
  · intro leads j mem
    rw [node_put_self, enqueues] at leads ⊢
    exact unsplit leads j mem
  · rw [node_put_self, onTick_enqueue commands elects, finishes]
    rfl
  · rw [put_nil_put]

/-- **A tick**: the node may become leader, propose a block, commit and call, and fall back. -/
theorem Tracks.tick (small : p.conf.Fits .noOp) (tracks : Tracks p c es r) {i : ι} {tick : Tick ι}
    {clock again : ℚ≥0} (calm : p.Calm c (.tick i tick clock again))
    (steps : p.Steps c (.tick i tick clock again) c') :
    ∃ es' os r', (p.setup.raft ι).Run r os r' ∧ Tracks p c' (es ++ es') r' := by
  obtain ⟨forward, sync', out, s', returns, rfl⟩ := steps
  obtain ⟨elected, requests, sent, next, blocks, elects, proposes, finishes, rfl, calls, adds⟩ :=
    Program.onTick_cases returns
  rw [← tracks.node] at proposes adds
  obtain ⟨queue, enqueues⟩ := enqueue_eq (p.env i) (blocks.map p.calls.dumps)
  have fits := proposes_fit proposes (by rw [tracks.node]; exact calm.1)
  have run := tick_events fits elects finishes calm.2
  obtain ⟨more, ahead, whole, enough⟩ := tracks.ahead small run i
  rw [proposals_eq] at enough
  rw [node_put_self] at ahead whole
  have place := tracks.called i
  have coming : next <+: (committed p.calls r ++ more).drop (r.delivered i) := by
    obtain ⟨rest, all⟩ := ahead
    refine ⟨rest, ?_⟩
    rw [← all, ← calls, ← place, List.append_assoc, List.drop_left]
  obtain ⟨os, log, entries, moves, order, counts, held⟩ := tick_run p _ elected sync'
    (tracks.running i) tracks.held forward (tracks.leads i)
    (fun leads => by
      have role := finishTick_role finishes leads
      rwa [enqueues] at role)
    (by rw [← proposes]; exact enough) coming adds
  rw [← proposes] at counts
  have calls' : sync'.delivered.length = r.delivered i + next.length := by
    rw [← calls, List.length_append, place]
  have longer : log.length = r.log.length + more.length := by
    have lengths := congrArg List.length order
    simpa [committed] using lengths
  have inside : r.delivered i + next.length ≤ log.length := by
    have short := ahead.length_le
    rw [← order, calls'] at short
    simpa [committed] using short
  refine ⟨(blocks.map p.calls.dumps).map (.propose i) ++ [.tick i tick], os, _, moves, ?_⟩
  exact
    { run := tracks.run.append run
      node := by rw [tracks.node]
      running := tracks.running
      leads := by
        intro j
        by_cases here : j = i
        · subst here
          simp
        · simp only [Function.update_of_ne here, node_put_ne c.network here]
          exact tracks.leads j
      short := by
        intro j
        by_cases here : j = i
        · subst here
          simpa using inside
        · simp only [Function.update_of_ne here, longer]
          exact (tracks.short j).trans (Nat.le_add_right _ _)
      delivered := by
        intro j
        change _ = List.take _ (committed p.calls { r with log })
        rw [order]
        by_cases here : j = i
        · subst here
          simp only [node_put_self, Function.update_self, ← calls']
          exact List.prefix_iff_eq_take.mp ahead
        · simp only [Function.update_of_ne here, node_put_ne c.network here]
          rw [List.take_append_of_le_length (by simpa [committed] using tracks.short j)]
          exact tracks.delivered j
      longest := by
        by_cases none : more = []
        · rw [none, List.length_nil, Nat.add_zero] at longer
          rcases tracks.longest with empty | ⟨j, full⟩
          · refine .inl (List.length_eq_zero_iff.mp ?_)
            rw [longer, empty, List.length_nil]
          · refine .inr ⟨j, ?_⟩
            by_cases here : j = i
            · subst here
              simp only [Function.update_self]
              omega
            · simp only [Function.update_of_ne here]
              omega
        · refine .inr ⟨i, ?_⟩
          have all := congrArg List.length (whole none)
          rw [calls', ← order] at all
          simpa [committed] using all
      proposed := by
        intro command
        rw [List.filterMap_append, List.count_append, proposals_eq, tracks.proposed]
        have rest := counts command
        change _ = (committed p.calls { r with log }).count command +
          (waiting p.calls { r with entries }).count command
        rw [order, List.count_append]
        omega
      held := held }

theorem Tracks.step (small : p.conf.Fits .noOp) (tracks : Tracks p c es r) {o : Occasion ι}
    (calm : p.Calm c o) (steps : p.Steps c o c') :
    ∃ es' os r', (p.setup.raft ι).Run r os r' ∧ Tracks p c' (es ++ es') r' := by
  cases o with
  | tick i tick clock again => exact tracks.tick small calm steps
  | deliver src dst passes =>
      obtain ⟨steps, node⟩ := steps
      obtain ⟨packet, rest, sync', out, head, receives, same⟩ := id steps
      refine ⟨_, tracks.message (.deliver src dst passes) dst rfl ⟨trivial, trivial, calm⟩ steps
        (fun i other => ?_) ?_ node⟩
      · rw [same, node_put_ne _ other, node_setLink]
      · rw [same, node_put_self]
        exact onMessageReceived_applied receives
  | lose src dst n =>
      obtain ⟨steps, node⟩ := steps
      have same : c'.network.node = c.network.node := by
        rw [show c'.network = _ from steps]
        rfl
      refine ⟨_, tracks.message (.lose src dst n) dst rfl ⟨trivial, trivial, trivial⟩ steps
        (fun i _ => by rw [same]) (by rw [same]) ?_⟩
      rw [same, crown, if_neg fun crowned => crowned.1 crowned.2, Function.update_eq_self, node]
  | act i a =>
      obtain ⟨local', network, node⟩ := steps
      refine ⟨[], [.act i a], _, .single ⟨by simp [Occurrence.thread], local', rfl⟩, ?_⟩
      rw [List.append_nil]
      exact { tracks with
        run := network ▸ tracks.run
        node := by rw [node, tracks.node]
        leads := network ▸ tracks.leads
        delivered := network ▸ tracks.delivered }

/-- The runs of the program, with what they are runs of. -/
theorem tracks_reachable (small : p.conf.Fits .noOp)
    (reached : (p.system.restrict p.Calm).Reachable c) :
    ∃ es r, (p.setup.raft ι).Reachable r ∧ Tracks p c es r := by
  induction reached with
  | @start c first =>
      obtain ⟨network, nodes⟩ := first
      refine ⟨[], ⟨c.node, fun _ => false, [], [], fun _ => 0, fun _ => false⟩, .start ⟨rfl, rfl,
        fun i => ⟨nodes i, rfl, rfl⟩⟩, ?_⟩
      constructor
      · rw [network]
        exact .nil _
      · rfl
      · exact fun _ => rfl
      · intro i
        rw [network]
        simp [Network.initial, State.initial]
      · exact fun _ => le_rfl
      · intro i
        rw [network]
        rfl
      · exact .inl rfl
      · exact fun _ => rfl
      · exact fun e mem => by cases mem
  | step _ moves ih =>
      obtain ⟨es, r, reached, tracks⟩ := ih
      obtain ⟨es', os, r', run, tracks'⟩ := tracks.step small moves.1 moves.2
      exact ⟨_, r', reached.run run, tracks'⟩

/-- **The program is a run over Raft.** As long as its ticks return, whatever its messages
and logs do, its nodes are those of a machine that commits proposals in one order and
delivers them in that order: each node is where that machine's is, leads when it does, and
has been called with a start of what is committed. -/
theorem program_refines_raft (small : p.conf.Fits .noOp)
    (reached : (p.system.restrict p.Calm).Reachable c) :
    ∃ r, (p.setup.raft ι).Reachable r ∧ r.node = c.node ∧ (∀ i, r.halted i = false) ∧
      (∀ i, r.leads i = true ↔ (c.network.node i).raftState = .leader) ∧
      ∀ i, r.delivered i ≤ r.log.length ∧ (c.network.node i).delivered =
        (r.log.take (r.delivered i)).map fun entry => p.calls.dumps entry.2 := by
  obtain ⟨es, r, reached, tracks⟩ := tracks_reachable small reached
  refine ⟨r, reached, tracks.node, tracks.running, tracks.leads, fun i => ⟨tracks.short i, ?_⟩⟩
  rw [tracks.delivered i, committed, List.map_take]

/-- One node leads, and both have been called with its block. -/
theorem program_refines_raft_pair : ∃ (c : System Bool) (r : Belcoin.Raft Bool),
    (c.node false).blockQueue = [blockOf minting 100] ∧ (Ideal.small.raft Bool).Reachable r ∧
    r.node = c.node ∧ (∀ i, r.halted i = false) ∧
    (∀ i, r.leads i = true ↔ (c.network.node i).raftState = .leader) ∧
    ∀ i, r.delivered i ≤ r.log.length ∧ (c.network.node i).delivered =
      (r.log.take (r.delivered i)).map fun entry =>
        (pairProgram (blockOf minting 100)).calls.dumps entry.2 := by
  obtain ⟨c, reached, -, nodes⟩ := pairProgram_shares minting_distinct minting_full
    (D := fun _ _ => True) (fun _ _ _ _ => trivial) fun _ _ _ _ => trivial
  obtain ⟨r, raft⟩ := program_refines_raft (p := pairProgram (blockOf minting 100)) (by decide)
    (reached.weaken fun _ _ holds => holds.1)
  obtain ⟨-, tickctr, here⟩ := nodes false
  exact ⟨c, r, by rw [here]; rfl, raft⟩

end Belcoin.SyncObj
