import Belcoin.SyncObj.Steps

/-!
What holds in every run of a cluster whose commands fit a batch.

* `refines_consensus` — the cluster is a machine of replicated logs with elections.
* `election_safety`, `leader_append_only` — a term has one leader, whose log only grows.
* `promises_kept` — a node never goes back to an earlier term and votes once in each.
* `logs_sorted`, `log_matching` — logs are numbered without a gap, their terms never
  decrease, and entries with one index and term have the same entries before them.
* `never_raises` — the handlers return.

Of a crash and a restart nothing is said: the program keeps its log in memory.
-/

namespace Belcoin.SyncObj

open Consensus Network Deployment

variable {ι : Type} [Fintype ι] [DecidableEq ι] {d : Deployment ι} {c c' : Network ι}
  {es : List (Event ι)}

/-! ### Runs and their histories -/

/-- A step goes along with a history that grows. -/
theorem step_related (small : d.conf.Fits .noOp) {e : Event ι} (sized : d.Sized c e)
    (steps : d.Steps c e c') {h : History ι Entry} (related : Related d c h) :
    ∃ as h', (machine Entry.term ι firstEntry).Run h as h' ∧ Related d c' h' := by
  rcases cluster_protocol False small ⟨h, related⟩ False.elim steps with
    does | ⟨i, command, rfl, moves⟩
  · exact does.related small related
  · have fitting : d.Fitting (.propose i command) := fun _ same => by
      cases same
      exact sized
    exact ⟨_, _, related.moves small fitting moves⟩

theorem run_related (small : d.conf.Fits .noOp)
    (run : (d.cluster.restrict d.Sized).Run c es c') {h : History ι Entry} (related : Related d c h) :
    ∃ as h', (machine Entry.term ι firstEntry).Run h as h' ∧ Related d c' h' := by
  induction run generalizing h with
  | nil => exact ⟨[], h, .nil h, related⟩
  | cons moves _ ih =>
      obtain ⟨as, h', run, related'⟩ := step_related small moves.1 moves.2 related
      obtain ⟨bs, h'', run', related''⟩ := ih related'
      exact ⟨as ++ bs, h'', run.append run', related''⟩

theorem reachable_related (small : d.conf.Fits .noOp)
    (reached : (d.cluster.restrict d.Sized).Reachable c) :
    ∃ h, (machine Entry.term ι firstEntry).Reachable h ∧ Related d c h := by
  induction reached with
  | start first =>
      obtain rfl := first
      exact ⟨_, .start rfl, .initial small⟩
  | step _ moves ih =>
      obtain ⟨h, reached, related⟩ := ih
      obtain ⟨as, h', run, related'⟩ := run_related small (.cons moves (.nil _)) related
      exact ⟨h', reached.run run, related'⟩

/-- A state and a later one, with their histories. -/
theorem run_grows_related (small : d.conf.Fits .noOp)
    (reached : (d.cluster.restrict d.Sized).Reachable c)
    (run : (d.cluster.restrict d.Sized).Run c es c') :
    ∃ h h', Related d c h ∧ Related d c' h' ∧ h.Grows h' := by
  obtain ⟨h, -, related⟩ := reachable_related small reached
  obtain ⟨as, h', run', related'⟩ := run_related small run related
  exact ⟨h, h', related, related', run_grows run'⟩

/-! ### A cluster of two -/

/-- Two nodes, and the default configuration. -/
def pair : Deployment Bool where
  nodes i := [!i]
  nodup _ := List.nodup_singleton _
  mem_nodes i j := by cases i <;> cases j <;> simp
  conf := ⟨2 ^ 20, 100000, true⟩
  pickle := ⟨fun entry => entry.command.toBytes, fun data => some ⟨.regular data.tail, 0, 0⟩⟩

/-- A tick of a node that hears from the others. -/
def calmTick : Tick Bool where
  election := false
  elected _ := some 0
  responding _ := true
  due := true
  passes _ := some 0
  commands := 1

/-- One of two nodes is elected. -/
def elect : List (Event Bool) :=
  [.tick true { calmTick with election := true }, .deliver true false fun _ => some 0,
    .deliver false true fun _ => some 0]

/-- The leader logs a command and sends it on, until both have applied it. -/
def serve : List (Event Bool) :=
  [.deliver true false fun _ => some 0, .propose true [7], .tick true calmTick,
    .tick true calmTick, .deliver true false fun _ => some 0, .deliver true false fun _ => some 0,
    .deliver false true fun _ => some 0, .deliver false true fun _ => some 0,
    .deliver false true fun _ => some 0, .tick true calmTick, .deliver true false fun _ => some 0,
    .deliver false true fun _ => some 0, .tick true calmTick, .tick true calmTick,
    .deliver true false fun _ => some 0, .deliver true false fun _ => some 0, .tick false calmTick]

/-- What is seen of a cluster of two. -/
structure Sight where
  roles : RaftState × RaftState
  terms : Nat × Nat
  votes : Option Bool × Option Bool
  logs : RaftLog × RaftLog
  applied : List Entry × List Entry
  deriving DecidableEq

def look (c : Network Bool) : Sight where
  roles := ((c.node true).raftState, (c.node false).raftState)
  terms := ((c.node true).raftCurrentTerm, (c.node false).raftCurrentTerm)
  votes := ((c.node true).votedFor, (c.node false).votedFor)
  logs := ((c.node true).raftLog, (c.node false).raftLog)
  applied := ((c.node true).applied, (c.node false).applied)

/-- The log with the leader's no-op and the command. -/
def served : RaftLog :=
  ⟨firstEntry, [⟨.noOp, 2, 1⟩, ⟨.regular [7], 3, 1⟩]⟩

theorem pair_runs : ∃ c c', (pair.cluster.restrict pair.Sized).Run .initial elect c ∧
    (pair.cluster.restrict pair.Sized).Run c serve c' ∧
    look c = ⟨(.leader, .follower), (1, 1), (some true, some true),
      (⟨firstEntry, [⟨.noOp, 2, 1⟩]⟩, ⟨firstEntry, []⟩), ([], [])⟩ ∧
    look c' = ⟨(.leader, .follower), (1, 1), (some true, some true), (served, served),
      (served.rest, served.rest)⟩ :=
  pair.runs (by decide +kernel)

/-- **Refinement.** Whatever the cluster does, its terms, votes and logs are those of a
machine of replicated logs with elections. -/
theorem refines_consensus (small : d.conf.Fits .noOp)
    (reached : (d.cluster.restrict d.Sized).Reachable c) :
    ∃ h, (machine Entry.term ι firstEntry).Reachable h ∧ ∀ i,
      h.term i = (c.node i).raftCurrentTerm ∧ h.log i = (c.node i).raftLog.toList ∧
      (h.ballot (h.term i) i).map Prod.fst = (c.node i).votedFor ∧
      ((c.node i).raftState = .leader → h.Elected (h.term i) i ∧ h.led (h.term i) = h.log i) := by
  obtain ⟨h, written, related⟩ := reachable_related small reached
  refine ⟨h, written, fun i => ?_⟩
  have node := related.nodes i
  exact ⟨node.term, node.log, node.vote, node.leader⟩

theorem refines_consensus_pair : ∃ c : Network Bool, (c.node true).raftState = .leader ∧
    ∃ h, (machine Entry.term Bool firstEntry).Reachable h ∧ ∀ i,
      h.term i = (c.node i).raftCurrentTerm ∧ h.log i = (c.node i).raftLog.toList ∧
      (h.ballot (h.term i) i).map Prod.fst = (c.node i).votedFor ∧
      ((c.node i).raftState = .leader → h.Elected (h.term i) i ∧ h.led (h.term i) = h.log i) := by
  obtain ⟨c, -, run, -, seen, -⟩ := pair_runs
  exact ⟨c, congrArg (fun sight => sight.roles.1) seen,
    refines_consensus (by decide) ((Machine.Reachable.start rfl).run run)⟩

/-! ### Leaders -/

/-- **A term has one leader**, now and later. -/
theorem election_safety (small : d.conf.Fits .noOp)
    (reached : (d.cluster.restrict d.Sized).Reachable c)
    (run : (d.cluster.restrict d.Sized).Run c es c') {i j : ι}
    (leads : (c.node i).raftState = .leader) (leads' : (c'.node j).raftState = .leader)
    (term : (c.node i).raftCurrentTerm = (c'.node j).raftCurrentTerm) : i = j := by
  obtain ⟨h, h', related, related', grows⟩ := run_grows_related small reached run
  obtain ⟨elected, -⟩ := (related.nodes i).leader leads
  obtain ⟨elected', -⟩ := (related'.nodes j).leader leads'
  rw [(related'.nodes j).term, ← term, ← (related.nodes i).term] at elected'
  exact (elected.grows grows).unique elected'

theorem election_safety_pair : ∃ c c', (pair.cluster.restrict pair.Sized).Run c serve c' ∧
    (c.node true).raftState = .leader ∧ ∀ j, (c'.node j).raftState = .leader →
      (c.node true).raftCurrentTerm = (c'.node j).raftCurrentTerm → true = j := by
  obtain ⟨c, c', run, run', seen, -⟩ := pair_runs
  have leads := congrArg (fun sight => sight.roles.1) seen
  exact ⟨c, c', run', leads, fun j leads' term => election_safety (by decide)
    ((Machine.Reachable.start rfl).run run) run' leads leads' term⟩

/-- **A leader never takes anything back**: as long as it leads a term, its log only grows,
even if it has fallen back in between. -/
theorem leader_append_only (small : d.conf.Fits .noOp)
    (reached : (d.cluster.restrict d.Sized).Reachable c)
    (run : (d.cluster.restrict d.Sized).Run c es c') {i : ι}
    (leads : (c.node i).raftState = .leader) (leads' : (c'.node i).raftState = .leader)
    (term : (c.node i).raftCurrentTerm = (c'.node i).raftCurrentTerm) :
    (c.node i).raftLog.toList <+: (c'.node i).raftLog.toList := by
  obtain ⟨h, h', related, related', grows⟩ := run_grows_related small reached run
  obtain ⟨-, whole⟩ := (related.nodes i).leader leads
  obtain ⟨-, whole'⟩ := (related'.nodes i).leader leads'
  have longer := grows.led (h.term i)
  rw [whole, (related.nodes i).log, (related.nodes i).term, term, ← (related'.nodes i).term, whole',
    (related'.nodes i).log] at longer
  exact longer

theorem leader_append_only_pair : ∃ c c', (pair.cluster.restrict pair.Sized).Run c serve c' ∧
    (c.node true).raftState = .leader ∧
    (c.node true).raftLog.toList <+: (c'.node true).raftLog.toList := by
  obtain ⟨c, c', run, run', seen, seen'⟩ := pair_runs
  have leads := congrArg (fun sight => sight.roles.1) seen
  have leads' := congrArg (fun sight => sight.roles.1) seen'
  have term := (congrArg (fun sight => sight.terms.1) seen).trans
    (congrArg (fun sight => sight.terms.1) seen').symm
  exact ⟨c, c', run', leads, leader_append_only (by decide) ((Machine.Reachable.start rfl).run run)
    run' leads leads' term⟩

/-- **A node keeps its promises**: its term does not decrease, and its vote in a term is
for good. -/
theorem promises_kept (small : d.conf.Fits .noOp)
    (reached : (d.cluster.restrict d.Sized).Reachable c)
    (run : (d.cluster.restrict d.Sized).Run c es c') (i : ι) :
    (c.node i).raftCurrentTerm ≤ (c'.node i).raftCurrentTerm ∧
      ((c.node i).raftCurrentTerm = (c'.node i).raftCurrentTerm → (c.node i).votedFor ≠ none →
        (c'.node i).votedFor = (c.node i).votedFor) := by
  obtain ⟨h, h', related, related', grows⟩ := run_grows_related small reached run
  have node := related.nodes i
  have node' := related'.nodes i
  refine ⟨node.term ▸ node'.term ▸ grows.term i, fun same voted => ?_⟩
  rw [← node.vote] at voted ⊢
  rw [← node'.vote, node'.term, ← same, ← node.term]
  cases cast : h.ballot (h.term i) i with
  | none => exact absurd (by rw [cast]; rfl) voted
  | some b => rw [grows.ballot _ _ _ cast]

theorem promises_kept_pair : ∃ c c', (pair.cluster.restrict pair.Sized).Run c serve c' ∧
    (c.node false).votedFor = some true ∧
    (c.node false).raftCurrentTerm ≤ (c'.node false).raftCurrentTerm ∧
      ((c.node false).raftCurrentTerm = (c'.node false).raftCurrentTerm →
        (c.node false).votedFor ≠ none → (c'.node false).votedFor = (c.node false).votedFor) := by
  obtain ⟨c, c', run, run', seen, -⟩ := pair_runs
  exact ⟨c, c', run', congrArg (fun sight => sight.votes.2) seen,
    promises_kept (by decide) ((Machine.Reachable.start rfl).run run) run' false⟩

/-! ### Logs -/

/-- **Logs are in order.** The entries are numbered from 1, no entry is from an earlier term
than the one before it, and none is from a term that the node has not reached. -/
theorem logs_sorted (small : d.conf.Fits .noOp)
    (reached : (d.cluster.restrict d.Sized).Reachable c) (i : ι) :
    Indexed (c.node i).raftLog.toList ∧
      (c.node i).raftLog.toList.Pairwise (fun entry later => entry.term ≤ later.term) ∧
      ∀ entry ∈ (c.node i).raftLog.toList, entry.term ≤ (c.node i).raftCurrentTerm := by
  obtain ⟨h, -, related⟩ := reachable_related small reached
  have node := related.nodes i
  refine ⟨node.indexed, ?_, ?_⟩
  · -- what comes before an entry is in the log of the leader of its term
    rw [← node.log, List.pairwise_iff_getElem]
    intro k l before last earlier
    have part := related.grounded.logs i l _ (List.getElem?_eq_getElem last)
    refine related.grounded.ledTerm _ _ (part.mem ?_)
    rw [← List.getElem_take (j := l + 1) (h := by simp only [List.length_take]; omega)]
    exact List.getElem_mem _
  · intro entry mem
    rw [← node.log] at mem
    rw [← node.term]
    exact related.grounded.logTerm i entry mem

theorem logs_sorted_pair : ∃ c : Network Bool, (c.node false).raftLog = served ∧
    Indexed (c.node false).raftLog.toList ∧
      (c.node false).raftLog.toList.Pairwise (fun entry later => entry.term ≤ later.term) ∧
      ∀ entry ∈ (c.node false).raftLog.toList, entry.term ≤ (c.node false).raftCurrentTerm := by
  obtain ⟨c, c', run, run', -, seen'⟩ := pair_runs
  exact ⟨c', congrArg (fun sight => sight.logs.2) seen',
    logs_sorted (by decide) ((Machine.Reachable.start rfl).run (run.append run')) false⟩

/-- **Logs match**: entries with one index and term come after the same entries. -/
theorem log_matching (small : d.conf.Fits .noOp)
    (reached : (d.cluster.restrict d.Sized).Reachable c) {i j : ι} {entry entry' : Entry}
    (mem : entry ∈ (c.node i).raftLog.toList) (mem' : entry' ∈ (c.node j).raftLog.toList)
    (idx : entry.idx = entry'.idx) (term : entry.term = entry'.term) :
    (c.node i).raftLog.toList.take entry.idx = (c.node j).raftLog.toList.take entry.idx := by
  obtain ⟨h, -, related⟩ := reachable_related small reached
  obtain ⟨k, here⟩ := List.mem_iff_getElem?.mp mem
  obtain ⟨l, there⟩ := List.mem_iff_getElem?.mp mem'
  have place := (related.nodes i).indexed k entry here
  have place' := (related.nodes j).indexed l entry' there
  obtain rfl : k = l := by omega
  rw [← (related.nodes i).log] at here ⊢
  rw [← (related.nodes j).log] at there ⊢
  rw [place]
  exact (related.grounded.logs i).matching (related.grounded.logs j) here there term

theorem log_matching_pair : ∃ c : Network Bool, (c.node true).raftLog = served ∧
    (c.node true).raftLog.toList.take 3 = (c.node false).raftLog.toList.take 3 := by
  obtain ⟨c, c', run, run', -, seen'⟩ := pair_runs
  have log : (c'.node true).raftLog = served := congrArg (fun sight => sight.logs.1) seen'
  have log' : (c'.node false).raftLog = served := congrArg (fun sight => sight.logs.2) seen'
  have last : (⟨.regular [7], 3, 1⟩ : Entry) ∈ served.toList := by decide
  exact ⟨c', log, log_matching (by decide) ((Machine.Reachable.start rfl).run (run.append run'))
    (log.symm ▸ last) (log'.symm ▸ last) rfl rfl⟩

/-- **Nothing is raised.** Every tick returns, and every message that can arrive is handled. -/
theorem never_raises (small : d.conf.Fits .noOp)
    (reached : (d.cluster.restrict d.Sized).Reachable c) :
    (∀ i tick, ((d.env i).onTick tick (c.node i)).isSome) ∧
      ∀ src dst passes, ∀ p ∈ (c.link src dst).head?,
        ((d.env dst).onMessageReceived passes src p.message (c.node dst)).isSome := by
  obtain ⟨h, -, related⟩ := reachable_related small reached
  constructor
  · intro i tick
    obtain ⟨s, out, returns, -⟩ := tick_runs False (i := i) small tick ⟨h, related⟩
      False.elim
    rw [returns]
    rfl
  · intro src dst passes p first
    obtain ⟨rest, head⟩ := List.head?_eq_some_iff.mp first
    obtain ⟨s, out, returns, -⟩ := receive_runs False small passes ⟨h, related⟩ head
      False.elim
    rw [returns]
    rfl

theorem never_raises_pair : ∃ c : Network Bool, (c.node true).raftState = .leader ∧
    (∀ i tick, ((pair.env i).onTick tick (c.node i)).isSome) ∧
      ∀ src dst passes, ∀ p ∈ (c.link src dst).head?,
        ((pair.env dst).onMessageReceived passes src p.message (c.node dst)).isSome := by
  obtain ⟨c, -, run, -, seen, -⟩ := pair_runs
  exact ⟨c, congrArg (fun sight => sight.roles.1) seen,
    never_raises (by decide) ((Machine.Reachable.start rfl).run run)⟩

end Belcoin.SyncObj
