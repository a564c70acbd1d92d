import Belcoin.SyncObj.Matching

/-!
The handlers of a node, one thing at a time.

`tick_runs` and `receive_runs` say of the two handlers that they return and that what they
do is a run of `Deployment.protocol`, from any cluster that is related to a history
(`cluster_protocol`). So what every move of the protocol keeps, every step of the cluster
keeps, and no handler raises (`never_raises`).

The protocol's moves may be asked to meet a condition more (`Calm`), if the events do
(`Unsplit` and `Fresh`): a leader's messages have room for all that it has to send, and no
reply is from a term before.
-/

namespace Belcoin.SyncObj

open Consensus Network

variable {ι : Type} [Fintype ι] [DecidableEq ι]

/-! ### Conditions on a step -/

def Message.IsNextNodeIdx : Message → Prop
  | .nextNodeIdx _ _ _ => True
  | _ => False

instance (m : Message) : Decidable m.IsNextNodeIdx :=
  match m with
  | .requestVote _ _ _ => inferInstanceAs (Decidable False)
  | .responseVote _ => inferInstanceAs (Decidable False)
  | .appendEntries _ _ _ => inferInstanceAs (Decidable False)
  | .nextNodeIdx _ _ _ => inferInstanceAs (Decidable True)
  | .applyCommand _ => inferInstanceAs (Decidable False)

/-- A reply that reaches a leader is from its term. -/
def Network.Fresh (c : Network ι) : Event ι → Prop
  | .deliver src dst _ => (c.node dst).raftState = .leader → ∀ p ∈ (c.link src dst).head?,
      p.message.IsNextNodeIdx → p.term = (c.node dst).raftCurrentTerm
  | _ => True

instance (c : Network ι) (e : Event ι) : Decidable (c.Fresh e) :=
  match e with
  | .tick _ _ => inferInstanceAs (Decidable True)
  | .deliver src dst _ => inferInstanceAs (Decidable ((c.node dst).raftState = .leader →
      ∀ p ∈ (c.link src dst).head?, p.message.IsNextNodeIdx →
        p.term = (c.node dst).raftCurrentTerm))
  | .lose _ _ _ => inferInstanceAs (Decidable True)
  | .propose _ _ => inferInstanceAs (Decidable True)

namespace Deployment

variable (d : Deployment ι)

/-- What a leader sends has room for all that comes after, and what it is told is of its
term. -/
def Calm (c : Network ι) : Move ι → Prop
  | .pass i j => bytesOf ((c.node i).raftLog.toList.drop ((c.node i).raftNextIndex j - 1)) <
      d.conf.appendEntriesBatchSizeBytes
  | .response src dst => ∀ p ∈ (c.link src dst).head?,
      (c.node dst).raftState = .leader → p.term = (c.node dst).raftCurrentTerm
  | _ => True

/-- What a node does on its own, calmly if that is asked for. -/
def Usual (calm : Prop) (c : Network ι) (a : Move ι) : Prop :=
  a.proposal = none ∧ (calm → d.Calm c a)

/-- Only commands that fit a batch are proposed. -/
def Sized : Network ι → Event ι → Prop
  | _, .propose _ command => d.conf.Fits (.regular command)
  | _, _ => True

/-- What a leader has to send to a node is smaller than a batch. -/
def Unsplit (c : Network ι) : Event ι → Prop
  | .tick i _ => (c.node i).raftState = .leader → ∀ j ∈ d.nodes i,
      bytesOf ((c.node i).raftLog.getEntries (some ((c.node i).raftNextIndex j)) none none) <
        d.conf.appendEntriesBatchSizeBytes
  | _ => True

instance (c : Network ι) (e : Event ι) : Decidable (d.Sized c e) :=
  match e with
  | .tick _ _ => inferInstanceAs (Decidable True)
  | .deliver _ _ _ => inferInstanceAs (Decidable True)
  | .lose _ _ _ => inferInstanceAs (Decidable True)
  | .propose _ command => inferInstanceAs (Decidable (d.conf.Fits (.regular command)))

instance (c : Network ι) (e : Event ι) : Decidable (d.Unsplit c e) :=
  match e with
  | .tick i _ => inferInstanceAs (Decidable ((c.node i).raftState = .leader → ∀ j ∈ d.nodes i,
      bytesOf ((c.node i).raftLog.getEntries (some ((c.node i).raftNextIndex j)) none none) <
        d.conf.appendEntriesBatchSizeBytes))
  | .deliver _ _ _ => inferInstanceAs (Decidable True)
  | .lose _ _ _ => inferInstanceAs (Decidable True)
  | .propose _ _ => inferInstanceAs (Decidable True)

/-- Nodes get from one cluster to the other. -/
def Does (calm : Prop) (c c' : Network ι) : Prop :=
  ∃ as, (d.protocol.restrict (d.Usual calm)).Run c as c'

/-- The cluster is related to some history. -/
def Sound (c : Network ι) : Prop :=
  ∃ h, Related d c h

end Deployment

open Deployment

variable {d : Deployment ι} {calm : Prop} {c c' c'' : Network ι}

namespace Deployment

omit [Fintype ι] in
theorem Does.refl (c : Network ι) : d.Does calm c c :=
  ⟨[], .nil c⟩

omit [Fintype ι] in
theorem Does.trans (first : d.Does calm c c') (second : d.Does calm c' c'') :
    d.Does calm c c'' := by
  obtain ⟨as, run⟩ := first
  obtain ⟨bs, run'⟩ := second
  exact ⟨as ++ bs, run.append run'⟩

omit [Fintype ι] in
theorem Does.move {a : Move ι} (usual : d.Usual calm c a) (moves : d.Moves c a c') :
    d.Does calm c c' :=
  ⟨[a], .cons ⟨usual, moves⟩ (.nil _)⟩

/-- What the protocol does is what the histories' machine does. -/
theorem Does.related (small : d.conf.Fits .noOp) (does : d.Does calm c c') {h : History ι Entry}
    (related : Related d c h) :
    ∃ as h', (machine Entry.term ι firstEntry).Run h as h' ∧ Related d c' h' := by
  obtain ⟨as, run⟩ := does
  induction run generalizing h with
  | nil => exact ⟨[], h, .nil h, related⟩
  | cons moves _ ih =>
      have fitting : d.Fitting _ := fun command proposed => by
        rw [moves.1.1] at proposed
        cases proposed
      obtain ⟨writes, after⟩ := related.moves small fitting moves.2
      obtain ⟨bs, h', run', related'⟩ := ih after
      exact ⟨_, h', writes.append run', related'⟩

theorem Does.sound (small : d.conf.Fits .noOp) (does : d.Does calm c c') (sound : d.Sound c) :
    d.Sound c' := by
  obtain ⟨h, related⟩ := sound
  obtain ⟨-, h', -, related'⟩ := does.related small related
  exact ⟨h', related'⟩

omit [Fintype ι] in
/-- One node does one thing after another in a term. -/
theorem Does.then {i : ι} {s s' : State ι} {out out' : Outbox ι}
    (first : d.Does calm c (c.put i s out))
    (second : d.Does calm (c.put i s out) ((c.put i s out).put i s' out'))
    (same : s'.raftCurrentTerm = s.raftCurrentTerm) : d.Does calm c (c.put i s' (out ++ out')) := by
  rw [← put_put c i same]
  exact first.trans second

end Deployment

/-! ### Append entries -/

variable (calm)

section Sending

omit [Fintype ι] [DecidableEq ι] in
/-- The loop of `__sendAppendEntries` reads the log, the term and the commit index only. -/
theorem sendLoop_next (env : Env ι) (s : State ι) (next : ι → Nat) (passes n : Nat) :
    env.sendLoop { s with raftNextIndex := next } passes n = env.sendLoop s passes n := by
  induction passes generalizing n with
  | zero => rfl
  | succ passes ih =>
      simp only [Env.sendLoop, ih]
      rfl

variable {i : ι}

/-- A pass for a node. -/
theorem sendPass_runs (sound : d.Sound c) (role : (c.node i).raftState = .leader) {j : ι}
    (inside : j ∈ d.nodes i)
    (room : calm → bytesOf ((c.node i).raftLog.toList.drop ((c.node i).raftNextIndex j - 1)) <
      d.conf.appendEntriesBatchSizeBytes) :
    ∃ message next,
      (d.env i).sendPass (c.node i) ((c.node i).raftNextIndex j) = some ([message], next) ∧
      (calm → (c.node i).raftLog.getCurrentLogIndex < next) ∧
      d.Does calm c (c.put i { c.node i with
        raftNextIndex := Function.update (c.node i).raftNextIndex j next } [(j, message)]) := by
  obtain ⟨h, related⟩ := sound
  have node := related.nodes i
  obtain ⟨next, sent, -, whole⟩ :=
    sendPass_sound (d.env i) node.indexed node.fits (node.next j)
  exact ⟨_, next, sent, fun calm => whole (room calm),
    .move (a := .pass i j) ⟨rfl, room⟩ (.pass role inside sent)⟩

/-- The loop for one node is a run of passes. -/
theorem sendLoop_runs (small : d.conf.Fits .noOp) (passes : Nat) (sound : d.Sound c)
    (role : (c.node i).raftState = .leader) {j : ι} (inside : j ∈ d.nodes i)
    (room : calm → bytesOf ((c.node i).raftLog.toList.drop ((c.node i).raftNextIndex j - 1)) <
      d.conf.appendEntriesBatchSizeBytes) :
    ∃ messages last,
      (d.env i).sendLoop (c.node i) passes ((c.node i).raftNextIndex j) = some (messages, last) ∧
      d.Does calm c (c.put i { c.node i with
        raftNextIndex := Function.update (c.node i).raftNextIndex j last }
          (messages.map (j, ·))) := by
  induction passes generalizing c with
  | zero =>
      obtain ⟨message, next, sent, -, does⟩ := sendPass_runs calm sound role inside room
      exact ⟨[message], next, sent, does⟩
  | succ passes ih =>
      obtain ⟨message, next, sent, whole, does⟩ := sendPass_runs calm sound role inside room
      rw [Env.sendLoop, sent]
      by_cases more : next ≤ (c.node i).raftLog.getCurrentLogIndex
      · have split : ¬ calm := fun calm => absurd (whole calm) (by omega)
        obtain ⟨messages, last, sent', does'⟩ := ih (does.sound small sound)
          (by rw [node_put_self]; exact role) fun calm => absurd calm split
        simp only [node_put_self, Function.update_self, sendLoop_next, Function.update_idem]
          at sent' does'
        refine ⟨message :: messages, last, ?_, does.then does' rfl⟩
        simp [more, sent']
      · refine ⟨[message], next, ?_, does⟩
        simp [more]

/-- `__sendAppendEntries` is a run of passes. -/
theorem sendAppendEntries_runs (small : d.conf.Fits .noOp) (passes : ι → Option Nat)
    (nodes : List ι) (nodup : nodes.Nodup) (inside : ∀ j ∈ nodes, j ∈ d.nodes i)
    (sound : d.Sound c) (role : (c.node i).raftState = .leader)
    (room : calm → ∀ j ∈ nodes,
      bytesOf ((c.node i).raftLog.toList.drop ((c.node i).raftNextIndex j - 1)) <
        d.conf.appendEntriesBatchSizeBytes) :
    ∃ next out, (d.env i).sendAppendEntries passes nodes (c.node i) =
        some ({ c.node i with raftNextIndex := next }, out) ∧
      d.Does calm c (c.put i { c.node i with raftNextIndex := next } out) := by
  induction nodes generalizing c with
  | nil => exact ⟨_, _, rfl, by rw [put_self]; exact .refl c⟩
  | cons j nodes ih =>
      obtain ⟨absent, nodup⟩ := List.nodup_cons.mp nodup
      obtain ⟨first, inside⟩ := List.forall_mem_cons.mp inside
      cases connected : passes j with
      | none =>
          simp only [Env.sendAppendEntries, connected]
          exact ih nodup inside sound role fun calm j' mem =>
            room calm j' (List.mem_cons_of_mem _ mem)
      | some more =>
          obtain ⟨messages, last, sent, does⟩ := sendLoop_runs calm small more sound role
            first fun calm => room calm j List.mem_cons_self
          obtain ⟨next, out, sent', does'⟩ := ih nodup inside (does.sound small sound)
            (by rw [node_put_self]; exact role) (by
              intro calm j' mem
              have other : j' ≠ j := fun same => absent (same ▸ mem)
              simp only [node_put_self, Function.update_of_ne other]
              exact room calm j' (List.mem_cons_of_mem _ mem))
          simp only [node_put_self] at sent' does'
          refine ⟨next, messages.map (j, ·) ++ out, ?_, does.then does' rfl⟩
          simp [Env.sendAppendEntries, connected, sent, sent']

end Sending

/-! ### Ticks -/

/-- A leader has room for what comes after. -/
def Env.Room (env : Env ι) (s : State ι) : Prop :=
  s.raftState = .leader → ∀ j ∈ env.nodes,
    bytesOf (s.raftLog.toList.drop (s.raftNextIndex j - 1)) < env.conf.appendEntriesBatchSizeBytes

section Ticks

variable {i : ι}

/-- `__onBecomeLeader` is a run: the node leads and sends its no-op. -/
theorem onBecomeLeader_runs (small : d.conf.Fits .noOp) (passes : ι → Option Nat)
    (sound : d.Sound c) (role : (c.node i).raftState = .candidate)
    (most : (d.env i).Most (c.node i).votesCount) :
    ∃ s out, (d.env i).onBecomeLeader passes (c.node i) = some (s, out) ∧
      d.Does calm c (c.put i s out) ∧ s.raftCurrentTerm = (c.node i).raftCurrentTerm := by
  have leads : d.Does calm c (c.put i ((d.env i).lead (c.node i)) []) :=
    .move (a := .lead i) ⟨rfl, fun _ => trivial⟩ (.lead role most)
  have indexed := (sound.choose_spec.nodes i).indexed
  obtain ⟨next, out, sent, does⟩ := sendAppendEntries_runs calm small passes (d.nodes i)
    (d.nodup i) (fun _ mem => mem) (leads.sound small sound) (by rw [node_put_self]; rfl) (by
      intro _ j mem
      have start : ((d.env i).lead (c.node i)).raftNextIndex j =
          (c.node i).raftLog.getCurrentLogIndex + 1 := if_pos mem
      rw [node_put_self, start, Nat.add_sub_cancel, RaftLog.getCurrentLogIndex_eq indexed]
      change bytesOf (((c.node i).raftLog.toList ++ [_]).drop _) < _
      rw [List.drop_left]
      exact small)
  simp only [node_put_self] at sent does
  exact ⟨_, out, sent, leads.then does rfl, rfl⟩

/-- The first block of a tick. -/
theorem checkElection_runs (small : d.conf.Fits .noOp) (tick : Tick ι) (sound : d.Sound c)
    (room : calm → (d.env i).Room (c.node i)) :
    ∃ s out, (d.env i).checkElection tick (c.node i) = some (s, out) ∧
      d.Does calm c (c.put i s out) ∧ (calm → (d.env i).Room s) := by
  rw [Env.checkElection]
  split
  · rename_i stands
    have stood : d.Does calm c (c.put i ((d.env i).startElection (c.node i)).1
        ((d.env i).startElection (c.node i)).2) :=
      .move (a := .stand i) ⟨rfl, fun _ => trivial⟩ (.stand stands.1)
    by_cases most : (d.env i).Most ((d.env i).startElection (c.node i)).1.votesCount
    · obtain ⟨s, out, leads, does, same⟩ := onBecomeLeader_runs calm (i := i) small
        tick.elected (stood.sound small sound) (by rw [node_put_self]; rfl)
        (by rw [node_put_self]; exact most)
      simp only [node_put_self] at leads same
      refine ⟨s, _, ?_, stood.then does same, ?_⟩
      · refine (if_pos most).trans ?_
        exact congrArg (fun led => led >>= fun done =>
          some (done.1, ((d.env i).startElection (c.node i)).2 ++ done.2)) leads
      · -- a node that wins with its own vote is alone
        intro _ _ j mem
        have alone : (d.nodes i).length + 1 < 2 * 1 := most
        have long := List.length_pos_of_mem mem
        change 0 < (d.nodes i).length at long
        omega
    · exact ⟨_, _, if_neg most, stood, fun _ leads => by cases leads⟩
  · exact ⟨_, _, rfl, by rw [put_self]; exact .refl c, room⟩

omit [Fintype ι] in
/-- What a leader does next. -/
theorem leader_runs (tick : Tick ι) :
    d.Does calm c (c.put i (if (c.node i).raftState = .leader then
      (d.env i).checkFallback tick ((d.env i).commit (c.node i)) else c.node i) []) := by
  split
  · rename_i role
    have commits : d.Does calm c (c.put i ((d.env i).commit (c.node i)) []) :=
      .move (a := .commit i) ⟨rfl, fun _ => trivial⟩ (.commit role)
    rw [Env.checkFallback]
    split
    · exact commits
    · have falls := Moves.fall (d := d) (c := c.put i ((d.env i).commit (c.node i)) []) (i := i)
        (by rw [node_put_self]; exact role)
      rw [node_put_self] at falls
      have falls' := Does.move (a := .fall i) ⟨rfl, fun _ : calm => trivial⟩ falls
      exact commits.then falls' rfl
  · rw [put_self]
    exact .refl c

omit [Fintype ι] in
/-- `_checkCommandsToApply` is a run of commands taken. -/
theorem checkCommandsToApply_runs (n : Nat) (c : Network ι) :
    d.Does calm c (c.put i ((d.env i).checkCommandsToApply n (c.node i)).1
        ((d.env i).checkCommandsToApply n (c.node i)).2) ∧
      ((d.env i).checkCommandsToApply n (c.node i)).1.raftCurrentTerm =
        (c.node i).raftCurrentTerm := by
  induction n generalizing c with
  | zero => exact ⟨by rw [Env.checkCommandsToApply, put_self]; exact .refl c, rfl⟩
  | succ n ih =>
      have idle : d.Does calm c (c.put i (c.node i) []) := by
        rw [put_self]
        exact .refl c
      rw [Env.checkCommandsToApply]
      split
      · exact ⟨idle, rfl⟩
      · split
        · exact ⟨idle, rfl⟩
        · rename_i command queue queued
          have takes : d.Does calm c (c.put i
              ((d.env i).takeCommand command { c.node i with commandsQueue := queue }).1
              ((d.env i).takeCommand command { c.node i with commandsQueue := queue }).2) :=
            .move (a := .take i) ⟨rfl, fun _ => trivial⟩ (.take queued)
          have same : ((d.env i).takeCommand command
              { c.node i with commandsQueue := queue }).1.raftCurrentTerm =
                (c.node i).raftCurrentTerm := by
            rw [Env.takeCommand]
            split
            · rfl
            · split <;> rfl
          obtain ⟨does, same'⟩ := ih (c.put i
            ((d.env i).takeCommand command { c.node i with commandsQueue := queue }).1
            ((d.env i).takeCommand command { c.node i with commandsQueue := queue }).2)
          rw [node_put_self] at does same'
          exact ⟨takes.then does same', same'.trans same⟩

/-- **A tick returns**, and what it does is a run. -/
theorem tick_runs (small : d.conf.Fits .noOp) (tick : Tick ι) (sound : d.Sound c)
    (unsplit : calm → d.Unsplit c (.tick i tick)) :
    ∃ s out, (d.env i).onTick tick (c.node i) = some (s, out) ∧ d.Does calm c (c.put i s out) := by
  have room : calm → (d.env i).Room (c.node i) := by
    intro calm role j mem
    have node := sound.choose_spec.nodes i
    have fits := unsplit calm role j mem
    rwa [RaftLog.getEntries_drop node.indexed (by have := node.next j; omega)] at fits
  obtain ⟨s₁, requests, elects, does₁, room₁⟩ := checkElection_runs calm small tick sound room
  let s₂ := if s₁.raftState = .leader then
    (d.env i).checkFallback tick ((d.env i).commit s₁) else s₁
  -- a leader's commits, its fallback and what is applied leave what it has to send
  have kept : s₂.applyCommitted.raftLog = s₁.raftLog ∧
      s₂.applyCommitted.raftNextIndex = s₁.raftNextIndex ∧
      s₂.raftCurrentTerm = s₁.raftCurrentTerm ∧
      s₂.applyCommitted.raftCurrentTerm = s₂.raftCurrentTerm ∧
      (s₂.applyCommitted.raftState = .leader → s₁.raftState = .leader) := by
    simp only [s₂, State.applyCommitted, Env.checkFallback, Env.commit]
    split_ifs <;> simp_all
  obtain ⟨log, next, term, term', role⟩ := kept
  have room₃ : calm → (d.env i).Room s₂.applyCommitted := by
    intro calm leads
    rw [log, next]
    exact room₁ calm (role leads)
  have does₂ : d.Does calm c (c.put i s₂ (requests ++ [])) := by
    have leads := leader_runs calm (d := d) (c := c.put i s₁ requests) (i := i) tick
    simp only [node_put_self] at leads
    exact does₁.then leads term
  have does₃ : d.Does calm c (c.put i s₂.applyCommitted (requests ++ [] ++ [])) := by
    have applies := Moves.apply (d := d) (c := c.put i s₂ (requests ++ [])) (i := i)
    rw [node_put_self] at applies
    exact does₂.then (.move (a := .apply i) ⟨rfl, fun _ => trivial⟩ applies) term'
  rw [List.append_nil, List.append_nil] at does₃
  obtain ⟨s₄, sent, sends, does₄⟩ : ∃ s₄ sent,
      (if s₂.applyCommitted.raftState = .leader ∧ tick.due then
        (d.env i).sendAppendEntries tick.passes (d.nodes i) s₂.applyCommitted
      else some (s₂.applyCommitted, [])) = some (s₄, sent) ∧
        d.Does calm c (c.put i s₄ (requests ++ sent)) := by
    split
    · rename_i due
      obtain ⟨next, out, sends, does⟩ := sendAppendEntries_runs calm (i := i) small
        tick.passes (d.nodes i) (d.nodup i) (fun _ mem => mem) (does₃.sound small sound)
        (by rw [node_put_self]; exact due.1) (by
          intro calm
          rw [node_put_self]
          exact room₃ calm due.1)
      simp only [node_put_self] at sends does
      exact ⟨_, out, sends, does₃.then does rfl⟩
    · exact ⟨_, [], rfl, by rw [List.append_nil]; exact does₃⟩
  obtain ⟨takes, same⟩ := checkCommandsToApply_runs calm (d := d) (i := i) tick.commands
    (c.put i s₄ (requests ++ sent))
  simp only [node_put_self] at takes same
  have does₅ := does₄.then takes same
  rw [List.append_assoc] at does₅
  have finishes : (d.env i).finishTick tick s₁ =
      some (((d.env i).checkCommandsToApply tick.commands s₄).1,
        sent ++ ((d.env i).checkCommandsToApply tick.commands s₄).2) := by
    split at sends
    · rename_i due
      refine (if_pos due).trans ?_
      exact congrArg (fun sending => sending >>= fun done =>
        let taken := (d.env i).checkCommandsToApply tick.commands done.1
        some (taken.1, done.2 ++ taken.2)) sends
    · rename_i due
      cases sends
      exact if_neg due
  refine ⟨_, _, ?_, does₅⟩
  rw [Env.onTick, elects]
  exact congrArg (fun finishing => finishing >>= fun done => some (done.1, requests ++ done.2))
    finishes

end Ticks

/-! ### Messages -/

section Receiving

variable {src dst : ι} {p : Packet} {rest : List Packet}

omit [Fintype ι] in
/-- A message that changes nothing is as good as lost. -/
theorem ignored_runs (head : c.link src dst = p :: rest) :
    d.Does calm c ((c.setLink src dst rest).put dst (c.node dst) []) := by
  have lost : d.Moves c (.lose src dst 0) _ := .lose
  rw [head, List.eraseIdx_cons_zero] at lost
  have same := put_self (c.setLink src dst rest) dst
  rw [node_setLink] at same
  rw [same]
  exact .move (a := .lose src dst 0) ⟨rfl, fun _ => trivial⟩ lost

omit [Fintype ι] in
/-- A candidate's request is heard, and maybe granted. -/
theorem onRequestVote_runs {stamp term lastLogIdx lastLogTerm : Nat}
    (head : c.link src dst = ⟨stamp, .requestVote term lastLogIdx lastLogTerm⟩ :: rest) :
    d.Does calm c ((c.setLink src dst rest).put dst
      ((d.env dst).onRequestVote src term lastLogIdx lastLogTerm (c.node dst)).1
      ((d.env dst).onRequestVote src term lastLogIdx lastLogTerm (c.node dst)).2) := by
  have adopts : d.Does calm c (c.put dst ((c.node dst).adopt term) []) := by
    by_cases later : (c.node dst).raftCurrentTerm < term
    · exact .move (a := .adopt dst term) ⟨rfl, fun _ => trivial⟩ (.adopt later)
    · rw [State.adopt, if_neg later, put_self]
      exact .refl c
  have reached : term ≤ ((c.node dst).adopt term).raftCurrentTerm := by
    rw [State.adopt]
    split
    · exact le_rfl
    · omega
  refine adopts.trans ?_
  -- from here on the node has the term of the request, or a later one
  have head' : (c.put dst ((c.node dst).adopt term) []).link src dst =
      ⟨stamp, .requestVote term lastLogIdx lastLogTerm⟩ :: rest := by
    simp [Network.put, head]
  have ignored : d.Does calm (c.put dst ((c.node dst).adopt term) [])
      ((c.setLink src dst rest).put dst ((c.node dst).adopt term) []) := by
    have lost := ignored_runs calm (d := d) head'
    rwa [node_put_self, put_nil_setLink, put_nil_put] at lost
  rw [Env.onRequestVote]
  split
  · rename_i hears
    split
    · exact ignored
    · rename_i noOlder
      split
      · exact ignored
      · rename_i noShorter
        split
        · exact ignored
        · rename_i unvoted
          have grants := Moves.grant (d := d) head' (by rw [node_put_self]; exact hears.1)
            (by rw [node_put_self]; exact le_antisymm hears.2 reached)
            (by rw [node_put_self]; exact noOlder) (by rw [node_put_self]; exact noShorter)
            (by rw [node_put_self]; exact not_not.mp unvoted)
          rw [node_put_self, put_nil_setLink, put_nil_put] at grants
          exact .move (a := .grant src dst) ⟨rfl, fun _ => trivial⟩ grants
  · exact ignored

/-- A vote is counted, and may be the last that is missing. -/
theorem onResponseVote_runs (small : d.conf.Fits .noOp) (passes : ι → Option Nat)
    (sound : d.Sound c) {stamp term : Nat}
    (head : c.link src dst = ⟨stamp, .responseVote term⟩ :: rest) :
    ∃ s out, (d.env dst).onResponseVote passes term (c.node dst) = some (s, out) ∧
      d.Does calm c ((c.setLink src dst rest).put dst s out) := by
  rw [Env.onResponseVote]
  split
  · rename_i stands
    obtain ⟨role, rfl⟩ := stands
    have counts : d.Does calm c ((c.setLink src dst rest).put dst
        { c.node dst with votesCount := (c.node dst).votesCount + 1 } []) :=
      .move (a := .count src dst) ⟨rfl, fun _ => trivial⟩ (.count head role)
    by_cases most : (d.env dst).Most ((c.node dst).votesCount + 1)
    · obtain ⟨s, out, leads, does, same⟩ := onBecomeLeader_runs calm (i := dst) small
        passes (counts.sound small sound) (by rw [node_put_self]; exact role)
        (by rw [node_put_self]; exact most)
      rw [node_put_self] at leads
      rw [put_nil_put] at does
      exact ⟨s, out, (if_pos most).trans leads, counts.trans does⟩
    · exact ⟨_, _, if_neg most, counts⟩
  · exact ⟨_, _, rfl, ignored_runs calm head⟩

/-- **A message is handled**, and what it does is a run. -/
theorem receive_runs (small : d.conf.Fits .noOp) (passes : ι → Option Nat) (sound : d.Sound c)
    (head : c.link src dst = p :: rest) (fresh : calm → c.Fresh (.deliver src dst passes)) :
    ∃ s out, (d.env dst).onMessageReceived passes src p.message (c.node dst) = some (s, out) ∧
      d.Does calm c ((c.setLink src dst rest).put dst s out) := by
  obtain ⟨stamp, message⟩ := p
  cases message with
  | requestVote term lastLogIndex lastLogTerm => exact ⟨_, _, rfl, onRequestVote_runs calm head⟩
  | responseVote term => exact onResponseVote_runs calm small passes sound head
  | appendEntries term commitIndex body =>
      obtain ⟨h, related⟩ := sound
      obtain ⟨-, -, entries, prev, rfl, -⟩ := related.packets src dst _ (by
        rw [head]
        exact List.mem_cons_self)
      rw [Env.onMessageReceived, Env.onAppendEntries]
      split
      · exact ⟨_, _, rfl, ignored_runs calm head⟩
      · rename_i current
        exact ⟨_, _, rfl, .move (a := .entries src dst) ⟨rfl, fun _ => trivial⟩
          (.entries head (Nat.not_lt.mp current))⟩
  | nextNodeIdx nextNodeIdx reset success =>
      refine ⟨_, _, rfl, .move (a := .response src dst) ⟨rfl, fun calm => ?_⟩ (.response head)⟩
      intro p first leads
      rw [head] at first
      cases first
      exact fresh calm leads _ (by rw [head]; rfl) trivial
  | applyCommand command =>
      exact ⟨_, _, rfl, .move (a := .command src dst) ⟨rfl, fun _ => trivial⟩ (.command head)⟩

end Receiving

/-! ### The cluster -/

/-- **A step of the cluster** is a run of the protocol: what a node does on its own, or a
command that is proposed. -/
theorem cluster_protocol (small : d.conf.Fits .noOp) (sound : d.Sound c) {e : Event ι}
    (quiet : calm → d.Unsplit c e ∧ c.Fresh e) (steps : d.Steps c e c') :
    d.Does calm c c' ∨ ∃ i command, e = .propose i command ∧ d.Moves c (.propose i command) c' := by
  cases e with
  | tick i tick =>
      obtain ⟨s, out, returns, rfl⟩ := steps
      obtain ⟨s', out', returns', does⟩ := tick_runs calm small tick sound
        fun calm => (quiet calm).1
      rw [returns] at returns'
      cases returns'
      exact .inl does
  | deliver src dst passes =>
      obtain ⟨p, rest, s, out, head, returns, rfl⟩ := steps
      obtain ⟨s', out', returns', does⟩ := receive_runs calm small passes sound head
        fun calm => (quiet calm).2
      rw [returns] at returns'
      cases returns'
      exact .inl does
  | lose src dst n =>
      obtain rfl := steps
      exact .inl (.move (a := .lose src dst n) ⟨rfl, fun _ => trivial⟩ .lose)
  | propose i command =>
      obtain rfl := steps
      exact .inr ⟨i, command, rfl, .propose⟩

end Belcoin.SyncObj
