import Mathlib.Algebra.BigOperators.Group.Finset.Piecewise
import Belcoin.SyncObj.Safety

/-!
What becomes of the commands that are proposed.

A command waits in the queue of a node, is on its way to the leader, or has been logged by
one. Nothing makes a second copy of it, so a node calls a replicated method no more often
than it was called (`delivered_at_most_once`), whatever is lost or delayed. A node applies
the entries in order, and each index once (`applied_in_order`).
-/

namespace Belcoin.SyncObj

open Consensus Network Deployment

variable {ι : Type} [Fintype ι] [DecidableEq ι] {d : Deployment ι} {c c' : Network ι}

/-! ### Copies of a command -/

/-- The copies of a command in the queue of a node and on their way from it. -/
def Network.copies (c : Network ι) (command : Command) (i : ι) : Nat :=
  (c.node i).commandsQueue.count command +
    ∑ b, (c.link i b).countP fun p => p.message = .applyCommand command

/-- All copies that are not logged. -/
def Network.pending (c : Network ι) (command : Command) : Nat :=
  ∑ i, c.copies command i

/-- Sums of functions that differ at one place. -/
theorem sum_change {f g : ι → Nat} {i : ι} (others : ∀ j, j ≠ i → f j = g j) :
    (∑ j, f j) + g i = (∑ j, g j) + f i := by
  have rest : ∑ j ∈ Finset.univ.erase i, f j = ∑ j ∈ Finset.univ.erase i, g j :=
    Finset.sum_congr rfl fun j mem => others j (Finset.ne_of_mem_erase mem)
  rw [← Finset.add_sum_erase _ f (Finset.mem_univ i), ← Finset.add_sum_erase _ g (Finset.mem_univ i),
    rest]
  omega

theorem sum_posts (term : Nat) (command : Command) (out : Outbox ι) :
    (∑ b, (posts term b out).countP fun p => p.message = .applyCommand command) =
      out.countP fun m => m.2 = .applyCommand command := by
  induction out with
  | nil => simp
  | cons m out ih =>
      have first : ∀ b, (posts term b (m :: out)).countP (fun p => p.message = .applyCommand command) =
          (posts term b out).countP (fun p => p.message = .applyCommand command) +
            if m.1 = b then (if m.2 = .applyCommand command then 1 else 0) else 0 := by
        intro b
        by_cases here : m.1 = b <;> simp [posts, here, List.countP_cons]
      simp only [first, Finset.sum_add_distrib, ih, Finset.sum_ite_eq, Finset.mem_univ, if_true,
        List.countP_cons, decide_eq_true_eq]

/-- The copies that a node takes from its queue and those that it sends. -/
theorem pending_put (c : Network ι) (command : Command) (i : ι) (s : State ι) (out : Outbox ι) :
    (c.put i s out).pending command + (c.node i).commandsQueue.count command =
      c.pending command + s.commandsQueue.count command +
        out.countP (fun m => m.2 = .applyCommand command) := by
  have here : (c.put i s out).copies command i + (c.node i).commandsQueue.count command =
      c.copies command i + s.commandsQueue.count command +
        out.countP (fun m => m.2 = .applyCommand command) := by
    have links : ∀ b, ((c.put i s out).link i b) = c.link i b ++ posts s.raftCurrentTerm b out :=
      fun b => if_pos rfl
    simp only [copies, node_put_self, links, List.countP_append, Finset.sum_add_distrib, sum_posts]
    omega
  have total := sum_change (f := (c.put i s out).copies command) (g := c.copies command) (i := i) (by
    intro j other
    have links : ∀ b, ((c.put i s out).link j b) = c.link j b := fun b => if_neg other
    simp only [copies, node_put_ne c other, links])
  rw [pending, pending]
  omega

/-- The copies among messages that are taken from a link. -/
theorem pending_setLink (c : Network ι) (command : Command) (a b : ι) (packets : List Packet) :
    (c.setLink a b packets).pending command +
        (c.link a b).countP (fun p => p.message = .applyCommand command) =
      c.pending command + packets.countP (fun p => p.message = .applyCommand command) := by
  have here : (c.setLink a b packets).copies command a +
        (c.link a b).countP (fun p => p.message = .applyCommand command) =
      c.copies command a + packets.countP (fun p => p.message = .applyCommand command) := by
    have links := sum_change (i := b)
      (f := fun b' => ((c.setLink a b packets).link a b').countP fun p =>
        p.message = .applyCommand command)
      (g := fun b' => (c.link a b').countP fun p => p.message = .applyCommand command) (by
        intro b' other
        rw [link_setLink_ne c fun same => other same.2])
    simp only [link_setLink_self] at links
    simp only [copies, node_setLink]
    omega
  have total := sum_change (f := (c.setLink a b packets).copies command) (g := c.copies command)
    (i := a) (by
      intro j other
      have links : ∀ b', (c.setLink a b packets).link j b' = c.link j b' :=
        fun b' => link_setLink_ne c (fun same => other same.1) _
      simp only [copies, node_setLink, links])
  rw [pending, pending]
  omega

/-! ### What a move makes of them -/

/-- The entry that is appended. -/
def appended : Consensus.Move ι Entry → Option Entry
  | .append _ e => some e
  | _ => none

/-- The entries that a move logs for the first time. -/
noncomputable def Network.logged (c : Network ι) (a : Move ι) : List Entry :=
  (c.writes a).filterMap appended

/-- Some node sends on no command and keeps its queue. -/
theorem pending_idle (c : Network ι) (command : Command) {i : ι} {s : State ι} {out : Outbox ι}
    (queue : s.commandsQueue = (c.node i).commandsQueue)
    (out' : ∀ m ∈ out, ∀ command, m.2 ≠ .applyCommand command) :
    (c.put i s out).pending command = c.pending command := by
  have put := pending_put c command i s out
  have none : out.countP (fun m => m.2 = .applyCommand command) = 0 :=
    List.countP_eq_zero.mpr fun m mem => by simpa using out' m mem command
  rw [queue, none] at put
  omega

/-- A message is taken from a link. -/
theorem pending_take (c : Network ι) (command : Command) {a b : ι} {p : Packet} {rest : List Packet}
    (head : c.link a b = p :: rest) :
    (c.setLink a b rest).pending command +
      (if p.message = .applyCommand command then 1 else 0) = c.pending command := by
  have taken := pending_setLink c command a b rest
  rw [head, List.countP_cons] at taken
  simp only [decide_eq_true_eq] at taken
  omega

omit [Fintype ι] in
theorem send_plain {env : Env ι} {nodeAddr : ι} {message : Message}
    (other : ∀ command, message ≠ .applyCommand command) :
    ∀ m ∈ env.send nodeAddr message, ∀ command, m.2 ≠ .applyCommand command := by
  intro m mem
  rw [Env.send] at mem
  split at mem
  · rw [List.mem_singleton.mp mem]
    exact other
  · cases mem

/-- A command joins the queue at most once. -/
theorem pending_applyCommand (c : Network ι) (env : Env ι) (command proposed : Command) (i : ι) :
    (c.put i (env.applyCommand proposed (c.node i)) []).pending command ≤
      c.pending command + if proposed = command then 1 else 0 := by
  have put := pending_put c command i (env.applyCommand proposed (c.node i)) []
  rw [Env.applyCommand] at put ⊢
  split at put
  · rename_i full
    rw [if_pos full]
    simp only [List.countP_nil] at put
    omega
  · rename_i room
    rw [if_neg room]
    simp only [List.count_append, List.count_singleton, List.countP_nil, beq_iff_eq] at put
    omega

/-- A change of a node that sends on no command, keeps its queue and logs none anew. -/
theorem copies_idle {c₀ : Network ι} {command : Command} {n : Nat}
    (fewer : c₀.pending command ≤ c.pending command) {i : ι} {s : State ι} {out : Outbox ι}
    (queue : s.commandsQueue = (c₀.node i).commandsQueue)
    (plain : ∀ m ∈ out, ∀ command, m.2 ≠ .applyCommand command) :
    (c₀.put i s out).pending command + 0 ≤ c.pending command + n := by
  rw [pending_idle c₀ command queue plain]
  omega

omit [Fintype ι] in
theorem appendNew_plain (env : Env ι) (nodeAddr : ι) (commitIndex : Nat) (entries : List Entry)
    (prev : Option (Nat × Nat)) (s : State ι) :
    (env.appendNew nodeAddr commitIndex entries prev s).1.commandsQueue = s.commandsQueue ∧
      ∀ m ∈ (env.appendNew nodeAddr commitIndex entries prev s).2,
        ∀ command, m.2 ≠ .applyCommand command := by
  unfold Env.appendNew
  split
  · split
    · exact ⟨rfl, send_plain fun _ same => by cases same⟩
    · exact ⟨rfl, send_plain fun _ same => by cases same⟩
  · exact ⟨rfl, send_plain fun _ same => by cases same⟩

omit [Fintype ι] in
/-- A node that does not lead sends a command on at most once. -/
theorem takeCommand_sends (env : Env ι) (taken command : Command) {s : State ι}
    (role : s.raftState ≠ .leader) : (env.takeCommand taken s).1.commandsQueue = s.commandsQueue ∧
      (env.takeCommand taken s).2.countP (fun m => m.2 = .applyCommand command) ≤
        if taken = command then 1 else 0 := by
  rw [Env.takeCommand, if_neg role]
  split
  · rename_i leader _
    refine ⟨rfl, ?_⟩
    change (env.send leader (.applyCommand taken)).countP _ ≤ _
    rw [Env.send]
    split
    · simp [List.countP_singleton]
    · exact Nat.zero_le _
  · exact ⟨rfl, Nat.zero_le _⟩

/-- **No move makes a second copy** of a command: one that is queued, sent on or logged
anew was proposed, or taken from where it was. -/
theorem Related.copies {h : History ι Entry} (related : Related d c h) {a : Move ι}
    (moves : d.Moves c a c') (command : Bytes) :
    c'.pending (.regular command) +
        (c.logged a).countP (fun entry => entry.command = .regular command) ≤
      c.pending (.regular command) + if a.proposal = some command then 1 else 0 := by
  have none : ∀ m ∈ ([] : Outbox ι), ∀ command, m.2 ≠ .applyCommand command :=
    fun m mem => by cases mem
  have fewer : ∀ {src dst : ι} {p : Packet} {rest : List Packet}, c.link src dst = p :: rest →
      (c.setLink src dst rest).pending (.regular command) ≤ c.pending (.regular command) :=
    fun head => (Nat.le_add_right _ _).trans_eq (pending_take c _ head)
  cases moves with
  | stand role =>
      refine copies_idle le_rfl rfl fun m mem => ?_
      obtain ⟨j, -, rfl⟩ := List.mem_map.mp mem
      exact fun _ same => by cases same
  | lead role most => exact copies_idle le_rfl rfl none
  | @pass i j messages next role inside sends =>
      have node := related.nodes i
      obtain ⟨next', sent, -, -⟩ :=
        sendPass_sound (d.env i) node.indexed node.fits (node.next j)
      rw [sent] at sends
      cases sends
      refine copies_idle le_rfl rfl fun m mem => ?_
      rw [List.mem_singleton.mp mem]
      exact fun _ same => by cases same
  | commit role => exact copies_idle le_rfl rfl none
  | fall role => exact copies_idle le_rfl rfl none
  | apply =>
      refine copies_idle le_rfl ?_ none
      rw [State.applyCommitted]
      split <;> rfl
  | @take i proposed queue queued =>
      have put := pending_put c (.regular command) i
        ((d.env i).takeCommand proposed { c.node i with commandsQueue := queue }).1
        ((d.env i).takeCommand proposed { c.node i with commandsQueue := queue }).2
      rw [queued, List.count_cons] at put
      by_cases role : (c.node i).raftState = .leader
      · have logged : c.logged (.take i) = [⟨proposed,
            (c.node i).raftLog.getCurrentLogIndex + 1, (c.node i).raftCurrentTerm⟩] := by
          simp only [Network.logged, Network.writes, role, queued, List.filterMap_cons, appended,
            List.filterMap_nil]
        simp only [Env.takeCommand, if_pos role, List.countP_nil] at put ⊢
        rw [logged, List.countP_singleton]
        simp only [beq_iff_eq, decide_eq_true_eq] at put ⊢
        omega
      · have unlogged : c.logged (.take i) = [] := by
          simp only [Network.logged, Network.writes, queued]
          split
          · rename_i leads _
            exact absurd leads role
          · rfl
        rw [unlogged]
        obtain ⟨rest, sent⟩ := takeCommand_sends (d.env i) proposed (.regular command)
          (s := { c.node i with commandsQueue := queue }) role
        generalize (d.env i).takeCommand proposed { c.node i with commandsQueue := queue } = taken
          at put rest sent ⊢
        rw [rest] at put
        simp only [beq_iff_eq, List.countP_nil] at put ⊢
        omega
  | @propose i proposed =>
      have queues := pending_applyCommand c (d.env i) (.regular command) (.regular proposed) i
      simpa [Network.logged, Network.writes, Move.proposal] using queues
  | adopt later =>
      refine copies_idle le_rfl ?_ none
      rw [State.adopt]
      split <;> rfl
  | grant head role now noOlder noShorter unvoted =>
      exact copies_idle (fewer head) rfl (send_plain fun _ same => by cases same)
  | count head role => exact copies_idle (fewer head) rfl none
  | @entries src dst stamp term commitIndex entries prev rest head current =>
      have unlogged : c.logged (.entries src dst) = [] := by
        simp only [Network.logged, Network.writes, head]
        split <;> rfl
      rw [unlogged]
      obtain ⟨queue, plain⟩ := appendNew_plain (d.env dst) src commitIndex entries prev
        ((c.node dst).follow src term)
      exact copies_idle (fewer head) queue plain
  | @oversize src dst stamp term commitIndex body rest c' head other =>
      obtain ⟨-, -, entries, prev, body, -⟩ := related.packets src dst _ (by
        rw [head]
        exact List.mem_cons_self)
      exact absurd body (other entries prev)
  | response head =>
      refine copies_idle (fewer head) ?_ none
      rw [State.onNextNodeIdx]
      split <;> rfl
  | @command src dst stamp proposed rest head =>
      have taken := pending_take c (.regular command) head
      have queues := pending_applyCommand (c.setLink src dst rest) (d.env dst) (.regular command)
        proposed dst
      simp only [Message.applyCommand.injEq] at taken
      exact (queues.trans_eq taken).trans (Nat.le_add_right _ _)
  | @lose src dst n =>
      have lost := pending_setLink c (.regular command) src dst ((c.link src dst).eraseIdx n)
      have fewer := (List.eraseIdx_sublist (c.link src dst) n).countP_le
        (p := fun p => p.message = .applyCommand (.regular command))
      refine Nat.add_le_add (show _ ≤ _ from ?_) (Nat.zero_le _)
      omega

/-! ### What is applied -/

/-- A node has applied entries 2, 3 and so on. -/
structure InOrder (s : State ι) : Prop where
  lastApplied : s.raftLastApplied = s.applied.length + 1
  index : ∀ k entry, s.applied[k]? = some entry → entry.idx = k + 2

/-- What a move may change of what is applied. -/
theorem Related.applies {h : History ι Entry} (related : Related d c h) {a : Move ι}
    (moves : d.Moves c a c') (j : ι) :
    (c'.node j).applied = (c.node j).applied ∧
        (c'.node j).raftLastApplied = (c.node j).raftLastApplied ∨
      c'.node j = (c.node j).applyCommitted := by
  have idle : ∀ {c₀ : Network ι} {i : ι} {s : State ι} {out : Outbox ι}, c₀.node = c.node →
      s.applied = (c.node i).applied → s.raftLastApplied = (c.node i).raftLastApplied →
        ((c₀.put i s out).node j).applied = (c.node j).applied ∧
          ((c₀.put i s out).node j).raftLastApplied = (c.node j).raftLastApplied := by
    intro c₀ i s out nodes applied last
    by_cases same : j = i
    · subst same
      rw [node_put_self]
      exact ⟨applied, last⟩
    · rw [node_put_ne c₀ same, nodes]
      exact ⟨rfl, rfl⟩
  cases moves with
  | stand role => exact .inl (idle rfl rfl rfl)
  | lead role most => exact .inl (idle rfl rfl rfl)
  | pass role inside sends => exact .inl (idle rfl rfl rfl)
  | commit role => exact .inl (idle rfl rfl rfl)
  | fall role => exact .inl (idle rfl rfl rfl)
  | @apply i =>
      by_cases same : j = i
      · subst same
        exact .inr (node_put_self _ _ _ _)
      · rw [node_put_ne c same]
        exact .inl ⟨rfl, rfl⟩
  | @take i command queue queued =>
      refine .inl (idle rfl ?_ ?_)
      all_goals
        rw [Env.takeCommand]
        split
        · rfl
        · split <;> rfl
  | propose =>
      refine .inl (idle rfl ?_ ?_)
      all_goals
        rw [Env.applyCommand]
        split <;> rfl
  | adopt later =>
      refine .inl (idle rfl ?_ ?_)
      all_goals
        rw [State.adopt]
        split <;> rfl
  | grant => exact .inl (idle rfl rfl rfl)
  | count => exact .inl (idle rfl rfl rfl)
  | entries =>
      refine .inl (idle rfl ?_ ?_)
      all_goals
        unfold Env.appendNew
        split
        · split <;> rfl
        · rfl
  | @oversize src dst stamp term commitIndex body rest c' head other =>
      obtain ⟨-, -, entries, prev, body, -⟩ := related.packets src dst _ (by
        rw [head]
        exact List.mem_cons_self)
      exact absurd body (other entries prev)
  | response =>
      refine .inl (idle rfl ?_ ?_)
      all_goals
        rw [State.onNextNodeIdx]
        split <;> rfl
  | command =>
      refine .inl (idle rfl ?_ ?_)
      all_goals
        rw [Env.applyCommand]
        split <;> rfl
  | lose => exact .inl ⟨rfl, rfl⟩

omit [Fintype ι] [DecidableEq ι] in
/-- A node applies the next entries of its log. -/
theorem InOrder.apply {s : State ι} (inOrder : InOrder s) (indexed : Indexed s.raftLog.toList) :
    InOrder s.applyCommitted := by
  rw [State.applyCommitted]
  split
  · have more := RaftLog.getEntries_take indexed (Nat.succ_pos s.raftLastApplied)
      (s.raftCommitIndex - s.raftLastApplied)
    constructor
    · change s.raftLastApplied + List.length _ = (s.applied ++ _).length + 1
      rw [inOrder.lastApplied, List.length_append]
      omega
    · intro k entry here
      change (s.applied ++ s.raftLog.getEntries (some (s.raftLastApplied + 1)) _ none)[k]? =
        some entry at here
      rw [more, inOrder.lastApplied, List.getElem?_append] at here
      split at here
      · exact inOrder.index k entry here
      · rw [List.getElem?_take] at here
        split at here
        · rw [List.getElem?_drop] at here
          have place := indexed _ entry here
          omega
        · cases here
  · exact inOrder

/-! ### Every step -/

/-- The entries that were logged anew so far, and the copies of a command. -/
structure Accounted (command : Bytes) (c : Network ι) (h : History ι Entry) (made : List Entry)
    (n : Nat) : Prop where
  led : ∀ t, ∀ entry ∈ h.led t, entry = firstEntry ∨ entry ∈ made
  applied : ∀ i, ∀ entry ∈ (c.node i).applied, entry = firstEntry ∨ entry ∈ made
  inOrder : ∀ i, InOrder (c.node i)
  copies : c.pending (.regular command) +
    made.countP (fun entry => entry.command = .regular command) ≤ n

omit [DecidableEq ι] in
theorem Accounted.initial (command : Bytes) :
    Accounted command (.initial : Network ι) (.initial firstEntry) [] 0 := by
  constructor
  · intro t entry mem
    change entry ∈ (if t = 0 then [firstEntry] else []) at mem
    split at mem
    · exact .inl (List.mem_singleton.mp mem)
    · cases mem
  · intro i entry mem
    cases mem
  · exact fun i => ⟨rfl, fun k entry here => by cases here⟩
  · simp [pending, Network.copies, Network.initial, State.initial]

/-- **A move accounts for what it logs and applies.** -/
theorem Accounted.moves {command : Bytes} {h : History ι Entry} {made : List Entry} {n : Nat}
    (small : d.conf.Fits .noOp) (related : Related d c h) (accounted : Accounted command c h made n)
    {a : Move ι} (fitting : d.Fitting a) (moves : d.Moves c a c') :
    Accounted command c' (c.noted a h) (made ++ c.logged a)
      (n + if a.proposal = some command then 1 else 0) := by
  have logs : ∀ i, ∀ entry ∈ (c.node i).raftLog.toList, entry = firstEntry ∨ entry ∈ made := by
    intro i entry mem
    rw [← (related.nodes i).log] at mem
    exact accounted.led _ entry ((related.grounded.logs i).mem mem)
  constructor
  · refine run_led related.grounded (related.moves small fitting moves).1 ?_ ?_
    · exact fun t entry mem => (accounted.led t entry mem).imp id (List.mem_append_left _)
    · exact fun i entry mem => .inr (List.mem_append_right _ (List.mem_filterMap.mpr ⟨_, mem, rfl⟩))
  · intro i entry mem
    suffices old : entry = firstEntry ∨ entry ∈ made from old.imp id (List.mem_append_left _)
    rcases related.applies moves i with ⟨same, -⟩ | applies
    · rw [same] at mem
      exact accounted.applied i entry mem
    · rw [applies, State.applyCommitted] at mem
      split at mem
      · rcases List.mem_append.mp mem with old | new
        · exact accounted.applied i entry old
        · rw [RaftLog.getEntries_take (related.nodes i).indexed (Nat.succ_pos _)] at new
          exact logs i entry (List.mem_of_mem_drop (List.mem_of_mem_take new))
      · exact accounted.applied i entry mem
  · intro i
    have before := accounted.inOrder i
    rcases related.applies moves i with ⟨same, last⟩ | applies
    · refine ⟨?_, ?_⟩
      · rw [same, last]
        exact before.lastApplied
      · rw [same]
        exact before.index
    · rw [applies]
      exact before.apply (related.nodes i).indexed
  · have copies := related.copies moves command
    have before := accounted.copies
    rw [List.countP_append]
    omega

omit [DecidableEq ι] in
theorem Accounted.mono {command : Bytes} {h : History ι Entry} {made : List Entry} {n n' : Nat}
    (accounted : Accounted command c h made n) (more : n ≤ n') : Accounted command c h made n' :=
  { accounted with copies := accounted.copies.trans more }

theorem Does.accounted {calm : Prop} {command : Bytes} {h : History ι Entry} {made : List Entry}
    {n : Nat} (small : d.conf.Fits .noOp) (does : d.Does calm c c') (related : Related d c h)
    (accounted : Accounted command c h made n) :
    ∃ h' made', Related d c' h' ∧ Accounted command c' h' made' n := by
  obtain ⟨as, run⟩ := does
  induction run generalizing h made with
  | nil => exact ⟨h, made, related, accounted⟩
  | @cons _ _ _ a _ moves _ ih =>
      obtain ⟨⟨inner, -⟩, moves⟩ := moves
      have fitting : d.Fitting a := fun command proposed => by
        rw [inner] at proposed
        cases proposed
      have accounted' := accounted.moves small related fitting moves
      rw [inner, if_neg fun same => by cases same] at accounted'
      exact ih (related.moves small fitting moves).2 accounted'

/-- A run accounts for what it logs and applies. -/
theorem Accounted.run {command : Bytes} {h : History ι Entry} {made : List Entry} {n : Nat}
    (small : d.conf.Fits .noOp) {es : List (Event ι)}
    (run : (d.cluster.restrict d.Sized).Run c es c') (related : Related d c h)
    (accounted : Accounted command c h made n) :
    ∃ h' made', Related d c' h' ∧
      Accounted command c' h' made' (n + (es.filterMap Event.proposal).count command) := by
  induction run generalizing h made n with
  | nil => exact ⟨h, made, related, accounted⟩
  | @cons c₁ c₂ c₃ e es moves _ ih =>
      obtain ⟨sized, steps⟩ := moves
      rcases cluster_protocol False small ⟨h, related⟩ False.elim steps with
        does | ⟨i, proposed, rfl, moves⟩
      · obtain ⟨h', made', related', accounted'⟩ := Does.accounted small does related accounted
        obtain ⟨h'', made'', related'', final⟩ := ih related' accounted'
        refine ⟨h'', made'', related'', final.mono (Nat.add_le_add_left ?_ n)⟩
        exact ((List.sublist_cons_self e es).filterMap _).count_le command
      · have fitting : d.Fitting (.propose i proposed) := fun _ same => by
          cases same
          exact sized
        have accounted' := accounted.moves small related fitting moves
        obtain ⟨h'', made'', related'', final⟩ := ih (related.moves small fitting moves).2 accounted'
        refine ⟨h'', made'', related'', final.mono ?_⟩
        simp only [Move.proposal, Event.proposal, Option.some.injEq, List.filterMap_cons,
          List.count_cons, beq_iff_eq]
        omega

theorem run_accounted (small : d.conf.Fits .noOp) {es : List (Event ι)}
    (run : (d.cluster.restrict d.Sized).Run .initial es c) (command : Bytes) :
    ∃ h made, Related d c h ∧
      Accounted command c h made ((es.filterMap Event.proposal).count command) := by
  have accounted := (Accounted.initial command).run small run (.initial small)
  rwa [Nat.zero_add] at accounted

/-! ### Results -/

omit [Fintype ι] [DecidableEq ι] in
/-- Entries that are all different and were logged anew are no more than those. -/
theorem countP_made {entries made : List Entry} (nodup : entries.Nodup)
    (from' : ∀ entry ∈ entries, entry = firstEntry ∨ entry ∈ made) (command : Bytes) :
    entries.countP (fun entry => entry.command = .regular command) ≤
      made.countP (fun entry => entry.command = .regular command) := by
  rw [List.countP_eq_length_filter, List.countP_eq_length_filter]
  refine ((nodup.filter _).subperm fun entry mem => ?_).length_le
  obtain ⟨mem, same⟩ := List.mem_filter.mp mem
  rcases from' entry mem with rfl | new
  · cases of_decide_eq_true same
  · exact List.mem_filter.mpr ⟨new, same⟩

omit [Fintype ι] [DecidableEq ι] in
/-- Entries whose indexes go up one by one are all different. -/
theorem nodup_of_index {entries : List Entry} {n : Nat}
    (index : ∀ k entry, entries[k]? = some entry → entry.idx = k + n) : entries.Nodup := by
  rw [List.nodup_iff_getElem?_ne_getElem?]
  intro k l before last same
  have here := List.getElem?_eq_getElem last
  have first := index l _ here
  rw [← same] at here
  have second := index k _ here
  omega

omit [Fintype ι] [DecidableEq ι] in
theorem count_delivered (s : State ι) (command : Bytes) : s.delivered.count command =
    s.applied.countP fun entry => entry.command = .regular command := by
  rw [State.delivered]
  induction s.applied with
  | nil => rfl
  | cons entry entries ih =>
      cases called : entry.command with
      | regular called' =>
          rw [List.filterMap_cons_some (b := called') (by rw [called]; rfl), List.count_cons, ih,
            List.countP_cons, called]
          simp
      | noOp =>
          rw [List.filterMap_cons_none (by rw [called]; rfl), ih, List.countP_cons, called]
          simp

/-- **Entries are applied in order**: the first that a node applies is entry 2, and none is
skipped or applied again. -/
theorem applied_in_order (small : d.conf.Fits .noOp) {es : List (Event ι)}
    (run : (d.cluster.restrict d.Sized).Run .initial es c) (i : ι) {k : Nat} {entry : Entry}
    (here : (c.node i).applied[k]? = some entry) : entry.idx = k + 2 := by
  obtain ⟨h, made, -, accounted⟩ := run_accounted small run []
  exact (accounted.inOrder i).index k entry here

theorem applied_in_order_pair : ∃ c : Network Bool,
    (c.node false).applied[1]? = some ⟨.regular [7], 3, 1⟩ ∧
      (⟨.regular [7], 3, 1⟩ : Entry).idx = 1 + 2 := by
  obtain ⟨c, c', run, run', -, seen'⟩ := pair_runs
  have applied : (c'.node false).applied = served.rest := congrArg (fun sight => sight.applied.2) seen'
  have here : (c'.node false).applied[1]? = some ⟨.regular [7], 3, 1⟩ := by
    rw [applied]
    rfl
  exact ⟨c', here, applied_in_order (by decide) (run.append run') false here⟩

/-- A node calls a replicated method with a command no more often than it was proposed. -/
theorem count_delivered_le (small : d.conf.Fits .noOp) {es : List (Event ι)}
    (run : (d.cluster.restrict d.Sized).Run .initial es c) (i : ι) (command : Bytes) :
    (c.node i).delivered.count command ≤ (es.filterMap Event.proposal).count command := by
  obtain ⟨h, made, -, accounted⟩ := run_accounted small run command
  have total := accounted.copies
  rw [count_delivered]
  have := countP_made (nodup_of_index (accounted.inOrder i).index) (accounted.applied i) command
  omega

/-- **No call is duplicated.** A node calls a replicated method with a command, and has it in
its log, no more often than it was proposed. -/
theorem delivered_at_most_once (small : d.conf.Fits .noOp) {es : List (Event ι)}
    (run : (d.cluster.restrict d.Sized).Run .initial es c) (i : ι) (command : Bytes) :
    (c.node i).delivered.count command ≤ (es.filterMap Event.proposal).count command ∧
      ((c.node i).raftLog.toList.countP fun entry => entry.command = .regular command) ≤
        (es.filterMap Event.proposal).count command := by
  obtain ⟨h, made, related, accounted⟩ := run_accounted small run command
  have total := accounted.copies
  have logs : ∀ entry ∈ (c.node i).raftLog.toList, entry = firstEntry ∨ entry ∈ made := by
    intro entry mem
    rw [← (related.nodes i).log] at mem
    exact accounted.led _ entry ((related.grounded.logs i).mem mem)
  refine ⟨count_delivered_le small run i command, ?_⟩
  have := countP_made (nodup_of_index (related.nodes i).indexed) logs command
  omega

theorem delivered_at_most_once_pair : ∃ c : Network Bool, (c.node false).applied = served.rest ∧
    (c.node false).delivered.count [7] ≤ 1 ∧
      ((c.node false).raftLog.toList.countP fun entry => entry.command = .regular [7]) ≤ 1 := by
  obtain ⟨c, c', run, run', -, seen'⟩ := pair_runs
  exact ⟨c', congrArg (fun sight => sight.applied.2) seen',
    delivered_at_most_once (by decide) (run.append run') false [7]⟩

end Belcoin.SyncObj
