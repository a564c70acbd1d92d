import Belcoin.Lib.Chosen
import Belcoin.SyncObj.Safety

/-!
What the nodes of a cluster commit and apply.

In runs in which a leader's messages always have room for all that comes after (`Unsplit`)
and no reply of an earlier term reaches a leader (`Fresh`), all nodes apply the same entries in
the same order (`state_machine_safety`), and leaders have them in their logs
(`leader_completeness`).

A message that is split takes back entries that the node has confirmed, until the rest of it
arrives, and a reply of an earlier term may confirm what the node has lost. `Commits` says
what holds otherwise: the messages of a term reach up to ever later entries (`Later`), so
that a node never has less than it has confirmed.
-/

namespace Belcoin.SyncObj

open Consensus Network Deployment

variable {ι : Type}

/-! ### The invariant -/

/-- The term of a message with entries, and the length that it makes a log have. -/
def Message.upTo : Message → Option (Nat × Nat)
  | .appendEntries term _ (.entries entries (some prev)) => some (term, prev.1 + entries.length)
  | _ => none

/-- Entries that were sent later reach no less far. -/
def Later (p q : Packet) : Prop :=
  ∀ term x y, p.message.upTo = some (term, x) → q.message.upTo = some (term, y) → x ≤ y

variable [Fintype ι]

/-- What a node commits and applies is chosen, and a leader knows no more of a node than
what it has kept. -/
structure NodeCommits (h : History ι Entry) (i : ι) (s : State ι) : Prop where
  leader : s.raftState = .leader → h.kept (h.term i) i = s.raftLog.toList.length ∧
    ∀ j, j ≠ i → s.raftMatchIndex j ≤ h.kept (h.term i) j
  reach : s.raftCommitIndex ≤ s.raftLog.toList.length
  committed : h.Chosen Entry.term (h.term i) (s.raftLog.toList.take s.raftCommitIndex)
  applied : h.Chosen Entry.term (h.term i) (firstEntry :: s.applied)
  lastApplied : s.raftLastApplied = s.applied.length + 1

/-- A message that a node sends in a term, and what is chosen and kept. -/
def MessageCommits (h : History ι Entry) (a : ι) (term : Nat) : Message → Prop
  | .appendEntries leaderTerm commitIndex _ => commitIndex ≤ (h.led leaderTerm).length ∧
      h.Chosen Entry.term leaderTerm ((h.led leaderTerm).take commitIndex)
  | .nextNodeIdx nextNodeIdx _ success => success = true → nextNodeIdx - 1 ≤ h.kept term a
  | _ => True

structure Commits (c : Network ι) (h : History ι Entry) : Prop where
  guarded : h.Guarded Entry.term
  nodes : ∀ i, NodeCommits h i (c.node i)
  packets : ∀ a b, ∀ p ∈ c.link a b, MessageCommits h a p.term p.message
  upTo : ∀ a b, ∀ p ∈ c.link a b, ∀ term x, p.message.upTo = some (term, x) →
    h.kept term b ≤ x ∧ h.Own Entry.term term (x - 1)
  order : ∀ a b, (c.link a b).Pairwise Later

/-! ### Later histories -/

section Frames

variable {h h' : History ι Entry}

theorem MessageCommits.extends (extends' : h.Extends h') {a : ι} {term : Nat} {m : Message}
    (commits : MessageCommits h a term m) : MessageCommits h' a term m := by
  cases m with
  | appendEntries leaderTerm commitIndex body =>
      obtain ⟨reaches, chosen⟩ := commits
      obtain ⟨new, whole⟩ := extends'.led leaderTerm
      refine ⟨reaches.trans (extends'.led leaderTerm).length_le, ?_⟩
      rw [← whole, List.take_append_of_le_length reaches]
      exact chosen.extends extends'
  | nextNodeIdx nextNodeIdx reset success =>
      exact fun succeeds => (commits succeeds).trans (extends'.kept term a)
  | _ => trivial

/-- A node that changes none of what it commits and applies. -/
theorem NodeCommits.idle {i : ι} {s s' : State ι} (commits : NodeCommits h i s)
    (extends' : h.Extends h') (log : s'.raftLog = s.raftLog)
    (commit : s'.raftCommitIndex = s.raftCommitIndex)
    (applied : s'.applied = s.applied) (last : s'.raftLastApplied = s.raftLastApplied)
    (leads : s'.raftState = .leader → s.raftState = .leader ∧ h'.term i = h.term i ∧
      h'.kept (h.term i) i = h.kept (h.term i) i ∧
      ∀ j, j ≠ i → s'.raftMatchIndex j ≤ h'.kept (h.term i) j) : NodeCommits h' i s' where
  leader role := by
    obtain ⟨led, term, kept, matched⟩ := leads role
    rw [term, log, kept]
    exact ⟨(commits.leader led).1, matched⟩
  reach := by
    rw [log, commit]
    exact commits.reach
  committed := by
    rw [log, commit]
    exact (commits.committed.extends extends').mono (extends'.term i)
  applied := by
    rw [applied]
    exact (commits.applied.extends extends').mono (extends'.term i)
  lastApplied := by
    rw [applied, last]
    exact commits.lastApplied

end Frames

variable [DecidableEq ι] {d : Deployment ι} {c : Network ι} {h h' : History ι Entry}

omit [DecidableEq ι] in
theorem upTo_elected {a b : ι} {m : Message} (sound : MessageSound d h a b m) {term x : Nat}
    (upTo : m.upTo = some (term, x)) : h.Elected term a := by
  cases m with
  | appendEntries leaderTerm commitIndex body =>
      obtain ⟨elected, entries, prev, rfl, -⟩ := sound
      cases prev with
      | none => cases upTo
      | some prev =>
          cases upTo
          exact elected
  | _ => cases upTo

/-- Messages may get lost. -/
theorem Commits.fewer (commits : Commits c h) {a b : ι} {packets : List Packet}
    (fewer : packets.Sublist (c.link a b)) : Commits (c.setLink a b packets) h := by
  have sublist : ∀ a' b', ((c.setLink a b packets).link a' b').Sublist (c.link a' b') := by
    intro a' b'
    by_cases here : a' = a ∧ b' = b
    · obtain ⟨rfl, rfl⟩ := here
      rw [link_setLink_self]
      exact fewer
    · rw [link_setLink_ne c here]
  exact
    { commits with
      packets := fun a' b' p mem => commits.packets a' b' p ((sublist a' b').subset mem)
      upTo := fun a' b' p mem => commits.upTo a' b' p ((sublist a' b').subset mem)
      order := fun a' b' => (commits.order a' b').sublist (sublist a' b') }

/-- The next message is taken from a link. -/
theorem Commits.dropped (commits : Commits c h) {a b : ι} {p : Packet} {rest : List Packet}
    (head : c.link a b = p :: rest) : Commits (c.setLink a b rest) h := by
  apply commits.fewer
  rw [head]
  exact List.sublist_cons_self _ _

/-- **A change of one node**, of what it sends and of the history. -/
theorem Commits.put (commits : Commits c h) (guarded : h'.Guarded Entry.term)
    (extends' : h.Extends h') {i : ι} {s : State ι} {out : Outbox ι} (node : NodeCommits h' i s)
    (others : ∀ j, j ≠ i → h'.term j = h.term j ∧ ∀ t, h'.kept t j = h.kept t j)
    (incoming : ∀ a, ∀ p ∈ c.link a i, ∀ term x, p.message.upTo = some (term, x) →
      h'.kept term i ≤ x)
    (sent : ∀ b, ∀ p ∈ posts s.raftCurrentTerm b out, MessageCommits h' i p.term p.message ∧
      ∀ term x, p.message.upTo = some (term, x) →
        h'.kept term b ≤ x ∧ h'.Own Entry.term term (x - 1))
    (later : ∀ b, (c.link i b ++ posts s.raftCurrentTerm b out).Pairwise Later) :
    Commits (c.put i s out) h' := by
  constructor
  · exact guarded
  · intro j
    by_cases same : j = i
    · subst same
      rw [node_put_self]
      exact node
    · rw [node_put_ne c same]
      obtain ⟨term, kept⟩ := others j same
      refine (commits.nodes j).idle extends' rfl rfl rfl rfl fun role => ⟨role, term, kept _, ?_⟩
      exact fun k other => (((commits.nodes j).leader role).2 k other).trans (extends'.kept _ _)
  · intro a b p mem
    rcases mem_link_put mem with old | ⟨rfl, new⟩
    · exact (commits.packets a b p old).extends extends'
    · exact (sent b p new).1
  · intro a b p mem term x upTo
    rcases mem_link_put mem with old | ⟨rfl, new⟩
    · obtain ⟨enough, own⟩ := commits.upTo a b p old term x upTo
      refine ⟨?_, own.grows extends'.toGrows⟩
      by_cases same : b = i
      · subst same
        exact incoming a p old term x upTo
      · rw [(others b same).2]
        exact enough
    · exact (sent b p new).2 term x upTo
  · intro a b
    change (if a = i then c.link a b ++ posts s.raftCurrentTerm b out else c.link a b).Pairwise Later
    split
    · rename_i same
      subst same
      exact later b
    · exact commits.order a b

/-- A message with neither entries nor a success. -/
def Message.Plain : Message → Prop
  | .appendEntries _ _ _ => False
  | .nextNodeIdx _ _ success => success = false
  | _ => True

theorem Message.Plain.upTo {m : Message} (plain : m.Plain) : m.upTo = none := by
  cases m with
  | appendEntries leaderTerm commitIndex body => exact plain.elim
  | _ => rfl

omit [DecidableEq ι] in
theorem Message.Plain.commits {m : Message} (plain : m.Plain) (a : ι) (term : Nat) :
    MessageCommits h a term m := by
  cases m with
  | appendEntries leaderTerm commitIndex body => exact plain.elim
  | nextNodeIdx nextNodeIdx reset success =>
      intro succeeds
      rw [show success = false from plain] at succeeds
      cases succeeds
  | _ => trivial

/-- Messages without entries may be sent after any others. -/
theorem later_append {packets packets' : List Packet} (order : packets.Pairwise Later)
    (without : ∀ p ∈ packets', p.message.upTo = none) : (packets ++ packets').Pairwise Later := by
  refine List.pairwise_append.mpr ⟨order, List.pairwise_of_forall_mem_list ?_, ?_⟩
  · intro p mem q _ term x y upTo
    rw [without p mem] at upTo
    cases upTo
  · intro p _ q mem term x y _ upTo
    rw [without q mem] at upTo
    cases upTo

/-- A change that leaves what a node commits, applies and keeps. -/
theorem Commits.idle (commits : Commits c h) (guarded : h'.Guarded Entry.term)
    (extends' : h.Extends h') {i : ι} {s : State ι} {out : Outbox ι}
    (log : s.raftLog = (c.node i).raftLog) (commit : s.raftCommitIndex = (c.node i).raftCommitIndex)
    (applied : s.applied = (c.node i).applied)
    (last : s.raftLastApplied = (c.node i).raftLastApplied)
    (leads : s.raftState = .leader → (c.node i).raftState = .leader ∧ h'.term i = h.term i ∧
      ∀ j, j ≠ i → s.raftMatchIndex j ≤ h'.kept (h.term i) j)
    (others : ∀ j, j ≠ i → h'.term j = h.term j) (kept : ∀ t j, h'.kept t j = h.kept t j)
    (plain : ∀ m ∈ out, m.2.Plain) : Commits (c.put i s out) h' := by
  have plain' : ∀ b, ∀ p ∈ posts s.raftCurrentTerm b out, p.message.Plain :=
    fun b p mem => plain _ (mem_posts.mp mem).2
  refine commits.put guarded extends' ?_ (fun j other => ⟨others j other, fun t => kept t j⟩) ?_ ?_
    fun b => later_append (commits.order i b) fun p mem => (plain' b p mem).upTo
  · refine (commits.nodes i).idle extends' log commit applied last fun role => ?_
    obtain ⟨led, term, matched⟩ := leads role
    exact ⟨led, term, kept _ _, matched⟩
  · intro a p mem term x upTo
    rw [kept]
    exact (commits.upTo a i p mem term x upTo).1
  · intro b p mem
    refine ⟨(plain' b p mem).commits i p.term, fun term x upTo => ?_⟩
    rw [(plain' b p mem).upTo] at upTo
    cases upTo

/-! ### The leader -/

omit [Fintype ι] [DecidableEq ι] in
/-- The commit loop ends at an index that enough nodes have. -/
theorem commitLoop_most (env : Env ι) (s : State ι) (left commitIndex : Nat) :
    env.commitLoop s left commitIndex ≤ commitIndex + left ∧
      (env.commitLoop s left commitIndex = commitIndex ∨
        commitIndex < env.commitLoop s left commitIndex ∧ env.Most (1 + env.nodes.countP
          fun nodeAddr => env.commitLoop s left commitIndex ≤ s.raftMatchIndex nodeAddr)) := by
  induction left generalizing commitIndex with
  | zero => exact ⟨le_rfl, .inl rfl⟩
  | succ left ih =>
      rw [Env.commitLoop]
      split
      · rename_i most
        obtain ⟨bound, same | ⟨further, most'⟩⟩ := ih (commitIndex + 1)
        · rw [same] at bound ⊢
          exact ⟨by omega, .inr ⟨by omega, most⟩⟩
        · exact ⟨by omega, .inr ⟨by omega, most'⟩⟩
      · exact ⟨by omega, .inl rfl⟩

/-- A node and the nodes that are counted are a majority. -/
theorem Deployment.majority (d : Deployment ι) (i : ι) {p : ι → Bool} {q : ι → Prop}
    (most : (d.env i).Most (1 + (d.nodes i).countP p)) (own : q i)
    (counted : ∀ j, j ≠ i → p j → q j) : Majority q := by
  refine ⟨insert i ((d.nodes i).filter p).toFinset, ?_, fun j mem => ?_⟩
  · have absent : i ∉ ((d.nodes i).filter p).toFinset := by
      intro mem
      exact (d.mem_nodes i i).mp (List.mem_filter.mp (List.mem_toFinset.mp mem)).1 rfl
    rw [Finset.card_insert_of_notMem absent,
      List.toFinset_card_of_nodup ((d.nodup i).filter p), ← List.countP_eq_length_filter, d.card i,
      Nat.add_comm ((d.nodes i).countP p)]
    exact most
  · rcases Finset.mem_insert.mp mem with rfl | mem
    · exact own
    · obtain ⟨inside, has⟩ := List.mem_filter.mp (List.mem_toFinset.mp mem)
      exact counted j ((d.mem_nodes i j).mp inside) has

/-- **What a leader commits** is chosen. -/
theorem Commits.commit (related : Related d c h) (commits : Commits c h) {i : ι}
    (role : (c.node i).raftState = .leader) :
    Commits (c.put i ((d.env i).commit (c.node i)) []) h := by
  have node := commits.nodes i
  have sound := related.nodes i
  obtain ⟨kept, matched⟩ := node.leader role
  obtain ⟨-, whole⟩ := sound.leader role
  rw [sound.log] at whole
  have length := RaftLog.getCurrentLogIndex_eq sound.indexed
  refine commits.put commits.guarded (.refl h) ?_ (fun j _ => ⟨rfl, fun _ => rfl⟩)
    (fun a p mem term x upTo => (commits.upTo a i p mem term x upTo).1)
    (fun b p mem => by cases mem) fun b => ?_
  · have commits' := commitLoop_most (d.env i) (c.node i)
      ((c.node i).raftLog.getCurrentLogIndex - (c.node i).raftCommitIndex)
      (c.node i).raftCommitIndex
    rw [Env.commit]
    generalize (d.env i).commitLoop (c.node i) _ _ = commitIndex at commits' ⊢
    obtain ⟨bound, rfl | ⟨further, most⟩⟩ := commits'
    · exact node
    · have reach := node.reach
      have inside : commitIndex ≤ (c.node i).raftLog.toList.length := by omega
      refine ⟨node.leader, inside, ?_, node.applied, node.lastApplied⟩
      change h.Chosen _ _ ((c.node i).raftLog.toList.take commitIndex)
      rw [← whole]
      refine .of_kept commits.guarded (by omega) (d.majority i most ?_ fun j other has => ?_)
      · rw [kept]
        exact inside
      · exact (of_decide_eq_true has).trans (matched j other)
  · simpa using commits.order i b

/-- A leader that logs an entry keeps it. -/
theorem Commits.append (related : Related d c h) (commits : Commits c h) {i : ι} {s : State ι}
    {e : Entry} (guarded : (h.append i e).Guarded Entry.term) (extends' : h.Extends (h.append i e))
    (leads : h.Leads i) (log : s.raftLog = (c.node i).raftLog.add e)
    (commit : s.raftCommitIndex = (c.node i).raftCommitIndex)
    (applied : s.applied = (c.node i).applied)
    (last : s.raftLastApplied = (c.node i).raftLastApplied)
    (matched : ∀ j, j ≠ i → s.raftMatchIndex j ≤ h.kept (h.term i) j) :
    Commits (c.put i s []) (h.append i e) := by
  have node := commits.nodes i
  have sound := related.nodes i
  have kept : ∀ t j, ¬ (t = h.term i ∧ j = i) → (h.append i e).kept t j = h.kept t j :=
    fun t j elsewhere => (History.hold_kept h i _ t j).trans (if_neg elsewhere)
  refine commits.put guarded extends' ?_ (fun j other => ⟨rfl, fun t => kept t j fun here =>
    other here.2⟩) ?_ (fun b p mem => by cases mem) fun b => by simpa using commits.order i b
  · refine ⟨fun _ => ⟨?_, fun j other => ?_⟩, ?_, ?_, ?_, ?_⟩
    · change (h.hold i (h.log i ++ [e])).kept (h.term i) i = _
      rw [History.hold_kept, if_pos ⟨rfl, rfl⟩, log, RaftLog.toList_add, sound.log]
    · exact (matched j other).trans (extends'.kept _ _)
    · rw [log, commit, RaftLog.toList_add, List.length_append]
      exact node.reach.trans (Nat.le_add_right _ _)
    · rw [log, commit, RaftLog.toList_add, List.take_append_of_le_length node.reach]
      exact node.committed.extends extends'
    · rw [applied]
      exact node.applied.extends extends'
    · rw [applied, last]
      exact node.lastApplied
  · -- nobody else sends entries of the term
    intro a p mem term x upTo
    rw [kept]
    · exact (commits.upTo a i p mem term x upTo).1
    · rintro ⟨rfl, -⟩
      obtain ⟨apart, sound⟩ := related.packets a i p mem
      exact apart ((upTo_elected sound upTo).unique leads.1)

omit [Fintype ι] [DecidableEq ι] in
/-- Where a pass with room for all that comes after reaches. -/
theorem passMessage_upTo {env : Env ι} {s : State ι} (indexed : Indexed s.raftLog.toList)
    {nextNodeIndex : Nat} (inside : 2 ≤ nextNodeIndex)
    (room : bytesOf (s.raftLog.toList.drop (nextNodeIndex - 1)) <
      env.conf.appendEntriesBatchSizeBytes) {term x : Nat}
    (upTo : (env.passMessage s nextNodeIndex).upTo = some (term, x)) :
    term = s.raftCurrentTerm ∧ x = s.raftLog.toList.length := by
  have whole : env.entriesFrom s nextNodeIndex = s.raftLog.toList.drop (nextNodeIndex - 1) :=
    batch_whole (by omega)
  rw [Env.passMessage, whole] at upTo
  cases prev : s.raftLog.getPrevLogIndexTerm nextNodeIndex with
  | none =>
      rw [prev] at upTo
      cases upTo
  | some prev' =>
      obtain ⟨p, pt⟩ := prev'
      obtain ⟨rfl, entry, here, -⟩ := RaftLog.getPrevLogIndexTerm_some indexed inside prev
      have short := (List.getElem?_eq_some_iff.mp here).1
      rw [prev] at upTo
      cases upTo
      refine ⟨rfl, ?_⟩
      change nextNodeIndex - 1 + (s.raftLog.toList.drop (nextNodeIndex - 1)).length = _
      rw [List.length_drop]
      omega

/-- **What a leader sends** reaches up to the end of its log. -/
theorem Commits.pass (related : Related d c h) (commits : Commits c h) {i j : ι}
    {messages : List Message} {next : Nat} (role : (c.node i).raftState = .leader)
    (room : bytesOf ((c.node i).raftLog.toList.drop ((c.node i).raftNextIndex j - 1)) <
      d.conf.appendEntriesBatchSizeBytes)
    (sends : (d.env i).sendPass (c.node i) ((c.node i).raftNextIndex j) = some (messages, next)) :
    Commits (c.put i { c.node i with
      raftNextIndex := Function.update (c.node i).raftNextIndex j next } (messages.map (j, ·))) h := by
  have node := commits.nodes i
  have sound := related.nodes i
  obtain ⟨elected, whole⟩ := sound.leader role
  rw [sound.term, sound.log] at whole
  have led : h.led (c.node i).raftCurrentTerm ≠ [] := by
    rw [whole]
    exact RaftLog.toList_ne_nil _
  obtain ⟨next', sent, -, -⟩ :=
    sendPass_sound (d.env i) sound.indexed sound.fits (sound.next j)
  rw [sent] at sends
  cases sends
  -- what is posted is the message of the pass
  have posted : ∀ b, ∀ p ∈ posts (c.node i).raftCurrentTerm b
      [(j, (d.env i).passMessage (c.node i) ((c.node i).raftNextIndex j))],
      p.message = (d.env i).passMessage (c.node i) ((c.node i).raftNextIndex j) := by
    intro b p mem
    obtain ⟨-, mem⟩ := mem_posts.mp mem
    exact (Prod.mk.inj (List.mem_singleton.mp mem)).2
  have reaches : ∀ b, ∀ p ∈ posts (c.node i).raftCurrentTerm b
      [(j, (d.env i).passMessage (c.node i) ((c.node i).raftNextIndex j))], ∀ term x,
      p.message.upTo = some (term, x) →
        term = (c.node i).raftCurrentTerm ∧ x = (h.led (c.node i).raftCurrentTerm).length := by
    intro b p mem term x upTo
    rw [posted b p mem] at upTo
    rw [whole]
    exact passMessage_upTo sound.indexed (sound.next j) room upTo
  refine commits.put commits.guarded (.refl h) ?_ (fun j _ => ⟨rfl, fun _ => rfl⟩)
    (fun a p mem term x upTo => (commits.upTo a i p mem term x upTo).1) ?_ fun b => ?_
  · exact node.idle (.refl h) rfl rfl rfl rfl fun role => ⟨role, rfl, rfl, (node.leader role).2⟩
  · intro b p mem
    refine ⟨?_, fun term x upTo => ?_⟩
    · rw [posted b p mem]
      change (c.node i).raftCommitIndex ≤ (h.led (c.node i).raftCurrentTerm).length ∧
        h.Chosen _ _ ((h.led (c.node i).raftCurrentTerm).take _)
      rw [whole]
      refine ⟨node.reach, ?_⟩
      rw [← sound.term]
      exact node.committed
    · obtain ⟨rfl, rfl⟩ := reaches b p mem term x upTo
      exact ⟨commits.guarded.reach _ _, commits.guarded.last _ led⟩
  · refine List.pairwise_append.mpr ⟨commits.order i b, ?_, ?_⟩
    · refine List.pairwise_of_forall_mem_list fun p mem q mem' term x y upTo upTo' => ?_
      rw [(reaches b p mem term x upTo).2, (reaches b q mem' term y upTo').2]
    · intro p old q new term x y upTo upTo'
      obtain ⟨rfl, rfl⟩ := reaches b q new term y upTo'
      have := (commits.upTo i b p old _ x upTo).2.lt
      omega

/-! ### The other moves -/

/-- **What a node applies** is chosen. -/
theorem Commits.apply (related : Related d c h) (commits : Commits c h) {i : ι} :
    Commits (c.put i (c.node i).applyCommitted []) h := by
  have node := commits.nodes i
  have sound := related.nodes i
  refine commits.put commits.guarded (.refl h) ?_ (fun j _ => ⟨rfl, fun _ => rfl⟩)
    (fun a p mem term x upTo => (commits.upTo a i p mem term x upTo).1)
    (fun b p mem => by cases mem) fun b => by simpa using commits.order i b
  rw [State.applyCommitted]
  split
  · rename_i behind
    have length : (firstEntry :: (c.node i).applied).length = (c.node i).raftLastApplied := by
      rw [node.lastApplied, List.length_cons]
    have reach := node.reach
    -- what is applied is the start of what is committed
    have before : firstEntry :: (c.node i).applied <+:
        (c.node i).raftLog.toList.take (c.node i).raftCommitIndex := by
      rcases node.applied.comparable commits.guarded node.committed with part | part
      · exact part
      · have := part.length_le
        rw [List.length_take] at this
        omega
    have start : firstEntry :: (c.node i).applied =
        (c.node i).raftLog.toList.take (c.node i).raftLastApplied := by
      have taken := List.prefix_iff_eq_take.mp before
      rw [length, List.take_take, min_eq_left behind.le] at taken
      exact taken
    have more : (c.node i).raftLog.getEntries (some ((c.node i).raftLastApplied + 1))
        (some ((c.node i).raftCommitIndex - (c.node i).raftLastApplied)) none =
          ((c.node i).raftLog.toList.drop (c.node i).raftLastApplied).take
            ((c.node i).raftCommitIndex - (c.node i).raftLastApplied) :=
      RaftLog.getEntries_take sound.indexed (Nat.succ_pos _) _
    refine ⟨node.leader, node.reach, node.committed, ?_, ?_⟩
    · change h.Chosen _ _ (firstEntry :: ((c.node i).applied ++ _))
      rw [more, ← List.cons_append, start, ← List.take_add,
        Nat.add_sub_cancel' behind.le]
      exact node.committed
    · change (c.node i).raftLastApplied + List.length _ = ((c.node i).applied ++ _).length + 1
      rw [node.lastApplied, List.length_append]
      omega
  · exact node

theorem Commits.response (related : Related d c h) (commits : Commits c h) {src dst : ι}
    {stamp nextNodeIdx : Nat} {reset success : Bool} {rest : List Packet}
    (head : c.link src dst = ⟨stamp, .nextNodeIdx nextNodeIdx reset success⟩ :: rest)
    (fresh : (c.node dst).raftState = .leader → stamp = (c.node dst).raftCurrentTerm) :
    Commits ((c.setLink src dst rest).put dst
      ((c.node dst).onNextNodeIdx src nextNodeIdx reset success) []) h := by
  have fewer := commits.dropped head
  have confirmed := commits.packets src dst _ (by rw [head]; exact List.mem_cons_self)
  have same : ∀ j, j ≠ dst → h.term j = h.term j := fun _ _ => rfl
  rw [State.onNextNodeIdx]
  split
  · rename_i role
    refine fewer.idle commits.guarded (.refl h) rfl rfl rfl rfl (fun _ => ⟨role, rfl, ?_⟩) same
      (fun _ _ => rfl) (fun m mem => by cases mem)
    intro j other
    have matched := ((commits.nodes dst).leader role).2 j other
    change (if success = true then Function.update (c.node dst).raftMatchIndex src (nextNodeIdx - 1)
      else (c.node dst).raftMatchIndex) j ≤ _
    split
    · rename_i succeeds
      by_cases here : j = src
      · subst here
        rw [Function.update_self, (related.nodes dst).term, ← fresh role]
        exact confirmed succeeds
      · rw [Function.update_of_ne here]
        exact matched
    · exact matched
  · rename_i role
    exact fewer.idle commits.guarded (.refl h) rfl rfl rfl rfl (fun leads => absurd leads role) same
      (fun _ _ => rfl) (fun m mem => by cases mem)

theorem Commits.refused (related : Related d c h) (commits : Commits c h) {src dst : ι}
    {stamp term commitIndex : Nat} {entries : List Entry} {prev : Option (Nat × Nat)}
    {rest : List Packet}
    (head : c.link src dst = ⟨stamp, .appendEntries term commitIndex (.entries entries prev)⟩ :: rest)
    (current : (c.node dst).raftCurrentTerm ≤ term) (refuses : ¬ (c.node dst).Accepts prev) :
    let done := (d.env dst).appendNew src commitIndex entries prev ((c.node dst).follow src term)
    Commits ((c.setLink src dst rest).put dst done.1 done.2) (h.enter dst term) := by
  intro done
  have fewer := commits.dropped head
  obtain ⟨enters, follows⟩ := related.follow src current
  obtain ⟨-, -, entries', prev', body, -, continues⟩ := related.packets src dst _ (by
    rw [head]
    exact List.mem_cons_self)
  cases body
  obtain ⟨next, -, result⟩ := appendNew_refuses (d.env dst) follows.indexed refuses (by
    intro q here start
    rw [follows.first]
    exact (continues q here).2 start) src commitIndex entries
  simp only [done, result]
  refine fewer.idle (commits.guarded.after enters trivial)
    (History.extends_after commits.guarded enters trivial) rfl rfl rfl rfl
    (fun leads => by cases leads) (fun j other => after_term (a := .enter dst term) other)
    (fun _ _ => rfl) ?_
  intro m mem
  rw [Env.send] at mem
  split at mem
  · rw [List.mem_singleton.mp mem]
    rfl
  · cases mem

/-- **What a node copies** is no less than what it has confirmed. -/
theorem Commits.accepted (related : Related d c h) (commits : Commits c h) {src dst : ι}
    {stamp term commitIndex : Nat} {entries : List Entry} {prev : Option (Nat × Nat)}
    {rest : List Packet}
    (head : c.link src dst = ⟨stamp, .appendEntries term commitIndex (.entries entries prev)⟩ :: rest)
    (current : (c.node dst).raftCurrentTerm ≤ term) (accepts : (c.node dst).Accepts prev) :
    let done := (d.env dst).appendNew src commitIndex entries prev ((c.node dst).follow src term)
    let m := prev.elim 0 Prod.fst + entries.length
    Steady Entry.term (h.enter dst term) (.accept dst m) ∧
      Commits ((c.setLink src dst rest).put dst done.1 done.2) ((h.enter dst term).accept dst m) := by
  intro done m
  have node := commits.nodes dst
  have sound := related.nodes dst
  have mem : ⟨stamp, .appendEntries term commitIndex (.entries entries prev)⟩ ∈ c.link src dst := by
    rw [head]
    exact List.mem_cons_self
  have fewer := commits.dropped head
  obtain ⟨enters, follows⟩ := related.follow src current
  obtain ⟨-, elected, entries', prev', body, -, continues⟩ := related.packets src dst _ mem
  cases body
  obtain ⟨p, pt, log, rfl, inside, ⟨entry, here, same⟩, -, whole, result⟩ :=
    appendNew_accepts (d.env dst) follows.indexed accepts src commitIndex entries
  obtain ⟨copied, reaches, indexed⟩ := (continues _ rfl).1.matching related.grounded
    (related.grounded.logs dst) inside (by rw [sound.log]; exact here) same
  rw [sound.log] at copied
  have logged : log.toList = (h.led term).take m := whole.trans copied
  have length : log.toList.length = m := by
    rw [logged, List.length_take]
    exact min_eq_left reaches
  rw [← copied] at indexed
  rw [← (show log.toList = (c.node dst).raftLog.toList.take p ++ entries from whole)] at indexed
  have now : (h.enter dst term).term dst = term := Function.update_self _ _ _
  -- the message reaches no less far than what the node has kept
  obtain ⟨enough, own⟩ := commits.upTo src dst _ mem term m rfl
  have steady : Steady Entry.term (h.enter dst term) (.accept dst m) := by
    refine ⟨?_, ?_⟩
    · rw [now]
      exact enough
    · rw [now]
      exact own
  have copies : (h.enter dst term).Allows Entry.term (.accept dst m) := by
    refine ⟨Nat.lt_of_lt_of_le inside (Nat.le_add_right _ _), ?_⟩
    rw [now]
    exact reaches
  have guarded : (h.enter dst term).Guarded Entry.term := commits.guarded.after enters trivial
  have guarded' : ((h.enter dst term).accept dst m).Guarded Entry.term :=
    guarded.after copies steady
  have extends' : h.Extends ((h.enter dst term).accept dst m) :=
    (History.extends_after commits.guarded enters trivial).trans
      (History.extends_after guarded copies steady)
  have kept : ∀ t j, ((h.enter dst term).accept dst m).kept t j =
      if t = term ∧ j = dst then m else h.kept t j := by
    intro t j
    refine (History.hold_kept _ _ _ _ _).trans ?_
    rw [now, List.length_take, min_eq_left (show m ≤ ((h.enter dst term).led term).length from reaches)]
    rfl
  refine ⟨steady, ?_⟩
  simp only [done, result]
  refine fewer.put guarded' extends' ?_ (fun j other => ⟨?_, fun t => ?_⟩) ?_ ?_ ?_
  · refine ⟨fun leads => ?_, ?_, ?_, ?_, node.lastApplied⟩
    · cases leads
    · change min commitIndex log.getCurrentLogIndex ≤ log.toList.length
      rw [RaftLog.getCurrentLogIndex_eq indexed]
      exact min_le_right _ _
    · obtain ⟨-, chosen⟩ := commits.packets src dst _ mem
      change History.Chosen _ _ ((h.enter dst term).term dst)
        (log.toList.take (min commitIndex log.getCurrentLogIndex))
      rw [now, logged, List.take_take]
      exact (chosen.extends extends').shorter (List.take_prefix_take_left (by omega))
    · change History.Chosen _ _ ((h.enter dst term).term dst) _
      rw [now]
      exact (node.applied.extends extends').mono (sound.term ▸ current)
  · exact after_term (a := .enter dst term) other
  · rw [kept, if_neg fun here => other here.2]
  · intro a q on t x upTo
    rw [kept]
    split
    · rename_i ours
      obtain ⟨rfl, -⟩ := ours
      by_cases sender : a = src
      · -- what comes later on the link reaches no less far
        subst sender
        rw [link_setLink_self] at on
        have order := commits.order a dst
        rw [head] at order
        exact (List.pairwise_cons.mp order).1 q on t m x rfl upTo
      · -- nobody else sends entries of the term
        obtain ⟨-, sound'⟩ := (related.dropped head).packets a dst q on
        exact absurd ((upTo_elected sound' upTo).unique elected) sender
    · exact (fewer.upTo a dst q on t x upTo).1
  · intro b q on
    obtain ⟨stamped, on⟩ := mem_posts.mp on
    rw [Env.send] at on
    split at on
    · rw [List.mem_singleton] at on
      rw [(Prod.mk.inj on).2]
      refine ⟨fun _ => ?_, fun t x upTo => by cases upTo⟩
      have stamp : q.term = term := stamped.trans (max_eq_right current)
      rw [stamp, kept, if_pos ⟨rfl, rfl⟩]
      -- the index in the reply is that of the last entry, or of the next if there is none
      cases last : entries.getLast? with
      | none =>
          change p + 1 - 1 ≤ p + entries.length
          omega
      | some e =>
          have mem : e ∈ log.toList := by
            rw [whole]
            exact List.mem_append_right _ (List.mem_of_getLast? last)
          obtain ⟨k, at'⟩ := List.mem_iff_getElem?.mp mem
          have place := indexed k e at'
          have short := (List.getElem?_eq_some_iff.mp at').1
          change e.idx - 1 ≤ m
          omega
    · cases on
  · intro b
    refine later_append (fewer.order dst b) fun q on => ?_
    obtain ⟨-, on⟩ := mem_posts.mp on
    rw [Env.send] at on
    split at on
    · rw [List.mem_singleton] at on
      rw [(Prod.mk.inj on).2]
      rfl
    · cases on

/-! ### Every step -/

omit [DecidableEq ι] in
theorem Commits.initial : Commits (.initial : Network ι) (.initial firstEntry) := by
  constructor
  · exact .initial rfl
  · intro i
    have chosen : (History.initial firstEntry : History ι Entry).Chosen Entry.term 0 [firstEntry] :=
      .initial i rfl
    refine ⟨fun leads => ?_, le_rfl, chosen, chosen, rfl⟩
    cases leads
  · intro a b p mem
    cases mem
  · intro a b p mem
    cases mem
  · exact fun _ _ => .nil

/-- **A move of a calm run** forgets nothing that nodes have kept, and commits and applies
what is chosen. -/
theorem Commits.moves (small : d.conf.Fits .noOp) (related : Related d c h) (commits : Commits c h)
    {a : Move ι} {c' : Network ι} (fitting : d.Fitting a) (calm : d.Calm c a)
    (moves : d.Moves c a c') : h.Extends (c.noted a h) ∧ Commits c' (c.noted a h) := by
  have guarded := commits.guarded
  have refl : h.Extends h := .refl h
  have next : ∀ {a : Consensus.Move ι Entry}, h.Allows Entry.term a → Steady Entry.term h a →
      h.Extends (h.after a) ∧ (h.after a).Guarded Entry.term :=
    fun allowed steady => ⟨History.extends_after guarded allowed steady,
      guarded.after allowed steady⟩
  have leads : ∀ {i : ι}, (c.node i).raftState = .leader →
      (c.node i).raftState = .leader ∧ h.term i = h.term i ∧
        ∀ j, j ≠ i → (c.node i).raftMatchIndex j ≤ h.kept (h.term i) j :=
    fun role => ⟨role, rfl, ((commits.nodes _).leader role).2⟩
  have none : ∀ m ∈ ([] : Outbox ι), m.2.Plain := fun m mem => by cases mem
  cases moves with
  | @stand i role =>
      obtain ⟨enters, votes, -⟩ := related.stand (i := i)
      obtain ⟨extends', guarded'⟩ := next enters trivial
      have extends'' := extends'.trans (History.extends_after guarded' votes trivial)
      refine ⟨extends'', commits.idle (guarded'.after votes trivial) extends'' rfl rfl rfl rfl
        (fun leads => ?_) (fun j other => after_term (a := .enter i _) other) (fun _ _ => rfl) ?_⟩
      · cases leads
      · intro m mem
        obtain ⟨j, -, rfl⟩ := List.mem_map.mp mem
        trivial
  | @lead i role most =>
      obtain ⟨appends, -⟩ := related.lead small role most
      obtain ⟨extends', guarded'⟩ := next appends trivial
      refine ⟨extends', commits.append related guarded' extends' (related.wins role most) rfl rfl
        rfl rfl fun j other => ?_⟩
      have zero : ((d.env i).lead (c.node i)).raftMatchIndex j = 0 :=
        if_pos ((d.mem_nodes i j).mpr other)
      rw [zero]
      exact Nat.zero_le _
  | pass role inside sends => exact ⟨refl, commits.pass related role calm sends⟩
  | commit role => exact ⟨refl, commits.commit related role⟩
  | @fall i role =>
      refine ⟨refl, commits.idle guarded refl rfl rfl rfl rfl (fun leads => ?_) (fun _ _ => rfl)
        (fun _ _ => rfl) none⟩
      cases leads
  | apply => exact ⟨refl, commits.apply related⟩
  | @take i command queue queued =>
      rcases related.take queued with ⟨role, appends, -⟩ | ⟨role, -⟩
      · have written : c.writes (.take i) = [.append i ⟨command,
            (c.node i).raftLog.getCurrentLogIndex + 1, (c.node i).raftCurrentTerm⟩] := by
          simp only [Network.writes, role, queued]
        obtain ⟨extends', guarded'⟩ := next appends trivial
        rw [Network.noted, written, Env.takeCommand, if_pos role]
        exact ⟨extends', commits.append related guarded' extends' (related.leads role) rfl rfl rfl
          rfl ((commits.nodes i).leader role).2⟩
      · have written : c.writes (.take i) = [] := by
          simp only [Network.writes, queued]
          split
          · rename_i leads _
            exact absurd leads role
          · rfl
        rw [Network.noted, written, Env.takeCommand, if_neg role]
        refine ⟨refl, ?_⟩
        change Commits _ h
        split
        all_goals
          refine commits.idle guarded refl rfl rfl rfl rfl (fun leads => absurd leads role)
            (fun _ _ => rfl) (fun _ _ => rfl) fun m mem => ?_
        · rw [Env.send] at mem
          split at mem
          · rw [List.mem_singleton.mp mem]
            trivial
          · cases mem
        · cases mem
  | @propose i command =>
      refine ⟨refl, ?_⟩
      change Commits _ h
      rw [Env.applyCommand]
      split
      all_goals
        exact commits.idle guarded refl rfl rfl rfl rfl leads (fun _ _ => rfl) (fun _ _ => rfl) none
  | @adopt i term later =>
      obtain ⟨enters, -⟩ := related.adopt later
      obtain ⟨extends', guarded'⟩ := next enters trivial
      refine ⟨extends', ?_⟩
      rw [State.adopt, if_pos later]
      refine commits.idle guarded' extends' rfl rfl rfl rfl (fun leads => ?_)
        (fun j other => after_term (a := .enter i term) other) (fun _ _ => rfl) none
      cases leads
  | grant head role now noOlder noShorter unvoted =>
      obtain ⟨votes, -⟩ := related.grant head role now noOlder noShorter unvoted
      obtain ⟨extends', guarded'⟩ := next votes trivial
      refine ⟨extends', (commits.dropped head).idle guarded' extends' rfl rfl rfl rfl
        (fun leads => absurd leads role) (fun _ _ => rfl) (fun _ _ => rfl) fun m mem => ?_⟩
      rw [Env.send] at mem
      split at mem
      · rw [List.mem_singleton.mp mem]
        trivial
      · cases mem
  | @count src dst stamp rest head role =>
      refine ⟨refl, (commits.dropped head).idle guarded refl rfl rfl rfl rfl (fun leads => ?_) (fun _ _ => rfl)
        (fun _ _ => rfl) none⟩
      rw [show (c.node dst).raftState = .leader from leads] at role
      cases role
  | @entries src dst stamp term commitIndex entries prev rest head current =>
      obtain ⟨enters, accepted⟩ := related.entries head current
      obtain ⟨extends', guarded'⟩ := next enters trivial
      by_cases accepts : (c.node dst).Accepts prev
      · have written : c.writes (.entries src dst) =
            [.enter dst term, .accept dst (prev.elim 0 Prod.fst + entries.length)] := by
          simp only [Network.writes, head, if_pos accepts]
        obtain ⟨-, copies, -⟩ := accepted.resolve_right fun refused => refused.1 accepts
        obtain ⟨steady, after⟩ := commits.accepted related head current accepts
        rw [Network.noted, written]
        exact ⟨extends'.trans (History.extends_after guarded' copies steady), after⟩
      · have written : c.writes (.entries src dst) = [.enter dst term] := by
          simp only [Network.writes, head, if_neg accepts]
        rw [Network.noted, written]
        exact ⟨extends', commits.refused related head current accepts⟩
  | @oversize src dst stamp term commitIndex body rest c' head other =>
      obtain ⟨-, -, entries, prev, body, -⟩ := related.packets src dst _ (by
        rw [head]
        exact List.mem_cons_self)
      exact absurd body (other entries prev)
  | response head =>
      exact ⟨refl, commits.response related head fun role => calm _ (by rw [head]; rfl) role⟩
  | @command src dst stamp command rest head =>
      refine ⟨refl, ?_⟩
      change Commits _ h
      rw [Env.applyCommand]
      split
      all_goals
        exact (commits.dropped head).idle guarded refl rfl rfl rfl rfl leads (fun _ _ => rfl)
          (fun _ _ => rfl) none
  | lose => exact ⟨refl, commits.fewer (List.eraseIdx_sublist _ _)⟩

/-! ### Runs -/

/-- The steps of the runs that the results are about. -/
def Deployment.Quiet (d : Deployment ι) (c : Network ι) (e : Event ι) : Prop :=
  d.Sized c e ∧ d.Unsplit c e ∧ c.Fresh e

instance (d : Deployment ι) (c : Network ι) (e : Event ι) : Decidable (d.Quiet c e) :=
  inferInstanceAs (Decidable (_ ∧ _ ∧ _))

theorem Does.commits (small : d.conf.Fits .noOp) {c' : Network ι} (does : d.Does True c c')
    (related : Related d c h) (commits : Commits c h) :
    ∃ h', h.Extends h' ∧ Related d c' h' ∧ Commits c' h' := by
  obtain ⟨as, run⟩ := does
  induction run generalizing h with
  | nil => exact ⟨h, .refl h, related, commits⟩
  | cons moves _ ih =>
      obtain ⟨⟨inner, calm⟩, moves⟩ := moves
      have fitting : d.Fitting _ := fun command proposed => by
        rw [inner] at proposed
        cases proposed
      obtain ⟨-, related'⟩ := related.moves small fitting moves
      obtain ⟨extends', commits'⟩ := commits.moves small related fitting (calm trivial) moves
      obtain ⟨h', extends'', rest⟩ := ih related' commits'
      exact ⟨h', extends'.trans extends'', rest⟩

/-- A step of a quiet run. -/
theorem quiet_step (small : d.conf.Fits .noOp) {c' : Network ι} {e : Event ι} (quiet : d.Quiet c e)
    (steps : d.Steps c e c') (related : Related d c h) (commits : Commits c h) :
    ∃ h', h.Extends h' ∧ Related d c' h' ∧ Commits c' h' := by
  obtain ⟨sized, quiet⟩ := quiet
  rcases cluster_protocol True small ⟨h, related⟩ (fun _ => quiet) steps with
    does | ⟨i, command, rfl, moves⟩
  · exact Does.commits small does related commits
  · have fitting : d.Fitting (.propose i command) := fun _ same => by
      cases same
      exact sized
    obtain ⟨-, related'⟩ := related.moves small fitting moves
    obtain ⟨extends', commits'⟩ := commits.moves small related fitting trivial moves
    exact ⟨_, extends', related', commits'⟩

theorem quiet_run (small : d.conf.Fits .noOp) {c' : Network ι} {es : List (Event ι)}
    (run : (d.cluster.restrict d.Quiet).Run c es c') (related : Related d c h)
    (commits : Commits c h) : ∃ h', h.Extends h' ∧ Related d c' h' ∧ Commits c' h' := by
  induction run generalizing h with
  | nil => exact ⟨h, .refl h, related, commits⟩
  | cons moves _ ih =>
      obtain ⟨h', extends', related', commits'⟩ := quiet_step small moves.1 moves.2 related commits
      obtain ⟨h'', extends'', rest⟩ := ih related' commits'
      exact ⟨h'', extends'.trans extends'', rest⟩

theorem quiet_reachable (small : d.conf.Fits .noOp)
    (reached : (d.cluster.restrict d.Quiet).Reachable c) : ∃ h, Related d c h ∧ Commits c h := by
  induction reached with
  | start first =>
      obtain rfl := first
      exact ⟨_, .initial small, .initial⟩
  | step _ moves ih =>
      obtain ⟨h, related, commits⟩ := ih
      obtain ⟨h', -, rest⟩ := quiet_run small (.cons moves (.nil _)) related commits
      exact ⟨h', rest⟩

section Results

variable {c' : Network ι} {es : List (Event ι)}

theorem pair_quiet : ∃ c c', (pair.cluster.restrict pair.Quiet).Run .initial elect c ∧
    (pair.cluster.restrict pair.Quiet).Run c serve c' ∧
    look c = ⟨(.leader, .follower), (1, 1), (some true, some true),
      (⟨firstEntry, [⟨.noOp, 2, 1⟩]⟩, ⟨firstEntry, []⟩), ([], [])⟩ ∧
    look c' = ⟨(.leader, .follower), (1, 1), (some true, some true), (served, served),
      (served.rest, served.rest)⟩ :=
  pair.runs (by decide +kernel)

/-- Whatever two nodes have applied, now and later, one of them has it all. -/
theorem applied_comparable (small : d.conf.Fits .noOp)
    (reached : (d.cluster.restrict d.Quiet).Reachable c)
    (run : (d.cluster.restrict d.Quiet).Run c es c') (i j : ι) :
    (c.node i).applied <+: (c'.node j).applied ∨ (c'.node j).applied <+: (c.node i).applied := by
  obtain ⟨h, related, commits⟩ := quiet_reachable small reached
  obtain ⟨h', extends', -, commits'⟩ := quiet_run small run related commits
  have chosen := (commits.nodes i).applied.extends extends'
  exact (chosen.comparable commits'.guarded (commits'.nodes j).applied).imp
    (List.prefix_cons_inj _).mp (List.prefix_cons_inj _).mp

/-- **State machine safety.** All nodes call the replicated methods in one order: of what
two nodes have called, now and later, one is the start of the other. -/
theorem state_machine_safety (small : d.conf.Fits .noOp)
    (reached : (d.cluster.restrict d.Quiet).Reachable c)
    (run : (d.cluster.restrict d.Quiet).Run c es c') (i j : ι) :
    (c.node i).delivered <+: (c'.node j).delivered ∨
      (c'.node j).delivered <+: (c.node i).delivered :=
  (applied_comparable small reached run i j).imp (fun part => part.filterMap _)
    fun part => part.filterMap _

theorem state_machine_safety_pair : ∃ c : Network Bool, (c.node true).applied = served.rest ∧
    ((c.node true).delivered <+: (c.node false).delivered ∨
      (c.node false).delivered <+: (c.node true).delivered) := by
  obtain ⟨c, c', run, run', -, seen'⟩ := pair_quiet
  exact ⟨c', congrArg (fun sight => sight.applied.1) seen', state_machine_safety (by decide)
    ((Machine.Reachable.start rfl).run (run.append run')) (.nil c') true false⟩

/-- **Leader completeness.** What a node has committed or applied is in the log of every
leader of a term that is no earlier. -/
theorem leader_completeness (small : d.conf.Fits .noOp)
    (reached : (d.cluster.restrict d.Quiet).Reachable c)
    (run : (d.cluster.restrict d.Quiet).Run c es c') {i j : ι}
    (leads : (c'.node j).raftState = .leader)
    (later : (c.node i).raftCurrentTerm ≤ (c'.node j).raftCurrentTerm) :
    (c.node i).raftLog.toList.take (c.node i).raftCommitIndex <+: (c'.node j).raftLog.toList ∧
      firstEntry :: (c.node i).applied <+: (c'.node j).raftLog.toList := by
  obtain ⟨h, related, commits⟩ := quiet_reachable small reached
  obtain ⟨h', extends', related', commits'⟩ := quiet_run small run related commits
  obtain ⟨-, whole⟩ := (related'.nodes j).leader leads
  rw [(related'.nodes j).log] at whole
  have led : h'.led (h'.term j) ≠ [] := by
    rw [whole]
    exact RaftLog.toList_ne_nil _
  rw [← (related.nodes i).term, ← (related'.nodes j).term] at later
  rw [← whole]
  exact ⟨((commits.nodes i).committed.extends extends').led commits'.guarded later led,
    ((commits.nodes i).applied.extends extends').led commits'.guarded later led⟩

theorem leader_completeness_pair : ∃ c : Network Bool, (c.node false).applied = served.rest ∧
    (c.node false).raftLog.toList.take (c.node false).raftCommitIndex <+:
        (c.node true).raftLog.toList ∧
      firstEntry :: (c.node false).applied <+: (c.node true).raftLog.toList := by
  obtain ⟨c, c', run, run', -, seen'⟩ := pair_quiet
  have leads := congrArg (fun sight => sight.roles.1) seen'
  have terms := congrArg (fun sight => sight.terms) seen'
  exact ⟨c', congrArg (fun sight => sight.applied.2) seen', leader_completeness (by decide)
    ((Machine.Reachable.start rfl).run (run.append run')) (.nil c') leads
    (((congrArg Prod.snd terms).trans (congrArg Prod.fst terms).symm).le)⟩

end Results

end Belcoin.SyncObj
