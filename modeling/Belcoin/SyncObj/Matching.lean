import Belcoin.SyncObj.Append
import Belcoin.SyncObj.Network

/-!
What the nodes and the messages of a cluster have to do with its history.

`Network.writes` says what each thing that happens adds to the history of votes and logs,
and `Related` how state and messages reflect that history. Every step keeps them related
(`Related.moves`) and writes only what `Consensus.machine` allows, as long as no command
is too large for a batch (`Fits`). What follows for terms and logs is in
`SyncObj.Safety`.
-/

namespace Belcoin.SyncObj

open Consensus Network

variable {ι : Type}

/-! ### Nodes and messages -/

/-- The entries are what comes after `prev` in the log of the leader of the term. -/
def Continues (h : History ι Entry) (term : Nat) (entries : List Entry) (prev : Nat × Nat) : Prop :=
  ∃ before, before.length = prev.1 ∧ before.getLast?.map Entry.term = some prev.2 ∧
    before ++ entries <+: h.led term ∧ Indexed (before ++ entries)

theorem Continues.grows {h h' : History ι Entry} (grows : h.Grows h') {term : Nat} {entries : List Entry} {prev : Nat × Nat}
    (continues : Continues h term entries prev) : Continues h' term entries prev := by
  obtain ⟨before, length, last, part, indexed⟩ := continues
  exact ⟨before, length, last, part.trans (grows.led term), indexed⟩

/-- A log that has the entry before them, followed by the entries, is a part of the
leader's. -/
theorem Continues.matching [Fintype ι] {h : History ι Entry} (grounded : h.Grounded Entry.term)
    {term : Nat} {entries l : List Entry} {p pt : Nat} (continues : Continues h term entries (p, pt))
    (rooted : h.Rooted Entry.term l) (inside : 1 ≤ p) {entry : Entry} (here : l[p - 1]? = some entry)
    (same : entry.term = pt) :
    l.take p ++ entries = (h.led term).take (p + entries.length) ∧
      p + entries.length ≤ (h.led term).length ∧
      Indexed ((h.led term).take (p + entries.length)) := by
  obtain ⟨before, length, last, part, indexed⟩ := continues
  have size : (before ++ entries).length = p + entries.length := by
    rw [List.length_append, length]
  have whole : (h.led term).take (p + entries.length) = before ++ entries := by
    rw [← size]
    exact (List.prefix_iff_eq_take.mp part).symm
  -- the log and the leader's have entries of one term before the new ones
  obtain ⟨entry', last', same'⟩ := Option.map_eq_some_iff.mp last
  have there : (h.led term)[p - 1]? = some entry' := by
    obtain ⟨rest, led⟩ := part
    rw [List.getLast?_eq_getElem?, length] at last'
    rw [← led, List.append_assoc,
      List.getElem?_append_left (List.getElem?_eq_some_iff.mp last').1, last']
  have agree := rooted.matching (grounded.leds term) here there (same.trans same'.symm)
  rw [Nat.sub_add_cancel inside] at agree
  have start : (h.led term).take p = before := by
    rw [show p = before.length from length.symm]
    exact (List.prefix_iff_eq_take.mp ((List.prefix_append _ _).trans part)).symm
  refine ⟨?_, size ▸ part.length_le, ?_⟩
  · rw [agree, start, whole]
  · rw [whole]
    exact indexed

variable [Fintype ι]

/-- A node and its history. -/
structure NodeSound (d : Deployment ι) (h : History ι Entry) (i : ι) (s : State ι) : Prop where
  term : h.term i = s.raftCurrentTerm
  log : h.log i = s.raftLog.toList
  vote : (h.ballot (h.term i) i).map Prod.fst = s.votedFor
  first : s.raftLog.first = firstEntry
  indexed : Indexed s.raftLog.toList
  fits : ∀ entry ∈ s.raftLog.toList, d.conf.Fits entry.command
  queue : ∀ command ∈ s.commandsQueue, d.conf.Fits command
  next : ∀ j, 2 ≤ s.raftNextIndex j
  leader : s.raftState = .leader → h.Elected (h.term i) i ∧ h.led (h.term i) = h.log i
  candidate : s.raftState = .candidate →
    0 < h.term i ∧ h.ballot (h.term i) i = some (i, h.log i)

/-- A message from `a` to `b` and the history. -/
def MessageSound (d : Deployment ι) (h : History ι Entry) (a b : ι) : Message → Prop
  | .requestVote term lastLogIndex lastLogTerm =>
      ∃ l, h.ballot term a = some (a, l) ∧ lastLogIndex = l.length ∧
        lastLogTerm = lastTerm Entry.term l
  | .responseVote term => h.Votes term b a
  | .appendEntries term _ body => h.Elected term a ∧ ∃ entries prev, body = .entries entries prev ∧
      (∀ entry ∈ entries, d.conf.Fits entry.command) ∧
      ∀ p, prev = some p → Continues h term entries p ∧ (p.1 = 1 → p.2 = 0)
  | .nextNodeIdx nextNodeIdx reset _ => reset = true → 2 ≤ nextNodeIdx
  | .applyCommand command => d.conf.Fits command

section Frames

variable {d : Deployment ι} {h h' : History ι Entry}

/-- A message stays true to a longer history. -/
theorem MessageSound.grows (grows : h.Grows h') {a b : ι} {m : Message}
    (sound : MessageSound d h a b m) : MessageSound d h' a b m := by
  cases m with
  | requestVote term lastLogIndex lastLogTerm =>
      obtain ⟨l, own, length, last⟩ := sound
      exact ⟨l, grows.ballot _ _ _ own, length, last⟩
  | responseVote term => exact History.Votes.grows grows sound
  | appendEntries term commitIndex body =>
      obtain ⟨elected, entries, prev, rfl, fits, continues⟩ := sound
      exact ⟨elected.grows grows, entries, prev, rfl, fits,
        fun p here => (continues p here).imp (Continues.grows grows) id⟩
  | nextNodeIdx nextNodeIdx reset success => exact sound
  | applyCommand command => exact sound

/-- A node of which the history says nothing new. -/
theorem NodeSound.frame {i : ι} {s : State ι} (sound : NodeSound d h i s) (grows : h.Grows h')
    (term : h'.term i = h.term i) (log : h'.log i = h.log i)
    (ballot : h'.ballot (h.term i) i = h.ballot (h.term i) i)
    (led : s.raftState = .leader → h'.led (h.term i) = h.led (h.term i)) :
    NodeSound d h' i s where
  term := term.trans sound.term
  log := log.trans sound.log
  vote := by rw [term, ballot, sound.vote]
  first := sound.first
  indexed := sound.indexed
  fits := sound.fits
  queue := sound.queue
  next := sound.next
  leader leads := by
    obtain ⟨elected, whole⟩ := sound.leader leads
    rw [term, led leads, log]
    exact ⟨elected.grows grows, whole⟩
  candidate stands := by
    rw [term, ballot, log]
    exact sound.candidate stands

/-- A node that changes none of what the history tells of it. -/
theorem NodeSound.quiet {i : ι} {s s' : State ι} (sound : NodeSound d h i s)
    (term : s'.raftCurrentTerm = s.raftCurrentTerm) (log : s'.raftLog = s.raftLog)
    (vote : s'.votedFor = s.votedFor) (queue : ∀ command ∈ s'.commandsQueue, d.conf.Fits command)
    (next : ∀ j, 2 ≤ s'.raftNextIndex j)
    (role : s'.raftState = s.raftState ∨ s'.raftState = .follower) : NodeSound d h i s' where
  term := sound.term.trans term.symm
  log := by rw [sound.log, log]
  vote := sound.vote.trans vote.symm
  first := by rw [log, sound.first]
  indexed := by
    rw [log]
    exact sound.indexed
  fits := by
    rw [log]
    exact sound.fits
  queue := queue
  next := next
  leader leads := by
    rcases role with same | falls
    · exact sound.leader (same ▸ leads)
    · rw [falls] at leads
      cases leads
  candidate stands := by
    rcases role with same | falls
    · exact sound.candidate (same ▸ stands)
    · rw [falls] at stands
      cases stands

end Frames

/-! ### The cluster -/

/-- The votes for `i` that were counted: none of them is still on its way. -/
def Tally (c : Network ι) (h : History ι Entry) (i : ι) (votesCount : Nat) : Prop :=
  ∃ counted : Finset ι, counted.card = votesCount ∧ ∀ v ∈ counted,
    h.Votes (h.term i) i v ∧ ∀ p ∈ c.link v i, p.message ≠ .responseVote (h.term i)

/-- A cluster and its history. -/
structure Related (d : Deployment ι) (c : Network ι) (h : History ι Entry) : Prop where
  grounded : h.Grounded Entry.term
  nodes : ∀ i, NodeSound d h i (c.node i)
  packets : ∀ a b, ∀ p ∈ c.link a b, a ≠ b ∧ MessageSound d h a b p.message
  once : ∀ a b term, (c.link a b).countP (fun p => p.message = .responseVote term) ≤ 1
  tally : ∀ i, (c.node i).raftState = .candidate → Tally c h i (c.node i).votesCount
  won : ∀ t, 0 < t → h.led t ≠ [] → ∃ j, h.Elected t j ∧
    (t < h.term j ∨ t = h.term j ∧ (c.node j).raftState ≠ .candidate)

variable {d : Deployment ι} {c : Network ι} {h h' : History ι Entry} [DecidableEq ι]

open Classical in
/-- What is written down about a move. -/
noncomputable def Network.writes (c : Network ι) : Move ι → List (Consensus.Move ι Entry)
  | .stand i => [.enter i ((c.node i).raftCurrentTerm + 1), .vote i i]
  | .lead i =>
      let s := c.node i
      [.append i ⟨.noOp, s.raftLog.getCurrentLogIndex + 1, s.raftCurrentTerm⟩]
  | .take i =>
      let s := c.node i
      match s.raftState, s.commandsQueue with
      | .leader, command :: _ =>
          [.append i ⟨command, s.raftLog.getCurrentLogIndex + 1, s.raftCurrentTerm⟩]
      | _, _ => []
  | .adopt i term => [.enter i term]
  | .grant src dst => [.vote dst src]
  | .entries src dst =>
      match c.link src dst with
      | ⟨_, .appendEntries term _ (.entries entries prev)⟩ :: _ =>
          .enter dst term :: if (c.node dst).Accepts prev then
            [.accept dst ((prev.elim 0 Prod.fst) + entries.length)] else []
      | _ => []
  | _ => []

/-- Messages may get lost. -/
theorem Related.fewer (related : Related d c h) {a b : ι} {packets : List Packet}
    (fewer : packets.Sublist (c.link a b)) : Related d (c.setLink a b packets) h := by
  have sublist : ∀ a' b', ((c.setLink a b packets).link a' b').Sublist (c.link a' b') := by
    intro a' b'
    by_cases here : a' = a ∧ b' = b
    · obtain ⟨rfl, rfl⟩ := here
      rw [link_setLink_self]
      exact fewer
    · rw [link_setLink_ne c here]
  exact
    { related with
      packets := fun a' b' p mem => related.packets a' b' p ((sublist a' b').subset mem)
      once := fun a' b' term => ((sublist a' b').countP_le).trans (related.once a' b' term)
      tally := by
        intro i stands
        obtain ⟨counted, card, votes⟩ := related.tally i stands
        refine ⟨counted, card, fun v mem => ⟨(votes v mem).1, fun p on => ?_⟩⟩
        exact (votes v mem).2 p ((sublist v i).subset on) }

/-- The next message is taken from a link. -/
theorem Related.dropped (related : Related d c h) {a b : ι} {p : Packet} {rest : List Packet}
    (head : c.link a b = p :: rest) : Related d (c.setLink a b rest) h := by
  apply related.fewer
  rw [head]
  exact List.sublist_cons_self _ _

omit [Fintype ι] in
theorem mem_link_put {i : ι} {s : State ι} {out : Outbox ι} {a b : ι} {p : Packet}
    (mem : p ∈ (c.put i s out).link a b) :
    p ∈ c.link a b ∨ a = i ∧ p ∈ posts s.raftCurrentTerm b out := by
  change p ∈ if a = i then c.link a b ++ posts s.raftCurrentTerm b out else c.link a b at mem
  split at mem
  · rename_i same
    exact (List.mem_append.mp mem).imp id fun new => ⟨same, new⟩
  · exact .inl mem

/-- **A change of one node**, of what it sends and of the history. -/
theorem Related.change (related : Related d c h) (grounded : h'.Grounded Entry.term)
    (grows : h.Grows h') {i : ι} {s : State ι} {out : Outbox ι} (node : NodeSound d h' i s)
    (others : ∀ j, j ≠ i → NodeSound d h' j (c.node j))
    (still : ∀ j, j ≠ i → h'.term j = h.term j)
    (sent : ∀ b m, (b, m) ∈ out → i ≠ b ∧ MessageSound d h' i b m)
    (calm : s.raftState = .candidate → (c.node i).raftState = .candidate ∨ h.term i < h'.term i)
    (led : ∀ t, h'.led t ≠ [] → h.led t ≠ [] ∨
      t = h'.term i ∧ h'.Elected t i ∧ s.raftState ≠ .candidate)
    (once : ∀ b term, (c.link i b ++ posts s.raftCurrentTerm b out).countP
      (fun p => p.message = .responseVote term) ≤ 1)
    (tally : s.raftState = .candidate → Tally (c.put i s out) h' i s.votesCount)
    (tallies : ∀ j, j ≠ i → (c.node j).raftState = .candidate →
      Tally (c.put i s out) h' j (c.node j).votesCount) :
    Related d (c.put i s out) h' := by
  constructor
  · exact grounded
  · intro j
    by_cases same : j = i
    · subst same
      rw [node_put_self]
      exact node
    · rw [node_put_ne c same]
      exact others j same
  · intro a b p mem
    rcases mem_link_put mem with old | ⟨rfl, new⟩
    · exact (related.packets a b p old).imp id fun sound => sound.grows grows
    · exact sent b p.message (mem_posts.mp new).2
  · intro a b term
    change (if a = i then c.link a b ++ posts s.raftCurrentTerm b out else c.link a b).countP _ ≤ 1
    split
    · rename_i same
      subst same
      exact once b term
    · exact related.once a b term
  · intro j stands
    by_cases same : j = i
    · subst same
      rw [node_put_self] at stands ⊢
      exact tally stands
    · rw [node_put_ne c same] at stands ⊢
      exact tallies j same stands
  · intro t late some
    rcases led t some with old | ⟨own, elected, role⟩
    · obtain ⟨j, elected, where'⟩ := related.won t late old
      refine ⟨j, elected.grows grows, ?_⟩
      by_cases same : j = i
      · subst same
        rw [node_put_self]
        have later := grows.term j
        rcases where' with before | ⟨now, role⟩
        · exact .inl (by omega)
        · by_cases moved : h.term j < h'.term j
          · exact .inl (by omega)
          · refine .inr ⟨by omega, fun stands => ?_⟩
            rcases calm stands with stood | moves
            · exact role stood
            · exact moved moves
      · rw [node_put_ne c same, still j same]
        exact where'
    · refine ⟨i, elected, .inr ⟨own, ?_⟩⟩
      rw [node_put_self]
      exact role

/-- A change of one node that casts no vote. -/
theorem Related.put (related : Related d c h) (grounded : h'.Grounded Entry.term)
    (grows : h.Grows h') {i : ι} {s : State ι} {out : Outbox ι} (node : NodeSound d h' i s)
    (others : ∀ j, j ≠ i → NodeSound d h' j (c.node j))
    (still : ∀ j, j ≠ i → h'.term j = h.term j)
    (sent : ∀ b m, (b, m) ∈ out → i ≠ b ∧ MessageSound d h' i b m ∧ ∀ term, m ≠ .responseVote term)
    (tally : s.raftState = .candidate → Tally c h' i s.votesCount)
    (calm : s.raftState = .candidate → (c.node i).raftState = .candidate ∨ h.term i < h'.term i)
    (led : ∀ t, h'.led t ≠ [] → h.led t ≠ [] ∨
      t = h'.term i ∧ h'.Elected t i ∧ s.raftState ≠ .candidate) :
    Related d (c.put i s out) h' := by
  have unsaid : ∀ b term, ∀ p ∈ posts s.raftCurrentTerm b out, p.message ≠ .responseVote term := by
    intro b term p mem
    exact (sent b p.message (mem_posts.mp mem).2).2.2 term
  -- the votes that are on their way are those that were
  have still_there : ∀ {j n}, Tally c h' j n → Tally (c.put i s out) h' j n := by
    rintro j n ⟨counted, card, votes⟩
    refine ⟨counted, card, fun v mem => ⟨(votes v mem).1, fun p on => ?_⟩⟩
    rcases mem_link_put on with old | ⟨-, new⟩
    · exact (votes v mem).2 p old
    · exact unsaid j _ p new
  refine related.change grounded grows node others still (fun b m mem => ?_) calm led ?_
    (fun stands => still_there (tally stands)) fun j other stands => still_there ?_
  · exact ⟨(sent b m mem).1, (sent b m mem).2.1⟩
  · intro b term
    have none : (posts s.raftCurrentTerm b out).countP (fun p => p.message = .responseVote term) = 0 :=
      List.countP_eq_zero.mpr fun p mem => by simpa using unsaid b term p mem
    rw [List.countP_append, none]
    exact related.once i b term
  · obtain ⟨counted, card, votes⟩ := related.tally j stands
    refine ⟨counted, card, fun v mem => ?_⟩
    rw [still j other]
    exact ⟨(votes v mem).1.grows grows, (votes v mem).2⟩

/-! ### The other nodes -/

/-- Whose move it is. -/
def actor : Consensus.Move ι Entry → ι
  | .enter i _ => i
  | .vote i _ => i
  | .append c _ => c
  | .accept i _ => i

omit [Fintype ι] in
theorem after_term {a : Consensus.Move ι Entry} {j : ι} (other : j ≠ actor a) :
    (h.after a).term j = h.term j := by
  cases a with
  | enter i t => exact Function.update_of_ne other _ _
  | _ => rfl

/-- The history says nothing new of the nodes that do not move. -/
theorem NodeSound.after {a : Consensus.Move ι Entry} {j : ι} {s : State ι}
    (sound : NodeSound d h j s) (allowed : h.Allows Entry.term a) (other : j ≠ actor a) :
    NodeSound d (h.after a) j s := by
  apply sound.frame allowed.grows (after_term other)
  · cases a with
    | append c e => exact Function.update_of_ne other _ _
    | accept i m => exact Function.update_of_ne other _ _
    | _ => rfl
  · cases a with
    | vote i c => exact (History.vote_ballot h i c _ j).trans (if_neg fun here => other here.2)
    | _ => rfl
  · intro leads
    cases a with
    | append c e =>
        apply History.append_led_ne
        intro same
        have mine := (sound.leader leads).1
        rw [same] at mine
        exact other (mine.unique allowed.1.1)
    | _ => rfl

/-! ### What each move writes -/

/-- A change that writes nothing. -/
theorem Related.quiet (related : Related d c h) {i : ι} {s : State ι} {out : Outbox ι}
    (node : NodeSound d h i s)
    (sent : ∀ b m, (b, m) ∈ out → i ≠ b ∧ MessageSound d h i b m ∧ ∀ term, m ≠ .responseVote term)
    (tally : s.raftState = .candidate → Tally c h i s.votesCount)
    (calm : s.raftState = .candidate → (c.node i).raftState = .candidate) :
    Related d (c.put i s out) h :=
  related.put related.grounded (.refl h) node (fun j _ => related.nodes j) (fun _ _ => rfl) sent
    tally (fun stands => .inl (calm stands)) fun _ some => .inl some

theorem Related.stand (related : Related d c h) {i : ι} :
    let term := (c.node i).raftCurrentTerm + 1
    let stood := (d.env i).startElection (c.node i)
    h.Allows Entry.term (.enter i term) ∧ (h.enter i term).Allows Entry.term (.vote i i) ∧
      Related d (c.put i stood.1 stood.2) ((h.enter i term).vote i i) := by
  intro term stood
  have node := related.nodes i
  have now : (h.enter i term).term i = term := Function.update_self _ _ _
  have enters : h.Allows Entry.term (.enter i term) := by
    change h.term i ≤ term
    rw [node.term]
    exact Nat.le_succ _
  have unvoted : (h.enter i term).ballot term i = none := by
    cases cast : h.ballot term i with
    | none => exact cast
    | some b =>
        have bound := related.grounded.voted term i b.1 b.2 cast
        rw [node.term] at bound
        omega
  have votes : (h.enter i term).Allows Entry.term (.vote i i) := by
    refine ⟨?_, .inl rfl⟩
    rw [now]
    exact unvoted
  have cast : ((h.enter i term).vote i i).ballot term i = some (i, h.log i) := by
    rw [History.vote_ballot, now, if_pos ⟨rfl, rfl⟩]
    rfl
  refine ⟨enters, votes, related.put ((related.grounded.after enters).after votes)
    (enters.grows.trans votes.grows) ?_ ?_ ?_ ?_ ?_ ?_ ?_⟩
  · constructor
    · exact now
    · exact node.log
    · change ((h.enter i term).vote i i |>.ballot ((h.enter i term).term i) i).map Prod.fst = some i
      rw [now, cast]
      rfl
    · exact node.first
    · exact node.indexed
    · exact node.fits
    · exact node.queue
    · exact node.next
    · intro leads
      cases leads
    · intro stands
      change 0 < (h.enter i term).term i ∧
        ((h.enter i term).vote i i).ballot ((h.enter i term).term i) i = _
      rw [now, cast]
      exact ⟨Nat.succ_pos _, rfl⟩
  · exact fun j other => ((related.nodes j).after enters other).after votes other
  · exact fun j other => after_term (a := .enter i term) other
  · intro b m mem
    obtain ⟨j, inside, same⟩ := List.mem_map.mp mem
    cases same
    refine ⟨fun same => (d.mem_nodes i _).mp inside same.symm, ⟨_, cast, ?_, ?_⟩,
      fun _ same => by cases same⟩
    · rw [node.log, RaftLog.getCurrentLogIndex_eq node.indexed]
    · rw [node.log, RaftLog.getCurrentLogTerm_eq]
  · intro stands
    refine ⟨{i}, rfl, fun v mem => ?_⟩
    rw [Finset.mem_singleton.mp mem]
    refine ⟨⟨h.log i, ?_⟩, fun p on => absurd rfl (related.packets i i p on).1⟩
    change ((h.enter i term).vote i i).ballot ((h.enter i term).term i) i = _
    rw [now, cast]
  · intro stands
    refine .inr ?_
    change h.term i < (h.enter i term).term i
    rw [now, node.term]
    exact Nat.lt_succ_self _
  · exact fun t some => .inl some

/-- The number of nodes. -/
theorem Deployment.card (d : Deployment ι) (i : ι) : Fintype.card ι = (d.nodes i).length + 1 := by
  have others : (d.nodes i).toFinset = Finset.univ.erase i := by
    ext j
    simp [d.mem_nodes]
  have size := congrArg Finset.card others
  rw [List.toFinset_card_of_nodup (d.nodup i), Finset.card_erase_of_mem (Finset.mem_univ i),
    Finset.card_univ] at size
  have some : 0 < Fintype.card ι := Fintype.card_pos_iff.mpr ⟨i⟩
  omega

/-- An entry appended by the leader of its term. -/
theorem Related.append (related : Related d c h) {i : ι} {s : State ι} {e : Entry}
    (leads : h.Leads i) (own : e.term = (c.node i).raftCurrentTerm)
    (index : e.idx = (c.node i).raftLog.getCurrentLogIndex + 1) (fits : d.conf.Fits e.command)
    (term : s.raftCurrentTerm = (c.node i).raftCurrentTerm)
    (log : s.raftLog = (c.node i).raftLog.add e) (vote : s.votedFor = (c.node i).votedFor)
    (queue : ∀ command ∈ s.commandsQueue, d.conf.Fits command) (next : ∀ j, 2 ≤ s.raftNextIndex j)
    (role : s.raftState = .leader) :
    h.Allows Entry.term (.append i e) ∧ Related d (c.put i s []) (h.append i e) := by
  have node := related.nodes i
  have allowed : h.Allows Entry.term (.append i e) := ⟨leads, own.trans node.term.symm⟩
  have written : (h.append i e).log i = s.raftLog.toList := by
    rw [log, RaftLog.toList_add, ← node.log, History.append_log_self]
  have elected := leads.1.grows allowed.grows
  refine ⟨allowed, related.put (related.grounded.after allowed) allowed.grows ?_
    (fun j other => (related.nodes j).after allowed other) (fun j _ => rfl) ?_ ?_ ?_ ?_⟩
  · constructor
    · exact node.term.trans term.symm
    · exact written
    · exact node.vote.trans vote.symm
    · rw [log]
      exact node.first
    · rw [log, RaftLog.toList_add]
      refine node.indexed.append ?_
      rw [index, RaftLog.getCurrentLogIndex_eq node.indexed]
    · rw [log, RaftLog.toList_add]
      intro entry mem
      rcases List.mem_append.mp mem with old | new
      · exact node.fits entry old
      · rw [List.mem_singleton.mp new]
        exact fits
    · exact queue
    · exact next
    · intro _
      refine ⟨elected, ?_⟩
      change (h.append i e).led (h.term i) = (h.append i e).log i
      rw [History.append_led_self, History.append_log_self]
    · intro stands
      rw [role] at stands
      cases stands
  · intro b m mem
    cases mem
  · intro stands
    rw [role] at stands
    cases stands
  · intro stands
    rw [role] at stands
    cases stands
  · intro t some
    by_cases same : t = h.term i
    · subst same
      refine .inr ⟨rfl, elected, fun stands => ?_⟩
      rw [role] at stands
      cases stands
    · change (h.append i e).led t ≠ [] at some
      rw [History.append_led_ne h i e same] at some
      exact .inl some

omit [DecidableEq ι] in
/-- A leader leads its term. -/
theorem Related.leads (related : Related d c h) {i : ι} (role : (c.node i).raftState = .leader) :
    h.Leads i := by
  obtain ⟨elected, whole⟩ := (related.nodes i).leader role
  refine ⟨elected, .inr ⟨?_, whole⟩⟩
  rw [whole]
  exact related.grounded.started i

/-- A candidate with the votes of a majority has just won. -/
theorem Related.wins (related : Related d c h) {i : ι}
    (role : (c.node i).raftState = .candidate) (most : (d.env i).Most (c.node i).votesCount) :
    h.Leads i := by
  have node := related.nodes i
  obtain ⟨late, stood⟩ := node.candidate role
  obtain ⟨counted, card, votes⟩ := related.tally i role
  have elected : h.Elected (h.term i) i := by
    refine ⟨counted, ?_, fun v mem => (votes v mem).1⟩
    rw [d.card i, card]
    exact most
  refine ⟨elected, .inl ⟨?_, stood⟩⟩
  by_contra led
  obtain ⟨j, won, where'⟩ := related.won _ late led
  obtain rfl := won.unique elected
  rcases where' with before | ⟨-, other⟩
  · exact lt_irrefl _ before
  · exact other role

theorem Related.lead (related : Related d c h) {i : ι} (batch : 1 < d.conf.appendEntriesBatchSizeBytes)
    (role : (c.node i).raftState = .candidate) (most : (d.env i).Most (c.node i).votesCount) :
    let e : Entry :=
      ⟨.noOp, (c.node i).raftLog.getCurrentLogIndex + 1, (c.node i).raftCurrentTerm⟩
    h.Allows Entry.term (.append i e) ∧
      Related d (c.put i ((d.env i).lead (c.node i)) []) (h.append i e) := by
  have node := related.nodes i
  have long := List.length_pos_iff.mpr (c.node i).raftLog.toList_ne_nil
  refine related.append (related.wins role most) rfl rfl batch rfl rfl rfl node.queue ?_ rfl
  intro j
  change 2 ≤ if j ∈ d.nodes i then (c.node i).raftLog.getCurrentLogIndex + 1
    else (c.node i).raftNextIndex j
  split
  · rw [RaftLog.getCurrentLogIndex_eq node.indexed]
    omega
  · exact node.next j

theorem Related.pass (related : Related d c h) {i j : ι} {messages : List Message} {next : Nat}
    (role : (c.node i).raftState = .leader) (inside : j ∈ d.nodes i)
    (sends : (d.env i).sendPass (c.node i) ((c.node i).raftNextIndex j) = some (messages, next)) :
    Related d (c.put i { c.node i with
      raftNextIndex := Function.update (c.node i).raftNextIndex j next } (messages.map (j, ·))) h := by
  have node := related.nodes i
  have behind := node.next j
  obtain ⟨elected, whole⟩ := node.leader role
  rw [node.term, node.log] at whole
  obtain ⟨next', sent, later, -⟩ :=
    sendPass_sound (d.env i) node.indexed node.fits behind
  rw [sent] at sends
  cases sends
  refine related.quiet ?_ ?_ ?_ id
  · refine node.quiet rfl rfl rfl node.queue (fun k => ?_) (.inl rfl)
    change 2 ≤ Function.update (c.node i).raftNextIndex j next k
    by_cases same : k = j
    · subst same
      rw [Function.update_self]
      exact later
    · rw [Function.update_of_ne same]
      exact node.next k
  · intro b m mem
    rw [List.map_singleton, List.mem_singleton] at mem
    cases mem
    refine ⟨fun same => (d.mem_nodes i _).mp inside same.symm, ⟨?_, _, _, rfl, ?_, ?_⟩,
      fun _ same => by cases same⟩
    · rw [← node.term]
      exact elected
    · intro entry mem
      exact node.fits entry (List.mem_of_mem_drop ((entriesFrom_part _ _ _).mem mem))
    · rintro ⟨p, pt⟩ found
      obtain ⟨rfl, entry, here, rfl⟩ := RaftLog.getPrevLogIndexTerm_some node.indexed behind found
      have short := (List.getElem?_eq_some_iff.mp here).1
      have part : (c.node i).raftLog.toList.take ((c.node i).raftNextIndex j - 1) ++
          (d.env i).entriesFrom (c.node i) ((c.node i).raftNextIndex j) <+:
            (c.node i).raftLog.toList := by
        have cut := (List.prefix_append_right_inj
          ((c.node i).raftLog.toList.take ((c.node i).raftNextIndex j - 1))).mpr
            (entriesFrom_part (d.env i) (c.node i) ((c.node i).raftNextIndex j))
        rwa [List.take_append_drop] at cut
      refine ⟨⟨(c.node i).raftLog.toList.take ((c.node i).raftNextIndex j - 1), ?_, ?_, ?_, ?_⟩, ?_⟩
      · rw [List.length_take]
        omega
      · rw [List.getLast?_take, if_neg (by omega), here]
        rfl
      · rw [whole]
        exact part
      · exact node.indexed.part part
      · intro start
        rw [show (c.node i).raftNextIndex j - 1 - 1 = 0 by omega] at here
        obtain rfl : (c.node i).raftLog.first = entry := Option.some.inj here
        rw [node.first]
        rfl
  · intro stands
    rw [show (c.node i).raftState = .candidate from stands] at role
    cases role

/-- A change of what the history does not tell. -/
theorem Related.silent (related : Related d c h) {i : ι} {s : State ι} {out : Outbox ι}
    (term : s.raftCurrentTerm = (c.node i).raftCurrentTerm)
    (log : s.raftLog = (c.node i).raftLog) (vote : s.votedFor = (c.node i).votedFor)
    (count : s.votesCount = (c.node i).votesCount)
    (queue : ∀ command ∈ s.commandsQueue, d.conf.Fits command) (next : ∀ j, 2 ≤ s.raftNextIndex j)
    (role : s.raftState = (c.node i).raftState ∨ s.raftState = .follower)
    (sent : ∀ b m, (b, m) ∈ out → i ≠ b ∧ MessageSound d h i b m ∧ ∀ term, m ≠ .responseVote term) :
    Related d (c.put i s out) h := by
  have calm : s.raftState = .candidate → (c.node i).raftState = .candidate := by
    intro stands
    rcases role with same | falls
    · exact same ▸ stands
    · rw [falls] at stands
      cases stands
  refine related.quiet ((related.nodes i).quiet term log vote queue next role) sent ?_ calm
  intro stands
  rw [count]
  exact related.tally i (calm stands)

/-- A command joins the queue, if there is room. -/
theorem Related.applyCommand (related : Related d c h) {i : ι} {command : Command}
    (fits : d.conf.Fits command) :
    Related d (c.put i ((d.env i).applyCommand command (c.node i)) []) h := by
  have node := related.nodes i
  have quiet : ∀ (b : ι) (m : Message), (b, m) ∈ ([] : Outbox ι) →
      i ≠ b ∧ MessageSound d h i b m ∧ ∀ term, m ≠ .responseVote term :=
    fun _ _ mem => by cases mem
  rw [Env.applyCommand]
  split
  · exact related.silent rfl rfl rfl rfl node.queue node.next (.inl rfl) quiet
  · refine related.silent rfl rfl rfl rfl ?_ node.next (.inl rfl) quiet
    intro other mem
    rcases List.mem_append.mp mem with old | new
    · exact node.queue other old
    · rw [List.mem_singleton.mp new]
      exact fits

theorem Related.take (related : Related d c h) {i : ι} {command : Command} {queue : List Command}
    (queued : (c.node i).commandsQueue = command :: queue) :
    let taken := (d.env i).takeCommand command { c.node i with commandsQueue := queue }
    (c.node i).raftState = .leader ∧
        (let e : Entry :=
          ⟨command, (c.node i).raftLog.getCurrentLogIndex + 1, (c.node i).raftCurrentTerm⟩
        h.Allows Entry.term (.append i e) ∧ Related d (c.put i taken.1 taken.2) (h.append i e)) ∨
      (c.node i).raftState ≠ .leader ∧ Related d (c.put i taken.1 taken.2) h := by
  intro taken
  have node := related.nodes i
  have fits := node.queue
  rw [queued] at fits
  obtain ⟨first, rest⟩ := List.forall_mem_cons.mp fits
  by_cases role : (c.node i).raftState = .leader
  · refine .inl ⟨role, ?_⟩
    simp only [taken, Env.takeCommand, if_pos role]
    exact related.append (related.leads role) rfl rfl first rfl rfl rfl rest node.next role
  · refine .inr ⟨role, ?_⟩
    simp only [taken, Env.takeCommand, if_neg role]
    cases known : (c.node i).raftLeader with
    | none =>
        exact related.silent rfl rfl rfl rfl rest node.next (.inl rfl) fun _ _ mem => by cases mem
    | some leader =>
        refine related.silent rfl rfl rfl rfl rest node.next (.inl rfl) fun b m mem => ?_
        change (b, m) ∈ (if leader ∈ d.nodes i then [(leader, Message.applyCommand command)]
          else []) at mem
        split at mem
        · rename_i inside
          rw [List.mem_singleton] at mem
          cases mem
          exact ⟨fun same => (d.mem_nodes i _).mp inside same.symm, first, fun _ same => by
            cases same⟩
        · cases mem

theorem Related.adopt (related : Related d c h) {i : ι} {term : Nat}
    (later : (c.node i).raftCurrentTerm < term) :
    h.Allows Entry.term (.enter i term) ∧
      Related d (c.put i ((c.node i).adopt term) []) (h.enter i term) := by
  have node := related.nodes i
  have allowed : h.Allows Entry.term (.enter i term) := by
    change h.term i ≤ term
    rw [node.term]
    exact later.le
  have now : (h.enter i term).term i = term := Function.update_self _ _ _
  have unvoted : h.ballot term i = none := by
    cases cast : h.ballot term i with
    | none => rfl
    | some b =>
        have bound := related.grounded.voted term i b.1 b.2 cast
        rw [node.term] at bound
        omega
  rw [State.adopt, if_pos later]
  refine ⟨allowed, related.put (related.grounded.after allowed) allowed.grows ?_
    (fun j other => (related.nodes j).after allowed other)
    (fun j other => after_term (a := .enter i term) other) ?_ ?_ ?_ ?_⟩
  · constructor
    · exact now
    · exact node.log
    · change (h.ballot ((h.enter i term).term i) i).map Prod.fst = none
      rw [now, unvoted]
      rfl
    · exact node.first
    · exact node.indexed
    · exact node.fits
    · exact node.queue
    · exact node.next
    · intro leads
      cases leads
    · intro stands
      cases stands
  · intro b m mem
    cases mem
  · intro stands
    cases stands
  · intro stands
    cases stands
  · exact fun t some => .inl some

theorem Related.response (related : Related d c h) {src dst : ι} {stamp nextNodeIdx : Nat}
    {reset success : Bool} {rest : List Packet}
    (head : c.link src dst = ⟨stamp, .nextNodeIdx nextNodeIdx reset success⟩ :: rest) :
    Related d ((c.setLink src dst rest).put dst
      ((c.node dst).onNextNodeIdx src nextNodeIdx reset success) []) h := by
  have node := related.nodes dst
  have behind := (related.packets src dst _ (by rw [head]; exact List.mem_cons_self)).2
  have fewer := related.dropped head
  have quiet : ∀ (b : ι) (m : Message), (b, m) ∈ ([] : Outbox ι) →
      dst ≠ b ∧ MessageSound d h dst b m ∧ ∀ term, m ≠ .responseVote term :=
    fun _ _ mem => by cases mem
  rw [State.onNextNodeIdx]
  split
  · refine fewer.silent rfl rfl rfl rfl node.queue ?_ (.inl rfl) quiet
    intro j
    change 2 ≤ (if reset = true then Function.update (c.node dst).raftNextIndex src nextNodeIdx
      else (c.node dst).raftNextIndex) j
    split
    · rename_i resets
      by_cases same : j = src
      · subst same
        rw [Function.update_self]
        exact behind resets
      · rw [Function.update_of_ne same]
        exact node.next j
    · exact node.next j
  · exact fewer.silent rfl rfl rfl rfl node.queue node.next (.inl rfl) quiet

theorem Related.count (related : Related d c h) {src dst : ι} {stamp : Nat} {rest : List Packet}
    (head : c.link src dst = ⟨stamp, .responseVote (c.node dst).raftCurrentTerm⟩ :: rest)
    (role : (c.node dst).raftState = .candidate) :
    Related d ((c.setLink src dst rest).put dst
      { c.node dst with votesCount := (c.node dst).votesCount + 1 } []) h := by
  have node := related.nodes dst
  have fewer := related.dropped head
  obtain ⟨-, votes⟩ := related.packets src dst _ (by rw [head]; exact List.mem_cons_self)
  obtain ⟨counted, card, votes'⟩ := related.tally dst role
  have uncounted : src ∉ counted := by
    intro mem
    refine (votes' src mem).2 _ (by rw [head]; exact List.mem_cons_self) ?_
    rw [node.term]
  -- the reply that is counted was the only one on its way
  have once : ∀ p ∈ rest, p.message ≠ .responseVote (h.term dst) := by
    intro p mem same
    have bound := related.once src dst (h.term dst)
    rw [head, List.countP_cons, node.term, if_pos (by simp)] at bound
    have some : 0 < rest.countP (fun p => p.message = .responseVote (c.node dst).raftCurrentTerm) := by
      refine List.countP_pos_iff.mpr ⟨p, mem, ?_⟩
      rw [node.term] at same
      simpa using same
    omega
  refine fewer.quiet ?_ (fun _ _ mem => by cases mem) (fun _ => ?_) fun _ => role
  · exact node.quiet rfl rfl rfl node.queue node.next (.inl rfl)
  · refine ⟨insert src counted, ?_, fun v mem => ?_⟩
    · rw [Finset.card_insert_of_notMem uncounted, card]
    · rcases Finset.mem_insert.mp mem with rfl | old
      · refine ⟨by rw [node.term]; exact votes, fun p on => ?_⟩
        rw [link_setLink_self] at on
        exact once p on
      · refine ⟨(votes' v old).1, fun p on => ?_⟩
        by_cases here : v = src
        · subst here
          rw [link_setLink_self] at on
          exact once p on
        · rw [link_setLink_ne c fun same => here same.1] at on
          exact (votes' v old).2 p on

theorem Related.grant (related : Related d c h) {src dst : ι}
    {stamp term lastLogIdx lastLogTerm : Nat} {rest : List Packet}
    (head : c.link src dst = ⟨stamp, .requestVote term lastLogIdx lastLogTerm⟩ :: rest)
    (role : (c.node dst).raftState ≠ .leader) (now : (c.node dst).raftCurrentTerm = term)
    (noOlder : ¬ lastLogTerm < (c.node dst).raftLog.getCurrentLogTerm)
    (noShorter : ¬ (lastLogTerm = (c.node dst).raftLog.getCurrentLogTerm ∧
      lastLogIdx < (c.node dst).raftLog.getCurrentLogIndex))
    (unvoted : (c.node dst).votedFor = none) :
    h.Allows Entry.term (.vote dst src) ∧ Related d ((c.setLink src dst rest).put dst
      { c.node dst with votedFor := some src } ((d.env dst).send src (.responseVote term)))
        (h.vote dst src) := by
  have node := related.nodes dst
  have fewer := related.dropped head
  obtain ⟨apart, l, own, rfl, rfl⟩ := related.packets src dst _ (by
    rw [head]
    exact List.mem_cons_self)
  have here : h.term dst = term := node.term.trans now
  have free : h.ballot (h.term dst) dst = none := by
    rw [← Option.map_eq_none_iff, node.vote, unvoted]
  have allowed : h.Allows Entry.term (.vote dst src) := by
    refine ⟨free, .inr ⟨l, by rw [here]; exact own, ?_⟩⟩
    rw [node.log]
    rw [RaftLog.getCurrentLogTerm_eq] at noOlder noShorter
    rw [RaftLog.getCurrentLogIndex_eq node.indexed] at noShorter
    by_cases older : lastTerm Entry.term (c.node dst).raftLog.toList < lastTerm Entry.term l
    · exact .inl older
    · have same : lastTerm Entry.term l = lastTerm Entry.term (c.node dst).raftLog.toList := by omega
      exact .inr ⟨same.symm, Nat.le_of_not_lt fun shorter => noShorter ⟨same, shorter⟩⟩
  have cast : (h.vote dst src).ballot (h.term dst) dst = some (src, h.log dst) := by
    rw [History.vote_ballot, if_pos ⟨rfl, rfl⟩]
  have waits : (c.node dst).raftState ≠ .candidate := by
    intro stands
    have stood := (node.candidate stands).2
    rw [free] at stood
    cases stood
  have inside : src ∈ d.nodes dst := (d.mem_nodes dst src).mpr apart
  have reply : (d.env dst).send src (.responseVote term) = [(src, .responseVote term)] :=
    if_pos inside
  have unsaid : ∀ b, ∀ p ∈ (c.setLink src dst rest).link dst b, b = src →
      p.message ≠ .responseVote term := by
    intro b p mem same said
    obtain ⟨-, sound⟩ := fewer.packets dst b p mem
    rw [said, same] at sound
    obtain ⟨l', voted⟩ := sound
    rw [← here, free] at voted
    cases voted
  refine ⟨allowed, fewer.change (related.grounded.after allowed) allowed.grows ?_
    (fun j other => (related.nodes j).after allowed other) (fun j _ => rfl) ?_
    (fun stands => absurd stands waits) (fun t some => .inl some) ?_
    (fun stands => absurd stands waits) ?_⟩
  · constructor
    · exact node.term
    · exact node.log
    · change ((h.vote dst src).ballot (h.term dst) dst).map Prod.fst = some src
      rw [cast]
      rfl
    · exact node.first
    · exact node.indexed
    · exact node.fits
    · exact node.queue
    · exact node.next
    · exact fun leads => absurd leads role
    · exact fun stands => absurd stands waits
  · intro b m mem
    rw [reply, List.mem_singleton] at mem
    cases mem
    exact ⟨fun same => apart same.symm, h.log dst, by rw [← here]; exact cast⟩
  · intro b t
    rw [reply, List.countP_append]
    by_cases said : b = src ∧ t = term
    · obtain ⟨rfl, rfl⟩ := said
      have none : ((c.setLink b dst rest).link dst b).countP
          (fun p => p.message = .responseVote t) = 0 :=
        List.countP_eq_zero.mpr fun p mem => by simpa using unsaid b p mem rfl
      rw [none]
      simp [posts]
    · have none : (posts (c.node dst).raftCurrentTerm b
          [(src, Message.responseVote term)]).countP (fun p => p.message = .responseVote t) = 0 := by
        refine List.countP_eq_zero.mpr fun p mem => ?_
        obtain ⟨-, found⟩ := mem_posts.mp mem
        rw [List.mem_singleton] at found
        rw [(Prod.mk.inj found).2]
        intro same
        exact said ⟨(Prod.mk.inj found).1, by simpa using (of_decide_eq_true same).symm⟩
      exact none ▸ fewer.once dst b t
  · intro j other stands
    obtain ⟨counted, card, votes⟩ := fewer.tally j stands
    refine ⟨counted, card, fun v mem => ?_⟩
    obtain ⟨voted, unsent⟩ := votes v mem
    refine ⟨voted.grows allowed.grows, fun p on said => ?_⟩
    rcases mem_link_put on with old | ⟨rfl, new⟩
    · exact unsent p old said
    · rw [reply] at new
      obtain ⟨-, found⟩ := mem_posts.mp new
      rw [List.mem_singleton] at found
      rw [(Prod.mk.inj found).2] at said
      have same : term = h.term j := Message.responseVote.inj said
      obtain ⟨l', cast⟩ := voted
      rw [← same, ← here, free] at cast
      cases cast

/-- Who sends a message with entries is followed. -/
theorem Related.follow (related : Related d c h) (src : ι) {dst : ι} {term : Nat}
    (current : (c.node dst).raftCurrentTerm ≤ term) :
    h.Allows Entry.term (.enter dst term) ∧
      NodeSound d (h.enter dst term) dst ((c.node dst).follow src term) := by
  have node := related.nodes dst
  have allowed : h.Allows Entry.term (.enter dst term) := by
    change h.term dst ≤ term
    rw [node.term]
    exact current
  have now : (h.enter dst term).term dst = term := Function.update_self _ _ _
  refine ⟨allowed, ?_⟩
  constructor
  · rw [now]
    exact (max_eq_right current).symm
  · exact node.log
  · change (h.ballot ((h.enter dst term).term dst) dst).map Prod.fst =
      if (c.node dst).raftCurrentTerm < term then none else (c.node dst).votedFor
    rw [now]
    split
    · rename_i later
      cases cast : h.ballot term dst with
      | none => rfl
      | some b =>
          have bound := related.grounded.voted term dst b.1 b.2 cast
          rw [node.term] at bound
          omega
    · rename_i same
      rw [← node.vote, node.term, show (c.node dst).raftCurrentTerm = term by omega]
  · exact node.first
  · exact node.indexed
  · exact node.fits
  · exact node.queue
  · exact node.next
  · intro leads
    cases leads
  · intro stands
    cases stands

theorem Related.entries (related : Related d c h) {src dst : ι} {stamp term commitIndex : Nat}
    {entries : List Entry} {prev : Option (Nat × Nat)} {rest : List Packet}
    (head : c.link src dst = ⟨stamp, .appendEntries term commitIndex (.entries entries prev)⟩ :: rest)
    (current : (c.node dst).raftCurrentTerm ≤ term) :
    let done := (d.env dst).appendNew src commitIndex entries prev ((c.node dst).follow src term)
    let c' := (c.setLink src dst rest).put dst done.1 done.2
    let m := prev.elim 0 Prod.fst + entries.length
    h.Allows Entry.term (.enter dst term) ∧
      ((c.node dst).Accepts prev ∧ (h.enter dst term).Allows Entry.term (.accept dst m) ∧
          Related d c' ((h.enter dst term).accept dst m) ∨
        ¬ (c.node dst).Accepts prev ∧ Related d c' (h.enter dst term)) := by
  intro done c' m
  have node := related.nodes dst
  have fewer := related.dropped head
  obtain ⟨enters, follows⟩ := related.follow src current
  obtain ⟨apart, -, entries', prev', body, fits, continues⟩ := related.packets src dst _ (by
    rw [head]
    exact List.mem_cons_self)
  cases body
  have now : (h.enter dst term).term dst = term := Function.update_self _ _ _
  have others : ∀ j, j ≠ dst → NodeSound d (h.enter dst term) j (c.node j) :=
    fun j other => (related.nodes j).after enters other
  have still : ∀ j, j ≠ dst → (h.enter dst term).term j = h.term j :=
    fun j other => after_term (a := .enter dst term) other
  -- the reply is no vote, and starts behind the first entry if it has to start again
  have replies : ∀ {h' : History ι Entry} {next : Nat} {reset success : Bool},
      (reset = true → 2 ≤ next) → ∀ b message,
        (b, message) ∈ (d.env dst).send src (.nextNodeIdx next reset success) →
          dst ≠ b ∧ MessageSound d h' dst b message ∧ ∀ t, message ≠ .responseVote t := by
    intro h' next reset success behind b message mem
    rw [Env.send] at mem
    split at mem
    · rw [List.mem_singleton] at mem
      cases mem
      exact ⟨fun same => apart same.symm, behind, fun _ same => by cases same⟩
    · cases mem
  refine ⟨enters, ?_⟩
  by_cases accepts : ((c.node dst).follow src term).Accepts prev
  · refine .inl ⟨accepts, ?_⟩
    obtain ⟨p, pt, log, rfl, inside, ⟨entry, here, same⟩, first, whole, result⟩ :=
      appendNew_accepts (d.env dst) follows.indexed accepts src commitIndex entries
    obtain ⟨⟨before, length, last, part, indexed⟩, -⟩ := continues _ rfl
    obtain ⟨copied, reaches, indexed⟩ := (continues _ rfl).1.matching related.grounded
      (related.grounded.logs dst) inside (by rw [node.log]; exact here) same
    rw [node.log] at copied
    have copies : (h.enter dst term).Allows Entry.term (.accept dst m) := by
      refine ⟨Nat.lt_of_lt_of_le inside (Nat.le_add_right _ _), ?_⟩
      rw [now]
      exact reaches
    have log' : ((h.enter dst term).accept dst m).log dst = log.toList := by
      rw [whole]
      change Function.update h.log dst (((h.enter dst term).led ((h.enter dst term).term dst)).take m)
        dst = _
      rw [Function.update_self, now]
      exact copied.symm
    refine ⟨copies, ?_⟩
    simp only [c', done, result]
    refine fewer.put ((related.grounded.after enters).after copies)
      (enters.grows.trans copies.grows) ?_ (fun j other => (others j other).after copies other)
      still (replies fun impossible => by cases impossible) (fun stands => by cases stands)
      (fun stands => by cases stands) fun t some => .inl some
    constructor
    · exact follows.term
    · exact log'
    · exact follows.vote
    · exact first.trans follows.first
    · change Indexed log.toList
      rw [whole]
      change Indexed ((c.node dst).raftLog.toList.take p ++ entries)
      rw [copied]
      exact indexed
    · change ∀ entry ∈ log.toList, _
      rw [whole]
      intro entry mem
      rcases List.mem_append.mp mem with old | new
      · exact node.fits entry (List.mem_of_mem_take old)
      · exact fits entry new
    · exact node.queue
    · exact node.next
    · intro leads
      cases leads
    · intro stands
      cases stands
  · refine .inr ⟨accepts, ?_⟩
    obtain ⟨next, behind, result⟩ := appendNew_refuses (d.env dst) follows.indexed accepts (by
      intro q here start
      rw [follows.first]
      exact (continues q here).2 start) src commitIndex entries
    simp only [c', done, result]
    exact fewer.put (related.grounded.after enters) enters.grows follows others still
      (replies fun _ => behind) (fun stands => by cases stands) (fun stands => by cases stands)
      fun t some => .inl some

/-! ### Every step -/

/-- The history after a move. -/
noncomputable def Network.noted (c : Network ι) (a : Move ι) (h : History ι Entry) :
    History ι Entry :=
  (c.writes a).foldl History.after h

/-- A command that is proposed fits a batch. -/
def Deployment.Fitting (d : Deployment ι) (a : Move ι) : Prop :=
  ∀ command, a.proposal = some command → d.conf.Fits (.regular command)

omit [DecidableEq ι] in
theorem Related.initial (small : d.conf.Fits .noOp) :
    Related d .initial (.initial firstEntry) := by
  constructor
  · exact .initial rfl
  · intro i
    have only : ∀ entry ∈ (State.initial (ι := ι)).raftLog.toList, entry = firstEntry :=
      fun entry mem => List.mem_singleton.mp mem
    constructor
    · rfl
    · rfl
    · rfl
    · rfl
    · intro k entry here
      obtain rfl := only entry (List.mem_of_getElem? here)
      cases k with
      | zero => rfl
      | succ k => cases here
    · intro entry mem
      rw [only entry mem]
      exact small
    · intro command mem
      cases mem
    · exact fun _ => le_rfl
    · intro leads
      cases leads
    · intro stands
      cases stands
  · intro a b p mem
    cases mem
  · exact fun _ _ _ => Nat.zero_le _
  · intro i stands
    cases stands
  · intro t late some
    exact absurd (if_neg (by omega)) some

/-- **What a move writes is allowed**, and what it leaves is related to it. -/
theorem Related.moves (small : d.conf.Fits .noOp) (related : Related d c h) {a : Move ι}
    {c' : Network ι} (fitting : d.Fitting a) (moves : d.Moves c a c') :
    (machine Entry.term ι firstEntry).Run h (c.writes a) (c.noted a h) ∧
      Related d c' (c.noted a h) := by
  cases moves with
  | @stand i role =>
      obtain ⟨enters, votes, after⟩ := related.stand (i := i)
      exact ⟨.cons ⟨enters, rfl⟩ (.cons ⟨votes, rfl⟩ (.nil _)), after⟩
  | lead role most =>
      obtain ⟨appends, after⟩ := related.lead small role most
      exact ⟨.cons ⟨appends, rfl⟩ (.nil _), after⟩
  | pass role inside sends => exact ⟨.nil _, related.pass role inside sends⟩
  | @commit i role =>
      have node := related.nodes i
      refine ⟨.nil _, related.silent rfl rfl rfl rfl node.queue node.next (.inl rfl) ?_⟩
      intro b m mem
      cases mem
  | @fall i role =>
      have node := related.nodes i
      refine ⟨.nil _, related.silent rfl rfl rfl rfl node.queue node.next (.inr rfl) ?_⟩
      intro b m mem
      cases mem
  | @apply i =>
      have node := related.nodes i
      refine ⟨.nil _, ?_⟩
      rw [State.applyCommitted]
      split
      all_goals
        refine related.silent rfl rfl rfl rfl node.queue node.next (.inl rfl) ?_
        intro b m mem
        cases mem
  | @take i command queue queued =>
      rcases related.take queued with ⟨role, appends, after⟩ | ⟨role, after⟩
      · have written : c.writes (.take i) = [.append i ⟨command,
            (c.node i).raftLog.getCurrentLogIndex + 1, (c.node i).raftCurrentTerm⟩] := by
          simp only [Network.writes, role, queued]
        rw [Network.noted, written]
        exact ⟨.cons ⟨appends, rfl⟩ (.nil _), after⟩
      · have written : c.writes (.take i) = [] := by
          simp only [Network.writes, queued]
          split
          · rename_i leads _
            exact absurd leads role
          · rfl
        rw [Network.noted, written]
        exact ⟨.nil _, after⟩
  | propose => exact ⟨.nil _, related.applyCommand (fitting _ rfl)⟩
  | adopt later =>
      obtain ⟨enters, after⟩ := related.adopt later
      exact ⟨.cons ⟨enters, rfl⟩ (.nil _), after⟩
  | grant head role now noOlder noShorter unvoted =>
      obtain ⟨votes, after⟩ := related.grant head role now noOlder noShorter unvoted
      exact ⟨.cons ⟨votes, rfl⟩ (.nil _), after⟩
  | count head role => exact ⟨.nil _, related.count head role⟩
  | @entries src dst stamp term commitIndex entries prev rest head current =>
      obtain ⟨enters, ⟨accepts, copies, after⟩ | ⟨refuses, after⟩⟩ := related.entries head current
      · have written : c.writes (.entries src dst) =
            [.enter dst term, .accept dst (prev.elim 0 Prod.fst + entries.length)] := by
          simp only [Network.writes, head, if_pos accepts]
        rw [Network.noted, written]
        exact ⟨.cons ⟨enters, rfl⟩ (.cons ⟨copies, rfl⟩ (.nil _)), after⟩
      · have written : c.writes (.entries src dst) = [.enter dst term] := by
          simp only [Network.writes, head, if_neg refuses]
        rw [Network.noted, written]
        exact ⟨.cons ⟨enters, rfl⟩ (.nil _), after⟩
  | @oversize src dst stamp term commitIndex body rest c' head other =>
      obtain ⟨-, -, entries, prev, body, -⟩ := related.packets src dst _ (by
        rw [head]
        exact List.mem_cons_self)
      exact absurd body (other entries prev)
  | response head => exact ⟨.nil _, related.response head⟩
  | @command src dst stamp command rest head =>
      have fits := (related.packets src dst _ (by rw [head]; exact List.mem_cons_self)).2
      have fewer := related.dropped head
      exact ⟨.nil _, fewer.applyCommand fits⟩
  | lose => exact ⟨.nil _, related.fewer (List.eraseIdx_sublist _ _)⟩

end Belcoin.SyncObj
