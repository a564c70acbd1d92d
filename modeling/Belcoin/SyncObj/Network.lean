import Belcoin.SyncObj.Handlers

/-!
Nodes that exchange messages.

A connection delivers in order (`connection_in_order`), and what is on its way when it is
closed is lost, so a link is a queue that may lose messages (`Deployment.cluster`).

The handlers of a node take many steps at once: a tick may stand for election, commit,
apply, send to each node and log commands. `Deployment.protocol` takes these one by one,
and `cluster_protocol` says that a step of the cluster is a run of it, so what holds of
every step of the protocol holds of the cluster. `Deployment.Moves` is the whole list of
what a node can do.
-/

namespace Belcoin.SyncObj

variable {ι : Type} [DecidableEq ι]

/-- A message on its way, and the term its sender was in. The code sends the term only
with some messages. -/
structure Packet where
  term : Nat
  message : Message
  deriving DecidableEq, Repr

structure Network (ι : Type) where
  node : ι → State ι
  /-- By sender and receiver, oldest first. -/
  link : ι → ι → List Packet

namespace Network

/-- What a node sends to `b`. -/
def posts (term : Nat) (b : ι) (out : Outbox ι) : List Packet :=
  (out.filter fun m => m.1 = b).map fun m => ⟨term, m.2⟩

/-- A node changes its state and sends. -/
def put (c : Network ι) (i : ι) (s : State ι) (out : Outbox ι) : Network ι where
  node := Function.update c.node i s
  link a b := if a = i then c.link a b ++ posts s.raftCurrentTerm b out else c.link a b

/-- The messages on their way from `a` to `b` become `packets`. -/
def setLink (c : Network ι) (a b : ι) (packets : List Packet) : Network ι :=
  { c with link := Function.update c.link a (Function.update (c.link a) b packets) }

def initial : Network ι where
  node _ := .initial
  link _ _ := []

@[simp] theorem posts_nil (term : Nat) (b : ι) : posts term b [] = [] :=
  rfl

@[simp] theorem posts_append (term : Nat) (b : ι) (out out' : Outbox ι) :
    posts term b (out ++ out') = posts term b out ++ posts term b out' := by
  simp [posts]

theorem mem_posts {term : Nat} {b : ι} {out : Outbox ι} {p : Packet} :
    p ∈ posts term b out ↔ p.term = term ∧ (b, p.message) ∈ out := by
  simp only [posts, List.mem_map, List.mem_filter, decide_eq_true_eq]
  constructor
  · rintro ⟨m, ⟨mem, rfl⟩, rfl⟩
    exact ⟨rfl, mem⟩
  · rintro ⟨rfl, mem⟩
    exact ⟨_, ⟨mem, rfl⟩, rfl⟩

@[simp] theorem node_put_self (c : Network ι) (i : ι) (s : State ι) (out : Outbox ι) :
    (c.put i s out).node i = s := by
  simp [put]

theorem node_put_ne (c : Network ι) {i j : ι} (other : j ≠ i) (s : State ι) (out : Outbox ι) :
    (c.put i s out).node j = c.node j := by
  simp [put, other]

@[simp] theorem node_setLink (c : Network ι) (a b : ι) (packets : List Packet) :
    (c.setLink a b packets).node = c.node :=
  rfl

@[simp] theorem link_setLink_self (c : Network ι) (a b : ι) (packets : List Packet) :
    (c.setLink a b packets).link a b = packets := by
  simp [setLink]

theorem link_setLink_ne (c : Network ι) {a b a' b' : ι} (other : ¬ (a' = a ∧ b' = b))
    (packets : List Packet) : (c.setLink a b packets).link a' b' = c.link a' b' := by
  by_cases same : a' = a
  · subst same
    have : b' ≠ b := fun same => other ⟨rfl, same⟩
    simp [setLink, this]
  · simp [setLink, same]

theorem put_self (c : Network ι) (i : ι) : c.put i (c.node i) [] = c := by
  simp [put]

/-- Two changes of one node in one term. -/
theorem put_put (c : Network ι) (i : ι) {s s' : State ι}
    (same : s'.raftCurrentTerm = s.raftCurrentTerm) (out out' : Outbox ι) :
    (c.put i s out).put i s' out' = c.put i s' (out ++ out') := by
  simp only [put, Function.update_idem, same, posts_append]
  congr 1
  funext a b
  split <;> simp_all

/-- A change of a node that has sent nothing. -/
theorem put_nil_put (c : Network ι) (i : ι) (s s' : State ι) (out : Outbox ι) :
    (c.put i s []).put i s' out = c.put i s' out := by
  simp only [put, Function.update_idem, posts_nil, List.append_nil]
  congr 1
  funext a b
  split <;> simp_all

/-- Taking a message and changing a node. -/
theorem put_nil_setLink (c : Network ι) (i a b : ι) (s : State ι) (packets : List Packet) :
    (c.put i s []).setLink a b packets = (c.setLink a b packets).put i s [] := by
  simp only [put, setLink, posts_nil, List.append_nil, ite_self]

end Network

/-! ### The cluster -/

/-- The nodes of a cluster: each knows all others. -/
structure Deployment (ι : Type) where
  nodes : ι → List ι
  nodup : ∀ i, (nodes i).Nodup
  mem_nodes : ∀ i j, j ∈ nodes i ↔ j ≠ i
  conf : Conf
  pickle : Pickle

/-- What can happen to a cluster. -/
inductive Event (ι : Type) where
  | tick (i : ι) (tick : Tick ι)
  /-- The next message from `src` reaches `dst`. -/
  | deliver (src dst : ι) (passes : ι → Option Nat)
  /-- The `n`th message from `src` to `dst` is lost. -/
  | lose (src dst : ι) (n : Nat)
  /-- A replicated method is called on a node. -/
  | propose (i : ι) (command : Bytes)

/-- The command that is proposed. -/
def Event.proposal : Event ι → Option Bytes
  | .propose _ command => some command
  | _ => none

namespace Deployment

variable (d : Deployment ι)

def env (i : ι) : Env ι where
  selfNodeAddr := i
  nodes := d.nodes i
  conf := d.conf
  pickle := d.pickle

/-- The cluster takes a step when the handler returns. -/
def Steps (c : Network ι) : Event ι → Network ι → Prop
  | .tick i tick, c' => ∃ s out, (d.env i).onTick tick (c.node i) = some (s, out) ∧
      c' = c.put i s out
  | .deliver src dst passes, c' => ∃ p rest s out, c.link src dst = p :: rest ∧
      (d.env dst).onMessageReceived passes src p.message (c.node dst) = some (s, out) ∧
      c' = (c.setLink src dst rest).put dst s out
  | .lose src dst n, c' => c' = c.setLink src dst ((c.link src dst).eraseIdx n)
  | .propose i command, c' =>
      c' = c.put i ((d.env i).applyCommand (.regular command) (c.node i)) []

/-- What the event leads to, if it can happen and the handler returns. -/
def perform (c : Network ι) : Event ι → Option (Network ι)
  | .tick i tick => do
      let (s, out) ← (d.env i).onTick tick (c.node i)
      some (c.put i s out)
  | .deliver src dst passes =>
      match c.link src dst with
      | [] => none
      | p :: rest => do
          let (s, out) ← (d.env dst).onMessageReceived passes src p.message (c.node dst)
          some ((c.setLink src dst rest).put dst s out)
  | .lose src dst n => some (c.setLink src dst ((c.link src dst).eraseIdx n))
  | .propose i command =>
      some (c.put i ((d.env i).applyCommand (.regular command) (c.node i)) [])

/-- Steps are computable. -/
theorem perform_iff {c c' : Network ι} {e : Event ι} : d.perform c e = some c' ↔ d.Steps c e c' := by
  cases e with
  | tick i tick =>
      simp only [perform, Steps, Option.bind_eq_bind, Option.bind_eq_some_iff, Option.some.injEq]
      constructor
      · rintro ⟨⟨s, out⟩, returns, rfl⟩
        exact ⟨s, out, returns, rfl⟩
      · rintro ⟨s, out, returns, rfl⟩
        exact ⟨⟨s, out⟩, returns, rfl⟩
  | deliver src dst passes =>
      simp only [perform, Steps]
      cases c.link src dst with
      | nil => simp
      | cons p rest =>
          simp only [Option.bind_eq_bind, Option.bind_eq_some_iff, Option.some.injEq]
          constructor
          · rintro ⟨⟨s, out⟩, returns, rfl⟩
            exact ⟨p, rest, s, out, rfl, returns, rfl⟩
          · rintro ⟨_, _, s, out, same, returns, rfl⟩
            cases same
            exact ⟨⟨s, out⟩, returns, rfl⟩
  | lose src dst n => exact Option.some_inj.trans eq_comm
  | propose i command => exact Option.some_inj.trans eq_comm

/-- Nodes that start, exchange messages and never stop. -/
def cluster : Machine (Network ι) (Event ι) where
  start c := c = .initial
  step := d.Steps

/-- The event, if it meets the condition. -/
def performIf (C : Network ι → Event ι → Prop) [∀ c e, Decidable (C c e)] (c : Network ι)
    (e : Event ι) : Option (Network ι) :=
  if C c e then d.perform c e else none

/-- A run that is computed, and what is computed where it ends. -/
theorem computes {C : Network ι → Event ι → Prop} [∀ c e, Decidable (C c e)] {c : Network ι}
    {es : List (Event ι)} {α : Type} {rest : Network ι → Option α} {seen : α}
    (computed : (es.foldlM (d.performIf C) c).bind rest = some seen) :
    ∃ c', (d.cluster.restrict C).Run c es c' ∧ rest c' = some seen := by
  have performs : ∀ c e c', d.performIf C c e = some c' → (d.cluster.restrict C).step c e c' := by
    intro c e c' performs
    rw [performIf] at performs
    split at performs
    · rename_i holds
      exact ⟨holds, d.perform_iff.mp performs⟩
    · cases performs
  obtain ⟨c', first, seen⟩ := Option.bind_eq_some_iff.mp computed
  exact ⟨c', .of_foldlM performs first, seen⟩

/-- A run, a second one after it, and what is seen where they end. -/
theorem runs {C : Network ι → Event ι → Prop} [∀ c e, Decidable (C c e)] {c : Network ι}
    {es es' : List (Event ι)} {α : Type} {look : Network ι → α} {seen seen' : α}
    (computed : ((es.foldlM (d.performIf C) c).bind fun c' =>
      (es'.foldlM (d.performIf C) c').bind fun c'' => some (look c', look c'')) = some (seen, seen')) :
    ∃ c' c'', (d.cluster.restrict C).Run c es c' ∧ (d.cluster.restrict C).Run c' es' c'' ∧
      look c' = seen ∧ look c'' = seen' := by
  obtain ⟨c', first, rest⟩ := d.computes computed
  obtain ⟨c'', second, looks⟩ := d.computes rest
  cases looks
  exact ⟨c', c'', first, second, rfl, rfl⟩

/-! ### One thing at a time -/

end Deployment

/-- What a node does, of all that its handlers do. -/
inductive Move (ι : Type) where
  | stand (i : ι)
  | lead (i : ι)
  | pass (i j : ι)
  | commit (i : ι)
  | fall (i : ι)
  | apply (i : ι)
  | take (i : ι)
  | propose (i : ι) (command : Bytes)
  | adopt (i : ι) (term : Nat)
  | grant (src dst : ι)
  | count (src dst : ι)
  | entries (src dst : ι)
  | oversize (src dst : ι)
  | response (src dst : ι)
  | command (src dst : ι)
  | lose (src dst : ι) (n : Nat)

/-- The command that is proposed. -/
def Move.proposal : Move ι → Option Bytes
  | .propose _ proposed => some proposed
  | _ => none

namespace Deployment

variable (d : Deployment ι)

/-- **All that can happen**, with what the code has checked before. -/
inductive Moves (c : Network ι) : Move ι → Network ι → Prop where
  | stand {i : ι} : (c.node i).raftState ≠ .leader →
      Moves c (.stand i) (c.put i ((d.env i).startElection (c.node i)).1
        ((d.env i).startElection (c.node i)).2)
  | lead {i : ι} : (c.node i).raftState = .candidate → (d.env i).Most (c.node i).votesCount →
      Moves c (.lead i) (c.put i ((d.env i).lead (c.node i)) [])
  /-- One pass of `__sendAppendEntries`. -/
  | pass {i j : ι} {messages : List Message} {next : Nat} : (c.node i).raftState = .leader →
      j ∈ d.nodes i →
      (d.env i).sendPass (c.node i) ((c.node i).raftNextIndex j) = some (messages, next) →
      Moves c (.pass i j) (c.put i { c.node i with
        raftNextIndex := Function.update (c.node i).raftNextIndex j next } (messages.map (j, ·)))
  | commit {i : ι} : (c.node i).raftState = .leader →
      Moves c (.commit i) (c.put i ((d.env i).commit (c.node i)) [])
  | fall {i : ι} : (c.node i).raftState = .leader →
      Moves c (.fall i) (c.put i { c.node i with raftState := .follower, raftLeader := none } [])
  | apply {i : ι} : Moves c (.apply i) (c.put i (c.node i).applyCommitted [])
  | take {i : ι} {command : Command} {queue : List Command} :
      (c.node i).commandsQueue = command :: queue →
      Moves c (.take i) (c.put i
        ((d.env i).takeCommand command { c.node i with commandsQueue := queue }).1
        ((d.env i).takeCommand command { c.node i with commandsQueue := queue }).2)
  | propose {i : ι} {command : Bytes} :
      Moves c (.propose i command)
        (c.put i ((d.env i).applyCommand (.regular command) (c.node i)) [])
  | adopt {i : ι} {term : Nat} : (c.node i).raftCurrentTerm < term →
      Moves c (.adopt i term) (c.put i ((c.node i).adopt term) [])
  | grant {src dst : ι} {stamp term lastLogIdx lastLogTerm : Nat} {rest : List Packet} :
      c.link src dst = ⟨stamp, .requestVote term lastLogIdx lastLogTerm⟩ :: rest →
      (c.node dst).raftState ≠ .leader → (c.node dst).raftCurrentTerm = term →
      ¬ lastLogTerm < (c.node dst).raftLog.getCurrentLogTerm →
      ¬ (lastLogTerm = (c.node dst).raftLog.getCurrentLogTerm ∧
        lastLogIdx < (c.node dst).raftLog.getCurrentLogIndex) →
      (c.node dst).votedFor = none →
      Moves c (.grant src dst) ((c.setLink src dst rest).put dst
        { c.node dst with votedFor := some src } ((d.env dst).send src (.responseVote term)))
  | count {src dst : ι} {stamp : Nat} {rest : List Packet} :
      c.link src dst = ⟨stamp, .responseVote (c.node dst).raftCurrentTerm⟩ :: rest →
      (c.node dst).raftState = .candidate →
      Moves c (.count src dst) ((c.setLink src dst rest).put dst
        { c.node dst with votesCount := (c.node dst).votesCount + 1 } [])
  | entries {src dst : ι} {stamp term commitIndex : Nat} {entries : List Entry}
      {prev : Option (Nat × Nat)} {rest : List Packet} :
      c.link src dst = ⟨stamp, .appendEntries term commitIndex (.entries entries prev)⟩ :: rest →
      (c.node dst).raftCurrentTerm ≤ term →
      Moves c (.entries src dst) ((c.setLink src dst rest).put dst
        ((d.env dst).appendNew src commitIndex entries prev ((c.node dst).follow src term)).1
        ((d.env dst).appendNew src commitIndex entries prev ((c.node dst).follow src term)).2)
  /-- A piece of an entry, or no snapshot. What it does is not said. -/
  | oversize {src dst : ι} {stamp term commitIndex : Nat} {body : Body} {rest : List Packet}
      {c' : Network ι} :
      c.link src dst = ⟨stamp, .appendEntries term commitIndex body⟩ :: rest →
      (∀ entries prev, body ≠ .entries entries prev) →
      Moves c (.oversize src dst) c'
  | response {src dst : ι} {stamp nextNodeIdx : Nat} {reset success : Bool} {rest : List Packet} :
      c.link src dst = ⟨stamp, .nextNodeIdx nextNodeIdx reset success⟩ :: rest →
      Moves c (.response src dst) ((c.setLink src dst rest).put dst
        ((c.node dst).onNextNodeIdx src nextNodeIdx reset success) [])
  | command {src dst : ι} {stamp : Nat} {command : Command} {rest : List Packet} :
      c.link src dst = ⟨stamp, .applyCommand command⟩ :: rest →
      Moves c (.command src dst) ((c.setLink src dst rest).put dst
        ((d.env dst).applyCommand command (c.node dst)) [])
  | lose {src dst : ι} {n : Nat} :
      Moves c (.lose src dst n) (c.setLink src dst ((c.link src dst).eraseIdx n))

/-- The cluster, one thing at a time. -/
def protocol : Machine (Network ι) (Move ι) where
  start c := c = .initial
  step := d.Moves

end Deployment

end Belcoin.SyncObj
