import Belcoin.SyncObj.Handlers

/-!
What the handlers leave as it is.

Commands may join the queue before a node stands for election or after, it makes no
difference (`checkElection_enqueue`). Only `finishTick` calls replicated methods
(`finishTick_applied`, `onMessageReceived_applied`), and it makes no leader
(`finishTick_role`).
-/

namespace Belcoin.SyncObj

variable {ι : Type} [DecidableEq ι] {env : Env ι} {s s' : State ι} {out : Outbox ι}

/-! ### Sending -/

/-- `__sendAppendEntries` changes `raftNextIndex` only. -/
theorem sendAppendEntries_frame {passes : ι → Option Nat} {nodes : List ι}
    (sends : env.sendAppendEntries passes nodes s = some (s', out)) :
    ∃ next, s' = { s with raftNextIndex := next } := by
  induction nodes generalizing s out with
  | nil =>
      cases sends
      exact ⟨_, rfl⟩
  | cons nodeAddr nodes ih =>
      rw [Env.sendAppendEntries] at sends
      split at sends
      · exact ih sends
      · simp only [Option.bind_eq_bind, Option.bind_eq_some_iff, Option.some.injEq] at sends
        obtain ⟨⟨messages, next⟩, -, ⟨s₁, sent⟩, rest, same⟩ := sends
        cases same
        obtain ⟨next', rfl⟩ := ih rest
        exact ⟨next', rfl⟩

omit [DecidableEq ι] in
theorem sendPass_queue (queue : List Command) (nextNodeIndex : Nat) :
    env.sendPass { s with commandsQueue := queue } nextNodeIndex = env.sendPass s nextNodeIndex :=
  rfl

omit [DecidableEq ι] in
theorem sendLoop_queue (queue : List Command) (passes nextNodeIndex : Nat) :
    env.sendLoop { s with commandsQueue := queue } passes nextNodeIndex =
      env.sendLoop s passes nextNodeIndex := by
  induction passes generalizing nextNodeIndex with
  | zero => rfl
  | succ passes ih =>
      simp only [Env.sendLoop, ih, sendPass_queue]

/-- `__sendAppendEntries` does not look at the queue. -/
theorem sendAppendEntries_queue (queue : List Command) (passes : ι → Option Nat) (nodes : List ι) :
    env.sendAppendEntries passes nodes { s with commandsQueue := queue } =
      (env.sendAppendEntries passes nodes s).map fun sent =>
        ({ sent.1 with commandsQueue := queue }, sent.2) := by
  induction nodes generalizing s with
  | nil => rfl
  | cons nodeAddr nodes ih =>
      simp only [Env.sendAppendEntries]
      split
      · exact ih
      · simp only [sendLoop_queue]
        cases env.sendLoop s _ (s.raftNextIndex nodeAddr) with
        | none => rfl
        | some sent =>
            obtain ⟨messages, next⟩ := sent
            have rest := ih (s := { s with
              raftNextIndex := Function.update s.raftNextIndex nodeAddr next })
            simp only [Option.bind_eq_bind, Option.bind_some, rest]
            cases env.sendAppendEntries passes nodes _ <;> rfl

/-! ### Elections -/

theorem onBecomeLeader_frame {passes : ι → Option Nat}
    (leads : env.onBecomeLeader passes s = some (s', out)) :
    s'.commandsQueue = s.commandsQueue ∧ s'.applied = s.applied := by
  obtain ⟨next, rfl⟩ := sendAppendEntries_frame leads
  exact ⟨rfl, rfl⟩

theorem checkElection_frame {tick : Tick ι} (elects : env.checkElection tick s = some (s', out)) :
    s'.commandsQueue = s.commandsQueue ∧ s'.applied = s.applied := by
  rw [Env.checkElection] at elects
  split at elects
  · simp only [Option.bind_eq_bind] at elects
    split at elects
    · obtain ⟨⟨s₁, sent⟩, leads, same⟩ := Option.bind_eq_some_iff.mp elects
      cases same
      obtain ⟨queue, applied⟩ := onBecomeLeader_frame leads
      exact ⟨queue, applied⟩
    · cases elects
      exact ⟨rfl, rfl⟩
  · cases elects
    exact ⟨rfl, rfl⟩

theorem checkElection_queue (queue : List Command) (tick : Tick ι) :
    env.checkElection tick { s with commandsQueue := queue } =
      (env.checkElection tick s).map fun elected =>
        ({ elected.1 with commandsQueue := queue }, elected.2) := by
  simp only [Env.checkElection]
  split
  · have stood : env.startElection { s with commandsQueue := queue } =
        ({ (env.startElection s).1 with commandsQueue := queue }, (env.startElection s).2) := rfl
    have same : env.onBecomeLeader tick.elected
        { (env.startElection s).1 with commandsQueue := queue } =
          (env.onBecomeLeader tick.elected (env.startElection s).1).map fun led =>
            ({ led.1 with commandsQueue := queue }, led.2) :=
      sendAppendEntries_queue (s := env.lead (env.startElection s).1) queue tick.elected env.nodes
    simp only [Option.bind_eq_bind, stood, same]
    split
    · cases env.onBecomeLeader tick.elected (env.startElection s).1 <;> rfl
    · rfl
  · rfl

/-- Commands that are proposed one after the other. -/
def Env.enqueue (env : Env ι) (commands : List Bytes) (s : State ι) : State ι :=
  commands.foldl (fun s command => env.applyCommand (.regular command) s) s

omit [DecidableEq ι] in
/-- Only the queue matters to them, and only the queue is changed. -/
theorem enqueue_eq (env : Env ι) (commands : List Bytes) :
    ∃ queue : List Command → List Command, ∀ s : State ι,
      env.enqueue commands s = { s with commandsQueue := queue s.commandsQueue } := by
  induction commands with
  | nil => exact ⟨id, fun _ => rfl⟩
  | cons command commands ih =>
      obtain ⟨queue, rest⟩ := ih
      refine ⟨fun before => queue (if env.conf.commandsQueueSize < before.length then before
        else before ++ [.regular command]), fun s => ?_⟩
      have first : env.enqueue (command :: commands) s =
          env.enqueue commands (env.applyCommand (.regular command) s) := rfl
      rw [first, rest, Env.applyCommand]
      dsimp only
      split <;> rfl

/-- **Commands may join the queue first.** -/
theorem checkElection_enqueue {tick : Tick ι} (commands : List Bytes)
    (elects : env.checkElection tick s = some (s', out)) :
    env.checkElection tick (env.enqueue commands s) = some (env.enqueue commands s', out) := by
  obtain ⟨queue, same⟩ := enqueue_eq env commands
  rw [same, same, checkElection_queue, elects, (checkElection_frame elects).1]
  rfl

/-- A tick is the same whether commands join the queue before the election or after it. -/
theorem onTick_enqueue {tick : Tick ι} (commands : List Bytes)
    (elects : env.checkElection tick s = some (s', out)) :
    env.onTick tick (env.enqueue commands s) =
      (env.finishTick tick (env.enqueue commands s')).map fun finished =>
        (finished.1, out ++ finished.2) := by
  rw [Env.onTick, checkElection_enqueue commands elects, Option.map_eq_bind]
  rfl

/-! ### The rest of a tick -/

theorem checkCommandsToApply_frame (n : Nat) (s : State ι) :
    (env.checkCommandsToApply n s).1.applied = s.applied ∧
      (env.checkCommandsToApply n s).1.raftState = s.raftState := by
  induction n generalizing s with
  | zero => exact ⟨rfl, rfl⟩
  | succ n ih =>
      rw [Env.checkCommandsToApply]
      split
      · exact ⟨rfl, rfl⟩
      · split
        · exact ⟨rfl, rfl⟩
        · rename_i command queue queued
          have taken : (env.takeCommand command { s with commandsQueue := queue }).1.applied =
              s.applied ∧ (env.takeCommand command { s with commandsQueue := queue }).1.raftState =
                s.raftState := by
            rw [Env.takeCommand]
            split
            · exact ⟨rfl, rfl⟩
            · split <;> exact ⟨rfl, rfl⟩
          obtain ⟨applied, role⟩ := ih (env.takeCommand command { s with commandsQueue := queue }).1
          exact ⟨applied.trans taken.1, role.trans taken.2⟩

/-- The state from which the rest of a tick sends. -/
theorem finishTick_frame {tick : Tick ι} (finishes : env.finishTick tick s = some (s', out)) :
    ∃ s₁, (s₁ = s ∨ s.raftState = .leader ∧ s₁ = env.checkFallback tick (env.commit s)) ∧
      s'.applied = s₁.applyCommitted.applied ∧ s'.raftState = s₁.raftState := by
  refine ⟨if s.raftState = .leader then env.checkFallback tick (env.commit s) else s, ?_, ?_⟩
  · split
    · rename_i leads
      exact .inr ⟨leads, rfl⟩
    · exact .inl rfl
  · rw [Env.finishTick] at finishes
    simp only [Option.bind_eq_bind] at finishes
    generalize (if s.raftState = .leader then env.checkFallback tick (env.commit s) else s) = s₁
      at finishes
    have role₁ : s₁.applyCommitted.raftState = s₁.raftState := by
      rw [State.applyCommitted]
      split <;> rfl
    rw [← role₁]
    split at finishes
    · obtain ⟨⟨s₂, sent⟩, sends, same⟩ := Option.bind_eq_some_iff.mp finishes
      cases same
      obtain ⟨next, rfl⟩ := sendAppendEntries_frame sends
      exact checkCommandsToApply_frame tick.commands _
    · cases finishes
      exact checkCommandsToApply_frame tick.commands _

/-- **A tick applies entries after those applied before.** -/
theorem finishTick_applied {tick : Tick ι} (finishes : env.finishTick tick s = some (s', out)) :
    s.applied <+: s'.applied := by
  obtain ⟨s₁, from', applied, -⟩ := finishTick_frame finishes
  have kept : s₁.applied = s.applied := by
    rcases from' with rfl | ⟨-, rfl⟩
    · rfl
    · rw [Env.checkFallback]
      split <;> rfl
  rw [applied, State.applyCommitted, kept]
  split
  · exact List.prefix_append _ _
  · rw [kept]

/-- A node that leads after a tick has led since it was elected. -/
theorem finishTick_role {tick : Tick ι} (finishes : env.finishTick tick s = some (s', out))
    (leads : s'.raftState = .leader) : s.raftState = .leader := by
  obtain ⟨s₁, rfl | ⟨role, -⟩, -, same⟩ := finishTick_frame finishes
  · rw [← same, leads]
  · exact role

/-! ### Messages -/

theorem appendNew_applied (nodeAddr : ι) (commitIndex : Nat) (entries : List Entry)
    (prev : Option (Nat × Nat)) (s : State ι) :
    (env.appendNew nodeAddr commitIndex entries prev s).1.applied = s.applied := by
  unfold Env.appendNew
  split
  · split <;> rfl
  · rfl

/-- **A message applies nothing.** -/
theorem onMessageReceived_applied {passes : ι → Option Nat} {nodeAddr : ι} {message : Message}
    (receives : env.onMessageReceived passes nodeAddr message s = some (s', out)) :
    s'.applied = s.applied := by
  cases message with
  | requestVote term lastLogIndex lastLogTerm =>
      have adopted : (s.adopt term).applied = s.applied := by
        rw [State.adopt]
        split <;> rfl
      rw [Env.onMessageReceived, Env.onRequestVote] at receives
      split_ifs at receives <;> cases receives <;> exact adopted
  | responseVote term =>
      rw [Env.onMessageReceived, Env.onResponseVote] at receives
      dsimp only at receives
      split_ifs at receives
      · exact (onBecomeLeader_frame receives).2
      · cases receives
        rfl
      · cases receives
        rfl
  | appendEntries term commitIndex body =>
      rw [Env.onMessageReceived, Env.onAppendEntries] at receives
      split at receives
      · cases receives
        rfl
      · cases body with
        | entries entries prev =>
            obtain ⟨rfl, -⟩ := Prod.mk.inj (Option.some.inj receives)
            exact appendNew_applied _ _ _ _ _
        | transmission transmission data prev =>
            cases transmission with
            | start =>
                cases receives
                rfl
            | process =>
                obtain ⟨received, -, same⟩ := Option.bind_eq_some_iff.mp receives
                cases same
                rfl
            | finish =>
                obtain ⟨received, -, loads⟩ := Option.bind_eq_some_iff.mp receives
                obtain ⟨entry, -, same⟩ := Option.bind_eq_some_iff.mp loads
                obtain ⟨rfl, -⟩ := Prod.mk.inj (Option.some.inj same)
                exact appendNew_applied _ _ _ _ _
        | serialized =>
            cases receives
            rfl
  | nextNodeIdx nextNodeIdx reset success =>
      cases receives
      rw [State.onNextNodeIdx]
      split <;> rfl
  | applyCommand command =>
      cases receives
      rw [Env.applyCommand]
      split <;> rfl

end Belcoin.SyncObj
