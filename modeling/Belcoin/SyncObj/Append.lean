import Belcoin.SyncObj.Handlers

/-!
What `append_entries` messages carry, and what they do to a log.

On an indexed log whose commands all fit a batch, a pass of `__sendAppendEntries` for a
node whose `raftNextIndex` is behind the first entry returns, and sends one message
(`sendPass_sound`). The receiver either replies with the index to start from
(`appendNew_refuses`), or its log becomes what it has up to `prevLogIdx` followed by the
new entries (`appendNew_accepts`).
-/

namespace Belcoin.SyncObj

open RaftLog

variable {ι : Type} [DecidableEq ι] {s : State ι}

/-- The command fits a batch with room to spare. -/
def Conf.Fits (conf : Conf) (command : Command) : Prop :=
  command.size < conf.appendEntriesBatchSizeBytes

instance (conf : Conf) (command : Command) : Decidable (conf.Fits command) :=
  inferInstanceAs (Decidable (_ < _))

/-! ### Sending -/

/-- The entries of a pass. -/
def Env.entriesFrom (env : Env ι) (s : State ι) (nextNodeIndex : Nat) : List Entry :=
  batch env.conf.appendEntriesBatchSizeBytes 0 (s.raftLog.toList.drop (nextNodeIndex - 1))

/-- The message of a pass. -/
def Env.passMessage (env : Env ι) (s : State ι) (nextNodeIndex : Nat) : Message :=
  .appendEntries s.raftCurrentTerm s.raftCommitIndex
    (.entries (env.entriesFrom s nextNodeIndex) (s.raftLog.getPrevLogIndexTerm nextNodeIndex))

omit [DecidableEq ι] in
theorem entriesFrom_part (env : Env ι) (s : State ι) (nextNodeIndex : Nat) :
    env.entriesFrom s nextNodeIndex <+: s.raftLog.toList.drop (nextNodeIndex - 1) :=
  batch_part _ _ _

omit [DecidableEq ι] in
theorem entriesFrom_nil {env : Env ι} {nextNodeIndex : Nat}
    (behind : s.raftLog.toList.length < nextNodeIndex) : env.entriesFrom s nextNodeIndex = [] := by
  rw [Env.entriesFrom, List.drop_eq_nil_of_le (by omega)]
  rfl

omit [DecidableEq ι] in
/-- **A pass sends one message**, and `raftNextIndex` stays behind the first entry. -/
theorem sendPass_sound (env : Env ι) (indexed : Indexed s.raftLog.toList)
    (fits : ∀ entry ∈ s.raftLog.toList, env.conf.Fits entry.command) {nextNodeIndex : Nat}
    (inside : 2 ≤ nextNodeIndex) :
    ∃ next, env.sendPass s nextNodeIndex = some ([env.passMessage s nextNodeIndex], next) ∧
      2 ≤ next ∧ (bytesOf (s.raftLog.toList.drop (nextNodeIndex - 1)) <
        env.conf.appendEntriesBatchSizeBytes → s.raftLog.getCurrentLogIndex < next) := by
  have index := getCurrentLogIndex_eq indexed
  rw [Env.sendPass, first_idx indexed]
  simp only [if_pos (show 1 < nextNodeIndex by omega)]
  by_cases behind : nextNodeIndex ≤ s.raftLog.getCurrentLogIndex
  · have carried : batch env.conf.appendEntriesBatchSizeBytes 0
        (s.raftLog.toList.drop (nextNodeIndex - 1)) = env.entriesFrom s nextNodeIndex := rfl
    have more : s.raftLog.toList.drop (nextNodeIndex - 1) ≠ [] := by
      apply List.length_pos_iff.mp
      rw [List.length_drop]
      omega
    have some' : env.entriesFrom s nextNodeIndex ≠ [] := batch_ne_nil more
    rw [if_pos behind, getEntries_batch indexed (by omega), carried,
      List.getLast?_eq_some_getLast some']
    have mem := List.mem_of_mem_drop
      ((entriesFrom_part env s nextNodeIndex).mem (List.getLast_mem some'))
    have fit := fits _ mem
    obtain ⟨k, here⟩ := List.mem_iff_getElem?.mp mem
    have place := indexed k _ here
    refine ⟨((env.entriesFrom s nextNodeIndex).getLast some').idx + 1, ?_, by omega, ?_⟩
    · simp only [if_neg fun oversize : _ ∧ _ => absurd oversize.2 (Nat.not_le.mpr fit)]
      rfl
    · intro small
      have whole : env.entriesFrom s nextNodeIndex = s.raftLog.toList.drop (nextNodeIndex - 1) :=
        batch_whole (by omega)
      have last : (env.entriesFrom s nextNodeIndex).getLast? = some s.raftLog.last := by
        rw [whole, List.getLast?_drop, if_neg (by omega), getLast?_toList]
      rw [List.getLast?_eq_some_getLast some'] at last
      rw [Option.some.inj last]
      exact Nat.lt_succ_self _
  · rw [if_neg behind]
    refine ⟨nextNodeIndex, ?_, inside, fun _ => by omega⟩
    rw [Env.passMessage, entriesFrom_nil (by omega)]

/-! ### Receiving -/

/-- The log has the entry before the new ones. -/
def State.Accepts (s : State ι) (prev : Option (Nat × Nat)) : Prop :=
  ∃ p pt entry others, prev = some (p, pt) ∧
    s.raftLog.getEntries (some p) none none = entry :: others ∧ entry.term = pt

omit [DecidableEq ι] in
/-- Where an index of an indexed log points to. -/
theorem getEntries_cons (indexed : Indexed s.raftLog.toList) {p : Nat} {entry : Entry}
    {others : List Entry} (found : s.raftLog.getEntries (some p) none none = entry :: others) :
    1 ≤ p ∧ s.raftLog.toList[p - 1]? = some entry ∧ s.raftLog.toList.drop p = others := by
  by_cases inside : 1 ≤ p
  · rw [getEntries_drop indexed inside] at found
    refine ⟨inside, ?_, ?_⟩
    · have here := congrArg (fun l => l[0]?) found
      simpa [List.getElem?_drop] using here
    · have rest := congrArg List.tail found
      rw [List.tail_drop, Nat.sub_add_cancel inside] at rest
      exact rest
  · rw [RaftLog.getEntries, first_idx indexed, if_pos (by omega)] at found
    cases found

/-- **New entries that the log has room for** come after what it has up to them. -/
theorem appendNew_accepts (env : Env ι) (indexed : Indexed s.raftLog.toList)
    {prev : Option (Nat × Nat)} (accepts : s.Accepts prev) (nodeAddr : ι) (commitIndex : Nat) (entries : List Entry) :
    ∃ p pt log, prev = some (p, pt) ∧ 1 ≤ p ∧
      (∃ entry, s.raftLog.toList[p - 1]? = some entry ∧ entry.term = pt) ∧
      log.first = s.raftLog.first ∧ log.toList = s.raftLog.toList.take p ++ entries ∧
      env.appendNew nodeAddr commitIndex entries prev s =
        ({ s with raftLog := log, raftCommitIndex := min commitIndex log.getCurrentLogIndex },
          env.send nodeAddr
            (.nextNodeIdx ((entries.getLast?.map Entry.idx).getD (p + 1)) false true)) := by
  obtain ⟨p, pt, entry, others, rfl, found, term⟩ := accepts
  obtain ⟨inside, here, rest⟩ := getEntries_cons indexed found
  have short : p - 1 < s.raftLog.toList.length := (List.getElem?_eq_some_iff.mp here).1
  let kept := if others = [] then s.raftLog else s.raftLog.deleteEntriesFrom (p + 1)
  have keeps : kept.first = s.raftLog.first ∧ kept.toList = s.raftLog.toList.take p := by
    by_cases none : others = []
    · rw [show kept = s.raftLog from if_pos none]
      rw [none] at rest
      have := congrArg List.length rest
      rw [List.length_drop, List.length_nil] at this
      exact ⟨rfl, (List.take_of_length_le (by omega)).symm⟩
    · rw [show kept = s.raftLog.deleteEntriesFrom (p + 1) from if_neg none]
      refine ⟨?_, toList_deleteEntriesFrom indexed (by omega)⟩
      rw [RaftLog.deleteEntriesFrom]
      split <;> rfl
  refine ⟨p, pt, entries.foldl RaftLog.add kept, rfl, inside, ⟨entry, here, term⟩, ?_, ?_, ?_⟩
  · rw [← keeps.1]
    have unmoved : ∀ (es : List Entry) (l : RaftLog), (es.foldl RaftLog.add l).first = l.first := by
      intro es
      induction es with
      | nil => exact fun _ => rfl
      | cons e es ih => exact fun l => ih (l.add e)
    exact unmoved entries kept
  · rw [toList_foldl_add, keeps.2]
  · unfold Env.appendNew
    simp only [Option.map_some, found, term, ne_eq, not_true, if_false]
    cases entries.getLast? <;> rfl

/-- **New entries that the log has no room for** leave it as it is. The reply is where to
start from, and not the first entry, if logs agree on the first entry. -/
theorem appendNew_refuses (env : Env ι) (indexed : Indexed s.raftLog.toList) {prev : Option (Nat × Nat)}
    (refuses : ¬ s.Accepts prev) (first : ∀ p, prev = some p → p.1 = 1 → p.2 = s.raftLog.first.term)
    (nodeAddr : ι) (commitIndex : Nat) (entries : List Entry) :
    ∃ nextNodeIdx, 2 ≤ nextNodeIdx ∧ env.appendNew nodeAddr commitIndex entries prev s =
      (s, env.send nodeAddr (.nextNodeIdx nextNodeIdx true false)) := by
  have long := List.length_pos_iff.mpr s.raftLog.toList_ne_nil
  have behind : 2 ≤ s.raftLog.getCurrentLogIndex + 1 := by
    rw [getCurrentLogIndex_eq indexed]
    omega
  cases prev with
  | none => exact ⟨_, behind, rfl⟩
  | some at' =>
      obtain ⟨p, pt⟩ := at'
      unfold Env.appendNew
      simp only [Option.map_some]
      cases found : s.raftLog.getEntries (some p) none none with
      | nil => exact ⟨_, behind, rfl⟩
      | cons entry others =>
          have other : entry.term ≠ pt := fun same => refuses ⟨p, pt, entry, others, rfl, found, same⟩
          obtain ⟨inside, here, -⟩ := getEntries_cons indexed found
          refine ⟨p, ?_, by simp only [if_pos other]; rfl⟩
          by_contra start
          obtain rfl : p = 1 := by omega
          have same := first _ rfl rfl
          rw [show s.raftLog.toList[1 - 1]? = some s.raftLog.first from rfl] at here
          cases here
          exact other same.symm

end Belcoin.SyncObj
