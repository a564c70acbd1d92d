import Belcoin.Lib.Consensus
import Belcoin.Transaction

/-!
The Raft log of a `SyncObj`.

An entry is `(command, idx, term)`. The constructor adds a no-op to an empty journal, and
nothing ever deletes the first entry, so a log has one (`RaftLog`). Commands are those
that the program proposes: the calls of replicated methods and the leaders' no-ops.
Nothing proposes `VERSION` commands, and the console that would propose `MEMBERSHIP`
commands is not started.

* `Indexed` — the entry at position `k` has index `k + 1`. On such logs `getEntries` is
  a slice (`getEntries_drop`) and `getPrevLogIndexTerm` finds what lies before it.
-/

namespace Belcoin.SyncObj

/-- A command, less its `_COMMAND_TYPE`. -/
inductive Command where
  | regular (command : Bytes)
  | noOp
  deriving DecidableEq, Repr

/-- `_bchr(commandType) + command` -/
def Command.toBytes : Command → Bytes
  | .regular command => 0 :: command
  | .noOp => [1]

/-- `len(entry[0])` -/
def Command.size (command : Command) : Nat :=
  command.toBytes.length

structure Entry where
  command : Command
  idx : Nat
  term : Nat
  deriving DecidableEq, Repr

/-- What `getEntries` counts. -/
def bytesOf (entries : List Entry) : Nat :=
  (entries.map fun entry => entry.command.size).sum

/-- A journal that is not empty: `raftLog[0]`, and what comes after it. -/
structure RaftLog where
  first : Entry
  rest : List Entry
  deriving DecidableEq, Repr

namespace RaftLog

def toList (log : RaftLog) : List Entry :=
  log.first :: log.rest

/-- `raftLog.add` -/
def add (log : RaftLog) (entry : Entry) : RaftLog :=
  { log with rest := log.rest ++ [entry] }

/-- `raftLog[-1]` -/
def last (log : RaftLog) : Entry :=
  log.rest.getLast?.getD log.first

def getCurrentLogIndex (log : RaftLog) : Nat :=
  log.last.idx

def getCurrentLogTerm (log : RaftLog) : Nat :=
  log.last.term

/-- The loop of `getEntries` that ends with the entry that fills the batch. -/
def batch (maxSizeBytes : Nat) : Nat → List Entry → List Entry
  | _, [] => []
  | totalSize, entry :: result =>
      if maxSizeBytes ≤ totalSize + entry.command.size then [entry]
      else entry :: batch maxSizeBytes (totalSize + entry.command.size) result

def getEntries (log : RaftLog) (fromIDx : Option Nat) (count maxSizeBytes : Option Nat) :
    List Entry :=
  match fromIDx with
  | none => []
  | some fromIDx =>
      if fromIDx < log.first.idx then []
      else
        let diff := fromIDx - log.first.idx
        let result := match count with
          | none => log.toList.drop diff
          | some count => (log.toList.drop diff).take count
        match maxSizeBytes with
        | none => result
        | some maxSizeBytes => batch maxSizeBytes 0 result

/-- Index and term of the entry before `nextNodeIndex`, `none` where the source has
`(None, None)`. -/
def getPrevLogIndexTerm (log : RaftLog) (nextNodeIndex : Nat) : Option (Nat × Nat) :=
  let prevIndex := nextNodeIndex - 1
  match log.getEntries (some prevIndex) (some 1) none with
  | [] => none
  | entry :: _ => some (prevIndex, entry.term)

/-- The journal keeps the entries before position `fromIDx - raftLog[0].idx`. The only
caller passes an index behind that of an entry of the log, so the first entry stays. -/
def deleteEntriesFrom (log : RaftLog) (fromIDx : Nat) : RaftLog :=
  if fromIDx < log.first.idx then log
  else { log with rest := log.rest.take (fromIDx - log.first.idx - 1) }

/-! ### Logs as lists -/

@[simp] theorem toList_ne_nil (log : RaftLog) : log.toList ≠ [] :=
  List.cons_ne_nil _ _

@[simp] theorem toList_add (log : RaftLog) (entry : Entry) :
    (log.add entry).toList = log.toList ++ [entry] :=
  rfl

theorem toList_foldl_add (entries : List Entry) (log : RaftLog) :
    (entries.foldl add log).toList = log.toList ++ entries := by
  induction entries generalizing log with
  | nil => simp
  | cons entry entries ih =>
      rw [List.foldl_cons, ih, toList_add, List.append_assoc]
      rfl

theorem getLast?_toList (log : RaftLog) : log.toList.getLast? = some log.last := by
  rw [toList, List.getLast?_cons, last]

theorem getCurrentLogTerm_eq (log : RaftLog) :
    log.getCurrentLogTerm = Consensus.lastTerm Entry.term log.toList := by
  rw [Consensus.lastTerm, getLast?_toList]
  rfl

end RaftLog

/-! ### Batches -/

open RaftLog

theorem batch_part (maxSizeBytes totalSize : Nat) (entries : List Entry) :
    batch maxSizeBytes totalSize entries <+: entries := by
  induction entries generalizing totalSize with
  | nil => exact List.prefix_rfl
  | cons entry entries ih =>
      rw [batch]
      split
      · exact ⟨entries, rfl⟩
      · exact List.cons_prefix_cons.mpr ⟨rfl, ih _⟩

theorem batch_ne_nil {maxSizeBytes totalSize : Nat} {entries : List Entry} (some : entries ≠ []) :
    batch maxSizeBytes totalSize entries ≠ [] := by
  cases entries with
  | nil => exact absurd rfl some
  | cons entry entries =>
      rw [batch]
      split <;> exact List.cons_ne_nil _ _

/-- Entries that together are smaller than a batch all go into it. -/
theorem batch_whole {maxSizeBytes totalSize : Nat} {entries : List Entry}
    (small : totalSize + bytesOf entries < maxSizeBytes) :
    batch maxSizeBytes totalSize entries = entries := by
  induction entries generalizing totalSize with
  | nil => rfl
  | cons entry entries ih =>
      have sum : bytesOf (entry :: entries) = entry.command.size + bytesOf entries := rfl
      rw [batch, if_neg (by omega), ih (by omega)]

/-! ### Indexed logs -/

/-- Entries are numbered from 1. -/
def Indexed (entries : List Entry) : Prop :=
  ∀ k entry, entries[k]? = some entry → entry.idx = k + 1

theorem Indexed.append {entries : List Entry} (indexed : Indexed entries) {entry : Entry}
    (next : entry.idx = entries.length + 1) : Indexed (entries ++ [entry]) := by
  intro k e here
  rw [List.getElem?_append] at here
  split at here
  · exact indexed k e here
  · rename_i late
    rw [List.getElem?_singleton] at here
    split at here
    · cases here
      omega
    · cases here

theorem Indexed.part {entries entries' : List Entry} (indexed : Indexed entries')
    (part : entries <+: entries') : Indexed entries := by
  intro k e here
  obtain ⟨rest, rfl⟩ := part
  refine indexed k e ?_
  rw [List.getElem?_append_left (List.getElem?_eq_some_iff.mp here).1, here]

namespace RaftLog

variable {log : RaftLog}

theorem first_idx (indexed : Indexed log.toList) : log.first.idx = 1 :=
  indexed 0 log.first rfl

theorem getCurrentLogIndex_eq (indexed : Indexed log.toList) :
    log.getCurrentLogIndex = log.toList.length := by
  have here := getLast?_toList log
  rw [List.getLast?_eq_getElem?] at here
  have index := indexed _ _ here
  have long := List.length_pos_iff.mpr log.toList_ne_nil
  rw [getCurrentLogIndex, index]
  omega

theorem getEntries_drop (indexed : Indexed log.toList) {i : Nat} (inside : 1 ≤ i) :
    log.getEntries (some i) none none = log.toList.drop (i - 1) := by
  rw [getEntries, first_idx indexed, if_neg (by omega)]

theorem getEntries_take (indexed : Indexed log.toList) {i : Nat} (inside : 1 ≤ i) (count : Nat) :
    log.getEntries (some i) (some count) none = (log.toList.drop (i - 1)).take count := by
  rw [getEntries, first_idx indexed, if_neg (by omega)]

theorem getEntries_batch (indexed : Indexed log.toList) {i : Nat} (inside : 1 ≤ i)
    (maxSizeBytes : Nat) : log.getEntries (some i) none (some maxSizeBytes) =
      batch maxSizeBytes 0 (log.toList.drop (i - 1)) := by
  rw [getEntries, first_idx indexed, if_neg (by omega)]

/-- What is found before an index is the entry at it. -/
theorem getPrevLogIndexTerm_some (indexed : Indexed log.toList) {nextNodeIndex p pt : Nat}
    (inside : 2 ≤ nextNodeIndex)
    (prev : log.getPrevLogIndexTerm nextNodeIndex = some (p, pt)) :
    p = nextNodeIndex - 1 ∧ ∃ entry, log.toList[p - 1]? = some entry ∧ entry.term = pt := by
  rw [getPrevLogIndexTerm, getEntries_take indexed (by omega)] at prev
  split at prev
  · cases prev
  · rename_i entry others found
    cases prev
    refine ⟨rfl, entry, ?_, rfl⟩
    have here := congrArg (fun l => l[0]?) found
    simpa [List.getElem?_take, List.getElem?_drop] using here

theorem toList_deleteEntriesFrom (indexed : Indexed log.toList) {i : Nat} (inside : 2 ≤ i) :
    (log.deleteEntriesFrom i).toList = log.toList.take (i - 1) := by
  rw [deleteEntriesFrom, first_idx indexed, if_neg (by omega)]
  obtain ⟨n, rfl⟩ : ∃ n, i = n + 2 := ⟨i - 2, by omega⟩
  rfl

end RaftLog

end Belcoin.SyncObj
