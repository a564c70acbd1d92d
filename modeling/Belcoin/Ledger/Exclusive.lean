import Mathlib.Data.List.Pairwise
import Belcoin.Ideal
import Belcoin.Ledger.Simulation

/-!
Who may spend an output: the whole history of acceptances.

An output is reserved by the first transaction accepted that refers to it, and
from then on only a transaction with the same inputs and a higher sequence number
takes it over. `Ledger.Exclusive` is the invariant that carries this over
replacement, expiry, dropping and resubmission; `node_replacement` is the result
for the runs of a node.
-/

namespace Belcoin

open Stateful

/-- The transactions accepted so far, first to last. -/
def acceptedIn (trace : List Event) : List Transaction :=
  trace.filterMap fun event => match event with
    | .accepted txn _ => some txn
    | _ => none

/-- The two transactions refer to a common output. -/
def Shares (txn txn' : Transaction) : Prop := ∃ r, r ∈ txn.refs ∧ r ∈ txn'.refs

theorem SameInputs.mem_iff {tx txn : Transaction} (same : SameInputs tx txn) (r : Ref) :
    r ∈ tx.refs ↔ r ∈ txn.refs := by
  have := Finset.ext_iff.mp same r
  simpa using this

theorem Shares.of_body_eq {txn txn' : Transaction} (same : txn.body = txn'.body)
    (real : txn'.refs ≠ []) : Shares txn txn' := by
  have sameRefs : txn.refs = txn'.refs := congrArg Body.refs same
  obtain ⟨r, mem⟩ := List.exists_mem_of_ne_nil _ real
  exact ⟨r, sameRefs ▸ mem, mem⟩

theorem Shares.symm {txn txn' : Transaction} (shares : Shares txn txn') : Shares txn' txn := by
  obtain ⟨r, left, right⟩ := shares
  exact ⟨r, right, left⟩

/-! ### `check_pend_replacement` -/

/-- No entry of `pend` has the inputs of `txn`. -/
theorem Ledger.checkPend_unmatched {ledger : Ledger} {txn : Transaction}
    (checked : ledger.checkPendReplacement txn = .unmatched) {k : Bytes} {txnw : TxnWrapper}
    (held : ledger.pend[k]? = some txnw) : ¬ SameInputs txnw.txn txn := by
  unfold checkPendReplacement at checked
  split at checked
  · rename_i none
    have := List.find?_eq_none.mp none (k, txnw)
      (Std.ExtTreeMap.mem_toList_iff_getElem?_eq_some.mpr held)
    simpa using this
  · split at checked
    · cases checked
    · split at checked <;> cases checked

/-- What is to be replaced is an entry of `pend` with the same inputs and a lower
sequence number, whose timelock has not passed. -/
theorem Ledger.checkPend_replaces {ledger : Ledger} {txn tx : Transaction}
    (checked : ledger.checkPendReplacement txn = .replaces tx) :
    ∃ (k : Bytes) (txnw : TxnWrapper), ledger.pend[k]? = some txnw ∧ txnw.txn = tx ∧
      SameInputs tx txn ∧ tx.seq < txn.seq ∧ ¬ txnw.TimelockPassed ledger.currentTime := by
  unfold checkPendReplacement at checked
  split at checked
  · cases checked
  · rename_i k txnw found
    have same := List.find?_some found
    have held := Std.ExtTreeMap.mem_toList_iff_getElem?_eq_some.mp (List.mem_of_find?_eq_some found)
    split at checked
    · cases checked
    · rename_i waiting
      split at checked
      · cases checked
      · rename_i newer
        cases checked
        exact ⟨k, txnw, held, rfl, by simpa using same, Nat.lt_of_not_le newer, waiting⟩

/-! ### The invariant -/

variable (pkg : Packages)

/-- `old` was overtaken by `new` and is gone for good. -/
structure Ledger.Superseded (ledger : Ledger) (old new : Transaction) : Prop where
  sameInputs : SameInputs old new
  seq : old.seq < new.seq
  notStored : pkg.txid old ∉ ledger.db
  notPending : pkg.txid old ∉ ledger.pend

structure Ledger.Exclusive (ledger : Ledger) : Prop where
  once : ((acceptedIn ledger.trace).map pkg.txid).Nodup
  ordered : (acceptedIn ledger.trace).Pairwise fun old new =>
    Shares old new → ledger.Superseded pkg old new
  spent : ∀ txn ∈ acceptedIn ledger.trace, ∀ r ∈ txn.refs, bit ledger.db r = some false
  real : ∀ txn ∈ acceptedIn ledger.trace, txn.refs ≠ []
  pending : ∀ (k : Bytes) (txnw : TxnWrapper), ledger.pend[k]? = some txnw →
    txnw.txn ∈ acceptedIn ledger.trace
  stored : ∀ (k : Bytes) (entry : Transaction × Nat), record ledger.db k = some entry →
    entry.1 ∈ acceptedIn ledger.trace ∨ entry.1.refs = []
  apart : ∀ k ∈ ledger.pend, k ∉ ledger.db

variable {pkg}

namespace Ledger

theorem acceptedIn_vacate (ledger : Ledger) (txn : Transaction) :
    acceptedIn (ledger.vacate pkg txn).trace = acceptedIn ledger.trace := by
  unfold vacate
  split <;> simp [acceptedIn]

theorem acceptedIn_accept (ledger : Ledger) (txn : Transaction) :
    acceptedIn (ledger.accept pkg txn).trace = acceptedIn ledger.trace ++ [txn] := by
  rw [accept_trace, acceptedIn, List.filterMap_append]
  exact congrArg (· ++ [txn]) (acceptedIn_vacate ledger txn)

theorem mem_pend {ledger : Ledger} {k : Bytes} :
    k ∈ ledger.pend ↔ ∃ txnw, ledger.pend[k]? = some txnw := by
  rw [Std.ExtTreeMap.mem_iff_isSome_getElem?, Option.isSome_iff_exists]

/-- Whoever comes to `pend` or `db` by an acceptance was there or is `txn`. -/
theorem mem_pend_accept {ledger : Ledger} {txn : Transaction} {k : Bytes}
    (mem : k ∈ (ledger.accept pkg txn).pend) : k = pkg.txid txn ∨ k ∈ ledger.pend := by
  obtain ⟨txnw, held⟩ := mem_pend.mp mem
  rcases pend_accept held with ⟨-, same, -⟩ | ⟨held', -⟩
  · exact .inl same
  · exact .inr (mem_pend.mpr ⟨txnw, held'⟩)

theorem record_accept {ledger : Ledger} {txn : Transaction} {k : Bytes}
    {entry : Transaction × Nat} (held : record (ledger.accept pkg txn).db k = some entry) :
    record ledger.db k = some entry ∨ entry.1 = txn := by
  unfold accept at held
  split at held
  · rw [record_reserved] at held
    exact .inl (by simpa [noted, vacate_db] using held)
  · rw [record_stored] at held
    split at held
    · cases held
      exact .inr rfl
    · exact .inl (by simpa [noted, vacate_db] using held)

/-- Where no transaction has the id of the dummy inputs, the inputs of a
transaction that can be applied are all real. -/
theorem real_of_stored (free : pkg.CollisionFree) {ledger : Ledger} (sound : ledger.Sound pkg)
    {txn : Transaction} (refsStored : ∀ inp ∈ txn.inputs, Stored ledger.db inp.ref) {inp : Input}
    (mem : inp ∈ txn.inputs) : inp ∈ pkg.realInputs txn := by
  obtain ⟨txnw, held, -⟩ := refsStored inp mem
  refine pkg.mem_realInputs.mpr ⟨mem, fun dummy => free.txid_ne_noHash txnw.txn ?_⟩
  rw [sound.dbKeyed _ _ held]
  exact dummy

/-- Of two accepted transactions with a common input, one superseded the
other. -/
theorem Exclusive.either {ledger : Ledger} (exclusive : ledger.Exclusive pkg)
    {txn txn' : Transaction} (mem : txn ∈ acceptedIn ledger.trace)
    (mem' : txn' ∈ acceptedIn ledger.trace) (ne : txn ≠ txn') (shares : Shares txn txn') :
    ledger.Superseded pkg txn txn' ∨ ledger.Superseded pkg txn' txn := by
  let Either (a b : Transaction) : Prop :=
    Shares a b → ledger.Superseded pkg a b ∨ ledger.Superseded pkg b a
  have symm : Std.Symm Either := ⟨fun a b either shares' => (either shares'.symm).symm⟩
  have pairwise : (acceptedIn ledger.trace).Pairwise Either :=
    exclusive.ordered.imp fun superseded shares' => .inl (superseded shares')
  exact pairwise.forall mem mem' ne shares

/-- **Who an accepted transaction meets.** Each earlier one with a common input
is superseded by it; if it is still pending it is the one that is replaced. -/
theorem Exclusive.meets {ledger : Ledger} (exclusive : ledger.Exclusive pkg)
    (free : pkg.CollisionFree) (sound : ledger.Sound pkg) {old txn : Transaction}
    (accepts : pkg.Accepts ledger txn)
    (refsStored : ∀ inp ∈ txn.inputs, Stored ledger.db inp.ref)
    (before : old ∈ acceptedIn ledger.trace) (shares : Shares old txn) :
    ∃ tx, ledger.checkPendReplacement txn = .replaces tx ∧ SameInputs old txn ∧
      old.seq < txn.seq ∧ pkg.txid old ∉ ledger.db ∧ (old = tx ∨ pkg.txid old ∉ ledger.pend) := by
  cases checked : ledger.checkPendReplacement txn with
  | refused => exact absurd checked accepts.not_refused
  | unmatched =>
      obtain ⟨r, inOld, inNew⟩ := shares
      obtain ⟨inp, mem, rfl⟩ := List.mem_map.mp inNew
      have unspent := (accepts.inputs inp
        (real_of_stored free sound refsStored mem)).unspent rfl checked
      simp [exclusive.spent old before _ inOld] at unspent
  | replaces tx =>
      obtain ⟨k, txnw, held, rfl, same, seq, -⟩ := checkPend_replaces checked
      have accepted := exclusive.pending k txnw held
      have pended : pkg.txid txnw.txn ∈ ledger.pend := by
        rw [sound.pendKeyed k txnw held]
        exact mem_pend.mpr ⟨_, held⟩
      refine ⟨txnw.txn, rfl, ?_⟩
      by_cases eq : old = txnw.txn
      · subst eq
        exact ⟨same, seq, exclusive.apart _ pended, .inl rfl⟩
      · obtain ⟨r, inOld, inNew⟩ := shares
        rcases exclusive.either before accepted eq ⟨r, inOld, (same.mem_iff r).mpr inNew⟩ with
          earlier | later
        · exact ⟨earlier.sameInputs.trans same, earlier.seq.trans seq, earlier.notStored,
            .inr earlier.notPending⟩
        · exact absurd pended later.notPending

/-- An accepted transaction has an id that no earlier one had. -/
theorem Exclusive.new_txid {ledger : Ledger} (exclusive : ledger.Exclusive pkg)
    (free : pkg.CollisionFree) (sound : ledger.Sound pkg) {old txn : Transaction}
    (accepts : pkg.Accepts ledger txn)
    (refsStored : ∀ inp ∈ txn.inputs, Stored ledger.db inp.ref)
    (before : old ∈ acceptedIn ledger.trace) : pkg.txid old ≠ pkg.txid txn := by
  intro same
  have sameBody := free.body_eq same
  have sameRefs : old.refs = txn.refs := congrArg Body.refs sameBody
  have sameSeq : old.seq = txn.seq := congrArg Body.seq sameBody
  have shares : Shares old txn := .of_body_eq sameBody (sameRefs ▸ exclusive.real old before)
  obtain ⟨-, -, -, lower, -⟩ := exclusive.meets free sound accepts refsStored before shares
  omega

/-- What is superseded stays so while `db` and `pend` gain no new id. -/
theorem Superseded.of_subset {ledger ledger' : Ledger} {old new : Transaction}
    (superseded : ledger.Superseded pkg old new)
    (db : pkg.txid old ∈ ledger'.db → pkg.txid old ∈ ledger.db)
    (pend : pkg.txid old ∈ ledger'.pend → pkg.txid old ∈ ledger.pend) :
    ledger'.Superseded pkg old new :=
  { superseded with
    notStored := fun mem => superseded.notStored (db mem)
    notPending := fun mem => superseded.notPending (pend mem) }

/-- **Accepting keeps the history exclusive.** -/
theorem Exclusive.accept {ledger : Ledger} (exclusive : ledger.Exclusive pkg)
    (free : pkg.CollisionFree) (sound : ledger.Sound pkg) {txn : Transaction}
    (accepts : pkg.Accepts ledger txn)
    (refsStored : ∀ inp ∈ txn.inputs, Stored ledger.db inp.ref) :
    (ledger.accept pkg txn).Exclusive pkg := by
  have newTxid : ∀ old ∈ acceptedIn ledger.trace, pkg.txid old ≠ pkg.txid txn :=
    fun old before => exclusive.new_txid free sound accepts refsStored before
  have dbStays : ∀ old ∈ acceptedIn ledger.trace, pkg.txid old ∈ (ledger.accept pkg txn).db →
      pkg.txid old ∈ ledger.db := by
    intro old before mem
    exact (mem_accept.mp mem).resolve_right fun same => newTxid old before same.2
  have pendStays : ∀ old ∈ acceptedIn ledger.trace,
      pkg.txid old ∈ (ledger.accept pkg txn).pend → pkg.txid old ∈ ledger.pend := by
    intro old before mem
    exact (mem_pend_accept mem).resolve_left (newTxid old before)
  have realRefs : txn.refs ≠ [] := by
    obtain ⟨inp, mem⟩ := List.exists_mem_of_ne_nil _ accepts.real
    exact List.ne_nil_of_mem (List.mem_map_of_mem (pkg.mem_realInputs.mp mem).1)
  refine { once := ?_, ordered := ?_, spent := ?_, real := ?_, pending := ?_, stored := ?_,
           apart := ?_ }
  · rw [acceptedIn_accept, List.map_append, List.nodup_append]
    refine ⟨exclusive.once, by simp, fun k mem k' mem' same => ?_⟩
    obtain ⟨old, before, rfl⟩ := List.mem_map.mp mem
    exact newTxid old before (same.trans (by simpa using mem'))
  · rw [acceptedIn_accept, List.pairwise_append]
    refine ⟨?_, List.pairwise_singleton _ _, ?_⟩
    · refine exclusive.ordered.imp_of_mem fun {old _} mem _ superseded shares => ?_
      exact (superseded shares).of_subset (dbStays old mem) (pendStays old mem)
    · intro old before new isNew shares
      rw [List.mem_singleton.mp isNew] at shares ⊢
      obtain ⟨tx, checked, same, seq, notStored, gone⟩ :=
        exclusive.meets free sound accepts refsStored before shares
      refine ⟨same, seq, fun mem => notStored (dbStays old before mem), fun mem => ?_⟩
      rcases gone with rfl | gone
      · obtain ⟨txnw, held⟩ := mem_pend.mp mem
        rcases pend_accept held with ⟨-, same, -⟩ | ⟨-, vacated⟩
        · exact newTxid old before same
        · exact vacated old checked rfl
      · exact gone (pendStays old before mem)
  · rw [acceptedIn_accept]
    intro txn' mem r inRefs
    rcases List.mem_append.mp mem with before | isNew
    · exact spent_accept accepts.fresh (exclusive.spent txn' before r inRefs)
    · rw [List.mem_singleton.mp isNew] at inRefs
      exact refs_accept accepts.fresh refsStored inRefs
  · rw [acceptedIn_accept]
    intro txn' mem
    rcases List.mem_append.mp mem with before | isNew
    · exact exclusive.real txn' before
    · rw [List.mem_singleton.mp isNew]
      exact realRefs
  · rw [acceptedIn_accept]
    intro k txnw held
    rcases pend_accept held with ⟨-, -, rfl⟩ | ⟨held', -⟩
    · simp
    · exact List.mem_append_left _ (exclusive.pending k txnw held')
  · rw [acceptedIn_accept]
    intro k entry held
    rcases record_accept held with held' | isNew
    · exact (exclusive.stored k entry held').imp_left (List.mem_append_left _)
    · exact .inl (by simp [isNew])
  · intro k pended stored
    rcases mem_accept.mp stored with old | ⟨unlocked, rfl⟩
    · rcases mem_pend_accept pended with rfl | pended'
      · exact accepts.fresh old
      · exact exclusive.apart k pended' old
    · obtain ⟨txnw, held⟩ := mem_pend.mp pended
      rcases pend_accept held with ⟨locked, -, -⟩ | ⟨held', -⟩
      · exact locked unlocked
      · exact newTxid _ (exclusive.pending _ _ held') (sound.pendKeyed _ _ held')

theorem mem_pend_without {ledger : Ledger} {tx : Transaction} {k : Bytes} :
    k ∈ (ledger.without pkg tx).pend ↔ k ∈ ledger.pend ∧ k ≠ pkg.txid tx := by
  simp only [without, Std.ExtTreeMap.mem_erase, Ne, Std.LawfulEqCmp.compare_eq_iff_eq]
  exact and_comm.trans (and_congr_right fun _ => not_congr eq_comm)

/-- **Dropping a pending transaction keeps the history exclusive.** -/
theorem Exclusive.drop {ledger : Ledger} (exclusive : ledger.Exclusive pkg) (txnw : TxnWrapper) :
    (ledger.drop pkg txnw).Exclusive pkg := by
  have fewer : ∀ k ∈ (ledger.without pkg txnw.txn).pend, k ∈ ledger.pend :=
    fun k mem => (mem_pend_without.mp mem).1
  have sameHistory : acceptedIn (ledger.drop pkg txnw).trace = acceptedIn ledger.trace := by
    simp [Ledger.drop, noted, without, acceptedIn]
  exact
    { once := sameHistory ▸ exclusive.once
      ordered := by
        rw [sameHistory]
        refine exclusive.ordered.imp fun superseded shares => ?_
        exact (superseded shares).of_subset id (fewer _)
      spent := by
        rw [sameHistory]
        exact exclusive.spent
      real := by
        rw [sameHistory]
        exact exclusive.real
      pending := by
        rw [sameHistory]
        intro k w held
        rw [Ledger.drop, noted, getElem?_without_pend] at held
        split at held
        · cases held
        · exact exclusive.pending k w held
      stored := by
        rw [sameHistory]
        exact exclusive.stored
      apart := fun k mem => exclusive.apart k (fewer k mem) }

/-- **Committing a pending transaction keeps the history exclusive.** -/
theorem Exclusive.commit {ledger : Ledger} (exclusive : ledger.Exclusive pkg)
    (sound : ledger.Sound pkg) {txnw : TxnWrapper} {k : Bytes}
    (held : ledger.pend[k]? = some txnw) (fresh : pkg.txid txnw.txn ∉ ledger.db) :
    (ledger.commit pkg txnw).Exclusive pkg := by
  have pended : pkg.txid txnw.txn ∈ ledger.pend := by
    rw [sound.pendKeyed k txnw held]
    exact mem_pend.mpr ⟨_, held⟩
  have sameHistory : acceptedIn (ledger.commit pkg txnw).trace = acceptedIn ledger.trace := by
    simp [Ledger.commit, noted, Ledger.stored, without, acceptedIn]
  have pendOf : ∀ k, k ∈ (ledger.commit pkg txnw).pend ↔ k ∈ ledger.pend ∧ k ≠ pkg.txid txnw.txn :=
    fun k => mem_pend_without
  have dbOf : ∀ k, k ∈ (ledger.commit pkg txnw).db ↔ k ∈ ledger.db ∨ k = pkg.txid txnw.txn :=
    fun k => mem_stored
  exact
    { once := sameHistory ▸ exclusive.once
      ordered := by
        rw [sameHistory]
        refine exclusive.ordered.imp fun {old _} superseded shares => ?_
        have gone := superseded shares
        exact gone.of_subset
          (fun mem => ((dbOf _).mp mem).resolve_right fun same => gone.notPending (same ▸ pended))
          fun mem => ((pendOf _).mp mem).1
      spent := by
        rw [sameHistory]
        exact fun txn mem r inRefs => spent_stored fresh (exclusive.spent txn mem r inRefs)
      real := by
        rw [sameHistory]
        exact exclusive.real
      pending := by
        rw [sameHistory]
        intro k' w held'
        rw [Ledger.commit, noted, Ledger.stored, getElem?_without_pend] at held'
        split at held'
        · cases held'
        · exact exclusive.pending k' w held'
      stored := by
        rw [sameHistory]
        intro k' entry held'
        rw [Ledger.commit, noted, record_stored] at held'
        split at held'
        · cases held'
          exact .inl (exclusive.pending k txnw held)
        · exact exclusive.stored k' entry held'
      apart := by
        intro k' mem stored
        obtain ⟨pended', ne⟩ := (pendOf k').mp mem
        exact ((dbOf k').mp stored).elim (exclusive.apart k' pended') ne }

/-- Every move keeps the history exclusive. -/
theorem Exclusive.effect {ledger ledger' : Ledger} {move : Move}
    (exclusive : ledger.Exclusive pkg) (free : pkg.CollisionFree) (sound : ledger.Sound pkg)
    (effect : pkg.Effect ledger move ledger') : ledger'.Exclusive pkg := by
  cases effect with
  | accept accepts refsStored => exact exclusive.accept free sound accepts refsStored
  | reject => exact exclusive
  | commit due verifies =>
      obtain ⟨⟨k, held⟩, -⟩ := due
      exact exclusive.commit sound held verifies.fresh
  | drop => exact exclusive.drop _
  | tick => exact { exclusive with
      ordered := by
        refine exclusive.ordered.imp fun superseded shares => ?_
        exact (superseded shares).of_subset id id }

end Ledger

/-- **The history of a ledger is exclusive.** -/
theorem Setup.exclusive_of_reachable {setup : Setup} (free : setup.CollisionFree)
    {ledger : Ledger} (reached : setup.ledger.Reachable ledger) :
    ledger.Exclusive setup.toPackages := by
  refine reached.invariant (I := fun ledger => ledger.Exclusive setup.toPackages) ?_
    fun _ _ _ before exclusive step => exclusive.effect free
      (Setup.sound_of_reachable before) (setup.effect_of_step step)
  rintro _ rfl
  have noHistory : acceptedIn setup.fresh.trace = [] := rfl
  refine { once := ?_, ordered := ?_, spent := ?_, real := ?_, pending := ?_, stored := ?_,
           apart := ?_ }
  · exact List.nodup_nil
  · exact .nil
  · simp [noHistory]
  · simp [noHistory]
  · intro k txnw held
    simp [Setup.fresh, Setup.construct] at held
  · intro k entry held
    obtain ⟨txnw, held', rfl⟩ := Option.map_eq_some_iff.mp held
    obtain ⟨gentxn, genesis, -, rfl⟩ := setup.fresh_entry held'
    exact .inr (by simp [Transaction.refs, setup.coinbase_inputs gentxn genesis])
  · intro k mem
    simp [Setup.fresh, Setup.construct] at mem

/-! ### The runs of a node -/

/-- The transaction is in `db` or in `pend`. -/
def Ledger.Live (ledger : Ledger) (txn : Transaction) : Prop :=
  (∃ (k : Bytes) (txnw : TxnWrapper), ledger.db[k]? = some txnw ∧ txnw.txn = txn) ∨
    ∃ (k : Bytes) (txnw : TxnWrapper), ledger.pend[k]? = some txnw ∧ txnw.txn = txn

/-- Distinct transactions in `db` and `pend` refer to distinct outputs. -/
theorem Ledger.Exclusive.live_apart {ledger : Ledger} (exclusive : ledger.Exclusive pkg)
    (sound : ledger.Sound pkg) {txn txn' : Transaction} (live : ledger.Live txn)
    (live' : ledger.Live txn') (ne : txn ≠ txn') : ¬ Shares txn txn' := by
  have present : ∀ tx, ledger.Live tx → tx.refs ≠ [] → tx ∈ acceptedIn ledger.trace ∧
      (pkg.txid tx ∈ ledger.db ∨ pkg.txid tx ∈ ledger.pend) := by
    rintro tx (⟨k, txnw, held, rfl⟩ | ⟨k, txnw, held, rfl⟩) real
    · have recorded : record ledger.db k = some (txnw.txn, txnw.timestamp) := by simp [record, held]
      refine ⟨(exclusive.stored k _ recorded).resolve_right real, .inl ?_⟩
      rw [sound.dbKeyed k txnw held]
      exact mem_iff_record.mpr ⟨_, recorded⟩
    · refine ⟨exclusive.pending k txnw held, .inr ?_⟩
      rw [sound.pendKeyed k txnw held]
      exact mem_pend.mpr ⟨_, held⟩
  intro shares
  obtain ⟨r, mem, mem'⟩ := id shares
  obtain ⟨accepted, holds⟩ := present txn live (List.ne_nil_of_mem mem)
  obtain ⟨accepted', holds'⟩ := present txn' live' (List.ne_nil_of_mem mem')
  rcases exclusive.either accepted accepted' ne shares with gone | gone
  · exact holds.elim gone.notStored gone.notPending
  · exact holds'.elim gone.notStored gone.notPending

/-- The history only grows. -/
theorem Packages.Effect.trace_extends {ledger ledger' : Ledger} {move : Move}
    (effect : pkg.Effect ledger move ledger') : ledger.trace <+: ledger'.trace := by
  cases effect with
  | accept =>
      rw [Ledger.accept_trace]
      refine List.IsPrefix.trans ?_ (List.prefix_append _ _)
      unfold Ledger.vacate
      split
      · exact List.prefix_append _ _
      · exact List.prefix_rfl
  | reject => exact List.prefix_rfl
  | commit => exact List.prefix_append _ _
  | drop => exact List.prefix_append _ _
  | tick => exact List.prefix_rfl

theorem Setup.node_trace_extends {setup : Setup} {s t : Storage} {as : List Action}
    (reached : setup.node.Reachable s) (run : setup.node.Run s as t) : s.trace <+: t.trace := by
  refine run.preserves (I := fun u => s.trace <+: u.trace) (P := fun _ => True) ?_ (by simp)
    reached List.prefix_rfl
  intro u a v reached' grown _ step
  obtain ⟨moves, run', -⟩ := setup.perform_moves
    (Setup.sound_of_reachable (setup.node_ledger reached')) step
  refine run'.preserves (I := fun ledger => s.trace <+: ledger.trace) (P := fun _ => True) ?_
    (by simp) (setup.node_ledger reached') grown
  exact fun _ _ _ _ grown' _ step' => grown'.trans (setup.effect_of_step step').trace_extends

/-- **No double spend, and the replacement rule.** At every point `s` of a run and
every later point `t`: no id was accepted twice; of two transactions with a common
input, accepted one after the other by `s`, the first has the inputs of the second
and a lower sequence number, and is neither in `db` nor in `pend` at `t`; and the
transactions in `db` and `pend` refer to distinct outputs. -/
theorem Setup.node_replacement {setup : Setup} (free : setup.CollisionFree) {s t : Storage}
    {as : List Action} (reached : setup.node.Reachable s) (run : setup.node.Run s as t) :
    ((acceptedIn s.trace).map setup.txid).Nodup ∧
      ((acceptedIn s.trace).Pairwise fun first second => Shares first second →
        SameInputs first second ∧ first.seq < second.seq ∧
          setup.txid first ∉ t.db ∧ setup.txid first ∉ t.pend) ∧
      ∀ txn txn', s.Live txn → s.Live txn' → txn ≠ txn' → ¬ Shares txn txn' := by
  have exclusive := Setup.exclusive_of_reachable free (setup.node_ledger reached)
  have later := Setup.exclusive_of_reachable free (setup.node_ledger (reached.run run))
  refine ⟨exclusive.once, ?_, fun txn txn' live live' ne =>
    exclusive.live_apart (Setup.sound_of_reachable (setup.node_ledger reached)) live live' ne⟩
  have sublist : (acceptedIn s.trace).Sublist (acceptedIn t.trace) :=
    (setup.node_trace_extends reached run).sublist.filterMap _
  refine (later.ordered.sublist sublist).imp fun superseded shares => ?_
  obtain ⟨same, seq, notStored, notPending⟩ := superseded shares
  exact ⟨same, seq, notStored, notPending⟩

/-- Two states of a payment channel: the second replaces the first in `pend`. -/
def channel (seq : Nat) : Transaction := Ideal.pay (Ideal.packages.txid Ideal.genesis) 0 seq 5

def channelRun : List Action :=
  [.puttxn (channel 0), .deliver ⟨0, [Ideal.packages.txid (channel 0)]⟩, .tryProcess,
    .puttxn (channel 1), .deliver ⟨1, [Ideal.packages.txid (channel 1)]⟩, .tryProcess]

theorem node_replacement_channel :
    acceptedIn (Ideal.small.after channelRun).trace = [channel 0, channel 1] ∧
      Ideal.small.txid (channel 0) ∉ (Ideal.small.after channelRun).db ∧
      Ideal.small.txid (channel 0) ∉ (Ideal.small.after channelRun).pend := by
  have history : acceptedIn (Ideal.small.after channelRun).trace = [channel 0, channel 1] := by
    decide +kernel
  obtain ⟨-, ordered, -⟩ := Setup.node_replacement Ideal.ideal_collisionFree
    (Ideal.small.reachable_after channelRun) (.nil _)
  rw [history] at ordered
  have shares : Shares (channel 0) (channel 1) := ⟨_, List.mem_singleton.mpr rfl, by simp [channel, Ideal.pay, Transaction.refs]⟩
  obtain ⟨-, -, gone⟩ := (List.pairwise_cons.mp ordered).1 _ (by simp) shares
  exact ⟨history, gone⟩

end Belcoin
