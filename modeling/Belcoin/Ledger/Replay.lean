import Belcoin.Ledger.Crash
import Belcoin.Ledger.Timelock

/-!
Taking turns again on a ledger from the future.

After a restart every block is processed again, on databases that have seen it before.
`settle_again` proves that a transaction settled once is rejected then, unless it is
premature, and `replays` that all turns up to the crash change nothing.

* `Ledger.Exclusive.overtaken` — who is not newer than an accepted transaction with the
  same inputs is rejected from then on.
* `Ledger.Shut` — a spent input that no replacement can free; it stays shut.
-/

namespace Belcoin

open Stateful

/-! ### Time that does not run backwards -/

/-- A block that is taken is not earlier than the one before. -/
def Ledger.Forward (ledger : Ledger) (move : Move) : Prop :=
  ∀ time, move = .tick time → ledger.currentTime ≤ time

/-- `l'` comes after `l`. -/
def Setup.Onward (setup : Setup) (l l' : Ledger) : Prop :=
  ∃ moves, (setup.ledger.restrict Ledger.Forward).Run l moves l'

section Onward

variable {setup : Setup} {l l' l'' : Ledger}

theorem Setup.Onward.refl (setup : Setup) (l : Ledger) : setup.Onward l l := ⟨[], .nil l⟩

theorem Setup.Onward.trans (first : setup.Onward l l') (second : setup.Onward l' l'') :
    setup.Onward l l'' := by
  obtain ⟨moves, run⟩ := first
  obtain ⟨moves', run'⟩ := second
  exact ⟨moves ++ moves', run.append run'⟩

/-- What every move keeps is kept. -/
theorem Setup.Onward.preserves {I : Ledger → Prop}
    (kept : ∀ l move l', l.Forward move → setup.toPackages.Effect l move l' → I l → I l')
    (onward : setup.Onward l l') (holds : I l) : I l' := by
  obtain ⟨moves, run⟩ := onward
  induction run with
  | nil => exact holds
  | cons step _ ih => exact ih (kept _ _ _ step.1 (setup.effect_of_step step.2) holds)

/-- Moves that take no block go onward. -/
theorem Setup.Moves.onward {P : Move → Prop} (moves : setup.Moves P l l')
    (still : ∀ time, ¬ P (.tick time)) : setup.Onward l l' := by
  obtain ⟨moves, run, allowed⟩ := moves
  refine ⟨moves, ?_⟩
  induction run with
  | nil => exact .nil _
  | cons step _ ih =>
      obtain ⟨first, rest⟩ := List.forall_mem_cons.mp allowed
      refine .cons ⟨?_, step⟩ (ih rest)
      rintro time rfl
      exact absurd first (still time)

theorem Setup.Onward.reachable (onward : setup.Onward l l') (reached : setup.ledger.Reachable l) :
    setup.ledger.Reachable l' := by
  obtain ⟨moves, run⟩ := onward
  induction run with
  | nil => exact reached
  | cons step _ ih => exact ih (reached.step step.2)

theorem Setup.Onward.kept {k : Bytes} {entry : Transaction × Nat} (onward : setup.Onward l l')
    (held : record l.db k = some entry) : record l'.db k = some entry :=
  onward.preserves (I := fun l => record l.db k = some entry)
    (fun _ _ _ _ effect held => effect.kept held) held

theorem Setup.Onward.stored {k : Bytes} (onward : setup.Onward l l') (mem : k ∈ l.db) :
    k ∈ l'.db := by
  obtain ⟨entry, held⟩ := mem_iff_record.mp mem
  exact mem_iff_record.mpr ⟨entry, onward.kept held⟩

theorem Setup.Onward.accepted {txn : Transaction} (onward : setup.Onward l l')
    (mem : txn ∈ acceptedIn l.trace) : txn ∈ acceptedIn l'.trace := by
  have grown : l.trace <+: l'.trace :=
    onward.preserves (I := fun k => l.trace <+: k.trace)
      (fun _ _ _ _ effect grown => grown.trans effect.trace_extends) List.prefix_rfl
  obtain ⟨events, same⟩ := grown
  rw [← same, acceptedIn, List.filterMap_append]
  exact List.mem_append_left _ mem

/-- What a move does to the time. -/
theorem Packages.Effect.time {pkg : Packages} {move : Move} (effect : pkg.Effect l move l')
    (forward : l.Forward move) : l.currentTime ≤ l'.currentTime := by
  cases effect with
  | accept => exact (Ledger.accept_currentTime l _).ge
  | reject => exact le_rfl
  | commit => exact le_rfl
  | drop => exact le_rfl
  | tick => exact forward _ rfl

/-- Where an entry of `pend` comes from. -/
theorem Packages.Effect.pended {pkg : Packages} {move : Move} (effect : pkg.Effect l move l')
    {k : Bytes} {txnw : TxnWrapper} (held : l'.pend[k]? = some txnw) :
    l.pend[k]? = some txnw ∨ ∃ txn, pkg.Accepts l txn ∧ txn.timelock ≠ 0 ∧
      txnw = .new txn (toTimestamp l.currentTime) := by
  cases effect with
  | accept accepts =>
      rcases Ledger.pend_accept held with ⟨locked, -, same⟩ | ⟨before, -⟩
      · exact .inr ⟨_, accepts, locked, same⟩
      · exact .inl before
  | reject => exact .inl held
  | commit => exact .inl (getElem?_of_erase held)
  | drop => exact .inl (getElem?_of_erase held)
  | tick => exact .inl held

end Onward

/-! ### Entries that still wait -/

/-- At a time no later than its own, nothing in `pend` was due. -/
structure Ledger.Waits (ledger : Ledger) (time : ℚ≥0) : Prop where
  le : time ≤ ledger.currentTime
  waiting : ∀ (k : Bytes) (txnw : TxnWrapper), ledger.pend[k]? = some txnw →
    ¬ txnw.TimelockPassed time

/-- A timelock does not pass at the time it starts. -/
theorem not_passed_new {txn : Transaction} (locked : txn.timelock ≠ 0) {time now : ℚ≥0}
    (le : time ≤ now) : ¬ (TxnWrapper.new txn (toTimestamp now)).TimelockPassed time := by
  intro passed
  have locked' : (1 : ℚ) ≤ txn.timelock := by exact_mod_cast Nat.one_le_iff_ne_zero.mpr locked
  have whole : (now * timeMultiplier : ℚ≥0) < toTimestamp now + 1 := Nat.lt_floor_add_one _
  have whole' : (now : ℚ) * timeMultiplier < toTimestamp now + 1 := by exact_mod_cast whole
  have later := elapsed_mono le (toTimestamp now)
  rw [TxnWrapper.TimelockPassed, TxnWrapper.new_timestamp, TxnWrapper.new_txn] at passed
  unfold elapsed at *
  have second : (timelockConst : ℚ) = 1000000000 := by norm_num [timelockConst]
  rw [second] at passed
  linarith

theorem Ledger.Waits.effect {pkg : Packages} {l l' : Ledger} {move : Move} {time : ℚ≥0}
    (waits : l.Waits time) (forward : l.Forward move) (effect : pkg.Effect l move l') :
    l'.Waits time := by
  refine ⟨waits.le.trans (effect.time forward), fun k txnw held => ?_⟩
  rcases effect.pended held with before | ⟨txn, -, locked, rfl⟩
  · exact waits.waiting k txnw before
  · exact not_passed_new locked waits.le

/-! ### Inputs that stay spent -/

/-- An input of the transaction is spent, and whoever holds it in `pend` was out of reach
of a replacement at `time`. -/
structure Packages.Shut (pkg : Packages) (ledger : Ledger) (txn : Transaction)
    (time : ℚ≥0) : Prop where
  le : time ≤ ledger.currentTime
  spent : ∃ inp ∈ pkg.realInputs txn, bit ledger.db inp.ref = some false
  passed : ∀ (k : Bytes) (txnw : TxnWrapper), ledger.pend[k]? = some txnw →
    SameInputs txnw.txn txn → txnw.TimelockPassed time

variable {pkg : Packages}

/-- The same inputs, the same real inputs. -/
theorem SameInputs.real {tx txn : Transaction} (same : SameInputs tx txn) {inp : Input}
    (real : inp ∈ pkg.realInputs txn) : ∃ inp' ∈ pkg.realInputs tx, inp'.ref = inp.ref := by
  obtain ⟨mem, notDummy⟩ := pkg.mem_realInputs.mp real
  obtain ⟨inp', mem', ref⟩ := List.mem_map.mp ((same.mem_iff _).mpr (List.mem_map_of_mem mem))
  have sameTxid : inp'.txid = inp.txid := congrArg Prod.fst ref
  exact ⟨inp', pkg.mem_realInputs.mpr ⟨mem', sameTxid ▸ notDummy⟩, ref⟩

/-- What is shut stays shut. -/
theorem Packages.Shut.effect {l l' : Ledger} {move : Move} {txn : Transaction} {time : ℚ≥0}
    (shut : pkg.Shut l txn time) (forward : l.Forward move) (effect : pkg.Effect l move l') :
    pkg.Shut l' txn time := by
  obtain ⟨inp, real, spent⟩ := shut.spent
  refine ⟨shut.le.trans (effect.time forward), ⟨inp, real, effect.spent spent⟩, ?_⟩
  intro k txnw held same
  rcases effect.pended held with before | ⟨tx, accepts, locked, rfl⟩
  · exact shut.passed k txnw before same
  · exfalso
    cases checked : l.checkPendReplacement tx with
    | refused => exact absurd checked accepts.not_refused
    | unmatched =>
        obtain ⟨inp', real', ref⟩ := same.real real
        have unspent := (accepts.inputs inp' real').unspent rfl checked
        rw [ref, spent] at unspent
        cases unspent
    | replaces old =>
        obtain ⟨k', w, held', rfl, same', -, waiting⟩ := Ledger.checkPend_replaces checked
        exact waiting ((shut.passed k' w held' (same'.trans same)).mono shut.le)

/-- A transaction with a spent input is accepted only in the place of another. -/
theorem Packages.Accepts.replaced {l : Ledger} {txn : Transaction} (accepts : pkg.Accepts l txn)
    {inp : Input} (real : inp ∈ pkg.realInputs txn) (spent : bit l.db inp.ref = some false) :
    ∃ (k : Bytes) (txnw : TxnWrapper), l.pend[k]? = some txnw ∧ SameInputs txnw.txn txn ∧
      txnw.txn.seq < txn.seq ∧ ¬ txnw.TimelockPassed l.currentTime := by
  cases checked : l.checkPendReplacement txn with
  | refused => exact absurd checked accepts.not_refused
  | unmatched =>
      have unspent := (accepts.inputs inp real).unspent rfl checked
      rw [spent] at unspent
      cases unspent
  | replaces tx =>
      obtain ⟨k, w, held, rfl, same, newer, waiting⟩ := Ledger.checkPend_replaces checked
      exact ⟨k, w, held, same, newer, waiting⟩

theorem Packages.Shut.rejects {l : Ledger} {txn : Transaction} {time : ℚ≥0}
    (shut : pkg.Shut l txn time) : ¬ pkg.Accepts (l.at time) txn := by
  intro accepts
  obtain ⟨inp, real, spent⟩ := shut.spent
  obtain ⟨k, w, held, same, -, waiting⟩ := accepts.replaced real spent
  exact waiting (shut.passed k w held same)

/-- **An accepted transaction overtakes all that are not newer.** -/
theorem Ledger.Exclusive.overtaken {l : Ledger} (exclusive : l.Exclusive pkg)
    (sound : l.Sound pkg) {old txn : Transaction} (accepted : old ∈ acceptedIn l.trace)
    (same : SameInputs old txn) (notNewer : txn.seq ≤ old.seq) (time : ℚ≥0) :
    ¬ pkg.Accepts (l.at time) txn := by
  intro accepts
  obtain ⟨inp, real⟩ := List.exists_mem_of_ne_nil _ accepts.real
  have inOld : inp.ref ∈ old.refs :=
    (same.mem_iff _).mpr (List.mem_map_of_mem (pkg.mem_realInputs.mp real).1)
  obtain ⟨k, w, held, same', newer, -⟩ :=
    accepts.replaced real (exclusive.spent old accepted _ inOld)
  have pended : pkg.txid w.txn ∈ l.pend := by
    rw [sound.pendKeyed k w held]
    exact Ledger.mem_pend.mpr ⟨w, held⟩
  have ne : w.txn ≠ old := by
    rintro rfl
    exact absurd newer (Nat.not_lt.mpr notNewer)
  have shares : Shares w.txn old :=
    ⟨inp.ref, (same'.mem_iff _).mpr ((same.mem_iff _).mp inOld), inOld⟩
  rcases exclusive.either (exclusive.pending k w held) accepted ne shares with gone | gone
  · exact gone.notPending pended
  · exact absurd (gone.seq.trans newer) (Nat.not_lt.mpr notNewer)

/-! ### Settling again -/

/-- An entry of `pend` refuses what has its inputs, or is replaced by it. -/
theorem Ledger.checkPend_refused {l : Ledger} {txn : Transaction}
    (checked : l.checkPendReplacement txn = .refused) :
    ∃ (k : Bytes) (txnw : TxnWrapper), l.pend[k]? = some txnw ∧ SameInputs txnw.txn txn ∧
      (txnw.TimelockPassed l.currentTime ∨ txn.seq ≤ txnw.txn.seq) := by
  unfold checkPendReplacement at checked
  split at checked
  · cases checked
  · rename_i k txnw found
    have same := List.find?_some found
    have held := Std.ExtTreeMap.mem_toList_iff_getElem?_eq_some.mp (List.mem_of_find?_eq_some found)
    refine ⟨k, txnw, held, by simpa using same, ?_⟩
    split at checked
    · rename_i passed
      exact .inl passed
    · split at checked
      · rename_i notNewer
        exact .inr notNewer
      · cases checked

section Again

variable {setup : Setup} {l l' c : Ledger} {txn : Transaction}

theorem Setup.Onward.shut (onward : setup.Onward l c) {time : ℚ≥0}
    (shut : setup.Shut l txn time) : setup.Shut c txn time :=
  onward.preserves (I := fun l => setup.Shut l txn time)
    (fun _ _ _ forward effect shut => shut.effect forward effect) shut

/-- A transaction that passes every other check is refused for what stands in `pend`, or
for a spent input. -/
theorem Packages.Accepts.or_blocked {pkg : Packages} {l : Ledger} {txn : Transaction}
    (fresh : pkg.txid txn ∉ l.db) (real : pkg.realInputs txn ≠ [])
    (authorised : ∀ inp ∈ pkg.realInputs txn,
      pkg.Authorised l.db l.currentTime txn inp ∧ Stored l.db inp.ref)
    (balanced : pkg.hasCoins l.db txn = txn.spendsCoins) :
    pkg.Accepts l txn ∨ l.checkPendReplacement txn = .refused ∨
      l.checkPendReplacement txn = .unmatched ∧
        ∃ inp ∈ pkg.realInputs txn, bit l.db inp.ref = some false := by
  by_cases refused : l.checkPendReplacement txn = .refused
  · exact .inr (.inl refused)
  by_cases blocked : l.checkPendReplacement txn = .unmatched ∧
      ∃ inp ∈ pkg.realInputs txn, bit l.db inp.ref = some false
  · exact .inr (.inr blocked)
  refine .inl ⟨⟨fresh, fun inp mem => ⟨(authorised inp mem).1, fun _ => refused, ?_⟩, balanced⟩, real⟩
  intro _ unmatched
  obtain ⟨b, held⟩ := (authorised inp mem).2.bit
  cases b with
  | true => exact held
  | false => exact absurd ⟨unmatched, inp, mem, held⟩ blocked

/-- What a later ledger finds stored of a transaction whose inputs were all stored, an
earlier one finds as well. -/
theorem Setup.Onward.back (onward : setup.Onward l c) (sound : l.Sound setup.toPackages)
    (accepts : setup.Accepts (c.at l.currentTime) txn)
    (known : ∀ inp ∈ setup.realInputs txn, inp.txid ∈ l.db) :
    (∀ inp ∈ setup.realInputs txn,
      setup.Authorised l.db l.currentTime txn inp ∧ Stored l.db inp.ref) ∧
      setup.hasCoins l.db txn = txn.spendsCoins := by
  have same : ∀ inp ∈ setup.realInputs txn, record l.db inp.txid = record c.db inp.txid := by
    intro inp real
    obtain ⟨entry, held⟩ := mem_iff_record.mp (known inp real)
    rw [held, onward.kept held]
  constructor
  · intro inp real
    obtain ⟨entry, o, held, out, signed⟩ := (accepts.inputs inp real).authorised
    have held' := (same inp real).trans held
    refine ⟨⟨entry, o, held', out, signed⟩, ?_⟩
    have output : outputAt l.db inp.ref = some o := by
      rw [outputAt_eq_record, Input.ref, held']
      exact out
    exact stored_of_output sound.fit output
  · rw [← accepts.balanced]
    refine congrArg List.sum (List.map_congr_left fun inp real => ?_)
    exact amountAt_congr (same inp real)

/-- **A transaction that was rejected with all its inputs stored is rejected again.** -/
theorem Setup.rejects_again (free : setup.CollisionFree) (reached : setup.ledger.Reachable l)
    (onward : setup.Onward l c) (refused : ¬ setup.Accepts l txn)
    (known : ∀ inp ∈ setup.realInputs txn, inp.txid ∈ l.db) :
    ¬ setup.Accepts (c.at l.currentTime) txn := by
  intro accepts
  have sound := setup.sound_of_reachable reached
  have exclusive := setup.exclusive_of_reachable free reached
  have fresh : setup.txid txn ∉ l.db := fun mem => accepts.fresh (onward.stored mem)
  obtain ⟨authorised, balanced⟩ := onward.back sound accepts known
  have shutOut : setup.Shut l txn l.currentTime → False :=
    fun shut => (onward.shut shut).rejects accepts
  rcases Packages.Accepts.or_blocked fresh accepts.real authorised balanced with
    accepted | checked | ⟨checked, spent⟩
  · exact refused accepted
  · obtain ⟨k, w, held, same, passed | notNewer⟩ := l.checkPend_refused checked
    · -- the entry is due, and it is the only one with these inputs
      obtain ⟨inp, real⟩ := List.exists_mem_of_ne_nil _ accepts.real
      have inEntry : inp.ref ∈ w.txn.refs :=
        (same.mem_iff _).mpr (List.mem_map_of_mem (setup.mem_realInputs.mp real).1)
      refine shutOut ⟨le_rfl, ⟨inp, real, sound.pendSpent k w held _ inEntry⟩, ?_⟩
      intro k' w' held' same'
      obtain rfl := exclusive.entry_unique sound held held' same same'
      exact passed
    · have reached' := onward.reachable reached
      exact (setup.exclusive_of_reachable free reached').overtaken
        (setup.sound_of_reachable reached') (onward.accepted (exclusive.pending k w held)) same
        notNewer _ accepts
  · refine shutOut ⟨le_rfl, spent, fun k w held same => ?_⟩
    exact absurd same (Ledger.checkPend_unmatched checked held)

/-- Verification raises on the later ledger only if it did on the earlier. -/
theorem Setup.Onward.raises (onward : setup.Onward l c) (fit : BitmapsFit l.db)
    (fit' : BitmapsFit c.db) {e : PyError}
    (raised : setup.decideTxn (c.at l.currentTime) txn true = .error e) :
    setup.decideTxn l txn true = .error e := by
  have fitAt : BitmapsFit (c.at l.currentTime).db := fit'
  obtain ⟨-, fresh, unreal, empty, same⟩ := (setup.decideTxn_error fun _ => fitAt).mp raised
  have fresh' : setup.txid txn ∉ l.db := fun mem => fresh (onward.stored mem)
  exact (setup.decideTxn_error fun _ => fit).mpr ⟨rfl, fresh', unreal, empty, same⟩

/-- Settling a transaction goes onward. -/
theorem Setup.onward_settle (run : Ledger.settle setup.toPackages txn l = .ok ⟨⟩ l') :
    setup.Onward l l' := by
  refine ⟨[.settle txn], .cons ⟨?_, run⟩ (.nil l')⟩
  intro time same
  cases same

/-- **What was settled once is rejected from then on**, at the time of its turn and on any
later ledger, unless it is premature. -/
theorem Setup.settle_again (free : setup.CollisionFree) (reached : setup.ledger.Reachable l)
    (run : Ledger.settle setup.toPackages txn l = .ok ⟨⟩ l') (onward : setup.Onward l' c)
    (inTime : ¬ setup.Premature l c txn) :
    Ledger.settle setup.toPackages txn (c.at l.currentTime) =
      .ok ⟨⟩ (c.at l.currentTime) := by
  have onward' := (Setup.onward_settle run).trans onward
  have reached' := onward'.reachable reached
  have sound' := setup.sound_of_reachable reached'
  have refused : ¬ setup.Accepts (c.at l.currentTime) txn := by
    rcases (Ledger.settle_ok setup.toPackages).mp run with ⟨-, -, rfl⟩ | ⟨rejects, rfl⟩
    · have accepted : txn ∈ acceptedIn (l.accept setup.toPackages txn).trace := by
        simp [Ledger.acceptedIn_accept]
      exact (setup.exclusive_of_reachable free reached').overtaken sound'
        (onward.accepted accepted) rfl le_rfl _
    · intro accepts
      have known : ∀ inp ∈ setup.realInputs txn, inp.txid ∈ l'.db := by
        by_contra unknown
        simp only [not_forall] at unknown
        obtain ⟨inp, real, unknown⟩ := unknown
        refine inTime ⟨accepts.fresh, fun inp' real' => ?_, inp, real, unknown⟩
        obtain ⟨entry, o, held, -⟩ := (accepts.inputs inp' real').authorised
        exact mem_iff_record.mpr ⟨entry, held⟩
      exact setup.rejects_again free reached onward' rejects.not_accepts known accepts
  rcases Ledger.settle_refused setup.toPackages refused with ⟨-, unchanged⟩ | ⟨e, raised, -⟩
  · exact unchanged
  · have raised' := onward'.raises (setup.sound_of_reachable reached).fit sound'.fit raised
    rcases (Ledger.settle_ok setup.toPackages).mp run with ⟨accepts, -⟩ | ⟨rejects, -⟩
    · have decided := setup.decideTxn_accepts.mpr ⟨accepts, rfl⟩
      rw [raised'] at decided
      cases decided
    · rcases rejects with decided | decided
      · rw [raised'] at decided
        cases decided
      · rw [raised'] at decided
        cases decided

end Again

/-! ### Turns again -/

section Turns

variable {setup : Setup} {bodies : Bodies} {l l' c : Ledger}

/-- A sweep goes onward, and leaves what is not due. -/
theorem Setup.onward_sweep (reached : setup.ledger.Reachable l)
    (run : Ledger.sweep setup.toPackages l = .ok ⟨⟩ l') :
    setup.Onward l l' ∧ l'.Waits l.currentTime ∧ l'.currentTime = l.currentTime := by
  have sound := setup.sound_of_reachable reached
  obtain ⟨moves, sameTime, after⟩ := setup.sweep_moves sound run
  refine ⟨moves.onward ?_, ⟨sameTime.ge, fun k txnw held => ((after k txnw).mp held).2⟩, sameTime⟩
  rintro time ⟨txnw, same, -⟩
  cases same

/-- Nothing that waits is swept. -/
theorem Ledger.Waits.sweep {pkg : Packages} {time : ℚ≥0} (waits : l.Waits time) :
    Ledger.sweep pkg (l.at time) = .ok ⟨⟩ (l.at time) := by
  refine Ledger.sweep_calm ?_
  rintro txnw ⟨⟨k, held⟩, passed⟩
  exact waits.waiting k txnw held passed

theorem Setup.Onward.waits (onward : setup.Onward l c) {time : ℚ≥0} (waits : l.Waits time) :
    c.Waits time :=
  onward.preserves (I := fun l => l.Waits time)
    (fun _ _ _ forward effect waits => waits.effect forward effect) waits

/-- The times of the turns do not decrease, and none is before `now`. -/
def InTurn (now : ℚ≥0) (turns : List Turn) : Prop := (now :: timesOf turns).Pairwise (· ≤ ·)

/-- What one turn does to the time. -/
theorem Setup.turn_onward (reached : setup.ledger.Reachable l) {t : Turn} {turns : List Turn}
    (run : Ledger.turn setup.toPackages bodies t l = .ok ⟨⟩ l')
    (inTurn : InTurn l.currentTime (t :: turns)) :
    setup.Onward l l' ∧ InTurn l'.currentTime turns := by
  cases t with
  | sweep =>
      obtain ⟨onward, -, sameTime⟩ := Setup.onward_sweep reached run
      refine ⟨onward, ?_⟩
      rw [sameTime]
      exact inTurn
  | take time =>
      cases run
      have later : l.currentTime ≤ time := (List.pairwise_cons.mp inTurn).1 time List.mem_cons_self
      refine ⟨⟨[.tick time], .cons ⟨?_, rfl⟩ (.nil _)⟩, (List.pairwise_cons.mp inTurn).2⟩
      rintro _ ⟨⟩
      exact later
  | settle txid =>
      have onward := Setup.onward_settle run
      have sameTime : l'.currentTime = l.currentTime := by
        rcases (Ledger.settle_ok setup.toPackages).mp run with ⟨-, -, rfl⟩ | ⟨-, rfl⟩
        · exact Ledger.accept_currentTime _ _
        · rfl
      refine ⟨onward, ?_⟩
      rw [sameTime]
      exact inTurn

theorem Setup.turns_onward (reached : setup.ledger.Reachable l) {turns : List Turn}
    (run : turns.forM (Ledger.turn setup.toPackages bodies) l = .ok ⟨⟩ l')
    (inTurn : InTurn l.currentTime turns) : setup.Onward l l' := by
  induction turns generalizing l with
  | nil =>
      cases run
      exact .refl setup _
  | cons t turns ih =>
      rw [forM_cons] at run
      obtain ⟨_, middle, first, rest⟩ := bind_ok.mp run
      obtain ⟨onward, inTurn'⟩ := setup.turn_onward reached first inTurn
      exact onward.trans (ih (onward.reachable reached) rest inTurn')

/-- **A turn that was taken once changes nothing** on a later ledger. -/
theorem Setup.turn_again (free : setup.CollisionFree) (reached : setup.ledger.Reachable l)
    {t : Turn} (run : Ledger.turn setup.toPackages bodies t l = .ok ⟨⟩ l')
    (onward : setup.Onward l' c)
    (inTime : ∀ txid ∈ t.settles, ¬ setup.Premature l c (bodies txid)) :
    Ledger.turn setup.toPackages bodies t (c.at l.currentTime) =
      .ok ⟨⟩ (c.at l'.currentTime) := by
  cases t with
  | sweep =>
      obtain ⟨-, waits, sameTime⟩ := Setup.onward_sweep reached run
      rw [sameTime]
      exact (onward.waits waits).sweep
  | take time =>
      cases run
      rfl
  | settle txid =>
      have sameTime : l'.currentTime = l.currentTime := by
        rcases (Ledger.settle_ok setup.toPackages).mp run with ⟨-, -, rfl⟩ | ⟨-, rfl⟩
        · exact Ledger.accept_currentTime _ _
        · rfl
      rw [sameTime]
      exact setup.settle_again free reached run onward (inTime txid rfl)

/-- **Nor do all turns up to a later ledger.** -/
theorem Setup.replays (free : setup.CollisionFree) (reached : setup.ledger.Reachable l)
    {turns : List Turn}
    (run : turns.forM (Ledger.turn setup.toPackages bodies) l = .ok ⟨⟩ l')
    (onward : setup.Onward l' c) (inTurn : InTurn l.currentTime turns)
    (inTime : setup.NonePremature bodies c turns l) :
    turns.forM (Ledger.turn setup.toPackages bodies) (c.at l.currentTime) =
      .ok ⟨⟩ (c.at l'.currentTime) := by
  induction turns generalizing l with
  | nil =>
      cases run
      rfl
  | cons t turns ih =>
      rw [forM_cons] at run
      obtain ⟨_, middle, first, rest⟩ := bind_ok.mp run
      obtain ⟨notPremature, inTime⟩ := inTime
      rw [first, final_ok] at inTime
      obtain ⟨onward', inTurn'⟩ := setup.turn_onward reached first inTurn
      have reached' := onward'.reachable reached
      have later := (setup.turns_onward reached' rest inTurn').trans onward
      rw [forM_cons, bind_ok]
      exact ⟨⟨⟩, _, setup.turn_again free reached first later notPremature,
        ih reached' rest inTurn' inTime⟩

/-- All turns up to a crash, and then what the later ledger makes of the others. -/
theorem Setup.resumes (free : setup.CollisionFree) {first rest : List Turn}
    (run : first.forM (Ledger.turn setup.toPackages bodies) setup.fresh.toLedger = .ok ⟨⟩ l)
    (onward : setup.Onward l c) (inTurn : (timesOf first).Pairwise (· ≤ ·))
    (inTime : setup.NonePremature bodies c first setup.fresh.toLedger)
    (goesOn : rest.forM (Ledger.turn setup.toPackages bodies) (c.at l.currentTime) =
      .ok ⟨⟩ l') :
    (first ++ rest).forM (Ledger.turn setup.toPackages bodies) (c.at 0) = .ok ⟨⟩ l' := by
  have inTurn' : InTurn setup.fresh.currentTime first :=
    List.pairwise_cons.mpr ⟨fun time _ => zero_le, inTurn⟩
  rw [forM_append, bind_ok]
  exact ⟨⟨⟩, _, setup.replays free (.start rfl) run onward inTurn' inTime, goesOn⟩

/-! ### Sweeps that were cut short -/

/-- A store lists its entries in the only order there is. -/
theorem toList_unique {V : Type} {store : Store V} {entries : List (Bytes × V)}
    (ordered : entries.Pairwise fun a b => compare a.1 b.1 = .lt)
    (mem : ∀ entry, entry ∈ entries ↔ store[entry.1]? = some entry.2) :
    store.toList = entries := by
  have distinct : ∀ {list : List (Bytes × V)},
      list.Pairwise (fun a b => compare a.1 b.1 = .lt) → list.Nodup := by
    intro list ordered
    refine ordered.imp ?_
    rintro a b before rfl
    simp at before
  have ordered' : store.toList.Pairwise fun a b => compare a.1 b.1 = .lt :=
    Std.ExtTreeMap.ordered_keys_toList
  refine List.Perm.eq_of_pairwise ?_ ordered' ordered ?_
  · intro a b _ _ before after
    rw [Std.OrientedCmp.gt_iff_lt.mpr before] at after
    cases after
  · refine (List.perm_ext_iff_of_nodup (distinct ordered') (distinct ordered)).mpr fun entry => ?_
    rw [mem]
    exact Std.ExtTreeMap.mem_toList_iff_getElem?_eq_some

/-- A sweep that was cut short goes on where it was. -/
theorem Ledger.sweep_resumes (sound : l.Sound setup.toPackages)
    {first last : List (Bytes × TxnWrapper)} (all : l.pend.toList = first ++ last)
    (run : first.forM (fun entry => Ledger.expire setup.toPackages entry.2) l = .ok ⟨⟩ c) :
    Ledger.sweep setup.toPackages c =
      last.forM (fun entry => Ledger.expire setup.toPackages entry.2) c := by
  obtain ⟨distinct, pending⟩ := l.pend_snapshot
  rw [all] at distinct pending
  have pendingFirst : ∀ entry ∈ first, l.pend[entry.1]? = some entry.2 :=
    fun entry mem => pending entry (List.mem_append_left _ mem)
  obtain ⟨-, sameTime, after⟩ :=
    setup.forM_expire sound (List.pairwise_append.mp distinct).1 pendingFirst run
  have left : c.pend.toList =
      first.filter (fun entry => decide (¬ entry.2.TimelockPassed l.currentTime)) ++ last := by
    have ordered : l.pend.toList.Pairwise fun a b => compare a.1 b.1 = .lt :=
      Std.ExtTreeMap.ordered_keys_toList
    rw [all] at ordered
    refine toList_unique (ordered.sublist (List.filter_sublist.append_right last)) fun entry => ?_
    have listed : entry ∈ first ++ last ↔ l.pend[entry.1]? = some entry.2 := by
      rw [← all]
      exact Std.ExtTreeMap.mem_toList_iff_getElem?_eq_some
    rw [after, ← listed, List.mem_append, List.mem_append, List.mem_filter, decide_eq_true_iff]
    constructor
    · rintro (⟨mem, waiting⟩ | mem)
      · exact ⟨.inl mem, fun expired => waiting expired.2⟩
      · refine ⟨.inr mem, fun expired => ?_⟩
        exact (List.pairwise_append.mp distinct).2.2 entry expired.1 entry mem rfl
    · rintro ⟨mem | mem, notExpired⟩
      · exact .inl ⟨mem, fun passed => notExpired ⟨mem, passed⟩⟩
      · exact .inr mem
  change (c.pend.toList.forM fun entry => Ledger.expire setup.toPackages entry.2) c = _
  rw [left, forM_append, bind_apply, Ledger.forM_expire_calm]
  intro entry mem
  rw [sameTime]
  simpa using (List.mem_filter.mp mem).2

/-! ### Crashes between two operations -/

/-- Only the database of the crash counts. -/
theorem Packages.NonePremature.congr {pkg : Packages} {c' : Ledger} (sameDb : c'.db = c.db)
    {turns : List Turn} (inTime : pkg.NonePremature bodies c turns l) :
    pkg.NonePremature bodies c' turns l := by
  induction turns generalizing l with
  | nil => trivial
  | cons t turns ih =>
      obtain ⟨first, rest⟩ := inTime
      refine ⟨fun txid same => ?_, ih rest⟩
      rw [Packages.Premature, sameDb]
      exact first txid same

/-- No transaction is premature for what its own turn left. -/
theorem Setup.not_premature {txn : Transaction}
    (run : Ledger.settle setup.toPackages txn l = .ok ⟨⟩ l') : ¬ setup.Premature l l' txn := by
  rintro ⟨-, stored, inp, real, unknown⟩
  rcases (Ledger.settle_ok setup.toPackages).mp run with ⟨accepts, -⟩ | ⟨-, rfl⟩
  · obtain ⟨entry, o, held, -⟩ := (accepts.inputs inp real).authorised
    exact unknown (mem_iff_record.mpr ⟨entry, held⟩)
  · exact unknown (stored inp real)

/-- Where the surviving databases come from: a later ledger, on which the turns that were
not finished go on as they did. -/
theorem Setup.crash_cut {rest : List Turn} {finished : Ledger}
    (reached : setup.ledger.Reachable l)
    (run : rest.forM (Ledger.turn setup.toPackages bodies) l = .ok ⟨⟩ finished)
    {crashed : Ledger} (between : setup.Between bodies rest l crashed)
    (free : setup.CollisionFree) :
    ∃ c, setup.Onward l c ∧ crashed.Same c ∧
      rest.forM (Ledger.turn setup.toPackages bodies) (c.at l.currentTime) = .ok ⟨⟩ finished := by
  obtain ⟨n, same⟩ := between
  -- nothing of the next turn was written
  have untouched : (Ledger.nextWrites setup.toPackages bodies l rest).take n = [] → _ :=
    fun nothing => show ∃ c, setup.Onward l c ∧ crashed.Same c ∧
        rest.forM (Ledger.turn setup.toPackages bodies) (c.at l.currentTime) = .ok ⟨⟩ finished by
      rw [nothing] at same
      exact ⟨l, .refl setup l, same, run⟩
  cases rest with
  | nil => exact untouched (by simp [Ledger.nextWrites])
  | cons t rest =>
      cases t with
      | take time => exact untouched (by simp [Ledger.nextWrites])
      | settle txid =>
          cases n with
          | zero => exact untouched rfl
          | succ n =>
              rw [forM_cons] at run
              obtain ⟨_, next, first, later⟩ := bind_ok.mp run
              simp only [Ledger.nextWrites, List.take_succ_cons, List.take_nil, List.flatten_cons,
                List.flatten_nil, List.append_nil] at same
              refine ⟨next, Setup.onward_settle first, same.trans (Ledger.settle_writes first), ?_⟩
              have again := setup.turn_again free reached first (.refl setup next) ?_
              · rw [forM_cons, bind_ok]
                exact ⟨⟨⟩, next, again, later⟩
              · rintro _ ⟨⟩
                exact setup.not_premature first
      | sweep =>
          rw [forM_cons] at run
          obtain ⟨_, swept, first, later⟩ := bind_ok.mp run
          have sound := setup.sound_of_reachable reached
          obtain ⟨middle, part, written⟩ := Ledger.sweep_writes (.refl l) first n
          obtain ⟨distinct, pending⟩ := l.pend_snapshot
          obtain ⟨moves, sameTime, -⟩ := setup.forM_expire sound
            (distinct.sublist (List.take_sublist n _))
            (fun entry mem => pending entry (List.mem_of_mem_take mem)) part
          refine ⟨middle, moves.onward ?_, same.trans written, ?_⟩
          · rintro time ⟨txnw, eq, -⟩
            cases eq
          · have all := (List.take_append_drop n l.pend.toList).symm
            have goesOn := Ledger.sweep_resumes sound all part
            have whole := first
            change (l.pend.toList.forM fun entry => Ledger.expire setup.toPackages entry.2) l = _ at whole
            rw [all, forM_append, bind_apply, part] at whole
            rw [forM_cons, bind_ok]
            refine ⟨⟨⟩, swept, ?_, later⟩
            rw [← sameTime]
            exact goesOn.trans whole

/-- The ledger of a node that is constructed over databases which hold the genesis
transactions. -/
theorem Setup.construct_same (kept : ∀ gentxn ∈ setup.coinbase, setup.txid gentxn ∈ c.db)
    {crashed : Ledger} (same : crashed.Same c) (mempool : Store Transaction) :
    (c.at 0).Same (setup.construct crashed.db crashed.pend mempool).toLedger := by
  have stored : ∀ gentxn ∈ setup.coinbase, setup.txid gentxn ∈ crashed.db := by
    rw [← same.db]
    exact kept
  refine ⟨?_, same.pend.symm, rfl⟩
  rw [Setup.construct, genesis_stored stored]
  exact same.db.symm

/-- **A restart between two operations.** The blocks, processed again on the databases that
survived, end as they did without the crash. -/
theorem Setup.history_restart (free : setup.CollisionFree) {blocks : List Block}
    {first rest : List Turn} {reached crashed finished : Ledger}
    (crash : setup.Crash bodies blocks first rest reached crashed)
    (once : Ledger.history setup.toPackages bodies blocks setup.fresh.toLedger = .ok ⟨⟩ finished)
    (between : setup.Between bodies rest reached crashed)
    (inTurn : (timesOf first).Pairwise (· ≤ ·))
    (inTime : setup.NonePremature bodies crashed first setup.fresh.toLedger)
    (mempool : Store Transaction) :
    ∃ again, Ledger.history setup.toPackages bodies blocks
        (setup.construct crashed.db crashed.pend mempool).toLedger = .ok ⟨⟩ again ∧
      again.db = finished.db ∧ again.pend = finished.pend := by
  have inTurn' : InTurn setup.fresh.currentTime first :=
    List.pairwise_cons.mpr ⟨fun time _ => zero_le, inTurn⟩
  have genesis : setup.ledger.Reachable setup.fresh.toLedger := .start rfl
  have onward := setup.turns_onward genesis crash.run inTurn'
  rw [Ledger.history_turns, crash.turns, forM_append, bind_apply, crash.run] at once
  obtain ⟨c, later, same, goesOn⟩ :=
    setup.crash_cut (onward.reachable genesis) once between free
  have resumed := setup.resumes free crash.run later inTurn (inTime.congr same.db) goesOn
  rw [← crash.turns, ← Ledger.history_turns] at resumed
  have kept : ∀ gentxn ∈ setup.coinbase, setup.txid gentxn ∈ c.db := fun gentxn mem =>
    (onward.trans later).stored (mem_genesis (.inl mem))
  obtain ⟨again, run, same'⟩ := (setup.construct_same kept same mempool).history resumed
  exact ⟨again, run, same'.db, same'.pend⟩

end Turns

end Belcoin
