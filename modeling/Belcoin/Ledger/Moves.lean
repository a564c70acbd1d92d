import Belcoin.Ledger.Sound
import Belcoin.Frame

/-!
The ledger machine.

A ledger changes when a transaction of a block is settled, when a due entry of
`pend` expires, and when the node takes a block and with it the block's time.

* `Packages.Effect` lists what one move can do; invariants of the ledger are
  proved by cases on it.
* `sound_of_reachable` — every ledger the machine reaches is sound.
* `sweep_moves` — `update_pend` is a run of expiries, one for each entry that is
  due, and leaves nothing due behind.
-/

namespace Belcoin

open Stateful

/-! ### The machine -/

/-- What can happen to a ledger. -/
inductive Move where
  | settle (txn : Transaction)
  | expire (txnw : TxnWrapper)
  | tick (time : ℚ≥0)

/-- The entry is pending and its timelock has passed. -/
def Ledger.Due (ledger : Ledger) (txnw : TxnWrapper) : Prop :=
  (∃ k : Bytes, ledger.pend[k]? = some txnw) ∧ txnw.TimelockPassed ledger.currentTime

/-- The ledger of a node from its initialisation on. -/
def Setup.ledger (setup : Setup) : Machine Ledger Move where
  start ledger := ledger = setup.fresh.toLedger
  step ledger move ledger' := match move with
    | .settle txn => Ledger.settle setup.toPackages txn ledger = .ok ⟨⟩ ledger'
    | .expire txnw =>
        ledger.Due txnw ∧ Ledger.expire setup.toPackages txnw ledger = .ok ⟨⟩ ledger'
    | .tick time => ledger' = { ledger with currentTime := time }

/-- What each move can do. -/
inductive Packages.Effect (pkg : Packages) (ledger : Ledger) : Move → Ledger → Prop where
  | accept {txn : Transaction} : pkg.Accepts ledger txn →
      (∀ inp ∈ txn.inputs, Stored ledger.db inp.ref) →
      Effect pkg ledger (.settle txn) (ledger.accept pkg txn)
  | reject {txn : Transaction} : pkg.Rejects ledger txn true → Effect pkg ledger (.settle txn) ledger
  | commit {txnw : TxnWrapper} : ledger.Due txnw → pkg.Verifies ledger txnw.txn false →
      (∀ inp ∈ txnw.txn.inputs, Stored ledger.db inp.ref) →
      Effect pkg ledger (.expire txnw) (ledger.commit pkg txnw)
  | drop {txnw : TxnWrapper} : ledger.Due txnw → ¬ pkg.Verifies ledger txnw.txn false →
      Effect pkg ledger (.expire txnw) (ledger.drop pkg txnw)
  | tick {time : ℚ≥0} : Effect pkg ledger (.tick time) { ledger with currentTime := time }

/-- What an entry that is due can do. -/
theorem Ledger.expire_effect {pkg : Packages} {ledger ledger' : Ledger} {txnw : TxnWrapper}
    (due : ledger.Due txnw) (run : Ledger.expire pkg txnw ledger = .ok ⟨⟩ ledger') :
    pkg.Effect ledger (.expire txnw) ledger' := by
  rw [expire_passed pkg due.2] at run
  rcases (settleExpired_ok pkg).mp run with ⟨verifies, stored, rfl⟩ | ⟨not, rfl⟩
  · exact .commit due verifies stored
  · exact .drop due not

theorem Setup.effect_of_step {setup : Setup} {ledger ledger' : Ledger} {move : Move}
    (step : setup.ledger.step ledger move ledger') :
    setup.toPackages.Effect ledger move ledger' := by
  cases move with
  | settle txn =>
      rcases (Ledger.settle_ok setup.toPackages).mp step with ⟨accepts, stored, rfl⟩ | ⟨rejects, rfl⟩
      · exact .accept accepts stored
      · exact .reject rejects
  | expire txnw => exact Ledger.expire_effect step.1 step.2
  | tick time =>
      cases step
      exact .tick

/-! ### Soundness -/

/-- Every entry of a database of genesis transactions is one of them. -/
theorem genesis_entry {pkg : Packages} {coinbase : List Transaction} {db : Store TxnWrapper}
    {k : Bytes} {txnw : TxnWrapper}
    (held : (coinbase.foldl (fun db gentxn => if pkg.txid gentxn ∈ db then db
      else db.insert (pkg.txid gentxn) (.new gentxn 0)) db)[k]? = some txnw) :
    db[k]? = some txnw ∨ ∃ gentxn ∈ coinbase, pkg.txid gentxn = k ∧ txnw = .new gentxn 0 := by
  induction coinbase generalizing db with
  | nil => exact .inl held
  | cons gentxn coinbase ih =>
      rw [List.foldl_cons] at held
      rcases ih held with before | ⟨later, mem, rest⟩
      · split at before
        · exact .inl before
        · simp only [Std.ExtTreeMap.getElem?_insert, Std.LawfulEqCmp.compare_eq_iff_eq] at before
          split at before
          · rename_i same
            cases before
            exact .inr ⟨gentxn, List.mem_cons_self, same, rfl⟩
          · exact .inl before
      · exact .inr ⟨later, List.mem_cons_of_mem _ mem, rest⟩

theorem Setup.fresh_entry {setup : Setup} {k : Bytes} {txnw : TxnWrapper}
    (held : setup.fresh.db[k]? = some txnw) :
    ∃ gentxn ∈ setup.coinbase, setup.txid gentxn = k ∧ txnw = .new gentxn 0 := by
  rcases genesis_entry held with old | found
  · simp at old
  · exact found

theorem Setup.fresh_sound (setup : Setup) : setup.fresh.toLedger.Sound setup.toPackages where
  dbKeyed k txnw held := by
    obtain ⟨gentxn, -, keyed, rfl⟩ := setup.fresh_entry held
    exact keyed
  pendKeyed k txnw held := by simp [Setup.fresh, Setup.construct] at held
  fit k txnw held := by
    obtain ⟨gentxn, -, -, rfl⟩ := setup.fresh_entry held
    simp [TxnWrapper.new]
  dbSpent k txnw held r mem := by
    obtain ⟨gentxn, genesis, -, rfl⟩ := setup.fresh_entry held
    simp [Transaction.refs, setup.coinbase_inputs gentxn genesis] at mem
  pendSpent k txnw held := by simp [Setup.fresh, Setup.construct] at held

/-- One move keeps a ledger sound. -/
theorem Ledger.Sound.effect {pkg : Packages} {ledger ledger' : Ledger} {move : Move}
    (sound : ledger.Sound pkg) (effect : pkg.Effect ledger move ledger') : ledger'.Sound pkg := by
  cases effect with
  | accept accepts stored => exact sound.accept accepts.fresh stored
  | reject => exact sound
  | commit due verifies stored => exact sound.commit verifies.fresh stored
  | drop due => exact sound.drop _
  | tick => exact sound.of_subset rfl fun _ _ held => held

/-- A spent output stays spent. -/
theorem Packages.Effect.spent {pkg : Packages} {ledger ledger' : Ledger} {move : Move} {r : Ref}
    (effect : pkg.Effect ledger move ledger') (spent : bit ledger.db r = some false) :
    bit ledger'.db r = some false := by
  cases effect with
  | accept accepts => exact Ledger.spent_accept accepts.fresh spent
  | reject => exact spent
  | commit due verifies => exact Ledger.spent_stored verifies.fresh spent
  | drop => exact spent
  | tick => exact spent

/-- A stored transaction stays stored, with its timestamp. -/
theorem Packages.Effect.kept {pkg : Packages} {ledger ledger' : Ledger} {move : Move} {k : Bytes}
    {entry : Transaction × Nat} (effect : pkg.Effect ledger move ledger')
    (held : record ledger.db k = some entry) : record ledger'.db k = some entry := by
  cases effect with
  | accept accepts => exact Ledger.kept_accept accepts.fresh held
  | reject => exact held
  | commit due verifies => exact Ledger.kept_stored verifies.fresh held
  | drop => exact held
  | tick => exact held

/-- **Soundness.** -/
theorem Setup.sound_of_reachable {setup : Setup} {ledger : Ledger}
    (reached : setup.ledger.Reachable ledger) : ledger.Sound setup.toPackages := by
  refine reached.invariant ?_ fun _ _ _ _ sound step => sound.effect (setup.effect_of_step step)
  rintro _ rfl
  exact setup.fresh_sound

/-! ### Runs of moves -/

/-- A run of the ledger machine whose moves all meet `P`. -/
def Setup.Moves (setup : Setup) (P : Move → Prop) (ledger ledger' : Ledger) : Prop :=
  ∃ moves, setup.ledger.Run ledger moves ledger' ∧ ∀ move ∈ moves, P move

namespace Setup.Moves

variable {setup : Setup} {P Q : Move → Prop}

theorem refl (ledger : Ledger) : setup.Moves P ledger ledger := ⟨[], .nil _, by simp⟩

theorem trans {ledger middle ledger' : Ledger} (first : setup.Moves P ledger middle)
    (second : setup.Moves P middle ledger') : setup.Moves P ledger ledger' := by
  obtain ⟨moves, run, allowed⟩ := first
  obtain ⟨moves', run', allowed'⟩ := second
  refine ⟨moves ++ moves', run.append run', fun move mem => ?_⟩
  exact (List.mem_append.mp mem).elim (allowed move) (allowed' move)

theorem one {ledger ledger' : Ledger} {move : Move} (allowed : P move)
    (step : setup.ledger.step ledger move ledger') : setup.Moves P ledger ledger' :=
  ⟨[move], .cons step (.nil _), by simpa using allowed⟩

theorem mono {ledger ledger' : Ledger} (moves : setup.Moves P ledger ledger')
    (weaker : ∀ move, P move → Q move) : setup.Moves Q ledger ledger' := by
  obtain ⟨moves, run, allowed⟩ := moves
  exact ⟨moves, run, fun move mem => weaker move (allowed move mem)⟩

/-- Stored transactions stay stored. -/
theorem kept {ledger ledger' : Ledger} (moves : setup.Moves P ledger ledger') (k : Bytes)
    (entry : Transaction × Nat) (held : record ledger.db k = some entry) :
    record ledger'.db k = some entry := by
  obtain ⟨moves, run, -⟩ := moves
  induction run with
  | nil => exact held
  | cons step _ ih => exact ih ((setup.effect_of_step step).kept held)

/-- Only taking a block changes the time. -/
theorem sameTime {ledger ledger' : Ledger} (moves : setup.Moves P ledger ledger')
    (still : ∀ time, ¬ P (.tick time)) : ledger'.currentTime = ledger.currentTime := by
  obtain ⟨moves, run, allowed⟩ := moves
  induction run with
  | nil => rfl
  | cons step _ ih =>
      obtain ⟨first, rest⟩ := List.forall_mem_cons.mp allowed
      refine (ih rest).trans ?_
      cases setup.effect_of_step step with
      | accept => exact Ledger.accept_currentTime _ _
      | reject => rfl
      | commit => rfl
      | drop => rfl
      | tick => exact absurd first (still _)

end Setup.Moves

/-! ### `update_pend` as a run -/

/-- An expired entry leaves `pend`, and the time stays. -/
theorem Packages.Effect.expire_pend {pkg : Packages} {ledger ledger' : Ledger} {txnw : TxnWrapper}
    (effect : pkg.Effect ledger (.expire txnw) ledger') :
    ledger'.pend = ledger.pend.erase (pkg.txid txnw.txn) ∧
      ledger'.currentTime = ledger.currentTime := by
  cases effect with
  | commit => exact ⟨rfl, rfl⟩
  | drop => exact ⟨rfl, rfl⟩

/-- The loop of `update_pend` over distinct entries of `pend`. -/
theorem Setup.forM_expire {setup : Setup} {entries : List (Bytes × TxnWrapper)}
    {ledger ledger' : Ledger} (sound : ledger.Sound setup.toPackages)
    (distinct : entries.Pairwise fun a b => a.1 ≠ b.1)
    (pending : ∀ entry ∈ entries, ledger.pend[entry.1]? = some entry.2)
    (run : entries.forM (fun entry => Ledger.expire setup.toPackages entry.2) ledger =
      .ok ⟨⟩ ledger') :
    setup.Moves (fun move => ∃ txnw, move = .expire txnw ∧ ledger.Due txnw) ledger ledger' ∧
      ledger'.currentTime = ledger.currentTime ∧
      ∀ (k : Bytes) (txnw : TxnWrapper), ledger'.pend[k]? = some txnw ↔
        ledger.pend[k]? = some txnw ∧
          ¬ ((k, txnw) ∈ entries ∧ txnw.TimelockPassed ledger.currentTime) := by
  induction entries generalizing ledger with
  | nil =>
      cases run
      exact ⟨.refl _, rfl, by simp⟩
  | cons entry entries ih =>
      obtain ⟨key, txnw⟩ := entry
      obtain ⟨apart, distinct⟩ := List.pairwise_cons.mp distinct
      obtain ⟨held, pending⟩ := List.forall_mem_cons.mp pending
      rw [forM_cons] at run
      obtain ⟨_, middle, first, rest⟩ := bind_ok.mp run
      by_cases passed : txnw.TimelockPassed ledger.currentTime
      · have due : ledger.Due txnw := ⟨⟨key, held⟩, passed⟩
        have effect := Ledger.expire_effect due first
        obtain ⟨gone, sameTime⟩ := effect.expire_pend
        rw [sound.pendKeyed key txnw held] at gone
        have left : ∀ (k : Bytes) (w : TxnWrapper), middle.pend[k]? = some w ↔
            ledger.pend[k]? = some w ∧ k ≠ key := by
          intro k w
          simp only [gone, Std.ExtTreeMap.getElem?_erase, Std.LawfulEqCmp.compare_eq_iff_eq]
          by_cases same : key = k
          · simp [same]
          · simp [same, Ne.symm same]
        obtain ⟨moves, time, after⟩ := ih (sound.effect effect) distinct
          (fun entry mem => (left _ _).mpr ⟨pending entry mem, (apart entry mem).symm⟩) rest
        refine ⟨?_, time.trans sameTime, fun k w => ?_⟩
        · have step : setup.ledger.step ledger (.expire txnw) middle := ⟨due, first⟩
          refine (Setup.Moves.one ⟨txnw, rfl, due⟩ step).trans (moves.mono ?_)
          rintro move ⟨w, rfl, ⟨k, held'⟩, passed'⟩
          exact ⟨w, rfl, ⟨k, ((left k w).mp held').1⟩, sameTime ▸ passed'⟩
        · rw [after, left, sameTime, List.mem_cons, Prod.mk.injEq]
          constructor
          · rintro ⟨⟨held', other⟩, later⟩
            exact ⟨held', fun ⟨mem, passed'⟩ => mem.elim (fun same => other same.1)
              fun mem => later ⟨mem, passed'⟩⟩
          · rintro ⟨held', later⟩
            refine ⟨⟨held', ?_⟩, fun ⟨mem, passed'⟩ => later ⟨.inr mem, passed'⟩⟩
            rintro rfl
            rw [held] at held'
            cases held'
            exact later ⟨.inl ⟨rfl, rfl⟩, passed⟩
      · rw [Ledger.expire_waiting setup.toPackages passed] at first
        cases first
        obtain ⟨moves, time, after⟩ := ih sound distinct pending rest
        refine ⟨moves, time, fun k w => ?_⟩
        rw [after, List.mem_cons, Prod.mk.injEq]
        refine and_congr_right fun held' => not_congr ?_
        constructor
        · exact fun ⟨mem, passed'⟩ => ⟨.inr mem, passed'⟩
        · rintro ⟨⟨rfl, rfl⟩ | mem, passed'⟩
          · exact absurd passed' passed
          · exact ⟨mem, passed'⟩

/-- **`update_pend` is a run of expiries.** Afterwards `pend` holds what was not
due before. -/
theorem Setup.sweep_moves {setup : Setup} {ledger ledger' : Ledger}
    (sound : ledger.Sound setup.toPackages)
    (run : Ledger.sweep setup.toPackages ledger = .ok ⟨⟩ ledger') :
    setup.Moves (fun move => ∃ txnw, move = .expire txnw ∧ ledger.Due txnw) ledger ledger' ∧
      ledger'.currentTime = ledger.currentTime ∧
      ∀ (k : Bytes) (txnw : TxnWrapper), ledger'.pend[k]? = some txnw ↔
        ledger.pend[k]? = some txnw ∧ ¬ txnw.TimelockPassed ledger.currentTime := by
  have distinct : ledger.pend.toList.Pairwise fun a b => a.1 ≠ b.1 :=
    Std.ExtTreeMap.distinct_keys_toList.imp fun apart same =>
      apart (Std.LawfulEqCmp.compare_eq_iff_eq.mpr same)
  obtain ⟨moves, time, after⟩ := setup.forM_expire sound distinct
    (fun entry mem => Std.ExtTreeMap.mem_toList_iff_getElem?_eq_some.mp mem) run
  refine ⟨moves, time, fun k txnw => ?_⟩
  rw [after, Std.ExtTreeMap.mem_toList_iff_getElem?_eq_some]
  exact and_congr_right fun held => by simp [held]

end Belcoin
