import Belcoin.Ledger.Moves

/-!
The ledger as a function of the committed blocks.

`Ledger.history` runs the blocks one after the other: a delivery sweeps `pend`,
taking the block sets the time, and processing it settles its transactions. It is
what every node should compute, whatever else it does in between.

* `calm_of_sweep` — a sweep leaves nothing due, and `sweep_calm` — where nothing is
  due it does nothing.
* `sweep_returns` — a sweep of a sound ledger does not raise.
-/

namespace Belcoin

open Stateful

/-- The body that every node holds under each id. -/
abbrev Bodies := Bytes → Transaction

namespace Ledger

/-- Nothing in `pend` is due. -/
def Calm (ledger : Ledger) : Prop := ∀ txnw, ¬ ledger.Due txnw

variable (pkg : Packages)

/-- The settling of one block. -/
def settleBlock (bodies : Bodies) (txns : List Bytes) : LedgerM Unit :=
  txns.forM fun txid => settle pkg (bodies txid)

/-- One block, from its delivery to its end. -/
def enact (bodies : Bodies) (block : Block) : LedgerM Unit := do
  sweep pkg
  modify fun ledger => { ledger with currentTime := block.time }
  settleBlock pkg bodies block.txns

/-- The blocks one after the other. -/
def history (bodies : Bodies) (blocks : List Block) : LedgerM Unit :=
  blocks.forM (enact pkg bodies)

variable {pkg}

theorem enact_ok {bodies : Bodies} {block : Block} {ledger ledger' : Ledger} :
    enact pkg bodies block ledger = .ok ⟨⟩ ledger' ↔ ∃ swept, sweep pkg ledger = .ok ⟨⟩ swept ∧
      settleBlock pkg bodies block.txns { swept with currentTime := block.time } =
        .ok ⟨⟩ ledger' := by
  rw [enact, bind_ok]
  constructor
  · rintro ⟨⟨⟩, swept, first, rest⟩
    exact ⟨swept, first, rest⟩
  · rintro ⟨swept, first, rest⟩
    exact ⟨⟨⟩, swept, first, rest⟩

/-- One more block. -/
theorem history_append {bodies : Bodies} {blocks : List Block} {block : Block}
    {o ledger ledger' : Ledger} (before : history pkg bodies blocks o = .ok ⟨⟩ ledger)
    (last : enact pkg bodies block ledger = .ok ⟨⟩ ledger') :
    history pkg bodies (blocks ++ [block]) o = .ok ⟨⟩ ledger' := by
  rw [history, forM_append, bind_ok]
  exact ⟨⟨⟩, ledger, before, bind_ok.mpr ⟨⟨⟩, ledger', last, rfl⟩⟩

/-! ### Sweeps -/

/-- Entries that are not due stay as they are. -/
theorem forM_expire_calm {entries : List (Bytes × TxnWrapper)} {ledger : Ledger}
    (waiting : ∀ entry ∈ entries, ¬ entry.2.TimelockPassed ledger.currentTime) :
    entries.forM (fun entry => expire pkg entry.2) ledger = .ok ⟨⟩ ledger := by
  induction entries with
  | nil => rfl
  | cons entry entries ih =>
      obtain ⟨first, rest⟩ := List.forall_mem_cons.mp waiting
      rw [forM_cons, bind_ok]
      exact ⟨⟨⟩, ledger, expire_waiting pkg first, ih rest⟩

/-- Where nothing is due, a sweep does nothing. -/
theorem sweep_calm {ledger : Ledger} (calm : ledger.Calm) :
    sweep pkg ledger = .ok ⟨⟩ ledger := by
  rw [sweep, get_bind]
  refine forM_expire_calm fun entry mem passed => calm entry.2 ⟨⟨entry.1, ?_⟩, passed⟩
  exact Std.ExtTreeMap.mem_toList_iff_getElem?_eq_some.mp mem

/-- A pending transaction of a sound ledger refers to stored outputs. -/
theorem Sound.pendStored {ledger : Ledger} (sound : ledger.Sound pkg) {k : Bytes}
    {txnw : TxnWrapper} (held : ledger.pend[k]? = some txnw) {inp : Input}
    (mem : inp ∈ txnw.txn.inputs) : Stored ledger.db inp.ref := by
  have spent := sound.pendSpent k txnw held inp.ref (List.mem_map_of_mem mem)
  obtain ⟨entry, stored, cleared⟩ := Option.bind_eq_some_iff.mp spent
  have inBits := (List.getElem?_eq_some_iff.mp cleared).1
  exact ⟨entry, stored, inBits, sound.fit _ _ stored ▸ inBits⟩

/-- The entry of a sound ledger can expire. -/
theorem expire_returns {ledger : Ledger} (sound : ledger.Sound pkg) {k : Bytes}
    {txnw : TxnWrapper} (held : ledger.pend[k]? = some txnw) :
    ∃ ledger', expire pkg txnw ledger = .ok ⟨⟩ ledger' := by
  by_cases passed : txnw.TimelockPassed ledger.currentTime
  · rw [expire_passed pkg passed]
    by_cases verifies : pkg.Verifies ledger txnw.txn false
    · exact ⟨_, (settleExpired_ok pkg).mpr
        (.inl ⟨verifies, fun inp mem => sound.pendStored held mem, rfl⟩)⟩
    · exact ⟨_, (settleExpired_ok pkg).mpr (.inr ⟨verifies, rfl⟩)⟩
  · exact ⟨ledger, expire_waiting pkg passed⟩

/-- Expiring one entry keeps a ledger sound and the other entries pending. -/
theorem Sound.expire {ledger ledger' : Ledger} (sound : ledger.Sound pkg) {k : Bytes}
    {txnw : TxnWrapper} (held : ledger.pend[k]? = some txnw)
    (run : Ledger.expire pkg txnw ledger = .ok ⟨⟩ ledger') :
    ledger'.Sound pkg ∧ ∀ (k' : Bytes) (w : TxnWrapper), k' ≠ k →
      ledger.pend[k']? = some w → ledger'.pend[k']? = some w := by
  by_cases passed : txnw.TimelockPassed ledger.currentTime
  · have effect := expire_effect ⟨⟨k, held⟩, passed⟩ run
    refine ⟨sound.effect effect, fun k' w other held' => ?_⟩
    rw [effect.expire_pend.1, sound.pendKeyed k txnw held]
    simpa [Std.ExtTreeMap.getElem?_erase, other.symm] using held'
  · rw [expire_waiting pkg passed] at run
    cases run
    exact ⟨sound, fun _ _ _ held' => held'⟩

theorem forM_expire_returns {entries : List (Bytes × TxnWrapper)} {ledger : Ledger}
    (sound : ledger.Sound pkg) (distinct : entries.Pairwise fun a b => a.1 ≠ b.1)
    (pending : ∀ entry ∈ entries, ledger.pend[entry.1]? = some entry.2) :
    ∃ ledger', entries.forM (fun entry => Ledger.expire pkg entry.2) ledger = .ok ⟨⟩ ledger' := by
  induction entries generalizing ledger with
  | nil => exact ⟨ledger, rfl⟩
  | cons entry entries ih =>
      obtain ⟨apart, distinct⟩ := List.pairwise_cons.mp distinct
      obtain ⟨held, pending⟩ := List.forall_mem_cons.mp pending
      obtain ⟨middle, first⟩ := expire_returns sound held
      obtain ⟨sound', kept⟩ := sound.expire held first
      obtain ⟨ledger', rest⟩ := ih sound' distinct fun other mem =>
        kept _ _ (apart other mem).symm (pending other mem)
      refine ⟨ledger', ?_⟩
      rw [forM_cons, bind_ok]
      exact ⟨⟨⟩, middle, first, rest⟩

/-- The snapshot of `pend` that a sweep runs over. -/
theorem pend_snapshot (ledger : Ledger) :
    (ledger.pend.toList.Pairwise fun a b => a.1 ≠ b.1) ∧
      ∀ entry ∈ ledger.pend.toList, ledger.pend[entry.1]? = some entry.2 := by
  refine ⟨Std.ExtTreeMap.distinct_keys_toList.imp fun apart same => ?_, fun entry mem => ?_⟩
  · exact apart (Std.LawfulEqCmp.compare_eq_iff_eq.mpr same)
  · exact Std.ExtTreeMap.mem_toList_iff_getElem?_eq_some.mp mem

/-- **A sweep of a sound ledger does not raise.** -/
theorem sweep_returns {ledger : Ledger} (sound : ledger.Sound pkg) :
    ∃ swept, sweep pkg ledger = .ok ⟨⟩ swept := by
  obtain ⟨distinct, pending⟩ := ledger.pend_snapshot
  exact forM_expire_returns sound distinct pending

end Ledger

variable {setup : Setup}

/-- **A sweep leaves nothing due.** -/
theorem Setup.calm_of_sweep {ledger swept : Ledger} (sound : ledger.Sound setup.toPackages)
    (run : Ledger.sweep setup.toPackages ledger = .ok ⟨⟩ swept) : swept.Calm := by
  obtain ⟨-, sameTime, after⟩ := setup.sweep_moves sound run
  rintro txnw ⟨⟨k, held⟩, passed⟩
  exact ((after k txnw).mp held).2 (sameTime ▸ passed)

/-- A second sweep does nothing. -/
theorem Setup.sweep_again {ledger swept : Ledger} (sound : ledger.Sound setup.toPackages)
    (run : Ledger.sweep setup.toPackages ledger = .ok ⟨⟩ swept) :
    Ledger.sweep setup.toPackages swept = .ok ⟨⟩ swept :=
  Ledger.sweep_calm (setup.calm_of_sweep sound run)

/-! ### Blocks as moves -/

/-- The settling of a block is a run of settlings. -/
theorem Setup.settleBlock_moves {bodies : Bodies} {txns : List Bytes} {ledger ledger' : Ledger}
    (run : Ledger.settleBlock setup.toPackages bodies txns ledger = .ok ⟨⟩ ledger') :
    setup.Moves (fun move => ∃ txid ∈ txns, move = .settle (bodies txid)) ledger ledger' := by
  induction txns generalizing ledger with
  | nil =>
      cases run
      exact .refl _
  | cons txid txns ih =>
      obtain ⟨⟨⟩, middle, first, rest⟩ := bind_ok.mp run
      have step : setup.ledger.step ledger (.settle (bodies txid)) middle := first
      refine (Setup.Moves.one ⟨txid, List.mem_cons_self, rfl⟩ step).trans ((ih rest).mono ?_)
      rintro move ⟨other, mem, rfl⟩
      exact ⟨other, List.mem_cons_of_mem _ mem, rfl⟩

/-- What the blocks make of a ledger of the ledger machine is one. -/
theorem Setup.reachable_history {bodies : Bodies} {blocks : List Block} {o ledger : Ledger}
    (reached : setup.ledger.Reachable o)
    (run : Ledger.history setup.toPackages bodies blocks o = .ok ⟨⟩ ledger) :
    setup.ledger.Reachable ledger := by
  induction blocks generalizing o with
  | nil =>
      cases run
      exact reached
  | cons block blocks ih =>
      obtain ⟨⟨⟩, middle, first, rest⟩ := bind_ok.mp run
      obtain ⟨swept, sweeps, settles⟩ := Ledger.enact_ok.mp first
      obtain ⟨⟨moves, expiries, -⟩, -⟩ := setup.sweep_moves (sound_of_reachable reached) sweeps
      obtain ⟨moves', settlings, -⟩ := setup.settleBlock_moves settles
      have ticks : setup.ledger.step swept (.tick block.time)
          { swept with currentTime := block.time } := rfl
      exact ih (((reached.run expiries).step ticks).run settlings) rest

end Belcoin
