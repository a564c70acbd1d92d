import Belcoin.Ledger.History

/-!
Crashes between two database writes.

`Block.turns` splits a block into what a node does for it, one turn after the other
(`history_turns`), and `nextWrites` splits a turn into its operations and those into
their writes, in the order of the source. `settle_writes` and `sweep_writes` prove that
an operation which returns leaves what its writes make of the databases.

A crash leaves what some of the writes of the next turn make of them (`Setup.Crash`).
-/

namespace Belcoin

open Stateful

/-! ### Turns -/

/-- What a node does for a block: `update_pend` when it is delivered, then its time, then
its transactions. -/
inductive Turn where
  | sweep
  | take (time : ℚ≥0)
  | settle (txid : Bytes)
  deriving DecidableEq

def Block.turns (block : Block) : List Turn :=
  .sweep :: .take block.time :: block.txns.map .settle

def turnsOf (blocks : List Block) : List Turn := blocks.flatMap Block.turns

/-- The transaction that a turn settles. -/
def Turn.settles : Turn → Option Bytes
  | .settle txid => some txid
  | _ => none

/-- The times of the blocks taken. -/
def timesOf (turns : List Turn) : List ℚ≥0 :=
  turns.filterMap fun turn => match turn with
    | .take time => some time
    | _ => none

namespace Ledger

variable (pkg : Packages)

def turn (bodies : Bodies) : Turn → LedgerM Unit
  | .sweep => sweep pkg
  | .take time => modify fun ledger => { ledger with currentTime := time }
  | .settle txid => settle pkg (bodies txid)

theorem settleBlock_turns (bodies : Bodies) (txns : List Bytes) :
    settleBlock pkg bodies txns = (txns.map Turn.settle).forM (turn pkg bodies) := by
  induction txns with
  | nil => rfl
  | cons txid txns ih =>
      rw [settleBlock] at ih
      rw [settleBlock, forM_cons, ih]
      rfl

/-- The history of the blocks, turn after turn. -/
theorem history_turns (bodies : Bodies) (blocks : List Block) :
    history pkg bodies blocks = (turnsOf blocks).forM (turn pkg bodies) := by
  induction blocks with
  | nil => rfl
  | cons block blocks ih =>
      funext ledger
      have enacts : enact pkg bodies block = block.turns.forM (turn pkg bodies) := by
        rw [enact, settleBlock_turns]
        rfl
      rw [turnsOf, List.flatMap_cons, forM_append, ← enacts]
      exact congrArg (fun rest : LedgerM Unit => (enact pkg bodies block >>= fun _ => rest) ledger) ih

end Ledger

/-! ### Writes -/

/-- A write to `db` or `pend`. -/
inductive Write where
  /-- `self[inp.txid] = output_txnw`, with the bit of the output cleared. -/
  | spend (r : Ref)
  /-- `self[txn.txid] = TxnWrapper(txn, ts)`. -/
  | store (txn : Transaction) (ts : Nat)
  /-- `self.pend[txn.txid] = TxnWrapper(txn, ts)`. -/
  | hold (txn : Transaction) (ts : Nat)
  /-- `del self.pend[tx.txid]`. -/
  | release (tx : Transaction)

variable (pkg : Packages)

namespace Ledger

def write (ledger : Ledger) : Write → Ledger
  | .spend r => { ledger with db := clearBit ledger.db r }
  | .store txn ts => { ledger with db := ledger.db.insert (pkg.txid txn) (.new txn ts) }
  | .hold txn ts => { ledger with pend := ledger.pend.insert (pkg.txid txn) (.new txn ts) }
  | .release tx => { ledger with pend := ledger.pend.erase (pkg.txid tx) }

def writeAll (ledger : Ledger) (writes : List Write) : Ledger := writes.foldl (write pkg) ledger

/-- What `process_block` writes for a transaction. -/
def settleWrites (ledger : Ledger) (txn : Transaction) : List Write :=
  match pkg.decideTxn ledger txn true with
  | .ok (.valid check) =>
      (match check with
        | some (.replaces tx) => [.release tx]
        | _ => []) ++
      if txn.timelock ≠ 0 then
        .hold txn (toTimestamp ledger.currentTime) :: txn.refs.map .spend
      else txn.refs.map .spend ++ [.store txn (toTimestamp ledger.currentTime)]
  | _ => []

/-- What `update_pend` writes for an entry of `pend`. -/
def expireWrites (ledger : Ledger) (txnw : TxnWrapper) : List Write :=
  if txnw.TimelockPassed ledger.currentTime then
    .release txnw.txn ::
      match pkg.decideTxn (ledger.write pkg (.release txnw.txn)) txnw.txn false with
      | .ok (.valid _) => txnw.txn.refs.map .spend ++ [.store txnw.txn txnw.timestamp]
      | _ => []
  else []

/-- What it writes for some entries, one after the other. -/
def sweepWrites : List (Bytes × TxnWrapper) → Ledger → List (List Write)
  | [], _ => []
  | entry :: entries, ledger =>
      let writes := ledger.expireWrites pkg entry.2
      writes :: sweepWrites entries (ledger.writeAll pkg writes)

/-- The writes of the next turn, operation by operation. -/
def nextWrites (bodies : Bodies) (ledger : Ledger) : List Turn → List (List Write)
  | .sweep :: _ => sweepWrites pkg ledger.pend.toList ledger
  | .settle txid :: _ => [ledger.settleWrites pkg (bodies txid)]
  | _ => []

/-- Two ledgers that differ in their history only. -/
structure Same (l l' : Ledger) : Prop where
  db : l'.db = l.db
  pend : l'.pend = l.pend
  currentTime : l'.currentTime = l.currentTime

namespace Same

theorem refl (ledger : Ledger) : ledger.Same ledger := ⟨rfl, rfl, rfl⟩

theorem symm {l l' : Ledger} (same : l.Same l') : l'.Same l :=
  ⟨same.db.symm, same.pend.symm, same.currentTime.symm⟩

theorem trans {l l' l'' : Ledger} (first : l.Same l') (second : l'.Same l'') : l.Same l'' :=
  ⟨second.db.trans first.db, second.pend.trans first.pend,
    second.currentTime.trans first.currentTime⟩

variable {pkg}

/-- Verification does not read the history. -/
theorem decideTxn {l l' : Ledger} (same : l.Same l') (txn : Transaction) (checkPend : Bool) :
    pkg.decideTxn l' txn checkPend = pkg.decideTxn l txn checkPend := by
  have pending : l'.checkPendReplacement txn = l.checkPendReplacement txn := by
    rw [checkPendReplacement, checkPendReplacement, same.pend, same.currentTime]
  have scan : ∀ inputs coins check, pkg.scanInputs l' txn checkPend inputs coins check =
      pkg.scanInputs l txn checkPend inputs coins check := by
    intro inputs
    induction inputs with
    | nil => intros; rfl
    | cons inp rest ih =>
        intro coins check
        simp only [Packages.scanInputs, same.db, same.currentTime, pending, ih]
  rw [Packages.decideTxn, Packages.decideTxn, same.db, scan]

theorem write {l l' : Ledger} (same : l.Same l') (w : Write) :
    (l.write pkg w).Same (l'.write pkg w) := by
  obtain ⟨db, pend, currentTime⟩ := same
  cases w <;> constructor <;> simp only [Ledger.write, db, pend, currentTime]

theorem writeAll {l l' : Ledger} (same : l.Same l') (writes : List Write) :
    (l.writeAll pkg writes).Same (l'.writeAll pkg writes) := by
  induction writes generalizing l l' with
  | nil => exact same
  | cons w writes ih => exact ih (same.write w)

/-- The writes of a transaction are the same on ledgers that are. -/
theorem settleWrites {l l' : Ledger} (same : l.Same l') (txn : Transaction) :
    l'.settleWrites pkg txn = l.settleWrites pkg txn := by
  rw [Ledger.settleWrites, Ledger.settleWrites, same.decideTxn, same.currentTime]

theorem expireWrites {l l' : Ledger} (same : l.Same l') (txnw : TxnWrapper) :
    l'.expireWrites pkg txnw = l.expireWrites pkg txnw := by
  rw [Ledger.expireWrites, Ledger.expireWrites, (same.write (.release txnw.txn)).decideTxn,
    same.currentTime]

end Same

/-! ### What the writes of an operation make -/

theorem writeAll_append (ledger : Ledger) (writes writes' : List Write) :
    ledger.writeAll pkg (writes ++ writes') = (ledger.writeAll pkg writes).writeAll pkg writes' :=
  List.foldl_append

theorem writeAll_spend (ledger : Ledger) (refs : List Ref) :
    ledger.writeAll pkg (refs.map .spend) = { ledger with db := clearBits ledger.db refs } := by
  induction refs generalizing ledger with
  | nil => rfl
  | cons r refs ih => exact ih (ledger.write pkg (.spend r))

variable {pkg}

/-- An accepted transaction is written as `accept` says. -/
theorem accept_writes {ledger : Ledger} {txn : Transaction} (accepts : pkg.Accepts ledger txn) :
    (ledger.writeAll pkg (ledger.settleWrites pkg txn)).Same (ledger.accept pkg txn) := by
  have decided := pkg.decideTxn_accepts.mpr ⟨accepts, rfl⟩
  have vacates : (ledger.writeAll pkg (match some (ledger.checkPendReplacement txn) with
      | some (.replaces tx) => [.release tx]
      | _ => [])).Same ((ledger.vacate pkg txn).noted (.accepted txn ledger.currentTime)) := by
    unfold vacate
    cases ledger.checkPendReplacement txn with
    | unmatched => exact ⟨rfl, rfl, rfl⟩
    | refused => exact ⟨rfl, rfl, rfl⟩
    | replaces tx => exact ⟨rfl, rfl, rfl⟩
  rw [settleWrites, decided, accept]
  simp only [writeAll_append]
  by_cases locked : txn.timelock ≠ 0
  · rw [if_pos locked, if_pos locked]
    have writes := @Same.writeAll pkg _ _ vacates
      (.hold txn (toTimestamp ledger.currentTime) :: txn.refs.map .spend)
    refine writes.trans ?_
    rw [writeAll, List.foldl_cons, ← writeAll, writeAll_spend]
    exact .refl _
  · rw [if_neg locked, if_neg locked]
    have writes := @Same.writeAll pkg _ _ vacates
      (txn.refs.map .spend ++ [.store txn (toTimestamp ledger.currentTime)])
    refine writes.trans ?_
    rw [writeAll_append, writeAll_spend]
    exact .refl _

/-- **What settling a transaction writes.** -/
theorem settle_writes {ledger ledger' : Ledger} {txn : Transaction}
    (run : settle pkg txn ledger = .ok ⟨⟩ ledger') :
    (ledger.writeAll pkg (ledger.settleWrites pkg txn)).Same ledger' := by
  rcases (settle_ok pkg).mp run with ⟨accepts, -, rfl⟩ | ⟨rejects, rfl⟩
  · exact accept_writes accepts
  · have nothing : ledger'.settleWrites pkg txn = [] := by
      rcases rejects with decided | decided <;> rw [settleWrites, decided]
    rw [nothing]
    exact .refl _

/-- **What expiring an entry of `pend` writes.** -/
theorem expire_writes {ledger ledger' : Ledger} {txnw : TxnWrapper}
    (run : expire pkg txnw ledger = .ok ⟨⟩ ledger') :
    (ledger.writeAll pkg (ledger.expireWrites pkg txnw)).Same ledger' := by
  rw [expireWrites]
  by_cases passed : txnw.TimelockPassed ledger.currentTime
  · rw [expire_passed pkg passed] at run
    rw [if_pos passed]
    have released : ledger.write pkg (.release txnw.txn) = ledger.without pkg txnw.txn := rfl
    rcases pkg.decideTxn_false (ledger.without pkg txnw.txn) txnw.txn with
      ⟨decided, verifies⟩ | ⟨rejects, fails⟩
    · rw [verifies_without pkg] at verifies
      rcases (settleExpired_ok pkg).mp run with ⟨-, -, rfl⟩ | ⟨fails, -⟩
      · rw [released, decided]
        simp only [writeAll, List.foldl_cons, released]
        rw [← writeAll, writeAll_append, writeAll_spend]
        exact ⟨rfl, rfl, rfl⟩
      · exact absurd verifies fails
    · rw [verifies_without pkg] at fails
      rcases (settleExpired_ok pkg).mp run with ⟨verifies, -⟩ | ⟨-, rfl⟩
      · exact absurd verifies fails
      · rcases rejects with decided | decided
        · rw [released, decided]
          exact ⟨rfl, rfl, rfl⟩
        · rw [released, decided]
          exact ⟨rfl, rfl, rfl⟩
  · rw [expire_waiting pkg passed] at run
    rw [if_neg passed]
    cases run
    exact .refl _

/-- What the first entries of a sweep write. -/
theorem sweep_writes {entries : List (Bytes × TxnWrapper)} {l l' swept : Ledger}
    (same : l.Same l') (run : entries.forM (fun entry => expire pkg entry.2) l = .ok ⟨⟩ swept)
    (n : Nat) :
    ∃ middle, (entries.take n).forM (fun entry => expire pkg entry.2) l = .ok ⟨⟩ middle ∧
      (l'.writeAll pkg ((sweepWrites pkg entries l').take n).flatten).Same middle := by
  induction entries generalizing l l' n with
  | nil =>
      refine ⟨l, by rw [List.take_nil]; rfl, ?_⟩
      rw [sweepWrites, List.take_nil]
      exact same.symm
  | cons entry entries ih =>
      cases n with
      | zero => exact ⟨l, rfl, same.symm⟩
      | succ n =>
          rw [forM_cons] at run
          obtain ⟨_, next, first, rest⟩ := bind_ok.mp run
          have written := expire_writes first
          rw [← same.expireWrites] at written
          have again : (l'.writeAll pkg _).Same (l.writeAll pkg _) :=
            same.symm.writeAll (l'.expireWrites pkg entry.2)
          obtain ⟨middle, run', made⟩ := ih (again.trans written).symm rest n
          refine ⟨middle, ?_, ?_⟩
          · rw [List.take_succ_cons, forM_cons, bind_ok]
            exact ⟨⟨⟩, next, first, run'⟩
          · rw [sweepWrites, List.take_succ_cons, List.flatten_cons, writeAll_append]
            exact made

/-! ### The history is not read -/

namespace Same

variable {l l' k : Ledger}

theorem settle (same : l.Same l') {txn : Transaction}
    (run : Ledger.settle pkg txn l = .ok ⟨⟩ k) :
    ∃ k', Ledger.settle pkg txn l' = .ok ⟨⟩ k' ∧ k.Same k' := by
  have returns : ∃ k', Ledger.settle pkg txn l' = .ok ⟨⟩ k' := by
    rcases (settle_ok pkg).mp run with ⟨accepts, stored, -⟩ | ⟨rejects, -⟩
    · have decided := pkg.decideTxn_accepts.mpr ⟨accepts, rfl⟩
      rw [← same.decideTxn] at decided
      refine ⟨_, (settle_ok pkg).mpr (.inl ⟨(pkg.decideTxn_accepts.mp decided).1, ?_, rfl⟩)⟩
      rw [same.db]
      exact stored
    · rw [Packages.Rejects, ← same.decideTxn] at rejects
      exact ⟨l', (settle_ok pkg).mpr (.inr ⟨rejects, rfl⟩)⟩
  obtain ⟨k', run'⟩ := returns
  have written' := settle_writes run'
  rw [same.settleWrites] at written'
  exact ⟨k', run', (settle_writes run).symm.trans ((same.writeAll _).trans written')⟩

theorem verifies (same : l.Same l') {txn : Transaction} :
    pkg.Verifies l' txn false ↔ pkg.Verifies l txn false :=
  ⟨.congr_pend pkg same.db.symm same.currentTime.symm, .congr_pend pkg same.db same.currentTime⟩

theorem expire (same : l.Same l') {txnw : TxnWrapper}
    (run : Ledger.expire pkg txnw l = .ok ⟨⟩ k) :
    ∃ k', Ledger.expire pkg txnw l' = .ok ⟨⟩ k' ∧ k.Same k' := by
  have returns : ∃ k', Ledger.expire pkg txnw l' = .ok ⟨⟩ k' := by
    by_cases passed : txnw.TimelockPassed l.currentTime
    · rw [expire_passed pkg passed] at run
      rw [expire_passed pkg (same.currentTime ▸ passed)]
      rcases (settleExpired_ok pkg).mp run with ⟨verifies, stored, -⟩ | ⟨fails, -⟩
      · refine ⟨_, (settleExpired_ok pkg).mpr (.inl ⟨same.verifies.mpr verifies, ?_, rfl⟩)⟩
        rw [same.db]
        exact stored
      · exact ⟨_, (settleExpired_ok pkg).mpr (.inr ⟨mt same.verifies.mp fails, rfl⟩)⟩
    · exact ⟨l', expire_waiting pkg (same.currentTime ▸ passed)⟩
  obtain ⟨k', run'⟩ := returns
  have written' := expire_writes run'
  rw [same.expireWrites] at written'
  exact ⟨k', run', (expire_writes run).symm.trans ((same.writeAll _).trans written')⟩

/-- A loop whose body goes on from ledgers that differ in their history only does. -/
theorem forM {α : Type} (same : l.Same l') (op : α → LedgerM Unit)
    (body : ∀ a l l' k, l.Same l' → op a l = .ok ⟨⟩ k → ∃ k', op a l' = .ok ⟨⟩ k' ∧ k.Same k')
    {as : List α} (run : as.forM op l = .ok ⟨⟩ k) :
    ∃ k', as.forM op l' = .ok ⟨⟩ k' ∧ k.Same k' := by
  induction as generalizing l l' with
  | nil =>
      cases run
      exact ⟨l', rfl, same⟩
  | cons a as ih =>
      rw [forM_cons] at run
      obtain ⟨_, middle, first, rest⟩ := bind_ok.mp run
      obtain ⟨middle', first', same'⟩ := body a l l' middle same first
      obtain ⟨k', rest', same''⟩ := ih same' rest
      refine ⟨k', ?_, same''⟩
      rw [forM_cons, bind_ok]
      exact ⟨⟨⟩, middle', first', rest'⟩

theorem turn (same : l.Same l') {bodies : Bodies} {t : Turn}
    (run : Ledger.turn pkg bodies t l = .ok ⟨⟩ k) :
    ∃ k', Ledger.turn pkg bodies t l' = .ok ⟨⟩ k' ∧ k.Same k' := by
  cases t with
  | sweep =>
      change l.pend.toList.forM (fun entry => Ledger.expire pkg entry.2) l = _ at run
      rw [← same.pend] at run
      exact same.forM (fun entry : Bytes × TxnWrapper => Ledger.expire pkg entry.2)
        (fun _ _ _ _ same run => same.expire run) run
  | take time =>
      cases run
      exact ⟨_, rfl, same.db, same.pend, rfl⟩
  | settle txid => exact same.settle run

/-- **Ledgers that differ in their history only have the same future.** -/
theorem history (same : l.Same l') {bodies : Bodies} {blocks : List Block}
    (run : Ledger.history pkg bodies blocks l = .ok ⟨⟩ k) :
    ∃ k', Ledger.history pkg bodies blocks l' = .ok ⟨⟩ k' ∧ k.Same k' := by
  rw [history_turns] at run ⊢
  exact same.forM (Ledger.turn pkg bodies) (fun _ _ _ _ same run => same.turn run) run

end Same

end Ledger

/-! ### Crashes -/

/-- The node has taken the turns in `first` and stands at `reached`; the crash leaves what
some of the writes of the next turn make of its databases. -/
structure Setup.Crash (setup : Setup) (bodies : Bodies) (blocks : List Block)
    (first rest : List Turn) (reached crashed : Ledger) : Prop where
  turns : turnsOf blocks = first ++ rest
  run : first.forM (Ledger.turn setup.toPackages bodies) setup.fresh.toLedger = .ok ⟨⟩ reached
  writes : ∃ n, crashed = reached.writeAll setup.toPackages
    ((Ledger.nextWrites setup.toPackages bodies reached rest).flatten.take n)

/-- The databases are those between two operations. -/
def Packages.Between (pkg : Packages) (bodies : Bodies) (rest : List Turn)
    (reached crashed : Ledger) : Prop :=
  ∃ n, crashed.Same (reached.writeAll pkg
    ((Ledger.nextWrites pkg bodies reached rest).take n).flatten)

/-- At its turn on `ledger` the transaction had an input that was not stored; at the crash
it is not stored itself, and all its inputs are. -/
def Packages.Premature (pkg : Packages) (ledger crashed : Ledger) (txn : Transaction) : Prop :=
  pkg.txid txn ∉ crashed.db ∧ (∀ inp ∈ pkg.realInputs txn, inp.txid ∈ crashed.db) ∧
    ∃ inp ∈ pkg.realInputs txn, inp.txid ∉ ledger.db

instance (pkg : Packages) (ledger crashed : Ledger) (txn : Transaction) :
    Decidable (pkg.Premature ledger crashed txn) :=
  inferInstanceAs (Decidable (_ ∧ _ ∧ _))

/-- None of these turns settles a transaction that is premature. -/
def Packages.NonePremature (pkg : Packages) (bodies : Bodies) (crashed : Ledger) :
    List Turn → Ledger → Prop
  | [], _ => True
  | t :: turns, ledger =>
      (∀ txid ∈ t.settles, ¬ pkg.Premature ledger crashed (bodies txid)) ∧
        pkg.NonePremature bodies crashed turns (final (Ledger.turn pkg bodies t ledger))

instance decidableNonePremature (pkg : Packages) (bodies : Bodies) (crashed : Ledger) :
    ∀ turns ledger, Decidable (pkg.NonePremature bodies crashed turns ledger)
  | [], _ => inferInstanceAs (Decidable True)
  | _ :: turns, _ =>
      have := decidableNonePremature pkg bodies crashed turns
      inferInstanceAs (Decidable (_ ∧ _))

end Belcoin
