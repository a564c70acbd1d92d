import Belcoin.Walk
import Belcoin.Ledger.Effect

/-!
Properties of a ledger that no operation can break, whether it returns or raises.

An operation clears bits, writes new transactions to `db`, changes `pend`, and
adds to the history. A property that survives these four is `Persistent`, and
survives settling, `process_block` and `update_pend`.
-/

namespace Belcoin

open Stateful

variable (pkg : Packages)

/-- A property that survives everything the operations do to a ledger. -/
structure Persistent (J : Ledger → Prop) : Prop where
  clear : ∀ ledger r, J ledger → J { ledger with db := clearBit ledger.db r }
  write : ∀ ledger txn ts, J ledger →
    J { ledger with db := ledger.db.insert (pkg.txid txn) (.new txn ts) }
  pend : ∀ ledger entries, J ledger → J { ledger with pend := entries }
  trace : ∀ ledger events, J ledger → J { ledger with trace := events }

namespace Persistent

open Ledger

variable {pkg} {J : Ledger → Prop}

theorem forM_spend (keeps : Persistent pkg J) (inputs : List Input) :
    Sustains J (inputs.forM spend) := by
  refine Sustains.forM fun inp _ ledger held => ?_
  rcases final_spend inp ledger with unchanged | cleared
  · rw [unchanged]
    exact held
  · rw [cleared]
    exact keeps.clear _ _ held

theorem writeToDb (keeps : Persistent pkg J) (txn : Transaction) (ts : Nat) :
    Sustains J (writeToDb pkg txn ts) :=
  (keeps.forM_spend _).bind fun _ => sustains_modify fun ledger => keeps.write ledger txn ts

theorem log (keeps : Persistent pkg J) (event : Event) : Sustains J (log event) :=
  sustains_modify fun ledger => keeps.trace ledger _

theorem verify (keeps : Persistent pkg J) (txn : Transaction) (checkPend : Bool) :
    Sustains J (verify pkg txn checkPend) := by
  refine Sustains.get_bind fun ledger => ?_
  cases pkg.decideTxn ledger txn checkPend with
  | error e => exact sustains_throw _ e
  | ok decision =>
      cases decision with
      | stored => exact sustains_pure _ _
      | invalid => exact sustains_pure _ _
      | valid check =>
          match checkPend, check with
          | false, _ => exact sustains_pure _ _
          | true, none => exact sustains_pure _ _
          | true, some .unmatched => exact sustains_pure _ _
          | true, some .refused => exact sustains_pure _ _
          | true, some (.replaces tx) =>
              have unpends : Sustains J (unpend pkg tx) :=
                sustains_modify fun ledger => keeps.pend ledger _
              exact unpends.bind fun _ => (keeps.log _).bind fun _ => sustains_pure _ _

/-- **Settling keeps what is persistent.** -/
theorem settle (keeps : Persistent pkg J) (txn : Transaction) : Sustains J (settle pkg txn) := by
  refine Sustains.get_bind fun _ => (keeps.verify txn true).bind fun verified => ?_
  cases verified with
  | false => exact sustains_pure _ _
  | true =>
      refine (keeps.log _).bind fun _ => ?_
      by_cases locked : txn.timelock ≠ 0
      · rw [if_pos locked]
        exact Sustains.bind (sustains_modify fun ledger => keeps.pend ledger _) fun _ =>
          keeps.forM_spend _
      · rw [if_neg locked]
        exact keeps.writeToDb txn _

/-- **So does `update_pend`.** -/
theorem sweep (keeps : Persistent pkg J) : Sustains J (sweep pkg) := by
  refine Sustains.get_bind fun _ => Sustains.forM fun entry _ => Sustains.get_bind fun ledger => ?_
  by_cases passed : entry.2.TimelockPassed ledger.currentTime
  · rw [if_pos passed]
    have unpends : Sustains J (unpend pkg entry.2.txn) :=
      sustains_modify fun ledger => keeps.pend ledger _
    refine unpends.bind fun _ => (keeps.verify _ false).bind fun verified => ?_
    cases verified with
    | false => exact keeps.log _
    | true => exact (keeps.writeToDb _ _).bind fun _ => keeps.log _
  · rw [if_neg passed]
    exact sustains_pure _ _

theorem settleTxn (keeps : Persistent pkg J) (txn : Transaction) :
    Sustains (fun s => J s.toLedger) (pkg.settleTxn txn) := by
  intro s held
  have same : (final (pkg.settleTxn txn s)).toLedger = _ :=
    (settleTxn_lockstep pkg txn).final rfl
  rw [same]
  exact keeps.settle txn _ held

/-- A turn of `process_block`. -/
theorem processTxn (keeps : Persistent pkg J) (txid : Bytes) :
    Sustains (fun s => J s.toLedger) (pkg.processTxn txid) := by
  refine Sustains.get_bind fun s => ?_
  cases s.mempool[txid]? with
  | none => exact sustains_throw _ _
  | some txn => exact (keeps.settleTxn txn).bind fun _ => sustains_modify fun _ held => held

theorem updatePend (keeps : Persistent pkg J) :
    Sustains (fun s => J s.toLedger) pkg.updatePend := by
  intro s held
  have same : (final (pkg.updatePend s)).toLedger = _ := (updatePend_lockstep pkg).final rfl
  rw [same]
  exact keeps.sweep _ held

/-- Every action keeps what is persistent and does not depend on the time. -/
theorem exec (keeps : Persistent pkg J)
    (tick : ∀ ledger time, J ledger → J { ledger with currentTime := time }) (a : Action) :
    Sustains (fun s => J s.toLedger) (pkg.exec a) := by
  intro s held
  refine exec_sustains (I := fun s => J s.toLedger) (fun u v books kept => ?_)
    (fun txid tx => ?_) (fun txid => keeps.processTxn txid) (keeps.updatePend s held) held a
  · have same : v.toLedger = ⟨u.db, u.pend, v.currentTime, u.trace⟩ := by
      rw [← books.db, ← books.pend, ← books.trace]
    rw [same]
    exact tick _ _ kept
  · refine Sustains.get_bind fun u => ?_
    split
    · exact sustains_modify fun u kept => kept
    · exact sustains_pure _ _

end Persistent

/-- Time passes only when a block is taken. -/
theorem time_persistent (now : ℚ≥0) : Persistent pkg fun ledger => ledger.currentTime = now where
  clear _ _ held := held
  write _ _ _ held := held
  pend _ _ held := held
  trace _ _ held := held

/-- Bitmaps go on fitting. -/
theorem fit_persistent : Persistent pkg fun ledger => BitmapsFit ledger.db where
  clear ledger r fit k txnw held := by
    rw [clearBit_getElem?] at held
    obtain ⟨old, held', rfl⟩ := Option.map_eq_some_iff.mp held
    by_cases same : k = r.1
    · simpa [same] using fit k old held'
    · simpa [same] using fit k old held'
  write ledger txn ts fit k txnw held := by
    simp only [Std.ExtTreeMap.getElem?_insert, Std.LawfulEqCmp.compare_eq_iff_eq] at held
    split at held
    · cases held
      simp [TxnWrapper.new]
    · exact fit k txnw held
  pend _ _ fit := fit
  trace _ _ fit := fit

/-- What is stored stays stored. -/
theorem stored_persistent (k : Bytes) : Persistent pkg fun ledger => k ∈ ledger.db where
  clear ledger r held := (@mem_clearBits ledger.db [r] k).mpr held
  write _ _ _ held := Std.ExtTreeMap.mem_insert.mpr (.inr held)
  pend _ _ held := held
  trace _ _ held := held

/-- Stored transactions are kept under their ids. -/
theorem keyed_persistent : Persistent pkg fun ledger =>
    ∀ (k : Bytes) (txnw : TxnWrapper), ledger.db[k]? = some txnw → pkg.txid txnw.txn = k where
  clear ledger r keyed k txnw held := by
    rw [clearBit_getElem?] at held
    obtain ⟨old, held', rfl⟩ := Option.map_eq_some_iff.mp held
    by_cases same : k = r.1
    · simpa [same] using keyed k old held'
    · simpa [same] using keyed k old held'
  write ledger txn ts keyed k txnw held := by
    simp only [Std.ExtTreeMap.getElem?_insert, Std.LawfulEqCmp.compare_eq_iff_eq] at held
    split at held
    · rename_i same
      cases held
      exact same
    · exact keyed k txnw held
  pend _ _ keyed := keyed
  trace _ _ keyed := keyed

variable {setup : Setup}

/-- **The rule for persistent properties**: what holds of the genesis ledger holds of
the ledger of every node, also where operations raised. -/
theorem Setup.node_persistent {J : Ledger → Prop} (keeps : Persistent setup.toPackages J)
    (tick : ∀ ledger time, J ledger → J { ledger with currentTime := time })
    (initial : J setup.fresh.toLedger) {s : Storage} (reached : setup.faultyNode.Reachable s) :
    J s.toLedger := by
  refine reached.invariant (I := fun s => J s.toLedger) ?_ ?_
  · rintro _ rfl
    exact initial
  · rintro s a _ _ held rfl
    exact keeps.exec tick a s held

end Belcoin
