import Belcoin.Mempool

/-!
What holds all through the life of a node, restarts included.

A restart finds the databases as they were, so what is persistent stays
(`life_persistent`), and it builds the indexes anew, so they still list only what the
databases hold (`life_lists`).
-/

namespace Belcoin

open Stateful

variable {setup : Setup}

/-- The node at another time. -/
def Storage.atTime (s : Storage) (now : ℚ≥0) : Storage := { s with currentTime := now }

/-- A run without a restart is a life. -/
theorem Setup.life_of_faulty {s : Storage} (reached : setup.faultyNode.Reachable s) :
    setup.life.Reachable s := by
  induction reached with
  | start fresh => exact .start fresh
  | @step s t a before runs ih => exact .step (a := .act a) ih runs

/-- The genesis transactions stay stored, so a restart leaves the databases alone. -/
theorem Setup.life_books {s : Storage} (reached : setup.life.Reachable s) :
    (setup.restart s).db = s.db ∧ (setup.restart s).pend = s.pend := by
  have stored : ∀ gentxn ∈ setup.coinbase, setup.txid gentxn ∈ s.db := by
    refine reached.invariant (I := fun s => ∀ gentxn ∈ setup.coinbase, setup.txid gentxn ∈ s.db)
      ?_ ?_
    · rintro _ rfl gentxn genesis
      exact mem_genesis (.inl genesis)
    · intro s event t _ stored step
      cases event with
      | act a =>
          cases step
          intro gentxn genesis
          exact (stored_persistent setup.toPackages (setup.txid gentxn)).exec
            (fun _ _ held => held) a s (stored gentxn genesis)
      | restart =>
          cases step
          rw [restart, construct, genesis_stored stored]
          exact stored
  refine ⟨?_, rfl⟩
  rw [restart, construct, genesis_stored stored]

/-- **The rule for persistent properties**, restarts included. -/
theorem Setup.life_persistent {J : Ledger → Prop} (keeps : Persistent setup.toPackages J)
    (tick : ∀ ledger time, J ledger → J { ledger with currentTime := time })
    (initial : J setup.fresh.toLedger) {s : Storage} (reached : setup.life.Reachable s) :
    J s.toLedger := by
  refine reached.invariant (I := fun s => J s.toLedger) ?_ ?_
  · rintro _ rfl
    exact initial
  · intro s event t before held step
    cases event with
    | act a =>
        cases step
        exact keeps.exec tick a s held
    | restart =>
        cases step
        obtain ⟨db, -⟩ := life_books before
        have same : (setup.restart s).toLedger = ⟨s.db, s.pend, 0, []⟩ := by
          rw [← db]
          rfl
        rw [same]
        exact keeps.trace _ [] (tick _ 0 held)

/-- Entries of `db` are kept under their ids, and their bitmaps fit. -/
theorem Setup.life_entries {s : Storage} (reached : setup.life.Reachable s) :
    (∀ (k : Bytes) (txnw : TxnWrapper), s.db[k]? = some txnw → setup.txid txnw.txn = k) ∧
      BitmapsFit s.db := by
  constructor
  · exact setup.life_persistent (keyed_persistent setup.toPackages) (fun _ _ held => held)
      setup.fresh_sound.dbKeyed reached
  · exact setup.life_persistent (fit_persistent setup.toPackages) (fun _ _ held => held)
      setup.fresh_sound.fit reached

/-- **Indexes list what is there**, also after a restart. -/
theorem Setup.life_lists (free : setup.CollisionFree) {s : Storage}
    (reached : setup.life.Reachable s) : s.Lists setup.toPackages := by
  refine reached.invariant (I := fun s => s.Lists setup.toPackages) ?_ ?_
  · rintro _ rfl
    exact setup.fresh_mirrors.lists
  · intro s event t before lists step
    cases event with
    | act a =>
        cases step
        exact (Storage.Lists.tracked free).exec a s lists
    | restart =>
        cases step
        obtain ⟨db, -⟩ := life_books before
        obtain ⟨keyed, -⟩ := life_entries before
        refine ⟨fun p r mem => ?_, fun p r => ?_, ?_, ?_, ?_⟩
        · exact (mem_rebuilt setup.toPackages (db ▸ keyed)).mp mem
        · exact mem_rebuilt setup.toPackages lists.pendKeyed
        · exact lists.pendKeyed
        · exact lists.pendLocked
        · rw [db]
          exact lists.apart

end Belcoin
