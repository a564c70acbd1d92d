import Belcoin.Ledger.Indexes

/-!
The mempool and its list.

The bodies of waiting transactions are in a database, the order they came in is in a
list in memory. `Storage.Listed` says that the two agree; every operation keeps this
(`listed_steady`, `addMissing_listed`). A restart finds the database as it was and
starts with an empty list (`listed_restart`).
-/

namespace Belcoin

open Stateful

/-- The list holds the ids of the mempool database, each once. -/
structure Storage.Listed (s : Storage) : Prop where
  nodup : s.mempoolList.Nodup
  mem_iff : ∀ k, k ∈ s.mempoolList ↔ k ∈ s.mempool

/-- What leaves the database leaves the list. -/
theorem listed_steady : Steady Storage.Listed where
  ledger _ _ listed := ⟨listed.nodup, listed.mem_iff⟩
  pubOuts _ _ listed := ⟨listed.nodup, listed.mem_iff⟩
  pubOutsPend _ _ listed := ⟨listed.nodup, listed.mem_iff⟩
  invalidTxns _ _ listed := ⟨listed.nodup, listed.mem_iff⟩
  removal s txid listed := by
    refine ⟨listed.nodup.erase txid, fun k => ?_⟩
    rw [listed.nodup.mem_erase_iff, listed.mem_iff, Std.ExtTreeMap.mem_erase]
    refine and_congr_left fun _ => not_congr ?_
    exact eq_comm.trans Std.LawfulEqCmp.compare_eq_iff_eq.symm

variable (pkg : Packages)

/-- A transaction that arrives under its own id enters both or neither. -/
theorem addMissing_listed {txid : Bytes} {tx : Transaction} (own : pkg.txid tx = txid) :
    Sustains Storage.Listed (pkg.addMissing txid tx) := by
  intro s listed
  rcases addMissing_cases pkg txid tx s with ⟨-, run⟩ | ⟨absent, run⟩
  · rw [run]
    exact listed
  · rw [run]
    have notListed : txid ∉ s.mempoolList := fun mem => absent ((listed.mem_iff txid).mp mem)
    refine ⟨?_, fun k => ?_⟩
    · refine List.nodup_append.mpr ⟨listed.nodup, List.nodup_singleton _, fun k mem k' mem' same => ?_⟩
      rw [List.mem_singleton.mp mem', own] at same
      exact notListed (same ▸ mem)
    · change k ∈ s.mempoolList ++ [pkg.txid tx] ↔ k ∈ s.mempool.insert (pkg.txid tx) tx
      rw [List.mem_append, List.mem_singleton, listed.mem_iff, Std.ExtTreeMap.mem_insert,
        Std.LawfulEqCmp.compare_eq_iff_eq, or_comm]
      exact or_congr_left eq_comm

/-- A peer that answers a request with a transaction answers with the one that was
requested. -/
def Packages.Genuine (s : Storage) (a : Action) : Prop :=
  ∀ n tx entry, a = .answer n (.transaction tx) → s.requests[n]? = some entry →
    pkg.txid tx = entry.1

variable {setup : Setup}

theorem Setup.exec_listed {s : Storage} {a : Action} (genuine : setup.Genuine s a)
    (listed : s.Listed) : (final (setup.exec a s)).Listed := by
  refine exec_sustains_arriving (fun u v books kept => ?_) (fun txid tx => addMissing_listed _)
    (fun txid => listed_steady.processTxn _ txid)
    (listed_steady.updatePend setup.toPackages s listed) listed (fun _ _ => rfl) genuine
  exact ⟨books.mempoolList ▸ kept.nodup, by rw [books.mempoolList, books.mempool]; exact kept.mem_iff⟩

/-! ### Restarts -/

/-- What can happen in the life of a node. -/
inductive Happens where
  | act (a : Action)
  /-- The process is stopped, and `Storage` constructed over the databases. -/
  | restart

/-- The life of a node, restarts included. -/
def Setup.life (setup : Setup) : Machine Storage Happens where
  start s := s = setup.fresh
  step s event t := match event with
    | .act a => final (setup.exec a s) = t
    | .restart => t = setup.restart s

/-- After a restart the list is empty, so it agrees with an empty database only. -/
theorem listed_restart (s : Storage) : (setup.restart s).Listed ↔ ∀ k, k ∉ s.mempool := by
  constructor
  · intro listed k mem
    have named : k ∈ ([] : List Bytes) := (listed.mem_iff k).mpr mem
    cases named
  · intro empty
    exact ⟨List.nodup_nil, fun k => ⟨nofun, fun mem => absurd mem (empty k)⟩⟩

/-- Answers are genuine, and a restart finds an empty mempool database. -/
def Setup.RestartsEmpty (setup : Setup) (s : Storage) : Happens → Prop
  | .act a => setup.Genuine s a
  | .restart => ∀ k, k ∉ s.mempool

/-- **The mempool list and the mempool database agree** in every life of a node whose
restarts find an empty mempool, and after no other restart. -/
theorem Setup.life_mempool {s : Storage}
    (reached : (setup.life.restrict setup.RestartsEmpty).Reachable s) :
    (s.mempoolList.Nodup ∧ ∀ k, k ∈ s.mempoolList ↔ k ∈ s.mempool) ∧
      (((setup.restart s).mempoolList.Nodup ∧
          ∀ k, k ∈ (setup.restart s).mempoolList ↔ k ∈ (setup.restart s).mempool) ↔
        ∀ k, k ∉ s.mempool) := by
  have listed : s.Listed := by
    refine reached.invariant (I := Storage.Listed) ?_ ?_
    · rintro _ rfl
      refine ⟨List.nodup_nil, fun k => ⟨nofun, fun mem => ?_⟩⟩
      simp [Setup.fresh, Setup.construct] at mem
    · rintro s event t _ listed ⟨allowed, step⟩
      cases event with
      | act a =>
          cases step
          exact exec_listed allowed listed
      | restart =>
          cases step
          exact (listed_restart s).mpr allowed
  refine ⟨⟨listed.nodup, listed.mem_iff⟩, ?_⟩
  refine Iff.trans ?_ (@listed_restart setup s)
  exact ⟨fun agree => ⟨agree.1, agree.2⟩, fun listed => ⟨listed.nodup, listed.mem_iff⟩⟩

/-- A payment submitted after a restart. -/
def lateSubmission : Storage :=
  final (Ideal.small.exec (.puttxn (Ideal.pay (Ideal.packages.txid Ideal.genesis) 0 0 0))
    (Ideal.small.restart Ideal.small.fresh))

theorem life_mempool_submission :
    lateSubmission.mempoolList.Nodup ∧
      ∀ k, k ∈ lateSubmission.mempoolList ↔ k ∈ lateSubmission.mempool := by
  have restarted : (Ideal.small.life.restrict Ideal.small.RestartsEmpty).Reachable
      (Ideal.small.restart Ideal.small.fresh) := by
    refine .step (a := .restart) (.start rfl) ⟨fun k mem => ?_, rfl⟩
    simp [Setup.fresh, Setup.construct] at mem
  refine (Setup.life_mempool (restarted.step (a := .act (.puttxn _)) ⟨?_, rfl⟩)).1
  intro n tx entry answers
  cases answers

/-- **A mempool without a list.** After a restart the database still holds a
transaction that the list no longer names. -/
theorem list_lost :
    ¬ ∀ s, (Ideal.small.life.restrict fun s event =>
        ∀ a, event = .act a → Ideal.small.Genuine s a).Reachable s →
      s.mempoolList.Nodup ∧ ∀ k, k ∈ s.mempoolList ↔ k ∈ s.mempool := by
  intro claim
  let pay := Ideal.pay (Ideal.packages.txid Ideal.genesis) 0 0 0
  have submitted : (Ideal.small.life.restrict fun s event =>
      ∀ a, event = .act a → Ideal.small.Genuine s a).Reachable
        (final (Ideal.small.exec (.puttxn pay) Ideal.small.fresh)) := by
    refine .step (a := .act (.puttxn pay)) (.start rfl) ⟨?_, rfl⟩
    rintro _ ⟨⟩ n tx entry ⟨⟩
  obtain ⟨-, agree⟩ := claim _ (submitted.step (a := .restart) ⟨nofun, rfl⟩)
  have held : Ideal.small.txid pay ∈ (Ideal.small.restart
      (final (Ideal.small.exec (.puttxn pay) Ideal.small.fresh))).mempool := by decide +kernel
  have listed := (agree _).mpr held
  cases listed

end Belcoin
