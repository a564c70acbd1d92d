import Belcoin.Ledger.Moves
import Belcoin.Step

/-!
The node refines the ledger machine.

`perform_moves` says that every operation of a node that returns is a run of the
ledger machine, and that its moves are the ones `Packages.Allows` names: expiries
of due entries on a delivery and in `update_pend`, the time of the block that
`try_process` takes, and transactions that `process_block` examines.
`node_invariant` is the rule that follows for invariants of the ledger.
-/

namespace Belcoin

open Stateful

/-! ### What an operation may do to the ledger -/

section Allows

variable (pkg : Packages)

/-- The action enters `process_block`, and the mempool holds `txn` then under an id of the
block. -/
def Packages.Examines (s : Storage) (a : Action) (txn : Transaction) : Prop :=
  ∃ block u, pkg.Enters s a block u ∧ ∃ txid ∈ block, u.mempool[txid]? = some txn

/-- What holds of all transactions examined can be checked on the mempool. -/
theorem forall_examines {s : Storage} {a : Action} {P : Transaction → Prop} :
    (∀ txn, pkg.Examines s a txn → P txn) ↔
      ∀ entry ∈ pkg.entry s a, ∀ txid ∈ entry.1, ∀ txn ∈ entry.2.mempool[txid]?, P txn := by
  constructor
  · rintro all ⟨block, u⟩ entered txid mem txn held
    exact all txn ⟨block, u, (entry_iff pkg).mp entered, txid, mem, held⟩
  · rintro all txn ⟨block, u, enters, txid, mem, held⟩
    exact all (block, u) ((entry_iff pkg).mpr enters) txid mem txn held

/-- The moves an action may make. -/
inductive Packages.Allows (s : Storage) : Action → Move → Prop where
  | examined {a : Action} {txn : Transaction} : pkg.Examines s a txn → Allows s a (.settle txn)
  | taken {block : Block} {rest : List Block} : s.blockQueue = block :: rest →
      Allows s .tryProcess (.tick block.time)
  | delivered {block : Block} {txnw : TxnWrapper} : s.toLedger.Due txnw →
      Allows s (.deliver block) (.expire txnw)
  | swept {txnw : TxnWrapper} : s.toLedger.Due txnw → Allows s .updatePend (.expire txnw)

end Allows

/-! ### The refinement -/

theorem Within.steady (named : Bytes → Prop) (N : Transaction → Prop) :
    Steady (Within named N) where
  ledger _ _ within := ⟨within.bodies, within.current⟩
  pubOuts _ _ within := ⟨within.bodies, within.current⟩
  pubOutsPend _ _ within := ⟨within.bodies, within.current⟩
  invalidTxns _ _ within := ⟨within.bodies, within.current⟩
  removal _ _ within :=
    ⟨fun k mem txn held => within.bodies k mem txn (getElem?_of_erase held), within.current⟩

variable {setup : Setup} {named : Bytes → Prop} {N : Transaction → Prop} {P : Move → Prop}

/-- Keeping `Within` and making a run of moves that meet `P` is a logic. -/
theorem Setup.moves_logic (named : Bytes → Prop) (examined : ∀ txn, N txn → P (.settle txn)) :
    Logic setup.toPackages named N (fun _ => N) fun op =>
      Returns (Within named N) (fun s t => setup.Moves P s.toLedger t.toLedger) op where
  pure a := returns_pure (fun _ => .refl _) a
  throw e := returns_throw e
  bind first rest := Returns.bind (fun _ _ _ => .trans) first rest
  get rest := Returns.get_bind rest
  control sameLedger sameBooks sameBlock _ := returns_modify fun s within =>
    ⟨within.control (sameBooks s).mempool (sameBlock s), by rw [sameLedger]; exact .refl _⟩
  addMissing txid tx arrived := by
    refine Returns.get_bind fun s _ => ?_
    split
    · refine returns_modify fun u within => ⟨⟨fun k mem txn held => ?_, within.current⟩, .refl _⟩
      simp only [Std.ExtTreeMap.getElem?_insert, Std.LawfulEqCmp.compare_eq_iff_eq] at held
      split at held
      · cases held
        exact arrived
      · exact within.bodies k mem txn held
    · exact returns_pure (fun _ => .refl _) _
  processTxn txid mem := by
    refine Returns.get_bind fun s within => ?_
    cases held : s.mempool[txid]? with
    | none => exact returns_throw _
    | some txn =>
        refine Returns.bind (fun _ _ _ => .trans) ?_ fun _ => returns_modify fun u kept =>
          ⟨(Within.steady named N).removal u txid kept, .refl _⟩
        intro u _ v within' run
        have kept := (Within.steady named N).settleTxn setup.toPackages txn u within'
        rw [run] at kept
        obtain ⟨ledger', run', rfl⟩ :=
          (settleTxn_lockstep setup.toPackages txn).ok_left rfl run
        exact ⟨kept, .one (examined txn (within.bodies txid mem txn held)) run'⟩

/-- `update_pend` is a run of expiries of due entries. -/
theorem Setup.updatePend_moves {s t : Storage} {u : Unit}
    (sound : s.toLedger.Sound setup.toPackages) (run : setup.updatePend s = .ok u t) :
    setup.Moves (fun move => ∃ txnw, move = .expire txnw ∧ s.toLedger.Due txnw)
      s.toLedger t.toLedger := by
  obtain ⟨ledger', run', rfl⟩ := (updatePend_lockstep setup.toPackages).ok_left rfl run
  exact (setup.sweep_moves sound run').1

/-- `process_block` settles transactions that the mempool held under ids of the block. -/
theorem Setup.processBlock_moves {s t : Storage} {a : Action} {block : List Bytes}
    {u : Storage} (enters : setup.Enters s a block u)
    (run : setup.processBlock block u = .ok () t) :
    setup.Moves (setup.Allows s a) u.toLedger t.toLedger := by
  have within : Within (· ∈ block) (setup.Examines s a) u := by
    refine ⟨fun txid mem txn held => ⟨block, u, enters, txid, mem, held⟩, ?_⟩
    cases enters with
    | taken => exact fun _ => id
    | @completed n reply entry =>
        have same : (setup.answered s n entry.1 reply).currentBlock = s.currentBlock :=
          congrArg Control.currentBlock (answered_control setup.toPackages s n entry.1 reply)
        rw [same]
        exact fun _ => id
  have logic := setup.moves_logic (P := setup.Allows s a) (· ∈ block) fun _ => Packages.Allows.examined
  exact (logic.processBlock (fun _ => id) _ _ _ within run).2

/-- **The node refines the ledger machine.** -/
theorem Setup.perform_moves {s t : Storage} {a : Action}
    (sound : s.toLedger.Sound setup.toPackages) (run : setup.perform a s = .ok () t) :
    setup.Moves (setup.Allows s a) s.toLedger t.toLedger := by
  rcases exec_cases setup.toPackages s a with ⟨block, u, enters, goes⟩ | quiet
  · rw [goes.1] at run
    have settles := setup.processBlock_moves enters run
    cases enters with
    | @taken head rest _ queue =>
        have ticks : setup.ledger.step s.toLedger (.tick head.time) (s.take head).toLedger := rfl
        exact (Moves.one (.taken queue) ticks).trans settles
    | completed => rwa [answered_ledger] at settles
  · rw [Packages.exec_of_perform run, final_ok] at quiet
    cases quiet with
    | waits => exact .refl _
    | backsOff idle queue => exact .one (.taken queue) rfl
    | asks idle queue => exact .one (.taken queue) rfl
    | delivered =>
        obtain ⟨_, middle, sweeps, queues⟩ := bind_ok.mp run
        rw [← (EStateM.Result.ok.inj queues).2]
        refine (setup.updatePend_moves sound sweeps).mono ?_
        rintro move ⟨txnw, rfl, due⟩
        exact .delivered due
    | swept =>
        refine (setup.updatePend_moves sound run).mono ?_
        rintro move ⟨txnw, rfl, due⟩
        exact .swept due
    | @submitted tx => exact (addMissing_ledger setup.toPackages _ tx s).symm ▸ .refl _
    | ended => exact .refl _
    | received => exact (answered_ledger setup.toPackages s _ _ _).symm ▸ .refl _
    | again => exact .refl _
    | found => exact .refl _

/-- The ledger of a node is one the ledger machine reaches. -/
theorem Setup.node_ledger {s : Storage} (reached : setup.node.Reachable s) :
    setup.ledger.Reachable s.toLedger := by
  refine reached.invariant (I := fun s => setup.ledger.Reachable s.toLedger) ?_ ?_
  · rintro _ rfl
    exact .start rfl
  · intro s a t _ reached' run
    obtain ⟨moves, run', -⟩ := setup.perform_moves (sound_of_reachable reached') run
    exact reached'.run run'

/-- **Invariants of the ledger of a node**, over the runs whose steps meet `C`:
what every allowed move keeps holds in every state. The moves of a step start from
the ledger of the state before it. -/
theorem Setup.node_invariant {C : Storage → Action → Prop} {I : Ledger → Prop}
    (initial : I setup.fresh.toLedger)
    (kept : ∀ s a move ledger ledger', C s a → setup.Moves (setup.Allows s a) s.toLedger ledger →
      setup.Allows s a move → setup.ledger.Reachable ledger → I ledger →
      setup.toPackages.Effect ledger move ledger' → I ledger')
    {s : Storage} (reached : (setup.node.restrict C).Reachable s) : I s.toLedger := by
  refine reached.invariant (I := fun s => I s.toLedger) ?_ ?_
  · rintro _ rfl
    exact initial
  · rintro s a t before held ⟨meets, run⟩
    have reached' := setup.node_ledger before.of_restrict
    obtain ⟨moves, run', allowed⟩ := setup.perform_moves (sound_of_reachable reached') run
    have both := run'.preserves (P := setup.Allows s a)
      (I := fun ledger => I ledger ∧ setup.Moves (setup.Allows s a) s.toLedger ledger) ?_ allowed
      reached' ⟨held, .refl _⟩
    · exact both.1
    · rintro ledger move ledger' reached'' ⟨held', so_far⟩ allow step
      exact ⟨kept s a move ledger ledger' meets so_far allow reached'' held'
        (setup.effect_of_step step), so_far.trans (.one allow step)⟩

end Belcoin
