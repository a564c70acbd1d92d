import Mathlib.Data.Finset.Sort
import Belcoin.Life
import Belcoin.Lib.Traverse

/-!
What the two wallet interfaces report.

`utxos_for_pubkey` serves JSON-RPC and `utxos_for_pubkey_grpc` gRPC. The second is a
copy that looks pending transactions up in `pend`; the first looks them up in `db`,
where they are not. `life_wallets` says for which keys the two agree.
-/

namespace Belcoin

open Traverse

/-- The order in which Python iterates over a set of outputs. -/
structure SetOrder where
  list : Finset Ref → List Ref
  nodup : ∀ outs, (list outs).Nodup
  mem_list : ∀ outs r, r ∈ list outs ↔ r ∈ outs

/-- `for out in index[pubkey]`, and no output where the key is missing. -/
def Index.refs (index : Index) (order : SetOrder) (pubkey : Bytes) : List Ref :=
  match index[pubkey]? with
  | none => []
  | some outs => order.list outs

/-- `self[key]` and `self.pend[key]`, which change nothing. -/
def lookup (db : Store TxnWrapper) (key : Bytes) : Except PyError TxnWrapper :=
  match db[key]? with
  | none => .error .keyError
  | some txnw => .ok txnw

/-- An entry `[txid, i, ts]` of `utxos_for_pubkey`. -/
structure Utxo where
  ref : Ref
  ts : ℚ≥0

/-- An entry `[txid, i, output, ts]` of `utxos_for_pubkey_grpc`. -/
structure UtxoGrpc where
  ref : Ref
  output : Output
  ts : Nat

/-- The loop body of `utxos_for_pubkey`. -/
def utxo (db : Store TxnWrapper) (r : Ref) : Except PyError Utxo := do
  let txnw ← lookup db r.1
  pure ⟨r, txnw.timestamp / timeMultiplier⟩

/-- The loop body of `utxos_for_pubkey_grpc`. -/
def utxoGrpc (db : Store TxnWrapper) (r : Ref) : Except PyError UtxoGrpc := do
  let txnw ← lookup db r.1
  match txnw.txn.outputs[r.2]? with
  | none => throw .indexError
  | some o => pure ⟨r, o, txnw.timestamp⟩

namespace Storage

/-- `utxos_for_pubkey`: both loops look into `db`. -/
def utxosForPubkey (s : Storage) (order : SetOrder) (pubkey : Bytes) :
    Except PyError (List Utxo) := do
  let utxos ← (s.pubOuts.refs order pubkey).mapM (utxo s.db)
  let pending ← (s.pubOutsPend.refs order pubkey).mapM (utxo s.db)
  pure (utxos ++ pending)

/-- `utxos_for_pubkey_grpc`. -/
def utxosForPubkeyGrpc (s : Storage) (order : SetOrder) (pubkey : Bytes) :
    Except PyError (List UtxoGrpc) := do
  let utxos ← (s.pubOuts.refs order pubkey).mapM (utxoGrpc s.db)
  let pending ← (s.pubOutsPend.refs order pubkey).mapM (utxoGrpc s.pend)
  pure (utxos ++ pending)

/-- The two reports of a key are about the same outputs, each listed once, and give
them the same times. -/
structure WalletsAgree (s : Storage) (order : SetOrder) (pubkey : Bytes) (utxos : List Utxo)
    (utxosGrpc : List UtxoGrpc) : Prop where
  json : s.utxosForPubkey order pubkey = .ok utxos
  grpc : s.utxosForPubkeyGrpc order pubkey = .ok utxosGrpc
  nodup : (utxos.map Utxo.ref).Nodup
  nodupGrpc : (utxosGrpc.map UtxoGrpc.ref).Nodup
  covers : ∀ r, r ∈ utxos.map Utxo.ref ↔
    r ∈ s.pubOuts.outs pubkey ∨ r ∈ s.pubOutsPend.outs pubkey
  coversGrpc : ∀ r, r ∈ utxosGrpc.map UtxoGrpc.ref ↔
    r ∈ s.pubOuts.outs pubkey ∨ r ∈ s.pubOutsPend.outs pubkey
  timestamps : ∀ u ∈ utxos, ∀ v ∈ utxosGrpc, u.ref = v.ref → u.ts = v.ts / timeMultiplier

end Storage

/-! ### The loops -/

theorem Index.mem_refs {index : Index} {order : SetOrder} {pubkey : Bytes} {r : Ref} :
    r ∈ index.refs order pubkey ↔ r ∈ index.outs pubkey := by
  unfold Index.refs Index.outs
  cases index[pubkey]? with
  | none => simp
  | some outs => exact order.mem_list outs r

theorem Index.nodup_refs (index : Index) (order : SetOrder) (pubkey : Bytes) :
    (index.refs order pubkey).Nodup := by
  unfold Index.refs
  cases index[pubkey]? with
  | none => exact List.nodup_nil
  | some outs => exact order.nodup outs

theorem utxo_ok {db : Store TxnWrapper} {r : Ref} {u : Utxo} :
    utxo db r = .ok u ↔
      ∃ txnw, db[r.1]? = some txnw ∧ u = ⟨r, txnw.timestamp / timeMultiplier⟩ := by
  rw [utxo, bind_ok, lookup]
  cases db[r.1]? with
  | none => simp
  | some txnw => simp [pure, Except.pure, eq_comm]

theorem utxoGrpc_ok {db : Store TxnWrapper} {r : Ref} {v : UtxoGrpc} :
    utxoGrpc db r = .ok v ↔ ∃ txnw o, db[r.1]? = some txnw ∧ txnw.txn.outputs[r.2]? = some o ∧
      v = ⟨r, o, txnw.timestamp⟩ := by
  rw [utxoGrpc, bind_ok, lookup]
  cases db[r.1]? with
  | none => simp
  | some txnw =>
      simp only [Except.ok.injEq, exists_eq_left', Option.some.injEq]
      cases out : txnw.txn.outputs[r.2]? with
      | none => simp [out, throw, throwThe, MonadExceptOf.throw]
      | some o => simp [out, pure, Except.pure, eq_comm]

theorem utxo_ref (db : Store TxnWrapper) (r : Ref) (u : Utxo) (reported : utxo db r = .ok u) :
    u.ref = r := by
  obtain ⟨txnw, -, rfl⟩ := utxo_ok.mp reported
  rfl

theorem utxoGrpc_ref (db : Store TxnWrapper) (r : Ref) (v : UtxoGrpc)
    (reported : utxoGrpc db r = .ok v) : v.ref = r := by
  obtain ⟨txnw, o, -, -, rfl⟩ := utxoGrpc_ok.mp reported
  rfl

variable {pkg : Packages} {s : Storage} {order : SetOrder} {pubkey : Bytes}

/-- The two loops over `pub_outs` return. -/
theorem utxos_listed (lists : s.Lists pkg) :
    (∃ utxos, (s.pubOuts.refs order pubkey).mapM (utxo s.db) = .ok utxos) ∧
      ∃ utxosGrpc, (s.pubOuts.refs order pubkey).mapM (utxoGrpc s.db) = .ok utxosGrpc := by
  refine ⟨mapM_total fun r mem => ?_, mapM_total fun r mem => ?_⟩
  · obtain ⟨txnw, held, -⟩ := lists.outs pubkey r (Index.mem_refs.mp mem)
    exact ⟨_, utxo_ok.mpr ⟨txnw, held, rfl⟩⟩
  · obtain ⟨txnw, held, o, out, -⟩ := lists.outs pubkey r (Index.mem_refs.mp mem)
    exact ⟨_, utxoGrpc_ok.mpr ⟨txnw, o, held, out, rfl⟩⟩

/-- `utxos_for_pubkey` raises on the first pending output it comes to. -/
theorem utxos_pending (lists : s.Lists pkg) {r : Ref} (pending : r ∈ s.pubOutsPend.outs pubkey)
    (utxos : List Utxo) : s.utxosForPubkey order pubkey ≠ .ok utxos := by
  intro reported
  obtain ⟨_, -, rest⟩ := bind_ok.mp reported
  obtain ⟨_, loop, -⟩ := bind_ok.mp rest
  obtain ⟨u, returned⟩ := mapM_step loop (Index.mem_refs.mpr pending)
  obtain ⟨txnw, stored, -⟩ := utxo_ok.mp returned
  obtain ⟨w, held, -⟩ := (lists.pendOuts pubkey r).mp pending
  have mem : ∀ {db : Store TxnWrapper} {w : TxnWrapper}, db[r.1]? = some w → r.1 ∈ db :=
    fun found => Std.ExtTreeMap.mem_iff_isSome_getElem?.mpr (by simp [found])
  exact lists.apart r.1 (mem stored) (mem held)

/-- Without pending outputs the two reports are made from the same entries of `db`. -/
theorem Storage.wallets_agree (lists : s.Lists pkg) (empty : s.pubOutsPend.outs pubkey = ∅) :
    ∃ utxos utxosGrpc, s.WalletsAgree order pubkey utxos utxosGrpc := by
  obtain ⟨⟨utxos, json⟩, utxosGrpc, grpc⟩ := @utxos_listed pkg s order pubkey lists
  have none : s.pubOutsPend.refs order pubkey = [] := by
    refine List.eq_nil_iff_forall_not_mem.mpr fun r mem => ?_
    have pending := Index.mem_refs.mp mem
    simp [empty] at pending
  have names : utxos.map Utxo.ref = s.pubOuts.refs order pubkey :=
    map_of_mapM (utxo_ref s.db) json
  have namesGrpc : utxosGrpc.map UtxoGrpc.ref = s.pubOuts.refs order pubkey :=
    map_of_mapM (utxoGrpc_ref s.db) grpc
  refine ⟨utxos, utxosGrpc, ?_, ?_, ?_, ?_, ?_, ?_, ?_⟩
  · rw [utxosForPubkey, json, none]
    exact congrArg Except.ok (List.append_nil utxos)
  · rw [utxosForPubkeyGrpc, grpc, none]
    exact congrArg Except.ok (List.append_nil utxosGrpc)
  · rw [names]
    exact Index.nodup_refs _ _ _
  · rw [namesGrpc]
    exact Index.nodup_refs _ _ _
  · intro r
    rw [names, Index.mem_refs, empty]
    simp
  · intro r
    rw [namesGrpc, Index.mem_refs, empty]
    simp
  · intro u mem v mem' same
    obtain ⟨r, -, returned⟩ := mem_of_mapM json mem
    obtain ⟨r', -, returned'⟩ := mem_of_mapM grpc mem'
    obtain ⟨txnw, held, rfl⟩ := utxo_ok.mp returned
    obtain ⟨txnw', o, held', -, rfl⟩ := utxoGrpc_ok.mp returned'
    cases same
    cases held.symm.trans held'
    rfl

/-- **When the wallets agree.** In every state of a node's life, restarts included, the
two interfaces report the same outputs of a key, exactly when no output of a pending
transaction belongs to it. -/
theorem Setup.life_wallets {setup : Setup} (free : setup.CollisionFree) {s : Storage}
    (reached : setup.life.Reachable s) (order : SetOrder) (pubkey : Bytes) :
    (∃ utxos utxosGrpc, s.WalletsAgree order pubkey utxos utxosGrpc) ↔
      ∀ (k : Bytes) (txnw : TxnWrapper), s.pend[k]? = some txnw → ∀ o ∈ txnw.txn.outputs,
        pubkey ∉ setup.getPubkeys o := by
  have lists := life_lists free reached
  constructor
  · rintro ⟨utxos, utxosGrpc, agree⟩ k txnw held o mem owner
    obtain ⟨i, inside, out⟩ := List.mem_iff_getElem.mp mem
    have pending : (k, i) ∈ s.pubOutsPend.outs pubkey := by
      refine (lists.pendOuts pubkey (k, i)).mpr ⟨txnw, held, o, ?_, owner⟩
      rw [List.getElem?_eq_getElem inside, out]
    exact utxos_pending lists pending utxos agree.json
  · intro keyless
    refine Storage.wallets_agree lists (Finset.eq_empty_iff_forall_notMem.mpr fun r mem => ?_)
    obtain ⟨txnw, held, o, out, owner⟩ := (lists.pendOuts pubkey r).mp mem
    exact keyless r.1 txnw held o (List.mem_of_getElem? out) owner

/-! ### One such order -/

/-- References by txid, and by index under one txid. -/
def Ref.ordering : Ref → Ref → Ordering := compareLex (compareOn Prod.fst) (compareOn Prod.snd)

instance : Std.TransCmp Ref.ordering := inferInstanceAs (Std.TransCmp (compareLex _ _))

/-- `r` comes no later than `r'`. -/
abbrev Ref.Before (r r' : Ref) : Prop := (Ref.ordering r r').isLE = true

theorem Ref.eq_of_order {r r' : Ref} (same : Ref.ordering r r' = .eq) : r = r' := by
  obtain ⟨txids, indices⟩ := Ordering.then_eq_eq.mp same
  exact Prod.ext (Std.LawfulEqCmp.compare_eq_iff_eq.mp txids)
    (Std.LawfulEqCmp.compare_eq_iff_eq.mp indices)

theorem Ref.before_total (r r' : Ref) : Ref.Before r r' ∨ Ref.Before r' r := by
  rw [Ref.Before, Ref.Before, @Std.OrientedCmp.eq_swap _ Ref.ordering _ r' r]
  cases Ref.ordering r r' <;> simp

theorem Ref.before_antisymm (r r' : Ref) (before : Ref.Before r r') (after : Ref.Before r' r) :
    r = r' := by
  refine Ref.eq_of_order ?_
  rw [Ref.Before, @Std.OrientedCmp.eq_swap _ Ref.ordering _ r' r] at after
  rw [Ref.Before] at before
  cases same : Ref.ordering r r' with
  | eq => rfl
  | lt => simp [same] at after
  | gt => simp [same] at before

instance : IsTrans Ref Ref.Before := ⟨fun _ _ _ => Std.TransCmp.isLE_trans⟩

instance : Std.Total Ref.Before := ⟨Ref.before_total⟩

instance : Std.Antisymm Ref.Before := ⟨Ref.before_antisymm⟩

/-- Increasing references. -/
def SetOrder.increasing : SetOrder where
  list outs := outs.sort Ref.Before
  nodup outs := outs.sort_nodup Ref.Before
  mem_list _ _ := Finset.mem_sort Ref.Before

/-- One output is spent, one is reserved for another key, and the payment's is left. -/
theorem life_wallets_gift :
    Ideal.packages.txid gift ∈ (Ideal.small.after giftRun).pend ∧
      (Ideal.small.after giftRun).pubOuts.outs [7] = {(Ideal.packages.txid directPayment, 0)} ∧
      ∃ utxos utxosGrpc,
        (Ideal.small.after giftRun).WalletsAgree .increasing [7] utxos utxosGrpc := by
  refine ⟨by decide +kernel, by decide +kernel, (@Setup.life_wallets Ideal.small
    Ideal.ideal_collisionFree _ (Setup.life_of_faulty (Setup.faulty_of_node
      (Ideal.small.reachable_after giftRun))) .increasing [7]).mpr ?_⟩
  intro k txnw held o mem
  have keyless : (Ideal.small.after giftRun).pend.toList.all (fun entry =>
      entry.2.txn.outputs.all fun o => decide ([7] ∉ Ideal.packages.getPubkeys o)) = true := by
    decide +kernel
  have outputs := List.all_eq_true.mp keyless (k, txnw)
    (Std.ExtTreeMap.mem_toList_iff_getElem?_eq_some.mpr held)
  exact of_decide_eq_true (List.all_eq_true.mp outputs o mem)

/-- **A pending output.** The JSON-RPC interface raises for its owner. -/
theorem wallets_differ :
    ¬ ∀ s, Ideal.small.life.Reachable s → ∀ (order : SetOrder) (pubkey : Bytes),
      ∃ utxos utxosGrpc, s.WalletsAgree order pubkey utxos utxosGrpc := by
  intro claim
  have reached : Ideal.small.life.Reachable (Ideal.small.after (lockedRun.take 3)) :=
    Setup.life_of_faulty (Setup.faulty_of_node (Ideal.small.reachable_after _))
  obtain ⟨utxos, utxosGrpc, agree⟩ := claim _ reached .increasing [7]
  have pending : (Ideal.packages.txid (Ideal.pay (Ideal.packages.txid Ideal.genesis) 0 0 5), 0) ∈
      (Ideal.small.after (lockedRun.take 3)).pubOutsPend.outs [7] := by decide +kernel
  exact utxos_pending (Setup.life_lists Ideal.ideal_collisionFree reached) pending utxos agree.json

end Belcoin
