import Belcoin.Lib.Stateful
import Mathlib.Data.List.Perm.Basic

/-!
Loops over independent steps.

A step is described by what it does to a view of the state, its patch. Where no step
changes the patch of a later one (`Patched`), a loop applies the patches found at its
start, one after the other (`Patched.run`), and where these commute, its order does not
matter (`Patched.perm`).
-/

namespace Independent

open Stateful

/-! ### Folds that commute -/

section Folds

variable {α β γ : Type} {f : β → α → β} {g : β → γ → β}

/-- A step that commutes with every step of a fold commutes with the fold. -/
theorem step_comm {a : α} {cs : List γ} (comm : ∀ c ∈ cs, ∀ z, g (f z a) c = f (g z c) a) (z : β) :
    cs.foldl g (f z a) = f (cs.foldl g z) a := by
  induction cs generalizing z with
  | nil => rfl
  | cons c cs ih =>
      obtain ⟨first, rest⟩ := List.forall_mem_cons.mp comm
      rw [List.foldl_cons, List.foldl_cons, first, ih rest]

/-- Two folds commute if their steps do. -/
theorem foldl_comm {as : List α} {cs : List γ}
    (comm : ∀ a ∈ as, ∀ c ∈ cs, ∀ z, g (f z a) c = f (g z c) a) (z : β) :
    cs.foldl g (as.foldl f z) = as.foldl f (cs.foldl g z) := by
  induction as generalizing z with
  | nil => rfl
  | cons a as ih =>
      obtain ⟨first, rest⟩ := List.forall_mem_cons.mp comm
      rw [List.foldl_cons, List.foldl_cons, ih rest, step_comm first]

end Folds

/-! ### Loops -/

variable {ε σ ι β : Type}

/-- From a state that is ready for a list of items, a step returns, patches the view, and
leaves the state ready for the rest and the patches of the rest as they were. -/
structure Patched (step : ι → EStateM ε σ PUnit) (view : σ → β) (patch : σ → ι → β → β)
    (Ready : σ → List ι → Prop) : Prop where
  turn : ∀ {s : σ} {i : ι} {rest : List ι}, Ready s (i :: rest) → ∃ t, step i s = .ok ⟨⟩ t ∧
    view t = patch s i (view s) ∧ Ready t rest ∧ ∀ j ∈ rest, patch t j = patch s j

variable {step : ι → EStateM ε σ PUnit} {view : σ → β} {patch : σ → ι → β → β}
  {Ready : σ → List ι → Prop}

/-- **A loop applies the patches found at its start.** -/
theorem Patched.run (patched : Patched step view patch Ready) {s : σ} {items : List ι}
    (ready : Ready s items) : ∃ t, items.forM step s = .ok ⟨⟩ t ∧ Ready t [] ∧
      view t = items.foldl (fun b i => patch s i b) (view s) := by
  induction items generalizing s with
  | nil => exact ⟨s, rfl, ready, rfl⟩
  | cons i rest ih =>
      obtain ⟨m, first, seen, ready', stable⟩ := patched.turn ready
      obtain ⟨t, later, done, seen'⟩ := ih ready'
      refine ⟨t, ?_, done, ?_⟩
      · rw [forM_cons, bind_apply, first]
        exact later
      · rw [seen', seen, List.foldl_cons]
        exact List.foldl_ext _ _ _ fun b j mem => by rw [stable j mem]

/-- **Its order does not matter** where the patches commute. The two loops may start from
different states that look the same. -/
theorem Patched.perm (patched : Patched step view patch Ready) {s s' : σ} {items items' : List ι}
    (ready : Ready s items) (ready' : Ready s' items') (perm : items.Perm items')
    (sameView : view s' = view s) (samePatch : ∀ i ∈ items, patch s' i = patch s i)
    (comm : ∀ i ∈ items, ∀ j ∈ items, ∀ b, patch s j (patch s i b) = patch s i (patch s j b)) :
    ∃ t t', items.forM step s = .ok ⟨⟩ t ∧ items'.forM step s' = .ok ⟨⟩ t' ∧
      Ready t [] ∧ Ready t' [] ∧ view t' = view t := by
  obtain ⟨t, run, done, seen⟩ := patched.run ready
  obtain ⟨t', run', done', seen'⟩ := patched.run ready'
  refine ⟨t, t', run, run', done, done', ?_⟩
  calc view t' = items'.foldl (fun b i => patch s' i b) (view s') := seen'
    _ = items'.foldl (fun b i => patch s i b) (view s) := by
        rw [sameView]
        exact List.foldl_ext _ _ _ fun b i mem => by rw [samePatch i (perm.mem_iff.mpr mem)]
    _ = items.foldl (fun b i => patch s i b) (view s) := (perm.foldl_eq' comm _).symm
    _ = view t := seen.symm

end Independent
