/-!
Labelled transition systems, for the runs of any program that takes one step
after another.

* `Machine.Reachable` — the states a run ends in, and `Machine.Reachable.invariant`,
  the rule that proves a property of all of them from one step.
* `Machine.restrict` — the same machine, with only the steps that meet a
  condition on the state before them. A theorem about `(M.restrict C)` is a
  theorem about the runs of `M` whose steps all meet `C`.
* `Machine.Run` — a run together with its labels, in order.
-/

universe u v

/-- Start states, and the steps a label allows. -/
structure Machine (σ : Type u) (α : Type v) where
  start : σ → Prop
  step : σ → α → σ → Prop

namespace Machine

variable {σ : Type u} {α : Type v} {M : Machine σ α}

/-- The runs of a machine, with the labels of their steps. -/
inductive Run (M : Machine σ α) : σ → List α → σ → Prop where
  | nil (s : σ) : Run M s [] s
  | cons {s t u : σ} {a : α} {as : List α} : M.step s a t → Run M t as u → Run M s (a :: as) u

/-- The states reached from a start state. -/
inductive Reachable (M : Machine σ α) : σ → Prop where
  | start {s : σ} : M.start s → Reachable M s
  | step {s t : σ} {a : α} : Reachable M s → M.step s a t → Reachable M t

/-- Only the steps whose label and source state meet `C`. -/
def restrict (M : Machine σ α) (C : σ → α → Prop) : Machine σ α where
  start := M.start
  step s a t := C s a ∧ M.step s a t

/-- **The invariant rule.** What holds at the start and is kept by every step
from a reachable state holds in every reachable state. -/
theorem Reachable.invariant {I : σ → Prop} (initial : ∀ s, M.start s → I s)
    (preserved : ∀ s a t, M.Reachable s → I s → M.step s a t → I t) {s : σ}
    (reached : M.Reachable s) : I s := by
  induction reached with
  | start starts => exact initial _ starts
  | step before moves ih => exact preserved _ _ _ before ih moves

/-- A restricted machine reaches no more states. -/
theorem Reachable.of_restrict {C : σ → α → Prop} {s : σ}
    (reached : (M.restrict C).Reachable s) : M.Reachable s := by
  induction reached with
  | start starts => exact .start starts
  | step _ moves ih => exact .step ih moves.2

/-- A weaker condition allows more. -/
theorem Reachable.weaken {C D : σ → α → Prop} (weaker : ∀ s a, C s a → D s a) {s : σ}
    (reached : (M.restrict C).Reachable s) : (M.restrict D).Reachable s := by
  induction reached with
  | start starts => exact .start starts
  | step _ moves ih => exact .step ih ⟨weaker _ _ moves.1, moves.2⟩

/-- A weaker condition allows more runs. -/
theorem Run.weaken {C D : σ → α → Prop} (weaker : ∀ s a, C s a → D s a) {s t : σ} {as : List α}
    (run : (M.restrict C).Run s as t) : (M.restrict D).Run s as t := by
  induction run with
  | nil => exact .nil _
  | cons moves _ ih => exact .cons ⟨weaker _ _ moves.1, moves.2⟩ ih

/-- A run of one step. -/
theorem Run.single {s t : σ} {a : α} (moves : M.step s a t) : M.Run s [a] t :=
  .cons moves (.nil t)

/-- Runs compose. -/
theorem Run.append {s t u : σ} {as bs : List α} (first : M.Run s as t) (second : M.Run t bs u) :
    M.Run s (as ++ bs) u := by
  induction first with
  | nil => exact second
  | cons moves _ ih => exact .cons moves (ih second)

/-- A run from a reachable state ends in a reachable state. -/
theorem Reachable.run {s t : σ} {as : List α} (reached : M.Reachable s) (run : M.Run s as t) :
    M.Reachable t := by
  induction run with
  | nil => exact reached
  | cons moves _ ih => exact ih (.step reached moves)

/-- A property that every step with a label in `P` keeps is kept by a run of such
steps. -/
theorem Run.preserves {I : σ → Prop} {P : α → Prop}
    (kept : ∀ s a t, M.Reachable s → I s → P a → M.step s a t → I t) {s t : σ} {as : List α}
    (run : M.Run s as t) (allowed : ∀ a ∈ as, P a) (reached : M.Reachable s) (holds : I s) :
    I t := by
  induction run with
  | nil => exact holds
  | cons moves _ ih =>
      obtain ⟨first, rest⟩ := List.forall_mem_cons.mp allowed
      exact ih rest (.step reached moves) (kept _ _ _ reached holds first moves)

/-- Steps that are computed are a run. -/
theorem Run.of_foldlM {perform : σ → α → Option σ}
    (performs : ∀ s a t, perform s a = some t → M.step s a t) {s t : σ} {as : List α}
    (computed : as.foldlM perform s = some t) : M.Run s as t := by
  induction as generalizing s with
  | nil =>
      cases computed
      exact .nil _
  | cons a as ih =>
      rw [List.foldlM_cons] at computed
      obtain ⟨u, first, rest⟩ := Option.bind_eq_some_iff.mp computed
      exact .cons (performs _ a u first) (ih rest)

end Machine
