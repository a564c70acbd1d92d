import Mathlib.Data.List.Forall2

/-!
Computations over a state that may raise and keep the state they reached: the
semantics of an imperative program with exceptions, as `EStateM` gives it.

* `final` — the state a computation leaves, returned or raised.
* `bind_ok` — what a normal return of a sequence says about its parts.
* `Sustains` — an invariant that a computation keeps on both ways out.
* `Returns` — an invariant that a computation keeps when it returns, and a
  preorder that it then moves along.
* `Lockstep` — two computations over different states that return the same
  value, or raise the same exception, and keep the states related. With
  `R s t := π s = t` it says that the second is the first seen through `π`.
-/

namespace Stateful

variable {ε σ τ α β : Type}

/-- The state left behind, whether the computation returned or raised. -/
def final : EStateM.Result ε σ α → σ
  | .ok _ s => s
  | .error _ s => s

@[simp] theorem final_ok (a : α) (s : σ) : final (ε := ε) (.ok a s) = s := rfl

@[simp] theorem final_error (e : ε) (s : σ) : final (α := α) (.error e s) = s := rfl

/-- The computation returned. -/
def returned : EStateM.Result ε σ α → Bool
  | .ok _ _ => true
  | .error _ _ => false

theorem eq_ok_of_returned {r : EStateM.Result ε σ PUnit} (returns : returned r = true) :
    r = .ok ⟨⟩ (final r) := by
  cases r with
  | ok _ s => rfl
  | error e s => cases returns

/-! ### Running one construct -/

@[simp] theorem pure_apply (a : α) (s : σ) : (pure a : EStateM ε σ α) s = .ok a s := rfl

@[simp] theorem throw_apply (e : ε) (s : σ) : (throw e : EStateM ε σ α) s = .error e s := rfl

@[simp] theorem get_apply (s : σ) : (get : EStateM ε σ σ) s = .ok s s := rfl

@[simp] theorem modify_apply (f : σ → σ) (s : σ) :
    (modify f : EStateM ε σ PUnit) s = .ok ⟨⟩ (f s) := rfl

/-- A handler runs from the state the exception left. -/
theorem tryCatch_apply (m : EStateM ε σ α) (handle : ε → EStateM ε σ α) (s : σ) :
    (tryCatch m handle) s = match m s with
      | .ok a t => .ok a t
      | .error e t => handle e t := by
  change EStateM.tryCatch m handle s = _
  unfold EStateM.tryCatch
  cases m s <;> rfl

theorem bind_apply (m : EStateM ε σ α) (f : α → EStateM ε σ β) (s : σ) :
    (m >>= f) s = match m s with
      | .ok a t => f a t
      | .error e t => .error e t := rfl

@[simp] theorem get_bind (f : σ → EStateM ε σ β) (s : σ) : (get >>= f) s = f s s := rfl

@[simp] theorem modify_bind (g : σ → σ) (f : PUnit → EStateM ε σ β) (s : σ) :
    (modify g >>= f) s = f ⟨⟩ (g s) := rfl

/-- A sequence returns exactly when its first part returns and the rest does. -/
theorem bind_ok {m : EStateM ε σ α} {f : α → EStateM ε σ β} {s u : σ} {b : β} :
    (m >>= f) s = .ok b u ↔ ∃ a t, m s = .ok a t ∧ f a t = .ok b u := by
  rw [bind_apply]
  constructor
  · intro run
    cases first : m s with
    | ok a t => exact ⟨a, t, rfl, by simpa [first] using run⟩
    | error e t => simp [first] at run
  · rintro ⟨a, t, first, rest⟩
    simpa [first] using rest

@[simp] theorem forM_nil (f : α → EStateM ε σ PUnit) (s : σ) :
    ([] : List α).forM f s = .ok ⟨⟩ s := rfl

theorem forM_cons (f : α → EStateM ε σ PUnit) (a : α) (as : List α) :
    (a :: as).forM f = f a >>= fun _ => as.forM f := rfl

/-- A loop over two lists is two loops. -/
theorem forM_append (f : α → EStateM ε σ PUnit) (as bs : List α) (s : σ) :
    (as ++ bs).forM f s = (as.forM f >>= fun _ => bs.forM f) s := by
  induction as generalizing s with
  | nil => rfl
  | cons a as ih =>
      rw [List.cons_append, forM_cons, forM_cons, bind_apply, bind_apply, bind_apply]
      cases f a s with
      | ok _ t => exact ih t
      | error e t => rfl

/-- A loop over the images of a list. -/
theorem forM_map {γ : Type} (g : γ → α) (f : α → EStateM ε σ PUnit) (cs : List γ) :
    (cs.map g).forM f = cs.forM fun c => f (g c) := by
  induction cs with
  | nil => rfl
  | cons c cs ih => rw [List.map_cons, forM_cons, forM_cons, ih]

/-! ### Invariants -/

/-- `m` keeps `I`, whether it returns or raises. -/
def Sustains (I : σ → Prop) (m : EStateM ε σ α) : Prop := ∀ s, I s → I (final (m s))

theorem sustains_pure (I : σ → Prop) (a : α) : Sustains I (pure a : EStateM ε σ α) :=
  fun _ h => h

theorem sustains_throw (I : σ → Prop) (e : ε) : Sustains I (throw e : EStateM ε σ α) :=
  fun _ h => h

theorem sustains_modify {I : σ → Prop} {f : σ → σ} (kept : ∀ s, I s → I (f s)) :
    Sustains I (modify f : EStateM ε σ PUnit) :=
  kept

/-- What holds of the state left by a sequence: it holds where the first part raises,
and the rest keeps it where the first part returns. -/
theorem final_bind {I : σ → Prop} {m : EStateM ε σ α} {f : α → EStateM ε σ β} {s : σ}
    (first : I (final (m s))) (rest : ∀ a t, m s = .ok a t → I t → I (final (f a t))) :
    I (final ((m >>= f) s)) := by
  rw [bind_apply]
  cases run : m s with
  | ok a t =>
      rw [run] at first
      exact rest a t run first
  | error e t =>
      rw [run] at first
      exact first

theorem Sustains.bind {I : σ → Prop} {m : EStateM ε σ α} {f : α → EStateM ε σ β}
    (first : Sustains I m) (rest : ∀ a, Sustains I (f a)) : Sustains I (m >>= f) := by
  intro s h
  exact final_bind (first s h) fun a t _ kept => rest a t kept

theorem Sustains.get_bind {I : σ → Prop} {f : σ → EStateM ε σ β}
    (rest : ∀ s, Sustains I (f s)) : Sustains I (get >>= f) :=
  fun s h => rest s s h

theorem Sustains.forM {I : σ → Prop} {f : α → EStateM ε σ PUnit} {as : List α}
    (body : ∀ a ∈ as, Sustains I (f a)) : Sustains I (as.forM f) := by
  induction as with
  | nil => exact fun _ h => h
  | cons a as ih =>
      rw [forM_cons]
      exact (body a List.mem_cons_self).bind fun _ =>
        ih fun b mem => body b (List.mem_cons_of_mem _ mem)

theorem Sustains.tryCatch {I : σ → Prop} {m : EStateM ε σ α} {handle : ε → EStateM ε σ α}
    (first : Sustains I m) (second : ∀ e, Sustains I (handle e)) :
    Sustains I (MonadExcept.tryCatch m handle) := by
  intro s h
  have kept := first s h
  rw [tryCatch_apply]
  cases run : m s with
  | ok a t => rwa [run] at kept
  | error e t => rw [run] at kept; exact second e t kept

/-! ### Progress along a preorder -/

/-- When `m` returns, it has kept `I` and moved along `R`. -/
def Returns (I : σ → Prop) (R : σ → σ → Prop) (m : EStateM ε σ α) : Prop :=
  ∀ s a t, I s → m s = .ok a t → I t ∧ R s t

section Returns

variable {I : σ → Prop} {R : σ → σ → Prop}

theorem returns_pure (refl : ∀ s, R s s) (a : α) : Returns I R (pure a : EStateM ε σ α) := by
  intro s b t held run
  cases run
  exact ⟨held, refl s⟩

theorem returns_throw (e : ε) : Returns I R (throw e : EStateM ε σ α) :=
  fun _ _ _ _ run => nomatch run

theorem returns_modify {f : σ → σ} (kept : ∀ s, I s → I (f s) ∧ R s (f s)) :
    Returns I R (modify f : EStateM ε σ PUnit) := by
  intro s b t held run
  cases run
  exact kept s held

theorem Returns.bind (trans : ∀ s t u, R s t → R t u → R s u) {m : EStateM ε σ α}
    {f : α → EStateM ε σ β} (first : Returns I R m) (rest : ∀ a, Returns I R (f a)) :
    Returns I R (m >>= f) := by
  intro s b u held run
  obtain ⟨a, t, run, run'⟩ := bind_ok.mp run
  obtain ⟨held', moved⟩ := first s a t held run
  obtain ⟨held'', moved'⟩ := rest a t b u held' run'
  exact ⟨held'', trans _ _ _ moved moved'⟩

/-- The value read is a state in which `I` holds. -/
theorem Returns.get_bind {f : σ → EStateM ε σ β} (rest : ∀ s, I s → Returns I R (f s)) :
    Returns I R (get >>= f) :=
  fun s b t held run => rest s held s b t held run

end Returns

/-! ### Two computations in lockstep -/

/-- The two outcomes agree, and their states are related. -/
inductive Agree (R : σ → τ → Prop) : EStateM.Result ε σ α → EStateM.Result ε τ α → Prop where
  | ok {a : α} {s : σ} {t : τ} : R s t → Agree R (.ok a s) (.ok a t)
  | error {e : ε} {s : σ} {t : τ} : R s t → Agree R (.error e s) (.error e t)

/-- Agreeing outcomes both return or both raise. -/
theorem Agree.outcomes {R : σ → τ → Prop} {x : EStateM.Result ε σ α}
    {y : EStateM.Result ε τ α} (agree : Agree R x y) :
    (∃ a s t, x = .ok a s ∧ y = .ok a t ∧ R s t) ∨
      (∃ e s t, x = .error e s ∧ y = .error e t ∧ R s t) := by
  cases agree with
  | ok related => exact .inl ⟨_, _, _, rfl, rfl, related⟩
  | error related => exact .inr ⟨_, _, _, rfl, rfl, related⟩

/-- From related states, `m` and `f` agree. -/
def Lockstep (R : σ → τ → Prop) (m : EStateM ε σ α) (f : EStateM ε τ α) : Prop :=
  ∀ s t, R s t → Agree R (m s) (f t)

variable {R : σ → τ → Prop}

theorem lockstep_pure (a : α) : Lockstep (ε := ε) R (pure a) (pure a) :=
  fun _ _ related => .ok related

theorem lockstep_throw (e : ε) :
    Lockstep R (throw e : EStateM ε σ α) (throw e : EStateM ε τ α) :=
  fun _ _ related => .error related

theorem lockstep_modify {f : σ → σ} {g : τ → τ} (kept : ∀ s t, R s t → R (f s) (g t)) :
    Lockstep (ε := ε) R (modify f) (modify g) :=
  fun s t related => .ok (kept s t related)

/-- A step of the first program alone, that the relation does not see. -/
theorem lockstep_modify_left {f : σ → σ} (kept : ∀ s t, R s t → R (f s) t) :
    Lockstep (ε := ε) R (modify f) (pure ⟨⟩) :=
  fun s t related => .ok (kept s t related)

/-- Agreeing first parts may be followed by computations in lockstep. -/
theorem Agree.bind {m : EStateM ε σ α} {f : EStateM ε τ α} {k : α → EStateM ε σ β}
    {l : α → EStateM ε τ β} {s : σ} {t : τ} (first : Agree R (m s) (f t))
    (rest : ∀ a, Lockstep R (k a) (l a)) : Agree R ((m >>= k) s) ((f >>= l) t) := by
  rw [bind_apply, bind_apply]
  rcases first.outcomes with
    ⟨a, s', t', left, right, related'⟩ | ⟨e, s', t', left, right, related'⟩
  · rw [left, right]
    exact rest a s' t' related'
  · rw [left, right]
    exact .error related'

theorem Lockstep.bind {m : EStateM ε σ α} {f : EStateM ε τ α} {k : α → EStateM ε σ β}
    {l : α → EStateM ε τ β} (first : Lockstep R m f) (rest : ∀ a, Lockstep R (k a) (l a)) :
    Lockstep R (m >>= k) (f >>= l) :=
  fun s t related => (first s t related).bind rest

/-- A silent first part can be dropped. -/
theorem Lockstep.bind_silent {m : EStateM ε σ PUnit} {k : PUnit → EStateM ε σ β}
    {f : EStateM ε τ β} (silent : Lockstep R m (pure ⟨⟩)) (rest : Lockstep R (k ⟨⟩) f) :
    Lockstep R (m >>= k) f :=
  silent.bind fun _ => rest

/-- Two loops whose bodies are in lockstep, one element after the other. -/
theorem Lockstep.forM₂ {γ : Type} {f : α → EStateM ε σ PUnit} {g : γ → EStateM ε τ PUnit}
    {as : List α} {bs : List γ} (bodies : as.Forall₂ (fun a b => Lockstep R (f a) (g b)) bs) :
    Lockstep R (as.forM f) (bs.forM g) := by
  induction bodies with
  | nil => exact lockstep_pure _
  | cons body _ ih =>
      rw [forM_cons, forM_cons]
      exact body.bind fun _ => ih

theorem Lockstep.forM {f : α → EStateM ε σ PUnit} {g : α → EStateM ε τ PUnit} {as : List α}
    (body : ∀ a ∈ as, Lockstep R (f a) (g a)) : Lockstep R (as.forM f) (as.forM g) :=
  Lockstep.forM₂ (List.forall₂_same.mpr body)

/-- The states two agreeing outcomes leave are related. -/
theorem Agree.final {x : EStateM.Result ε σ α} {y : EStateM.Result ε τ α} (agree : Agree R x y) :
    R (Stateful.final x) (Stateful.final y) := by
  cases agree with
  | ok related => exact related
  | error related => exact related

/-- What the second returns from a related state, if the first returns. -/
theorem Lockstep.ok_left {m : EStateM ε σ α} {f : EStateM ε τ α} (lock : Lockstep R m f)
    {s s' : σ} {t : τ} {a : α} (related : R s t) (run : m s = .ok a s') :
    ∃ t', f t = .ok a t' ∧ R s' t' := by
  rcases (lock s t related).outcomes with
    ⟨b, u, t', left, right, related'⟩ | ⟨e, u, t', left, -, -⟩
  · rw [run] at left
    cases left
    exact ⟨t', right, related'⟩
  · rw [run] at left
    cases left

/-- What the first returns from a related state, if the second returns. -/
theorem Lockstep.ok_right {m : EStateM ε σ α} {f : EStateM ε τ α} (lock : Lockstep R m f)
    {s : σ} {t t' : τ} {a : α} (related : R s t) (run : f t = .ok a t') :
    ∃ s', m s = .ok a s' ∧ R s' t' := by
  rcases (lock s t related).outcomes with
    ⟨b, s', u, left, right, related'⟩ | ⟨e, s', u, -, right, -⟩
  · rw [run] at right
    cases right
    exact ⟨s', left, related'⟩
  · rw [run] at right
    cases right

/-- The states left behind stay related, whatever the outcome. -/
theorem Lockstep.final {m : EStateM ε σ α} {f : EStateM ε τ α} (lock : Lockstep R m f)
    {s : σ} {t : τ} (related : R s t) :
    R (Stateful.final (m s)) (Stateful.final (f t)) :=
  (lock s t related).final

end Stateful
