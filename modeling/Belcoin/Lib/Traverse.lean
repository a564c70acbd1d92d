import Mathlib.Data.List.Forall2

/-!
Loops over a list whose steps may raise: a loop that collects what its steps return,
and one that accumulates.

* `mapM_ok_iff` — a collecting loop returns just when all its steps do.
* `foldlM_ok` — an accumulating loop whose steps all return.
-/

universe u v w

namespace Traverse

variable {ε : Type u} {α : Type v} {β : Type w}

theorem bind_ok {γ : Type w} {m : Except ε β} {f : β → Except ε γ} {c : γ} :
    m >>= f = .ok c ↔ ∃ b, m = .ok b ∧ f b = .ok c := by
  cases m with
  | error e => exact ⟨nofun, nofun⟩
  | ok b =>
      refine ⟨fun returns => ⟨b, rfl, returns⟩, ?_⟩
      rintro ⟨b', same, returns⟩
      cases same
      exact returns

theorem mapM_ok_iff {f : α → Except ε β} {as : List α} {bs : List β} :
    as.mapM f = .ok bs ↔ List.Forall₂ (fun a b => f a = .ok b) as bs := by
  induction as generalizing bs with
  | nil =>
      rw [List.forall₂_nil_left_iff]
      exact ⟨fun returns => (Except.ok.inj returns).symm, fun empty => congrArg Except.ok empty.symm⟩
  | cons a as ih =>
      rw [List.mapM_cons, bind_ok]
      constructor
      · rintro ⟨b, first, returns⟩
        obtain ⟨bs', rest, collected⟩ := bind_ok.mp returns
        cases collected
        exact .cons first (ih.mp rest)
      · intro pairs
        cases pairs with
        | cons first rest => exact ⟨_, first, bind_ok.mpr ⟨_, ih.mpr rest, rfl⟩⟩

/-- If every step returns, so does the loop. -/
theorem mapM_total {f : α → Except ε β} {as : List α} (total : ∀ a ∈ as, ∃ b, f a = .ok b) :
    ∃ bs, as.mapM f = .ok bs := by
  induction as with
  | nil => exact ⟨[], rfl⟩
  | cons a as ih =>
      obtain ⟨first, rest⟩ := List.forall_mem_cons.mp total
      obtain ⟨b, returns⟩ := first
      obtain ⟨bs, returns'⟩ := ih rest
      exact ⟨b :: bs, mapM_ok_iff.mpr (.cons returns (mapM_ok_iff.mp returns'))⟩

/-- A step that raises makes the loop raise. -/
theorem mapM_step {f : α → Except ε β} {as : List α} {bs : List β} (returns : as.mapM f = .ok bs)
    {a : α} (mem : a ∈ as) : ∃ b, f a = .ok b := by
  induction mapM_ok_iff.mp returns with
  | nil => cases mem
  | cons first rest ih =>
      rcases List.mem_cons.mp mem with rfl | later
      · exact ⟨_, first⟩
      · exact ih (mapM_ok_iff.mpr rest) later

/-- Where each result names the element it comes from, the results name the list. -/
theorem map_of_mapM {f : α → Except ε β} {name : β → α} (names : ∀ a b, f a = .ok b → name b = a)
    {as : List α} {bs : List β} (returns : as.mapM f = .ok bs) : bs.map name = as := by
  induction mapM_ok_iff.mp returns with
  | nil => rfl
  | cons first rest ih => rw [List.map_cons, names _ _ first, ih (mapM_ok_iff.mpr rest)]

/-- Each result comes from an element. -/
theorem mem_of_mapM {f : α → Except ε β} {as : List α} {bs : List β}
    (returns : as.mapM f = .ok bs) {b : β} (mem : b ∈ bs) : ∃ a ∈ as, f a = .ok b := by
  induction mapM_ok_iff.mp returns with
  | nil => cases mem
  | cons first rest ih =>
      rcases List.mem_cons.mp mem with rfl | later
      · exact ⟨_, List.mem_cons_self, first⟩
      · obtain ⟨a, listed, returned⟩ := ih (mapM_ok_iff.mpr rest) later
        exact ⟨a, List.mem_cons_of_mem _ listed, returned⟩

theorem foldlM_ok {f : β → α → Except ε β} {g : β → α → β} {as : List α}
    (steps : ∀ a ∈ as, ∀ b, f b a = .ok (g b a)) (b : β) :
    as.foldlM f b = .ok (as.foldl g b) := by
  induction as generalizing b with
  | nil => rfl
  | cons a as ih =>
      obtain ⟨first, rest⟩ := List.forall_mem_cons.mp steps
      rw [List.foldlM_cons, first b]
      exact ih rest (g b a)

end Traverse
