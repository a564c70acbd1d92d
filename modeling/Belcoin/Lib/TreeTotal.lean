import Std.Data.ExtTreeMap
import Mathlib.Algebra.BigOperators.Group.List.Basic
import Mathlib.Algebra.BigOperators.Group.Finset.Basic
import Mathlib.Algebra.GroupWithZero.Nat
import Mathlib.Data.List.Perm.Basic

/-!
Totals over an ordered map: the sum of a measure of the entries, and what an
insertion or a deletion does to it. Where a measure is itself a sum over the positions
of an entry, `total_cells` makes the total one sum over the positions of the map.
-/

namespace Std.ExtTreeMap

variable {κ V : Type} {cmp : κ → κ → Ordering} [TransCmp cmp] [LawfulEqCmp cmp]

/-- The keys of the entries of a map are distinct. -/
theorem nodup_toList (m : ExtTreeMap κ V cmp) : m.toList.Nodup := by
  refine List.Pairwise.imp (fun distinct eq => distinct ?_) (distinct_keys_toList (t := m))
  rw [eq]
  exact ReflCmp.compare_self

/-- The entries of a map that holds `k` are the entry of `k` and the others. -/
theorem toList_perm_erase {m : ExtTreeMap κ V cmp} {k : κ} {v : V} (held : m[k]? = some v) :
    m.toList.Perm ((k, v) :: (m.erase k).toList) := by
  refine (List.perm_ext_iff_of_nodup (nodup_toList m) ?_).mpr fun entry => ?_
  · refine List.nodup_cons.mpr ⟨fun mem => ?_, nodup_toList _⟩
    rw [mem_toList_iff_getElem?_eq_some, getElem?_erase_self] at mem
    cases mem
  · obtain ⟨a, b⟩ := entry
    rw [List.mem_cons, mem_toList_iff_getElem?_eq_some, mem_toList_iff_getElem?_eq_some,
      getElem?_erase, Prod.mk.injEq]
    by_cases same : k = a
    · subst same
      simp only [held, ReflCmp.compare_self, if_true, reduceCtorEq, or_false, true_and,
        Option.some.injEq]
      exact eq_comm
    · have apart : ¬ cmp k a = .eq := fun eq => same (LawfulEqCmp.compare_eq_iff_eq.mp eq)
      simp only [apart, if_false, Ne.symm same, false_and, false_or]

/-- The sum of a measure of the values. -/
def total (measure : V → Nat) (m : ExtTreeMap κ V cmp) : Nat :=
  (m.toList.map fun entry => measure entry.2).sum

variable (measure : V → Nat)

/-- What one entry contributes. -/
def share (m : ExtTreeMap κ V cmp) (k : κ) : Nat := (m[k]?.map measure).getD 0

omit [LawfulEqCmp cmp] in
theorem total_empty : total measure (∅ : ExtTreeMap κ V cmp) = 0 := by
  have : (∅ : ExtTreeMap κ V cmp).toList = [] := by simp
  simp [total, this]

/-- Deleting a key takes away its share. -/
theorem total_erase (m : ExtTreeMap κ V cmp) (k : κ) :
    total measure (m.erase k) + share measure m k = total measure m := by
  cases held : m[k]? with
  | none =>
      have unchanged : m.erase k = m := ext_getElem? fun a => by
        rw [getElem?_erase]
        split
        · next eq => rw [← LawfulEqCmp.compare_eq_iff_eq.mp eq, held]
        · rfl
      simp [share, held, unchanged]
  | some v =>
      have perm := (toList_perm_erase held).map fun entry => measure entry.2
      rw [total, total, perm.sum_eq, List.map_cons, List.sum_cons]
      simp [share, held, Nat.add_comm]

/-- Writing a key replaces its share. -/
theorem total_insert (m : ExtTreeMap κ V cmp) (k : κ) (v : V) :
    total measure (m.insert k v) + share measure m k = total measure m + measure v := by
  have rest : (m.insert k v).erase k = m.erase k := ext_getElem? fun a => by
    rw [getElem?_erase, getElem?_erase, getElem?_insert]
    split <;> rfl
  have after := total_erase measure (m.insert k v) k
  have before := total_erase measure m k
  rw [rest] at after
  simp only [share, getElem?_insert_self, Option.map_some, Option.getD_some] at after
  omega

/-! ### Positions -/

variable [DecidableEq κ] (size : V → Nat)

/-- The positions of a map whose entries have so many positions each. -/
def cells (m : ExtTreeMap κ V cmp) : Finset (κ × Nat) :=
  (m.toList.flatMap fun entry => (List.range (size entry.2)).map fun i => (entry.1, i)).toFinset

theorem mem_cells {m : ExtTreeMap κ V cmp} {r : κ × Nat} :
    r ∈ cells size m ↔ ∃ v, m[r.1]? = some v ∧ r.2 < size v := by
  obtain ⟨k, i⟩ := r
  simp only [cells, List.mem_toFinset, List.mem_flatMap, List.mem_map, List.mem_range,
    Prod.mk.injEq]
  constructor
  · rintro ⟨⟨k', v⟩, mem, i', inside, rfl, rfl⟩
    exact ⟨v, mem_toList_iff_getElem?_eq_some.mp mem, inside⟩
  · rintro ⟨v, held, inside⟩
    exact ⟨(k, v), mem_toList_iff_getElem?_eq_some.mpr held, i, inside, rfl, rfl⟩

omit [DecidableEq κ] in
theorem nodup_cells (m : ExtTreeMap κ V cmp) :
    (m.toList.flatMap fun entry => (List.range (size entry.2)).map fun i => (entry.1, i)).Nodup := by
  refine List.nodup_flatMap.mpr ⟨fun entry _ => ?_, ?_⟩
  · exact List.nodup_range.map fun i j same => (Prod.mk.inj same).2
  · refine (distinct_keys_toList (t := m)).imp fun {entry entry'} distinct => ?_
    intro r mem mem'
    obtain ⟨i, -, rfl⟩ := List.mem_map.mp mem
    obtain ⟨j, -, same⟩ := List.mem_map.mp mem'
    rw [(Prod.mk.inj same).1] at distinct
    exact distinct ReflCmp.compare_self

/-- The sum of a measure of the entries of a list is a sum over its positions. -/
theorem sum_map_range {A : Type} (f : A → Nat) (l : List A) :
    (l.map f).sum = ∑ i ∈ Finset.range l.length, (l[i]?.map f).getD 0 := by
  induction l with
  | nil => rfl
  | cons a l ih =>
      rw [List.length_cons, Finset.sum_range_succ', List.map_cons, List.sum_cons, ih, Nat.add_comm]
      rfl

/-- A total of sums over positions is a sum over positions. -/
theorem total_cells (m : ExtTreeMap κ V cmp) (f : V → Nat → Nat) :
    total (fun v => ∑ i ∈ Finset.range (size v), f v i) m =
      ∑ r ∈ cells size m, (m[r.1]?.map fun v => f v r.2).getD 0 := by
  rw [cells, List.sum_toFinset _ (nodup_cells size m), List.map_flatMap, List.flatMap_def,
    List.sum_flatten, List.map_map, total]
  refine congrArg List.sum (List.map_congr_left fun entry mem => ?_)
  have held : m[entry.1]? = some entry.2 := mem_toList_iff_getElem?_eq_some.mp mem
  rw [Function.comp_apply, List.map_map]
  refine congrArg List.sum (List.map_congr_left (l := List.range (size entry.2)) fun i _ => ?_)
  simp [held]

end Std.ExtTreeMap
