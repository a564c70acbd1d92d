import Mathlib.Data.List.Infix

/-!
Replacement of a pattern in a word, from the left and without overlaps: the
`replace` method of byte strings and texts.

* `replace_cons`, `replace_match` — one step of the search.
* `length_remove_le` — removing a pattern never makes a word longer.
* `remove_suffix_iff` — when removing the end of a word wherever it occurs
  leaves just what stood before it.
-/

universe u

namespace Replace

variable {α : Type u} [DecidableEq α]

/-- Search on from here, the letters of a match just replaced being skipped. -/
def replaceFrom (old new : List α) : Nat → List α → List α
  | _, [] => []
  | skip + 1, _ :: rest => replaceFrom old new skip rest
  | 0, c :: rest =>
      if old <+: c :: rest then new ++ replaceFrom old new (old.length - 1) rest
      else c :: replaceFrom old new 0 rest

/-- `word.replace(old, new)`. An empty pattern matches around every letter. -/
def replace (word old new : List α) : List α :=
  if old = [] then new ++ word.flatMap fun c => c :: new
  else replaceFrom old new 0 word

variable {old new : List α}

theorem replaceFrom_skip (skipped rest : List α) :
    replaceFrom old new skipped.length (skipped ++ rest) = replaceFrom old new 0 rest := by
  induction skipped with
  | nil => rfl
  | cons c skipped ih => exact ih

@[simp] theorem replace_nil (nonempty : old ≠ []) : replace [] old new = [] := by
  simp [replace, nonempty, replaceFrom]

theorem replace_cons (nonempty : old ≠ []) {c : α} {rest : List α} (differs : ¬old <+: c :: rest) :
    replace (c :: rest) old new = c :: replace rest old new := by
  simp [replace, nonempty, replaceFrom, differs]

/-- A match is replaced, and the search goes on behind it. -/
theorem replace_match (nonempty : old ≠ []) (rest : List α) :
    replace (old ++ rest) old new = new ++ replace rest old new := by
  obtain ⟨c, tail, rfl⟩ := List.exists_cons_of_ne_nil nonempty
  have found : c :: tail <+: c :: (tail ++ rest) := List.prefix_append (c :: tail) rest
  rw [List.cons_append, replace, replace, if_neg nonempty, if_neg nonempty, replaceFrom,
    if_pos found]
  exact congrArg (new ++ ·) (replaceFrom_skip tail rest)

/-- The empty pattern replaced by nothing. -/
theorem remove_empty (word : List α) : replace word [] [] = word := by
  simp [replace]

theorem length_remove_le (old word : List α) : (replace word old []).length ≤ word.length := by
  by_cases empty : old = []
  · rw [empty, remove_empty]
  rw [replace, if_neg empty]
  -- the skipped letters of a match are part of the word that is searched
  suffices bound : ∀ skip, (replaceFrom old [] skip word).length ≤ word.length from bound 0
  induction word with
  | nil => exact fun skip => Nat.le_refl 0
  | cons c rest ih =>
      intro skip
      cases skip with
      | succ skip => exact Nat.le_succ_of_le (ih skip)
      | zero =>
          rw [replaceFrom]
          split
          · exact Nat.le_succ_of_le (ih _)
          · exact Nat.succ_le_succ (ih 0)

/-- Removing a pattern that occurs takes at least one copy of it away. -/
theorem length_remove_occurring (nonempty : old ≠ []) {word : List α} (occurs : old <:+: word) :
    (replace word old []).length + old.length ≤ word.length := by
  induction word with
  | nil => exact absurd (List.infix_nil.mp occurs) nonempty
  | cons c rest ih =>
      by_cases found : old <+: c :: rest
      · obtain ⟨after, split⟩ := found
        have bound := length_remove_le old after
        rw [← split, replace_match nonempty, List.nil_append, List.length_append]
        omega
      · have later : old <:+: rest := (List.infix_cons_iff.mp occurs).resolve_left found
        rw [replace_cons nonempty found, List.length_cons, List.length_cons]
        exact (Nat.succ_add _ _).trans_le (Nat.succ_le_succ (ih later))

theorem replace_of_short (nonempty : old ≠ []) {word : List α} (short : word.length < old.length) :
    replace word old new = word := by
  induction word with
  | nil => exact replace_nil nonempty
  | cons c rest ih =>
      have differs : ¬old <+: c :: rest := fun found => absurd found.length_le (by omega)
      have shorter : rest.length < old.length := Nat.lt_of_succ_lt short
      rw [replace_cons nonempty differs, ih shorter]

/-- Where the pattern begins `front ++ old`, removing it leaves `front` only if
`front` is a proper end of the pattern. -/
theorem remove_of_match (nonempty : old ≠ []) {front : List α} (found : old <+: front ++ old) :
    replace (front ++ old) old [] = front ↔ front <:+ old ∧ front ≠ old := by
  obtain ⟨rest, split⟩ := found
  have lengths : front.length = rest.length := by
    have total := congrArg List.length split
    simp only [List.length_append] at total
    omega
  rw [← split, replace_match nonempty, List.nil_append]
  rcases Nat.lt_or_ge front.length old.length with short | long
  · -- the match runs over the end of `front`: what is left is an end of the pattern
    rw [replace_of_short nonempty (lengths ▸ short)]
    have ends : rest <:+ old := by
      have suffix : rest <:+ front ++ old := ⟨old, split⟩
      exact List.suffix_of_suffix_length_le suffix (List.suffix_append front old)
        (by omega)
    constructor
    · rintro rfl
      exact ⟨ends, fun same => absurd (congrArg List.length same) (Nat.ne_of_lt short)⟩
    · rintro ⟨suffix, -⟩
      exact (List.suffix_of_suffix_length_le ends suffix (by omega)).eq_of_length lengths.symm
  · -- the match lies inside `front`, and the pattern stands once more behind it
    have again : old <:+ rest :=
      List.suffix_of_suffix_length_le (List.suffix_append front old) ⟨old, split⟩ (by omega)
    have shorter := length_remove_occurring nonempty again.isInfix
    have present : 0 < old.length := List.length_pos_iff.mpr nonempty
    constructor
    · intro kept
      rw [kept] at shorter
      omega
    · rintro ⟨suffix, differs⟩
      exact absurd (suffix.eq_of_length (Nat.le_antisymm suffix.length_le long)) differs

/-- Removing `old` from `front ++ old` leaves `front` just when every occurrence
that begins in `front` runs over its end, where `old` ends like `front`. -/
theorem remove_suffix_iff (nonempty : old ≠ []) (front : List α) :
    replace (front ++ old) old [] = front ↔
      ∀ tail, tail <:+ front → old <+: tail ++ old → tail <:+ old ∧ tail ≠ old := by
  induction front with
  | nil =>
      have removed : replace (old ++ []) old [] = [] ++ replace [] old [] :=
        replace_match nonempty []
      rw [List.append_nil, replace_nil nonempty] at removed
      refine iff_of_true removed ?_
      intro tail suffix _
      rw [List.suffix_nil.mp suffix]
      exact ⟨List.nil_suffix, nonempty.symm⟩
  | cons c front ih =>
      by_cases found : old <+: c :: front ++ old
      · -- the first occurrence is here: the later ones begin in shorter ends
        rw [remove_of_match nonempty found]
        constructor
        · rintro ⟨suffix, differs⟩ tail inner _
          refine ⟨inner.trans suffix, ?_⟩
          rintro rfl
          exact differs (suffix.eq_of_length (Nat.le_antisymm suffix.length_le inner.length_le))
        · intro ends
          exact ends _ List.suffix_rfl found
      · have kept : replace (c :: front ++ old) old [] = c :: replace (front ++ old) old [] :=
          replace_cons nonempty found
        simp only [kept, List.cons.injEq, true_and, ih]
        constructor
        · intro ends tail suffix occurs
          rcases List.suffix_cons_iff.mp suffix with rfl | inner
          · exact absurd occurs found
          · exact ends tail inner occurs
        · intro ends tail suffix
          exact ends tail (suffix.trans (List.suffix_cons c front))

end Replace
