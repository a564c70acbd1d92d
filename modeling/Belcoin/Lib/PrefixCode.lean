/-!
Codes whose words can be split off the front of any longer word: the property
that makes the concatenation of the parts of a record determine the record.

* `PrefixFree.injective` — such a code determines what it encodes.
* `PrefixFree.pair`, `PrefixFree.list`, `PrefixFree.comap` — codes of records and
  lists from the codes of their parts.
-/

universe u v w

variable {α : Type u} {α' : Type v} {β : Type w}

/-- A code word and what follows it can be told apart. -/
def PrefixFree (code : α → List β) : Prop :=
  ∀ a b rest rest', code a ++ rest = code b ++ rest' → a = b ∧ rest = rest'

namespace PrefixFree

theorem injective {code : α → List β} (free : PrefixFree code) {a b : α}
    (same : code a = code b) : a = b :=
  (free a b [] [] (by rw [same])).1

/-- A symbol stands for itself. -/
theorem symbol : PrefixFree fun b : β => [b] := by
  intro a b rest rest' same
  simpa using same

/-- The words of a pair, one after the other. -/
def pairCode (code : α → List β) (code' : α' → List β) (p : α × α') : List β :=
  code p.1 ++ code' p.2

theorem pair {code : α → List β} {code' : α' → List β} (free : PrefixFree code)
    (free' : PrefixFree code') : PrefixFree (pairCode code code') := by
  rintro ⟨a, a'⟩ ⟨b, b'⟩ rest rest' same
  simp only [pairCode, List.append_assoc] at same
  obtain ⟨rfl, tails⟩ := free a b _ _ same
  obtain ⟨rfl, tails'⟩ := free' a' b' _ _ tails
  exact ⟨rfl, tails'⟩

/-- The words of a list, each after the symbol `more`, closed by `stop`. -/
def listCode (more stop : β) (code : α → List β) : List α → List β
  | [] => [stop]
  | a :: as => more :: (code a ++ listCode more stop code as)

theorem list {more stop : β} (apart : more ≠ stop) {code : α → List β} (free : PrefixFree code) :
    PrefixFree (listCode more stop code) := by
  intro as
  induction as with
  | nil =>
      intro bs rest rest' same
      cases bs with
      | nil => exact ⟨rfl, (List.cons.inj same).2⟩
      | cons b bs => exact absurd (List.cons.inj same).1.symm apart
  | cons a as ih =>
      intro bs rest rest' same
      cases bs with
      | nil => exact absurd (List.cons.inj same).1 apart
      | cons b bs =>
          simp only [listCode, List.cons_append, List.append_assoc, List.cons.injEq,
            true_and] at same
          obtain ⟨rfl, tails⟩ := free a b _ _ same
          obtain ⟨rfl, tails'⟩ := ih bs _ _ tails
          exact ⟨rfl, tails'⟩

/-- A number as so many symbols. -/
def natCode (more stop : β) : Nat → List β
  | 0 => [stop]
  | n + 1 => more :: natCode more stop n

theorem nat {more stop : β} (apart : more ≠ stop) : PrefixFree (natCode more stop) := by
  intro n
  induction n with
  | zero =>
      intro m rest rest' same
      cases m with
      | zero => exact ⟨rfl, (List.cons.inj same).2⟩
      | succ m => exact absurd (List.cons.inj same).1.symm apart
  | succ n ih =>
      intro m rest rest' same
      cases m with
      | zero => exact absurd (List.cons.inj same).1 apart
      | succ m =>
          obtain ⟨rfl, tails⟩ := ih m _ _ (List.cons.inj same).2
          exact ⟨rfl, tails⟩

/-- A record is coded as what determines it. -/
theorem comap {code : α' → List β} (free : PrefixFree code) {parts : α → α'}
    (determines : ∀ a b, parts a = parts b → a = b) : PrefixFree fun a => code (parts a) := by
  intro a b rest rest' same
  obtain ⟨eq, tails⟩ := free _ _ _ _ same
  exact ⟨determines a b eq, tails⟩

end PrefixFree
