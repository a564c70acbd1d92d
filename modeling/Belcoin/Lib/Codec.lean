/-!
Codes with a reader: what was written is read back from the front of any longer word,
and what follows it is left.

* `Codec.nat`, `Codec.pair`, `Codec.list` — numbers, records and lists.
* `Codec.image` — a value coded as the parts it is built from.
-/

universe u v w

variable {α : Type u} {α' : Type v} {β : Type w}

/-- A writer and a reader that undoes it. -/
structure Codec (α : Type u) (β : Type w) where
  write : α → List β
  read : List β → Option (α × List β)
  read_write : ∀ a rest, read (write a ++ rest) = some (a, rest)

namespace Codec

/-- A symbol stands for itself. -/
def symbol (β : Type w) : Codec β β where
  write b := [b]
  read
    | [] => none
    | b :: rest => some (b, rest)
  read_write _ _ := rfl

/-- One part after the other. -/
def pair (first : Codec α β) (second : Codec α' β) : Codec (α × α') β where
  write p := first.write p.1 ++ second.write p.2
  read word := (first.read word).bind fun p => (second.read p.2).map fun q => ((p.1, q.1), q.2)
  read_write p rest := by
    rw [List.append_assoc, first.read_write]
    exact congrArg (Option.map _) (second.read_write p.2 rest)

/-- A value coded as its parts. -/
def image (code : Codec α' β) (parts : α → α') (build : α' → α)
    (rebuilds : ∀ a, build (parts a) = a) : Codec α β where
  write a := code.write (parts a)
  read word := (code.read word).map fun p => (build p.1, p.2)
  read_write a rest := by
    rw [code.read_write]
    exact congrArg (fun a => some (a, rest)) (rebuilds a)

/-- Read a number written as so many symbols before a last one. -/
def readNat [DecidableEq β] (stop : β) : List β → Option (Nat × List β)
  | [] => none
  | b :: rest => if b = stop then some (0, rest) else (readNat stop rest).map fun p => (p.1 + 1, p.2)

theorem readNat_write [DecidableEq β] {more stop : β} (apart : more ≠ stop) (n : Nat)
    (rest : List β) :
    readNat stop (List.replicate n more ++ stop :: rest) = some (n, rest) := by
  induction n with
  | zero => exact if_pos rfl
  | succ n ih =>
      rw [List.replicate_succ, List.cons_append, readNat, if_neg apart, ih]
      rfl

/-- A number as so many symbols. -/
def nat [DecidableEq β] {more stop : β} (apart : more ≠ stop) : Codec Nat β where
  write n := List.replicate n more ++ [stop]
  read := readNat stop
  read_write n rest := by
    rw [List.append_assoc]
    exact readNat_write apart n rest

/-- Read so many values. -/
def readMany (code : Codec α β) : Nat → List β → Option (List α × List β)
  | 0, word => some ([], word)
  | n + 1, word => (code.read word).bind fun p =>
      (readMany code n p.2).map fun q => (p.1 :: q.1, q.2)

theorem readMany_write (code : Codec α β) (as : List α) (rest : List β) :
    readMany code as.length (as.flatMap code.write ++ rest) = some (as, rest) := by
  induction as with
  | nil => rfl
  | cons a as ih =>
      rw [List.flatMap_cons, List.append_assoc, List.length_cons, readMany, code.read_write]
      exact congrArg (Option.map _) ih

/-- The values of a list, after their number. -/
def list (count : Codec Nat β) (code : Codec α β) : Codec (List α) β where
  write as := count.write as.length ++ as.flatMap code.write
  read word := (count.read word).bind fun p => readMany code p.1 p.2
  read_write as rest := by
    rw [List.append_assoc, count.read_write]
    exact readMany_write code as rest

end Codec
