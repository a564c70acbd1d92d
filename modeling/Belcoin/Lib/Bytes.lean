import Mathlib.Algebra.Group.Nat.Defs

/-!
Numbers as bytes, and slices of a list.

* `littleEndian` — a number as so many bytes, least significant first, and
  `ofLittleEndian`, which reads it back.
* `slice` — the slice of a list between two positions that may be counted from its end,
  as in Python.
-/

universe u

namespace ByteString

/-! ### Numbers -/

/-- A number as `k` bytes. What does not fit is cut off. -/
def littleEndian : Nat → Nat → List UInt8
  | 0, _ => []
  | k + 1, n => UInt8.ofNat n :: littleEndian k (n / 256)

/-- The number that bytes stand for. -/
def ofLittleEndian : List UInt8 → Nat
  | [] => 0
  | byte :: bytes => byte.toNat + 256 * ofLittleEndian bytes

@[simp] theorem length_littleEndian (k n : Nat) : (littleEndian k n).length = k := by
  induction k generalizing n with
  | zero => rfl
  | succ k ih => rw [littleEndian, List.length_cons, ih]

/-- A number that fits is read back. -/
theorem ofLittleEndian_littleEndian {k n : Nat} (small : n < 256 ^ k) :
    ofLittleEndian (littleEndian k n) = n := by
  induction k generalizing n with
  | zero =>
      rw [pow_zero] at small
      rw [littleEndian, ofLittleEndian]
      omega
  | succ k ih =>
      have rest : n / 256 < 256 ^ k := by
        rw [pow_succ] at small
        exact Nat.div_lt_of_lt_mul (by rwa [Nat.mul_comm] at small)
      rw [littleEndian, ofLittleEndian, ih rest, UInt8.toNat_ofNat']
      exact Nat.mod_add_div n 256

/-! ### Slices -/

variable {α : Type u}

/-- A position: one below zero is counted from the end. -/
def position (xs : List α) (i : Int) : Nat :=
  if i < 0 then (xs.length + i).toNat else i.toNat

/-- `xs[start:stop]` -/
def slice (xs : List α) (start stop : Int) : List α :=
  (xs.take (position xs stop)).drop (position xs start)

/-- `xs[start:]` -/
def sliceFrom (xs : List α) (start : Int) : List α :=
  xs.drop (position xs start)

theorem position_natCast (xs : List α) (n : Nat) : position xs n = n := by
  rw [position, if_neg (by omega), Int.toNat_natCast]

/-- Between positions that lie inside, a slice is what it is in the middle. -/
theorem slice_middle (before part after : List α) :
    slice (before ++ (part ++ after)) before.length (before.length + part.length : Nat) = part := by
  rw [slice, position_natCast, position_natCast, ← List.append_assoc, ← List.length_append,
    List.take_left, List.drop_left]

theorem sliceFrom_append (before after : List α) :
    sliceFrom (before ++ after) before.length = after := by
  rw [sliceFrom, position_natCast, List.drop_left]

/-- What is behind a slice that is not empty is shorter than the list. -/
theorem length_sliceFrom_lt {xs : List α} (start : Int) {stop : Int}
    (some : slice xs start stop ≠ []) : (sliceFrom xs stop).length < xs.length := by
  have inside := List.length_pos_iff.mpr some
  rw [slice, List.length_drop, List.length_take] at inside
  rw [sliceFrom, List.length_drop]
  omega

end ByteString
