import Mathlib.Data.NNRat.Floor
import Mathlib.Algebra.Order.Floor.Semiring

/-!
The constants of `belcoin_node/config.py` that the ledger and the proposer read.

A block's time is what `time.time()` gave its proposer: an exact non-negative
number of seconds here, where Python holds a float.
-/

namespace Belcoin

/-- Transactions in a full block. -/
def blockSize : Nat := 5000

/-- Ticks of the leader after which a smaller block is proposed. -/
def blockTimeout : Nat := 1000000000

/-- How many times `try_process` is tried again before the missing transactions
of a block are requested. -/
def backoffAmount : Nat := 300

/-- Nanoseconds in a second: timestamps and timeouts are in nanoseconds. -/
def timeMultiplier : Nat := 1000000000

def timeoutConst : Nat := 1000000000

def timelockConst : Nat := 1000000000

/-- `current_time * TIME_MULTIPLIER - timestamp`, which may be negative. The product is
exact here; Python rounds it to a double. -/
def elapsed (now : ℚ≥0) (timestamp : Nat) : ℚ :=
  (now : ℚ) * timeMultiplier - timestamp

/-- `int(current_time * TIME_MULTIPLIER)`, of the exact product. Python rounds it first:
`int(0.3 * 1e9)` is 300000000, though the double 0.3 is less than that. -/
def toTimestamp (now : ℚ≥0) : Nat := ⌊now * timeMultiplier⌋₊

/-- Time that has passed stays passed. -/
theorem elapsed_mono {now later : ℚ≥0} (le : now ≤ later) (timestamp : Nat) :
    elapsed now timestamp ≤ elapsed later timestamp := by
  unfold elapsed
  have nonneg : (0 : ℚ) ≤ (timeMultiplier : ℚ) := Nat.cast_nonneg _
  have := mul_le_mul_of_nonneg_right (NNRat.coe_le_coe.mpr le) nonneg
  linarith

end Belcoin
