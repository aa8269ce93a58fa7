import LedgerIndex.Radix

/-!
# Growing delays

The delay before a retry grows by a constant factor up to a ceiling. It is
computed in 64-bit binary floating point; a delay that is not a number stands for
the ceiling.
-/
namespace LedgerIndex

/-- No wait lasts longer than thirty years, in milliseconds; a longer one ends then. -/
def longestWait : Nat := 30 * 365 * 24 * 60 * 60 * 1000

/-- Delays in milliseconds. -/
structure Backoff where
  initial : UInt64
  ceiling : UInt64
  multiplier : Float
  jitter : Bool

instance : Inhabited Backoff := ⟨⟨100, 1000, 2.0, false⟩⟩

namespace Backoff

/-- `acc * base ^ n` by repeated squaring. -/
def power (acc base : Float) (n : Nat) : Float :=
  if n = 0 then acc
  else
    let acc := if n % 2 = 1 then acc * base else acc
    if n / 2 = 0 then acc else power acc (base * base) (n / 2)
termination_by n

/-- The smaller of two numbers; one that is not a number gives way. -/
def least (a b : Float) : Float :=
  if a.isNaN then b else if b.isNaN then a else if a ≤ b then a else b

/-- The exponent of the multiplier before a retry. -/
def exponent (attempt : Nat) : Nat :=
  min (attempt - 1) (2 ^ 31 - 1)

/-- The delay before the given retry, the first of which is number one, scaled by
a factor below the ceiling. -/
def delayScaled (b : Backoff) (factor : Float) (attempt : Nat) : UInt64 :=
  let base := b.initial.toFloat * power 1.0 b.multiplier (exponent attempt)
  let scaled := if b.jitter then base * factor else base
  (least scaled b.ceiling.toFloat).toUInt64

/-- The delay without a random factor. -/
def delay (b : Backoff) (attempt : Nat) : Nat :=
  (b.delayScaled 1.0 attempt).toNat

/-- How long the wait for the given retry takes. -/
def pause (b : Backoff) (attempt : Nat) : Nat :=
  min (b.delay attempt) longestWait

end Backoff
end LedgerIndex
