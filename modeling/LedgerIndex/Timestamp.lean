import LedgerIndex.Radix
import Std.Data.ExtTreeMap

/-!
# Moments

Seconds since the epoch and nanoseconds within the second. In the last second of
a minute the nanoseconds may run past a billion, which is a leap second.
-/
namespace LedgerIndex

structure Timestamp where
  seconds : Int
  nanos : Nat
deriving DecidableEq, Repr

namespace Timestamp

def epoch : Timestamp := ⟨0, 0⟩

instance : Inhabited Timestamp := ⟨epoch⟩

/-- The first second of the first representable year. -/
def firstSecond : Int := -8334601228800

/-- The last second of the last representable year. -/
def lastSecond : Int := 8210266876799

/-- The moment with these parts, if there is one. -/
def ofParts? (seconds : Int) (nanos : Nat) : Option Timestamp :=
  if firstSecond ≤ seconds ∧ seconds ≤ lastSecond ∧
      (nanos < 10 ^ 9 ∨ nanos < 2 * 10 ^ 9 ∧ seconds % 60 = 59) then
    some ⟨seconds, nanos⟩
  else none

/-- The moment with these parts; the epoch if there is none. -/
def ofParts (seconds : Int) (nanos : Nat) : Timestamp :=
  (ofParts? seconds nanos).getD epoch

instance : Ord Timestamp where
  compare a b := (compare a.seconds b.seconds).then (compare a.nanos b.nanos)

instance : LT Timestamp := ltOfOrd
instance : LE Timestamp := leOfOrd

/-- The moment a number of seconds earlier, if it is representable. -/
def before? (t : Timestamp) (seconds : Nat) : Option Timestamp :=
  ofParts? (t.seconds - seconds) t.nanos

end Timestamp
end LedgerIndex
