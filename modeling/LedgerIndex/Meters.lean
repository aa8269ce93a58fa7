import Std.Data.ExtTreeMap

/-!
# Meters

Counters of what became of the work, kept apart by where the work came from.
-/
namespace LedgerIndex

structure Counts where
  processed : Nat
  success : Nat
  failure : Nat
  retry : Nat
deriving DecidableEq, Repr

instance : Inhabited Counts := ⟨⟨0, 0, 0, 0⟩⟩

/-- What a counter counts. -/
inductive Tally where
  | processed
  | success
  | failure
  | retry
deriving DecidableEq, Repr

def Counts.add (c : Counts) : Tally → Counts
  | .processed => { c with processed := c.processed + 1 }
  | .success => { c with success := c.success + 1 }
  | .failure => { c with failure := c.failure + 1 }
  | .retry => { c with retry := c.retry + 1 }

/-- Counts for each source, in the order of their names. -/
structure Meters where
  sources : Std.ExtTreeMap String Counts compare

namespace Meters

def empty : Meters := ⟨∅⟩

def counts (m : Meters) (source : String) : Counts :=
  m.sources[source]?.getD default

def record (m : Meters) (source : String) (what : Tally) : Meters :=
  ⟨m.sources.insert source ((m.counts source).add what)⟩

theorem counts_record (m : Meters) (source other : String) (what : Tally) :
    (m.record source what).counts other =
      if source = other then (m.counts source).add what else m.counts other := by
  by_cases h : source = other <;>
    simp [record, counts, Std.ExtTreeMap.getElem?_insert, Std.LawfulEqCmp.compare_eq_iff_eq, h]

/-- Every source that has counts. -/
def toList (m : Meters) : List (String × Counts) :=
  m.sources.toList

end Meters
end LedgerIndex
