/-!
# A notice

Tells a waiting keeper that there is new work. Notices that are raised before one is
taken are one notice.
-/
namespace LedgerIndex

structure Notice where
  raised : Bool
deriving DecidableEq, Repr

namespace Notice

def empty : Notice := ⟨false⟩

def raise (_ : Notice) : Notice := ⟨true⟩

/-- Takes the notice if there is one. -/
def take (n : Notice) : Bool × Notice := (n.raised, ⟨false⟩)

end Notice
end LedgerIndex
