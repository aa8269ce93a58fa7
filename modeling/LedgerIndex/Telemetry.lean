import LedgerIndex.Journal

/-!
# Telemetry

How the journal is shown, and the events at the beginning and the end of showing it.
-/
namespace LedgerIndex

structure Telemetry where
  service : String := "utxo-indexer"
  filter : String := "info,sqlx=warn"
  colors : Bool := true
  target : Bool := true
  threads : Bool := false
deriving DecidableEq, Repr

namespace Telemetry

/-- Told however often telemetry is set up. -/
def opening (t : Telemetry) : List Event := [.telemetryReady t.service]

def closing (t : Telemetry) : List Event := [.telemetryEnding t.service]

end Telemetry
end LedgerIndex
