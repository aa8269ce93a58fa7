import LedgerIndex.Payload
import LedgerIndex.Timestamp

/-!
# Deliveries

A stream delivers messages on topics. Three topics belong to a chain, one for each
kind of payload; the messages of one partition are kept in order.
-/
namespace LedgerIndex

/-- The topic names of one chain. -/
structure Topics where
  main : String
  trace : String
  logs : String
deriving DecidableEq, Repr

namespace Topics

/-- The main topic names network, chain and base; the others follow from it. -/
def ofChain (network : UInt32) (chain base : String) : Topics :=
  let main := s!"{network}-{chain}-{base}"
  { main, trace := main ++ "-trc", logs := main ++ "-logs" }

/-- What a topic carries, if it is one of these. -/
def route (t : Topics) (topic : String) : Option PayloadKind :=
  if topic = t.main then some .block
  else if topic = t.trace then some .trace
  else if topic = t.logs then some .logs
  else none

def all (t : Topics) : List String :=
  [t.main, t.trace, t.logs]

end Topics

/-- A message as a source hands it over. The handle is what the source knows it by. -/
structure Delivery where
  handle : String
  topic : String
  partition : String
  message : String
  body : Bytes
  time : Timestamp
deriving DecidableEq

/-- The final state of a delivered message: all its rows are committed, or it
failed for good and was reported. -/
inductive Outcome where
  | processed
  | dropped
deriving DecidableEq, Repr

end LedgerIndex
