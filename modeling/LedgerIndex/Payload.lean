import LedgerIndex.Transaction.Encoding

/-!
# Payloads

What the body of a message carries: a block of transactions, an execution trace,
or a log entry. A body is the compact or any other JSON text of the payload.
-/
namespace LedgerIndex
open Json

structure Block where
  transactions : List Transaction
deriving DecidableEq

structure Trace where
  hash : String
  index : UInt32
  content : Bytes
deriving DecidableEq

structure Log where
  blockHash : String
  transactionHash : String
  index : UInt32
  address : String
  topics : List String
  data : Bytes
  removed : Bool
deriving DecidableEq

def Block.decode : Decoder Block
  | 0, _ => none
  | levels + 1, j => do
    let r ← record? ["txs"] j
    return { transactions := ← r.getD "txs" [] (asList Transaction.decode levels) }

def Block.encode (b : Block) : Json :=
  Json.ofMembers [("txs", .array (b.transactions.map Transaction.encode))]

def Trace.decode : Decoder Trace
  | 0, _ => none
  | levels + 1, j => do
    let r ← record? ["hash", "idx", "trace"] j
    return {
      hash := ← r.get "hash" (asText levels)
      index := ← r.get "idx" (asUInt32 levels)
      content := ← r.get "trace" (asBytes levels) }

def Trace.encode (t : Trace) : Json :=
  Json.ofMembers
    [("hash", Json.ofString t.hash), ("idx", Json.ofNat t.index.toNat),
     ("trace", encodeBytes t.content)]

def Log.decode : Decoder Log
  | 0, _ => none
  | levels + 1, j => do
    let r ← record? ["block_hash", "tx_hash", "log_index", "address", "topics", "data", "removed"] j
    return {
      blockHash := ← r.get "block_hash" (asText levels)
      transactionHash := ← r.get "tx_hash" (asText levels)
      index := ← r.get "log_index" (asUInt32 levels)
      address := ← r.get "address" (asText levels)
      topics := ← r.getD "topics" [] (asList asText levels)
      data := ← r.getD "data" [] (asBytes levels)
      removed := ← r.getD "removed" false (asBool levels) }

def Log.encode (l : Log) : Json :=
  Json.ofMembers
    [("block_hash", Json.ofString l.blockHash), ("tx_hash", Json.ofString l.transactionHash),
     ("log_index", Json.ofNat l.index.toNat), ("address", Json.ofString l.address),
     ("topics", .array (l.topics.map Json.ofString)), ("data", encodeBytes l.data),
     ("removed", Json.ofBool l.removed)]

/-- Reads a whole body. -/
def Json.decodeBody {α : Type} (decode : Decoder α) (body : Bytes) : Option α :=
  (Json.read body).bind (decode maxLevels)

inductive PayloadKind where
  | block
  | trace
  | logs
deriving DecidableEq, Repr

/-- Names the kind in counters and events. -/
def PayloadKind.label : PayloadKind → String
  | .block => "block"
  | .trace => "trace"
  | .logs => "logs"

inductive Payload where
  | block (b : Block)
  | trace (t : Trace)
  | log (l : Log)
deriving DecidableEq

namespace Payload

def kind : Payload → PayloadKind
  | .block _ => .block
  | .trace _ => .trace
  | .log _ => .logs

/-- Reads the body of a message that carries the given kind. -/
def decode? : PayloadKind → Bytes → Option Payload
  | .block, body => .block <$> Json.decodeBody Block.decode body
  | .trace, body => .trace <$> Json.decodeBody Trace.decode body
  | .logs, body => .log <$> Json.decodeBody Log.decode body

/-- The identifier of the content: a trace is known by its bytes, anything else by
the whole body. -/
def content (body : Bytes) : Payload → Identifier
  | .trace t => Identifier.ofContent t.content
  | _ => Identifier.ofContent body

end Payload
end LedgerIndex
