import LedgerIndex.Failure
import LedgerIndex.Payload

/-!
# Asking the node

The payout of a staking transaction is asked for with one JSON-RPC request. A reply
is taken whole or not at all: the outputs it lists are the answer only if it carries
no error, names the expected encoding, and every listed output decodes.
-/
namespace LedgerIndex.Node
open Json

def method : String := "platform.getRewardUTXOs"

/-- The endpoint below the address of a node. -/
def endpoint : String := "/ext/bc/P"

/-- What is sent to ask for the payout of a transaction. -/
def request (transaction : Identifier) : Json :=
  Json.ofMembers
    [("jsonrpc", Json.ofString "2.0"), ("id", Json.ofNat 1), ("method", Json.ofString method),
     ("params", Json.ofMembers
       [("txID", Json.ofString transaction.text), ("encoding", Json.ofString "hex")])]

/-- An error that the node reports. -/
structure Problem where
  code : Int
  text : String
deriving DecidableEq, Repr

/-- A result that the node reports. -/
structure Payout where
  fetched : String
  outputs : List String
  encoding : String
deriving DecidableEq, Repr

structure Reply where
  result : Option Payout
  error : Option Problem
deriving DecidableEq, Repr

def Problem.decode : Decoder Problem
  | 0, _ => none
  | levels + 1, j => do
    let r ← record? ["code", "message"] j
    return {
      code := ← r.get "code" (asInt (-2 ^ 63) (2 ^ 63 - 1) levels)
      text := ← r.get "message" (asText levels) }

def Payout.decode : Decoder Payout
  | 0, _ => none
  | levels + 1, j => do
    let r ← record? ["numFetched", "utxos", "encoding"] j
    return {
      fetched := ← r.getD "numFetched" "" (asText levels)
      outputs := ← r.getD "utxos" [] (asList asText levels)
      encoding := ← r.getD "encoding" "" (asText levels) }

/-- Either member may be missing from an object, but not from an array. -/
def Reply.decode : Decoder Reply
  | 0, _ => none
  | levels + 1, j => do
    let r ← record? ["result", "error"] j
    match j with
    | .array items => if items.length ≠ 2 then none
    | _ => pure ()
    return {
      result := ← r.getD "result" none (asOption Payout.decode levels)
      error := ← r.getD "error" none (asOption Problem.decode levels) }

/-- The outputs that a reply gives. -/
def Reply.outputs (reply : Reply) : Except Failure (List Bytes) :=
  match reply.error with
  | some e => .error (.node (.refused method e.code e.text))
  | none =>
    match reply.result with
    | none => .error (.node (.noResult method))
    | some payout =>
      if payout.encoding = "hex" then
        payout.outputs.mapM fun s =>
          (Text.Checked.decodeHex s).mapError fun f => .decoding (.checked f)
      else .error (.node (.encoding payout.encoding))

/-- Replies with these statuses have no body. -/
def bodiless : List Nat := [204, 304]

/-- A status that is final and blames neither side. -/
def isAcceptable (status : Nat) : Bool :=
  200 ≤ status && (status < 400 || 600 ≤ status) && status < 1000

/-- The outputs that a response gives, from its status and body. -/
def interpret (status : Nat) (body : Bytes) : Except Failure (List Bytes) :=
  if !isAcceptable status then .error (.node .badReply)
  else
    match decodeBody Reply.decode (if bodiless.contains status then [] else body) with
    | none => .error (.node .badReply)
    | some reply => reply.outputs

end LedgerIndex.Node
