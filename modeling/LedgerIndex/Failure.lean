import LedgerIndex.Curve.Ecdsa
import LedgerIndex.Identifier
import LedgerIndex.Text.Bech32
import LedgerIndex.Text.Numeral

/-!
# Failures

Everything that can go wrong, by cause. Only competition between writers passes
when the same write is tried again; every other failure is final. Anything
outside (the store, the node) may report a failure of any class in its own words.
A number that leaves its range ends the program and is reported to nobody; totals
that start from zero stay within theirs.
-/
namespace LedgerIndex

/-- What the connection to a store reports. -/
inductive StoreFault where
  | poolTimedOut
  | poolClosed
  | rowNotFound
  | rejected (state : Option String)
deriving DecidableEq, Repr

/-- Why bytes or a text do not decode. -/
inductive DecodingFault where
  | payload
  | checked (fault : Text.Checked.Fault)
  | identifierSize (got : Nat)
  | addressSize (got : Nat)
  | signatureSize (got : Nat)
  | curve (fault : Curve.Ecdsa.Fault)
  | lockedOutput (transaction : Identifier) (index : UInt32)
  | outputIndex (index : Nat)
  | reported (text : String)
deriving DecidableEq

inductive NodeFault where
  | unreachable
  | badReply
  | refused (method : String) (code : Int) (text : String)
  | noResult (method : String)
  | encoding (name : String)
  | noOutputs (transaction : Identifier)
  | reported (text : String)
deriving DecidableEq

inductive InvariantFault where
  | spentUnindexed (output transaction : Identifier) (index : UInt32)
  | reported (text : String)
deriving DecidableEq

inductive SettingsFault where
  | missingDatabase
  | missingChain
  | missingAsset
  | badAsset (source : String) (fault : DecodingFault)
  | nothingPerBatch
  | noFirstDelay
  | ceilingTooLow (initial ceiling : UInt64)
  | badMultiplier (shown : String)
  | noPollInterval
  | badVariable (name source : String) (fault : Text.Numeral.Fault)
  | badPart (part : String) (fault : Text.Bech32.Fault)
  | windowTooLong
  | reported (text : String)
deriving DecidableEq

inductive EnvironmentFault where
  | missing
  | notText (content : Bytes)
deriving DecidableEq

inductive DataFault where
  | feeOverflow (fee : Nat) (transaction : Identifier)
  | reported (text : String)
deriving DecidableEq

inductive Failure where
  | store (fault : StoreFault)
  | contention (text : String)
  | decoding (fault : DecodingFault)
  | timeout (budget : Nat)
  | node (fault : NodeFault)
  | invariant (fault : InvariantFault)
  | settings (fault : SettingsFault)
  | environment (fault : EnvironmentFault)
  | data (fault : DataFault)
  | internal (text : String)
  | outOfRange
deriving DecidableEq

def StoreFault.message : StoreFault → String
  | .poolTimedOut => "pool timed out while waiting for an open connection"
  | .poolClosed => "attempted to acquire a connection on a closed pool"
  | .rowNotFound => "no rows returned by a query that expected to return at least one row"
  | .rejected _ => "error returned from database: store failure"

/-- The wording; a payload that is no JSON of the expected shape has none of its own. -/
def DecodingFault.message? : DecodingFault → Option String
  | .payload => none
  | .checked f => some f.message
  | .identifierSize n => some s!"Id must be 32 bytes, got {n}"
  | .addressSize n => some s!"ShortId must be 20 bytes, got {n}"
  | .signatureSize n => some s!"signature must be 65 bytes, got {n}"
  | .curve f => some s!"signature recovery failed: {f.message}"
  | .lockedOutput transaction index =>
    some s!"locked output {transaction}:{index} must wrap a transfer output"
  | .outputIndex n => some s!"output index {n} out of range"
  | .reported text => some text

/-- The wording; a node that cannot be talked to gives none. -/
def NodeFault.message? : NodeFault → Option String
  | .unreachable | .badReply => none
  | .refused method code text => some s!"{method} failed ({code}): {text}"
  | .noResult method => some s!"{method} returned no result"
  | .encoding name => some s!"expected hex encoding, node replied with '{name}'"
  | .noOutputs transaction => some s!"no reward UTXOs returned for tx {transaction}"
  | .reported text => some text

def InvariantFault.message : InvariantFault → String
  | .spentUnindexed output transaction index =>
    s!"output {output} ({transaction}:{index}) spent before it was indexed"
  | .reported text => text

def SettingsFault.message : SettingsFault → String
  | .missingDatabase => "Database URL is required"
  | .missingChain => "Chain ID is required"
  | .missingAsset => "Native asset ID is required"
  | .badAsset source fault =>
    s!"Invalid native asset ID '{source}': Decoding error: " ++ fault.message?.getD ""
  | .nothingPerBatch => "Batch size and worker threads must be positive"
  | .noFirstDelay => "Initial backoff must be positive"
  | .ceilingTooLow initial ceiling =>
    s!"Max backoff {ceiling}ms is below initial backoff {initial}ms"
  | .badMultiplier shown => s!"Backoff multiplier must be finite and at least 1, got {shown}"
  | .noPollInterval => "Rewards poll interval must be positive"
  | .badVariable name source fault => s!"Invalid {name} '{source}': {fault.message}"
  | .badPart part fault => s!"Invalid bech32 HRP '{part}': {fault.message}"
  | .windowTooLong =>
    "quiescence window: Source duration value is out of range for the target type"
  | .reported text => text

def EnvironmentFault.message : EnvironmentFault → String
  | .missing => "environment variable not found"
  | .notText content =>
    "environment variable was not valid unicode: " ++ Text.Quoted.bytes content

def DataFault.message : DataFault → String
  | .feeOverflow fee transaction => s!"fee {fee} of tx {transaction} overflows"
  | .reported text => text

/-- States in which a store reports that a write lost a race: serialization
failure, deadlock, lock not available. -/
def contendedStates : List String :=
  ["40001", "40P01", "55P03"]

namespace Failure

/-- The failure came from competing writers, so the same write may succeed when
it is tried again. -/
def isContention : Failure → Bool
  | .contention _ => true
  | .store .poolTimedOut => true
  | .store (.rejected (some state)) => contendedStates.contains state
  | _ => false

/-- The message, where its wording is settled. -/
def message? : Failure → Option String
  | .store f => some ("Database error: " ++ f.message)
  | .contention text => some ("Lock contention: " ++ text)
  | .decoding f => f.message?.map ("Decoding error: " ++ ·)
  | .timeout budget => some s!"Write timed out after {budget} ms"
  | .node f => f.message?.map ("RPC error: " ++ ·)
  | .invariant f => some ("Invariant violation: " ++ f.message)
  | .settings f => some ("Configuration error: " ++ f.message)
  | .environment f => some ("Environment variable error: " ++ f.message)
  | .data f => some ("Data error: " ++ f.message)
  | .internal text => some ("Internal error: " ++ text)
  | .outOfRange => none

end Failure

/-- Why a text or byte string is no identifier. -/
def Identifier.decodingFault : Fixed.Fault → DecodingFault
  | .text f => .checked f
  | .size n => .identifierSize n

/-- Why a text or byte string is no address. -/
def Address.decodingFault : Fixed.Fault → DecodingFault
  | .text f => .checked f
  | .size n => .addressSize n

end LedgerIndex
