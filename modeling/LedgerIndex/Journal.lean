import LedgerIndex.Failure
import LedgerIndex.Meters
import LedgerIndex.Payload
import LedgerIndex.Text.Redacted

/-!
# Journal

What the indexer tells about its work. An event is kept by its meaning; level,
text and fields are its written form.
-/
namespace LedgerIndex

inductive Level where
  | debug
  | info
  | warn
  | error
deriving DecidableEq, Repr

def Level.name : Level → String
  | .debug => "debug"
  | .info => "info"
  | .warn => "warn"
  | .error => "error"

/-- What a failure was met with in passing. -/
inductive Setback where
  | reading
  | acknowledging
  | rewardCycle
deriving DecidableEq, Repr

def Setback.text : Setback → String
  | .reading => "Failed to read from source"
  | .acknowledging => "Failed to acknowledge message"
  | .rewardCycle => "Rewards cycle failed"

/-- A message as events name it. -/
structure Subject where
  message : String
  topic : String
  kind : PayloadKind
deriving DecidableEq

inductive Event where
  | startup (chain database : String) (node : Option String) (topics : List String)
  | telemetryReady (service : String)
  | telemetryEnding (service : String)
  | ignored (topic : String)
  | handled (subject : Subject)
  | interrupted (subject : Subject)
  | failed (subject : Subject) (failure : Failure)
  | contended (content : Identifier) (kind : PayloadKind) (attempt delay : Nat) (failure : Failure)
  | unindexedSpend (output transaction : Identifier) (index : UInt32) (chain : String)
  | feedStarted (source : String) (topics : List String) (workers : Nat)
  | feedExhausted (source : String)
  | feedStopped
  | batchDone (processed dropped : Nat)
  | setback (what : Setback) (failure : Failure)
  | pollerStarted (interval window : UInt64)
  | pollerStopped
  | rewardAborted (reward : String) (transaction : Identifier)
  | rewardApplied (reward : String) (transaction : Identifier) (outputs : Nat)
  | cycleDone (applied : Nat)
  | counted (source : String) (counts : Counts)
deriving DecidableEq

namespace Event

def level : Event → Level
  | telemetryReady _ | ignored _ | handled _ | rewardAborted .. | rewardApplied .. => .debug
  | contended .. => .warn
  | failed .. | unindexedSpend .. | setback .. => .error
  | _ => .info

def text : Event → String
  | startup .. => "UTXO indexer startup"
  | telemetryReady _ => "Telemetry initialised"
  | telemetryEnding _ => "Telemetry shutting down"
  | ignored _ => "Ignoring message on unknown topic"
  | handled _ => "Processed message"
  | interrupted _ => "Shutdown during contended write, leaving message for redelivery"
  | failed .. => "Failed to consume message"
  | contended .. => "Write contended, retrying"
  | unindexedSpend .. => "Spending an output that was never indexed"
  | feedStarted .. => "Dispatcher started"
  | feedExhausted _ => "Source exhausted"
  | feedStopped => "Dispatcher stopped"
  | batchDone .. => "Batch processed"
  | setback .. => "Indexer error"
  | pollerStarted .. => "Rewards poller started"
  | pollerStopped => "Rewards poller stopped"
  | rewardAborted .. => "Reward aborted"
  | rewardApplied .. => "Reward applied"
  | cycleDone _ => "Rewards cycle complete"
  | counted .. => "Consume metrics"

def subjectFields (s : Subject) : List (String × String) :=
  [("message_id", s.message), ("topic", s.topic), ("kind", s.kind.label)]

/-- A failure without settled wording leaves no field. -/
def failureFields (f : Failure) : List (String × String) :=
  (f.message?.map fun m => ("error", m)).toList

def fields : Event → List (String × String)
  | startup chain database node topics =>
    [("chain_id", chain), ("database_url", Text.Redacted.redact database),
     ("node_rpc_url", node.getD "disabled"), ("topics", Text.Quoted.list topics)]
  | telemetryReady service | telemetryEnding service => [("service", service)]
  | ignored topic => [("topic", topic)]
  | handled s | interrupted s => subjectFields s
  | failed s f => subjectFields s ++ failureFields f
  | contended content kind attempt delay f =>
    [("content_id", content.text), ("kind", kind.label), ("attempt", toString attempt),
     ("delay_ms", toString delay)] ++ failureFields f
  | unindexedSpend output transaction index chain =>
    [("output_id", output.text), ("tx_id", transaction.text), ("output_index", toString index),
     ("chain_id", chain)]
  | feedStarted source topics workers =>
    [("source", source), ("topics", Text.Quoted.list topics), ("workers", toString workers)]
  | feedExhausted source => [("source", source)]
  | feedStopped | pollerStopped => []
  | batchDone processed dropped =>
    [("processed", toString processed), ("failed", toString dropped)]
  | setback what f => ("context", what.text) :: failureFields f
  | pollerStarted interval window =>
    [("interval_secs", toString interval), ("quiescence_secs", toString window)]
  | rewardAborted reward transaction =>
    [("reward_id", reward), ("tx_id", transaction.text)]
  | rewardApplied reward transaction outputs =>
    [("reward_id", reward), ("tx_id", transaction.text), ("outputs", toString outputs)]
  | cycleDone applied => [("applied", toString applied)]
  | counted source c =>
    [("source", source), ("processed", toString c.processed), ("success", toString c.success),
     ("failure", toString c.failure), ("retry", toString c.retry)]

/-- The summary of a batch; an empty batch is not worth one. -/
def batchSummary (processed dropped : Nat) : List Event :=
  if processed = 0 then [] else [.batchDone processed dropped]

/-- One event for each source that has counts. -/
def counters (m : Meters) : List Event :=
  m.toList.map fun c => .counted c.1 c.2

end Event
end LedgerIndex
