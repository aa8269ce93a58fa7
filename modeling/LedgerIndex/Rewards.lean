import LedgerIndex.Indexing.Handling

/-!
# Staking rewards

Rewards are not delivered by the stream. A cycle lists the rewards whose block was
decided a while ago, asks the node for the payout of each, writes the outputs in one
session and then flags the reward. The first failure ends the cycle; what it leaves
is found again by the next.
-/
namespace LedgerIndex.Rewards

/-- Names the source in counters. -/
def label : String := "rewards"

/-- Payouts belong to the platform chain, which has the identifier of zeros. -/
def writer (s : Settings) : Writer :=
  ⟨(Fixed.zero 32).text, s.asset, s.part, false⟩

/-- Reads an output as the node gives it. -/
def decodeOutput (bs : Bytes) : Except Failure PlacedOutput :=
  match Json.decodeBody PlacedOutput.decode bs with
  | some o => .ok o
  | none => .error (.decoding .payload)

/-- Writes one output of a payout. -/
def payOut (s : Settings) (r : PendingReward) (o : PlacedOutput) : Script Unit := do
  let w := writer s
  let _ ← w.placeOutput ⟨r.created, s.overwrite⟩ ⟨o.transaction, o.index, w.chain⟩ o.asset
    false false 0 0 o.state

/-- Settles one reward. An aborted one pays nothing. -/
def settle (s : Settings) (r : PendingReward) : Script Unit :=
  if r.block = .abort then do
    Script.log (.rewardAborted r.id r.transaction)
    Script.call (.markReward r.id)
  else do
    let encoded ← Script.call (.rewardOutputs r.transaction)
    if encoded.isEmpty then Script.fail (.node (.noOutputs r.transaction))
    let outputs ← Script.ofExcept (encoded.mapM decodeOutput)
    Script.call .begin
    outputs.forM (payOut s r)
    Script.call .commit
    Script.call (.markReward r.id)
    Script.log (.rewardApplied r.id r.transaction outputs.length)

/-- Settles what is pending before the cutoff; the result is how many there were. -/
def scan (s : Settings) (cutoff : Timestamp) : Script Nat := do
  let pending ← Script.call (.pendingRewards cutoff)
  pending.forM (settle s)
  return pending.length

/-- The longest window in seconds. -/
def maxWindow : Nat := 9223372036854775

/-- The moment before which rewards are due, if it is representable. -/
def cutoff (now : Timestamp) (window : UInt64) : Except Failure (Option Timestamp) :=
  if maxWindow < window.toNat then .error (.settings .windowTooLong)
  else .ok (now.before? window.toNat)

/-- One cycle; there is none if the cutoff is not representable. -/
def cycle? (s : Settings) (now : Timestamp) : Option (Script Nat) :=
  match cutoff now s.rewards.window with
  | .error f => some (.fail f)
  | .ok none => none
  | .ok (some t) => some (scan s t)

/-- A poller runs cycles one after another until a stop is requested. -/
inductive Poller where
  | idle
  | cycling (run : Run Nat)
  | stopped
  | crashed

namespace Poller

/-- The shortest time between two cycles in milliseconds. -/
def minPeriod : Nat := 100

/-- Milliseconds between two cycles. -/
def period (s : Settings) : Nat :=
  max (s.rewards.interval.toNat * 1000) minPeriod

def start (s : Settings) (ix : Indexer) : Indexer × Poller :=
  (ix.note (.pollerStarted s.rewards.interval s.rewards.window), .idle)

/-- It is time for a cycle. A stop is heeded only here. -/
def tick (s : Settings) (now : Timestamp) (ix : Indexer) : Poller → Indexer × Poller
  | .idle =>
    if ix.stopping then (ix.note .pollerStopped, .stopped)
    else match cycle? s now with
      | none => (ix, .crashed)
      | some script => (ix, .cycling (.start script))
  | poller => (ix, poller)

/-- The account of a cycle. One without anything to settle is not worth an event. -/
def conclude (result : Except Failure Nat) (ix : Indexer) : Indexer × Poller :=
  let ix := ix.count label .processed
  let ix := match result with
    | .ok 0 => ix
    | .ok applied => (ix.count label .success).note (.cycleDone applied)
    | .error f => (ix.count label .failure).note (.setback .rewardCycle f)
  (ix, .idle)

/-- One step of the cycle in progress. -/
def step (answer : Answer) (ix : Indexer) : Poller → Indexer × Poller
  | .cycling run =>
    match run.result? with
    | some result => conclude result ix
    | none =>
      let (ix, run) := ix.stepRun answer run
      (ix, .cycling run)
  | poller => (ix, poller)

def need : Poller → Need
  | .cycling run => match run.need with
    | .over => .nothing
    | need => need
  | _ => .over

end Poller
end LedgerIndex.Rewards
