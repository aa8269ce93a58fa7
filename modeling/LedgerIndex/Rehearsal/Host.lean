import LedgerIndex.Backoff
import LedgerIndex.Script

/-!
# A host with planned disruptions

A rehearsal answers calls itself, in virtual milliseconds. For each place where a
call may be disrupted there is a queue of disruptions; a call takes the first one,
and leaves it there if it is to stay forever.
-/
namespace LedgerIndex.Rehearsal

/-- What a disruption does to a call. -/
inductive Effect where
  | nothing
  | delay (duration : Nat)
  | failure (failure : Failure)
deriving DecidableEq

/-- A disruption strikes before the call, or once a consumer has done its writes. -/
structure Disruption where
  effect : Effect
  afterwards : Bool
  forever : Bool
deriving DecidableEq

/-- Where calls are disrupted. A consumer is known by the second of its message. -/
inductive Site where
  | begin
  | pending
  | mark
  | node
  | consumer (second : Int)
deriving DecidableEq, Repr

abbrev Plan := List (Site × List Disruption)

namespace Plan

/-- Replaces the queue of a place. -/
def set (plan : Plan) (site : Site) (queue : List Disruption) : Plan :=
  (site, queue) :: plan.filter (·.1 ≠ site)

/-- The disruption that strikes next at a place. -/
def take (plan : Plan) (site : Site) : Option Disruption × Plan :=
  match plan.lookup site with
  | none | some [] => (none, plan)
  | some (d :: rest) => (some d, if d.forever then plan else plan.set site rest)

end Plan

/-- The surroundings of a rehearsal. Stops may be requested ahead, for several
moments. -/
structure Host where
  now : Nat
  stops : List Nat
  plan : Plan
  payouts : List (Identifier × List Bytes)
  consumerCalls : Nat
  asked : List Identifier

namespace Host

def start : Host := ⟨0, [], [], [], 0, []⟩

/-- The moment at which a wait that begins now is over. -/
def later (host : Host) (duration : Nat) : Nat :=
  host.now + min duration longestWait

/-- Requests a stop ahead. -/
def stopAfter (host : Host) (duration : Nat) : Host :=
  { host with stops := host.later duration :: host.stops }

/-- A stop is due before the given moment. -/
def stopsBefore (host : Host) (moment : Nat) : Bool :=
  host.stops.any (· < moment)

/-- Waits for the stop that is due first, if there is any. -/
def waitForStop? (host : Host) : Option Host :=
  host.stops.min?.map fun t => { host with now := max host.now t }

/-- Waits until a moment, but no longer than a wait lasts; a stop that is due before
ends the wait. -/
def waitUntil (host : Host) (moment : Nat) : Host × Bool :=
  let moment := host.later (moment - host.now)
  match (host.stops.filter (· < moment)).min? with
  | some t => ({ host with now := max host.now t }, true)
  | none => ({ host with now := moment }, false)

/-- What strikes at a place. -/
def strike (host : Host) (site : Site) : Option Disruption × Host :=
  let (d, plan) := host.plan.take site
  (d, { host with plan })

/-- The disruption of a call, with the account of what has been asked. -/
def disruption (host : Host) : Call → Option Disruption × Host
  | .begin => host.strike .begin
  | .consume time =>
    { host with consumerCalls := host.consumerCalls + 1 }.strike (.consumer time.seconds)
  | .pendingRewards _ => host.strike .pending
  | .markReward _ => host.strike .mark
  | .rewardOutputs transaction =>
    { host with asked := host.asked ++ [transaction] }.strike .node
  | .stage _ | .outputExists _ | .consumed _ | .commit => (none, host)

/-- The reply of an undisturbed call. -/
def grant (host : Host) : Call → Answer
  | .rewardOutputs transaction => .granted ((host.payouts.lookup transaction).getD [])
  | _ => .granted []

end Host
end LedgerIndex.Rehearsal
