import LedgerIndex.Indexing.Handling

/-!
# Batches and their lanes

The messages of one partition form a lane and are handled in order. Lanes proceed
independently of each other, at most as many at a time as there are workers. Once a
message is interrupted, or a stop is requested, the rest of its lane is left alone
and has no outcome.
-/
namespace LedgerIndex

/-- Messages with what became of them. -/
abbrev Outcomes := List (Delivery × Option Outcome)

/-- The messages of one partition: those behind, the one in hand, those ahead. -/
structure Lane where
  partition : String
  finished : Outcomes
  current : Option (Delivery × Handling)
  waiting : List Delivery

namespace Lane

def ofDeliveries (partition : String) (ds : List Delivery) : Lane :=
  ⟨partition, [], none, ds⟩

def isDone (lane : Lane) : Bool :=
  lane.current.isNone && lane.waiting.isEmpty

/-- Leaves every message ahead without an outcome. -/
def abandon (lane : Lane) : Lane :=
  { lane with finished := lane.finished ++ lane.waiting.map (·, none), waiting := [] }

/-- One step: the next message is begun, goes on, or gets its outcome. -/
def step (s : Settings) (answer : Answer) (ix : Indexer) (lane : Lane) : Indexer × Lane :=
  match lane.current with
  | some (d, .settled result) =>
    let outcome := Outcome.ofResult? result
    let lane := { lane with finished := lane.finished ++ [(d, outcome)], current := none }
    (ix, if outcome.isNone then lane.abandon else lane)
  | some (d, handling) =>
    let (ix, handling) := handling.step s answer ix
    (ix, { lane with current := some (d, handling) })
  | none =>
    if ix.stopping then (ix, lane.abandon)
    else match lane.waiting with
      | [] => (ix, lane)
      | d :: rest =>
        let (ix, handling) := Handling.start s d ix
        (ix, { lane with current := some (d, handling), waiting := rest })

def need (lane : Lane) : Need :=
  if lane.isDone then .over
  else match lane.current with
    | none => .nothing
    | some (_, handling) => match handling.need with
      | .over => .nothing
      | need => need

end Lane

/-- Lanes that have not started, lanes in progress, and the outcomes so far. -/
structure Batch where
  queued : List Lane
  active : List Lane
  finished : Outcomes

namespace Batch

/-- The partitions of some messages in order of their names. -/
def partitions (ds : List Delivery) : List String :=
  (ds.map (·.partition)).eraseDups.mergeSort fun a b => (compare a b).isLE

/-- One lane for each partition. -/
def lanes (ds : List Delivery) : List Lane :=
  (partitions ds).map fun p => .ofDeliveries p (ds.filter (·.partition == p))

/-- Starts queued lanes as far as there are workers for them. -/
def refill (s : Settings) (b : Batch) : Batch :=
  let free := max 1 s.workers - b.active.length
  { b with active := b.active ++ b.queued.take free, queued := b.queued.drop free }

def start (s : Settings) (ds : List Delivery) : Batch :=
  refill s ⟨lanes ds, [], []⟩

def isDone (b : Batch) : Bool :=
  b.active.isEmpty && b.queued.isEmpty

def lane? (b : Batch) (partition : String) : Option Lane :=
  b.active.find? (·.partition == partition)

/-- Puts a lane back after a step; one that is done makes room for another. -/
def replace (s : Settings) (b : Batch) (lane : Lane) : Batch :=
  if lane.isDone then
    refill s { b with
      active := b.active.filter (·.partition != lane.partition)
      finished := b.finished ++ lane.finished }
  else
    { b with active := b.active.map fun l => if l.partition == lane.partition then lane else l }

/-- One step of the lane of a partition that is in progress. -/
def step (s : Settings) (partition : String) (answer : Answer) (ix : Indexer) (b : Batch) :
    Indexer × Batch :=
  match b.lane? partition with
  | none => (ix, b)
  | some lane =>
    let (ix, lane) := lane.step s answer ix
    (ix, b.replace s lane)

def need (b : Batch) (partition : String) : Need :=
  match b.lane? partition with
  | none => .over
  | some lane => lane.need

end Batch
end LedgerIndex
