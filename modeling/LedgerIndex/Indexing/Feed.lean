import LedgerIndex.Indexing.Batch

/-!
# Feeding from a source

Batches are read one after another; the outcomes of one batch are acknowledged
before the next is read. A source that fails to be read is left in peace for a
second. A stop is heeded between batches.
-/
namespace LedgerIndex

/-- What reading from a source gives. -/
inductive Reading where
  | batch (ds : List Delivery)
  | exhausted
  | failed (failure : Failure)
deriving DecidableEq

inductive Feed.Phase where
  | reading
  | working (batch : Batch) (total : Nat)
  | acknowledging (left : Outcomes) (total dropped : Nat)
  | resting
  | stopped

/-- The acknowledgements given so far stand in their order. -/
structure Feed where
  source : String
  phase : Feed.Phase
  acknowledged : List (Delivery × Outcome)

namespace Feed

/-- Milliseconds of rest after a source could not be read. -/
def restPeriod : Nat := 1000

/-- What happens to a feed from outside. -/
inductive Move where
  | read (reading : Reading)
  | answer (partition : String) (answer : Answer)
  | acknowledge (failure : Option Failure)
  | wake
deriving DecidableEq

def start (s : Settings) (source : String) (ix : Indexer) : Indexer × Feed :=
  (ix.note (.feedStarted source s.topics.all s.workers), ⟨source, .reading, []⟩)

def halt (ix : Indexer) (feed : Feed) : Indexer × Feed :=
  (ix.note .feedStopped, { feed with phase := .stopped })

/-- A batch whose lanes are all done goes on to be acknowledged. -/
def ofBatch (b : Batch) (total : Nat) : Phase :=
  if b.isDone then .acknowledging b.finished total 0 else .working b total

/-- Acknowledges the first outcome that is left; a message without one is left to be
delivered again. After the last the next batch is read. -/
def acknowledgeNext (failure : Option Failure) (left : Outcomes) (total dropped : Nat)
    (ix : Indexer) (feed : Feed) : Indexer × Feed :=
  match left with
  | [] => (ix.noteAll (Event.batchSummary total dropped), { feed with phase := .reading })
  | (_, none) :: left => (ix, { feed with phase := .acknowledging left total dropped })
  | (d, some outcome) :: left =>
    let dropped := if outcome = .dropped then dropped + 1 else dropped
    let ix := match failure with
      | none => ix
      | some f => ix.note (.setback .acknowledging f)
    (ix, { feed with
      phase := .acknowledging left total dropped
      acknowledged := feed.acknowledged ++ [(d, outcome)] })

/-- One step. A move that does not fit the phase changes nothing. -/
def step (s : Settings) (move : Move) (ix : Indexer) (feed : Feed) : Indexer × Feed :=
  match feed.phase, move with
  | .reading, .read reading =>
    if ix.stopping then halt ix feed
    else match reading with
      | .batch ds => (ix, { feed with phase := ofBatch (Batch.start s ds) ds.length })
      | .exhausted => halt (ix.note (.feedExhausted feed.source)) feed
      | .failed f => (ix.note (.setback .reading f), { feed with phase := .resting })
  | .resting, .wake => if ix.stopping then halt ix feed else (ix, { feed with phase := .reading })
  | .working b total, .answer partition answer =>
    let (ix, b) := b.step s partition answer ix
    (ix, { feed with phase := ofBatch b total })
  | .acknowledging left total dropped, .acknowledge failure =>
    acknowledgeNext failure left total dropped ix feed
  | _, _ => (ix, feed)

/-- The batch that is being worked on. -/
def batch? (feed : Feed) : Option Batch :=
  match feed.phase with
  | .working b _ => some b
  | _ => none

end Feed
end LedgerIndex
