import LedgerIndex.Indexing.Indexer

/-!
# Handling a message

A message is routed by its topic and decoded, and its payload is written in one
session of its own: all rows or none. An attempt that loses a race is given up and
tried again after a growing delay, for as long as no stop is requested. Any other
failure ends the handling at once.
-/
namespace LedgerIndex

/-- A message that has been routed and decoded. -/
structure Task where
  subject : Subject
  content : Identifier
  time : Timestamp
  payload : Payload
deriving DecidableEq

/-- One attempt to write the payload: a session is opened, filled and committed. -/
def Task.attempt (s : Settings) (t : Task) : Script Unit := do
  Script.call .begin
  Script.call (.consume t.time)
  s.writer.consume ⟨t.time, s.overwrite⟩ t.content t.payload
  Script.call (.consumed t.time)
  Script.call .commit

/-- How far the handling of a message has come. -/
inductive Handling where
  | attempting (task : Task) (retries : Nat) (run : Run Unit)
  | pausing (task : Task) (retries delay : Nat)
  | settled (result : Except Failure Unit)

namespace Handling

/-- A handling that ends, and the account of it. A contended write is neither a
success nor a failure: the message will be delivered again. -/
def settle (subject : Subject) (result : Except Failure Unit) (ix : Indexer) :
    Indexer × Handling :=
  let label := subject.kind.label
  let ix := ix.count label .processed
  let ix := match result with
    | .ok () =>
      let ix := ix.count label .success
      let ix := if subject.kind = .block then ix.signal else ix
      ix.note (.handled subject)
    | .error f =>
      if f.isContention then ix.note (.interrupted subject)
      else (ix.count label .failure).note (.failed subject f)
  (ix, .settled result)

/-- A message on a topic that is not served is passed over without account. -/
def start (s : Settings) (d : Delivery) (ix : Indexer) : Indexer × Handling :=
  match s.topics.route d.topic with
  | none => (ix.note (.ignored d.topic), .settled (.ok ()))
  | some kind =>
    let subject : Subject := ⟨d.message, d.topic, kind⟩
    match Payload.decode? kind d.body with
    | none => settle subject (.error (.decoding .payload)) ix
    | some payload =>
      let task : Task := ⟨subject, payload.content d.body, d.time, payload⟩
      (ix, .attempting task 0 (.start (task.attempt s)))

/-- An attempt has failed. -/
def retreat (s : Settings) (task : Task) (retries : Nat) (f : Failure) (ix : Indexer) :
    Indexer × Handling :=
  if f.isContention ∧ !ix.stopping then
    let delay := s.backoff.delay (retries + 1)
    let kind := task.subject.kind
    let ix := ix.count kind.label .retry
    let ix := ix.note (.contended task.content kind (retries + 1) delay f)
    (ix, .pausing task (retries + 1) delay)
  else settle task.subject (.error f) ix

/-- One step: an attempt goes on by one call, or is judged by its result; after a
pause a fresh attempt begins. -/
def step (s : Settings) (answer : Answer) (ix : Indexer) : Handling → Indexer × Handling
  | attempting task retries run =>
    match run.result? with
    | some (.ok ()) => settle task.subject (.ok ()) ix
    | some (.error f) => retreat s task retries f ix
    | none =>
      let (ix, run) := ix.stepRun answer run
      (ix, .attempting task retries run)
  | pausing task retries _ => (ix, .attempting task retries (.start (task.attempt s)))
  | settled result => (ix, .settled result)

end Handling

/-- The outcome of a result; an interrupted message has none. -/
def Outcome.ofResult? : Except Failure Unit → Option Outcome
  | .ok () => some .processed
  | .error f => if f.isContention then none else some .dropped

/-- What a wait for the budget of one attempt ends in. -/
def Settings.overrun (s : Settings) : Answer :=
  .refused (.timeout s.writeBudget)

/-- What a piece of work needs before its next step. -/
inductive Need where
  | nothing
  | reply (call : Call)
  | pause (delay : Nat)
  | over
deriving DecidableEq

def Run.need {α : Type} (run : Run α) : Need :=
  match run.script with
  | .ask c _ => .reply c
  | .note _ _ => .nothing
  | .done _ | .fail _ => .over

/-- An attempt that has its result still has to be judged. -/
def Handling.need : Handling → Need
  | .attempting _ _ run => match run.need with
    | .over => .nothing
    | need => need
  | .pausing _ _ delay => .pause delay
  | .settled _ => .over

end LedgerIndex
