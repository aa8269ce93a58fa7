import LedgerIndex.Indexing.Feed
import LedgerIndex.Rehearsal.Schedule
import LedgerIndex.Rewards

/-!
# What can be rehearsed

A single message, a batch, a run over a source, a cycle of rewards, and a poller.
-/
namespace LedgerIndex.Rehearsal

/-- One piece of work that needs nobody else. -/
def solo {σ : Type} (need : σ → Need) (step : Answer → Indexer → σ → Indexer × σ)
    (budget : Option Nat) (overrun : Answer) : Play σ where
  players _ := [""]
  need _ := need
  step _ := step
  budget := budget
  overrun := overrun

/-- Handles one message; a stop is not looked for before. -/
def message (s : Settings) (d : Delivery) (host : Host) (ix : Indexer) :
    Host × Indexer × Except Failure Unit :=
  let (ix, handling) := Handling.start s d ix
  let play := solo Handling.need (Handling.step s) (some s.writeBudget) s.overrun
  let (host, ix, handling) := play.perform host ix handling
  match handling with
  | .settled result => (host, ix, result)
  | _ => (host, ix, .error (.internal "unfinished"))

/-- The lanes of a batch. -/
def lanes (s : Settings) : Play Batch where
  players b := b.active.map (·.partition)
  need p b := b.need p
  step p a ix b := b.step s p a ix
  budget := some s.writeBudget
  overrun := s.overrun

def batch (s : Settings) (ds : List Delivery) (host : Host) (ix : Indexer) :
    Host × Indexer × Outcomes :=
  let (host, ix, b) := (lanes s).perform host ix (Batch.start s ds)
  (host, ix, b.finished)

/-- What a source does when it is read: it hands over a batch, never returns, or is
disrupted, and then hands over nothing. -/
inductive Arrival where
  | batch (ds : List Delivery)
  | never
  | disrupted (effect : Effect)

/-- Messages in batches of at most the given size, which is at least one. -/
def batches (size : Nat) (ds : List Delivery) : List (List Delivery) :=
  match ds with
  | [] => []
  | d :: rest => (d :: rest.take (size - 1)) :: batches size (rest.drop (size - 1))
termination_by ds.length

/-- What a channel does that holds some messages, and is left open or not. -/
def Arrival.ofChannel (s : Settings) (keepOpen : Bool) (ds : List Delivery) : List Arrival :=
  (batches s.batchSize ds).map .batch ++ if keepOpen then [.never] else []

/-- The source of a run: its name, what its reads give, and whether acknowledging
fails. -/
structure Source where
  name : String
  arrivals : List Arrival
  acknowledging : Option Failure

/-- The batch of a feed. -/
def feedLanes (s : Settings) : Play Feed where
  players feed := (feed.batch?.map fun b => b.active.map (·.partition)).getD []
  need p feed := (feed.batch?.map (·.need p)).getD .over
  step p a ix feed := feed.step s (.answer p a) ix
  budget := some s.writeBudget
  overrun := s.overrun

structure FeedStage where
  host : Host
  indexer : Indexer
  feed : Feed
  arrivals : List Arrival

namespace FeedStage

def step (s : Settings) (move : Feed.Move) (st : FeedStage) : FeedStage :=
  let (indexer, feed) := st.feed.step s move st.indexer
  { st with indexer, feed }

/-- Waits for a moment; a stop that comes first is noticed. -/
def waitUntil (moment : Nat) (st : FeedStage) : FeedStage :=
  let (host, stopped) := st.host.waitUntil moment
  { st with host, indexer := if stopped then st.indexer.stop else st.indexer }

/-- Reads the source once. A source that never returns is waited for until a stop,
or forever. -/
def read (s : Settings) (st : FeedStage) : Option FeedStage :=
  if st.indexer.stopping then some (st.step s (.read .exhausted))
  else match st.arrivals with
    | [] => some (st.step s (.read .exhausted))
    | arrival :: rest =>
      let st := { st with arrivals := rest }
      match arrival with
      | .batch ds => some (st.step s (.read (.batch ds)))
      | .never => st.host.waitForStop?.map fun host =>
        { st with host, indexer := st.indexer.stop }.step s (.read .exhausted)
      | .disrupted .nothing => some (st.step s (.read (.batch [])))
      | .disrupted (.failure f) => some (st.step s (.read (.failed f)))
      | .disrupted (.delay duration) =>
        let st := if duration = 0 then st else st.waitUntil (st.host.now + duration)
        some (st.step s (.read (.batch [])))

/-- One move of a run, until it has stopped. -/
def move? (s : Settings) (acknowledging : Option Failure) (st : FeedStage) : Option FeedStage :=
  match st.feed.phase with
  | .stopped => none
  | .reading => st.read s
  | .resting => some ((st.waitUntil (st.host.now + Feed.restPeriod)).step s .wake)
  | .acknowledging .. => some (st.step s (.acknowledge acknowledging))
  | .working .. =>
    let (host, indexer, feed) := (feedLanes s).perform st.host st.indexer st.feed
    some { st with host, indexer, feed }

def run (s : Settings) (acknowledging : Option Failure) : (moves : Nat) → FeedStage → FeedStage
  | 0, st => st
  | moves + 1, st =>
    match st.move? s acknowledging with
    | none => st
    | some st => run s acknowledging moves st

end FeedStage

/-- Runs over a source and gives the acknowledgements. -/
def feed (s : Settings) (source : Source) (host : Host) (ix : Indexer) :
    Host × Indexer × List (Delivery × Outcome) :=
  let (ix, feed) := Feed.start s source.name ix
  let st := FeedStage.run s source.acknowledging patience ⟨host, ix, feed, source.arrivals⟩
  (st.host, st.indexer, st.feed.acknowledged)

/-- Runs a script that has no budget. -/
def script {α : Type} (s : Settings) (script : Script α) (host : Host) (ix : Indexer) :
    Host × Indexer × Except Failure α :=
  let play : Play (Run α) :=
    solo Run.need (fun answer ix run => ix.stepRun answer run) none s.overrun
  let (host, ix, run) := play.perform host ix (Run.start script)
  (host, ix, run.result?.getD (.error (.internal "unfinished")))

/-- One cycle of rewards; nothing if its cutoff is not representable. -/
def cycle (s : Settings) (today : Timestamp) (host : Host) (ix : Indexer) :
    Option (Host × Indexer × Except Failure Nat) :=
  (Rewards.cycle? s today).map fun cycle => script s cycle host ix

structure PollerStage where
  host : Host
  indexer : Indexer
  poller : Rewards.Poller
  due : Nat

namespace PollerStage

/-- Milliseconds by which a cycle may be late without moving the schedule. -/
def tolerance : Nat := 5

/-- A late cycle moves the schedule. -/
def nextDue (s : Settings) (now due : Nat) : Nat :=
  (if due + tolerance < now then now else due) + Rewards.Poller.period s

/-- One move of a poller, until it has stopped. -/
def move? (s : Settings) (today : Timestamp) (st : PollerStage) : Option PollerStage :=
  match st.poller with
  | .stopped | .crashed => none
  | .cycling _ =>
    let play := solo Rewards.Poller.need Rewards.Poller.step none s.overrun
    let (host, indexer, poller) := play.perform st.host st.indexer st.poller
    some { st with host, indexer, poller }
  | .idle =>
    let (host, stopped) :=
      if st.due ≤ st.host.now then (st.host, false) else st.host.waitUntil st.due
    let ix := if stopped then st.indexer.stop else st.indexer
    let (indexer, poller) := st.poller.tick s today ix
    some { host, indexer, poller, due := nextDue s host.now st.due }

def run (s : Settings) (today : Timestamp) : (moves : Nat) → PollerStage → PollerStage
  | 0, st => st
  | moves + 1, st =>
    match st.move? s today with
    | none => st
    | some st => run s today moves st

end PollerStage

/-- Polls for rewards until a stop; nothing if a cutoff is not representable. -/
def poll (s : Settings) (today : Timestamp) (host : Host) (ix : Indexer) :
    Option (Host × Indexer) :=
  let (ix, poller) := Rewards.Poller.start s ix
  let st := PollerStage.run s today patience ⟨host, ix, poller, host.now⟩
  match st.poller with
  | .crashed => none
  | _ => some (st.host, st.indexer)

end LedgerIndex.Rehearsal
