import LedgerIndex.Indexing.Handling
import LedgerIndex.Rehearsal.Host

/-!
# A schedule in virtual time

Players share one stage. A player who is ready moves on until it has to wait; when
all of them wait, time jumps to the first moment at which one is due. Players who
are due together go in the order in which they began to wait. A stop takes effect
when time has moved past its moment.
-/
namespace LedgerIndex.Rehearsal

/-- What is played: who takes part, what each needs, and how it moves on. Attempts
may have a budget, and `overrun` is the end of one that exceeds it. -/
structure Play (σ : Type) where
  players : σ → List String
  need : String → σ → Need
  step : String → Answer → Indexer → σ → Indexer × σ
  budget : Option Nat
  overrun : Answer

/-- An attempt of a player: when its budget ends, the place of that alarm among all
waits, and what strikes once the consumer is done. -/
structure Attempt where
  deadline : Option Nat
  alarm : Option Nat
  held : Effect

/-- A player who waits for a moment, in order, and the answer it waits for. -/
structure Sleeper where
  due : Nat
  order : Nat
  player : String
  answer : Answer

structure Stage (σ : Type) where
  host : Host
  indexer : Indexer
  work : σ
  ready : List (String × Option Answer)
  asleep : List Sleeper
  attempts : List (String × Attempt)
  order : Nat

namespace Stage

variable {σ : Type}

def attempt (st : Stage σ) (player : String) : Attempt :=
  (st.attempts.lookup player).getD ⟨none, none, .nothing⟩

def setAttempt (st : Stage σ) (player : String) (a : Attempt) : Stage σ :=
  { st with attempts := (player, a) :: st.attempts.filter (·.1 ≠ player) }

/-- Lets a player wait for an answer. -/
def sleep (st : Stage σ) (player : String) (due order : Nat) (answer : Answer) : Stage σ :=
  { st with asleep := ⟨due, order, player, answer⟩ :: st.asleep }

/-- Gives a player an answer to go on with. -/
def resume (st : Stage σ) (player : String) (answer : Answer) : Stage σ :=
  { st with ready := (player, some answer) :: st.ready }

/-- A delay inside an attempt ends with the delay or with the budget, whichever comes
first; of two ends at one moment the delay counts, and the player goes on when the
first of them is its turn. -/
def delay (play : Play σ) (player : String) (duration : Nat) (answer : Answer)
    (st : Stage σ) : Stage σ :=
  let due := st.host.later duration
  if duration = 0 then st.resume player answer
  else
    let a := st.attempt player
    match a.deadline with
    | none => { st.sleep player due st.order answer with order := st.order + 1 }
    | some deadline =>
      if deadline ≤ st.host.now then st.resume player play.overrun
      else
        let alarm := a.alarm.getD (st.order + 1)
        let order := if a.alarm.isSome then st.order + 1 else st.order + 2
        let st := st.setAttempt player { a with alarm := some alarm }
        if due < deadline then { st.sleep player due st.order answer with order }
        else if due = deadline then
          { st.sleep player due (min st.order alarm) answer with order }
        else { st.sleep player deadline alarm play.overrun with order }

def strike (play : Play σ) (player : String) (effect : Effect) (answer : Answer)
    (st : Stage σ) : Stage σ :=
  match effect with
  | .nothing => st.resume player answer
  | .failure f => st.resume player (.refused f)
  | .delay duration => st.delay play player duration answer

/-- Answers a call, now or later. -/
def reply (play : Play σ) (player : String) (call : Call) (st : Stage σ) : Stage σ :=
  let (disruption, host) := st.host.disruption call
  let st := { st with host }
  let answer := host.grant call
  let effect := (disruption.map (·.effect)).getD .nothing
  match call with
  | .begin =>
    let st := st.setAttempt player ⟨play.budget.map host.later, none, .nothing⟩
    st.strike play player effect answer
  | .consume _ =>
    let a := st.attempt player
    if disruption.any (·.afterwards) then
      (st.setAttempt player { a with held := effect }).resume player answer
    else (st.setAttempt player { a with held := .nothing }).strike play player effect answer
  | .consumed _ => st.strike play player (st.attempt player).held answer
  | _ => st.strike play player effect answer

/-- One step of a player; players who join get ready behind the others. -/
def advance (play : Play σ) (player : String) (answer : Answer) (st : Stage σ) : Stage σ :=
  let before := play.players st.work
  let (indexer, work) := play.step player answer st.indexer st.work
  let joined := (play.players work).filter fun p => !before.contains p
  { st with indexer, work, ready := (player, none) :: st.ready ++ joined.map (·, none) }

/-- Lets time jump to the given moment and wakes who is due. -/
def wake (moment : Nat) (st : Stage σ) : Stage σ :=
  let due := (st.asleep.filter (·.due = moment)).mergeSort fun a b => a.order ≤ b.order
  { st with
    host := { st.host with now := moment }
    indexer := if st.host.stopsBefore moment then st.indexer.stop else st.indexer
    asleep := st.asleep.filter (·.due ≠ moment)
    ready := due.map fun s => (s.player, some s.answer) }

/-- One move of the schedule, if there is anything left to do. -/
def move? (play : Play σ) (st : Stage σ) : Option (Stage σ) :=
  match st.ready with
  | (player, some answer) :: rest => some ({ st with ready := rest }.advance play player answer)
  | (player, none) :: rest =>
    let st := { st with ready := rest }
    match play.need player st.work with
    | .over => some st
    | .nothing => some (st.advance play player (.granted []))
    | .reply call => some (st.reply play player call)
    | .pause duration =>
      some { st.sleep player (st.host.later duration) st.order (.granted []) with
        order := st.order + 1 }
  | [] => (st.asleep.map (·.due)).min?.map fun moment => st.wake moment

/-- Plays on for at most the given number of moves. -/
def run (play : Play σ) : (moves : Nat) → Stage σ → Stage σ
  | 0, st => st
  | moves + 1, st =>
    match st.move? play with
    | none => st
    | some st => run play moves st

end Stage

/-- More moves than any rehearsal makes. -/
def patience : Nat := 2 ^ 62

/-- Plays to the end. -/
def Play.perform {σ : Type} (play : Play σ) (host : Host) (ix : Indexer) (work : σ) :
    Host × Indexer × σ :=
  let st := Stage.run play patience
    ⟨host, ix, work, (play.players work).map (·, none), [], [], 0⟩
  (st.host, st.indexer, st.work)

end LedgerIndex.Rehearsal
