import LedgerIndex.Journal
import LedgerIndex.Store.Session

/-!
# Scripts

What the indexer does to a store and a node is a tree: each node of the tree is a
call to the outside, continued by its reply. A script says nothing about when a
call is answered or whether it fails; whoever runs it decides that, call by call.
-/
namespace LedgerIndex

/-- A call to the outside. The two calls around a payload mark that it is handed
to its consumer and that the consumer is done with it. -/
inductive Call where
  | begin
  | consume (time : Timestamp)
  | stage (change : Change)
  | outputExists (output : Identifier)
  | consumed (time : Timestamp)
  | commit
  | pendingRewards (before : Timestamp)
  | rewardOutputs (transaction : Identifier)
  | markReward (id : String)
deriving DecidableEq

/-- What a call that takes effect replies. -/
abbrev Call.Reply : Call → Type
  | .outputExists _ => Bool
  | .pendingRewards _ => List PendingReward
  | .rewardOutputs _ => List Bytes
  | _ => Unit

inductive Script (α : Type) where
  | done (value : α)
  | fail (failure : Failure)
  | note (event : Event) (next : Script α)
  | ask (call : Call) (next : call.Reply → Script α)

namespace Script

def bind {α β : Type} : Script α → (α → Script β) → Script β
  | done a, k => k a
  | fail f, _ => fail f
  | note e next, k => note e (next.bind k)
  | ask c next, k => ask c fun r => (next r).bind k

instance : Monad Script where
  pure := done
  bind := bind

/-- Asks for the reply to one call. -/
def call (c : Call) : Script c.Reply :=
  ask c done

def stage (c : Change) : Script Unit :=
  call (.stage c)

def log (e : Event) : Script Unit :=
  note e (done ())

/-- A result that may be a failure. -/
def ofExcept {α : Type} : Except Failure α → Script α
  | .ok a => done a
  | .error f => fail f

@[simp] theorem pure_eq {α : Type} (a : α) : (pure a : Script α) = done a := rfl

@[simp] theorem bind_eq {α β : Type} (s : Script α) (k : α → Script β) :
    (s >>= k) = s.bind k := rfl

@[simp] theorem done_bind {α β : Type} (a : α) (k : α → Script β) : (done a).bind k = k a := rfl

@[simp] theorem fail_bind {α β : Type} (f : Failure) (k : α → Script β) :
    (fail f).bind k = fail f := rfl

theorem bind_done {α : Type} (s : Script α) : s.bind done = s := by
  induction s with
  | done _ => rfl
  | fail _ => rfl
  | note e next ih => simp [bind, ih]
  | ask c next ih => simp [bind, ih]

theorem bind_assoc {α β γ : Type} (s : Script α) (k : α → Script β) (l : β → Script γ) :
    (s.bind k).bind l = s.bind fun a => (k a).bind l := by
  induction s with
  | done _ => rfl
  | fail _ => rfl
  | note e next ih => simp [bind, ih]
  | ask c next ih => simp [bind, ih]

end Script

/-- The effect of a call, and its reply. `outputs` is what the node has to say if
it is asked. -/
def Call.perform (outputs : List Bytes) (store : Store) (s : Session) :
    (c : Call) → c.Reply × Store × Session
  | .begin => ((), store, .empty)
  | .consume _ | .consumed _ => ((), store, s)
  | .stage c => ((), store, s.stage c)
  | .outputExists id => (store.outputExists s id, store, s)
  | .commit => ((), store.commit s, .empty)
  | .pendingRewards before => (store.pendingRewards before, store, s)
  | .rewardOutputs _ => (outputs, store, s)
  | .markReward id => ((), store.markReward id, s)

/-- What becomes of a call: it takes effect, or it fails and has none. -/
inductive Answer where
  | granted (outputs : List Bytes)
  | refused (failure : Failure)
deriving DecidableEq

/-- A script under way, with the session it has open. -/
structure Run (α : Type) where
  session : Session
  script : Script α

namespace Run

def start {α : Type} (script : Script α) : Run α :=
  ⟨.empty, script⟩

/-- One step. An answer is used up only where the script asks for one. -/
def step {α : Type} (answer : Answer) (store : Store) (run : Run α) :
    Store × Run α × List Event :=
  match run.script with
  | .done _ | .fail _ => (store, run, [])
  | .note e next => (store, ⟨run.session, next⟩, [e])
  | .ask c next =>
    match answer with
    | .refused f => (store, ⟨run.session, .fail f⟩, [])
    | .granted outputs =>
      let (reply, store, session) := c.perform outputs store run.session
      (store, ⟨session, next reply⟩, [])

/-- The result of a script that has ended. -/
def result? {α : Type} (run : Run α) : Option (Except Failure α) :=
  match run.script with
  | .done a => some (.ok a)
  | .fail f => some (.error f)
  | _ => none

end Run

/-- How an undisturbed script ends. -/
structure Ending (α : Type) where
  result : Except Failure α
  store : Store
  session : Session
  events : List Event

/-- Runs a script with every call granted; `node` says what the node reports. -/
def Script.run {α : Type} (node : Identifier → List Bytes) (store : Store) (s : Session) :
    Script α → Ending α
  | .done a => ⟨.ok a, store, s, []⟩
  | .fail f => ⟨.error f, store, s, []⟩
  | .note e next =>
    let ending := next.run node store s
    { ending with events := e :: ending.events }
  | .ask c next =>
    let outputs := match c with
      | .rewardOutputs transaction => node transaction
      | _ => []
    let (reply, store, s) := c.perform outputs store s
    (next reply).run node store s

end LedgerIndex
