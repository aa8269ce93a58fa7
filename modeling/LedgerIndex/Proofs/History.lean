import LedgerIndex.Proofs.Course
import LedgerIndex.Proofs.Postings

/-!
# Histories

A store comes about by sessions that are committed one after another, each filled with a
message or with the payout of a reward. Any number of sessions may be under way at a time:
each step of a session is taken on whatever the store is by then, and may be refused. What
a session has staged when it is full does not depend on that, so the tables follow from the
work that was committed and its order.
-/
namespace LedgerIndex

/-- The states of a script under way. Each step sees a store of its own. -/
inductive Script.Reaches {α : Type} (script : Script α) : Run α → Prop
  | start : script.Reaches (.start script)
  | step (answer : Answer) (store : Store) {run : Run α} :
    script.Reaches run → script.Reaches (run.step answer store).2.1

namespace Script

variable {α : Type} {script : Script α}

/-- A granted call of a steady script stages what it stages, and no session is opened or
committed meanwhile. -/
theorem Steady.yields_of_granted {c : Call} {next : c.Reply → Script α}
    (steady : (Script.ask c next).Steady) (outputs : List Bytes) (store : Store)
    (session : Session) {cs : List Change} {a : α}
    (h : (next (c.perform outputs store session).1).Yields cs a) :
    ∃ ds, (c.perform outputs store session).2.2.staged = session.staged ++ ds ∧
      (Script.ask c next).Yields (ds ++ cs) a := by
  cases steady with
  | stage c _ => exact ⟨[c], rfl, .stage c h⟩
  | consume t _ => exact ⟨[], (List.append_nil _).symm, .consume t h⟩
  | consumed t _ => exact ⟨[], (List.append_nil _).symm, .consumed t h⟩
  | fatal id f _ _ => exact ⟨[], (List.append_nil _).symm, .outputExists id _ h⟩
  | noted id e _ _ => exact ⟨[], (List.append_nil _).symm, .outputExists id _ h⟩

/-- What is left of a steady script stages what the script has not staged yet. -/
theorem Reaches.yields {run : Run α} (h : script.Reaches run) (steady : script.Steady) :
    run.script.Steady ∧ ∀ cs a, run.script.Yields cs a →
      script.Yields (run.session.staged ++ cs) a := by
  induction h with
  | start => exact ⟨steady, fun _ _ yields => yields⟩
  | @step answer store run _ ih =>
    obtain ⟨session, rest⟩ := run
    obtain ⟨steady, before⟩ := ih
    cases rest with
    | done a => exact ⟨steady, before⟩
    | fail f => exact ⟨steady, before⟩
    | note e next =>
      cases steady with
      | note _ steady => exact ⟨steady, fun cs a yields => before cs a (.note e yields)⟩
    | ask c next =>
      cases answer with
      | refused f => exact ⟨.fail f, by rintro _ _ ⟨⟩⟩
      | granted outputs =>
        refine ⟨(steady.perform outputs store session).2.1, fun cs a yields => ?_⟩
        obtain ⟨ds, staged, asked⟩ := steady.yields_of_granted outputs store session yields
        change script.Yields ((c.perform outputs store session).2.2.staged ++ cs) a
        rw [staged, List.append_assoc]
        exact before _ _ asked

theorem Reaches.yields_staged {b : α} {session : Session}
    (h : script.Reaches ⟨session, .done b⟩) (steady : script.Steady) :
    script.Yields session.staged b := by
  have yields := (h.yields steady).2 [] b (.done b)
  rwa [List.append_nil] at yields

theorem Posts.staged_eq {cs : List Change} {a b : α} (posts : script.Posts cs a)
    (steady : script.Steady) {session : Session} (h : script.Reaches ⟨session, .done b⟩) :
    session.staged = cs :=
  (posts _ _ (h.yields_staged steady)).1

/-- A script that is left to itself comes to the end of its undisturbed run. -/
theorem Reaches.leaves {rest : Script α} {session left : Session} {store : Store} {a : α}
    (h : script.Reaches ⟨session, rest⟩) (steady : rest.Steady)
    (undisturbed : rest.Leaves store session a left) : script.Reaches ⟨left, .done a⟩ := by
  induction rest generalizing session with
  | done b =>
    obtain ⟨same, rfl⟩ := undisturbed
    cases same
    exact h
  | fail f => cases undisturbed.1
  | note e next ih =>
    cases steady with
    | note _ steady => exact ih (h.step (.granted []) store) steady undisturbed
  | ask c next ih =>
    obtain ⟨same, steady', -⟩ := steady.perform [] store session
    have stepped := h.step (.granted []) store
    refine ih _ stepped steady' ?_
    rw [← same]
    cases steady <;> exact undisturbed

end Script

/-- What one session is filled with. -/
inductive Work where
  | message (w : Writer) (ctx : Context) (content : Identifier) (payload : Payload)
  | payout (s : Settings) (r : PendingReward) (outputs : List PlacedOutput)

namespace Work

def script : Work → Script Unit
  | message w ctx content payload => w.consume ctx content payload
  | payout s r outputs => outputs.forM (Rewards.payOut s r)

def writer : Work → Writer
  | message w _ _ _ => w
  | payout s _ _ => Rewards.writer s

def context : Work → Context
  | message _ ctx _ _ => ctx
  | payout s r _ => ⟨r.created, s.overwrite⟩

def postings : Work → List Posting
  | message w _ content payload => w.postingsOf content payload
  | payout s _ outputs => outputs.flatMap fun o => o.postings (Rewards.writer s).chain

def changes (work : Work) : List Change :=
  work.writer.changesOf work.context work.postings

theorem script_posts (work : Work) : work.script.Posts work.changes () := by
  cases work with
  | message w ctx content payload => exact w.consume_posts ctx content payload
  | payout s r outputs =>
    rw [changes, postings, Writer.changesOf_flatMap]
    exact .forM (Rewards.payOut_posts s r) outputs

theorem script_steady (work : Work) : work.script.Steady := by
  cases work with
  | message w ctx content payload => exact w.consume_steady ctx content payload
  | payout s r outputs => exact .forM _ _ (Rewards.payOut_steady s r)

def Fills (work : Work) (session : Session) : Prop :=
  work.script.Reaches ⟨session, .done ()⟩

theorem Fills.yields {work : Work} {session : Session} (h : work.Fills session) :
    work.script.Yields session.staged () :=
  Script.Reaches.yields_staged h work.script_steady

theorem Fills.staged_eq {work : Work} {session : Session} (h : work.Fills session) :
    session.staged = work.changes :=
  work.script_posts.staged_eq work.script_steady h

theorem Fills.of_leaves {work : Work} {session : Session} (store : Store)
    (h : work.script.Leaves store .empty () session) : work.Fills session :=
  Script.Reaches.leaves .start work.script_steady h

end Work

/-- The work that has been committed, in that order, and the store it has come to. Rewards
and blocks are recorded by others. -/
inductive Store.History : List Work → Store → Prop
  | blank (clock : Nat → Timestamp) : History [] (.blank clock)
  | commit {works : List Work} {store : Store} (work : Work) {session : Session} :
    History works store → work.Fills session → History (works ++ [work]) (store.commit session)
  | markReward (id : String) {works : List Work} {store : Store} :
    History works store → History works (store.markReward id)
  | insertBlock (id parent : String) (kind : BlockKind) {works : List Work} {store : Store} :
    History works store → History works (store.insertBlock id parent kind)
  | insertReward (id block : String) (transaction : Identifier) (created : Timestamp)
    {works : List Work} {store : Store} :
    History works store → History works (store.insertReward id block transaction created)

def Task.work (s : Settings) (t : Task) : Work :=
  .message s.writer ⟨t.time, s.overwrite⟩ t.content t.payload

theorem Task.fills_of_leaves {s : Settings} {t : Task} {store : Store} {session : Session}
    (leaves : (t.body s).Leaves store .empty () session) : (t.work s).Fills session := by
  apply Work.Fills.of_leaves store
  have begun : ((s.writer.consume ⟨t.time, s.overwrite⟩ t.content t.payload).bind
      fun _ => Script.call (.consumed t.time)).Leaves store .empty () session := leaves
  obtain ⟨⟨⟩, between, filled, -, rfl⟩ :=
    ((s.writer.consume_steady _ _ _).leaves_bind _ _ _ _ _).mp begun
  exact filled

/-- What an undisturbed attempt commits is one more piece of work. -/
theorem Store.History.attempt {works : List Work} {store after : Store} {s : Settings}
    {task : Task} (h : History works store) (committed : task.commit? s store = some after) :
    History (works ++ [task.work s]) after := by
  obtain ⟨session, leaves, rfl⟩ := (Task.commit?_eq_some_iff s task store after).mp committed
  exact .commit _ h (Task.fills_of_leaves leaves)

def Transaction.sample (id : Identifier) (inputs : List Input) (outputs : List Output) :
    Transaction where
  kind := .base
  base := { id, network := 1, memo := [], inputs, outputs }
  unsigned := []
  raw := []
  credentials := []
  extraInputs := none
  extraOutputs := none
  extraFee := 0
  genesis := false

def Transaction.funding : Transaction :=
  .sample default [] [⟨default, .transfer 1 ⟨0, 1, [default]⟩⟩]

def Transaction.spending : Transaction :=
  .sample (.ofContent []) [⟨default, 0, default, 1⟩] []

def Delivery.block (partition : String) (ts : List Transaction) : Delivery :=
  { emptyBlock partition with body := (Block.encode ⟨ts⟩).write }

def Task.block (ts : List Transaction) : Task where
  subject := ⟨"", Settings.plain.topics.main, .block⟩
  content := .ofContent (Block.encode ⟨ts⟩).write
  time := default
  payload := .block ⟨ts⟩

theorem Delivery.task?_block (partition : String) {ts : List Transaction}
    (decoded : Payload.decode? .block (Block.encode ⟨ts⟩).write = some (.block ⟨ts⟩)) :
    (block partition ts).task? .plain = some (.block ts) := by
  have route : Settings.plain.topics.route (block partition ts).topic = some .block :=
    route_emptyBlock partition
  rw [task?, route, Option.bind_some]
  change (Payload.decode? .block (Block.encode ⟨ts⟩).write).map _ = _
  rw [decoded]
  rfl

theorem Delivery.task?_funding (partition : String) :
    (block partition [.funding]).task? .plain = some (.block [.funding]) :=
  task?_block partition (by decide +kernel)

namespace Work

def block (ts : List Transaction) : Work :=
  .message Settings.plain.writer ⟨default, false⟩ default (.block ⟨ts⟩)

def reward : Work :=
  .payout .plain ⟨"", default, .commit, default⟩
    [⟨default, 0, default, .transfer 1 ⟨0, 1, [default]⟩⟩]

/-- What the work stages when it is left alone with an empty store. -/
def session (work : Work) : Session :=
  (work.script.run (fun _ => []) .empty .empty).session

/-- Work that ends well when it is left alone fills a session. -/
theorem Fills.of_run {work : Work}
    (ended : (work.script.run (fun _ => []) .empty .empty).result = .ok ()) :
    work.Fills work.session :=
  .of_leaves .empty ⟨ended, rfl⟩

end Work
end LedgerIndex
