import LedgerIndex.Proofs.Steadiness

/-!
# One attempt

An attempt opens a session, fills it and commits it. While it is under way other work
may change the store between any two of its calls. What it has still to do, started on
the store as it is now, leaves the session that the whole of it would leave there; so
its commit has the effect of an attempt made all at once at that moment.
-/
namespace LedgerIndex

namespace Script

variable {α β : Type} {node : Identifier → List Bytes}

theorem run_bind (s : Script α) (k : α → Script β) (store : Store) (session : Session) :
    (s.bind k).run node store session =
      match s.run node store session with
      | ⟨.ok a, store, session, events⟩ =>
        let ending := (k a).run node store session
        { ending with events := events ++ ending.events }
      | ⟨.error f, store, session, events⟩ => ⟨.error f, store, session, events⟩ := by
  induction s generalizing store session with
  | done a => rfl
  | fail f => rfl
  | note e next ih =>
    simp only [bind, run, ih]
    generalize next.run node store session = ending
    obtain ⟨result, store, session, events⟩ := ending
    cases result <;> rfl
  | ask c next ih =>
    -- the outputs that the node is asked for depend on which call it is
    cases c <;> exact ih _ _ _

/-- An undisturbed run from a store and a session succeeds, and leaves a session. -/
def Leaves (script : Script α) (store : Store) (session : Session) (a : α) (left : Session) :
    Prop :=
  (script.run (fun _ => []) store session).result = .ok a ∧
    (script.run (fun _ => []) store session).session = left

namespace Steady

theorem run_store {s : Script α} (hs : s.Steady) (store : Store) (session : Session) :
    (s.run node store session).store = store := by
  induction hs generalizing session with
  | done a => rfl
  | fail f => rfl
  | note e _ ih => exact ih session
  | stage c _ ih => exact ih (session.stage c)
  | consume t _ ih => exact ih session
  | consumed t _ ih => exact ih session
  | fatal id f _ hf ih =>
    simp only [run, Call.perform]
    cases store.outputExists session id
    · simp [hf, run]
    · exact ih session
  | noted id e _ he ih =>
    simp only [run, Call.perform]
    cases store.outputExists session id
    · simpa [he, run] using ih session
    · exact ih session

theorem leaves_bind {s : Script α} (hs : s.Steady) (k : α → Script β) (store : Store)
    (session left : Session) (b : β) :
    (s.bind k).Leaves store session b left ↔
      ∃ a between, s.Leaves store session a between ∧ (k a).Leaves store between b left := by
  have keeps : (s.run (fun _ => []) store session).store = store := hs.run_store store session
  unfold Leaves
  rw [run_bind]
  generalize s.run (fun _ => []) store session = ending at keeps ⊢
  obtain ⟨result, store', between, events⟩ := ending
  cases keeps
  cases result with
  | error f => simp
  | ok a =>
    constructor
    · intro h
      exact ⟨a, between, ⟨rfl, rfl⟩, h⟩
    · rintro ⟨_, _, ⟨h, rfl⟩, hk⟩
      cases h
      exact hk

/-- Where an output was missing, the script would have gone the same way with it. -/
theorem leaves_of_missing {id : Identifier} {next : Bool → Script α}
    (hs : (Script.ask (.outputExists id) next).Steady) {store : Store} {session left : Session}
    {a : α} (h : (next false).Leaves store session a left) :
    (next true).Leaves store session a left := by
  cases hs with
  | fatal _ f _ hf => simp [hf, Leaves, run] at h
  | noted _ e _ he => simpa [he, Leaves, run] using h

/-- A granted call of a steady script leaves the store as it is. What comes after it is steady,
and leaves the same as the script would have left with the call made at any later moment. -/
theorem perform {c : Call} {next : c.Reply → Script α} (hs : (Script.ask c next).Steady)
    (outputs : List Bytes) (store : Store) (session : Session) :
    let effect := c.perform outputs store session
    effect.2.1 = store ∧ (next effect.1).Steady ∧
      ∀ later, store.KeepsOutputs later → ∀ a left,
        (next effect.1).Leaves later effect.2.2 a left →
          (Script.ask c next).Leaves later session a left := by
  have rejoins {id : Identifier} {next : Bool → Script α}
      (hs : (Script.ask (.outputExists id) next).Steady) (later : Store)
      (keeps : store.KeepsOutputs later) (a : α) (left : Session)
      (h : (next (store.outputExists session id)).Leaves later session a left) :
      (next (later.outputExists session id)).Leaves later session a left := by
    cases hk : store.outputExists session id with
    | true =>
      rw [Store.outputExists_of_keepsOutputs keeps session id hk]
      rwa [hk] at h
    | false =>
      rw [hk] at h
      cases later.outputExists session id with
      | false => exact h
      | true => exact hs.leaves_of_missing h
  cases hs with
  | stage c steady => exact ⟨rfl, steady, fun _ _ _ _ h => h⟩
  | consume t steady => exact ⟨rfl, steady, fun _ _ _ _ h => h⟩
  | consumed t steady => exact ⟨rfl, steady, fun _ _ _ _ h => h⟩
  | @fatal id f next steady hf =>
    refine ⟨rfl, ?_, rejoins (.fatal id f steady hf)⟩
    change (next (store.outputExists session id)).Steady
    cases store.outputExists session id with
    | true => exact steady
    | false => exact hf ▸ .fail f
  | @noted id e next steady he =>
    refine ⟨rfl, ?_, rejoins (.noted id e steady he)⟩
    change (next (store.outputExists session id)).Steady
    cases store.outputExists session id with
    | true => exact steady
    | false => exact he ▸ .note e steady

theorem call_ne {c : Call} {next : c.Reply → Script α} (hs : (Script.ask c next).Steady) :
    c ≠ .begin ∧ c ≠ .commit := by
  cases hs <;> simp

end Steady
end Script

/-- What an attempt does between opening and committing its session. -/
def Task.body (s : Settings) (t : Task) : Script Unit :=
  (Script.call (.consume t.time)).bind fun _ =>
    (s.writer.consume ⟨t.time, s.overwrite⟩ t.content t.payload).bind fun _ =>
    Script.call (.consumed t.time)

theorem Task.attempt_eq (s : Settings) (t : Task) :
    t.attempt s =
      .ask .begin fun _ => (t.body s).bind fun _ => .ask .commit .done := by
  simp [attempt, body, Script.bind_assoc, Script.call, Script.bind]

theorem Task.body_steady (s : Settings) (t : Task) : (t.body s).Steady :=
  Script.Steady.bind (.consume _ (.done ())) fun _ =>
    (s.writer.consume_steady _ _ _).bind fun _ => .consumed _ (.done ())

def Task.commit? (s : Settings) (t : Task) (store : Store) : Option Store :=
  let ending := (t.attempt s).run (fun _ => []) store .empty
  match ending.result with
  | .ok () => some ending.store
  | .error _ => none

theorem Task.commit?_eq_some_iff (s : Settings) (t : Task) (store after : Store) :
    t.commit? s store = some after ↔
      ∃ session, (t.body s).Leaves store .empty () session ∧ after = store.commit session := by
  have keeps : ((t.body s).run (fun _ => []) store .empty).store = store :=
    (t.body_steady s).run_store store .empty
  simp only [commit?, attempt_eq, Script.run, Call.perform, Script.run_bind, Script.Leaves]
  generalize (t.body s).run (fun _ => []) store .empty = ending at keeps ⊢
  obtain ⟨result, store', session, events⟩ := ending
  cases keeps
  cases result <;> simp [eq_comm]

def Answer.isGranted : Answer → Bool
  | .granted _ => true
  | .refused _ => false

def Run.commits {α : Type} (answer : Answer) (run : Run α) : Bool :=
  decide (run.need = .reply .commit) && answer.isGranted

/-- The states of an attempt that can be reached. While it writes, what is left of it leaves
the same session as the whole, on any store that still has every output of this one. -/
inductive Task.Underway (s : Settings) (t : Task) (store : Store) : Run Unit → Prop
  | opening : t.Underway s store (.start (t.attempt s))
  | writing (session : Session) (rest : Script Unit) : rest.Steady →
    (∀ later, store.KeepsOutputs later → ∀ left,
      rest.Leaves later session () left → (t.body s).Leaves later .empty () left) →
    t.Underway s store ⟨session, rest.bind fun _ => .ask .commit .done⟩
  | failed (session : Session) (f : Failure) : t.Underway s store ⟨session, .fail f⟩
  | committed (session : Session) : t.Underway s store ⟨session, .done ()⟩

namespace Task.Underway

variable {s : Settings} {t : Task} {store : Store} {run : Run Unit}

theorem later {store' : Store} (h : t.Underway s store run) (keeps : store.KeepsOutputs store') :
    t.Underway s store' run := by
  cases h with
  | opening => exact .opening
  | writing session rest steady rejoins =>
    exact .writing session rest steady fun later hl => rejoins later (keeps.trans hl)
  | failed session f => exact .failed session f
  | committed session => exact .committed session

private theorem need_writing (session : Session) {rest : Script Unit} (steady : rest.Steady) :
    (⟨session, rest.bind fun _ => .ask .commit .done⟩ : Run Unit).need ≠ .reply .begin ∧
      (⟨session, rest.bind fun _ => .ask .commit .done⟩ : Run Unit).result? ≠ some (.ok ()) := by
  cases steady <;> simp [Script.bind, Run.need, Run.result?]

/-- What one step of an attempt can do: it commits, with the effect of an attempt made all
at once, or it leaves the store as it is and the attempt under way. -/
theorem step_cases (h : t.Underway s store run) (unfinished : run.result? = none)
    (answer : Answer) :
    (run.commits answer = true ∧ ∃ after, t.commit? s store = some after ∧
      run.step answer store = (after, ⟨.empty, .done ()⟩, [])) ∨
    (run.commits answer = false ∧ ∃ run' events, run.step answer store = (store, run', events) ∧
      t.Underway s store run' ∧ run'.need ≠ .reply .begin ∧
      run'.result? ≠ some (.ok ())) := by
  cases h with
  | failed session f => simp [Run.result?] at unfinished
  | committed session => simp [Run.result?] at unfinished
  | opening =>
    rw [Task.attempt_eq]
    right
    cases answer with
    | refused f =>
      exact ⟨by simp [Run.commits, Run.need, Run.start], ⟨.empty, .fail f⟩, [], rfl,
        .failed _ f, by simp [Run.need], by simp [Run.result?]⟩
    | granted outputs =>
      have next := need_writing .empty (t.body_steady s)
      exact ⟨by simp [Run.commits, Run.need, Run.start], _, [], rfl,
        .writing .empty (t.body s) (t.body_steady s) fun _ _ _ hl => hl, next.1, next.2⟩
  | writing session rest steady rejoins =>
    -- whatever a granted call leaves to do is steady again and rejoins the whole attempt
    have goesOn (events : List Event) (session' : Session) (rest' : Script Unit)
        (steady' : rest'.Steady)
        (back : ∀ later, store.KeepsOutputs later → ∀ left,
          rest'.Leaves later session' () left → rest.Leaves later session () left) :
        ∃ run' events', (store, (⟨session', rest'.bind fun _ => .ask .commit .done⟩ : Run Unit),
            events) = (store, run', events') ∧ t.Underway s store run' ∧
          run'.need ≠ .reply .begin ∧ run'.result? ≠ some (.ok ()) := by
      have next := need_writing session' steady'
      exact ⟨_, events, rfl, .writing session' rest' steady' fun later hl left h =>
        rejoins later hl left (back later hl left h), next.1, next.2⟩
    have gaveUp (f : Failure) : ∃ run' events',
        (store, (⟨session, .fail f⟩ : Run Unit), ([] : List Event)) = (store, run', events') ∧
          t.Underway s store run' ∧ run'.need ≠ .reply .begin ∧ run'.result? ≠ some (.ok ()) :=
      ⟨_, _, rfl, .failed session f, by simp [Run.need], by simp [Run.result?]⟩
    cases rest with
    | done a =>
      cases answer with
      | refused f => exact .inr ⟨by simp [Run.commits, Answer.isGranted], gaveUp f⟩
      | granted outputs =>
        refine .inl ⟨by simp [Run.commits, Run.need, Script.bind, Answer.isGranted],
          store.commit session, ?_, rfl⟩
        rw [Task.commit?_eq_some_iff]
        exact ⟨session, rejoins store (.refl store) session ⟨rfl, rfl⟩, rfl⟩
    | fail f => simp [Run.result?, Script.bind] at unfinished
    | note e next =>
      cases steady with
      | note _ steady =>
        exact .inr ⟨by simp [Run.commits, Run.need, Script.bind],
          goesOn [e] session next steady fun _ _ _ h => h⟩
    | ask c next =>
      refine .inr ⟨by simp [Run.commits, Run.need, Script.bind, steady.call_ne], ?_⟩
      cases answer with
      | refused f => exact gaveUp f
      | granted outputs =>
        obtain ⟨same, steady', back⟩ := steady.perform outputs store session
        simp only [Run.step, Script.bind, same]
        exact goesOn [] _ _ steady' fun later hl left => back later hl () left

end Task.Underway
end LedgerIndex
