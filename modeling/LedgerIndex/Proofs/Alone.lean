import LedgerIndex.Proofs.Atomicity

/-!
# Handling a message alone

A message is handled alone if every call of its handling is granted and nothing else
happens meanwhile. If that ends well it has one effect on the store, which depends on
nothing but the store. The commit of a handling that is not alone has the same effect.
-/
namespace LedgerIndex

/-- The store after an undisturbed handling of a message, if that ends well. -/
def Delivery.effect? (s : Settings) (d : Delivery) (store : Store) : Option Store :=
  match s.topics.route d.topic with
  | none => some store
  | some _ => (d.task? s).bind fun task => task.commit? s store

def Delivery.served (s : Settings) (d : Delivery) : Bool :=
  (s.topics.route d.topic).isSome

theorem Delivery.served_of_task? {s : Settings} {d : Delivery} {task : Task}
    (ht : d.task? s = some task) : d.served s = true := by
  cases hk : s.topics.route d.topic with
  | none => simp [task?, hk] at ht
  | some kind => simp [served, hk]

theorem Delivery.effect?_of_task? {s : Settings} {d : Delivery} {task : Task}
    (ht : d.task? s = some task) (store : Store) : d.effect? s store = task.commit? s store := by
  have served := served_of_task? ht
  cases hk : s.topics.route d.topic with
  | none => simp [Delivery.served, hk] at served
  | some kind => simp [effect?, hk, ht]

theorem Delivery.evolves_of_effect? {s : Settings} {d : Delivery} {a b : Store}
    (h : d.effect? s a = some b) : a.Evolves b := by
  unfold effect? at h
  split at h
  · cases h
    exact .refl
  · obtain ⟨task, -, h⟩ := Option.bind_eq_some_iff.mp h
    obtain ⟨session, -, rfl⟩ := (Task.commit?_eq_some_iff s task a b).mp h
    exact .commit session .refl

theorem Script.run_ask {α : Type} (c : Call) (next : c.Reply → Script α) (store : Store)
    (session : Session) :
    (Script.ask c next).run (fun _ => []) store session =
      (next (c.perform [] store session).1).run (fun _ => []) (c.perform [] store session).2.1
        (c.perform [] store session).2.2 := by
  cases c <;> rfl

theorem Task.Underway.perform_eq {s : Settings} {t : Task} {store : Store} {run : Run Unit}
    {c : Call} {next : c.Reply → Script Unit} (underway : t.Underway s store run)
    (asks : run.script = .ask c next) (outputs : List Bytes) (session : Session) :
    c.perform outputs store session = c.perform [] store session := by
  have unheard : ∀ transaction, c ≠ .rewardOutputs transaction := by
    cases underway with
    | opening =>
      rw [Run.start, Task.attempt_eq] at asks
      cases asks
      simp
    | writing session rest steady _ => cases steady <;> cases asks <;> simp
    | failed session f => cases asks
    | committed session => cases asks
  cases c with
  | rewardOutputs transaction => exact absurd rfl (unheard transaction)
  | _ => rfl

namespace Handling

variable {s : Settings} {d : Delivery} {strides : List Stride} {ix₀ ix : Indexer} {h : Handling}

/-- A step of a handling has no effect, or it is the commit of its message. -/
theorem Course.step_effect (course : Course s d strides ix h) (answer : Answer) :
    ((h.stride s answer ix).commits = false ∧ (h.step s answer ix).1.store = ix.store ∧
      (h.step s answer ix).2.succeeded = h.succeeded) ∨
    ((h.stride s answer ix).commits = true ∧ d.served s = true ∧
      d.effect? s ix.store = some (h.step s answer ix).1.store ∧ h.succeeded = false ∧
      (h.step s answer ix).2.succeeded = true) := by
  cases ht : d.task? s with
  | none =>
    obtain ⟨rfl, -⟩ := course.settled_of_no_task ht
    exact .inl ⟨by simp [stride, Stride.commits, need], rfl, rfl⟩
  | some task =>
    have r := course.record ht
    have r' := r.own answer
    have count := r'.commits
    rw [List.countP_append, r.commits] at count
    rcases r'.effect _ (List.mem_append_right _ (List.mem_singleton.mpr rfl)) with
      ⟨commits, committed⟩ | ⟨quiet, same⟩
    · right
      have : h.succeeded = false ∧ (h.step s answer ix).2.succeeded = true := by
        revert count
        cases h.succeeded <;> cases (h.step s answer ix).2.succeeded <;> simp [commits]
      exact ⟨commits, Delivery.served_of_task? ht,
        (Delivery.effect?_of_task? ht _).trans committed, this⟩
    · left
      refine ⟨quiet, same, ?_⟩
      revert count
      cases h.succeeded <;> cases (h.step s answer ix).2.succeeded <;> simp [quiet]

theorem succeeded_start (s : Settings) (d : Delivery) (ix : Indexer) :
    (Handling.start s d ix).2.succeeded = !d.served s := by
  cases ht : d.task? s with
  | none =>
    rw [(start_of_no_task ht ix).2.2]
    cases hk : s.topics.route d.topic <;> simp [Delivery.served, succeeded, hk]
  | some task =>
    simp [start_of_task ht, Delivery.served_of_task? ht, succeeded, Task.attempt_eq, Run.start]

/-- A handling of which every step is granted, with nothing in between. -/
inductive Alone (s : Settings) (d : Delivery) (ix₀ : Indexer) : Indexer → Handling → Prop
  | start : Alone s d ix₀ (Handling.start s d ix₀).1 (Handling.start s d ix₀).2
  | step (outputs : List Bytes) {ix : Indexer} {h : Handling} : Alone s d ix₀ ix h →
    Alone s d ix₀ (h.step s (.granted outputs) ix).1 (h.step s (.granted outputs) ix).2

namespace Alone

theorem course (alone : Alone s d ix₀ ix h) : ∃ strides, Course s d strides ix h := by
  induction alone with
  | start => exact ⟨_, .start ix₀⟩
  | step outputs _ ih =>
    obtain ⟨strides, course⟩ := ih
    exact ⟨_, .own (.granted outputs) course⟩

/-- Until the commit the store is as it was, and from then on as the message leaves it. -/
theorem effect (alone : Alone s d ix₀ ix h) :
    (h.succeeded = false → ix.store = ix₀.store) ∧
      (h.succeeded = true → d.effect? s ix₀.store = some ix.store) := by
  induction alone with
  | start =>
    rw [succeeded_start, store_start]
    refine ⟨fun _ => rfl, fun passedOver => ?_⟩
    have : s.topics.route d.topic = none := by simpa [Delivery.served] using passedOver
    simp [Delivery.effect?, this]
  | step outputs alone ih =>
    obtain ⟨strides, course⟩ := alone.course
    rcases course.step_effect (.granted outputs) with
      ⟨-, same, kept⟩ | ⟨-, -, applied, fresh, succeeded⟩
    · rw [same, kept]
      exact ih
    · rw [succeeded, ← ih.1 fresh]
      exact ⟨by simp, fun _ => applied⟩

theorem effect?_eq (alone : Alone s d ix₀ ix (.settled (.ok ()))) :
    d.effect? s ix₀.store = some ix.store :=
  alone.effect.2 rfl

theorem attempting {task : Task} {retries : Nat} {session : Session} {script : Script Unit}
    (alone : Alone s d ix₀ ix (.attempting task retries ⟨session, script⟩)) :
    ∃ ix' session', ix'.store = (script.run (fun _ => []) ix.store session).store ∧
      Alone s d ix₀ ix' (.attempting task retries
        ⟨session', .ofExcept (script.run (fun _ => []) ix.store session).result⟩) := by
  induction script generalizing ix session with
  | done a => exact ⟨ix, session, rfl, alone⟩
  | fail f => exact ⟨ix, session, rfl, alone⟩
  | note e next ih =>
    have stepped := alone.step []
    rw [step_unfinished task retries s _ ix rfl] at stepped
    have ended := ih stepped
    exact ended
  | ask c next ih =>
    have stepped := alone.step []
    rw [step_unfinished task retries s _ ix rfl] at stepped
    rw [Script.run_ask]
    have ended := ih _ stepped
    exact ended

/-- Handling the message alone ends well where its effect is defined. -/
theorem of_effect? {after : Store} (applied : d.effect? s ix₀.store = some after) :
    ∃ ix, Alone s d ix₀ ix (.settled (.ok ())) ∧ ix.store = after := by
  have started : Alone s d ix₀ _ _ := .start
  cases hk : s.topics.route d.topic with
  | none =>
    have unserved : d.task? s = none := by simp [Delivery.task?, hk]
    obtain ⟨store, -, settled⟩ := start_of_no_task unserved ix₀
    rw [settled, hk] at started
    refine ⟨_, started, store.trans ?_⟩
    simpa [Delivery.effect?, hk] using applied
  | some kind =>
    simp only [Delivery.effect?, hk, Option.bind_eq_some_iff] at applied
    obtain ⟨task, ht, committed⟩ := applied
    rw [start_of_task ht] at started
    obtain ⟨ix, session, store, attempted⟩ := started.attempting
    simp only [Task.commit?] at committed
    split at committed
    next a ok =>
      cases committed
      rw [ok] at attempted
      have settled := attempted.step []
      have judged : (Handling.attempting task 0 ⟨session, .ofExcept (.ok ())⟩).step s
          (.granted []) ix = settle task.subject (.ok ()) ix := rfl
      obtain ⟨same, -, ended⟩ := settle_eq task.subject (.ok ()) ix
      rw [judged, ended] at settled
      exact ⟨_, settled, same.trans store⟩
    next => cases committed

/-- Where the effect of the message is defined, handling it alone does not end otherwise. -/
theorem ends_well {after : Store} (applied : d.effect? s ix₀.store = some after)
    (alone : Alone s d ix₀ ix h) :
    h = .settled (.ok ()) ∨ ∃ task run, d.task? s = some task ∧ h = .attempting task 0 run ∧
      (run.script.run (fun _ => []) ix.store run.session).result = .ok () := by
  induction alone with
  | start =>
    cases ht : d.task? s with
    | none =>
      left
      rw [(start_of_no_task ht ix₀).2.2]
      cases hk : s.topics.route d.topic with
      | none => rfl
      | some kind => simp [Delivery.effect?, hk, ht] at applied
    | some task =>
      right
      rw [start_of_task ht]
      rw [Delivery.effect?_of_task? ht] at applied
      simp only [Task.commit?] at applied
      split at applied
      next ok => exact ⟨task, _, rfl, rfl, ok⟩
      next => cases applied
  | @step outputs ix h alone ih =>
    rcases ih with rfl | ⟨task, ⟨session, script⟩, ht, rfl, ok⟩
    · exact .inl rfl
    · cases script with
      | done a => exact .inl (settle_eq task.subject (.ok ()) ix).2.2
      | fail f => cases ok
      | note e next =>
        rw [step_unfinished task 0 s _ ix rfl]
        exact .inr ⟨task, _, ht, rfl, ok⟩
      | ask c next =>
        obtain ⟨strides, course⟩ := alone.course
        have tracks := (course.record ht).tracks
        cases tracks with
        | attempting retries underway =>
          have unheard := underway.perform_eq rfl outputs session
          rw [step_unfinished task 0 s _ ix rfl]
          simp only [Run.step, unheard]
          rw [Script.run_ask] at ok
          exact .inr ⟨task, _, ht, rfl, ok⟩

end Alone
end Handling

/-- The store after some messages have been handled one at a time, if all of that ends well. -/
def Settings.applyInOrder? (s : Settings) (ds : List Delivery) (store : Store) : Option Store :=
  ds.foldlM (fun store d => d.effect? s store) store

theorem Settings.applyInOrder?_append (s : Settings) (ds more : List Delivery) (store : Store) :
    s.applyInOrder? (ds ++ more) store =
      (s.applyInOrder? ds store).bind (s.applyInOrder? more) := by
  simp only [applyInOrder?, List.foldlM_append]
  rfl

theorem Settings.evolves_of_applyInOrder? {s : Settings} {ds : List Delivery} {a b : Store}
    (h : s.applyInOrder? ds a = some b) : a.Evolves b := by
  induction ds generalizing a with
  | nil =>
    cases h
    exact .refl
  | cons d ds ih =>
    obtain ⟨c, hc, h⟩ := Option.bind_eq_some_iff.mp h
    exact (Delivery.evolves_of_effect? hc).trans (ih h)

/-- Messages are handled one at a time, each of them alone, and each handling ends well. -/
inductive Handling.InTurn (s : Settings) : Indexer → List Delivery → Indexer → Prop
  | done (ix : Indexer) : InTurn s ix [] ix
  | next {d : Delivery} {ds : List Delivery} {ix between ix' : Indexer} :
    Alone s d ix between (.settled (.ok ())) → InTurn s between ds ix' → InTurn s ix (d :: ds) ix'

theorem Handling.InTurn.of_applyInOrder? {s : Settings} {ds : List Delivery} {ix : Indexer}
    {after : Store} (applied : s.applyInOrder? ds ix.store = some after) :
    ∃ ix', InTurn s ix ds ix' ∧ ix'.store = after := by
  induction ds generalizing ix with
  | nil =>
    cases applied
    exact ⟨ix, .done ix, rfl⟩
  | cons d ds ih =>
    obtain ⟨store, first, rest⟩ := Option.bind_eq_some_iff.mp applied
    obtain ⟨between, alone, rfl⟩ := Alone.of_effect? first
    obtain ⟨ix', inTurn, store⟩ := ih rest
    exact ⟨ix', .next alone inTurn, store⟩

end LedgerIndex
