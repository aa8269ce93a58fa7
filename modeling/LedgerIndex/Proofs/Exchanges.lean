import LedgerIndex.Proofs.History
import LedgerIndex.Proofs.Pending

/-!
# Exchanges

A script under way calls the outside, call after call, and each of them takes effect or is
refused. Between any two of its steps others may change the store. Whatever part of a script is
played, what passed is a list of exchanges, and where the script is put together from others the
list is put together from theirs.
-/
namespace LedgerIndex

/-- A call that a script made, what became of it, the session that was open, and the store at
that moment. -/
structure Exchange where
  call : Call
  answer : Answer
  session : Session
  before : Store

def Exchange.after (e : Exchange) : Store :=
  match e.answer with
  | .granted outputs => (e.call.perform outputs e.before e.session).2.1
  | .refused _ => e.before

def Exchange.Granted (e : Exchange) : Prop :=
  ∃ outputs, e.answer = .granted outputs

namespace Exchange

def Flips (e : Exchange) (id : String) : Prop :=
  e.before.flag? id = some false ∧ e.after.flag? id = some true

def Flags (e : Exchange) (id : String) : Prop :=
  e.call = .markReward id ∧ e.Granted

theorem onward (e : Exchange) : e.before.Onward e.Flags e.after := by
  obtain ⟨call, answer, session, before⟩ := e
  cases answer with
  | refused f => exact .refl
  | granted outputs =>
    cases call with
    | commit => exact .commit session .refl
    | markReward id => exact .markReward ⟨rfl, outputs, rfl⟩ .refl
    | _ => exact .refl

theorem Flips.flags {e : Exchange} {id : String} (h : e.Flips id) : e.Flags id := by
  rcases e.onward.keeps_flag h.1 with kept | ⟨flags, -⟩
  · rw [h.2] at kept
    cases kept
  · exact flags

theorem Flags.after_eq {e : Exchange} {id : String} (h : e.Flags id) :
    e.after = e.before.markReward id := by
  obtain ⟨call, outputs, granted⟩ := h
  rw [after, granted, call]
  rfl

theorem Flags.flagged {e : Exchange} {id : String} {flag : Bool} (h : e.Flags id)
    (known : e.before.flag? id = some flag) : e.after.flag? id = some true := by
  rw [h.after_eq, Store.flag?_markReward, if_pos rfl, known]
  rfl

end Exchange

/-- A script that is over after all of its parts is over after the first. -/
theorem Script.of_bind_eq_done {α β : Type} {script : Script α} {k : α → Script β} {b : β}
    (h : script.bind k = .done b) : ∃ a, script = .done a := by
  cases script with
  | done a => exact ⟨a, rfl⟩
  | _ => cases h

theorem Script.of_bind_eq_fail {α β : Type} {script : Script α} {k : α → Script β} {f : Failure}
    (h : script.bind k = .fail f) : script = .fail f ∨ ∃ a, script = .done a ∧ k a = .fail f := by
  cases script with
  | done a => exact .inr ⟨a, rfl, h⟩
  | fail g =>
    cases h
    exact .inl rfl
  | _ => cases h

namespace Run

variable {α β : Type}

def exchange (answer : Answer) (store : Store) (run : Run α) : List Exchange :=
  match run.script with
  | .ask call _ => [⟨call, answer, run.session, store⟩]
  | _ => []

def bind (run : Run α) (k : α → Script β) : Run β :=
  ⟨run.session, run.script.bind k⟩

theorem step_bind {run : Run α} (going : ∀ a, run.script ≠ .done a) (k : α → Script β)
    (answer : Answer) (store : Store) :
    ((run.bind k).step answer store).1 = (run.step answer store).1 ∧
      ((run.bind k).step answer store).2.1 = (run.step answer store).2.1.bind k ∧
      (run.bind k).exchange answer store = run.exchange answer store := by
  obtain ⟨session, script⟩ := run
  cases script with
  | done a => exact absurd rfl (going a)
  | fail f => exact ⟨rfl, rfl, rfl⟩
  | note e next => exact ⟨rfl, rfl, rfl⟩
  | ask call next => cases answer <;> exact ⟨rfl, rfl, rfl⟩

/-- A step leaves the store as it is, or as its exchange does. -/
theorem exchange_cases (answer : Answer) (store : Store) (run : Run α) :
    (run.exchange answer store = [] ∧ (run.step answer store).1 = store) ∨
      ∃ e : Exchange, run.exchange answer store = [e] ∧ e.before = store ∧
        (run.step answer store).1 = e.after := by
  obtain ⟨session, script⟩ := run
  cases script with
  | ask call next =>
    cases answer with
    | granted outputs => exact .inr ⟨⟨call, .granted outputs, session, store⟩, rfl, rfl, rfl⟩
    | refused f => exact .inr ⟨⟨call, .refused f, session, store⟩, rfl, rfl, rfl⟩
  | _ => exact .inl ⟨rfl, rfl⟩

/-- Some steps of a run, with what passed meanwhile, the run as it is left and the store then. -/
inductive Plays : Run α → Store → List Exchange → Run α → Store → Prop
  | rest (run : Run α) (store : Store) : Plays run store [] run store
  | meanwhile {run run' : Run α} {store store' last : Store} {log : List Exchange} :
    store.Meanwhile store' → Plays run store' log run' last → Plays run store log run' last
  | step (answer : Answer) {run run' : Run α} {store last : Store} {log : List Exchange} :
    Plays (run.step answer store).2.1 (run.step answer store).1 log run' last →
      Plays run store (run.exchange answer store ++ log) run' last

namespace Plays

variable {session : Session} {run run' : Run α} {store last : Store} {log : List Exchange}

theorem of_over (h : Plays run store log run' last) (ended : run.result?.isSome = true) :
    log = [] ∧ run' = run ∧ store.Meanwhile last := by
  induction h with
  | rest run store => exact ⟨rfl, rfl, .refl⟩
  | meanwhile first _ ih =>
    obtain ⟨nothing, same, later⟩ := ih ended
    exact ⟨nothing, same, first.trans later⟩
  | @step answer run run' store last log _ ih =>
    have idle : (run.step answer store).2.1 = run ∧ (run.step answer store).1 = store ∧
        run.exchange answer store = [] := by
      obtain ⟨session, script⟩ := run
      cases script with
      | done a => exact ⟨rfl, rfl, rfl⟩
      | fail f => exact ⟨rfl, rfl, rfl⟩
      | note e next => cases ended
      | ask c next => cases ended
    rw [idle.1, idle.2.1] at ih
    obtain ⟨nothing, same, later⟩ := ih ended
    exact ⟨by rw [idle.2.2, nothing]; rfl, same, later⟩

theorem of_note {e : Event} {next : Script α}
    (h : Plays ⟨session, .note e next⟩ store log run last) :
    log = [] ∧ run = ⟨session, .note e next⟩ ∨
      ∃ store', store.Meanwhile store' ∧ Plays ⟨session, next⟩ store' log run last := by
  generalize start : (⟨session, .note e next⟩ : Run α) = first at h
  induction h with
  | rest run store => exact .inl ⟨rfl, rfl⟩
  | meanwhile before _ ih =>
    rcases ih start with idle | ⟨store', later, rest⟩
    · exact .inl idle
    · exact .inr ⟨store', before.trans later, rest⟩
  | step answer rest _ =>
    subst start
    exact .inr ⟨_, .refl, rest⟩

/-- A script that asks has not been answered, or was refused, or goes on with the reply. -/
theorem of_ask {call : Call} {next : call.Reply → Script α}
    (h : Plays ⟨session, .ask call next⟩ store log run last) :
    (log = [] ∧ run = ⟨session, .ask call next⟩ ∧ store.Meanwhile last) ∨
    (∃ f store', store.Meanwhile store' ∧ log = [⟨call, .refused f, session, store'⟩] ∧
      run = ⟨session, .fail f⟩ ∧ store'.Meanwhile last) ∨
    ∃ outputs store' rest, store.Meanwhile store' ∧
      log = ⟨call, .granted outputs, session, store'⟩ :: rest ∧
      let effect := call.perform outputs store' session
      Plays ⟨effect.2.2, next effect.1⟩ effect.2.1 rest run last := by
  generalize start : (⟨session, .ask call next⟩ : Run α) = first at h
  induction h with
  | rest run store => exact .inl ⟨rfl, rfl, .refl⟩
  | meanwhile before _ ih =>
    rcases ih start with ⟨idle, same, later⟩ | ⟨f, store', later, refused⟩ |
      ⟨outputs, store', rest, later, granted⟩
    · exact .inl ⟨idle, same, before.trans later⟩
    · exact .inr (.inl ⟨f, store', before.trans later, refused⟩)
    · exact .inr (.inr ⟨outputs, store', rest, before.trans later, granted⟩)
  | @step answer _ _ store _ log rest _ =>
    subst start
    cases answer with
    | refused f =>
      obtain ⟨rfl, rfl, later⟩ := rest.of_over rfl
      exact .inr (.inl ⟨f, store, .refl, rfl, rfl, later⟩)
    | granted outputs => exact .inr (.inr ⟨outputs, store, log, .refl, rfl, rest⟩)

/-- Two scripts in a row: the first is under way or has failed, or both were played. -/
theorem of_bind {k : α → Script β} {run' : Run β} (h : Plays (run.bind k) store log run' last) :
    (∃ rest : Run α, Plays run store log rest last ∧ (∀ a, rest.script ≠ .done a) ∧
      run' = rest.bind k) ∨
    ∃ a between store' log₁ log₂, log = log₁ ++ log₂ ∧
      Plays run store log₁ ⟨between, .done a⟩ store' ∧
      Plays ⟨between, k a⟩ store' log₂ run' last := by
  generalize start : run.bind k = first at h
  induction h generalizing run with
  | rest whole store =>
    by_cases ended : ∃ a, run.script = .done a
    · obtain ⟨session, script⟩ := run
      obtain ⟨a, rfl⟩ := ended
      subst start
      exact .inr ⟨a, session, store, [], [], rfl, .rest _ _, .rest _ _⟩
    · exact .inl ⟨run, .rest _ _, fun a done => ended ⟨a, done⟩, start.symm⟩
  | meanwhile before _ ih =>
    rcases ih start with ⟨rest, played, going, same⟩ |
      ⟨a, between, store', log₁, log₂, parts, one, two⟩
    · exact .inl ⟨rest, .meanwhile before played, going, same⟩
    · exact .inr ⟨a, between, store', log₁, log₂, parts, .meanwhile before one, two⟩
  | @step answer _ _ store _ log whole ih =>
    subst start
    by_cases ended : ∃ a, run.script = .done a
    · obtain ⟨session, script⟩ := run
      obtain ⟨a, rfl⟩ := ended
      exact .inr ⟨a, session, store, [], _, rfl, .rest _ _, .step answer whole⟩
    · obtain ⟨onward, next, same⟩ := step_bind (fun a done => ended ⟨a, done⟩) k answer store
      rw [same]
      rw [onward] at ih
      rcases ih next.symm with ⟨rest, played, going, left⟩ |
        ⟨a, between, store', log₁, log₂, rfl, one, two⟩
      · exact .inl ⟨rest, .step answer played, going, left⟩
      · exact .inr ⟨a, between, store', _, log₂, (List.append_assoc _ _ _).symm,
          .step answer one, two⟩

theorem reaches {script : Script α} (h : Plays run store log run' last)
    (reached : script.Reaches run) : script.Reaches run' := by
  induction h with
  | rest => exact reached
  | meanwhile _ _ ih => exact ih reached
  | step answer _ ih => exact ih (reached.step answer _)

/-- What a run and the others make of a store together: the rewards that are flagged are those
that the run flags. -/
theorem onward (h : Plays run store log run' last) :
    store.Onward (fun id => ∃ e ∈ log, e.Flags id) last := by
  induction h with
  | rest => exact .refl
  | meanwhile before _ ih => exact (before.mono fun _ nobody => nobody.elim).trans ih
  | @step answer run _ store last log _ ih =>
    have later : (run.step answer store).1.Onward
        (fun id => ∃ e ∈ run.exchange answer store ++ log, e.Flags id) last := by
      apply ih.mono
      rintro id ⟨e, member, flags⟩
      exact ⟨e, List.mem_append_right _ member, flags⟩
    rcases exchange_cases answer store run with ⟨-, same⟩ | ⟨e, own, rfl, after⟩
    · rwa [same] at later
    · refine .trans (e.onward.mono fun id flags => ⟨e, ?_, flags⟩) (after ▸ later)
      exact List.mem_append_left _ (own ▸ List.mem_singleton_self e)

theorem around (h : Plays run store log run' last) {e : Exchange} (member : e ∈ log) :
    store.Onward (fun _ => True) e.before ∧ e.after.Onward (fun _ => True) last := by
  induction h with
  | rest => cases member
  | meanwhile before _ ih =>
    obtain ⟨earlier, later⟩ := ih member
    exact ⟨(before.mono fun _ _ => trivial).trans earlier, later⟩
  | @step answer run _ store _ log rest ih =>
    rcases exchange_cases answer store run with ⟨nothing, same⟩ | ⟨first, own, rfl, after⟩
    · rw [nothing] at member
      rw [same] at ih
      exact ih member
    · rw [own] at member
      rcases List.mem_cons.mp member with rfl | member
      · exact ⟨.refl, after ▸ rest.onward.mono fun _ _ => trivial⟩
      · obtain ⟨earlier, later⟩ := ih member
        rw [after] at earlier
        exact ⟨(first.onward.mono fun _ _ => trivial).trans earlier, later⟩

theorem flips (h : Plays run store log run' last) {id : String}
    (unflagged : store.flag? id = some false) (flagged : last.flag? id = some true) :
    ∃ e ∈ log, e.Flips id := by
  induction h with
  | rest =>
    rw [unflagged] at flagged
    cases flagged
  | meanwhile before _ ih => exact ih (before.keeps_flag unflagged) flagged
  | @step answer run _ store _ log _ ih =>
    rcases exchange_cases answer store run with ⟨nothing, same⟩ | ⟨first, own, rfl, after⟩
    · rw [nothing]
      rw [same] at ih
      exact ih unflagged flagged
    · rw [own]
      rw [after] at ih
      rcases first.onward.keeps_flag unflagged with now | ⟨-, now⟩
      · obtain ⟨e, member, flips⟩ := ih now flagged
        exact ⟨e, List.mem_cons_of_mem first member, flips⟩
      · exact ⟨first, List.mem_cons_self, unflagged, now⟩

end Plays

/-- Some steps of a run in a store that nobody else changes, with an answer for each. -/
def playAll (run : Run α) (store : Store) : List Answer → List Exchange × Run α × Store
  | [] => ([], run, store)
  | answer :: answers =>
    let played := (run.step answer store).2.1.playAll (run.step answer store).1 answers
    (run.exchange answer store ++ played.1, played.2)

theorem plays_playAll (run : Run α) (store : Store) (answers : List Answer) :
    run.Plays store (run.playAll store answers).1 (run.playAll store answers).2.1
      (run.playAll store answers).2.2 := by
  induction answers generalizing run store with
  | nil => exact .rest run store
  | cons answer answers ih => exact .step answer (ih _ _)

end Run

def Call.Inward : Call → Prop
  | .stage _ | .outputExists _ | .consume _ | .consumed _ => True
  | _ => False

/-- A steady script makes no other calls, and they change nothing. -/
theorem Run.Plays.of_steady {α : Type} {run run' : Run α} {store last : Store}
    {log : List Exchange} (h : Plays run store log run' last) (steady : run.script.Steady) :
    ∀ e ∈ log, e.call.Inward ∧ e.after = e.before := by
  induction h with
  | rest => simp
  | meanwhile _ _ ih => exact ih steady
  | @step answer run _ store _ log _ ih =>
    obtain ⟨session, script⟩ := run
    cases script with
    | done a => exact ih steady
    | fail f => exact ih steady
    | note e next =>
      cases steady with
      | note _ steady => exact ih steady
    | ask call next =>
      have inward : call.Inward := by cases steady <;> trivial
      cases answer with
      | refused f => exact List.forall_mem_cons.mpr ⟨⟨inward, rfl⟩, ih (.fail f)⟩
      | granted outputs =>
        obtain ⟨same, steady', -⟩ := steady.perform outputs store session
        exact List.forall_mem_cons.mpr ⟨⟨inward, same⟩, ih steady'⟩

end LedgerIndex
