import LedgerIndex.Proofs.Permanence

/-!
# All or nothing

However often an attempt is given up, whichever of its calls fails and whatever else is
written meanwhile, the handling of a message changes the store in at most one step. That
step is the commit of an attempt, it has the effect of an attempt made all at once on
the store as it is then, and it happens exactly if the handling ends well.
-/
namespace LedgerIndex

namespace Handling

inductive Tracks (s : Settings) (task : Task) (store : Store) : Handling → Prop
  | attempting (retries : Nat) {run : Run Unit} :
    task.Underway s store run → Tracks s task store (.attempting task retries run)
  | pausing (retries delay : Nat) : Tracks s task store (.pausing task retries delay)
  | settled (result : Except Failure Unit) : Tracks s task store (.settled result)

def succeeded : Handling → Bool
  | .attempting _ _ ⟨_, .done ()⟩ => true
  | .settled (.ok ()) => true
  | _ => false

def ended : Handling → List (Except Failure Unit)
  | .settled result => [result]
  | _ => []

def opened : Handling → Nat
  | .attempting _ _ run => if run.need = .reply .begin then 0 else 1
  | _ => 0

section Attempting

variable (task : Task) (retries : Nat) {run : Run Unit}

theorem need_of_over {result : Except Failure Unit} (halted : run.result? = some result) :
    (attempting task retries run).need = .nothing := by
  obtain ⟨session, script⟩ := run
  cases script <;> simp_all [need, Run.need, Run.result?]

theorem need_of_unfinished (unfinished : run.result? = none) :
    (attempting task retries run).need = run.need := by
  obtain ⟨session, script⟩ := run
  cases script <;> simp_all [need, Run.need, Run.result?]

theorem step_unfinished (s : Settings) (answer : Answer) (ix : Indexer)
    (unfinished : run.result? = none) :
    (attempting task retries run).step s answer ix =
      (({ ix with store := (run.step answer ix.store).1 } : Indexer).noteAll
        (run.step answer ix.store).2.2,
       .attempting task retries (run.step answer ix.store).2.1) := by
  simp [step, unfinished, Indexer.stepRun]

/-- An attempt that is over is judged: the handling ends with its result, or pauses to try
again after a contended attempt while no stop is requested. -/
theorem step_over (s : Settings) (answer : Answer) (ix : Indexer) {result : Except Failure Unit}
    (halted : run.result? = some result) :
    let next := (attempting task retries run).step s answer ix
    next.1.store = ix.store ∧ next.1.stopping = ix.stopping ∧
      ((next.2 = .settled result ∧
          ∀ f, result = .error f → f.isContention = true → ix.stopping = true) ∨
        ∃ f delay, result = .error f ∧ f.isContention = true ∧
          next.2 = .pausing task (retries + 1) delay) := by
  cases result with
  | ok a =>
    obtain ⟨store, stopping, settled⟩ := settle_eq task.subject (.ok ()) ix
    simp only [step, halted]
    exact ⟨store, stopping, .inl ⟨settled, by simp⟩⟩
  | error f =>
    obtain ⟨store, stopping, decided⟩ := retreat_cases s task retries f ix
    simp only [step, halted]
    refine ⟨store, stopping, ?_⟩
    rcases decided with ⟨contended, -, delay, paused⟩ | ⟨stopped, settled⟩
    · exact .inr ⟨f, delay, rfl, contended, paused⟩
    · exact .inl ⟨settled, by rintro _ ⟨⟩; exact stopped⟩

theorem succeeded_eq_false (unmade : run.result? ≠ some (.ok ())) :
    (attempting task retries run).succeeded = false := by
  obtain ⟨session, script⟩ := run
  cases script <;> simp_all [succeeded, Run.result?]

theorem succeeded_of_over {result : Except Failure Unit} (halted : run.result? = some result) :
    (attempting task retries run).succeeded = (settled result).succeeded := by
  obtain ⟨session, script⟩ := run
  cases script <;> simp_all [succeeded, Run.result?] <;> subst halted <;> rfl

theorem commits_stride (s : Settings) (answer : Answer) (ix : Indexer)
    (unfinished : run.result? = none) :
    ((attempting task retries run).stride s answer ix).commits = run.commits answer := by
  simp only [stride, Stride.commits, need_of_unfinished task retries unfinished, Run.commits]

theorem opens_stride (s : Settings) (answer : Answer) (ix : Indexer)
    (unfinished : run.result? = none) :
    ((attempting task retries run).stride s answer ix).opens =
      decide (run.need = .reply .begin) := by
  simp only [stride, Stride.opens, need_of_unfinished task retries unfinished]

end Attempting

structure Record (s : Settings) (task : Task) (strides : List Stride) (ix : Indexer)
    (h : Handling) : Prop where
  tracks : h.Tracks s task ix.store
  effect : ∀ x ∈ strides, (x.commits = true ∧ task.commit? s x.before = some x.after) ∨
    (x.commits = false ∧ x.after = x.before)
  commits : strides.countP (·.commits) = h.succeeded.toNat
  verdicts : ∃ failures : List Failure, (∀ f ∈ failures, f.isContention = true) ∧
    strides.filterMap (·.verdict) = failures.map .error ++ h.ended
  opens : strides.countP (·.opens) = (strides.filterMap (·.verdict)).length + h.opened
  stopped : ∀ f, h = .settled (.error f) → f.isContention = true →
    ∃ x ∈ strides, x.verdict = some (.error f) ∧ x.stopping = true

theorem exists_of_countP_eq_one {α : Type} {p : α → Bool} {xs : List α}
    (h : xs.countP p = 1) :
    ∃ earlier x later, xs = earlier ++ x :: later ∧ p x = true ∧
      ∀ y ∈ earlier ++ later, p y = false := by
  obtain ⟨x, hx, hpx⟩ := List.countP_pos_iff.mp (by omega : 0 < xs.countP p)
  obtain ⟨earlier, later, rfl⟩ := List.append_of_mem hx
  refine ⟨earlier, x, later, rfl, hpx, ?_⟩
  have none : (earlier ++ later).countP p = 0 := by
    rw [List.countP_append, List.countP_cons_of_pos hpx] at h
    rw [List.countP_append]
    omega
  simpa using List.countP_eq_zero.mp none

namespace Record

variable {s : Settings} {d : Delivery} {task : Task} {strides : List Stride} {ix : Indexer}
  {h : Handling}

theorem start (ht : d.task? s = some task) (ix : Indexer) :
    Record s task [startStride s d ix] (Handling.start s d ix).1 (Handling.start s d ix).2 := by
  rw [start_of_task ht]
  refine ⟨.attempting 0 .opening, ?_, ?_, ⟨[], by simp, by simp [startStride, ended]⟩, ?_, ?_⟩
  · simp [startStride, Stride.commits, store_start]
  · simp [startStride, Stride.commits, succeeded, Task.attempt_eq, Run.start]
  · simp [startStride, Stride.opens, opened, Task.attempt_eq, Run.start, Run.need]
  · simp

theorem elsewhere {ix' : Indexer} (r : Record s task strides ix h) (away : ix.Elsewhere ix') :
    Record s task strides ix' h where
  tracks := by
    cases r.tracks with
    | attempting retries underway =>
      exact .attempting retries (underway.later away.store.keepsOutputs)
    | pausing retries delay => exact .pausing retries delay
    | settled result => exact .settled result
  effect := r.effect
  commits := r.commits
  verdicts := r.verdicts
  opens := r.opens
  stopped := r.stopped

theorem extend {ix' : Indexer} {h' : Handling} (r : Record s task strides ix h) (x : Stride)
    (tracks : h'.Tracks s task ix'.store)
    (effect : (x.commits = true ∧ task.commit? s x.before = some x.after) ∨
      (x.commits = false ∧ x.after = x.before))
    (commits : h.succeeded.toNat + x.commits.toNat = h'.succeeded.toNat)
    (opens : h.opened + x.opens.toNat = h'.opened)
    (verdict : x.verdict = none) (ended : h'.ended = h.ended)
    (settled : ∀ result, h' = .settled result → h = .settled result) :
    Record s task (strides ++ [x]) ix' h' where
  tracks := tracks
  effect := by
    simp only [List.mem_append, List.mem_singleton]
    rintro y (hy | rfl)
    · exact r.effect y hy
    · exact effect
  commits := by
    rw [List.countP_append, r.commits, ← commits]
    cases hx : x.commits <;> simp [hx]
  verdicts := by
    obtain ⟨failures, contended, hv⟩ := r.verdicts
    exact ⟨failures, contended, by simp [verdict, hv, ended]⟩
  opens := by
    rw [List.countP_append, r.opens, List.filterMap_append, ← opens]
    cases hx : x.opens <;> simp [hx, verdict, Nat.add_assoc]
  stopped f hf hc := by
    obtain ⟨y, hy, hyv⟩ := r.stopped f (settled _ hf) hc
    exact ⟨y, by simp [hy], hyv⟩

theorem judge {ix' : Indexer} {h' : Handling} {retries : Nat} {run : Run Unit}
    (r : Record s task strides ix (.attempting task retries run)) (x : Stride)
    {result : Except Failure Unit} (halted : run.result? = some result)
    (verdict : x.verdict = some result) (idle : ∀ c, x.need ≠ .reply c) (same : x.after = x.before)
    (tracks : h'.Tracks s task ix'.store) (closed : h'.opened = 0)
    (succeeded : h'.succeeded = (Handling.attempting task retries run).succeeded)
    (decided : h' = .settled result ∧
        (∀ f, result = .error f → f.isContention = true → x.stopping = true) ∨
      h'.ended = [] ∧ ∃ f, result = .error f ∧ f.isContention = true) :
    Record s task (strides ++ [x]) ix' h' where
  tracks := tracks
  effect := by
    simp only [List.mem_append, List.mem_singleton]
    rintro y (hy | rfl)
    · exact r.effect y hy
    · exact .inr ⟨(y.quiet_of_idle idle).1, same⟩
  commits := by
    rw [List.countP_append, r.commits, succeeded]
    simp [(x.quiet_of_idle idle).1]
  verdicts := by
    obtain ⟨failures, contended, hv⟩ := r.verdicts
    rcases decided with ⟨rfl, -⟩ | ⟨ended, f, rfl, hf⟩
    · exact ⟨failures, contended, by simp [verdict, hv, Handling.ended]⟩
    · refine ⟨failures ++ [f], ?_, ?_⟩
      · simpa [or_imp, forall_and] using ⟨contended, hf⟩
      · rw [List.filterMap_append, hv, ended]
        simp [verdict, Handling.ended]
  opens := by
    have open_one : (Handling.attempting task retries run).opened = 1 := by
      have : run.need ≠ .reply .begin := by
        unfold Run.result? at halted
        unfold Run.need
        split at halted <;> simp_all
      simp [opened, this]
    rw [List.countP_append, r.opens, List.filterMap_append, closed, open_one]
    simp [(x.quiet_of_idle idle).2, verdict]
  stopped f hf hc := by
    rcases decided with ⟨rfl, stop⟩ | ⟨ended, -⟩
    · cases hf
      exact ⟨x, by simp, verdict, stop f rfl hc⟩
    · simp [hf, Handling.ended] at ended

theorem own (r : Record s task strides ix h) (answer : Answer) :
    Record s task (strides ++ [h.stride s answer ix]) (h.step s answer ix).1
      (h.step s answer ix).2 := by
  cases r.tracks with
  | settled result =>
    have idle := ((Handling.settled result).stride s answer ix).quiet_of_idle (by simp [stride, need])
    apply r.extend _ (.settled result) (.inr ⟨idle.1, rfl⟩)
    · rw [idle.1]
      rfl
    · rw [idle.2]
      rfl
    · rfl
    · rfl
    · exact fun _ h => h
  | pausing retries delay =>
    have idle := ((Handling.pausing task retries delay).stride s answer ix).quiet_of_idle
      (by simp [stride, need])
    apply r.extend _ (.attempting retries .opening) (.inr ⟨idle.1, rfl⟩)
    · rw [idle.1]
      simp [succeeded, Task.attempt_eq, Run.start]
    · rw [idle.2]
      simp [opened, Task.attempt_eq, Run.start, Run.need]
    · rfl
    · rfl
    · intro result h
      cases h
  | @attempting retries run underway =>
    cases halted : run.result? with
    | some result =>
      have idle (c : Call) : (attempting task retries run).need ≠ .reply c := by
        simp [need_of_over task retries halted]
      have failed := succeeded_of_over task retries halted
      obtain ⟨same, -, ⟨settled, stop⟩ | ⟨f, delay, rfl, contended, paused⟩⟩ :=
        step_over task retries s answer ix halted
      · apply r.judge _ halted halted idle same
        · rw [settled]
          exact .settled _
        · rw [settled]
          rfl
        · rw [settled, failed]
        · exact .inl ⟨settled, stop⟩
      · apply r.judge _ halted halted idle same
        · rw [paused]
          exact .pausing _ _
        · rw [paused]
          rfl
        · rw [paused, failed]
          rfl
        · rw [paused]
          exact .inr ⟨rfl, f, rfl, contended⟩
    | none =>
      have stepped := step_unfinished task retries s answer ix halted
      have commits := commits_stride task retries s answer ix halted
      have opens := opens_stride task retries s answer ix halted
      have fresh := succeeded_eq_false task retries (by simp [halted] : run.result? ≠ some (.ok ()))
      rcases underway.step_cases halted answer with
        ⟨granted, after, committed, moved⟩ | ⟨quiet, run', events, moved, on, noBegin, noEnd⟩
      · have notBegin : run.need ≠ .reply .begin := by
          simp only [Run.commits, Bool.and_eq_true, decide_eq_true_eq] at granted
          simp [granted.1]
        rw [stepped, moved]
        refine r.extend _ (.attempting retries (.committed _))
          (.inl ⟨commits.trans granted, ?_⟩) ?_ ?_ halted rfl (by simp)
        · simpa [stride, stepped, moved] using committed
        · rw [fresh, commits, granted]
          rfl
        · have waits : (attempting task retries run).opened = 1 := by simp [opened, notBegin]
          rw [opens, waits, decide_eq_false notBegin]
          rfl
      · rw [stepped, moved]
        refine r.extend _ (.attempting retries on) (.inr ⟨commits.trans quiet, ?_⟩) ?_ ?_ halted rfl
          (by simp)
        · simp [stride, stepped, moved]
        · rw [fresh, commits, quiet, succeeded_eq_false task retries noEnd]
          rfl
        · rw [opens]
          by_cases hb : run.need = .reply .begin <;> simp [hb, opened, noBegin]

theorem unchanged (r : Record s task strides ix h) {x : Stride} (hx : x ∈ strides)
    (quiet : x.commits = false) : x.after = x.before := by
  rcases r.effect x hx with ⟨commits, -⟩ | ⟨-, same⟩
  · simp [quiet] at commits
  · exact same

/-- A handling that ends well has changed the store in one step. -/
theorem success (r : Record s task strides ix (.settled (.ok ()))) :
    ∃ earlier x later, strides = earlier ++ x :: later ∧ x.commits = true ∧
      task.commit? s x.before = some x.after ∧ ∀ y ∈ earlier ++ later, y.after = y.before := by
  obtain ⟨earlier, x, later, rfl, commits, others⟩ := exists_of_countP_eq_one r.commits
  refine ⟨earlier, x, later, rfl, commits, ?_, fun y hy => ?_⟩
  · rcases r.effect x (by simp) with ⟨-, committed⟩ | ⟨quiet, -⟩
    · exact committed
    · simp [commits] at quiet
  · exact r.unchanged (by grind) (others y hy)

theorem failure {f : Failure} (r : Record s task strides ix (.settled (.error f))) :
    ∀ x ∈ strides, x.after = x.before := by
  intro x hx
  have never : strides.countP (·.commits) = 0 := r.commits
  exact r.unchanged hx (Bool.eq_false_iff.mpr (List.countP_eq_zero.mp never x hx))

end Record

variable {s : Settings} {d : Delivery} {task : Task} {strides : List Stride} {ix : Indexer}
  {h : Handling}

theorem Course.record (ht : d.task? s = some task) (course : Course s d strides ix h) :
    Record s task strides ix h := by
  induction course with
  | start ix => exact .start ht ix
  | own answer _ ih => exact ih.own answer
  | elsewhere away _ ih => exact ih.elsewhere away

def passed (s : Settings) (d : Delivery) : Except Failure Unit :=
  if (s.topics.route d.topic).isSome then .error (.decoding .payload) else .ok ()

/-- A message without a task is never anything but settled, and touches nothing. -/
theorem Course.settled_of_no_task (ht : d.task? s = none) (course : Course s d strides ix h) :
    h = .settled (passed s d) ∧
      ∀ x ∈ strides, x.after = x.before ∧ x.opens = false ∧ x.commits = false := by
  induction course with
  | start ix =>
    have start := start_of_no_task ht ix
    exact ⟨start.2.2, by simp [startStride, start.1, Stride.opens, Stride.commits]⟩
  | elsewhere _ _ ih => exact ih
  | @own answer strides ix h _ ih =>
    obtain ⟨rfl, quiet⟩ := ih
    refine ⟨rfl, fun x hx => ?_⟩
    rcases List.mem_append.mp hx with hx | hx
    · exact quiet x hx
    · rw [List.mem_singleton.mp hx]
      exact ⟨rfl, by simp [stride, Stride.opens, need], by simp [stride, Stride.commits, need]⟩

/-- What the strides of a handling that is over come to. -/
structure AllOrNothing (s : Settings) (d : Delivery) (strides : List Stride)
    (result : Except Failure Unit) : Prop where
  /-- A success is one commit, with the effect of an undisturbed attempt: it makes the changes of
  the message, and leaves all of its rows. -/
  success : result = .ok () → ∃ task earlier x later, d.task? s = some task ∧
    strides = earlier ++ x :: later ∧ x.commits = true ∧ task.TakesEffect s x.before x.after ∧
    ∀ y ∈ earlier ++ later, y.after = y.before
  failure : ∀ f, result = .error f → ∀ y ∈ strides, y.after = y.before
  /-- Contention is only reported after a stop. -/
  contention : ∀ f, result = .error f → f.isContention = true →
    ∃ x ∈ strides, x.verdict = some result ∧ x.stopping = true
  /-- The attempts before the last were contended, and the last gives the result. -/
  attempts : d.task? s ≠ none → ∃ failures : List Failure,
    (∀ f ∈ failures, f.isContention = true) ∧
    strides.filterMap (·.verdict) = failures.map .error ++ [result] ∧
    strides.countP (·.opens) = failures.length + 1
  undecodable : d.task? s = none →
    result = .error (.decoding .payload) ∧ ∀ y ∈ strides, y.opens = false

/-- A message on a served topic takes effect exactly once or not at all, whichever calls of
whichever attempt fail, whatever else is written meanwhile, and whenever a stop comes. -/
theorem Course.all_or_nothing {kind : PayloadKind}
    (served : s.topics.route d.topic = some kind) {result : Except Failure Unit}
    (course : Course s d strides ix (.settled result)) : AllOrNothing s d strides result := by
  cases ht : d.task? s with
  | none =>
    obtain ⟨settled, quiet⟩ := course.settled_of_no_task ht
    obtain rfl : result = .error (.decoding .payload) := by
      simpa [passed, served] using settled
    exact {
      success := by simp
      failure := fun _ _ y hy => (quiet y hy).1
      contention := by rintro f ⟨⟩ hf; simp [Failure.isContention] at hf
      attempts := fun h => absurd ht h
      undecodable := fun _ => ⟨rfl, fun y hy => (quiet y hy).2.1⟩ }
  | some task =>
    have r := course.record ht
    exact {
      success := by
        rintro rfl
        obtain ⟨earlier, x, later, parts, hx, committed, others⟩ := r.success
        exact ⟨task, earlier, x, later, ht, parts, hx, .of_commit? committed, others⟩
      failure := by
        rintro f rfl
        exact r.failure
      contention := by
        rintro f rfl hf
        exact r.stopped f rfl hf
      attempts := fun _ => by
        obtain ⟨failures, contended, verdicts⟩ := r.verdicts
        refine ⟨failures, contended, verdicts, ?_⟩
        simpa [verdicts, ended, opened] using r.opens
      undecodable := fun h => by simp [ht] at h }

/-- Some answers, one after the other: the strides they lead to, and what becomes of the indexer
and the handling. -/
def follow (s : Settings) : List Answer → Indexer → Handling → List Stride × Indexer × Handling
  | [], ix, h => ([], ix, h)
  | answer :: rest, ix, h =>
    let further := follow s rest (h.step s answer ix).1 (h.step s answer ix).2
    (h.stride s answer ix :: further.1, further.2)

theorem Course.follow (course : Course s d strides ix h) (answers : List Answer) :
    Course s d (strides ++ (follow s answers ix h).1) (follow s answers ix h).2.1
      (follow s answers ix h).2.2 := by
  induction answers generalizing strides ix h with
  | nil => rwa [Handling.follow, List.append_nil]
  | cons answer rest ih =>
    have further := ih (course.own answer)
    rwa [List.append_assoc] at further

/-- A block creates an output. Its first attempt is contended with a part of the rows staged; the
second is under way when another session is committed, and writes them all. -/
theorem Course.all_or_nothing_contended :
    Settings.plain.topics.route (Delivery.block "a" [.funding]).topic = some .block ∧
    ∃ strides ix, Course .plain (.block "a" [.funding]) strides ix (.settled (.ok ())) ∧
      strides.countP (·.opens) = 2 ∧ (default : Identifier).derive 0 ∈ ix.store.tables.outputs ∧
      AllOrNothing .plain (.block "a" [.funding]) strides (.ok ()) := by
  have served : Settings.plain.topics.route (Delivery.block "a" [.funding]).topic = some .block :=
    Delivery.route_emptyBlock "a"
  have taken := @Course.start .plain (.block "a" [.funding]) .empty
  rw [start_of_task (Delivery.task?_funding "a")] at taken
  have contended := taken.follow
    (.replicate 5 (.granted []) ++ [.refused (.contention ""), .granted [], .granted []])
  have reopened := contended.follow (.replicate 4 (.granted []))
  have spent (ix : Indexer) : ix.Elsewhere
      { ix with store := ix.store.commit (Work.block [.spending]).session } :=
    ⟨.commit _ .refl, id⟩
  have written := (reopened.elsewhere (spent _)).follow (.replicate 9 (.granted []))
  have judged : Course .plain (.block "a" [.funding]) _ _ (.settled (.ok ())) := written
  exact ⟨served, _, _, judged, by decide +kernel, by decide +kernel, judged.all_or_nothing served⟩

end Handling
end LedgerIndex
