import LedgerIndex.Proofs.Acknowledgement

/-!
# Bookkeeping

What a step of a handling adds to the counters can be read off its stride: whether it
ended the handling, and how, or whether it judged an attempt that is tried again. So the
counters of an indexer, and its signals, are those it had at first with the counters of
all strides since.
-/
namespace LedgerIndex

abbrev Counter := String × Tally

namespace Counts

def get (c : Counts) : Tally → Nat
  | .processed => c.processed
  | .success => c.success
  | .failure => c.failure
  | .retry => c.retry

instance : Add Counts where
  add a b := ⟨a.processed + b.processed, a.success + b.success, a.failure + b.failure,
    a.retry + b.retry⟩

def ofCounters (counters : List Counter) (source : String) : Counts where
  processed := counters.count (source, .processed)
  success := counters.count (source, .success)
  failure := counters.count (source, .failure)
  retry := counters.count (source, .retry)

theorem ext_get {a b : Counts} (h : ∀ what, a.get what = b.get what) : a = b := by
  obtain ⟨processed, success, failure, retry⟩ := a
  have := h .processed
  have := h .success
  have := h .failure
  have := h .retry
  simp_all [get]

theorem get_add (a b : Counts) (what : Tally) : (a + b).get what = a.get what + b.get what := by
  cases what <;> rfl

theorem get_ofCounters (counters : List Counter) (source : String) (what : Tally) :
    (ofCounters counters source).get what = counters.count (source, what) := by
  cases what <;> rfl

end Counts

namespace Meters

def get (m : Meters) (c : Counter) : Nat :=
  (m.counts c.1).get c.2

def recordAll (m : Meters) (counters : List Counter) : Meters :=
  counters.foldl (fun m c => m.record c.1 c.2) m

theorem get_record (m : Meters) (c other : Counter) :
    (m.record c.1 c.2).get other = m.get other + [c].count other := by
  obtain ⟨source, what⟩ := c
  obtain ⟨source', what'⟩ := other
  simp only [get, counts_record, List.count_singleton, beq_iff_eq, Prod.mk.injEq]
  by_cases same : source = source'
  · subst same
    cases what <;> cases what' <;> simp [Counts.add, Counts.get]
  · simp [same]

theorem get_recordAll (m : Meters) (counters : List Counter) (c : Counter) :
    (m.recordAll counters).get c = m.get c + counters.count c := by
  induction counters generalizing m with
  | nil => rfl
  | cons first rest ih =>
    have later : (m.recordAll (first :: rest)).get c = _ := ih (m.record first.1 first.2)
    rw [later, get_record, Nat.add_assoc, ← List.count_append, List.singleton_append]

theorem counts_recordAll (m : Meters) (counters : List Counter) (source : String) :
    (m.recordAll counters).counts source =
      m.counts source + Counts.ofCounters counters source := by
  apply Counts.ext_get
  intro what
  rw [Counts.get_add, Counts.get_ofCounters]
  exact m.get_recordAll counters (source, what)

end Meters

/-- What has been counted and signalled between two states of an indexer: one signal for each
success with a block. -/
structure Indexer.Books (a b : Indexer) (counters : List Counter) : Prop where
  meters : b.meters = a.meters.recordAll counters
  signals : b.signals = a.signals + counters.count (PayloadKind.block.label, .success)

namespace Indexer.Books

variable {a b c : Indexer} {counters more : List Counter}

theorem refl (a : Indexer) : a.Books a [] := ⟨rfl, rfl⟩

theorem trans (first : a.Books b counters) (second : b.Books c more) :
    a.Books c (counters ++ more) where
  meters := by
    rw [second.meters, first.meters, Meters.recordAll, Meters.recordAll, Meters.recordAll,
      List.foldl_append]
  signals := by rw [second.signals, first.signals, List.count_append, Nat.add_assoc]

end Indexer.Books

def Handling.tallies (result : Except Failure Unit) : List Tally :=
  .processed :: match Outcome.ofResult? result with
    | some .processed => [.success]
    | some .dropped => [.failure]
    | none => []

namespace Stride

def contended (x : Stride) : Bool :=
  match x.verdict with
  | some (.error f) => f.isContention
  | _ => false

/-- The result that the handling of a message ended with in this step: that of an attempt which
is not tried again, or the one that a message without a task has at once. -/
def ending? (s : Settings) (d : Delivery) (x : Stride) : Option (Except Failure Unit) :=
  match x.verdict with
  | some result => if x.contended && !x.stopping then none else some result
  | none => if (d.task? s).isNone && x.need != .over then some (Handling.passed s d) else none

def tallies (s : Settings) (d : Delivery) (x : Stride) : List Tally :=
  match x.ending? s d with
  | some result => Handling.tallies result
  | none => if x.contended then [.retry] else []

/-- What a step for a message is counted as; for one on a topic that is not served, nothing. -/
def counters (s : Settings) (d : Delivery) (x : Stride) : List Counter :=
  match s.topics.route d.topic with
  | none => []
  | some kind => (x.tallies s d).map (kind.label, ·)

/-- A step that ends nothing and judges nothing is not counted. -/
theorem counters_eq_nil {s : Settings} {d : Delivery} {x : Stride} (going : x.ending? s d = none)
    (calm : x.contended = false) : x.counters s d = [] := by
  simp only [counters, tallies, going, calm]
  split <;> rfl

theorem counters_of_task? {s : Settings} {d : Delivery} {task : Task} (x : Stride)
    (ht : d.task? s = some task) :
    x.counters s d = (x.tallies s d).map (task.subject.kind.label, ·) := by
  simp only [Delivery.task?, Option.bind_eq_some_iff, Option.map_eq_some_iff] at ht
  obtain ⟨kind, routed, payload, -, rfl⟩ := ht
  simp only [counters, routed]

theorem source_of_counters {s : Settings} {d : Delivery} {x : Stride} {c : Counter}
    (hc : c ∈ x.counters s d) : ∃ kind : PayloadKind, c.1 = kind.label := by
  unfold counters at hc
  split at hc
  · simp at hc
  next kind _ =>
    obtain ⟨_, -, rfl⟩ := List.mem_map.mp hc
    exact ⟨kind, rfl⟩

end Stride

theorem PayloadKind.label_inj {kind other : PayloadKind} (h : kind.label = other.label) :
    kind = other := by
  revert h
  cases kind <;> cases other <;> decide

namespace Handling

variable {s : Settings} {d : Delivery} {strides : List Stride} {ix : Indexer} {h : Handling}
  {task : Task}

theorem settle_books (subject : Subject) (result : Except Failure Unit) (ix : Indexer) :
    ix.Books (settle subject result ix).1 ((tallies result).map (subject.kind.label, ·)) := by
  obtain ⟨message, topic, kind⟩ := subject
  cases result with
  | ok a => cases kind <;> exact ⟨rfl, rfl⟩
  | error f =>
    cases hf : f.isContention with
    | true =>
      simp only [settle, tallies, Outcome.ofResult?, hf, if_true]
      exact ⟨rfl, by simp [Indexer.note, Indexer.count]⟩
    | false =>
      simp only [settle, tallies, Outcome.ofResult?, hf]
      exact ⟨rfl, by simp [Indexer.note, Indexer.count]⟩

theorem start_accounts (s : Settings) (d : Delivery) (ix : Indexer) :
    ix.Books (Handling.start s d ix).1 ((startStride s d ix).counters s d) ∧
      (Handling.start s d ix).2.ended = ((startStride s d ix).ending? s d).toList := by
  cases ht : d.task? s with
  | some task =>
    have going : (startStride s d ix).ending? s d = none := by
      simp [Stride.ending?, startStride, ht]
    rw [start_of_task ht, going, Stride.counters_eq_nil going rfl]
    exact ⟨.refl ix, rfl⟩
  | none =>
    have ends : (startStride s d ix).ending? s d = some (passed s d) := by
      simp [Stride.ending?, startStride, ht]
    refine ⟨?_, ?_⟩
    · cases hk : s.topics.route d.topic with
      | none =>
        have same : (Handling.start s d ix).1 = ix.note (.ignored d.topic) := by
          simp [Handling.start, hk]
        simp only [Stride.counters, hk, same]
        exact ⟨rfl, rfl⟩
      | some kind =>
        have undecoded : Payload.decode? kind d.body = none := by
          simpa [Delivery.task?, hk] using ht
        have books := settle_books ⟨d.message, d.topic, kind⟩ (.error (.decoding .payload)) ix
        simpa [Stride.counters, Stride.tallies, ends, passed, hk, Handling.start, undecoded]
          using books
    · rw [ends, (start_of_no_task ht ix).2.2]
      rfl

/-- A step of a handling is counted as its stride says, and ends it where that says so. -/
structure Accounts (s : Settings) (d : Delivery) (x : Stride) (ix : Indexer) (h : Handling)
    (next : Indexer × Handling) : Prop where
  books : ix.Books next.1 (x.counters s d)
  ended : next.2.ended = h.ended ++ (x.ending? s d).toList

namespace Accounts

theorem quiet {next : Indexer × Handling} {x : Stride} (going : x.ending? s d = none)
    (calm : x.contended = false) (meters : next.1.meters = ix.meters)
    (signals : next.1.signals = ix.signals) (ended : next.2.ended = h.ended) :
    Accounts s d x ix h next where
  books := by
    rw [Stride.counters_eq_nil going calm]
    exact ⟨meters, signals⟩
  ended := by rw [going, ended, Option.toList_none, List.append_nil]

theorem settles (ht : d.task? s = some task) {x : Stride} {result : Except Failure Unit}
    (ends : x.ending? s d = some result) (going : h.ended = []) :
    Accounts s d x ix h (settle task.subject result ix) where
  books := by
    rw [Stride.counters_of_task? x ht, Stride.tallies, ends]
    exact settle_books task.subject result ix
  ended := by
    rw [(settle_eq task.subject result ix).2.2, going, ends]
    rfl

/-- A step that judges an attempt is counted by its verdict. -/
theorem judged (ht : d.task? s = some task) (retries : Nat) {run : Run Unit}
    {result : Except Failure Unit} (halted : run.result? = some result) (answer : Answer)
    (ix : Indexer) :
    let h := attempting task retries run
    Accounts s d (h.stride s answer ix) ix h (h.step s answer ix) := by
  intro h
  have verdict : (h.stride s answer ix).verdict = some result := halted
  have stopping : (h.stride s answer ix).stopping = ix.stopping := rfl
  cases result with
  | ok a =>
    have judged : h.step s answer ix = settle task.subject (.ok ()) ix := by
      simp [h, step, halted]
    rw [judged]
    exact settles ht (by simp [Stride.ending?, Stride.contended, verdict]) rfl
  | error f =>
    have judged : h.step s answer ix = retreat s task retries f ix := by
      simp [h, step, halted]
    rw [judged, retreat]
    split
    next again =>
      have contended : (h.stride s answer ix).contended = true := by
        simp [Stride.contended, verdict, again.1]
      have going : (h.stride s answer ix).ending? s d = none := by
        simpa [Stride.ending?, verdict, contended, stopping] using again.2
      refine ⟨?_, by rw [going]; rfl⟩
      rw [Stride.counters_of_task? _ ht, Stride.tallies, going, contended]
      exact ⟨rfl, by simp [Indexer.note, Indexer.count]⟩
    next ends =>
      apply settles ht
      · simpa [Stride.ending?, Stride.contended, verdict, stopping] using ends
      · rfl

end Accounts

theorem Course.step_accounts (course : Course s d strides ix h) (answer : Answer) :
    Accounts s d (h.stride s answer ix) ix h (h.step s answer ix) := by
  cases ht : d.task? s with
  | none =>
    obtain ⟨rfl, -⟩ := course.settled_of_no_task ht
    exact .quiet (by simp [Stride.ending?, stride, verdict?, need]) rfl rfl rfl rfl
  | some task =>
    have tracks := (course.record ht).tracks
    cases tracks with
    | settled result =>
      exact .quiet (by simp [Stride.ending?, stride, verdict?, ht]) rfl rfl rfl rfl
    | pausing retries delay =>
      exact .quiet (by simp [Stride.ending?, stride, verdict?, ht]) rfl rfl rfl rfl
    | @attempting retries run underway =>
      cases halted : run.result? with
      | some result => exact .judged ht retries halted answer ix
      | none =>
        -- the attempt goes on by one call, which counts nothing
        have verdict : ((attempting task retries run).stride s answer ix).verdict = none := halted
        rw [step_unfinished task retries s answer ix halted]
        apply Accounts.quiet
        · simp [Stride.ending?, verdict, ht]
        · simp [Stride.contended, verdict]
        · rfl
        · rfl
        · rfl

theorem Course.endings (course : Course s d strides ix h) :
    strides.filterMap (·.ending? s d) = h.ended := by
  induction course with
  | start ix =>
    rw [(start_accounts s d ix).2]
    cases h : (startStride s d ix).ending? s d <;> simp [h]
  | @own answer strides ix h course ih =>
    rw [(course.step_accounts answer).ended, List.filterMap_append, ih]
    cases h : (h.stride s answer ix).ending? s d <;> simp [h]
  | elsewhere _ _ ih => exact ih

end Handling

def Lane.Entry.counters (s : Settings) (e : Lane.Entry) : List Counter :=
  e.stride.counters s e.delivery

theorem Lane.Record.step_books {s : Settings} {ds : List Delivery} {log : List Lane.Entry}
    {ix : Indexer} {lane : Lane} (r : lane.Record s ds log ix) (answer : Answer) :
    ix.Books (lane.step s answer ix).1
      ((lane.enters? s answer ix).toList.flatMap (Entry.counters s)) := by
  cases hc : lane.current with
  | some current =>
    obtain ⟨d, h⟩ := current
    by_cases hs : ∃ result, h = .settled result
    · obtain ⟨result, rfl⟩ := hs
      simp only [enters?, step, hc]
      exact .refl ix
    · obtain ⟨stepped, entered⟩ := step_going s ix hc (fun result hr => hs ⟨result, hr⟩) answer
      rw [stepped, entered]
      simpa [Entry.counters] using ((r.current d h hc).step_accounts answer).books
  | none =>
    simp only [enters?, step, hc]
    cases stopping : ix.stopping with
    | true => exact .refl ix
    | false =>
      cases hw : lane.waiting with
      | nil => exact .refl ix
      | cons d rest => simpa [Entry.counters] using (Handling.start_accounts s d ix).1

theorem Batch.Course.step_books {s : Settings} {ds : List Delivery} {ix₀ ix : Indexer}
    {log : List Lane.Entry} {b : Batch} (course : Batch.Course s ds ix₀ log ix b) (p : String)
    (answer : Answer) :
    ix.Books (b.step s p answer ix).1
      ((b.enters? s p answer ix).toList.flatMap (Lane.Entry.counters s)) := by
  obtain ⟨retired, order, r⟩ := course.record
  cases found : b.lane? p with
  | none =>
    simp only [enters?, Batch.step, found]
    exact .refl ix
  | some lane =>
    have active : lane ∈ b.active := List.mem_of_find?_eq_some found
    simp only [enters?, Batch.step, found, Option.bind_some]
    exact (r.lanes lane (by simp [active])).record.step_books answer

namespace Feed

variable {s : Settings} {source : String} {ix₀ ix : Indexer} {rounds : List Round} {feed : Feed}

def logged (rounds : List Round) : List Lane.Entry :=
  rounds.reverse.flatMap (·.log)

theorem step_idle (s : Settings) (move : Move) (ix : Indexer) (feed : Feed)
    (idle : ∀ b total p answer, feed.phase = .working b total → move ≠ .answer p answer) :
    (feed.step s move ix).1.meters = ix.meters ∧ (feed.step s move ix).1.signals = ix.signals := by
  unfold step
  split
  · split
    · exact ⟨rfl, rfl⟩
    · split <;> exact ⟨rfl, rfl⟩
  · split <;> exact ⟨rfl, rfl⟩
  next b total p answer hp => exact absurd rfl (idle b total p answer hp)
  next left total dropped failure _ =>
    unfold acknowledgeNext
    split
    · exact ⟨rfl, rfl⟩
    · exact ⟨rfl, rfl⟩
    · cases failure <;> exact ⟨rfl, rfl⟩
  · exact ⟨rfl, rfl⟩

theorem logged_keep_idle (s : Settings) (move : Move) (ix : Indexer) (feed : Feed)
    (rounds : List Round)
    (idle : ∀ b total p answer, feed.phase = .working b total → move ≠ .answer p answer) :
    logged (feed.keep s move ix rounds) = logged rounds := by
  unfold keep
  split
  · split
    · rfl
    · simp [logged]
  next b total p answer hp => exact absurd rfl (idle b total p answer hp)
  · cases rounds <;> simp [logged]
  · rfl

/-- A step of a feed is counted as the strides it adds to the log. -/
theorem Record.step_books (r : Record s rounds ix feed) (move : Move) :
    ∃ entered, logged (feed.keep s move ix rounds) = logged rounds ++ entered ∧
      ix.Books (feed.step s move ix).1 (entered.flatMap (Lane.Entry.counters s)) := by
  by_cases working : ∃ b total p answer, feed.phase = .working b total ∧ move = .answer p answer
  · obtain ⟨b, total, p, answer, hp, rfl⟩ := working
    have standing := r.standing
    rw [hp] at standing
    cases standing with
    | none idle => cases idle
    | @latest round older stands closed =>
      obtain ⟨none, ix₁, course⟩ := stands
      refine ⟨(b.enters? s p answer ix).toList, ?_, ?_⟩
      · simp [keep, hp, logged]
      · simpa [Feed.step, hp] using course.step_books p answer
  · have idle : ∀ b total p answer, feed.phase = .working b total → move ≠ .answer p answer :=
      fun b total p answer hp hm => working ⟨b, total, p, answer, hp, hm⟩
    refine ⟨[], ?_, ?_⟩
    · rw [logged_keep_idle s move ix feed rounds idle, List.append_nil]
    · exact ⟨(step_idle s move ix feed idle).1, (step_idle s move ix feed idle).2⟩

/-- What a feed has counted so far is what all strides are counted as. -/
theorem Course.books (course : Course s source ix₀ rounds ix feed) :
    ix₀.Books ix ((logged rounds).flatMap (Lane.Entry.counters s)) := by
  induction course with
  | start => exact ⟨rfl, rfl⟩
  | step move course ih =>
    obtain ⟨entered, log, books⟩ := course.record.step_books move
    rw [log, List.flatMap_append]
    exact ih.trans books
  | stop _ ih => exact ⟨ih.meters, ih.signals⟩

end Feed
end LedgerIndex
