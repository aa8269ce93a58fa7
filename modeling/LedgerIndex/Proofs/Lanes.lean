import LedgerIndex.Indexing.Batch
import LedgerIndex.Proofs.Alone

/-!
# Lanes

A lane handles its messages one after another, and every step of it belongs to the
handling of one of them. Told by their places in the lane, the strides of a message are
the course of its handling; what the store gets from a lane is what its messages that
were processed write, in their order.
-/
namespace LedgerIndex

namespace Handling

variable {s : Settings} {d : Delivery} {strides : List Stride} {ix : Indexer} {h : Handling}

theorem stopping_step (s : Settings) (answer : Answer) (ix : Indexer) (h : Handling) :
    (h.step s answer ix).1.stopping = ix.stopping := by
  cases h with
  | settled result => rfl
  | pausing task retries delay => rfl
  | attempting task retries run =>
    cases halted : run.result? with
    | none => simp [step_unfinished task retries s answer ix halted]
    | some result => exact (step_over task retries s answer ix halted).2.1

theorem stopping_start (s : Settings) (d : Delivery) (ix : Indexer) :
    (Handling.start s d ix).1.stopping = ix.stopping := by
  cases ht : d.task? s with
  | none => exact (start_of_no_task ht ix).2.1
  | some task => rw [start_of_task ht]

theorem Course.stopping_of_stride (course : Course s d strides ix h) {x : Stride}
    (hx : x ∈ strides) (stopping : x.stopping = true) : ix.stopping = true := by
  induction course with
  | start ix =>
    rw [List.mem_singleton.mp hx] at stopping
    rw [stopping_start]
    exact stopping
  | @own answer strides ix h _ ih =>
    rw [stopping_step]
    rcases List.mem_append.mp hx with hx | hx
    · exact ih hx
    · rw [List.mem_singleton.mp hx] at stopping
      exact stopping
  | elsewhere away _ ih => exact away.stopping (ih hx)

/-- A message is left without an outcome only after a stop. -/
theorem Course.stopping_of_untold {result : Except Failure Unit}
    (course : Course s d strides ix (.settled result))
    (untold : Outcome.ofResult? result = none) : ix.stopping = true := by
  cases ht : d.task? s with
  | none =>
    obtain ⟨settled, -⟩ := course.settled_of_no_task ht
    obtain rfl : result = passed s d := by simpa using settled
    unfold passed at untold
    split at untold <;> simp [Outcome.ofResult?, Failure.isContention] at untold
  | some task =>
    cases result with
    | ok a => simp [Outcome.ofResult?] at untold
    | error f =>
      have contended : f.isContention = true := by simpa [Outcome.ofResult?] using untold
      obtain ⟨x, hx, -, stopping⟩ := (course.record ht).stopped f rfl contended
      exact course.stopping_of_stride hx stopping

end Handling

def Outcomes.processed (outcomes : Outcomes) : List Delivery :=
  (outcomes.filter fun x => decide (x.2 = some .processed)).map (·.1)

namespace Lane

/-- A stride in a lane: whose it is, by message and by place. -/
structure Entry where
  delivery : Delivery
  place : Nat
  stride : Stride

/-- What a step of a lane enters into the log, if it takes up a message or goes on with one. -/
def enters? (s : Settings) (answer : Answer) (ix : Indexer) (lane : Lane) : Option Entry :=
  match lane.current with
  | some (_, .settled _) => none
  | some (d, h) => some ⟨d, lane.finished.length, h.stride s answer ix⟩
  | none =>
    if ix.stopping then none
    else match lane.waiting with
      | [] => none
      | d :: _ => some ⟨d, lane.finished.length, Handling.startStride s d ix⟩

def stridesAt (log : List Entry) (place : Nat) : List Stride :=
  (log.filter fun e => decide (e.place = place)).map (·.stride)

theorem stridesAt_append (log more : List Entry) (place : Nat) :
    stridesAt (log ++ more) place = stridesAt log place ++ stridesAt more place := by
  simp [stridesAt]

theorem stridesAt_eq_nil {log : List Entry} {place : Nat} (h : ∀ e ∈ log, e.place < place) :
    stridesAt log place = [] := by
  simp only [stridesAt, List.map_eq_nil_iff, List.filter_eq_nil_iff, decide_eq_true_eq]
  exact fun e he => Nat.ne_of_lt (h e he)

/-- The outcome of a message goes with its strides: it was never taken up, or they are the
course of a handling that ended accordingly. -/
inductive Told (s : Settings) (d : Delivery) : List Stride → Option Outcome → Prop
  | leftAlone : Told s d [] none
  | handled {strides : List Stride} {ix : Indexer} {result : Except Failure Unit} :
    Handling.Course s d strides ix (.settled result) → Told s d strides (Outcome.ofResult? result)

/-- The rows of a message that was processed were written in one of its strides. -/
theorem Told.written {s : Settings} {d : Delivery} {strides : List Stride}
    (told : Told s d strides (some .processed)) (served : d.served s = true) :
    ∃ x ∈ strides, x.commits = true ∧ d.effect? s x.before = some x.after := by
  generalize ho : some Outcome.processed = outcome at told
  cases told with
  | leftAlone => cases ho
  | @handled _ ix result course =>
    obtain rfl : result = .ok () := by
      cases result with
      | ok a => rfl
      | error f => by_cases hf : f.isContention <;> simp [Outcome.ofResult?, hf] at ho
    cases ht : d.task? s with
    | none =>
      have settled := (course.settled_of_no_task ht).1
      have : (s.topics.route d.topic).isSome = true := served
      simp [Handling.passed, this] at settled
    | some task =>
      obtain ⟨earlier, x, later, rfl, commits, committed, -⟩ := (course.record ht).success
      exact ⟨x, by simp, commits, (Delivery.effect?_of_task? ht _).trans committed⟩

theorem Told.unwritten {s : Settings} {d : Delivery} {strides : List Stride}
    {outcome : Option Outcome} (told : Told s d strides outcome)
    (ho : outcome ≠ some .processed) : ∀ x ∈ strides, x.after = x.before := by
  cases told with
  | leftAlone => simp
  | @handled _ ix result course =>
    cases ht : d.task? s with
    | none => exact fun x hx => ((course.settled_of_no_task ht).2 x hx).1
    | some task =>
      cases result with
      | ok a => simp [Outcome.ofResult?] at ho
      | error f => exact (course.record ht).failure

structure Record (s : Settings) (ds : List Delivery) (log : List Entry) (ix : Indexer)
    (lane : Lane) : Prop where
  deliveries : lane.finished.map (·.1) ++ (lane.current.map (·.1)).toList ++ lane.waiting = ds
  places : ∀ e ∈ log, e.place < lane.finished.length + (lane.current.map (·.1)).toList.length
  entries : ∀ e ∈ log, ds[e.place]? = some e.delivery
  told : ∀ place d outcome, lane.finished[place]? = some (d, outcome) →
    Told s d (stridesAt log place) outcome
  current : ∀ d h, lane.current = some (d, h) →
    Handling.Course s d (stridesAt log lane.finished.length) ix h
  runs : ∃ done left, lane.finished = done ++ left ∧ (∀ x ∈ done, x.2.isSome = true) ∧
    (∀ x ∈ left, x.2 = none) ∧ (∀ e ∈ log, e.place ≤ done.length) ∧
    (left ≠ [] → ix.stopping = true ∧ lane.current = none)

def written (lane : Lane) : List Delivery :=
  Outcomes.processed lane.finished ++
    match lane.current with
    | some (d, h) => if h.succeeded then [d] else []
    | none => []

variable {s : Settings} {ds : List Delivery} {log : List Entry} {ix : Indexer} {lane : Lane}

variable (s ix) in
theorem step_going {d : Delivery} {h : Handling} (hc : lane.current = some (d, h))
    (going : ∀ result, h ≠ .settled result) (answer : Answer) :
    lane.step s answer ix = ((h.step s answer ix).1,
        { lane with current := some (d, (h.step s answer ix).2) }) ∧
      lane.enters? s answer ix = some ⟨d, lane.finished.length, h.stride s answer ix⟩ := by
  cases h with
  | settled result => exact absurd rfl (going result)
  | attempting task retries run => simp [step, enters?, hc]
  | pausing task retries delay => simp [step, enters?, hc]

namespace Record

theorem start (s : Settings) (p : String) (ds : List Delivery) (ix : Indexer) :
    Record s ds [] ix (.ofDeliveries p ds) where
  deliveries := rfl
  places := by simp
  entries := by simp
  told := by simp [ofDeliveries]
  current := by simp [ofDeliveries]
  runs := ⟨[], [], by simp [ofDeliveries]⟩

theorem elsewhere {ix' : Indexer} (r : Record s ds log ix lane) (away : ix.Elsewhere ix') :
    Record s ds log ix' lane where
  deliveries := r.deliveries
  places := r.places
  entries := r.entries
  told := r.told
  current d h hc := .elsewhere away (r.current d h hc)
  runs := by
    obtain ⟨done, left, parts, outcomes, noOutcomes, places, stopped⟩ := r.runs
    exact ⟨done, left, parts, outcomes, noOutcomes, places,
      fun hl => ⟨away.stopping (stopped hl).1, (stopped hl).2⟩⟩

theorem places_idle (r : Record s ds log ix lane) (idle : lane.current = none) :
    ∀ e ∈ log, e.place < lane.finished.length := by
  simpa [idle] using r.places

theorem abandon (r : Record s ds log ix lane) (idle : lane.current = none)
    (stopping : ix.stopping = true) : Record s ds log ix lane.abandon where
  deliveries := by
    rw [← r.deliveries]
    simp [Lane.abandon, idle, Function.comp_def]
  places e he := by
    have := r.places_idle idle e he
    simp only [Lane.abandon, List.length_append]
    omega
  entries := r.entries
  told place d outcome h := by
    simp only [Lane.abandon] at h
    by_cases hp : place < lane.finished.length
    · rw [List.getElem?_append_left hp] at h
      exact r.told place d outcome h
    · rw [List.getElem?_append_right (by omega), List.getElem?_map] at h
      obtain ⟨w, -, hw⟩ := Option.map_eq_some_iff.mp h
      cases hw
      have untouched : stridesAt log place = [] := by
        apply stridesAt_eq_nil
        intro e he
        have := r.places_idle idle e he
        omega
      rw [untouched]
      exact .leftAlone
  current d h hc := by simp [Lane.abandon, idle] at hc
  runs := by
    obtain ⟨done, left, parts, outcomes, noOutcomes, places, -⟩ := r.runs
    refine ⟨done, left ++ lane.waiting.map (·, none), by simp [Lane.abandon, parts], outcomes,
      ?_, places, fun _ => ⟨stopping, idle⟩⟩
    simp only [List.mem_append, List.mem_map]
    rintro x (hx | ⟨w, -, rfl⟩)
    · exact noOutcomes x hx
    · rfl

theorem runs_going {d : Delivery} {h : Handling} (r : Record s ds log ix lane)
    (hc : lane.current = some (d, h)) :
    (∀ x ∈ lane.finished, x.2.isSome = true) ∧ ∀ e ∈ log, e.place ≤ lane.finished.length := by
  obtain ⟨done, left, parts, outcomes, -, places, stopped⟩ := r.runs
  cases left with
  | nil =>
    rw [parts, List.append_nil]
    exact ⟨outcomes, places⟩
  | cons x xs => simp [(stopped (by simp)).2] at hc

/-- The strides at the places that are told do not change with a stride at the place in hand. -/
theorem told_append (r : Record s ds log ix lane) (e : Entry)
    (he : e.place = lane.finished.length) (place : Nat) (d : Delivery)
    (outcome : Option Outcome) (h : lane.finished[place]? = some (d, outcome)) :
    Told s d (stridesAt (log ++ [e]) place) outcome := by
  have : e.place ≠ place := by
    have := (List.getElem?_eq_some_iff.mp h).1
    omega
  rw [stridesAt_append, show stridesAt [e] place = [] by simp [stridesAt, this], List.append_nil]
  exact r.told place d outcome h

/-- The message in hand makes a stride; no message before it was left alone. -/
theorem enter {d : Delivery} {h' : Handling} {ix' : Indexer} {x : Stride} {rest : List Delivery}
    (r : Record s ds log ix lane) (parts : lane.finished.map (·.1) ++ d :: rest = ds)
    (outcomes : ∀ x ∈ lane.finished, x.2.isSome = true)
    (places : ∀ e ∈ log, e.place ≤ lane.finished.length)
    (course : Handling.Course s d (stridesAt log lane.finished.length ++ [x]) ix' h') :
    Record s ds (log ++ [⟨d, lane.finished.length, x⟩]) ix'
      { lane with current := some (d, h'), waiting := rest } where
  deliveries := by simpa using parts
  places := by
    intro e he
    rcases List.mem_append.mp he with he | he
    · exact Nat.lt_succ_of_le (places e he)
    · rw [List.mem_singleton.mp he]
      exact Nat.lt_succ_self _
  entries := by
    intro e he
    rcases List.mem_append.mp he with he | he
    · exact r.entries e he
    · rw [List.mem_singleton.mp he, ← parts]
      simp
  told := r.told_append _ rfl
  current := by
    rintro _ _ ⟨⟩
    simpa [stridesAt_append, stridesAt] using course
  runs := by
    refine ⟨lane.finished, [], by simp, outcomes, by simp, ?_, by simp⟩
    intro e he
    rcases List.mem_append.mp he with he | he
    · exact places e he
    · obtain rfl := List.mem_singleton.mp he
      exact Nat.le_refl _

theorem go {d : Delivery} {h h' : Handling} {ix' : Indexer} {x : Stride}
    (r : Record s ds log ix lane) (hc : lane.current = some (d, h))
    (course : Handling.Course s d (stridesAt log lane.finished.length ++ [x]) ix' h') :
    Record s ds (log ++ [⟨d, lane.finished.length, x⟩]) ix'
      { lane with current := some (d, h') } := by
  obtain ⟨outcomes, places⟩ := r.runs_going hc
  have parts : lane.finished.map (·.1) ++ d :: lane.waiting = ds := by
    simpa [hc] using r.deliveries
  exact r.enter parts outcomes places course

theorem settle {d : Delivery} {result : Except Failure Unit} (r : Record s ds log ix lane)
    (hc : lane.current = some (d, .settled result)) :
    Record s ds log ix { lane with
      finished := lane.finished ++ [(d, Outcome.ofResult? result)]
      current := none } where
  deliveries := by simpa [hc] using r.deliveries
  places e he := by simpa [hc] using r.places e he
  entries := r.entries
  told place d' outcome h := by
    have course := r.current d _ hc
    by_cases hp : place < lane.finished.length
    · exact r.told place d' outcome (by simpa [List.getElem?_append_left hp] using h)
    · obtain rfl : place = lane.finished.length := by
        have := (List.getElem?_eq_some_iff.mp h).1
        simp at this
        omega
      simp only [Nat.le_refl, List.getElem?_append_right, Nat.sub_self, List.getElem?_cons_zero,
        Option.some.injEq, Prod.mk.injEq] at h
      obtain ⟨rfl, rfl⟩ := h
      exact .handled course
  current d h hc := by simp at hc
  runs := by
    obtain ⟨outcomes, places⟩ := r.runs_going hc
    cases ho : Outcome.ofResult? result with
    | none =>
      refine ⟨lane.finished, [(d, none)], rfl, outcomes, by simp, places, fun _ => ⟨?_, rfl⟩⟩
      exact (r.current d _ hc).stopping_of_untold ho
    | some outcome =>
      refine ⟨lane.finished ++ [(d, some outcome)], [], by simp, ?_, by simp, ?_, by simp⟩
      · simpa [or_imp, forall_and] using outcomes
      · intro e he
        have := places e he
        simp
        omega

theorem takeUp {d : Delivery} {rest : List Delivery} (r : Record s ds log ix lane)
    (idle : lane.current = none) (hw : lane.waiting = d :: rest)
    (going : ix.stopping = false) :
    Record s ds (log ++ [⟨d, lane.finished.length, Handling.startStride s d ix⟩])
      (Handling.start s d ix).1
      { lane with current := some (d, (Handling.start s d ix).2), waiting := rest } := by
  have places := r.places_idle idle
  have outcomes : ∀ x ∈ lane.finished, x.2.isSome = true := by
    obtain ⟨done, left, parts, outcomes, -, -, stopped⟩ := r.runs
    cases left with
    | nil =>
      rw [parts, List.append_nil]
      exact outcomes
    | cons x xs => simp [(stopped (by simp)).1] at going
  apply r.enter
  · simpa [idle, hw] using r.deliveries
  · exact outcomes
  · exact fun e he => Nat.le_of_lt (places e he)
  · rw [stridesAt_eq_nil places]
    exact .start ix

theorem own (r : Record s ds log ix lane) (answer : Answer) :
    Record s ds (log ++ (lane.enters? s answer ix).toList) (lane.step s answer ix).1
      (lane.step s answer ix).2 := by
  cases hc : lane.current with
  | some current =>
    obtain ⟨d, h⟩ := current
    by_cases hs : ∃ result, h = .settled result
    · obtain ⟨result, rfl⟩ := hs
      have settled := r.settle hc
      simp only [enters?, step, hc, Option.toList_none, List.append_nil]
      split
      next untold =>
        exact settled.abandon rfl
          ((r.current d _ hc).stopping_of_untold (Option.isNone_iff_eq_none.mp untold))
      next => exact settled
    · obtain ⟨stepped, entered⟩ := step_going s ix hc (fun result hr => hs ⟨result, hr⟩) answer
      rw [stepped, entered]
      exact r.go hc ((r.current d h hc).own answer)
  | none =>
    simp only [enters?, step, hc]
    cases stopping : ix.stopping with
    | true => simpa using r.abandon hc stopping
    | false =>
      cases hw : lane.waiting with
      | nil => simpa using r
      | cons d rest => simpa using r.takeUp hc hw stopping

end Record

theorem written_abandon (lane : Lane) : lane.abandon.written = lane.written := by
  simp [written, Outcomes.processed, abandon, List.filter_map, Function.comp_def]

theorem written_settle {d : Delivery} {result : Except Failure Unit}
    (hc : lane.current = some (d, .settled result)) :
    ({ lane with
      finished := lane.finished ++ [(d, Outcome.ofResult? result)]
      current := none } : Lane).written = lane.written := by
  cases result with
  | ok a => simp [written, Outcomes.processed, hc, Handling.succeeded, Outcome.ofResult?]
  | error f => by_cases hf : f.isContention <;>
      simp [written, Outcomes.processed, hc, Handling.succeeded, Outcome.ofResult?, hf]

/-- The messages whose sessions were committed, in the order of their commits. -/
def committed (log : List Entry) : List Delivery :=
  (log.filter (·.stride.commits)).map (·.delivery)

theorem committed_append (log more : List Entry) :
    committed (log ++ more) = committed log ++ committed more := by
  simp [committed]

theorem partition_step (s : Settings) (answer : Answer) (ix : Indexer) (lane : Lane) :
    (lane.step s answer ix).2.partition = lane.partition := by
  unfold step
  split
  · dsimp only
    split <;> rfl
  · rfl
  · split
    · rfl
    · split <;> rfl

theorem stopping_step (s : Settings) (answer : Answer) (ix : Indexer) (lane : Lane) :
    (lane.step s answer ix).1.stopping = ix.stopping := by
  unfold step
  split
  · rfl
  · exact Handling.stopping_step s answer ix _
  · split
    · rfl
    · split
      · rfl
      · exact Handling.stopping_start s _ ix

theorem Record.mem_of_written (r : Record s ds log ix lane) {d : Delivery}
    (hd : d ∈ lane.written) : d ∈ ds := by
  rw [← r.deliveries]
  simp only [List.mem_append]
  left
  rcases List.mem_append.mp hd with hd | hd
  · obtain ⟨x, hx, rfl⟩ := List.mem_map.mp hd
    exact .inl (List.mem_map_of_mem (List.mem_filter.mp hx).1)
  · right
    split at hd
    next d' h hc =>
      split at hd
      · simpa [hc] using hd
      · simp at hd
    next => simp at hd

/-- The messages that a step writes, at most one: the store is what handling them alone makes
of it, and those on a topic that is served are the ones whose sessions it commits. -/
structure Writes (s : Settings) (ix : Indexer) (lane : Lane) (answer : Answer)
    (news : List Delivery) : Prop where
  written : (lane.step s answer ix).2.written = lane.written ++ news
  applied : s.applyInOrder? news ix.store = some (lane.step s answer ix).1.store
  committed : news.filter (·.served s) = committed (lane.enters? s answer ix).toList

theorem Record.step_writes (r : Record s ds log ix lane) (answer : Answer) :
    ∃ news, Writes s ix lane answer news := by
  have nothing (ix' : Indexer) (same : ix'.store = ix.store) :
      s.applyInOrder? [] ix.store = some ix'.store := by simp [Settings.applyInOrder?, same]
  cases hc : lane.current with
  | some current =>
    obtain ⟨d, h⟩ := current
    by_cases hs : ∃ result, h = .settled result
    · obtain ⟨result, rfl⟩ := hs
      have same := written_settle hc
      refine ⟨[], ?_, ?_, by simp [enters?, hc, Lane.committed]⟩
      · simp only [step, hc, List.append_nil]
        split
        · rw [written_abandon, same]
        · exact same
      · exact nothing _ (by simp [step, hc])
    · obtain ⟨stepped, entered⟩ := step_going s ix hc (fun result hr => hs ⟨result, hr⟩) answer
      have before : lane.written =
          Outcomes.processed lane.finished ++ if h.succeeded then [d] else [] := by
        simp [Lane.written, hc]
      rcases (r.current d h hc).step_effect answer with
        ⟨quiet, same, kept⟩ | ⟨commits, served, applied, fresh, succeeded⟩
      · refine ⟨[], ?_, ?_, by simp [entered, Lane.committed, quiet]⟩
        · rw [stepped, before, ← kept]
          simp [Lane.written]
        · rw [stepped]
          exact nothing _ same
      · refine ⟨[d], ?_, ?_, by simp [entered, Lane.committed, commits, served]⟩
        · rw [stepped, before, fresh]
          simp [Lane.written, succeeded]
        · rw [stepped]
          simpa [Settings.applyInOrder?] using applied
  | none =>
    cases stopping : ix.stopping with
    | true =>
      refine ⟨[], ?_, ?_, by simp [enters?, hc, stopping, Lane.committed]⟩
      · simp [step, hc, stopping, written_abandon]
      · exact nothing _ (by simp [step, hc, stopping])
    | false =>
      cases hw : lane.waiting with
      | nil =>
        refine ⟨[], ?_, ?_, by simp [enters?, hc, stopping, hw, Lane.committed]⟩
        · simp [step, hc, stopping, hw]
        · exact nothing _ (by simp [step, hc, stopping, hw])
      | cons d rest =>
        have begun := Handling.succeeded_start s d ix
        have same := Handling.store_start s d ix
        have quiet : (enters? s answer ix lane).toList.filter (·.stride.commits) = [] := by
          simp [enters?, hc, stopping, hw, Handling.startStride, Stride.commits]
        cases served : d.served s with
        | true =>
          refine ⟨[], ?_, ?_, by simp [Lane.committed, quiet]⟩
          · simp [step, hc, stopping, hw, Lane.written, begun, served]
          · exact nothing _ (by simp [step, hc, stopping, hw, same])
        | false =>
          have passedOver : d.effect? s ix.store = some ix.store := by
            have : s.topics.route d.topic = none := by simpa [Delivery.served] using served
            simp [Delivery.effect?, this]
          refine ⟨[d], ?_, ?_, by simp [Lane.committed, quiet, served]⟩
          · simp [step, hc, stopping, hw, Lane.written, begun, served]
          · simp [step, hc, stopping, hw, Settings.applyInOrder?, passedOver, same]

end Lane
end LedgerIndex
