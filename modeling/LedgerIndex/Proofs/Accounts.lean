import LedgerIndex.Proofs.Bookkeeping
import Mathlib.Data.List.Count
import Mathlib.Data.List.Perm.Basic

/-!
# Accounts

The strides of a feed are those of the messages that were delivered to it, of each message
the course of one handling. So the counters and the signals of a feed come down to its
messages: how many of each kind have ended, and how, and how many attempts were contended.
-/
namespace LedgerIndex

theorem perm_flatMap_filter {α ι κ : Type} [BEq κ] [LawfulBEq κ] (f : α → κ) (g : ι → κ)
    (is : List ι) (xs : List α) (distinct : (is.map g).Nodup)
    (covered : ∀ x ∈ xs, f x ∈ is.map g) :
    (is.flatMap fun i => xs.filter (f · == g i)).Perm xs := by
  induction is generalizing xs with
  | nil =>
    obtain rfl : xs = [] :=
      List.eq_nil_iff_forall_not_mem.mpr fun x hx => by simpa using covered x hx
    exact .refl _
  | cons i is ih =>
    obtain ⟨fresh, distinct⟩ := List.nodup_cons.mp distinct
    have others : ∀ x ∈ xs.filter fun x => !(f x == g i), f x ∈ is.map g := by
      intro x hx
      obtain ⟨hx, other⟩ := List.mem_filter.mp hx
      rcases List.mem_cons.mp (covered x hx) with same | rest
      · simp [same] at other
      · exact rest
    have same : (is.flatMap fun j => xs.filter (f · == g j)) =
        is.flatMap fun j => (xs.filter fun x => !(f x == g i)).filter (f · == g j) := by
      apply List.flatMap_congr
      intro j hj
      rw [List.filter_filter]
      apply List.filter_congr
      intro x _
      have apart : g i ≠ g j := fun h => fresh (h ▸ List.mem_map_of_mem hj)
      by_cases hx : f x = g j <;> simp [hx, apart.symm]
    rw [List.flatMap_cons, same]
    exact ((ih _ distinct others).append_left _).trans (List.filter_append_perm _ xs)

/-- Some tallies come from these endings and from this many contended attempts. -/
structure Tallied (tallies : List Tally) (ends : List (Except Failure Unit)) (contended : Nat) :
    Prop where
  processed : tallies.count .processed = ends.length
  success : tallies.count .success =
    ends.countP fun result => decide (Outcome.ofResult? result = some .processed)
  failure : tallies.count .failure =
    ends.countP fun result => decide (Outcome.ofResult? result = some .dropped)
  retry : tallies.count .retry +
    ends.countP (fun result => decide (Outcome.ofResult? result = none)) = contended

namespace Tallied

variable {tallies more : List Tally} {ends ends' : List (Except Failure Unit)}
  {contended contended' : Nat}

theorem nil : Tallied [] [] 0 := ⟨rfl, rfl, rfl, rfl⟩

theorem append (t : Tallied tallies ends contended) (t' : Tallied more ends' contended') :
    Tallied (tallies ++ more) (ends ++ ends') (contended + contended') where
  processed := by rw [List.count_append, List.length_append, t.processed, t'.processed]
  success := by rw [List.count_append, List.countP_append, t.success, t'.success]
  failure := by rw [List.count_append, List.countP_append, t.failure, t'.failure]
  retry := by
    rw [List.count_append, List.countP_append, ← t.retry, ← t'.retry]
    omega

theorem stride (s : Settings) (d : Delivery) (x : Stride) :
    Tallied (x.tallies s d) (x.ending? s d).toList x.contended.toNat := by
  have ended (result : Except Failure Unit)
      (contended : x.contended = decide (Outcome.ofResult? result = none)) :
      Tallied (Handling.tallies result) [result] x.contended.toNat := by
    rw [contended]
    unfold Handling.tallies
    cases h : Outcome.ofResult? result with
    | none => constructor <;> simp [h]
    | some outcome => cases outcome <;> constructor <;> simp [h]
  unfold Stride.tallies
  cases verdict : x.verdict with
  | none =>
    have calm : x.contended = false := by simp [Stride.contended, verdict]
    cases ends : x.ending? s d with
    | none =>
      rw [calm]
      exact .nil
    | some result =>
      apply ended
      have passed : result = Handling.passed s d := by
        simp only [Stride.ending?, verdict] at ends
        split at ends
        · exact (Option.some.inj ends).symm
        · cases ends
      rw [calm, passed, Handling.passed]
      split <;> rfl
  | some result =>
    have contended : x.contended = decide (Outcome.ofResult? result = none) := by
      cases result with
      | ok a => simp [Stride.contended, verdict, Outcome.ofResult?]
      | error f => cases hf : f.isContention <;>
          simp [Stride.contended, verdict, Outcome.ofResult?, hf]
    by_cases again : x.contended = true ∧ x.stopping = false
    · have ends : x.ending? s d = none := by simp [Stride.ending?, verdict, again]
      rw [ends, again.1]
      exact ⟨rfl, rfl, rfl, rfl⟩
    · have ends : x.ending? s d = some result := by
        simpa [Stride.ending?, verdict] using again
      rw [ends]
      exact ended result contended

theorem strides (s : Settings) (d : Delivery) (xs : List Stride) :
    Tallied (xs.flatMap (·.tallies s d)) (xs.filterMap (·.ending? s d))
      (xs.countP (·.contended)) := by
  induction xs with
  | nil => exact .nil
  | cons x xs ih =>
    have := (stride s d x).append ih
    cases ends : x.ending? s d <;> cases contended : x.contended <;>
      simpa [ends, contended, Nat.add_comm] using this

end Tallied

/-- A delivered message with the strides that were made for it. -/
structure Message where
  delivery : Delivery
  strides : List Stride

namespace Message

def kind? (s : Settings) (m : Message) : Option PayloadKind :=
  s.topics.route m.delivery.topic

def result? (s : Settings) (m : Message) : Option (Except Failure Unit) :=
  m.strides.findSome? (·.ending? s m.delivery)

def tallies (s : Settings) (m : Message) : List Tally :=
  m.strides.flatMap (·.tallies s m.delivery)

/-- The strides are the course of a handling, which has the result of the message; of a message
that has not been taken up there are none. -/
def Handled (s : Settings) (m : Message) : Prop :=
  m.strides = [] ∨
    ∃ ix h, Handling.Course s m.delivery m.strides ix h ∧ (m.result? s).toList = h.ended

theorem handled_of_course {s : Settings} {d : Delivery} {strides : List Stride}
    (course : strides = [] ∨ ∃ ix h, Handling.Course s d strides ix h) :
    Handled s ⟨d, strides⟩ := by
  refine course.imp_right fun ⟨ix, h, course⟩ => ⟨ix, h, course, ?_⟩
  rw [result?, ← List.head?_filterMap, course.endings]
  cases h <;> rfl

theorem Handled.endings {s : Settings} {m : Message} (handled : m.Handled s) :
    m.strides.filterMap (·.ending? s m.delivery) = (m.result? s).toList := by
  rcases handled with none | ⟨ix, h, course, ended⟩
  · simp [result?, none]
  · rw [ended, course.endings]

/-- A message is left to be delivered again only if a stop was seen. -/
theorem Handled.stopped {s : Settings} {m : Message} (handled : m.Handled s) {f : Failure}
    (result : m.result? s = some (.error f)) (contended : f.isContention = true) :
    ∃ x ∈ m.strides, x.verdict = some (.error f) ∧ x.stopping = true := by
  rcases handled with none | ⟨ix, h, course, ended⟩
  · simp [result?, none] at result
  · obtain rfl : h = .settled (.error f) := by
      rw [result] at ended
      cases h with
      | settled r =>
        simp [Handling.ended] at ended
        rw [ended]
      | _ => simp [Handling.ended] at ended
    cases ht : m.delivery.task? s with
    | none =>
      have passed := (course.settled_of_no_task ht).1
      simp only [Handling.settled.injEq, Handling.passed] at passed
      split at passed
      · cases passed
        simp [Failure.isContention] at contended
      · cases passed
    | some task => exact (course.record ht).stopped f rfl contended

end Message

theorem Lane.Told.course {s : Settings} {d : Delivery} {strides : List Stride}
    {outcome : Option Outcome} (told : Told s d strides outcome) :
    strides = [] ∨ ∃ ix h, Handling.Course s d strides ix h := by
  cases told with
  | leftAlone => exact .inl rfl
  | @handled _ ix result course => exact .inr ⟨ix, _, course⟩

/-- The log of a lane tells of each message whether it was taken up. -/
theorem Lane.Record.handled {s : Settings} {ds : List Delivery} {log : List Lane.Entry}
    {ix : Indexer} {lane : Lane} (r : lane.Record s ds log ix) {place : Nat} {d : Delivery}
    (delivered : ds[place]? = some d) :
    stridesAt log place = [] ∨ ∃ ix h, Handling.Course s d (stridesAt log place) ix h := by
  rw [← r.deliveries, List.append_assoc] at delivered
  by_cases told : place < lane.finished.length
  · rw [List.getElem?_append_left (by simpa using told), List.getElem?_map,
      Option.map_eq_some_iff] at delivered
    obtain ⟨⟨_, outcome⟩, finished, rfl⟩ := delivered
    exact (r.told place _ outcome finished).course
  · rw [List.getElem?_append_right (by simpa using told)] at delivered
    cases hc : lane.current with
    | none =>
      refine .inl (stridesAt_eq_nil fun e he => ?_)
      have := r.places_idle hc e he
      omega
    | some current =>
      obtain ⟨d', h⟩ := current
      by_cases here : place = lane.finished.length
      · subst here
        obtain rfl : d' = d := by simpa [hc] using delivered
        exact .inr ⟨ix, h, r.current d' h hc⟩
      · refine .inl (stridesAt_eq_nil fun e he => ?_)
        have : e.place < lane.finished.length + 1 := by simpa [hc] using r.places e he
        omega

/-- Every partition of a batch has a lane, or neither messages nor strides. -/
theorem Batch.Course.lane {s : Settings} {ds : List Delivery} {ix₀ ix : Indexer}
    {log : List Lane.Entry} {b : Batch} (course : Batch.Course s ds ix₀ log ix b) (p : String) :
    ∃ lane : Lane, lane.Record s (ofPartition ds p) (logOf log p) ix := by
  obtain ⟨retired, order, r⟩ := course.record
  by_cases hp : p ∈ Batch.partitions ds
  · obtain ⟨lane, hl, rfl⟩ := List.mem_map.mp (r.partitions.mem_iff.mpr hp)
    exact ⟨lane, (r.lanes lane hl).record⟩
  · obtain ⟨noMessages, noLog⟩ := r.untouched hp
    rw [noMessages, noLog]
    exact ⟨_, .start s p [] ix⟩

namespace Feed

/-- The strides of a round are those of its messages, each at its place. -/
structure Round.Told (s : Settings) (r : Round) : Prop where
  entries : ∀ p, ∀ e ∈ Batch.logOf r.log p,
    (Batch.ofPartition r.delivered p)[e.place]? = some e.delivery
  handled : ∀ p place d, (Batch.ofPartition r.delivered p)[place]? = some d →
    r.strides p place = [] ∨ ∃ ix h, Handling.Course s d (r.strides p place) ix h

def Round.messages (r : Round) : List Message :=
  (Batch.partitions r.delivered).flatMap fun p =>
    (Batch.ofPartition r.delivered p).zipIdx.map fun x => ⟨x.1, r.strides p x.2⟩

namespace Round

variable {s : Settings} {r : Round}

theorem told_of_course {ix₀ ix : Indexer} {b : Batch}
    (course : Batch.Course s r.delivered ix₀ r.log ix b) : r.Told s where
  entries p := (course.lane p).elim fun _ record => record.entries
  handled p _ _ delivered := (course.lane p).elim fun _ record => record.handled delivered

theorem Answers.told_of {acked left : Outcomes} (a : r.Answers s acked left) : r.Told s := by
  obtain ⟨ix₀, ix, settled⟩ := a.settlement
  refine ⟨settled.entries, fun p place d delivered => ?_⟩
  rw [← settled.inOrder, ← Outcomes.map_ofPartition, List.getElem?_map,
    Option.map_eq_some_iff] at delivered
  obtain ⟨⟨_, outcome⟩, finished, rfl⟩ := delivered
  exact (settled.told p place _ outcome finished).course

theorem messages_handled (told : r.Told s) : ∀ m ∈ r.messages, m.Handled s := by
  intro m hm
  obtain ⟨p, -, hm⟩ := List.mem_flatMap.mp hm
  obtain ⟨⟨d, place⟩, hx, rfl⟩ := List.mem_map.mp hm
  exact Message.handled_of_course
    (told.handled p place d (List.mk_mem_zipIdx_iff_getElem?.mp hx))

theorem messages_delivered (r : Round) : (r.messages.map (·.delivery)).Perm r.delivered := by
  have same : r.messages.map (·.delivery) =
      (Batch.partitions r.delivered).flatMap fun p => Batch.ofPartition r.delivered p := by
    simp [messages, List.map_flatMap, Function.comp_def, List.zipIdx_map_fst]
  rw [same]
  apply perm_flatMap_filter (fun d : Delivery => d.partition) id
  · simpa using Batch.nodup_partitions r.delivered
  · intro d hd
    simpa using Batch.mem_partitions.mpr ⟨d, hd, rfl⟩

theorem Told.perm_logOf (told : r.Told s) (p : String) :
    ((Batch.ofPartition r.delivered p).zipIdx.flatMap fun x =>
      (r.strides p x.2).map (x.1, ·)).Perm
      ((Batch.logOf r.log p).map fun e => (e.delivery, e.stride)) := by
  have grouped := perm_flatMap_filter (fun e : Lane.Entry => e.place) (fun x => x.2)
    (Batch.ofPartition r.delivered p).zipIdx (Batch.logOf r.log p)
    (by
      rw [List.zipIdx_map_snd]
      exact List.nodup_range')
    (by
      intro e he
      have here := List.mk_mem_zipIdx_iff_getElem?.mpr (told.entries p e he)
      exact List.mem_map_of_mem (f := (·.2)) here)
  replace grouped := grouped.map fun e => (e.delivery, e.stride)
  rw [List.map_flatMap] at grouped
  have same : ((Batch.ofPartition r.delivered p).zipIdx.flatMap fun x =>
      (r.strides p x.2).map (x.1, ·)) =
      (Batch.ofPartition r.delivered p).zipIdx.flatMap fun x =>
        ((Batch.logOf r.log p).filter (·.place == x.2)).map fun e => (e.delivery, e.stride) := by
    apply List.flatMap_congr
    rintro ⟨d, place⟩ hx
    have delivered := List.mk_mem_zipIdx_iff_getElem?.mp hx
    simp only [strides, Lane.stridesAt, List.map_map]
    rw [List.filter_congr (q := (·.place == place)) (by simp [beq_eq_decide])]
    apply List.map_congr_left
    intro e he
    obtain ⟨he, at_place⟩ := List.mem_filter.mp he
    have entry := told.entries p e he
    rw [beq_iff_eq.mp at_place, delivered] at entry
    simp [Option.some.inj entry]
  rw [same]
  exact grouped

theorem Told.perm_log (told : r.Told s) :
    (r.messages.flatMap fun m => m.strides.map (m.delivery, ·)).Perm
      (r.log.map fun e => (e.delivery, e.stride)) := by
  have grouped := perm_flatMap_filter (fun e : Lane.Entry => e.delivery.partition) id
    (Batch.partitions r.delivered) r.log (by simpa using Batch.nodup_partitions r.delivered)
    (by
      intro e he
      have own : e ∈ Batch.logOf r.log e.delivery.partition := List.mem_filter.mpr ⟨he, by simp⟩
      have known := List.mem_of_getElem? (told.entries _ e own)
      simpa using Batch.mem_partitions.mpr ⟨_, (List.mem_filter.mp known).1, rfl⟩)
  replace grouped := grouped.map fun e => (e.delivery, e.stride)
  rw [List.map_flatMap] at grouped
  refine .trans ?_ grouped
  simp only [messages, List.flatMap_assoc, List.flatMap_map]
  exact List.Perm.flatMap_left _ fun p _ => told.perm_logOf p

end Round

theorem Standing.toldAll {s : Settings} {ix : Indexer} {phase : Phase} {rounds : List Round}
    (h : Standing s ix phase rounds) : ∀ r ∈ rounds, r.Told s := by
  intro r hr
  cases h with
  | none => simp at hr
  | @latest latest older stands closed =>
    rcases List.mem_cons.mp hr with rfl | hr
    · cases phase with
      | working b total =>
        obtain ⟨-, ix₀, course⟩ := stands
        exact Round.told_of_course course
      | acknowledging left total dropped =>
        obtain ⟨acked, settled⟩ := stands
        exact settled.answers.told_of
      | reading | resting | stopped =>
        obtain ⟨acked, settled⟩ := stands
        exact settled.answers.told_of
    · obtain ⟨outcomes, answers, -⟩ := closed r hr
      exact answers.told_of

def messages (rounds : List Round) : List Message :=
  rounds.reverse.flatMap (·.messages)

def messagesOf (s : Settings) (rounds : List Round) (kind : PayloadKind) : List Message :=
  (messages rounds).filter fun m => decide (m.kind? s = some kind)

def results (s : Settings) (rounds : List Round) (kind : PayloadKind) :
    List (Except Failure Unit) :=
  (messagesOf s rounds kind).filterMap (·.result? s)

def interrupted (s : Settings) (rounds : List Round) (kind : PayloadKind) : Nat :=
  (results s rounds kind).countP fun result => decide (Outcome.ofResult? result = none)

/-- How many attempts to write a message of one kind were contended. -/
def contentions (s : Settings) (rounds : List Round) (kind : PayloadKind) : Nat :=
  ((messagesOf s rounds kind).flatMap (·.strides)).countP (·.contended)

theorem tallied_messages {s : Settings} {ms : List Message} (handled : ∀ m ∈ ms, m.Handled s) :
    Tallied (ms.flatMap (·.tallies s)) (ms.filterMap (·.result? s))
      ((ms.flatMap (·.strides)).countP (·.contended)) := by
  induction ms with
  | nil => exact .nil
  | cons m ms ih =>
    have first := Tallied.strides s m.delivery m.strides
    rw [(handled m List.mem_cons_self).endings] at first
    have all := first.append (ih fun m hm => handled m (List.mem_cons_of_mem _ hm))
    cases ended : m.result? s <;>
      simpa [ended, Message.tallies] using all

/-- Of the counters of some messages those of one kind are the tallies of its messages. -/
theorem count_counters (s : Settings) (ms : List Message) (kind : PayloadKind) (what : Tally) :
    (ms.flatMap fun m => m.strides.flatMap (·.counters s m.delivery)).count (kind.label, what) =
      ((ms.filter fun m => decide (m.kind? s = some kind)).flatMap (·.tallies s)).count what := by
  induction ms with
  | nil => rfl
  | cons m ms ih =>
    rw [List.flatMap_cons, List.count_append, ih]
    cases hk : m.kind? s with
    | none =>
      have none : m.strides.flatMap (·.counters s m.delivery) = [] := by
        simp only [Stride.counters, show s.topics.route m.delivery.topic = none from hk]
        simp
      simp [none, hk]
    | some other =>
      have counted : m.strides.flatMap (·.counters s m.delivery) =
          (m.tallies s).map (other.label, ·) := by
        simp only [Stride.counters, show s.topics.route m.delivery.topic = some other from hk,
          Message.tallies, List.map_flatMap]
      rw [counted]
      by_cases same : other = kind
      · subst same
        have injective : Function.Injective fun what : Tally => (other.label, what) :=
          fun _ _ h => (Prod.mk.inj h).2
        rw [List.count_map_of_injective _ _ injective]
        simp [hk]
      · have apart : (kind.label, what) ∉ (m.tallies s).map (other.label, ·) := by
          rintro h
          obtain ⟨_, -, h⟩ := List.mem_map.mp h
          exact same (PayloadKind.label_inj (Prod.mk.inj h).1)
        simp [hk, same, List.count_eq_zero.mpr apart]

theorem perm_counters {s : Settings} {rounds : List Round} (told : ∀ r ∈ rounds, r.Told s) :
    ((logged rounds).flatMap (Lane.Entry.counters s)).Perm
      ((messages rounds).flatMap fun m => m.strides.flatMap (·.counters s m.delivery)) := by
  simp only [logged, messages, List.flatMap_assoc]
  refine List.Perm.flatMap_left _ fun r hr => ?_
  have grouped := ((told r (List.mem_reverse.mp hr)).perm_log.flatMap_right
    fun x => x.2.counters s x.1).symm
  simp only [List.flatMap_map, List.flatMap_assoc] at grouped
  exact grouped

/-- The accounts of a feed: what has been gained on the counters and the signals since it
started, against the messages that were delivered to it. -/
structure Accounted (s : Settings) (rounds : List Round) (ix₀ ix : Indexer) (feed : Feed)
    (gain : PayloadKind → Counts) : Prop where
  /-- Every delivered message is there once. -/
  delivered : ((messages rounds).map (·.delivery)).Perm (rounds.reverse.flatMap (·.delivered))
  handled : ∀ m ∈ messages rounds, m.Handled s
  counts : ∀ kind : PayloadKind,
    ix.meters.counts kind.label = ix₀.meters.counts kind.label + gain kind
  signals : ix.signals = ix₀.signals + (gain .block).success
  processed : ∀ kind, (gain kind).processed = (results s rounds kind).length
  success : ∀ kind, (gain kind).success =
    (results s rounds kind).countP fun r => decide (Outcome.ofResult? r = some .processed)
  failure : ∀ kind, (gain kind).failure =
    (results s rounds kind).countP fun r => decide (Outcome.ofResult? r = some .dropped)
  balance : ∀ kind, (gain kind).processed =
    (gain kind).success + (gain kind).failure + interrupted s rounds kind
  retried : ∀ kind, (gain kind).retry + interrupted s rounds kind = contentions s rounds kind
  /-- A message is left to be delivered again because of a stop. -/
  stopped : ∀ m ∈ messages rounds, ∀ f, m.result? s = some (.error f) → f.isContention = true →
    ∃ x ∈ m.strides, x.verdict = some (.error f) ∧ x.stopping = true
  /-- Nothing is counted of any other source. -/
  others : ∀ source, (∀ kind : PayloadKind, source ≠ kind.label) →
    ix.meters.counts source = ix₀.meters.counts source
  /-- A step for a message on a topic that is not served leaves counters and signals alone. -/
  unserved : ∀ b total p answer e, feed.phase = .working b total →
    b.enters? s p answer ix = some e → e.delivery.served s = false →
    (feed.step s (.answer p answer) ix).1.meters = ix.meters ∧
      (feed.step s (.answer p answer) ix).1.signals = ix.signals

theorem results_balance (ends : List (Except Failure Unit)) :
    ends.length = ends.countP (fun r => decide (Outcome.ofResult? r = some .processed)) +
      ends.countP (fun r => decide (Outcome.ofResult? r = some .dropped)) +
      ends.countP (fun r => decide (Outcome.ofResult? r = none)) := by
  induction ends with
  | nil => rfl
  | cons result ends ih =>
    rw [List.length_cons, ih]
    cases h : Outcome.ofResult? result with
    | none => simp [h]; omega
    | some outcome => cases outcome <;> simp [h] <;> omega

theorem Record.unserved {s : Settings} {ix : Indexer} {rounds : List Round} {feed : Feed}
    (r : Record s rounds ix feed) {b : Batch} {total : Nat} {p : String} {answer : Answer}
    {e : Lane.Entry} (working : feed.phase = .working b total)
    (enters : b.enters? s p answer ix = some e) (served : e.delivery.served s = false) :
    (feed.step s (.answer p answer) ix).1.meters = ix.meters ∧
      (feed.step s (.answer p answer) ix).1.signals = ix.signals := by
  have standing := r.standing
  rw [working] at standing
  cases standing with
  | none idle => cases idle
  | latest stands =>
    obtain ⟨-, ix₀, course⟩ := stands
    have nothing : e.counters s = [] := by
      have : s.topics.route e.delivery.topic = none := by simpa [Delivery.served] using served
      simp [Lane.Entry.counters, Stride.counters, this]
    have books := course.step_books p answer
    rw [enters, Option.toList_some, List.flatMap_singleton, nothing] at books
    have step : (feed.step s (.answer p answer) ix).1 = (b.step s p answer ix).1 := by
      simp [Feed.step, working]
    rw [step]
    exact ⟨books.meters, books.signals⟩

/-- No other source than the three kinds of payload gains anything. -/
theorem ofCounters_other {s : Settings} (log : List Lane.Entry) {source : String}
    (other : ∀ kind : PayloadKind, source ≠ kind.label) (what : Tally) :
    (Counts.ofCounters (log.flatMap (Lane.Entry.counters s)) source).get what = 0 := by
  rw [Counts.get_ofCounters, List.count_eq_zero]
  intro entered
  obtain ⟨e, -, entered⟩ := List.mem_flatMap.mp entered
  obtain ⟨kind, same⟩ := Stride.source_of_counters entered
  exact other kind same

/-- The counters of a feed come down to its messages at every moment, whatever is delivered,
whichever lanes step when, whichever calls fail, and whenever a stop comes. -/
theorem Course.accounted {s : Settings} {source : String} {ix₀ ix : Indexer}
    {rounds : List Round} {feed : Feed} (course : Course s source ix₀ rounds ix feed) :
    ∃ gain, Accounted s rounds ix₀ ix feed gain := by
  have books := course.books
  have told := course.record.standing.toldAll
  have handled : ∀ m ∈ messages rounds, m.Handled s := by
    intro m hm
    obtain ⟨r, hr, hm⟩ := List.mem_flatMap.mp hm
    exact Round.messages_handled (told r (List.mem_reverse.mp hr)) m hm
  have counts (source : String) :
      ix.meters.counts source = ix₀.meters.counts source +
        Counts.ofCounters ((logged rounds).flatMap (Lane.Entry.counters s)) source := by
    rw [books.meters, Meters.counts_recordAll]
  have tallied (kind : PayloadKind) : Tallied ((messagesOf s rounds kind).flatMap (·.tallies s))
      (results s rounds kind) (contentions s rounds kind) :=
    tallied_messages fun m hm => handled m (List.mem_filter.mp hm).1
  have count (kind : PayloadKind) (what : Tally) :
      ((logged rounds).flatMap (Lane.Entry.counters s)).count (kind.label, what) =
        ((messagesOf s rounds kind).flatMap (·.tallies s)).count what := by
    rw [(perm_counters told).count_eq, count_counters]
    rfl
  refine ⟨fun kind => .ofCounters ((logged rounds).flatMap (Lane.Entry.counters s)) kind.label, ?_⟩
  have processed (kind : PayloadKind) := (count kind .processed).trans (tallied kind).processed
  have success (kind : PayloadKind) := (count kind .success).trans (tallied kind).success
  have failure (kind : PayloadKind) := (count kind .failure).trans (tallied kind).failure
  exact {
    delivered := by
      rw [messages, List.map_flatMap]
      exact List.Perm.flatMap_left _ fun r _ => r.messages_delivered
    handled
    counts := fun kind => counts kind.label
    signals := books.signals
    processed
    success
    failure
    balance := by
      intro kind
      have parts := results_balance (results s rounds kind)
      rw [← processed kind, ← success kind, ← failure kind] at parts
      exact parts
    retried := by
      intro kind
      have retry := (tallied kind).retry
      rw [← count kind .retry] at retry
      exact retry
    stopped := fun m hm f result contended => (handled m hm).stopped result contended
    others := by
      intro source other
      apply Counts.ext_get
      intro what
      rw [counts source, Counts.get_add, ofCounters_other _ other, Nat.add_zero]
    unserved := fun _ _ _ _ _ working enters served =>
      course.record.unserved working enters served }

/-- Of two empty blocks of one partition the first is written at its second attempt; the attempt
at the second is contended after a stop. -/
theorem Course.accounted_emptyBlocks : ∃ rounds ix feed gain,
    Course .plain "" .empty rounds ix feed ∧ ix.meters.counts "block" = ⟨2, 1, 0, 1⟩ ∧
      ix.signals = 1 ∧ interrupted .plain rounds .block = 1 ∧
      contentions .plain rounds .block = 2 ∧ Accounted .plain rounds .empty ix feed gain := by
  have going (feed : Feed) (ix : Indexer) (rounds : List Round)
      (course : Course .plain "" .empty rounds ix feed) :=
    course.step (.answer "a" (.granted []))
  have refused (feed : Feed) (ix : Indexer) (rounds : List Round)
      (course : Course .plain "" .empty rounds ix feed) :=
    course.step (.answer "a" (.refused (.contention "")))
  have opened := @Course.start .plain "" .empty |>.step
    (.read (.batch [.emptyBlock "a", .emptyBlock "a"]))
  have contended := refused _ _ _ (going _ _ _ opened)
  have again := going _ _ _ (going _ _ _ contended)
  have consumed := going _ _ _ (going _ _ _ again)
  have committed := going _ _ _ (going _ _ _ consumed)
  have told := going _ _ _ (going _ _ _ committed)
  have second := refused _ _ _ (going _ _ _ told).stop
  have last := going _ _ _ second
  obtain ⟨gain, accounted⟩ := last.accounted
  exact ⟨_, _, _, gain, last, by decide +kernel, by decide +kernel, by decide +kernel,
    by decide +kernel, accounted⟩

end Feed
end LedgerIndex
