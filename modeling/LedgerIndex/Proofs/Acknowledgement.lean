import LedgerIndex.Indexing.Feed
import LedgerIndex.Proofs.Rounds

/-!
# Acknowledgement

A feed reads a batch only when it has acknowledged every message of the batches before,
or else it has been stopped. So what it acknowledges of a partition is always the first
part of what was delivered of it, over all batches; and an acknowledgement tells the
truth about the rows of its message.
-/
namespace LedgerIndex
namespace Feed

def keep (s : Settings) (move : Move) (ix : Indexer) (feed : Feed) (rounds : List Round) :
    List Round :=
  match feed.phase, move with
  | .reading, .read (.batch ds) => if ix.stopping then rounds else ⟨ds, [], []⟩ :: rounds
  | .working b _, .answer p answer =>
    rounds.modifyHead fun r => { r with log := r.log ++ (b.enters? s p answer ix).toList }
  | .acknowledging ((d, some outcome) :: _) _ _, .acknowledge _ =>
    rounds.modifyHead fun r => { r with acknowledged := r.acknowledged ++ [(d, outcome)] }
  | _, _ => rounds

/-- The rounds of a feed so far, the state of the indexer, and the feed: it is moved in any
way, by any readings and answers, and a stop is requested at any moment. -/
inductive Course (s : Settings) (source : String) (ix₀ : Indexer) :
    List Round → Indexer → Feed → Prop
  | start : Course s source ix₀ [] (Feed.start s source ix₀).1 (Feed.start s source ix₀).2
  | step (move : Move) {rounds : List Round} {ix : Indexer} {feed : Feed} :
    Course s source ix₀ rounds ix feed →
    Course s source ix₀ (feed.keep s move ix rounds) (feed.step s move ix).1
      (feed.step s move ix).2
  | stop {rounds : List Round} {ix : Indexer} {feed : Feed} :
    Course s source ix₀ rounds ix feed → Course s source ix₀ rounds ix.stop feed

/-- The outcomes of a round are being acknowledged; one that is missing means a stop. -/
structure Round.Settled (s : Settings) (ix : Indexer) (r : Round) (acked left : Outcomes) :
    Prop where
  answers : r.Answers s acked left
  stopped : ∀ x ∈ acked ++ left, x.2 = none → ix.stopping = true

def Phase.isIdle : Phase → Bool
  | .working .. | .acknowledging .. => false
  | _ => true

def Round.Stands (s : Settings) (ix : Indexer) (r : Round) : Phase → Prop
  | .working b _ => r.acknowledged = [] ∧ ∃ ix₀, Batch.Course s r.delivered ix₀ r.log ix b
  | .acknowledging left _ _ => ∃ acked, r.Settled s ix acked left
  | _ => ∃ acked, r.Settled s ix acked []

/-- How far the rounds have come: all but the latest are closed. -/
inductive Standing (s : Settings) (ix : Indexer) (phase : Phase) : List Round → Prop
  | none : phase.isIdle = true → Standing s ix phase []
  | latest {r : Round} {older : List Round} :
    r.Stands s ix phase → (∀ o ∈ older, o.Closed s) → Standing s ix phase (r :: older)

namespace Round

variable {s : Settings} {ix ix' : Indexer} {r : Round}

theorem Settled.later {acked left : Outcomes} (settled : r.Settled s ix acked left)
    (stopping : ix.stopping = true → ix'.stopping = true) : r.Settled s ix' acked left :=
  ⟨settled.answers, fun x hx untold => stopping (settled.stopped x hx untold)⟩

/-- The first outcome that is left is acknowledged, or passed over if it is missing. -/
theorem Settled.next {acked left : Outcomes} {x : Delivery × Option Outcome}
    (settled : r.Settled s ix acked (x :: left)) :
    Settled s ix { r with acknowledged := r.acknowledged ++ Outcomes.answered [x] }
      (acked ++ [x]) left := by
  obtain ⟨⟨settlement, acknowledged⟩, stopped⟩ := settled
  have same : acked ++ [x] ++ left = acked ++ x :: left := by simp
  refine ⟨⟨?_, ?_⟩, ?_⟩
  · rw [same]
    exact settlement
  · simp only [acknowledged, Outcomes.answered, List.filterMap_append]
  · rw [same]
    exact stopped

theorem Settled.closed {acked : Outcomes} (settled : r.Settled s ix acked [])
    (going : ix.stopping = false) : r.Closed s := by
  refine ⟨acked, settled.answers, fun x hx => ?_⟩
  cases told : x.2 with
  | some outcome => rfl
  | none => simp [settled.stopped x (by simpa using hx) told] at going

theorem stands_iff_of_isIdle {phase : Phase} (idle : phase.isIdle = true) :
    r.Stands s ix phase ↔ ∃ acked, r.Settled s ix acked [] := by
  cases phase <;> simp_all [Phase.isIdle, Stands]

/-- A round whose batch may be done stands where the batch puts it. -/
theorem stands_ofBatch {b : Batch} (total : Nat) (none : r.acknowledged = [])
    {ix₀ : Indexer} (course : Batch.Course s r.delivered ix₀ r.log ix b) :
    r.Stands s ix (ofBatch b total) := by
  unfold ofBatch
  split
  next isOver =>
    have settled := course.settlement isOver
    exact ⟨[], ⟨⟨ix₀, ix, settled⟩, none⟩, settled.stopped⟩
  next => exact ⟨none, ix₀, course⟩

end Round

namespace Standing

variable {s : Settings} {ix ix' : Indexer} {phase phase' : Phase} {rounds : List Round}

theorem idle (h : Standing s ix phase rounds) (idle : phase.isIdle = true)
    (idle' : phase'.isIdle = true) (stopping : ix.stopping = true → ix'.stopping = true) :
    Standing s ix' phase' rounds := by
  cases h with
  | none => exact .none idle'
  | latest stands closed =>
    obtain ⟨acked, settled⟩ := (Round.stands_iff_of_isIdle idle).mp stands
    exact .latest ((Round.stands_iff_of_isIdle idle').mpr ⟨acked, settled.later stopping⟩) closed

theorem stop (h : Standing s ix phase rounds) : Standing s ix.stop phase rounds := by
  cases h with
  | none idle => exact .none idle
  | latest stands closed =>
    refine .latest ?_ closed
    cases phase with
    | working b total =>
      obtain ⟨none, ix₀, course⟩ := stands
      exact ⟨none, ix₀, course.stop⟩
    | acknowledging left total dropped =>
      obtain ⟨acked, settled⟩ := stands
      exact ⟨acked, settled.later fun _ => rfl⟩
    | reading | resting | stopped =>
      obtain ⟨acked, settled⟩ := stands
      exact ⟨acked, settled.later fun _ => rfl⟩

/-- A feed that has not been stopped has closed every round before it reads the next. -/
theorem closed (h : Standing s ix phase rounds) (idle : phase.isIdle = true)
    (going : ix.stopping = false) : ∀ r ∈ rounds, r.Closed s := by
  cases h with
  | none => simp
  | latest stands closed =>
    obtain ⟨acked, settled⟩ := (Round.stands_iff_of_isIdle idle).mp stands
    simpa using ⟨settled.closed going, closed⟩

end Standing

structure Record (s : Settings) (rounds : List Round) (ix : Indexer) (feed : Feed) : Prop where
  acknowledged : feed.acknowledged = rounds.reverse.flatMap (·.acknowledged)
  standing : Standing s ix feed.phase rounds

namespace Record

variable {s : Settings} {ix : Indexer} {rounds : List Round} {source : String} {phase : Phase}
  {acknowledged : List (Delivery × Outcome)}

theorem read (r : Record s rounds ix ⟨source, .reading, acknowledged⟩) (reading : Reading) :
    let feed : Feed := ⟨source, .reading, acknowledged⟩
    Record s (feed.keep s (.read reading) ix rounds) (feed.step s (.read reading) ix).1
      (feed.step s (.read reading) ix).2 := by
  cases stopping : ix.stopping with
  | true =>
    have kept : keep s (.read reading) ix ⟨source, .reading, acknowledged⟩ rounds = rounds := by
      cases reading <;> simp [keep, stopping]
    simp only [kept, step, stopping, if_true, halt]
    exact ⟨r.acknowledged, r.standing.idle rfl rfl id⟩
  | false =>
    cases reading with
    | exhausted =>
      simp only [keep, step, stopping, halt]
      exact ⟨r.acknowledged, r.standing.idle rfl rfl id⟩
    | failed f =>
      simp only [keep, step, stopping]
      exact ⟨r.acknowledged, r.standing.idle rfl rfl id⟩
    | batch ds =>
      simp only [keep, step, stopping]
      refine ⟨?_, .latest ?_ (r.standing.closed rfl stopping)⟩
      · simpa using r.acknowledged
      · exact Round.stands_ofBatch _ rfl .start

theorem wake (r : Record s rounds ix ⟨source, .resting, acknowledged⟩) :
    let feed : Feed := ⟨source, .resting, acknowledged⟩
    Record s rounds (feed.step s .wake ix).1 (feed.step s .wake ix).2 := by
  cases stopping : ix.stopping with
  | true =>
    simp only [Feed.step, stopping, if_true, halt]
    exact ⟨r.acknowledged, r.standing.idle rfl rfl id⟩
  | false =>
    simp only [Feed.step, stopping]
    exact ⟨r.acknowledged, r.standing.idle rfl rfl id⟩

theorem work {b : Batch} {total : Nat}
    (r : Record s rounds ix ⟨source, .working b total, acknowledged⟩) (p : String)
    (answer : Answer) :
    let feed : Feed := ⟨source, .working b total, acknowledged⟩
    Record s (feed.keep s (.answer p answer) ix rounds) (feed.step s (.answer p answer) ix).1
      (feed.step s (.answer p answer) ix).2 := by
  have standing := r.standing
  cases standing with
  | none idle => cases idle
  | @latest round older stands closed =>
    obtain ⟨none, ix₀, course⟩ := stands
    refine ⟨?_, .latest ?_ closed⟩
    · simpa [keep, step, none] using r.acknowledged
    · exact Round.stands_ofBatch total none (course.step p answer)

theorem acknowledge {left : Outcomes} {total dropped : Nat}
    (r : Record s rounds ix ⟨source, .acknowledging left total dropped, acknowledged⟩)
    (failure : Option Failure) :
    let feed : Feed := ⟨source, .acknowledging left total dropped, acknowledged⟩
    Record s (feed.keep s (.acknowledge failure) ix rounds)
      (feed.step s (.acknowledge failure) ix).1 (feed.step s (.acknowledge failure) ix).2 := by
  have standing := r.standing
  cases standing with
  | none idle => cases idle
  | @latest round older stands closed =>
    obtain ⟨acked, settled⟩ := stands
    cases left with
    | nil => exact ⟨r.acknowledged, .latest ⟨acked, settled.later id⟩ closed⟩
    | cons x rest =>
      obtain ⟨d, outcome⟩ := x
      have next := settled.next
      cases outcome with
      | none =>
        rw [show Outcomes.answered [(d, none)] = [] from rfl, List.append_nil] at next
        exact ⟨r.acknowledged, .latest ⟨_, next⟩ closed⟩
      | some outcome =>
        refine ⟨?_, .latest ⟨_, next.later ?_⟩ closed⟩
        · have := r.acknowledged
          simp only [List.reverse_cons, List.flatMap_append, List.flatMap_singleton] at this
          simp [keep, step, acknowledgeNext, this]
        · simp only [step, acknowledgeNext]
          cases failure <;> exact id

/-- Whatever happens to a feed, its rounds stay as they should be. -/
theorem step (r : Record s rounds ix ⟨source, phase, acknowledged⟩) (move : Move) :
    let feed : Feed := ⟨source, phase, acknowledged⟩
    Record s (feed.keep s move ix rounds) (feed.step s move ix).1 (feed.step s move ix).2 := by
  cases phase with
  | reading =>
    cases move with
    | read reading => exact r.read reading
    | _ => exact r
  | working b total =>
    cases move with
    | answer p answer => exact r.work p answer
    | _ => exact r
  | acknowledging left total dropped =>
    cases move with
    | acknowledge failure => exact r.acknowledge failure
    | _ => simpa [keep, Feed.step] using r
  | resting =>
    cases move with
    | wake => exact r.wake
    | _ => exact r
  | stopped => cases move <;> exact r

theorem ofPartition_acknowledged (closed : ∀ r ∈ rounds, r.Closed s) (p : String) :
    Batch.ofPartition ((rounds.reverse.flatMap (·.acknowledged)).map (·.1)) p =
      Batch.ofPartition (rounds.reverse.flatMap (·.delivered)) p := by
  induction rounds with
  | nil => rfl
  | cons r older ih =>
    have rest := ih fun o ho => closed o (List.mem_cons_of_mem _ ho)
    simp only [List.reverse_cons, List.flatMap_append, List.flatMap_singleton, List.map_append,
      Batch.ofPartition_append, rest, (closed r List.mem_cons_self).ofPartition_acknowledged p]

end Record

variable {s : Settings} {source : String} {ix₀ ix : Indexer} {rounds : List Round} {feed : Feed}

theorem Course.record (course : Course s source ix₀ rounds ix feed) :
    Record s rounds ix feed := by
  induction course with
  | start => exact ⟨rfl, .none rfl⟩
  | step move _ ih => exact ih.step move
  | stop _ ih => exact ⟨ih.acknowledged, ih.standing.stop⟩

/-- A round has not been acknowledged at all yet, or as its outcomes say. -/
theorem Standing.answers {phase : Phase} (h : Standing s ix phase rounds) {r : Round}
    (hr : r ∈ rounds) : r.acknowledged = [] ∨ ∃ acked left, r.Answers s acked left := by
  cases h with
  | none => simp at hr
  | @latest latest older stands closed =>
    rcases List.mem_cons.mp hr with rfl | hr
    · cases phase with
      | working b total => exact .inl stands.1
      | acknowledging left total dropped =>
        obtain ⟨acked, settled⟩ := stands
        exact .inr ⟨acked, left, settled.answers⟩
      | reading | resting | stopped =>
        obtain ⟨acked, settled⟩ := stands
        exact .inr ⟨acked, [], settled.answers⟩
    · obtain ⟨outcomes, answers, -⟩ := closed r hr
      exact .inr ⟨outcomes, [], answers⟩

theorem Standing.prefix_delivered {phase : Phase} (h : Standing s ix phase rounds) {r : Round}
    (hr : r ∈ rounds) (p : String) :
    (r.acknowledgedOf p).map (·.1) <+: Batch.ofPartition r.delivered p := by
  rcases h.answers hr with none | ⟨acked, left, answers⟩
  · simp [Round.acknowledgedOf, none]
  · exact answers.prefix_delivered p

theorem Standing.told {phase : Phase} (h : Standing s ix phase rounds) {r : Round}
    (hr : r ∈ rounds) {p : String} {place : Nat} {d : Delivery} {outcome : Outcome}
    (hp : (r.acknowledgedOf p)[place]? = some (d, outcome)) :
    Lane.Told s d (r.strides p place) (some outcome) := by
  rcases h.answers hr with none | ⟨acked, left, answers⟩
  · simp [Round.acknowledgedOf, none] at hp
  · exact answers.told hp

/-- When no batch is in hand nothing of any round is left to be acknowledged. -/
theorem Standing.settled {phase : Phase} (h : Standing s ix phase rounds)
    (idle : phase.isIdle = true) {r : Round} (hr : r ∈ rounds) :
    ∃ acked, r.Settled s ix acked [] := by
  cases h with
  | none => simp at hr
  | latest stands closed =>
    rcases List.mem_cons.mp hr with rfl | hr
    · exact (Round.stands_iff_of_isIdle idle).mp stands
    · obtain ⟨outcomes, answers, complete⟩ := closed r hr
      refine ⟨outcomes, answers, fun x hx untold => ?_⟩
      exact absurd (complete x (by simpa using hx)) (by simp [untold])

theorem Record.isPrefix (r : Record s rounds ix feed) (p : String) :
    Batch.ofPartition (feed.acknowledged.map (·.1)) p <+:
      Batch.ofPartition (rounds.reverse.flatMap (·.delivered)) p := by
  have standing := r.standing
  rw [r.acknowledged]
  cases standing with
  | none => exact List.prefix_refl _
  | @latest latest older stands closed =>
    have last := r.standing.prefix_delivered List.mem_cons_self p
    have apart : (latest.acknowledgedOf p).map (·.1) =
        Batch.ofPartition (latest.acknowledged.map (·.1)) p := by
      simp [Round.acknowledgedOf, Batch.ofPartition, List.filter_map, Function.comp_def]
    simp only [List.reverse_cons, List.flatMap_append, List.flatMap_singleton, List.map_append,
      Batch.ofPartition_append, ofPartition_acknowledged closed, ← apart]
    exact (List.prefix_append_right_inj _).mpr last

theorem Record.told_of_mem (r : Record s rounds ix feed) {d : Delivery} {outcome : Outcome}
    (acknowledged : (d, outcome) ∈ feed.acknowledged) :
    ∃ strides, Lane.Told s d strides (some outcome) := by
  rw [r.acknowledged, List.mem_flatMap] at acknowledged
  obtain ⟨round, member, acknowledged⟩ := acknowledged
  have own : (d, outcome) ∈ round.acknowledgedOf d.partition :=
    List.mem_filter.mpr ⟨acknowledged, by simp⟩
  obtain ⟨place, here⟩ := List.getElem?_of_mem own
  exact ⟨_, r.standing.told (List.mem_reverse.mp member) here⟩

end Feed
end LedgerIndex
