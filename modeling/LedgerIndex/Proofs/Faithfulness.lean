import LedgerIndex.Proofs.Serial

/-!
# What acknowledgements are worth

A message is acknowledged as processed when all of its rows are in the tables, and they stay
there; one that is dropped, or left to be delivered again, has written nothing. In every
partition the messages that are acknowledged are the first part of what was delivered.
-/
namespace LedgerIndex

/-- A message on a served topic leaves all of its rows where it takes effect. -/
theorem Delivery.stored_of_effect? {s : Settings} {d : Delivery} {store after : Store}
    (applied : d.effect? s store = some after) (served : d.served s = true) :
    d.Stored s after.tables := by
  unfold effect? at applied
  split at applied
  next unserved => simp [Delivery.served, unserved] at served
  next =>
    obtain ⟨task, due, committed⟩ := Option.bind_eq_some_iff.mp applied
    exact ⟨task, due, (Task.TakesEffect.of_commit? committed).stored⟩

namespace Settings

variable {s : Settings} {first last : Store} {ds : List Delivery} {d : Delivery}

theorem stored_of_applyInOrder? (applied : s.applyInOrder? ds first = some last) (member : d ∈ ds)
    (served : d.served s = true) : d.Stored s last.tables := by
  induction ds generalizing first with
  | nil => cases member
  | cons d' ds ih =>
    obtain ⟨between, effect, rest⟩ := Option.bind_eq_some_iff.mp applied
    rcases List.mem_cons.mp member with rfl | member
    · exact (Delivery.stored_of_effect? effect served).later (evolves_of_applyInOrder? rest)
    · exact ih rest member

/-- What is handled one at a time, in any order that keeps the partitions, is stored in the end. -/
theorem Serial.stored (serial : s.Serial first ds last) (member : d ∈ ds)
    (served : d.served s = true) : d.Stored s last.tables := by
  obtain ⟨order, kept, applied⟩ := serial
  exact stored_of_applyInOrder? applied ((Batch.perm_of_ofPartition kept).mem_iff.mpr member) served

end Settings

/-- The lanes of a batch do nothing to the store but what can become of it. -/
theorem Batch.Course.evolves {s : Settings} {ds : List Delivery} {ix₀ ix : Indexer}
    {log : List Lane.Entry} {b : Batch} (course : Batch.Course s ds ix₀ log ix b) :
    ix₀.store.Evolves ix.store := by
  obtain ⟨retired, order, r⟩ := course.record
  exact Settings.evolves_of_applyInOrder? r.applied

namespace Feed

variable {s : Settings} {source : String} {first : Store} {ix₀ ix : Indexer} {rounds : List Round}
  {feed : Feed} {phase : Phase} {acknowledged : List Delivery} {d : Delivery}

theorem mem_processed : d ∈ feed.processed ↔ (d, .processed) ∈ feed.acknowledged := by
  simp [processed]

/-- What was acknowledged is stored, whatever is being done with the batch in hand. -/
theorem Phase.Serial.stored (serial : phase.Serial s first acknowledged ix)
    (member : d ∈ acknowledged) (served : d.served s = true) : d.Stored s ix.store.tables := by
  cases phase with
  | working b total =>
    obtain ⟨ds, before, log, earlier, course⟩ := serial
    exact (Settings.Serial.stored earlier member served).later course.evolves
  | acknowledging left total dropped =>
    exact Settings.Serial.stored serial (List.mem_append_left _ member) served
  | reading | resting | stopped => exact Settings.Serial.stored serial member served

theorem Phase.Serial.stored_left {left : Outcomes} {total dropped : Nat}
    (serial : (Phase.acknowledging left total dropped).Serial s first acknowledged ix)
    (member : d ∈ left.processed) (served : d.served s = true) : d.Stored s ix.store.tables :=
  Settings.Serial.stored serial (List.mem_append_right _ member) served

/-- What the acknowledgements of a feed are worth, at any moment and when it has stopped. -/
structure Faithful (s : Settings) (rounds : List Round) (ix : Indexer) (feed : Feed) : Prop where
  calls : feed.acknowledged = rounds.reverse.flatMap (·.acknowledged)
  once : ∀ d, (feed.acknowledged.map (·.1)).count d ≤
    (rounds.reverse.flatMap (·.delivered)).count d
  /-- The k-th acknowledgement of a partition is of the k-th message. -/
  inPlace : ∀ r ∈ rounds, ∀ p,
    (r.acknowledgedOf p).map (·.1) <+: Batch.ofPartition r.delivered p
  told : ∀ r ∈ rounds, ∀ p place d outcome, (r.acknowledgedOf p)[place]? = some (d, outcome) →
    Lane.Told s d (r.strides p place) (some outcome)
  processed : ∀ r ∈ rounds, ∀ p place d,
    (r.acknowledgedOf p)[place]? = some (d, .processed) → d.served s = true →
    ∃ x ∈ r.strides p place, x.commits = true ∧ d.effect? s x.before = some x.after
  /-- When a message is about to be acknowledged as processed, all of its rows are there. -/
  due : ∀ d left total dropped,
    feed.phase = .acknowledging ((d, some .processed) :: left) total dropped →
    d.served s = true → d.Stored s ix.store.tables
  /-- From its acknowledgement on they stay there. -/
  stored : ∀ d, (d, .processed) ∈ feed.acknowledged → d.served s = true →
    d.Stored s ix.store.tables
  dropped : ∀ r ∈ rounds, ∀ p place d, (r.acknowledgedOf p)[place]? = some (d, .dropped) →
    ∀ x ∈ r.strides p place, x.after = x.before
  unacknowledged : feed.phase = .stopped → ∀ r ∈ rounds, ∀ p place d,
    (Batch.ofPartition r.delivered p)[place]? = some d → (r.acknowledgedOf p).length ≤ place →
    ix.stopping = true ∧ ∀ x ∈ r.strides p place, x.after = x.before
  /-- No batch is read after one of which a message was left. -/
  notOvertaken : ∀ r ∈ rounds.tail, (r.acknowledged.map (·.1)).Perm r.delivered
  isPrefix : ∀ p, Batch.ofPartition (feed.acknowledged.map (·.1)) p <+:
    Batch.ofPartition (rounds.reverse.flatMap (·.delivered)) p
  complete : feed.phase = .stopped → ix.stopping = false →
    (feed.acknowledged.map (·.1)).Perm (rounds.reverse.flatMap (·.delivered))

/-- The acknowledgements of a feed are truthful, and in every partition they are the first
part of what was delivered, whatever is read, whichever calls fail, and whenever a stop
comes. -/
theorem Course.faithful (course : Course s source ix₀ rounds ix feed) :
    Faithful s rounds ix feed := by
  have r := course.record
  exact {
    calls := r.acknowledged
    once := by
      intro d
      rw [← Batch.count_ofPartition, ← Batch.count_ofPartition (rounds.reverse.flatMap _)]
      exact (r.isPrefix d.partition).sublist.count_le d
    inPlace := fun _ hr p => r.standing.prefix_delivered hr p
    told := fun _ hr _ _ _ _ hp => r.standing.told hr hp
    processed := fun _ hr _ _ _ hp served => (r.standing.told hr hp).written served
    due := by
      intro d left total dropped phase served
      have serial := course.serial_phase
      rw [phase] at serial
      exact serial.stored_left (by simp [Outcomes.processed]) served
    stored := fun d acknowledged served =>
      course.serial_phase.stored (mem_processed.mpr acknowledged) served
    dropped := fun _ hr _ _ _ hp => (r.standing.told hr hp).unwritten (by simp)
    unacknowledged := by
      intro stopped round hr p place d delivered behind
      obtain ⟨acked, settled⟩ := r.standing.settled (by rw [stopped]; rfl) hr
      obtain ⟨⟨x, hx, untold⟩, told⟩ := settled.answers.untold delivered behind
      exact ⟨settled.stopped x (by simpa using hx) untold, told.unwritten (by simp)⟩
    notOvertaken := by
      intro round hr
      have standing := r.standing
      cases standing with
      | none => simp at hr
      | latest stands closed =>
        exact Batch.perm_of_ofPartition (closed round hr).ofPartition_acknowledged
    isPrefix := r.isPrefix
    complete := by
      intro stopped going
      have closed := r.standing.closed (by rw [stopped]; rfl) going
      rw [r.acknowledged]
      exact Batch.perm_of_ofPartition (Record.ofPartition_acknowledged closed) }

/-- A feed that acknowledges two blocks of one partition, of which one spends what the other
creates, fails to read, and reads a third block. The attempt at it has some of its rows staged
when a stop comes, and then is contended, so it leaves nothing. -/
theorem Course.faithful_sampleBlocks : ∃ rounds ix feed,
    Course .plain "" .empty rounds ix feed ∧
      feed.acknowledged =
        [(.block "a" [.funding], .processed), (.block "a" [.spending], .processed)] ∧
      (default : Identifier).derive 0 ∈ ix.store.tables.redemptions ∧ ix.stopping = true ∧
      Faithful .plain rounds ix feed := by
  let granted (p : String) (n : Nat) : List Move := .replicate n (.answer p (.granted []))
  obtain ⟨_, opened⟩ := @Course.start .plain "" .empty |>.play
    (.read (.batch [.block "a" [.funding], .block "a" [.spending]]) :: granted "a" 26 ++
      .replicate 3 (.acknowledge none) ++ [.read (.failed (.contention "")), .wake] ++
      .read (.batch [.block "b" [.funding]]) :: granted "b" 6)
  obtain ⟨rounds, last⟩ := opened.stop.play
    (.answer "b" (.refused (.contention "")) :: granted "b" 2 ++
      .replicate 2 (.acknowledge none) ++ [.read .exhausted])
  generalize reached : Feed.play _ _ _ _ = state at last
  have ended : state.2.acknowledged =
        [(.block "a" [.funding], .processed), (.block "a" [.spending], .processed)] ∧
      (default : Identifier).derive 0 ∈ state.1.store.tables.redemptions ∧
      state.1.stopping = true := by
    rw [← reached]
    decide +kernel
  exact ⟨rounds, _, _, last, ended.1, ended.2.1, ended.2.2, last.faithful⟩

end Feed
end LedgerIndex
