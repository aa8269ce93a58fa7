import LedgerIndex.Proofs.Acknowledgement

/-!
# Serial order

Batch after batch, a feed leaves in the store what the messages that it processed leave there
when they are handled one at a time, each of them alone, in an order that keeps every partition.
So what is known of single messages can be carried through everything that a feed has read,
whatever else happened on the way.
-/
namespace LedgerIndex

/-- The messages take one store to another when they are handled one at a time, each partition in
its order. -/
def Settings.Serial (s : Settings) (first : Store) (ds : List Delivery) (last : Store) : Prop :=
  ∃ order, (∀ p, Batch.ofPartition order p = Batch.ofPartition ds p) ∧
    s.applyInOrder? order first = some last

namespace Settings.Serial

variable {s : Settings} {first between last : Store} {ds more : List Delivery}

theorem nil (store : Store) : s.Serial store [] store :=
  ⟨[], fun _ => rfl, rfl⟩

theorem append (h : s.Serial first ds between) (h' : s.Serial between more last) :
    s.Serial first (ds ++ more) last := by
  obtain ⟨order, kept, applied⟩ := h
  obtain ⟨order', kept', applied'⟩ := h'
  refine ⟨order ++ order', fun p => ?_, ?_⟩
  · rw [Batch.ofPartition_append, Batch.ofPartition_append, kept, kept']
  · rw [Settings.applyInOrder?_append, applied]
    exact applied'

end Settings.Serial

theorem Outcomes.processed_cons (x : Delivery × Option Outcome) (outcomes : Outcomes) :
    processed (x :: outcomes) = processed [x] ++ processed outcomes := by
  by_cases h : x.2 = some .processed <;> simp [processed, h]

namespace Feed

def processed (feed : Feed) : List Delivery :=
  (feed.acknowledged.filter fun x => decide (x.2 = .processed)).map (·.1)

/-- What the store comes from in a phase: what was acknowledged before, and what is done of the
batch in hand. -/
def Phase.Serial (s : Settings) (first : Store) (acknowledged : List Delivery) (ix : Indexer) :
    Phase → Prop
  | .working b _ => ∃ ds ix₀ log, s.Serial first acknowledged ix₀.store ∧
      Batch.Course s ds ix₀ log ix b
  | .acknowledging left _ _ => s.Serial first (acknowledged ++ left.processed) ix.store
  | _ => s.Serial first acknowledged ix.store

variable {s : Settings} {source : String} {first : Store} {ix₀ ix : Indexer} {rounds : List Round}
  {feed : Feed} {acknowledged : List Delivery}

theorem serial_ofBatch {ds : List Delivery} {log : List Lane.Entry} {b : Batch}
    (before : s.Serial first acknowledged ix₀.store) (course : Batch.Course s ds ix₀ log ix b)
    (total : Nat) : (ofBatch b total).Serial s first acknowledged ix := by
  unfold ofBatch
  split
  next isOver =>
    obtain ⟨order, kept, -, applied⟩ := (course.settlement isOver).serial
    exact before.append ⟨order, kept, applied⟩
  next => exact ⟨ds, ix₀, log, before, course⟩

theorem processed_concat (source : String) (phase : Phase)
    (acked : List (Delivery × Outcome)) (d : Delivery) (outcome : Outcome) :
    processed ⟨source, phase, acked ++ [(d, outcome)]⟩ =
      processed ⟨source, phase, acked⟩ ++ Outcomes.processed [(d, some outcome)] := by
  cases outcome <;> simp [processed, Outcomes.processed]

/-- A step of a feed leaves what the messages leave that have been processed by then. -/
theorem serial_step (serial : feed.phase.Serial s first feed.processed ix) (move : Move) :
    (feed.step s move ix).2.phase.Serial s first (feed.step s move ix).2.processed
      (feed.step s move ix).1 := by
  obtain ⟨source, phase, acked⟩ := feed
  cases phase with
  | reading =>
    cases move with
    | read reading =>
      cases stopping : ix.stopping with
      | true =>
        simp only [step, stopping, if_true, halt]
        exact serial
      | false =>
        cases reading with
        | batch ds =>
          simp only [step, stopping]
          exact serial_ofBatch serial .start ds.length
        | exhausted =>
          simp only [step, stopping]
          exact serial
        | failed f =>
          simp only [step, stopping]
          exact serial
    | _ => exact serial
  | working b total =>
    cases move with
    | answer p answer =>
      obtain ⟨ds, before, log, earlier, course⟩ := serial
      exact serial_ofBatch earlier (course.step p answer) total
    | _ => exact serial
  | acknowledging left total dropped =>
    cases move with
    | acknowledge failure =>
      cases left with
      | nil =>
        have through : s.Serial first (processed ⟨source, .reading, acked⟩ ++ []) ix.store := serial
        rwa [List.append_nil] at through
      | cons x rest =>
        obtain ⟨d, outcome⟩ := x
        cases outcome with
        | none => exact serial
        | some outcome =>
          have further : s.Serial first (processed ⟨source, .reading, acked⟩ ++
              (Outcomes.processed [(d, some outcome)] ++ Outcomes.processed rest)) ix.store := by
            rw [← Outcomes.processed_cons]
            exact serial
          rw [← List.append_assoc, ← processed_concat] at further
          cases failure <;> exact further
    | _ => simpa [Feed.step] using serial
  | resting =>
    cases move with
    | wake =>
      cases stopping : ix.stopping with
      | true =>
        simp only [step, stopping, if_true, halt]
        exact serial
      | false =>
        simp only [step, stopping]
        exact serial
    | _ => exact serial
  | stopped => cases move <;> exact serial

theorem Phase.Serial.stop {phase : Phase} (serial : phase.Serial s first acknowledged ix) :
    phase.Serial s first acknowledged ix.stop := by
  cases phase with
  | working b total =>
    obtain ⟨ds, ix₀, log, before, course⟩ := serial
    exact ⟨ds, ix₀, log, before, course.stop⟩
  | _ => exact serial

theorem Course.serial_phase (course : Course s source ix₀ rounds ix feed) :
    feed.phase.Serial s ix₀.store feed.processed ix := by
  induction course with
  | start => exact .nil _
  | step move _ ih => exact serial_step ih move
  | stop _ ih => exact ih.stop

/-- When no batch is in hand, the store is what the processed messages have left in it. -/
theorem Course.serial (course : Course s source ix₀ rounds ix feed)
    (idle : feed.phase.isIdle = true) : s.Serial ix₀.store feed.processed ix.store := by
  have serial := course.serial_phase
  cases phase : feed.phase <;> rw [phase] at serial idle
  case working => cases idle
  case acknowledging => cases idle
  all_goals exact serial

def play (s : Settings) (moves : List Move) (ix : Indexer) (feed : Feed) : Indexer × Feed :=
  moves.foldl (fun state move => state.2.step s move state.1) (ix, feed)

theorem Course.play (course : Course s source ix₀ rounds ix feed) (moves : List Move) :
    ∃ rounds', Course s source ix₀ rounds' (feed.play s moves ix).1 (feed.play s moves ix).2 := by
  induction moves generalizing rounds ix feed with
  | nil => exact ⟨rounds, course⟩
  | cons move moves ih => exact ih (course.step move)

end Feed
end LedgerIndex
