import LedgerIndex.Proofs.Batches

/-!
# The outcomes of a batch

When all lanes are done the outcomes of a batch tell of every message, partition by
partition in the order of delivery. What the batch has left in the store is what its
processed messages leave there when they are handled one at a time, each of them alone,
in the order in which their sessions were committed.
-/
namespace LedgerIndex

def Outcomes.ofPartition (outcomes : Outcomes) (p : String) : Outcomes :=
  outcomes.filter (·.1.partition == p)

theorem Outcomes.ofPartition_append (outcomes more : Outcomes) (p : String) :
    ofPartition (outcomes ++ more) p = outcomes.ofPartition p ++ more.ofPartition p := by
  simp [ofPartition]

theorem Outcomes.map_ofPartition (outcomes : Outcomes) (p : String) :
    (outcomes.ofPartition p).map (·.1) = Batch.ofPartition (outcomes.map (·.1)) p := by
  simp [ofPartition, Batch.ofPartition, List.filter_map, Function.comp_def]

theorem Outcomes.processed_ofPartition (outcomes : Outcomes) (p : String) :
    processed (outcomes.ofPartition p) = Batch.ofPartition (processed outcomes) p := by
  simp only [processed, ofPartition, Batch.ofPartition, List.filter_map, List.filter_filter,
    Function.comp_def]
  simp only [Bool.and_comm]

namespace Batch

theorem count_ofPartition (ds : List Delivery) (d : Delivery) :
    (ofPartition ds d.partition).count d = ds.count d :=
  List.count_filter (by simp)

/-- Messages that are the same in every partition are the same in all. -/
theorem perm_of_ofPartition {ds more : List Delivery}
    (h : ∀ p, ofPartition ds p = ofPartition more p) : ds.Perm more := by
  rw [List.perm_iff_count]
  intro d
  rw [← count_ofPartition ds, ← count_ofPartition more, h]

theorem ofPartition_flatMap {lanes : List Lane} (nodup : (lanes.map (·.partition)).Nodup)
    (within : ∀ l ∈ lanes, ∀ x ∈ l.finished, x.1.partition = l.partition) {lane : Lane}
    (hlane : lane ∈ lanes) :
    Outcomes.ofPartition (lanes.flatMap (·.finished)) lane.partition = lane.finished := by
  induction lanes with
  | nil => simp at hlane
  | cons l rest ih =>
    rw [List.map_cons, List.nodup_cons] at nodup
    rw [List.flatMap_cons, Outcomes.ofPartition_append]
    have elsewhere (others : List Lane) (known : ∀ o ∈ others, o ∈ l :: rest)
        (apart : ∀ o ∈ others, o.partition ≠ lane.partition) :
        Outcomes.ofPartition (others.flatMap (·.finished)) lane.partition = [] := by
      apply List.filter_eq_nil_iff.mpr
      intro x hx
      obtain ⟨o, ho, hx⟩ := List.mem_flatMap.mp hx
      simpa [within o (known o ho) x hx] using apart o ho
    rcases List.mem_cons.mp hlane with rfl | hlane
    · rw [elsewhere rest (fun o ho => List.mem_cons_of_mem _ ho), List.append_nil]
      · exact List.filter_eq_self.mpr fun x hx => by simp [within _ List.mem_cons_self x hx]
      · rintro o ho same
        exact nodup.1 (same ▸ List.mem_map_of_mem ho)
    · have other : l.partition ≠ lane.partition := by
        intro same
        exact nodup.1 (same ▸ List.mem_map_of_mem hlane)
      have none := elsewhere [l] (by simp) (by simpa using other)
      rw [List.flatMap_singleton] at none
      rw [none, List.nil_append]
      exact ih nodup.2 (fun o ho => within o (List.mem_cons_of_mem _ ho)) hlane

variable {s : Settings} {ds : List Delivery} {ix₀ ix : Indexer} {log : List Lane.Entry}
  {b : Batch} {outcomes : Outcomes} {retired : List Lane} {order : List Delivery}

theorem Course.record (course : Course s ds ix₀ log ix b) :
    ∃ retired order, Record s ds ix₀ log ix b retired order := by
  induction course with
  | start => exact ⟨[], [], .start s ds ix₀⟩
  | step p answer _ ih =>
    obtain ⟨retired, order, r⟩ := ih
    exact r.step p answer
  | stop _ ih =>
    obtain ⟨retired, order, r⟩ := ih
    exact ⟨retired, order, r.stop⟩

/-- Where there is no lane, there are neither messages nor strides. -/
theorem Record.untouched (r : Record s ds ix₀ log ix b retired order) {p : String}
    (hp : p ∉ Batch.partitions ds) : ofPartition ds p = [] ∧ logOf log p = [] := by
  have absent : ∀ d ∈ ds, ¬(d.partition == p) = true := by
    intro d hd same
    exact hp (mem_partitions.mpr ⟨d, hd, by simpa using same⟩)
  exact ⟨List.filter_eq_nil_iff.mpr absent,
    List.filter_eq_nil_iff.mpr fun e he => absent _ (r.logged e he)⟩

/-- The outcomes of one partition are those of a lane that is over. -/
structure LaneOver (s : Settings) (ds : List Delivery) (log : List Lane.Entry) (ix : Indexer)
    (order : List Delivery) (outcomes : Outcomes) (p : String) (lane : Lane) : Prop where
  isOver : lane.isDone = true
  finished : outcomes.ofPartition p = lane.finished
  record : lane.Record s (ofPartition ds p) (logOf log p) ix
  written : ofPartition order p = lane.written

theorem Record.laneOver (r : Record s ds ix₀ log ix b retired order) (isOver : b.isDone = true)
    (p : String) : ∃ lane, LaneOver s ds log ix order b.finished p lane := by
  obtain ⟨active, queued⟩ : b.active = [] ∧ b.queued = [] := by simpa [isDone] using isOver
  have lanes : ∀ l ∈ retired, Keeps s ds log ix order l := by
    simpa [active, queued] using r.lanes
  have within : ∀ l ∈ retired, ∀ x ∈ l.finished, x.1.partition = l.partition := by
    intro l hl x hx
    have : x.1 ∈ ofPartition ds l.partition := by
      rw [← (lanes l hl).record.deliveries]
      simp [List.mem_map_of_mem hx]
    simpa using (List.mem_filter.mp this).2
  have names : (retired.map (·.partition)).Perm (Batch.partitions ds) := by
    simpa [active, queued] using r.partitions
  by_cases hp : p ∈ Batch.partitions ds
  · obtain ⟨lane, hl, rfl⟩ := List.mem_map.mp (names.mem_iff.mpr hp)
    refine ⟨lane, r.isOver lane hl, ?_, (lanes lane hl).record, (lanes lane hl).written⟩
    rw [r.finished]
    exact ofPartition_flatMap (names.nodup_iff.mpr (nodup_partitions ds)) within hl
  · obtain ⟨noMessages, noLog⟩ := r.untouched hp
    refine ⟨.ofDeliveries p [], rfl, ?_, ?_, ?_⟩
    · apply List.filter_eq_nil_iff.mpr
      intro x hx
      rw [r.finished] at hx
      obtain ⟨l, hl, hx⟩ := List.mem_flatMap.mp hx
      rw [within l hl x hx, beq_iff_eq]
      rintro rfl
      exact hp (names.mem_iff.mp (List.mem_map_of_mem hl))
    · rw [noMessages, noLog]
      exact .start s p [] ix
    · refine List.filter_eq_nil_iff.mpr fun d hd same => hp ?_
      exact mem_partitions.mpr ⟨d, r.ordered d hd, by simpa using same⟩

namespace LaneOver

variable {p : String} {lane : Lane}

theorem idle (l : LaneOver s ds log ix order outcomes p lane) :
    lane.current = none ∧ lane.waiting = [] := by
  simpa [Lane.isDone] using l.isOver

theorem deliveries (l : LaneOver s ds log ix order outcomes p lane) :
    ofPartition (outcomes.map (·.1)) p = ofPartition ds p := by
  rw [← Outcomes.map_ofPartition, l.finished, ← l.record.deliveries]
  simp [l.idle]

theorem processed (l : LaneOver s ds log ix order outcomes p lane) :
    ofPartition order p = ofPartition outcomes.processed p := by
  rw [l.written, ← Outcomes.processed_ofPartition, l.finished]
  simp [Lane.written, l.idle]

theorem told (l : LaneOver s ds log ix order outcomes p lane) {place : Nat} {d : Delivery}
    {outcome : Option Outcome} (h : (outcomes.ofPartition p)[place]? = some (d, outcome)) :
    Lane.Told s d (Lane.stridesAt (logOf log p) place) outcome :=
  l.record.told place d outcome (l.finished ▸ h)

end LaneOver

structure Settlement (s : Settings) (ds : List Delivery) (ix₀ : Indexer)
    (log : List Lane.Entry) (ix : Indexer) (outcomes : Outcomes) : Prop where
  inOrder : ∀ p, ofPartition (outcomes.map (·.1)) p = ofPartition ds p
  /-- The messages of a partition that have an outcome come first, and no message behind the
  first one without was ever taken up. -/
  runs : ∀ p, ∃ done left, outcomes.ofPartition p = done ++ left ∧
    (∀ x ∈ done, x.2.isSome = true) ∧ (∀ x ∈ left, x.2 = none) ∧
    ∀ e ∈ logOf log p, e.place ≤ done.length
  /-- A stride at a place is one of the message that was delivered there. -/
  entries : ∀ p, ∀ e ∈ logOf log p, (ofPartition ds p)[e.place]? = some e.delivery
  told : ∀ p place d outcome, (outcomes.ofPartition p)[place]? = some (d, outcome) →
    Lane.Told s d (Lane.stridesAt (logOf log p) place) outcome
  stopped : ∀ x ∈ outcomes, x.2 = none → ix.stopping = true
  serial : ∃ order, (∀ p, ofPartition order p = ofPartition outcomes.processed p) ∧
    order.filter (·.served s) = Lane.committed log ∧
    s.applyInOrder? order ix₀.store = some ix.store

theorem Course.settlement (course : Course s ds ix₀ log ix b) (isOver : b.isDone = true) :
    Settlement s ds ix₀ log ix b.finished := by
  obtain ⟨retired, order, r⟩ := course.record
  have lane := r.laneOver isOver
  exact {
    inOrder := fun p => (lane p).elim fun _ l => l.deliveries
    runs := fun p => by
      obtain ⟨l, ended⟩ := lane p
      obtain ⟨done, left, parts, outcomes, noOutcomes, places, -⟩ := ended.record.runs
      exact ⟨done, left, ended.finished.trans parts, outcomes, noOutcomes, places⟩
    entries := fun p => (lane p).elim fun _ l => l.record.entries
    told := fun p place d outcome h => (lane p).elim fun _ l => l.told h
    stopped := by
      intro x hx untold
      obtain ⟨l, ended⟩ := lane x.1.partition
      obtain ⟨done, left, parts, outcomes, -, -, stopped⟩ := ended.record.runs
      have here : x ∈ done ++ left := by
        rw [← parts, ← ended.finished]
        exact List.mem_filter.mpr ⟨hx, by simp⟩
      rcases List.mem_append.mp here with here | here
      · exact absurd (outcomes x here) (by simp [untold])
      · exact (stopped (List.ne_nil_of_mem here)).1
    serial := ⟨order, fun p => (lane p).elim fun _ l => l.processed, r.committed, r.applied⟩ }

namespace Settlement

theorem complete (settled : Settlement s ds ix₀ log ix outcomes) :
    (outcomes.map (·.1)).Perm ds :=
  perm_of_ofPartition settled.inOrder

/-- The processed messages of a partition were delivered in this order. -/
theorem processed_sublist (settled : Settlement s ds ix₀ log ix outcomes) (p : String) :
    (ofPartition outcomes.processed p).Sublist (ofPartition ds p) := by
  rw [← settled.inOrder p]
  exact ((List.filter_sublist).map _).filter _

end Settlement

/-- The outcomes of a batch, and a sequential order that explains its effect. -/
structure Serialized (s : Settings) (ds : List Delivery) (ix₀ : Indexer)
    (log : List Lane.Entry) (ix : Indexer) (outcomes : Outcomes) : Prop
    extends Settlement s ds ix₀ log ix outcomes where
  complete : (outcomes.map (·.1)).Perm ds
  /-- The processed messages, handled one at a time in the order of their commits, each of
  them alone, all end well again and leave the same store. -/
  inTurn : ∃ order last, order.Perm outcomes.processed ∧
    (∀ p, (ofPartition order p).Sublist (ofPartition ds p)) ∧
    order.filter (·.served s) = Lane.committed log ∧
    Handling.InTurn s ix₀ order last ∧ last.store = ix.store
  unwritten : ∀ p place d outcome, (outcomes.ofPartition p)[place]? = some (d, outcome) →
    outcome ≠ some .processed → ∀ x ∈ Lane.stridesAt (logOf log p) place, x.after = x.before

/-- A batch keeps every message and the order of every partition, and its effect is that of
its processed messages in some order, whichever lanes step when, whichever calls fail, and
whenever a stop comes. -/
theorem Course.serializable (course : Course s ds ix₀ log ix b) (isOver : b.isDone = true) :
    Serialized s ds ix₀ log ix b.finished := by
  have settled := course.settlement isOver
  obtain ⟨order, processed, committed, applied⟩ := settled.serial
  obtain ⟨last, inTurn, store⟩ := Handling.InTurn.of_applyInOrder? applied
  exact {
    settled with
    complete := settled.complete
    inTurn := by
      refine ⟨order, last, perm_of_ofPartition processed, fun p => ?_, committed, inTurn, store⟩
      rw [processed p]
      exact settled.processed_sublist p
    unwritten := fun p place d outcome h ho => (settled.told p place d outcome h).unwritten ho }

def follow (s : Settings) : List (String × Answer) → Indexer → Batch → Indexer × Batch
  | [], ix, b => (ix, b)
  | (p, answer) :: rest, ix, b =>
    follow s rest (b.step s p answer ix).1 (b.step s p answer ix).2

theorem Course.follow (course : Course s ds ix₀ log ix b) (moves : List (String × Answer)) :
    ∃ log', Course s ds ix₀ log' (Batch.follow s moves ix b).1 (Batch.follow s moves ix b).2 := by
  induction moves generalizing log ix b with
  | nil => exact ⟨log, course⟩
  | cons move rest ih => exact ih (course.step move.1 move.2)

/-- Two partitions of two blocks each, the first of which creates an output and the second of
which spends it. -/
def sampleBlocks : List Delivery :=
  [.block "a" [.funding], .block "b" [.funding], .block "a" [.spending], .block "b" [.spending]]

/-- Each partition creates the output first. The attempt of one is contended with a part of its
rows staged, and made again between the two commits of the other; its second block is contended
after a stop, so it has no outcome. -/
theorem Course.serializable_sampleBlocks : ∃ log ix b,
    Course .plain sampleBlocks .empty log ix b ∧ b.isDone = true ∧
      b.finished.map (·.2) = [some .processed, some .processed, some .processed, none] ∧
      (default : Identifier).derive 0 ∈ ix.store.tables.redemptions ∧
      Serialized .plain sampleBlocks .empty log ix b.finished := by
  have two : partitions sampleBlocks = ["a", "b"] :=
    List.mergeSort_of_pairwise (l := ["a", "b"]) (by decide +kernel)
  have queued : Course .plain sampleBlocks .empty [] .empty
      ⟨[], [.ofDeliveries "a" [.block "a" [.funding], .block "a" [.spending]],
        .ofDeliveries "b" [.block "b" [.funding], .block "b" [.spending]]], []⟩ := by
    have := @Course.start .plain sampleBlocks .empty
    rwa [Batch.start, lanes, two] at this
  let granted (p : String) (n : Nat) : List (String × Answer) := .replicate n (p, .granted [])
  obtain ⟨_, opened⟩ := queued.follow (granted "a" 15 ++ granted "b" 5 ++
    [("b", .refused (.contention ""))] ++ granted "b" 16 ++ granted "a" 11 ++ granted "b" 3)
  obtain ⟨log, last⟩ := opened.stop.follow
    (("b", .refused (.contention "")) :: granted "b" 2)
  generalize reached : Batch.follow _ _ _ _ = state at last
  have ended : state.2.isDone = true ∧
      state.2.finished.map (·.2) = [some .processed, some .processed, some .processed, none] ∧
      (default : Identifier).derive 0 ∈ state.1.store.tables.redemptions := by
    rw [← reached]
    decide +kernel
  exact ⟨log, _, _, last, ended.1, ended.2.1, ended.2.2, last.serializable ended.1⟩

end Batch
end LedgerIndex
