import LedgerIndex.Proofs.Lanes

/-!
# Batches

The lanes of a batch take turns in any order. Seen from one lane the steps of the others
are other work, so what holds of a lane on its own holds of it in the batch. The batch
as a whole writes what its processed messages write when they are handled one at a time,
in the order of their commits.
-/
namespace LedgerIndex
namespace Batch

theorem nodup_eraseDups (names : List String) : names.eraseDups.Nodup := by
  induction h : names.length using Nat.strongRecOn generalizing names with
  | ind n ih =>
    cases names with
    | nil => simp
    | cons name names =>
      rw [List.eraseDups_cons, List.nodup_cons]
      have shorter := List.length_filter_le (fun other => !other == name) names
      exact ⟨by simp, ih _ (by simp at h; omega) _ rfl⟩

theorem mem_partitions {ds : List Delivery} {p : String} :
    p ∈ partitions ds ↔ ∃ d ∈ ds, d.partition = p := by
  simp [partitions, List.mem_mergeSort]

theorem nodup_partitions (ds : List Delivery) : (partitions ds).Nodup :=
  (List.mergeSort_perm _ _).nodup_iff.mpr (nodup_eraseDups _)

def enters? (s : Settings) (p : String) (answer : Answer) (ix : Indexer) (b : Batch) :
    Option Lane.Entry :=
  (b.lane? p).bind (·.enters? s answer ix)

/-- The log of a batch, the state of the indexer, and how far the batch has come: lanes step
in any order, with any answers, and a stop is requested at any moment. -/
inductive Course (s : Settings) (ds : List Delivery) (ix₀ : Indexer) :
    List Lane.Entry → Indexer → Batch → Prop
  | start : Course s ds ix₀ [] ix₀ (Batch.start s ds)
  | step (p : String) (answer : Answer) {log : List Lane.Entry} {ix : Indexer} {b : Batch} :
    Course s ds ix₀ log ix b →
    Course s ds ix₀ (log ++ (b.enters? s p answer ix).toList) (b.step s p answer ix).1
      (b.step s p answer ix).2
  | stop {log : List Lane.Entry} {ix : Indexer} {b : Batch} :
    Course s ds ix₀ log ix b → Course s ds ix₀ log ix.stop b

def ofPartition (ds : List Delivery) (p : String) : List Delivery :=
  ds.filter (·.partition == p)

def logOf (log : List Lane.Entry) (p : String) : List Lane.Entry :=
  log.filter (·.delivery.partition == p)

theorem ofPartition_append (ds more : List Delivery) (p : String) :
    ofPartition (ds ++ more) p = ofPartition ds p ++ ofPartition more p := by
  simp [ofPartition]

theorem logOf_append (log more : List Lane.Entry) (p : String) :
    logOf (log ++ more) p = logOf log p ++ logOf more p := by
  simp [logOf]

/-- What the log says about a lane of the batch, and the order of writing with it. -/
structure Keeps (s : Settings) (ds : List Delivery) (log : List Lane.Entry) (ix : Indexer)
    (order : List Delivery) (lane : Lane) : Prop where
  record : lane.Record s (ofPartition ds lane.partition) (logOf log lane.partition) ix
  written : ofPartition order lane.partition = lane.written

/-- The lanes of a batch with those that are over, and the order in which messages took
effect so far. -/
structure Record (s : Settings) (ds : List Delivery) (ix₀ : Indexer) (log : List Lane.Entry)
    (ix : Indexer) (b : Batch) (retired : List Lane) (order : List Delivery) : Prop where
  finished : b.finished = retired.flatMap (·.finished)
  isOver : ∀ l ∈ retired, l.isDone = true
  partitions : ((retired ++ b.active ++ b.queued).map (·.partition)).Perm (partitions ds)
  lanes : ∀ l ∈ retired ++ b.active ++ b.queued, Keeps s ds log ix order l
  applied : s.applyInOrder? order ix₀.store = some ix.store
  committed : order.filter (·.served s) = Lane.committed log
  logged : ∀ e ∈ log, e.delivery ∈ ds
  ordered : ∀ d ∈ order, d ∈ ds

theorem refill_eq (s : Settings) (b : Batch) :
    (b.refill s).active ++ (b.refill s).queued = b.active ++ b.queued ∧
      (b.refill s).finished = b.finished := by
  simp [refill, List.append_assoc]

namespace Record

variable {s : Settings} {ds : List Delivery} {ix₀ ix : Indexer} {log : List Lane.Entry}
  {b : Batch} {retired : List Lane} {order : List Delivery}

theorem refill (r : Record s ds ix₀ log ix b retired order) :
    Record s ds ix₀ log ix (b.refill s) retired order := by
  obtain ⟨same, finished⟩ := refill_eq s b
  exact { r with
    finished := finished.trans r.finished
    partitions := by
      rw [List.append_assoc, same, ← List.append_assoc]
      exact r.partitions
    lanes := by
      rw [List.append_assoc, same, ← List.append_assoc]
      exact r.lanes }

theorem start (s : Settings) (ds : List Delivery) (ix : Indexer) :
    Record s ds ix [] ix (Batch.start s ds) [] [] := by
  apply refill
  exact {
    finished := rfl
    isOver := by simp
    partitions := by
      simp [Batch.lanes, Function.comp_def, Lane.ofDeliveries]
    lanes := by
      intro l hl
      obtain ⟨p, -, rfl⟩ := List.mem_map.mp (by simpa using hl : l ∈ Batch.lanes ds)
      exact ⟨.start s p _ ix, by
        simp [ofPartition, Lane.written, Outcomes.processed, Lane.ofDeliveries]⟩
    applied := rfl
    committed := rfl
    logged := by simp
    ordered := by simp }

theorem stop (r : Record s ds ix₀ log ix b retired order) :
    Record s ds ix₀ log ix.stop b retired order :=
  { r with
    lanes := fun l hl => ⟨(r.lanes l hl).record.elsewhere ⟨.refl, fun _ => rfl⟩,
      (r.lanes l hl).written⟩ }

theorem nodup (r : Record s ds ix₀ log ix b retired order) :
    ((retired ++ b.active ++ b.queued).map (·.partition)).Nodup :=
  r.partitions.nodup_iff.mpr (nodup_partitions ds)

theorem keeps_step {lane l : Lane} (r : Record s ds ix₀ log ix b retired order)
    (hlane : lane ∈ retired ++ b.active ++ b.queued) (answer : Answer) {news : List Delivery}
    (writes : lane.Writes s ix answer news)
    (hl : l = (lane.step s answer ix).2 ∨
      (l ∈ retired ++ b.active ++ b.queued ∧ l.partition ≠ lane.partition)) :
    Keeps s ds (log ++ (lane.enters? s answer ix).toList) (lane.step s answer ix).1
      (order ++ news) l := by
  have own := (r.lanes lane hlane).record.own answer
  have entered : ∀ e ∈ (lane.enters? s answer ix).toList,
      e.delivery.partition = lane.partition := by
    intro e he
    have at_place := own.entries e (List.mem_append_right _ he)
    simpa using (List.mem_filter.mp (List.mem_of_getElem? at_place)).2
  have mine : ∀ d ∈ news, d.partition = lane.partition := by
    intro d hd
    have hd := own.mem_of_written (writes.written ▸ List.mem_append_right _ hd)
    simpa using (List.mem_filter.mp hd).2
  rcases hl with rfl | ⟨hl, other⟩
  · have entries : logOf (lane.enters? s answer ix).toList lane.partition =
        (lane.enters? s answer ix).toList :=
      List.filter_eq_self.mpr fun e he => by simp [entered e he]
    have news_mine : ofPartition news lane.partition = news :=
      List.filter_eq_self.mpr fun d hd => by simp [mine d hd]
    constructor
    · rw [Lane.partition_step, logOf_append, entries]
      exact own
    · rw [Lane.partition_step, ofPartition_append, news_mine, (r.lanes lane hlane).written,
        writes.written]
  · have entries : logOf (lane.enters? s answer ix).toList l.partition = [] :=
      List.filter_eq_nil_iff.mpr fun e he => by simp [entered e he, Ne.symm other]
    have news_other : ofPartition news l.partition = [] :=
      List.filter_eq_nil_iff.mpr fun d hd => by simp [mine d hd, Ne.symm other]
    constructor
    · rw [logOf_append, entries, List.append_nil]
      refine (r.lanes l hl).record.elsewhere ⟨?_, ?_⟩
      · exact Settings.evolves_of_applyInOrder? writes.applied
      · rw [Lane.stopping_step]
        exact id
    · rw [ofPartition_append, news_other, List.append_nil]
      exact (r.lanes l hl).written

/-- A step of one lane, however the lanes are arranged after it. -/
theorem move {lane : Lane} (r : Record s ds ix₀ log ix b retired order)
    (hlane : lane ∈ retired ++ b.active ++ b.queued) (answer : Answer) {news : List Delivery}
    (writes : lane.Writes s ix answer news) {b' : Batch} {retired' : List Lane}
    (finished : b'.finished = retired'.flatMap (·.finished))
    (isOver : ∀ l ∈ retired', l.isDone = true)
    (partitions : ((retired' ++ b'.active ++ b'.queued).map (·.partition)).Perm
      ((retired ++ b.active ++ b.queued).map (·.partition)))
    (arranged : ∀ l ∈ retired' ++ b'.active ++ b'.queued, l = (lane.step s answer ix).2 ∨
      (l ∈ retired ++ b.active ++ b.queued ∧ l.partition ≠ lane.partition)) :
    Record s ds ix₀ (log ++ (lane.enters? s answer ix).toList) (lane.step s answer ix).1 b'
      retired' (order ++ news) := by
  have own := (r.lanes lane hlane).record.own answer
  exact {
    finished
    isOver
    partitions := partitions.trans r.partitions
    lanes := fun l hl => r.keeps_step hlane answer writes (arranged l hl)
    applied := by
      rw [Settings.applyInOrder?_append, r.applied]
      exact writes.applied
    committed := by
      rw [List.filter_append, Lane.committed_append, r.committed, writes.committed]
    logged := by
      intro e he
      rcases List.mem_append.mp he with he | he
      · exact r.logged e he
      · have at_place := own.entries e (List.mem_append_right _ he)
        exact (List.mem_filter.mp (List.mem_of_getElem? at_place)).1
    ordered := by
      intro d hd
      rcases List.mem_append.mp hd with hd | hd
      · exact r.ordered d hd
      · have hd := own.mem_of_written (writes.written ▸ List.mem_append_right _ hd)
        exact (List.mem_filter.mp hd).1 }

theorem step (r : Record s ds ix₀ log ix b retired order) (p : String) (answer : Answer) :
    ∃ retired order, Record s ds ix₀ (log ++ (b.enters? s p answer ix).toList)
      (b.step s p answer ix).1 (b.step s p answer ix).2 retired order := by
  cases found : b.lane? p with
  | none =>
    refine ⟨retired, order, ?_⟩
    simpa [enters?, Batch.step, found] using r
  | some lane =>
    have active : lane ∈ b.active := List.mem_of_find?_eq_some found
    have known : lane ∈ retired ++ b.active ++ b.queued := by simp [active]
    obtain ⟨news, writes⟩ := (r.lanes lane known).record.step_writes answer
    have same := Lane.partition_step s answer ix lane
    -- no other lane, retired or queued, has the partition of this one
    have distinct := r.nodup
    simp only [List.map_append, List.append_assoc, List.nodup_append, List.mem_append] at distinct
    obtain ⟨-, ⟨activeNodup, -, notQueued⟩, notRetired⟩ := distinct
    have here := List.mem_map_of_mem (f := (·.partition)) active
    have apart : ∀ l, l ∈ retired ∨ l ∈ b.queued → l.partition ≠ lane.partition := by
      rintro l (hl | hl)
      · exact notRetired _ (List.mem_map_of_mem hl) _ (.inl here)
      · exact (notQueued _ here _ (List.mem_map_of_mem hl)).symm
    simp only [enters?, Batch.step, found, Option.bind_some, replace]
    split
    next isOver =>
      refine ⟨retired ++ [(lane.step s answer ix).2], order ++ news, refill ?_⟩
      apply r.move known answer writes
      · simp [r.finished]
      · simpa [or_imp, forall_and, isOver] using r.isOver
      · have others : (b.active.filter (·.partition != lane.partition)).map (·.partition) =
            (b.active.map (·.partition)).erase lane.partition := by
          rw [activeNodup.erase_eq_filter, List.filter_map]
          rfl
        simp only [List.map_append, List.map_cons, List.map_nil, List.append_assoc, same, others]
        refine .append_left _ ?_
        exact (List.perm_cons_erase here).symm.append_right _
      · intro l hl
        simp only [List.mem_append, List.mem_singleton, List.mem_filter, bne_iff_ne, same] at hl
        rcases hl with ((hl | rfl) | ⟨hl, hp⟩) | hl
        · exact .inr ⟨by simp [hl], apart l (.inl hl)⟩
        · exact .inl rfl
        · exact .inr ⟨by simp [hl], hp⟩
        · exact .inr ⟨by simp [hl], apart l (.inr hl)⟩
    next =>
      refine ⟨retired, order ++ news, ?_⟩
      apply r.move known answer writes
      · exact r.finished
      · exact r.isOver
      · have renamed : (b.active.map fun l =>
            if l.partition == (lane.step s answer ix).2.partition then (lane.step s answer ix).2
            else l).map (·.partition) = b.active.map (·.partition) := by
          rw [List.map_map]
          apply List.map_congr_left
          intro l _
          by_cases hp : l.partition = (lane.step s answer ix).2.partition <;> simp [hp]
        simp only [List.map_append, renamed]
        exact .refl _
      · intro l hl
        simp only [List.mem_append, List.mem_map, same] at hl
        rcases hl with (hl | ⟨l', hl', rfl⟩) | hl
        · exact .inr ⟨by simp [hl], apart l (.inl hl)⟩
        · by_cases hp : l'.partition = lane.partition
          · simp [hp]
          · exact .inr (by simp [hp, hl'])
        · exact .inr ⟨by simp [hl], apart l (.inr hl)⟩

end Record
end Batch
end LedgerIndex
