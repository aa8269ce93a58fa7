import LedgerIndex.Proofs.Catalogues

/-!
# Contents

A trace is filed under the hash of its bytes alone: of the traces with the same bytes one is held,
however many transactions they belong to. A log is filed under the hash of its whole body, with
the mark of its removal in it: a removal is filed beside the log that it removes, and no row ever
changes its mark.
-/
namespace LedgerIndex

def Identifier.Collisionless (contents : List Bytes) : Prop :=
  ∀ x ∈ contents, ∀ y ∈ contents, ofContent x = ofContent y → x = y

def Settings.traces (s : Settings) (ds : List Delivery) : List Trace :=
  ds.filterMap (·.trace? s)

def Tables.HoldsTrace (t : Tables) (trace : Trace) : Prop :=
  ∃ (k : Identifier) (row : TraceRow), t.traces[k]? = some row ∧ row.trace = trace

theorem Tables.holdsTrace_iff (t : Tables) (trace : Trace) :
    t.HoldsTrace trace ↔ trace ∈ t.traces.toList.map (·.2.trace) := by
  simp [HoldsTrace, Std.ExtTreeMap.mem_toList_iff_getElem?_eq_some]

structure Settings.Traced (s : Settings) (ds : List Delivery) (first last : Tables) : Prop where
  kept : ∀ k, last.traces[k]? =
    Table.kept s.overwrite first.traces[k]? (Catalogue.traces.rowsAt s ds k)
  /-- Of the traces with the same bytes one is held. -/
  holds_iff : first.traces = ∅ → Identifier.Collisionless ((s.traces ds).map (·.content)) →
    ∀ trace, last.HoldsTrace trace ↔ Table.kept s.overwrite none
      ((s.traces ds).filter fun t => t.content = trace.content) = some trace
  /-- So all are held exactly if those with the same bytes are the same. -/
  all_iff : first.traces = ∅ → Identifier.Collisionless ((s.traces ds).map (·.content)) →
    ((∀ trace ∈ s.traces ds, last.HoldsTrace trace) ↔
      ∀ t ∈ s.traces ds, ∀ u ∈ s.traces ds, t.content = u.content → t = u)
  /-- Traces of different transactions or places are all held exactly if no two have the same
  bytes. -/
  distinct_iff : first.traces = ∅ → Identifier.Collisionless ((s.traces ds).map (·.content)) →
    ((s.traces ds).map fun t => (t.hash, t.index)).Nodup →
      ((∀ trace ∈ s.traces ds, last.HoldsTrace trace) ↔ ((s.traces ds).map (·.content)).Nodup)

namespace Settings.Traced

variable {s : Settings} {ds : List Delivery} {first last : Tables}

theorem map_rows (s : Settings) (ds : List Delivery) :
    (Catalogue.traces.rows s ds).map TraceRow.trace = s.traces ds := by
  rw [Catalogue.rows, List.map_filterMap]
  congr 1
  funext d
  rw [Catalogue.rowOf?_traces, Option.map_map]
  exact Option.map_id_apply

theorem id_of_mem {row : TraceRow} (member : row ∈ Catalogue.traces.rows s ds) :
    row.id = Identifier.ofContent row.trace.content := by
  obtain ⟨d, -, filed⟩ := Catalogue.traces.mem_rows.mp member
  rw [Catalogue.rowOf?_traces] at filed
  obtain ⟨trace, -, rfl⟩ := Option.map_eq_some_iff.mp filed
  rfl

/-- Where the hashes of contents do not collide, a key has the traces of one content. -/
theorem map_rowsAt (collisionless : Identifier.Collisionless ((s.traces ds).map (·.content)))
    {content : Bytes} (known : content ∈ (s.traces ds).map (·.content)) :
    (Catalogue.traces.rowsAt s ds (.ofContent content)).map TraceRow.trace =
      (s.traces ds).filter fun t => t.content = content := by
  have same (row : TraceRow) (member : row ∈ Catalogue.traces.rows s ds) :
      row.id = .ofContent content ↔ row.trace.content = content := by
    rw [id_of_mem member]
    constructor
    · apply collisionless _ _ _ known
      rw [← map_rows s ds, List.map_map]
      exact List.mem_map_of_mem member
    · exact congrArg _
  rw [← map_rows s ds, List.filter_map, Catalogue.rowsAt]
  congr 1
  apply List.filter_congr
  intro row member
  exact decide_eq_decide.mpr (same row member)

theorem holds_iff_kept (kept : ∀ k, last.traces[k]? =
      Table.kept s.overwrite first.traces[k]? (Catalogue.traces.rowsAt s ds k))
    (empty : first.traces = ∅)
    (collisionless : Identifier.Collisionless ((s.traces ds).map (·.content))) (trace : Trace) :
    last.HoldsTrace trace ↔ Table.kept s.overwrite none
      ((s.traces ds).filter fun t => t.content = trace.content) = some trace := by
  simp only [empty, Std.ExtTreeMap.getElem?_empty] at kept
  constructor
  · rintro ⟨k, row, found, rfl⟩
    have put := (kept k).symm.trans found
    obtain ⟨member, there⟩ := List.mem_filter.mp (Table.mem_of_kept put)
    obtain rfl : row.id = k := of_decide_eq_true there
    have known : row.trace.content ∈ (s.traces ds).map (·.content) := by
      rw [← map_rows s ds, List.map_map]
      exact List.mem_map_of_mem member
    rw [← map_rowsAt collisionless known, ← id_of_mem member]
    simpa [Table.map_kept] using congrArg (Option.map TraceRow.trace) put
  · intro one
    have known : trace.content ∈ (s.traces ds).map (·.content) :=
      List.mem_map_of_mem (List.mem_of_mem_filter (Table.mem_of_kept one))
    rw [← map_rowsAt collisionless known] at one
    obtain ⟨row, put, rfl⟩ : ∃ row, last.traces[Identifier.ofContent trace.content]? = some row ∧
        row.trace = trace := by
      rw [← Option.map_eq_some_iff, kept, Table.map_kept]
      exact one
    exact ⟨_, row, put, rfl⟩

theorem all_iff_of_holds_iff (holds_iff : ∀ trace, last.HoldsTrace trace ↔
      Table.kept s.overwrite none
        ((s.traces ds).filter fun t => t.content = trace.content) = some trace) :
    (∀ trace ∈ s.traces ds, last.HoldsTrace trace) ↔
      ∀ t ∈ s.traces ds, ∀ u ∈ s.traces ds, t.content = u.content → t = u := by
  constructor
  · intro all t ht u hu same
    have ofT := (holds_iff t).mp (all t ht)
    have ofU := (holds_iff u).mp (all u hu)
    rw [same, ofU] at ofT
    exact (Option.some.inj ofT).symm
  · intro apart t ht
    have listed : t ∈ (s.traces ds).filter fun u => u.content = t.content := by simp [ht]
    obtain ⟨u, kept⟩ := Table.exists_kept s.overwrite listed
    obtain ⟨hu, same⟩ := List.mem_filter.mp (Table.mem_of_kept kept)
    obtain rfl := apart u hu t ht (of_decide_eq_true same)
    exact (holds_iff u).mpr kept

theorem of_applyInOrder {first last : Store} (applied : s.applyInOrder? ds first = some last) :
    s.Traced ds first.tables last.tables := by
  have kept := Catalogue.traces.getElem?_applyInOrder applied
  have all empty collisionless :=
    all_iff_of_holds_iff (holds_iff_kept kept empty collisionless)
  refine ⟨kept, holds_iff_kept kept, all, fun empty collisionless distinct => ?_⟩
  rw [all empty collisionless]
  exact ⟨fun apart => (List.Nodup.of_map _ distinct).map_on apart,
    fun nodup t ht u hu same => List.inj_on_of_nodup_map nodup ht hu same⟩

end Settings.Traced

/-- What a log is an entry of: its block, its transaction, and its place there. -/
def Log.identity (l : Log) : String × String × UInt32 :=
  (l.blockHash, l.transactionHash, l.index)

def Settings.logs (s : Settings) (ds : List Delivery) : List Log :=
  ds.filterMap (·.log? s)

def Delivery.Logs (s : Settings) (identity : String × String × UInt32) (d : Delivery) : Prop :=
  ∃ log, d.log? s = some log ∧ log.identity = identity

def Tables.HoldsLog (t : Tables) (k : Identifier) (log : Log) : Prop :=
  t.logs[k]?.map (·.log) = some log

instance (t : Tables) (k : Identifier) (log : Log) : Decidable (t.HoldsLog k log) :=
  inferInstanceAs (Decidable (_ = _))

def Tables.Marks (t : Tables) (identity : String × String × UInt32) (removed : Bool) : Prop :=
  ∃ k log, t.HoldsLog k log ∧ log.identity = identity ∧ log.removed = removed ∧
    ∀ k' log', t.HoldsLog k' log' → log'.identity = identity → k' = k

structure Settings.Logged (s : Settings) (ds : List Delivery) (first last : Tables) : Prop where
  kept : ∀ k, last.logs[k]? =
    Table.kept s.overwrite first.logs[k]? (Catalogue.logs.rowsAt s ds k)
  /-- Every body has its row, and there are no others. -/
  holds_iff : first.logs = ∅ → Identifier.Collisionless (ds.map (·.body)) →
    ∀ k log, last.HoldsLog k log ↔ ∃ d ∈ ds, d.log? s = some log ∧ Identifier.ofContent d.body = k
  /-- An identity has one row, with the mark that came last, exactly if all its messages are the
  same to the byte. -/
  marks_iff : first.logs = ∅ → Identifier.Collisionless (ds.map (·.body)) →
    ∀ identity log, ((s.logs ds).filter fun l => l.identity = identity).getLast? = some log →
      (last.Marks identity log.removed ↔
        ∀ d ∈ ds, ∀ d' ∈ ds, d.Logs s identity → d'.Logs s identity → d.body = d'.body)
  /-- Logs of one identity with different marks stand beside each other. -/
  beside : first.logs = ∅ → Identifier.Collisionless (ds.map (·.body)) →
    ∀ d ∈ ds, ∀ d' ∈ ds, ∀ l l', d.log? s = some l → d'.log? s = some l' →
      l.identity = l'.identity → l.removed ≠ l'.removed →
        ∃ k k', k ≠ k' ∧ last.HoldsLog k l ∧ last.HoldsLog k' l'

namespace Settings.Logged

variable {s : Settings} {ds : List Delivery} {first last : Tables}

theorem holds_iff_carried (kept : ∀ k, last.logs[k]? =
      Table.kept s.overwrite first.logs[k]? (Catalogue.logs.rowsAt s ds k))
    (empty : first.logs = ∅) (collisionless : Identifier.Collisionless (ds.map (·.body)))
    (k : Identifier) (log : Log) : last.HoldsLog k log ↔
      ∃ d ∈ ds, d.log? s = some log ∧ Identifier.ofContent d.body = k := by
  simp only [empty, Std.ExtTreeMap.getElem?_empty] at kept
  have carried {row : LogRow} (member : row ∈ Catalogue.logs.rowsAt s ds k) :
      ∃ d ∈ ds, d.log? s = some row.log ∧ Identifier.ofContent d.body = k := by
    obtain ⟨listed, there⟩ := List.mem_filter.mp member
    obtain ⟨d, hd, filed⟩ := Catalogue.logs.mem_rows.mp listed
    rw [Catalogue.rowOf?_logs] at filed
    obtain ⟨log, carries, rfl⟩ := Option.map_eq_some_iff.mp filed
    exact ⟨d, hd, carries, of_decide_eq_true there⟩
  constructor
  · intro held
    obtain ⟨row, found, rfl⟩ := Option.map_eq_some_iff.mp held
    exact carried (Table.mem_of_kept ((kept k).symm.trans found))
  · rintro ⟨d, member, carries, rfl⟩
    have listed : ⟨Identifier.ofContent d.body, log, d.time⟩ ∈
        Catalogue.logs.rowsAt s ds (.ofContent d.body) := by
      refine List.mem_filter.mpr ⟨Catalogue.logs.mem_rows.mpr ⟨d, member, ?_⟩, decide_eq_true rfl⟩
      rw [Catalogue.rowOf?_logs, carries]
      rfl
    obtain ⟨row, there⟩ := Table.exists_kept s.overwrite listed
    -- the row may be that of another message, but its body is the same
    obtain ⟨d', member', carries', same⟩ := carried (Table.mem_of_kept there)
    have body := collisionless _ (List.mem_map_of_mem member') _ (List.mem_map_of_mem member) same
    refine Option.map_eq_some_iff.mpr ⟨row, (kept _).trans there, ?_⟩
    have decoded := (Delivery.log?_eq_some_iff.mp carries).2
    have decoded' := (Delivery.log?_eq_some_iff.mp carries').2
    rw [body, decoded] at decoded'
    exact (Option.some.inj decoded').symm

theorem of_applyInOrder {first last : Store} (applied : s.applyInOrder? ds first = some last) :
    s.Logged ds first.tables last.tables := by
  have kept := Catalogue.logs.getElem?_applyInOrder applied
  have holds_iff := holds_iff_carried kept
  refine ⟨kept, holds_iff, fun empty collisionless identity log latest => ?_,
    fun empty collisionless d hd d' hd' l l' carries carries' _ differ => ?_⟩
  · replace holds_iff := holds_iff empty collisionless
    constructor
    · rintro ⟨k, -, -, -, -, only⟩ d hd d' hd' ⟨l, carries, mine⟩ ⟨l', carries', yours⟩
      have here := only _ l ((holds_iff _ l).mpr ⟨d, hd, carries, rfl⟩) mine
      have there := only _ l' ((holds_iff _ l').mpr ⟨d', hd', carries', rfl⟩) yours
      exact collisionless _ (List.mem_map_of_mem hd) _ (List.mem_map_of_mem hd')
        (here.trans there.symm)
    · intro same
      obtain ⟨listed, known⟩ := List.mem_filter.mp (List.mem_of_getLast? latest)
      obtain ⟨d, hd, carries⟩ := List.mem_filterMap.mp listed
      have mine : log.identity = identity := of_decide_eq_true known
      refine ⟨_, log, (holds_iff _ log).mpr ⟨d, hd, carries, rfl⟩, mine, rfl, ?_⟩
      intro k' log' held yours
      obtain ⟨d', hd', carries', rfl⟩ := (holds_iff k' log').mp held
      rw [same d hd d' hd' ⟨log, carries, mine⟩ ⟨log', carries', yours⟩]
  · have mine := (holds_iff empty collisionless _ l).mpr ⟨d, hd, carries, rfl⟩
    have yours := (holds_iff empty collisionless _ l').mpr ⟨d', hd', carries', rfl⟩
    refine ⟨_, _, fun same => differ ?_, mine, yours⟩
    rw [same] at mine
    exact congrArg Log.removed (Option.some.inj (mine.symm.trans yours))

end Settings.Logged

def Delivery.ofTrace (t : Trace) : Delivery :=
  { emptyBlock "" with topic := Settings.plain.topics.trace, body := Json.write t.encode }

def Log.sample : Log :=
  ⟨"block", "transaction", 0, "address", [], [], false⟩

def Delivery.ofLog (l : Log) : Delivery :=
  { emptyBlock "" with topic := Settings.plain.topics.logs, body := Json.write l.encode }

namespace Feed

variable {s : Settings} {source : String} {ix₀ ix : Indexer} {rounds : List Round} {feed : Feed}

/-- Moves that read a batch, grant it all that it asks for, and acknowledge it. -/
def through (ds : List Delivery) : List Move :=
  .read (.batch ds) :: List.replicate (8 * ds.length) (.answer "" (.granted [])) ++
    List.replicate (ds.length + 1) (.acknowledge none)

def after (s : Settings) (ds : List Delivery) : Indexer × Feed :=
  (Feed.start s "" .empty).2.play s (through ds) (Feed.start s "" .empty).1

theorem Course.after (s : Settings) (ds : List Delivery) :
    ∃ rounds, Course s "" .empty rounds (Feed.after s ds).1 (Feed.after s ds).2 :=
  Course.start.play (through ds)

/-- Whatever a feed reads and whichever calls fail, when it rests its table of traces has what the
processed messages leave there in some order that keeps every partition. So no trace that was
acknowledged is missing exactly if no two of them have the same bytes. -/
theorem Course.traced (course : Course s source ix₀ rounds ix feed)
    (idle : feed.phase.isIdle = true) :
    ∃ order, (∀ p, Batch.ofPartition order p = Batch.ofPartition feed.processed p) ∧
      s.Traced order ix₀.store.tables ix.store.tables := by
  obtain ⟨order, keeps, applied⟩ := course.serial idle
  exact ⟨order, keeps, .of_applyInOrder applied⟩

/-- Two traces with different bytes are both there. -/
theorem Course.traced_apart : ∃ rounds ix feed, Course .plain "" .empty rounds ix feed ∧
    feed.phase.isIdle = true ∧ feed.processed = [.ofTrace ⟨"a", 0, [1]⟩, .ofTrace ⟨"b", 0, [2]⟩] ∧
    ix.store.tables.HoldsTrace ⟨"a", 0, [1]⟩ ∧ ix.store.tables.HoldsTrace ⟨"b", 0, [2]⟩ := by
  let ds : List Delivery := [.ofTrace ⟨"a", 0, [1]⟩, .ofTrace ⟨"b", 0, [2]⟩]
  obtain ⟨rounds, course⟩ := Course.after .plain ds
  have processed : (Feed.after .plain ds).2.processed = ds := by decide +kernel
  have carried : Settings.plain.traces ds = [⟨"a", 0, [1]⟩, ⟨"b", 0, [2]⟩] := by decide +kernel
  obtain ⟨order, keeps, traced⟩ := course.traced (by decide +kernel)
  rw [processed] at keeps
  have listed (t : Trace) : t ∈ Settings.plain.traces order ↔
      t = ⟨"a", 0, [1]⟩ ∨ t = ⟨"b", 0, [2]⟩ := by
    have perm := (Batch.perm_of_ofPartition keeps).filterMap (Delivery.trace? .plain)
    rw [Settings.traces, perm.mem_iff]
    change t ∈ Settings.plain.traces ds ↔ _
    simp [carried]
  have collisionless : Identifier.Collisionless
      ((Settings.plain.traces order).map (·.content)) := by
    have apart : Identifier.ofContent [1] ≠ Identifier.ofContent [2] := by decide +kernel
    simp only [Identifier.Collisionless, List.mem_map, listed]
    rintro _ ⟨t, rfl | rfl, rfl⟩ _ ⟨u, rfl | rfl, rfl⟩ same
    · rfl
    · exact absurd same apart
    · exact absurd same.symm apart
    · rfl
  have all := (traced.all_iff rfl collisionless).mpr fun t ht u hu same => by
    rcases (listed t).mp ht with rfl | rfl <;> rcases (listed u).mp hu with rfl | rfl
    · rfl
    · cases same
    · cases same
    · rfl
  exact ⟨rounds, _, _, course, by decide +kernel, processed, all _ ((listed _).mpr (.inl rfl)),
    all _ ((listed _).mpr (.inr rfl))⟩

/-- Two traces of different transactions have the same bytes. Both are processed, and one of them
is lost, whether rows are overwritten or not. -/
theorem Course.traced_sameBytes : ∃ t u : Trace, (t.hash, t.index) ≠ (u.hash, u.index) ∧
    ∀ overwrite, ∃ rounds ix feed,
      Course { Settings.plain with overwrite } "" .empty rounds ix feed ∧
      feed.phase.isIdle = true ∧ feed.processed = [.ofTrace t, .ofTrace u] ∧
      Settings.traces { Settings.plain with overwrite } feed.processed = [t, u] ∧
      ¬(ix.store.tables.HoldsTrace t ∧ ix.store.tables.HoldsTrace u) := by
  refine ⟨⟨"a", 0, [1]⟩, ⟨"b", 0, [1]⟩, by decide, fun overwrite => ?_⟩
  obtain ⟨rounds, course⟩ := Course.after { Settings.plain with overwrite }
    [.ofTrace ⟨"a", 0, [1]⟩, .ofTrace ⟨"b", 0, [1]⟩]
  refine ⟨rounds, _, _, course, ?_⟩
  simp only [Tables.holdsTrace_iff]
  cases overwrite <;> refine ⟨?_, ?_, ?_, ?_⟩ <;> decide +kernel

/-- Whatever a feed reads and whichever calls fail, when it rests its table of logs has one row for
each body that was processed. So a removal never reaches the row of its log. -/
theorem Course.logged (course : Course s source ix₀ rounds ix feed)
    (idle : feed.phase.isIdle = true) :
    ∃ order, (∀ p, Batch.ofPartition order p = Batch.ofPartition feed.processed p) ∧
      s.Logged order ix₀.store.tables ix.store.tables := by
  obtain ⟨order, keeps, applied⟩ := course.serial idle
  exact ⟨order, keeps, .of_applyInOrder applied⟩

/-- A log that is delivered again has one row, with its mark. -/
theorem Course.logged_again : ∃ rounds ix feed,
    Course { Settings.plain with overwrite := true } "" .empty rounds ix feed ∧
    feed.phase.isIdle = true ∧ feed.processed = List.replicate 2 (.ofLog .sample) ∧
    ix.store.tables.Marks Log.sample.identity false := by
  let ds : List Delivery := List.replicate 2 (.ofLog .sample)
  obtain ⟨rounds, course⟩ := Course.after { Settings.plain with overwrite := true } ds
  have processed : (Feed.after { Settings.plain with overwrite := true } ds).2.processed = ds := by
    decide +kernel
  obtain ⟨order, keeps, logged⟩ := course.logged (by decide +kernel)
  rw [processed] at keeps
  obtain rfl : order = ds := List.perm_replicate.mp (Batch.perm_of_ofPartition keeps)
  have same (d : Delivery) (member : d ∈ ds) : d = .ofLog .sample :=
    List.eq_of_mem_replicate member
  have collisionless : Identifier.Collisionless (ds.map (·.body)) := by
    intro x hx y hy _
    obtain ⟨d, hd, rfl⟩ := List.mem_map.mp hx
    obtain ⟨d', hd', rfl⟩ := List.mem_map.mp hy
    rw [same d hd, same d' hd']
  have marks := (logged.marks_iff rfl collisionless Log.sample.identity .sample
    (by decide +kernel)).mpr fun d hd d' hd' _ _ => by rw [same d hd, same d' hd']
  exact ⟨rounds, _, _, course, by decide +kernel, processed, marks⟩

/-- A log is removed, and rows are overwritten. The removal is processed last and has a row of its
own, and the row of the log stays as it was. -/
theorem Course.logged_removed : ∃ rounds ix feed,
    Course { Settings.plain with overwrite := true } "" .empty rounds ix feed ∧
    feed.phase.isIdle = true ∧
    feed.processed = [.ofLog .sample, .ofLog { Log.sample with removed := true }] ∧
    Settings.logs { Settings.plain with overwrite := true } feed.processed =
      [.sample, { Log.sample with removed := true }] ∧
    ¬ix.store.tables.Marks Log.sample.identity true := by
  let ds : List Delivery := [.ofLog .sample, .ofLog { Log.sample with removed := true }]
  obtain ⟨rounds, course⟩ := Course.after { Settings.plain with overwrite := true } ds
  refine ⟨rounds, _, _, course, by decide +kernel, by decide +kernel, by decide +kernel, ?_⟩
  rintro ⟨k, -, -, -, -, only⟩
  have first := only (.ofContent (Delivery.ofLog .sample).body) .sample (by decide +kernel) rfl
  have second := only (.ofContent (Delivery.ofLog { Log.sample with removed := true }).body)
    { Log.sample with removed := true } (by decide +kernel) rfl
  exact absurd (first.trans second.symm) (by decide +kernel)

end Feed
end LedgerIndex
