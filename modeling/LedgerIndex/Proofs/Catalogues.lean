import LedgerIndex.Proofs.Footprints
import LedgerIndex.Proofs.Independence
import LedgerIndex.Proofs.Serial

/-!
# Catalogues

A catalogue is a table into which a message puts at most one row, under the identity of some
content. Traces and logs are kept in one each. Whatever else a session writes leaves a catalogue
alone, so after any messages in turn it has under a key the first of the rows that were put there,
or the last where rows are overwritten.
-/
namespace LedgerIndex

/-- The row that is kept of an old one and of those that come after it: the first, or the last
where rows are overwritten. -/
def Table.kept {ν : Type} (overwrite : Bool) (old : Option ν) (news : List ν) : Option ν :=
  if overwrite then news.getLast?.or old else old.or news.head?

namespace Table

variable {ν μ : Type} {overwrite : Bool} {old : Option ν} {news : List ν}

@[simp] theorem kept_nil : kept overwrite old [] = old := by
  cases overwrite <;> simp [kept]

theorem kept_append (overwrite : Bool) (old : Option ν) (news more : List ν) :
    kept overwrite old (news ++ more) = kept overwrite (kept overwrite old news) more := by
  cases overwrite
  · simp [kept, List.head?_append, Option.or_assoc]
  · simp [kept, List.getLast?_append, Option.or_assoc]

theorem map_kept (f : ν → μ) :
    (kept overwrite old news).map f = kept overwrite (old.map f) (news.map f) := by
  cases overwrite <;> simp [kept, Option.map_or]

theorem mem_of_kept {row : ν} (h : kept overwrite none news = some row) : row ∈ news := by
  cases overwrite
  · exact List.mem_of_head? (by simpa [kept] using h)
  · exact List.mem_of_getLast? (by simpa [kept] using h)

theorem exists_kept (overwrite : Bool) {row : ν} (member : row ∈ news) :
    ∃ row', kept overwrite none news = some row' := by
  have some := List.ne_nil_of_mem member
  cases overwrite
  · exact ⟨news.head some, by simp [kept, List.head?_eq_some_head some]⟩
  · exact ⟨news.getLast some, by simp [kept, List.getLast?_eq_some_getLast some]⟩

end Table

/-- Changes put what they write into a table, one after the other. -/
theorem Puts.table_applyAll {κ ν : Type} [Ord κ] [Std.TransOrd κ] (p : Puts κ ν) (t : Tables)
    (cs : List Change) : p.table (Change.applyAll t cs) =
      (cs.filterMap p.written).foldl
        (fun table w => table.upsertCarrying w.1 w.2.1 w.2.2 p.carry) (p.table t) := by
  induction cs generalizing t with
  | nil => rfl
  | cons c cs ih =>
    rw [Change.applyAll_cons, ih, p.table_apply]
    cases written : p.written c with
    | none => rw [List.filterMap_cons_none written]
    | some w => rw [List.filterMap_cons_some written, List.foldl_cons]

/-- A table into which a message puts one row, or none, under the identity of its content. -/
structure Catalogue (ρ : Type) where
  puts : Puts Identifier ρ
  id : ρ → Identifier
  row? : Task → Option ρ
  replaces (old new : ρ) : puts.carry old new = new
  written (s : Settings) (t : Task) : (t.work s).changes.filterMap puts.written =
    (row? t).toList.map fun row => (id row, row, s.overwrite)

namespace Catalogue

variable {ρ : Type} (c : Catalogue ρ) (s : Settings)

def rowOf? (d : Delivery) : Option ρ :=
  (d.task? s).bind c.row?

def rows (ds : List Delivery) : List ρ :=
  ds.filterMap (c.rowOf? s)

def rowsAt (ds : List Delivery) (k : Identifier) : List ρ :=
  (c.rows s ds).filter fun row => c.id row = k

variable {s}

theorem getElem?_attempt {task : Task} {first last : Store}
    (committed : task.commit? s first = some last) (k : Identifier) :
    (c.puts.table last.tables)[k]? = Table.kept s.overwrite (c.puts.table first.tables)[k]?
      ((c.row? task).toList.filter fun row => c.id row = k) := by
  obtain ⟨session, leaves, rfl⟩ := (Task.commit?_eq_some_iff s task first last).mp committed
  change (c.puts.table (Change.applyAll first.tables session.staged))[k]? = _
  rw [(Task.fills_of_leaves leaves).staged_eq, c.puts.table_applyAll, c.written]
  cases c.row? task with
  | none => simp
  | some row =>
    simp only [Option.toList_some, List.map_cons, List.map_nil, List.foldl_cons, List.foldl_nil,
      Table.upsertCarrying, Table.getElem?_put, c.replaces]
    by_cases here : c.id row = k
    · subst here
      cases s.overwrite <;> cases (c.puts.table first.tables)[c.id row]? <;> simp [Table.kept]
    · simp [here]

theorem getElem?_effect {d : Delivery} {first last : Store}
    (applied : d.effect? s first = some last) (k : Identifier) :
    (c.puts.table last.tables)[k]? =
      Table.kept s.overwrite (c.puts.table first.tables)[k]? (c.rowsAt s [d] k) := by
  cases ht : d.task? s with
  | some task =>
    rw [Delivery.effect?_of_task? ht] at applied
    have alone : c.rowsAt s [d] k = (c.row? task).toList.filter fun row => c.id row = k := by
      simp only [rowsAt, rows, rowOf?, ht, Option.bind_some, List.filterMap_cons,
        List.filterMap_nil]
      cases c.row? task <;> rfl
    rw [alone]
    exact c.getElem?_attempt applied k
  | none =>
    have nothing : c.rowsAt s [d] k = [] := by simp [rowsAt, rows, rowOf?, ht]
    rw [nothing, Table.kept_nil]
    unfold Delivery.effect? at applied
    split at applied
    · cases applied
      rfl
    · simp [ht] at applied

theorem rowsAt_cons (d : Delivery) (ds : List Delivery) (k : Identifier) :
    c.rowsAt s (d :: ds) k = c.rowsAt s [d] k ++ c.rowsAt s ds k := by
  simp only [rowsAt, rows, ← List.filter_append, ← List.filterMap_append, List.singleton_append]

/-- Messages in turn add their rows, each to those that are there by then. -/
theorem getElem?_applyInOrder {ds : List Delivery} {first last : Store}
    (applied : s.applyInOrder? ds first = some last) (k : Identifier) :
    (c.puts.table last.tables)[k]? =
      Table.kept s.overwrite (c.puts.table first.tables)[k]? (c.rowsAt s ds k) := by
  induction ds generalizing first with
  | nil =>
    cases applied
    exact Table.kept_nil.symm
  | cons d ds ih =>
    obtain ⟨between, one, others⟩ := Option.bind_eq_some_iff.mp applied
    rw [ih others, c.getElem?_effect one, c.rowsAt_cons d ds, Table.kept_append]

theorem mem_rows {ds : List Delivery} {row : ρ} :
    row ∈ c.rows s ds ↔ ∃ d ∈ ds, c.rowOf? s d = some row :=
  List.mem_filterMap

end Catalogue

/-- A block writes nothing of what none of its postings writes. -/
theorem Writer.filterMap_block {κ ν : Type} [Ord κ] [Std.TransOrd κ] (w : Writer) (ctx : Context)
    (p : Puts κ ν) (b : Block) (silent : ∀ t q, Posting.Of t q →
      ∀ c ∈ w.changes ctx q, p.written c = none) :
    (w.changesOf ctx (b.transactions.flatMap w.postings)).filterMap p.written = [] := by
  apply List.filterMap_eq_nil_iff.mpr
  intro c member
  obtain ⟨q, posted, made⟩ := List.mem_flatMap.mp member
  obtain ⟨t, -, posted⟩ := List.mem_flatMap.mp posted
  exact silent t q (Posting.of_transaction w t q posted) c made

def Payload.trace? : Payload → Option Trace
  | .trace t => some t
  | _ => none

def Payload.log? : Payload → Option Log
  | .log l => some l
  | _ => none

namespace Catalogue

def traces : Catalogue TraceRow where
  puts := .traces
  id := (·.id)
  row? t := t.payload.trace?.map fun trace => ⟨t.content, trace, t.time⟩
  replaces _ _ := rfl
  written s t := by
    obtain ⟨subject, content, time, payload⟩ := t
    cases payload with
    | block b =>
      apply s.writer.filterMap_block
      intro t q about
      cases q with
      | tie place address signature => cases signature <;> simp [Writer.changes, Puts.traces]
      | trace => exact about.elim
      | _ => simp [Writer.changes, Puts.traces]
    | _ => rfl

def logs : Catalogue LogRow where
  puts := .logs
  id := (·.id)
  row? t := t.payload.log?.map fun log => ⟨t.content, log, t.time⟩
  replaces _ _ := rfl
  written s t := by
    obtain ⟨subject, content, time, payload⟩ := t
    cases payload with
    | block b =>
      apply s.writer.filterMap_block
      intro t q about
      cases q with
      | tie place address signature => cases signature <;> simp [Writer.changes, Puts.logs]
      | log => exact about.elim
      | _ => simp [Writer.changes, Puts.logs]
    | _ => rfl

end Catalogue

theorem Delivery.parts_of_task? {s : Settings} {d : Delivery} {task : Task}
    (ht : d.task? s = some task) :
    ∃ subject payload, task = ⟨subject, payload.content d.body, d.time, payload⟩ := by
  simp only [task?, Option.bind_eq_some_iff, Option.map_eq_some_iff] at ht
  obtain ⟨kind, -, payload, -, rfl⟩ := ht
  exact ⟨_, payload, rfl⟩

/-- The trace that a message carries, if it is on the topic of traces. -/
def Delivery.trace? (s : Settings) (d : Delivery) : Option Trace :=
  (d.task? s).bind (·.payload.trace?)

theorem Catalogue.rowOf?_traces (s : Settings) (d : Delivery) : traces.rowOf? s d =
    (d.trace? s).map fun trace => ⟨Identifier.ofContent trace.content, trace, d.time⟩ := by
  unfold rowOf? Delivery.trace?
  cases ht : d.task? s with
  | none => rfl
  | some task =>
    obtain ⟨subject, payload, rfl⟩ := Delivery.parts_of_task? ht
    cases payload <;> rfl

def Delivery.log? (s : Settings) (d : Delivery) : Option Log :=
  (d.task? s).bind (·.payload.log?)

/-- A log is filed under the hash of the body that it came in. -/
theorem Catalogue.rowOf?_logs (s : Settings) (d : Delivery) : logs.rowOf? s d =
    (d.log? s).map fun log => ⟨Identifier.ofContent d.body, log, d.time⟩ := by
  unfold rowOf? Delivery.log?
  cases ht : d.task? s with
  | none => rfl
  | some task =>
    obtain ⟨subject, payload, rfl⟩ := Delivery.parts_of_task? ht
    cases payload <;> rfl

theorem Delivery.log?_eq_some_iff {s : Settings} {d : Delivery} {log : Log} :
    d.log? s = some log ↔ s.topics.route d.topic = some .logs ∧
      Json.decodeBody Log.decode d.body = some log := by
  simp only [log?, task?]
  cases s.topics.route d.topic with
  | none => simp
  | some kind =>
    cases kind <;> simp [Payload.decode?, Option.bind_map, Function.comp_def, Payload.log?]

end LedgerIndex
