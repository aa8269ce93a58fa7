import LedgerIndex.Proofs.Contents
import LedgerIndex.Proofs.WriteOnce
import Mathlib.Data.List.Forall2

/-!
# Dates

Most rows are dated once: whatever is committed later, over them or not, they keep the time at
which they were first written. Traces and logs are replaced as a whole, and so take the time of
the last message that is written over them.
-/
namespace LedgerIndex

def KeepsDate {ν : Type} (date : ν → Timestamp) (row row' : ν) : Prop :=
  date row' = date row

theorem KeepsDate.refl {ν : Type} {date : ν → Timestamp} (row : ν) : KeepsDate date row row :=
  Eq.refl _

theorem KeepsDate.trans {ν : Type} {date : ν → Timestamp} {a b c : ν} (h : KeepsDate date a b)
    (h' : KeepsDate date b c) : KeepsDate date a c :=
  Eq.trans h' h

namespace Table

variable {κ ν : Type} [Ord κ] [Std.TransOrd κ] {date : ν → Timestamp}

/-- A row that takes its date over when it is written over keeps it. -/
theorem keepsDate_upsertCarrying [Std.LawfulEqOrd κ] [DecidableEq κ] (t : Table κ ν) (k : κ)
    (new : ν) (overwrite : Bool) {carry : ν → ν → ν}
    (carries : ∀ old new, date (carry old new) = date old) :
    t.Extends (KeepsDate date) (t.upsertCarrying k new overwrite carry) := by
  apply Extends.put .refl
  intro old
  cases overwrite with
  | false => exact .refl old
  | true => exact carries old new

/-- Every row of a table is in a later one, and has the last of the dates that are listed for its
key. If there is none, it has its own. -/
def Redated (date : ν → Timestamp) (dates : κ → List Timestamp) (t later : Table κ ν) : Prop :=
  ∀ (k : κ) (row : ν), t[k]? = some row →
    ∃ row', later[k]? = some row' ∧ date row' = (dates k).getLast?.getD (date row)

namespace Redated

variable {dates dates' : κ → List Timestamp} {t t' t'' : Table κ ν}

theorem refl (t : Table κ ν) : t.Redated date (fun _ => []) t :=
  fun _ row found => ⟨row, found, rfl⟩

theorem trans (h : t.Redated date dates t') (h' : t'.Redated date dates' t'') :
    t.Redated date (fun k => dates k ++ dates' k) t'' := by
  intro k row found
  obtain ⟨row', found', first⟩ := h k row found
  obtain ⟨row'', found'', second⟩ := h' k row' found'
  refine ⟨row'', found'', ?_⟩
  rw [second, first, List.getLast?_append, Option.getD_or]

theorem upsert [Std.LawfulEqOrd κ] [DecidableEq κ] (t : Table κ ν) (k : κ) (new : ν)
    (overwrite : Bool) : t.Redated date
      (fun k' => (if overwrite ∧ k = k' then some (date new) else none).toList)
      (t.upsert k new overwrite) := by
  intro k' row found
  rw [Table.upsert, getElem?_put]
  by_cases same : k = k'
  · subst same
    cases overwrite with
    | false => exact ⟨row, by simp [found], by simp⟩
    | true => exact ⟨new, by simp [found], by simp⟩
  · exact ⟨row, by rw [if_neg same, found], by simp [same]⟩

end Redated
end Table

/-- What becomes of the dates of the rows that are there. The dates of traces and logs follow from
those that they are given later. -/
structure Tables.Dated (dates : TableName → Identifier → List Timestamp) (t t' : Tables) :
    Prop where
  transactions : t.transactions.Extends (KeepsDate (·.created)) t'.transactions
  outputs : t.outputs.Extends (KeepsDate (·.created)) t'.outputs
  redemptions : t.redemptions.Extends (KeepsDate (·.created)) t'.redemptions
  addresses : t.addresses.Extends (KeepsDate (·.created)) t'.addresses
  presence : t.presence.Extends (KeepsDate (·.created)) t'.presence
  holdings : t.holdings.Extends (KeepsDate (·.created)) t'.holdings
  traces : t.traces.Redated (·.created) (dates .traces) t'.traces
  logs : t.logs.Redated (·.created) (dates .logs) t'.logs

namespace Tables.Dated

variable {dates dates' : TableName → Identifier → List Timestamp} {t t' t'' : Tables}

theorem refl (t : Tables) : t.Dated (fun _ _ => []) t where
  transactions := .refl .refl _
  outputs := .refl .refl _
  redemptions := .refl .refl _
  addresses := .refl .refl _
  presence := .refl .refl _
  holdings := .refl .refl _
  traces := .refl _
  logs := .refl _

theorem trans (h : t.Dated dates t') (h' : t'.Dated dates' t'') :
    t.Dated (fun table k => dates table k ++ dates' table k) t'' where
  transactions := h.transactions.trans .trans h'.transactions
  outputs := h.outputs.trans .trans h'.outputs
  redemptions := h.redemptions.trans .trans h'.redemptions
  addresses := h.addresses.trans .trans h'.addresses
  presence := h.presence.trans .trans h'.presence
  holdings := h.holdings.trans .trans h'.holdings
  traces := h.traces.trans h'.traces
  logs := h.logs.trans h'.logs

end Tables.Dated

namespace Change

def redates : TableName → Identifier → Change → Option Timestamp
  | .traces, k, trace row overwrite => if overwrite ∧ row.id = k then some row.created else none
  | .logs, k, log row overwrite => if overwrite ∧ row.id = k then some row.created else none
  | _, _, _ => none

theorem dated_apply (c : Change) (t : Tables) :
    t.Dated (fun table k => (c.redates table k).toList) (c.apply t) := by
  -- A change writes to one table, and all but traces and logs carry the date over.
  have self : t.Dated (fun _ _ => []) t := .refl t
  cases c with
  | transaction row o =>
    exact { self with
      transactions := t.transactions.keepsDate_upsertCarrying _ _ _ fun _ _ => rfl }
  | output row o =>
    exact { self with outputs := t.outputs.keepsDate_upsertCarrying _ _ _ fun _ _ => rfl }
  | redemption row => exact { self with redemptions := .put .refl .refl _ }
  | address row o =>
    exact { self with addresses := t.addresses.keepsDate_upsertCarrying _ _ _ fun _ _ => rfl }
  | presence row o =>
    exact { self with presence := t.presence.keepsDate_upsertCarrying _ _ _ fun _ _ => rfl }
  | holding row o =>
    exact { self with holdings := t.holdings.keepsDate_upsertCarrying _ _ _ fun _ _ => rfl }
  | signature output address value =>
    have signed (row : HoldingRow) :
        KeepsDate (·.created) row { row with signature := value } := rfl
    exact { self with holdings := .update .refl signed _ }
  | trace row o => exact { self with traces := .upsert t.traces row.id row o }
  | log row o => exact { self with logs := .upsert t.logs row.id row o }
  | _ => exact { self with }

theorem dated_applyAll (cs : List Change) (t : Tables) :
    t.Dated (fun table k => cs.filterMap (redates table k)) (applyAll t cs) := by
  induction cs generalizing t with
  | nil => exact .refl t
  | cons c cs ih =>
    simp only [List.filterMap_eq_flatMap_toList, List.flatMap_cons] at ih ⊢
    exact (c.dated_apply t).trans (ih _)

end Change

def Payload.catalogue? : Payload → Option TableName
  | .block _ => none
  | .trace _ => some .traces
  | .log _ => some .logs

def Work.redates (table : TableName) (k : Identifier) : Work → Option Timestamp
  | message _ ctx content payload =>
    if payload.catalogue? = some table ∧ ctx.overwrite ∧ content = k then some ctx.time else none
  | payout .. => none

def Posting.IsEntry : Posting → Prop
  | trace .. | log .. => True
  | _ => False

theorem Posting.Of.not_isEntry {t : Transaction} {p : Posting} (about : p.Of t) : ¬p.IsEntry := by
  cases p with
  | trace => exact about.elim
  | log => exact about.elim
  | _ => exact id

theorem OutputState.not_isEntry {state : OutputState} {place : Place} {asset : Identifier}
    {stake genesis : Bool} : ∀ p ∈ state.postings place asset stake genesis, ¬p.IsEntry := by
  intro p posted
  obtain ⟨owner, rfl⟩ | ⟨owner, rfl⟩ | ⟨c, rfl⟩ := cases_of_mem_postings posted <;> exact id

theorem Writer.filterMap_redates (w : Writer) (ctx : Context) {ps : List Posting}
    (others : ∀ p ∈ ps, ¬p.IsEntry) (table : TableName) (k : Identifier) :
    (w.changesOf ctx ps).filterMap (Change.redates table k) = [] := by
  apply List.filterMap_eq_nil_iff.mpr
  intro c staged
  obtain ⟨p, posted, made⟩ := List.mem_flatMap.mp staged
  have other := others p posted
  have silent : ∀ c ∈ w.changes ctx p, c.redates table k = none := by
    cases p with
    | trace => exact (other trivial).elim
    | log => exact (other trivial).elim
    | tie place address signature => cases signature <;> simp [changes, Change.redates]
    | _ => simp [changes, Change.redates]
  exact silent c made

namespace Work

theorem filterMap_redates (work : Work) (table : TableName) (k : Identifier) :
    work.changes.filterMap (Change.redates table k) = (work.redates table k).toList := by
  cases work with
  | payout s r outputs =>
    refine Writer.filterMap_redates _ _ (fun p posted => ?_) table k
    obtain ⟨o, -, posted⟩ := List.mem_flatMap.mp posted
    exact OutputState.not_isEntry p posted
  | message w ctx content payload =>
    cases payload with
    | block b =>
      refine Writer.filterMap_redates _ _ (fun p posted => ?_) table k
      obtain ⟨t, -, posted⟩ := List.mem_flatMap.mp posted
      exact (Posting.of_transaction w t p posted).not_isEntry
    | trace t =>
      change List.filterMap _ [Change.trace ⟨content, t, ctx.time⟩ ctx.overwrite] = _
      rw [List.filterMap_eq_flatMap_toList, List.flatMap_singleton]
      cases table <;> simp [Change.redates, redates, Payload.catalogue?]
    | log l =>
      change List.filterMap _ [Change.log ⟨content, l, ctx.time⟩ ctx.overwrite] = _
      rw [List.filterMap_eq_flatMap_toList, List.flatMap_singleton]
      cases table <;> simp [Change.redates, redates, Payload.catalogue?]

theorem filterMap_redates_staged {works : List Work} {sessions : List Session}
    (filled : List.Forall₂ Fills works sessions) (table : TableName) (k : Identifier) :
    (sessions.flatMap (·.staged)).filterMap (Change.redates table k) =
      works.filterMap (redates table k) := by
  induction filled with
  | nil => rfl
  | @cons work session works sessions full _ ih =>
    rw [List.flatMap_cons, List.filterMap_append, full.staged_eq, work.filterMap_redates, ih,
      List.filterMap_eq_flatMap_toList, List.filterMap_eq_flatMap_toList, List.flatMap_cons]

end Work

namespace Store

theorem tables_foldl_commit (store : Store) (sessions : List Session) :
    (sessions.foldl commit store).tables =
      Change.applyAll store.tables (sessions.flatMap (·.staged)) := by
  induction sessions generalizing store with
  | nil => rfl
  | cons session sessions ih =>
    rw [List.foldl_cons, ih, List.flatMap_cons, Change.applyAll_append]
    rfl

/-- Sessions are committed to any store, one after the other. All rows that are there stay, and
transactions, outputs, redemptions, addresses, their presence and holdings keep their dates,
whatever the sessions hold. A trace or a log has the date of the last work that replaces it, which
is any message that comes under its identity while rows are written over. -/
theorem dated (store : Store) (sessions : List Session) :
    store.tables.Dated
      (fun table k => (sessions.flatMap (·.staged)).filterMap (Change.redates table k))
      (sessions.foldl commit store).tables ∧
    ∀ works, List.Forall₂ Work.Fills works sessions → store.tables.Dated
      (fun table k => works.filterMap (Work.redates table k))
      (sessions.foldl commit store).tables := by
  have changed := Change.dated_applyAll (sessions.flatMap (·.staged)) store.tables
  rw [← tables_foldl_commit] at changed
  refine ⟨changed, fun works filled => ?_⟩
  simpa only [Work.filterMap_redates_staged filled] using changed

/-- A transaction that is written over a second later keeps its date. -/
theorem dated_rewritten : ∃ (work : Work) (session : Session) (row row' : TransactionRow),
    work.context = ⟨⟨1, 0⟩, true⟩ ∧ work.Fills session ∧
    (empty.commit (Work.block [.funding]).session).tables.transactions[(default : Identifier)]? =
      some row ∧
    ((empty.commit (Work.block [.funding]).session).commit session).tables.transactions[
      (default : Identifier)]? = some row' ∧
    row.created = ⟨0, 0⟩ ∧ row'.created = ⟨0, 0⟩ := by
  let work : Work := .message Settings.plain.writer ⟨⟨1, 0⟩, true⟩ default (.block ⟨[.funding]⟩)
  have filled : work.Fills _ := .of_run rfl
  have first : (empty.commit (Work.block [.funding]).session).tables.transactions[
      (default : Identifier)]?.map (·.created) = some ⟨0, 0⟩ := by
    decide +kernel
  obtain ⟨row, found, created⟩ := Option.map_eq_some_iff.mp first
  obtain ⟨row', found', keeps⟩ := ((dated _ _).2 _ (.cons filled .nil)).transactions _ row found
  exact ⟨work, _, row, row', rfl, filled, found, found', created, Eq.trans keeps created⟩

end Store

/-- The store after a message has come at these times, if rows are written over. -/
def Delivery.repeated (d : Delivery) (times : List Timestamp) : Option Store :=
  Settings.applyInOrder? { Settings.plain with overwrite := true }
    (times.map fun time => { d with time }) .empty

/-- A trace that comes again a second later takes the new date, and so does a log. -/
theorem Delivery.repeated_dates : ∃ (t : Trace) (l : Log),
    ((ofTrace t).repeated [⟨0, 0⟩]).bind (·.tables.traces[Identifier.ofContent t.content]?) =
      some ⟨.ofContent t.content, t, ⟨0, 0⟩⟩ ∧
    ((ofTrace t).repeated [⟨0, 0⟩, ⟨1, 0⟩]).bind
      (·.tables.traces[Identifier.ofContent t.content]?) =
      some ⟨.ofContent t.content, t, ⟨1, 0⟩⟩ ∧
    ((ofLog l).repeated [⟨0, 0⟩]).bind (·.tables.logs[Identifier.ofContent (ofLog l).body]?) =
      some ⟨.ofContent (ofLog l).body, l, ⟨0, 0⟩⟩ ∧
    ((ofLog l).repeated [⟨0, 0⟩, ⟨1, 0⟩]).bind
      (·.tables.logs[Identifier.ofContent (ofLog l).body]?) =
      some ⟨.ofContent (ofLog l).body, l, ⟨1, 0⟩⟩ := by
  refine ⟨⟨"a", 0, [1]⟩, .sample, ?_, ?_, ?_, ?_⟩ <;> decide +kernel

end LedgerIndex
