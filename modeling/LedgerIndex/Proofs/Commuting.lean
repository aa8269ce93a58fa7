import LedgerIndex.Proofs.Postings
import LedgerIndex.Proofs.Replay
import LedgerIndex.Proofs.Rows

/-!
# Changes that commute

Two changes can be made in either order if they write to different rows, or write the same
row. The postings of different outputs and transactions make such changes, but for the time
at which an address was first seen, which is the time of whichever posting comes first. So
this time is left out here, from the tables and from the changes alike.
-/
namespace LedgerIndex

/-- The tables without the times at which addresses were first seen. -/
def Tables.undated (t : Tables) : Tables :=
  { t with
    addresses := t.addresses.map fun _ row => { row with created := default }
    presence := t.presence.map fun _ row => { row with created := default } }

namespace Change

def undated : Change → Change
  | address row overwrite => address { row with created := default } overwrite
  | presence row overwrite => presence { row with created := default } overwrite
  | c => c

theorem undated_apply (t : Tables) (c : Change) :
    (c.apply t).undated = c.undated.apply t.undated := by
  cases c with
  | address row overwrite =>
    apply Tables.ext
    case addresses =>
      apply Table.map_put
      intro old
      cases overwrite <;> rfl
    all_goals rfl
  | presence row overwrite =>
    apply Tables.ext
    case presence =>
      apply Table.map_put
      intro old
      cases overwrite <;> rfl
    all_goals rfl
  | _ => rfl

theorem undated_applyAll (t : Tables) (cs : List Change) :
    (applyAll t cs).undated = applyAll t.undated (cs.map undated) := by
  induction cs generalizing t with
  | nil => rfl
  | cons c cs ih =>
    rw [applyAll_cons, ih, undated_apply]
    rfl

/-- Two changes write to different rows, or they write the same row in the same way. A spend
does not mark the contribution that the other change makes. -/
def Apart : Change → Change → Prop
  | transaction row _, transaction row' _ => row.id ≠ row'.id
  | output row _, output row' _ => row.id ≠ row'.id
  | redemption row, redemption row' => row.id ≠ row'.id
  | address row o, address row' o' => row.address = row'.address → row = row' ∧ o = o'
  | presence row o, presence row' o' =>
    (row.address, row.chain) = (row'.address, row'.chain) → row = row' ∧ o = o'
  | display row o, display row' o' => row.address = row'.address → row = row' ∧ o = o'
  | holding row _, holding row' _ => (row.output, row.address) ≠ (row'.output, row'.address)
  | holding row _, signature o a _ => (row.output, row.address) ≠ (o, a)
  | signature o a _, holding row _ => (o, a) ≠ (row.output, row.address)
  | signature o a _, signature o' a' _ => (o, a) ≠ (o', a')
  | outgoing row, outgoing row' => row.id ≠ row'.id
  | incoming row, incoming row' => row.id ≠ row'.id
  | incoming row, spent o | spent o, incoming row => row.output ≠ o
  | activity row, activity row' => row.id ≠ row'.id
  | trace row _, trace row' _ => row.id ≠ row'.id
  | log row _, log row' _ => row.id ≠ row'.id
  | _, _ => True

theorem table_undated (c : Change) : c.undated.table = c.table := by
  cases c <;> rfl

theorem Apart.of_table {c d : Change} (different : c.table ≠ d.table) : c.Apart d := by
  cases c <;> cases d <;> trivial

section

open Table

theorem markSpent_eq (output : Identifier) (row : IncomingRow) :
    markSpent output row = ⟨row.delta, row.spent || decide (row.delta.output = output)⟩ := by
  unfold markSpent
  split
  next spent => simp [spent]
  next unspent => simp [unspent]

theorem markSpent_comm (output output' : Identifier) (row : IncomingRow) :
    markSpent output (markSpent output' row) = markSpent output' (markSpent output row) := by
  simp only [markSpent_eq, Bool.or_right_comm]

/-- A contribution to another output is not marked, whether it is there yet or not. -/
theorem incoming_spent_comm {row : DeltaRow} {output : Identifier} (apart : row.output ≠ output)
    (t : Table Identifier IncomingRow) :
    (t.insertNew row.id ⟨row, false⟩).map (fun _ old => markSpent output old) =
      Table.insertNew (t.map fun _ old => markSpent output old) row.id ⟨row, false⟩ := by
  have unmarked : markSpent output ⟨row, false⟩ = ⟨row, false⟩ := if_neg apart
  have swap : (t.put row.id ⟨row, false⟩ id).map (fun _ old => markSpent output old) =
      Table.put (t.map fun _ old => markSpent output old) row.id
        (markSpent output ⟨row, false⟩) id := by
    apply map_put
    intro old
    rfl
  rw [unmarked] at swap
  exact swap

theorem Apart.comm {c d : Change} (apart : c.Apart d) (t : Tables) :
    d.apply (c.apply t) = c.apply (d.apply t) := by
  cases c with
  | transaction row o =>
    cases d with
    | transaction row' o' =>
      exact congrArg ({ t with transactions := · }) ((ActsAt.put _ _ _).comm (.put _ _ _) apart _)
    | _ => rfl
  | output row o =>
    cases d with
    | output row' o' =>
      exact congrArg ({ t with outputs := · }) ((ActsAt.put _ _ _).comm (.put _ _ _) apart _)
    | _ => rfl
  | redemption row =>
    cases d with
    | redemption row' =>
      exact congrArg ({ t with redemptions := · }) ((ActsAt.put _ _ _).comm (.put _ _ _) apart _)
    | _ => rfl
  | address row o =>
    cases d with
    | address row' o' =>
      by_cases shared : row.address = row'.address
      · obtain ⟨rfl, rfl⟩ := apart shared
        rfl
      · exact congrArg ({ t with addresses := · }) ((ActsAt.put _ _ _).comm (.put _ _ _) shared _)
    | _ => rfl
  | presence row o =>
    cases d with
    | presence row' o' =>
      by_cases shared : (row.address, row.chain) = (row'.address, row'.chain)
      · obtain ⟨rfl, rfl⟩ := apart shared
        rfl
      · exact congrArg ({ t with presence := · }) ((ActsAt.put _ _ _).comm (.put _ _ _) shared _)
    | _ => rfl
  | display row o =>
    cases d with
    | display row' o' =>
      by_cases shared : row.address = row'.address
      · obtain ⟨rfl, rfl⟩ := apart shared
        rfl
      · exact congrArg ({ t with displays := · }) ((ActsAt.put _ _ _).comm (.put _ _ _) shared _)
    | _ => rfl
  | holding row o =>
    cases d with
    | holding row' o' =>
      exact congrArg ({ t with holdings := · }) ((ActsAt.put _ _ _).comm (.put _ _ _) apart _)
    | signature output owner value =>
      exact congrArg ({ t with holdings := · }) ((ActsAt.put _ _ _).comm (.update _ _) apart _)
    | _ => rfl
  | signature output owner value =>
    cases d with
    | holding row' o' =>
      exact congrArg ({ t with holdings := · }) ((ActsAt.update _ _).comm (.put _ _ _) apart _)
    | signature output' owner' value' =>
      exact congrArg ({ t with holdings := · }) ((ActsAt.update _ _).comm (.update _ _) apart _)
    | _ => rfl
  | outgoing row =>
    cases d with
    | outgoing row' =>
      exact congrArg ({ t with outgoing := · }) ((ActsAt.put _ _ _).comm (.put _ _ _) apart _)
    | _ => rfl
  | incoming row =>
    cases d with
    | incoming row' =>
      exact congrArg ({ t with incoming := · }) ((ActsAt.put _ _ _).comm (.put _ _ _) apart _)
    | spent output => exact congrArg ({ t with incoming := · }) (incoming_spent_comm apart _)
    | _ => rfl
  | spent output =>
    cases d with
    | incoming row =>
      exact congrArg ({ t with incoming := · }) (incoming_spent_comm apart _).symm
    | spent output' =>
      exact congrArg ({ t with incoming := · }) (map_map_comm (markSpent_comm output' output) _)
    | _ => rfl
  | activity row =>
    cases d with
    | activity row' =>
      exact congrArg ({ t with activity := · }) ((ActsAt.put _ _ _).comm (.put _ _ _) apart _)
    | _ => rfl
  | trace row o =>
    cases d with
    | trace row' o' =>
      exact congrArg ({ t with traces := · }) ((ActsAt.put _ _ _).comm (.put _ _ _) apart _)
    | _ => rfl
  | log row o =>
    cases d with
    | log row' o' =>
      exact congrArg ({ t with logs := · }) ((ActsAt.put _ _ _).comm (.put _ _ _) apart _)
    | _ => rfl

theorem applyAll_comm {cs ds : List Change} (apart : ∀ c ∈ cs, ∀ d ∈ ds, c.Apart d)
    (t : Tables) : applyAll t (cs ++ ds) = applyAll t (ds ++ cs) := by
  have past (c : Change) (hc : ∀ d ∈ ds, c.Apart d) (t : Tables) :
      applyAll (c.apply t) ds = c.apply (applyAll t ds) := by
    clear apart
    induction ds generalizing t with
    | nil => rfl
    | cons d ds ih =>
      rw [applyAll_cons, applyAll_cons, (hc d List.mem_cons_self).comm,
        ih fun e he => hc e (List.mem_cons_of_mem d he)]
  induction cs generalizing t with
  | nil => rw [List.nil_append, List.append_nil]
  | cons c cs ih =>
    have rest := ih (fun b hb => apart b (List.mem_cons_of_mem c hb)) (c.apply t)
    rw [List.cons_append, applyAll_cons, rest, applyAll_append, applyAll_append,
      past c (apart c List.mem_cons_self), applyAll_cons]

end
end Change

namespace Posting

/-- The rows that two postings write have different keys, or they are the same rows but for
the time. A spend is apart from ties to other outputs, which it does not mark. -/
def Apart : Posting → Posting → Prop
  | key k, key k' => k.address = k'.address → k.compressed = k'.compressed
  | tie p a _, tie p' a' _ =>
    p.output ≠ p'.output ∧ DeltaRow.identity p.output a ≠ DeltaRow.identity p'.output a'
  | tie p _ _, spend _ _ i | spend _ _ i, tie p _ _ => p.output ≠ i.output
  | spend _ _ i, spend _ _ i' => i.output ≠ i'.output
  | activity p s a, activity p' s' a' =>
    ActivityRow.identity p.chain s a p.transaction ≠
      ActivityRow.identity p'.chain s' a' p'.transaction
  | output p _ _ _ _, output p' _ _ _ _ => p.output ≠ p'.output
  | transaction t _, transaction t' _ => t.base.id ≠ t'.base.id
  | trace c _, trace c' _ => c ≠ c'
  | log c _, log c' _ => c ≠ c'
  | _, _ => True

def tables : Posting → List TableName
  | key _ => [.addresses]
  | tie _ _ _ => [.presence, .displays, .outgoing, .incoming, .holdings]
  | activity _ _ _ => [.activity]
  | output _ _ _ _ _ => [.outputs]
  | spend _ _ _ => [.incoming, .redemptions]
  | transaction _ _ => [.transactions]
  | trace _ _ => [.traces]
  | log _ _ => [.logs]

end Posting

namespace Writer

open Change

variable (w : Writer) (ctx ctx' : Context)

theorem table_mem_tables {p : Posting} {c : Change} (h : c ∈ w.changes ctx p) :
    c.table ∈ p.tables := by
  cases p with
  | tie place address signature =>
    cases signature <;> revert c <;> simp [changes, Posting.tables, Change.table]
  | _ => revert c; simp [changes, Posting.tables, Change.table]

theorem apart_of_tables {p q : Posting} (different : ∀ n ∈ p.tables, n ∉ q.tables) :
    ∀ c ∈ w.changes ctx p, ∀ d ∈ w.changes ctx' q, c.undated.Apart d.undated := by
  intro c hc d hd
  apply Apart.of_table
  rw [table_undated, table_undated]
  intro same
  exact different _ (w.table_mem_tables ctx hc) (same ▸ w.table_mem_tables ctx' hd)

theorem mem_changes_tie {place : Place} {address : Address} {signature : Option Bytes}
    {c : Change} (h : c ∈ w.changes ctx (.tie place address signature)) :
    c = .presence ⟨address, place.chain, ctx.time⟩ ctx.overwrite ∨
    c = .display ⟨address, w.displayed address⟩ ctx.overwrite ∨
    c = .outgoing (place.delta address) ∨ c = .incoming (place.delta address) ∨
    c = .holding ⟨place.output, address, signature, ctx.time⟩ ctx.overwrite ∨
    c = .signature place.output address signature := by
  cases signature with
  | none =>
    simp only [changes, Option.isSome_none, Bool.false_eq_true, if_false, List.append_nil,
      List.mem_cons, List.not_mem_nil, or_false] at h
    rcases h with h | h | h | h | h <;> simp [h]
  | some value => simpa [changes] using h

theorem apart_ties (same : ctx.overwrite = ctx'.overwrite) {p p' : Place} {a a' : Address}
    {s s' : Option Bytes} (apart : (Posting.tie p a s).Apart (.tie p' a' s')) :
    ∀ c ∈ w.changes ctx (.tie p a s), ∀ d ∈ w.changes ctx' (.tie p' a' s'),
      c.undated.Apart d.undated := by
  have keys : (p.output, a) ≠ (p'.output, a') := fun h => apart.1 (Prod.mk.inj h).1
  have deltas : (p.delta a).id ≠ (p'.delta a').id := apart.2
  intro c hc d hd
  have hc := w.mem_changes_tie ctx hc
  have hd := w.mem_changes_tie ctx' hd
  -- the identities are digests, which are better not looked into
  generalize p.delta a = delta at hc deltas
  generalize p'.delta a' = delta' at hd deltas
  rcases hc with rfl | rfl | rfl | rfl | rfl | rfl
  · rcases hd with rfl | rfl | rfl | rfl | rfl | rfl
    · intro shared
      obtain ⟨owners, chains⟩ := Prod.mk.inj shared
      exact ⟨(PresenceRow.mk.injEq ..).mpr ⟨owners, chains, rfl⟩, same⟩
    all_goals exact True.intro
  · rcases hd with rfl | rfl | rfl | rfl | rfl | rfl
    · exact True.intro
    · rintro rfl
      exact ⟨rfl, same⟩
    all_goals exact True.intro
  · rcases hd with rfl | rfl | rfl | rfl | rfl | rfl
    iterate 2 exact True.intro
    · exact deltas
    all_goals exact True.intro
  · rcases hd with rfl | rfl | rfl | rfl | rfl | rfl
    iterate 3 exact True.intro
    · exact deltas
    all_goals exact True.intro
  · rcases hd with rfl | rfl | rfl | rfl | rfl | rfl
    iterate 4 exact True.intro
    all_goals exact keys
  · rcases hd with rfl | rfl | rfl | rfl | rfl | rfl
    iterate 4 exact True.intro
    all_goals exact keys

theorem apart_singletons {a b : Change} (apart : a.undated.Apart b.undated) :
    ∀ c ∈ [a], ∀ d ∈ [b], c.undated.Apart d.undated := by
  simpa using apart

theorem apart_tie_spend {place : Place} {address : Address} {signature : Option Bytes}
    {spender : Identifier} {chain : String} {i : Input} (apart : place.output ≠ i.output) :
    ∀ c ∈ w.changes ctx (.tie place address signature), ∀ d ∈ w.changes ctx' (.spend spender chain i),
      c.undated.Apart d.undated ∧ d.undated.Apart c.undated := by
  intro c hc d hd
  have either : d = .spent i.output ∨ d = .redemption (redemption spender chain ctx'.time i) := by
    simpa [changes] using hd
  rcases w.mem_changes_tie ctx hc with rfl | rfl | rfl | rfl | rfl | rfl <;>
    rcases either with rfl | rfl
  all_goals try exact ⟨True.intro, True.intro⟩
  exact ⟨apart, apart⟩

theorem apart_spends {spender spender' : Identifier} {chain chain' : String} {i i' : Input}
    (apart : i.output ≠ i'.output) : ∀ c ∈ w.changes ctx (.spend spender chain i),
      ∀ d ∈ w.changes ctx' (.spend spender' chain' i'), c.undated.Apart d.undated := by
  intro c hc d hd
  have either : c = .spent i.output ∨ c = .redemption (redemption spender chain ctx.time i) := by
    simpa [changes] using hc
  have either' : d = .spent i'.output ∨ d = .redemption (redemption spender' chain' ctx'.time i') := by
    simpa [changes] using hd
  rcases either with rfl | rfl <;> rcases either' with rfl | rfl
  all_goals try exact True.intro
  exact apart

/-- Postings that are apart make changes that are apart, but for the time. -/
theorem apart_changes (same : ctx.overwrite = ctx'.overwrite) {p q : Posting} (apart : p.Apart q) :
    ∀ c ∈ w.changes ctx p, ∀ d ∈ w.changes ctx' q, c.undated.Apart d.undated := by
  cases p with
  | key k =>
    cases q with
    | key k' =>
      apply apart_singletons
      intro shared
      exact ⟨(AddressRow.mk.injEq ..).mpr ⟨shared, apart shared, rfl⟩, same⟩
    | _ => exact w.apart_of_tables ctx ctx' (by simp [Posting.tables])
  | tie =>
    cases q with
    | tie => exact w.apart_ties ctx ctx' same apart
    | spend => exact fun c hc d hd => (w.apart_tie_spend ctx ctx' apart c hc d hd).1
    | _ => exact w.apart_of_tables ctx ctx' (by simp [Posting.tables])
  | spend =>
    cases q with
    | tie => exact fun c hc d hd => (w.apart_tie_spend ctx' ctx apart d hd c hc).2
    | spend => exact w.apart_spends ctx ctx' apart
    | _ => exact w.apart_of_tables ctx ctx' (by simp [Posting.tables])
  | activity =>
    cases q with
    | activity => exact apart_singletons apart
    | _ => exact w.apart_of_tables ctx ctx' (by simp [Posting.tables])
  | output =>
    cases q with
    | output => exact apart_singletons apart
    | _ => exact w.apart_of_tables ctx ctx' (by simp [Posting.tables])
  | transaction =>
    cases q with
    | transaction => exact apart_singletons apart
    | _ => exact w.apart_of_tables ctx ctx' (by simp [Posting.tables])
  | trace =>
    cases q with
    | trace => exact apart_singletons apart
    | _ => exact w.apart_of_tables ctx ctx' (by simp [Posting.tables])
  | log =>
    cases q with
    | log => exact apart_singletons apart
    | _ => exact w.apart_of_tables ctx ctx' (by simp [Posting.tables])

end Writer
end LedgerIndex
