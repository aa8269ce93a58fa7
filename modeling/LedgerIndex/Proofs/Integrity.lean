import LedgerIndex.Proofs.History
import LedgerIndex.Proofs.Rows

/-!
# Integrity of the index

Rows refer to one another by derived identifiers. In every store that comes about, each row
stands under the key that its own columns give, both tables of contributions agree, and a
contribution, the holding of its output by its address, and the rows of that address come
together. One posting preserves all of that, so a session does.
-/
namespace LedgerIndex

/-- An output stands under the identifier that follows from its transaction and position. -/
def OutputRow.FiledUnder (k : Identifier) (row : OutputRow) : Prop :=
  row.id = k ∧ row.transaction.derive row.index.toUInt64 = k

def RedemptionRow.FiledUnder (k : Identifier) (row : RedemptionRow) : Prop :=
  row.id = k ∧ row.transaction.derive row.index.toUInt64 = k

/-- A contribution stands under the identity of its output and address, and its output is the
one at its transaction and position. -/
def DeltaRow.FiledUnder (k : Identifier) (row : DeltaRow) : Prop :=
  row.id = k ∧ DeltaRow.identity row.output row.address = k ∧
    row.transaction.derive row.index.toUInt64 = row.output

def HoldingRow.FiledUnder (k : Identifier × Address) (row : HoldingRow) : Prop :=
  (row.output, row.address) = k

namespace Tables

/-- A holding has a contribution under its identity, and its address has been displayed and
seen on some chain. -/
structure Backed (t : Tables) (output : Identifier) (address : Address) : Prop where
  contribution : DeltaRow.identity output address ∈ t.outgoing
  display : address ∈ t.displays
  presence : ∃ chain, (address, chain) ∈ t.presence

/-- The rows of the index fit together. -/
structure Integral (t : Tables) : Prop where
  outputs : t.outputs.Every OutputRow.FiledUnder
  redemptions : t.redemptions.Every RedemptionRow.FiledUnder
  contributions : t.outgoing.Every DeltaRow.FiledUnder
  /-- Both tables of contributions have the same keys and the same rows. -/
  mirrored : ∀ k : Identifier, t.incoming[k]?.map (·.delta) = t.outgoing[k]?
  held : t.outgoing.Every fun _ d => (d.output, d.address) ∈ t.holdings
  holdings : t.holdings.Every HoldingRow.FiledUnder
  backed : ∀ output address, (output, address) ∈ t.holdings → t.Backed output address

theorem Integral.empty : Tables.empty.Integral where
  outputs := .empty
  redemptions := .empty
  contributions := .empty
  mirrored k := by simp [Tables.empty]
  held := .empty
  holdings := .empty
  backed output address h := by simp [Tables.empty] at h

/-- Tables that no row of the index refers to do not matter. -/
theorem Integral.congr {t t' : Tables} (h : t.Integral) (outputs : t'.outputs = t.outputs)
    (redemptions : t'.redemptions = t.redemptions) (outgoing : t'.outgoing = t.outgoing)
    (incoming : t'.incoming = t.incoming) (holdings : t'.holdings = t.holdings)
    (displays : t'.displays = t.displays) (presence : t'.presence = t.presence) :
    t'.Integral where
  outputs := outputs ▸ h.outputs
  redemptions := redemptions ▸ h.redemptions
  contributions := outgoing ▸ h.contributions
  mirrored := by
    rw [incoming, outgoing]
    exact h.mirrored
  held := by
    rw [outgoing, holdings]
    exact h.held
  holdings := holdings ▸ h.holdings
  backed := by
    rw [holdings]
    intro output address held
    obtain ⟨contribution, display, seen⟩ := h.backed output address held
    exact ⟨outgoing ▸ contribution, displays ▸ display, presence ▸ seen⟩

/-- What rests on a holding still does when rows have been added. -/
theorem Backed.later {t t' : Tables} {output : Identifier} {address : Address}
    (h : t.Backed output address) (outgoing : ∀ k ∈ t.outgoing, k ∈ t'.outgoing)
    (displays : ∀ k ∈ t.displays, k ∈ t'.displays)
    (presence : ∀ k ∈ t.presence, k ∈ t'.presence) : t'.Backed output address where
  contribution := outgoing _ h.contribution
  display := displays _ h.display
  presence := by
    obtain ⟨chain, seen⟩ := h.presence
    exact ⟨chain, presence _ seen⟩

end Tables

namespace Writer

open Change

variable {t : Tables} (w : Writer) (ctx : Context)

theorem applyAll_tie (t : Tables) (place : Place) (address : Address)
    (signature : Option Bytes) :
    applyAll t (w.changes ctx (.tie place address signature)) =
      { t with
        presence := t.presence.upsertCarrying (address, place.chain)
          ⟨address, place.chain, ctx.time⟩ ctx.overwrite fun old new =>
            { new with created := old.created }
        displays := t.displays.upsert address ⟨address, w.displayed address⟩ ctx.overwrite
        outgoing := t.outgoing.insertNew (place.delta address).id (place.delta address)
        incoming := t.incoming.insertNew (place.delta address).id ⟨place.delta address, false⟩
        holdings :=
          let held := t.holdings.upsertCarrying (place.output, address)
            ⟨place.output, address, signature, ctx.time⟩ ctx.overwrite carryHolding
          if signature.isSome then
            held.update (place.output, address) fun row => { row with signature := signature }
          else held } := by
  cases signature <;> rfl

theorem mem_holdings_tie (t : Tables) (place : Place) (address : Address)
    (signature : Option Bytes) (k : Identifier × Address) :
    k ∈ (applyAll t (w.changes ctx (.tie place address signature))).holdings ↔
      (place.output, address) = k ∨ k ∈ t.holdings := by
  rw [applyAll_tie]
  cases signature <;> simp [Table.upsertCarrying]

theorem every_holdings_tie (h : t.holdings.Every HoldingRow.FiledUnder) (place : Place)
    (address : Address) (signature : Option Bytes) :
    (applyAll t (w.changes ctx (.tie place address signature))).holdings.Every
      HoldingRow.FiledUnder := by
  rw [applyAll_tie]
  have held : (t.holdings.upsertCarrying (place.output, address)
      ⟨place.output, address, signature, ctx.time⟩ ctx.overwrite carryHolding).Every
        HoldingRow.FiledUnder := by
    apply Table.Every.put h
    · rfl
    · intro old filed
      split
      · rfl
      · exact filed
  cases signature with
  | none => exact held
  | some value => exact held.update fun old filed => filed

theorem integral_tie (h : t.Integral) (place : Place) (address : Address)
    (signature : Option Bytes) :
    (applyAll t (w.changes ctx (.tie place address signature))).Integral := by
  have keys := w.mem_holdings_tie ctx t place address signature
  have rows := w.every_holdings_tie ctx h.holdings place address signature
  exact {
    outputs := by
      rw [applyAll_tie]
      exact h.outputs
    redemptions := by
      rw [applyAll_tie]
      exact h.redemptions
    contributions := by
      rw [applyAll_tie]
      exact h.contributions.put ⟨rfl, rfl, rfl⟩ fun _ filed => filed
    mirrored := by
      intro k
      rw [applyAll_tie]
      simp only [Table.insertNew, Table.getElem?_put]
      by_cases same : (place.delta address).id = k
      · subst same
        rw [if_pos rfl, if_pos rfl, ← h.mirrored]
        cases t.incoming[(place.delta address).id]? <;> rfl
      · rw [if_neg same, if_neg same, h.mirrored]
    held := by
      have added : (applyAll t (w.changes ctx (.tie place address signature))).outgoing =
          t.outgoing.insertNew (place.delta address).id (place.delta address) := by
        rw [applyAll_tie]
      rw [added]
      apply Table.Every.put
      · intro k d found
        exact (keys _).mpr (.inr (h.held k d found))
      · exact (keys _).mpr (.inl rfl)
      · exact fun _ kept => kept
    holdings := rows
    backed := by
      intro output owner held
      rw [applyAll_tie]
      rcases (keys _).mp held with new | old
      · cases new
        exact {
          contribution := by simp [Table.insertNew, Place.delta]
          display := by simp [Table.upsert]
          presence := ⟨place.chain, by simp [Table.upsertCarrying]⟩ }
      · apply (h.backed output owner old).later
        · intro k known
          simp [Table.insertNew, known]
        · intro k known
          simp [Table.upsert, known]
        · intro k known
          simp [Table.upsertCarrying, known] }

theorem integral_output (h : t.Integral) (place : Place) (asset : Identifier)
    (stake genesis : Bool) (columns : OutputColumns) :
    (applyAll t (w.changes ctx (.output place asset stake genesis columns))).Integral where
  outputs := by
    apply h.outputs.put
    · exact ⟨rfl, rfl⟩
    · intro old filed
      split
      · exact ⟨rfl, rfl⟩
      · exact filed
  redemptions := h.redemptions
  contributions := h.contributions
  mirrored := h.mirrored
  held := h.held
  holdings := h.holdings
  backed o a held := (h.backed o a held).later (fun _ => id) (fun _ => id) fun _ => id

theorem integral_spend (h : t.Integral) (spender : Identifier) (chain : String) (i : Input) :
    (applyAll t (w.changes ctx (.spend spender chain i))).Integral where
  outputs := h.outputs
  redemptions := h.redemptions.put ⟨rfl, rfl⟩ fun _ filed => filed
  contributions := h.contributions
  mirrored := by
    intro k
    change (t.incoming.map fun _ row => markSpent i.output row)[k]?.map (·.delta) = _
    rw [Std.ExtTreeMap.getElem?_map, Option.map_map]
    have delta : ((·.delta) ∘ fun row : IncomingRow => markSpent i.output row) = (·.delta) :=
      funext (markSpent_delta i.output)
    rw [delta]
    exact h.mirrored k
  held := h.held
  holdings := h.holdings
  backed o a held := (h.backed o a held).later (fun _ => id) (fun _ => id) fun _ => id

theorem integral_posting (h : t.Integral) (p : Posting) :
    (applyAll t (w.changes ctx p)).Integral := by
  cases p with
  | tie place address signature => exact w.integral_tie ctx h place address signature
  | output place asset stake genesis columns =>
    exact w.integral_output ctx h place asset stake genesis columns
  | spend spender chain i => exact w.integral_spend ctx h spender chain i
  -- the others write to tables that no row refers to
  | _ => exact h.congr rfl rfl rfl rfl rfl rfl rfl

theorem integral_changesOf (h : t.Integral) (ps : List Posting) :
    (applyAll t (w.changesOf ctx ps)).Integral := by
  induction ps generalizing t with
  | nil => exact h
  | cons p ps ih =>
    rw [changesOf_cons, applyAll_append]
    exact ih (w.integral_posting ctx h p)

end Writer

theorem Work.Fills.integral_commit {work : Work} {session : Session} (filled : work.Fills session)
    {store : Store} (h : store.tables.Integral) : (store.commit session).tables.Integral := by
  change (Change.applyAll _ _).Integral
  rw [filled.staged_eq]
  exact work.writer.integral_changesOf work.context h work.postings

namespace Store.History

variable {works : List Work} {store : Store}

theorem integral_tables (h : History works store) : store.tables.Integral := by
  induction h with
  | blank clock => exact .empty
  | commit work _ filled ih => exact filled.integral_commit ih
  | markReward id _ ih => exact ih.congr rfl rfl rfl rfl rfl rfl rfl
  | insertBlock id parent kind _ ih => exact ih.congr rfl rfl rfl rfl rfl rfl rfl
  | insertReward id block transaction created _ ih => exact ih.congr rfl rfl rfl rfl rfl rfl rfl

/-- Whatever has been committed so far, by whichever writers and in whatever order, the rows of
the index fit together. -/
theorem integral (h : History works store) : store.tables.Integral :=
  h.integral_tables

/-- An output is spent before it is created, and paid out once more as a reward. -/
theorem integral_spentFirst : ∃ store,
    History [.block [.spending], .block [.funding], .reward] store ∧ store.tables.Integral := by
  have spent := (History.blank fun _ => .epoch).commit (.block [.spending]) (.of_run rfl)
  have funded := spent.commit (.block [.funding]) (.of_run rfl)
  have paid := (funded.commit .reward (.of_run rfl)).markReward ""
  exact ⟨_, paid, paid.integral⟩

end Store.History
end LedgerIndex
