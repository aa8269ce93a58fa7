import LedgerIndex.Proofs.Footprints
import LedgerIndex.Proofs.Identities

/-!
# New rows

What the rows about addresses show that some postings add to the tables. A row that was not
there before is the work of the first posting at its key, and whatever comes later leaves the
columns by which it is known. Where the key is a digest, two postings at one key are of the same
row, or what names their rows is a collision.
-/
namespace LedgerIndex

namespace Table

variable {κ ν : Type} [Ord κ] [Std.TransOrd κ] {P : κ → ν → Prop} {earlier t : Table κ ν}

/-- The rows that an earlier state of the table does not have are as `P` says. -/
def Brings (P : κ → ν → Prop) (earlier t : Table κ ν) : Prop :=
  t.Every fun k row => k ∈ earlier ∨ P k row

theorem Brings.refl (t : Table κ ν) : Brings P t t :=
  fun _ row found => .inl (mem_iff_getElem?.mpr ⟨row, found⟩)

theorem Brings.of_notMem (h : Brings P earlier t) {k : κ} {row : ν} (new : k ∉ earlier)
    (found : t[k]? = some row) : P k row :=
  (h k row found).resolve_left new

variable [Std.LawfulEqOrd κ]

theorem Brings.put [DecidableEq κ] {k : κ} {new : ν} {conflict : ν → ν} (h : Brings P earlier t)
    (fresh : P k new) (revised : ∀ old, P k old → P k (conflict old)) :
    Brings P earlier (t.put k new conflict) :=
  Every.put h (.inr fresh) fun old => Or.imp_right (revised old)

theorem Brings.update [DecidableEq κ] {k : κ} {f : ν → ν} (h : Brings P earlier t)
    (revised : ∀ old, P k old → P k (f old)) : Brings P earlier (t.update k f) :=
  Every.update h fun old => Or.imp_right (revised old)

theorem Brings.map {f : ν → ν} (h : Brings P earlier t)
    (revised : ∀ k old, P k old → P k (f old)) : Brings P earlier (t.map fun _ row => f row) := by
  intro k row found
  rw [Std.ExtTreeMap.getElem?_map] at found
  obtain ⟨old, before, rfl⟩ := Option.map_eq_some_iff.mp found
  exact (h k old before).imp_right (revised k old)

end Table

def Posting.Contributes (ps : List Posting) (k : Identifier) (row : DeltaRow) : Prop :=
  row.id = k ∧ ∃ x ∈ ps.filterMap tied?, x.1.delta x.2 = row

/-- A holding stands under its own key, and dates from this context. -/
def HoldingRow.Dates (ctx : Context) (k : Identifier × Address) (row : HoldingRow) : Prop :=
  (row.output, row.address) = k ∧ row.created = ctx.time

/-- What the rows about addresses are that some postings have added. -/
structure Tables.Gains (w : Writer) (ctx : Context) (ps : List Posting) (before after : Tables) :
    Prop where
  holdings : before.holdings.Brings (HoldingRow.Dates ctx) after.holdings
  presence : before.presence.Brings (fun k row => row = ⟨k.1, k.2, ctx.time⟩) after.presence
  displays : before.displays.Brings (fun k row => row = ⟨k, w.displayed k⟩) after.displays
  outgoing : before.outgoing.Brings (Posting.Contributes ps) after.outgoing
  incoming : before.incoming.Brings (fun k row => Posting.Contributes ps k row.delta)
    after.incoming
  activity : before.activity.Brings (fun k row => row.id = k ∧ row ∈ ps.filterMap Posting.active?)
    after.activity

namespace Tables.Gains

open Change

variable {w : Writer} {ctx : Context} {ps : List Posting} {before t : Tables}

theorem refl (w : Writer) (ctx : Context) (ps : List Posting) (t : Tables) :
    t.Gains w ctx ps t :=
  ⟨.refl _, .refl _, .refl _, .refl _, .refl _, .refl _⟩

theorem tie (h : before.Gains w ctx ps t) {place : Place} {address : Address}
    {signature : Option Bytes} (posted : .tie place address signature ∈ ps) :
    before.Gains w ctx ps (applyAll t (w.changes ctx (.tie place address signature))) := by
  have contributes : Posting.Contributes ps (place.delta address).id (place.delta address) :=
    ⟨rfl, _, List.mem_filterMap.mpr ⟨_, posted, rfl⟩, rfl⟩
  rw [w.applyAll_tie]
  constructor
  case holdings =>
    have held : before.holdings.Brings (HoldingRow.Dates ctx)
        (t.holdings.upsertCarrying (place.output, address)
          ⟨place.output, address, signature, ctx.time⟩ ctx.overwrite carryHolding) := by
      refine Table.Brings.put h.holdings ?_ fun old known => ?_
      · exact ⟨rfl, rfl⟩
      · split
        · exact ⟨rfl, known.2⟩
        · exact known
    cases signature with
    | none => exact held
    | some value => exact held.update fun _ known => known
  case presence =>
    refine h.presence.put rfl fun old known => ?_
    subst known
    exact ite_self _
  case displays => exact h.displays.put rfl fun old known => by simp [known]
  case outgoing => exact h.outgoing.put contributes fun _ known => known
  case incoming => exact h.incoming.put contributes fun _ known => known
  case activity => exact h.activity

theorem spend (h : before.Gains w ctx ps t) (spender : Identifier) (chain : String) (i : Input) :
    before.Gains w ctx ps (applyAll t (w.changes ctx (.spend spender chain i))) where
  holdings := h.holdings
  presence := h.presence
  displays := h.displays
  outgoing := h.outgoing
  incoming := h.incoming.map fun k old known => by rwa [markSpent_delta]
  activity := h.activity

theorem posting (h : before.Gains w ctx ps t) {q : Posting} (posted : q ∈ ps) :
    before.Gains w ctx ps (applyAll t (w.changes ctx q)) := by
  cases q with
  | tie place address signature => exact h.tie posted
  | spend spender chain i => exact h.spend spender chain i
  | activity place asset owner =>
    have among : place.activity asset owner ∈ ps.filterMap Posting.active? :=
      List.mem_filterMap.mpr ⟨_, posted, rfl⟩
    exact { h with activity := h.activity.put ⟨rfl, among⟩ fun _ known => known }
  | _ => exact ⟨h.holdings, h.presence, h.displays, h.outgoing, h.incoming, h.activity⟩

theorem changesOf (h : before.Gains w ctx ps t) {qs : List Posting} (posted : qs ⊆ ps) :
    before.Gains w ctx ps (applyAll t (w.changesOf ctx qs)) := by
  induction qs generalizing t with
  | nil => exact h
  | cons q qs ih =>
    rw [Writer.changesOf_cons, applyAll_append]
    obtain ⟨first, rest⟩ := List.cons_subset.mp posted
    exact ih (h.posting first) rest

end Tables.Gains

open Hash.Sha256 (Collision)

/-- Two contributions are taken for one another: their names, or what identifies their outputs,
is a collision. -/
def DeltaRow.Mistaken (row row' : DeltaRow) : Prop :=
  Collision (Bytes.ofString (name row.output row.address))
    (Bytes.ofString (name row'.output row'.address)) ∨
  Collision (Bytes.ofNat 8 row.index.toNat ++ row.transaction.bytes)
    (Bytes.ofNat 8 row'.index.toNat ++ row'.transaction.bytes)

theorem DeltaRow.FiledUnder.eq_or_mistaken {k : Identifier} {row row' : DeltaRow}
    (h : row.FiledUnder k) (h' : row'.FiledUnder k) : row = row' ∨ row.Mistaken row' := by
  obtain ⟨id, named, placed⟩ := h
  obtain ⟨id', named', placed'⟩ := h'
  by_cases names : (row.output, row.address) = (row'.output, row'.address)
  · obtain ⟨output, address⟩ := Prod.mk.inj names
    by_cases places : (row.transaction, row.index.toUInt64) = (row'.transaction, row'.index.toUInt64)
    · obtain ⟨transaction, wide⟩ := Prod.mk.inj places
      have index : row.index = row'.index := UInt32.toUInt64_inj.mp wide
      left
      cases row
      cases row'
      simp_all
    · have collision := Identifier.derive_faithful.collides _ _ places
        ((placed.trans output).trans placed'.symm)
      simp only [UInt32.toNat_toUInt64] at collision
      exact .inr (.inr collision)
  · have collision := identity_faithful.collides _ _ names (named.trans named'.symm)
    exact .inr (.inl collision)

def ActivityRow.FiledUnder (k : Identifier) (row : ActivityRow) : Prop :=
  row.id = k ∧ ActivityRow.identity row.chain row.asset row.address row.transaction = k

/-- Two activities are taken for one another: their names are a collision. -/
def ActivityRow.Mistaken (row row' : ActivityRow) : Prop :=
  Collision (Bytes.ofString (name row.chain row.asset row.address row.transaction))
    (Bytes.ofString (name row'.chain row'.asset row'.address row'.transaction))

theorem ActivityRow.FiledUnder.eq_or_mistaken {k : Identifier} {row row' : ActivityRow}
    (h : row.FiledUnder k) (h' : row'.FiledUnder k) : row = row' ∨ row.Mistaken row' := by
  by_cases columns : (row.chain, row.asset, row.address, row.transaction) =
      (row'.chain, row'.asset, row'.address, row'.transaction)
  · left
    cases row
    cases row'
    simp_all [FiledUnder]
  · have collision := identity_faithful.collides _ _ columns (h.2.trans h'.2.symm)
    exact .inr collision

end LedgerIndex
