import LedgerIndex.Proofs.Attributions
import LedgerIndex.Proofs.Checks
import LedgerIndex.Proofs.NewRows

/-!
# Placements

The outputs of a transaction are numbered through, first those on the chain of the writer and
then those to another chain. Each of them has a row under the identifier that its number gives,
with the columns of its variant, and each of its owners is tied to it. No other output is
written, and nobody but owners and signers is tied to anything. What is new about an address
names the address, and the output or the transaction it is tied to.
-/
namespace LedgerIndex

/-- The columns in which the variants of an output differ. -/
structure OutputRow.Has (row : OutputRow) (kind : OutputKind) (amount : UInt64) (group : UInt32)
    (payload : Bytes) (owners : Owners) (lock : Option UInt64) : Prop where
  kind : row.kind = kind
  amount : row.amount = amount
  group : row.group = group
  payload : row.payload = payload
  locktime : row.locktime = owners.locktime
  threshold : row.threshold = owners.threshold
  stakeLocktime : row.stakeLocktime = lock.getD 0
  stakeable : row.stakeable = lock.isSome

/-- A row shows a variant of an output. A locked transfer is shown as the transfer inside it,
with its lock; nothing else that is locked is ever shown. -/
def OutputRow.Shows (row : OutputRow) : OutputState → Prop
  | .transfer amount owners => row.Has .transfer amount 0 [] owners none
  | .lockedTransfer lock (.transfer amount owners) => row.Has .transfer amount 0 [] owners (some lock)
  | .lockedTransfer _ _ => False
  | .nftTransfer group payload owners => row.Has .nftTransfer 0 group payload owners none
  | .nftMint group owners => row.Has .nftMint 0 group [] owners none
  | .fungibleMint owners => row.Has .fungibleMint 0 0 [] owners none

theorem OutputColumns.shows_row {state : OutputState} {c : OutputColumns}
    (columns : state.columns? = some c) (place : Place) (asset : Identifier)
    (stake genesis : Bool) (time : Timestamp) :
    (c.row place asset stake genesis time).Shows state := by
  cases state with
  | lockedTransfer lock inner =>
    cases inner with
    | transfer amount owners =>
      cases columns
      exact ⟨rfl, rfl, rfl, rfl, rfl, rfl, rfl, rfl⟩
    | _ => cases columns
  | _ =>
    cases columns
    exact ⟨rfl, rfl, rfl, rfl, rfl, rfl, rfl, rfl⟩

namespace Transaction

/-- An output has a number in a transaction, and a chain it belongs to; it is staked or not. -/
inductive OutputAt (t : Transaction) (w : Writer) : Nat → String → Bool → Output → Prop
  | base {n : Nat} {o : Output} : t.base.outputs[n]? = some o → OutputAt t w n w.chain false o
  | extra {extra : ExtraOutputs} {n : Nat} {o : Output} : t.extraOutputs = some extra →
    extra.outputs[n]? = some o →
      OutputAt t w (t.base.outputs.length + n) extra.chain.text extra.stake o

def outputId (t : Transaction) (n : Nat) : Identifier :=
  t.base.id.derive (UInt64.ofNat n)

def outputIds (t : Transaction) : List Identifier :=
  (List.range (t.base.outputs.length + t.moreOutputs.length)).map t.outputId

/-- An address is tied to an output on a chain: it owns an output of the transaction, or signs
for one that a base input spends. -/
inductive Ties (t : Transaction) (w : Writer) : Identifier → String → Address → Prop
  | owner {n : Nat} {chain : String} {stake : Bool} {o : Output} {address : Address} :
    t.OutputAt w n chain stake o → address ∈ o.state.owners → Ties t w (t.outputId n) chain address
  | signer {output : Identifier} {address : Address} :
    t.SignedFor output address → Ties t w output w.chain address

structure Describes (t : Transaction) (n : Nat) (chain : String) (stake : Bool) (o : Output)
    (row : OutputRow) : Prop where
  id : row.id = t.outputId n
  transaction : row.transaction = t.base.id
  index : row.index.toNat = n
  chain : row.chain = chain
  asset : row.asset = o.asset
  columns : row.Shows o.state
  stake : row.stake = stake
  frozen : row.frozen = false
  genesis : row.genesis = false

/-- What an owner contributes of the output with a number. -/
structure Credited (t : Transaction) (n : Nat) (address : Address) (row : DeltaRow) : Prop where
  id : row.id = DeltaRow.identity (t.outputId n) address
  output : row.output = t.outputId n
  address : row.address = address
  transaction : row.transaction = t.base.id
  index : row.index.toNat = n

/-- A contribution is that of an owner, or that of a signer to what a base input spends. -/
inductive Contributes (t : Transaction) (w : Writer) : DeltaRow → Prop
  | owner {n : Nat} {chain : String} {stake : Bool} {o : Output} {address : Address}
    {row : DeltaRow} : t.OutputAt w n chain stake o → address ∈ o.state.owners →
      t.Credited n address row → Contributes t w row
  | signer {position : Nat} {i : Input} {all : List Bytes} {signature : Bytes}
    {key : Curve.PublicKey} : t.base.inputs[position]? = some i →
      t.credentials[position]? = some (.signatures all) → signature ∈ all →
      Signer.recover t.unsigned signature = .ok key → Contributes t w
        ⟨DeltaRow.identity i.output key.address, i.output, key.address, i.transaction, i.index⟩

def activity (t : Transaction) (chain : String) (asset : Identifier) (address : Address) :
    ActivityRow :=
  ⟨ActivityRow.identity chain asset address t.base.id, chain, asset, address, t.base.id⟩

/-- The tables have every row that ties an owner to an output. Where such a row was not there
before and its key is a digest, it is the row of this owner and no other, but for a collision. -/
structure Credits (t : Transaction) (before after : Tables) (n : Nat) (chain : String)
    (asset : Identifier) (address : Address) : Prop where
  holding : (t.outputId n, address) ∈ after.holdings
  outgoing : ∃ own row, t.Credited n address own ∧ after.outgoing[own.id]? = some row ∧
    (own.id ∉ before.outgoing → row = own ∨ row.Mistaken own)
  incoming : ∃ own row, t.Credited n address own ∧ after.incoming[own.id]? = some row ∧
    (own.id ∉ before.incoming → row.delta = own ∨ row.delta.Mistaken own)
  presence : (address, chain) ∈ after.presence
  display : address ∈ after.displays
  activity : ∃ row, after.activity[(t.activity chain asset address).id]? = some row ∧
    ((t.activity chain asset address).id ∉ before.activity →
      row = t.activity chain asset address ∨ row.Mistaken (t.activity chain asset address))

/-- What a transaction does about outputs when it takes one state of the tables to another. -/
structure Places (t : Transaction) (w : Writer) (ctx : Context) (before after : Tables) :
    Prop where
  outputs : ∀ id, id ∈ after.outputs ↔ id ∈ before.outputs ∨ id ∈ t.outputIds
  others : ∀ id, id ∉ t.outputIds → after.outputs[id]? = before.outputs[id]?
  fresh : ∀ n chain stake o, t.OutputAt w n chain stake o →
    before.outputs[t.outputId n]? = none →
      ∃ row, after.outputs[t.outputId n]? = some row ∧ t.Describes n chain stake o row ∧
        row.created = ctx.time
  overwritten : ∀ n chain stake o, t.OutputAt w n chain stake o → ∀ old,
    before.outputs[t.outputId n]? = some old → ctx.overwrite = true →
      ∃ row, after.outputs[t.outputId n]? = some row ∧ t.Describes n chain stake o row ∧
        row.created = old.created
  kept : ∀ n chain stake o, t.OutputAt w n chain stake o → ∀ old,
    before.outputs[t.outputId n]? = some old → ctx.overwrite = false →
      after.outputs[t.outputId n]? = some old
  owners : ∀ n chain stake o, t.OutputAt w n chain stake o → ∀ address ∈ o.state.owners,
    t.Credits before after n chain o.asset address

/-- The rows that a transaction adds about addresses are those of its owners and signers. -/
structure TiesOnly (t : Transaction) (w : Writer) (before after : Tables) : Prop where
  holdings : ∀ k, k ∈ after.holdings ↔ k ∈ before.holdings ∨
    ∃ output chain address, t.Ties w output chain address ∧ (output, address) = k
  presence : ∀ k, k ∈ after.presence ↔ k ∈ before.presence ∨
    ∃ output chain address, t.Ties w output chain address ∧ (address, chain) = k
  displays : ∀ k : Address, k ∈ after.displays ↔ k ∈ before.displays ∨
    ∃ output chain address, t.Ties w output chain address ∧ address = k
  outgoing : ∀ k, k ∈ after.outgoing ↔ k ∈ before.outgoing ∨
    ∃ output chain address, t.Ties w output chain address ∧ DeltaRow.identity output address = k
  incoming : ∀ k, k ∈ after.incoming ↔ k ∈ before.incoming ∨
    ∃ output chain address, t.Ties w output chain address ∧ DeltaRow.identity output address = k
  activity : ∀ k, k ∈ after.activity ↔ k ∈ before.activity ∨
    ∃ n chain stake o address, t.OutputAt w n chain stake o ∧ address ∈ o.state.owners ∧
      (t.activity chain o.asset address).id = k

/-- The columns of the rows about addresses that were not there before. -/
structure Introduces (t : Transaction) (w : Writer) (ctx : Context) (before after : Tables) :
    Prop where
  holdings : before.holdings.Brings
    (fun k row => row = ⟨k.1, k.2, t.lastSignature? k.1 k.2, ctx.time⟩) after.holdings
  presence : before.presence.Brings (fun k row => row = ⟨k.1, k.2, ctx.time⟩) after.presence
  displays : before.displays.Brings
    (fun k row => row.address = k ∧ k.display w.part = .ok row.text) after.displays
  outgoing : before.outgoing.Brings (fun k row => row.id = k ∧ t.Contributes w row) after.outgoing
  incoming : before.incoming.Brings (fun k row => row.delta.id = k ∧ t.Contributes w row.delta)
    after.incoming
  activity : before.activity.Brings
    (fun k row => row.id = k ∧ ∃ n chain stake o address, t.OutputAt w n chain stake o ∧
      address ∈ o.state.owners ∧ row = t.activity chain o.asset address) after.activity

variable {t : Transaction} {w : Writer}

theorem Credited.filedUnder {n : Nat} {address : Address} {row : DeltaRow}
    (h : t.Credited n address row) : row.FiledUnder row.id := by
  have wide : row.index.toUInt64 = UInt64.ofNat n := by
    rw [← h.index]
    simp
  refine ⟨rfl, ?_, ?_⟩
  · rw [h.id, h.output, h.address]
  · rw [h.transaction, h.output, wide, outputId]

theorem Contributes.filedUnder {row : DeltaRow} (h : t.Contributes w row) :
    row.FiledUnder row.id := by
  cases h with
  | owner _ _ credited => exact credited.filedUnder
  | signer => exact ⟨rfl, rfl, rfl⟩

theorem OutputAt.lt {n : Nat} {chain : String} {stake : Bool} {o : Output}
    (h : t.OutputAt w n chain stake o) :
    n < t.base.outputs.length + t.moreOutputs.length := by
  cases h with
  | base at_ =>
    obtain ⟨short, -⟩ := List.getElem?_eq_some_iff.mp at_
    omega
  | extra more at_ =>
    obtain ⟨short, -⟩ := List.getElem?_eq_some_iff.mp at_
    simp only [moreOutputs, more, Option.elim_some]
    omega

theorem OutputAt.mem {n : Nat} {chain : String} {stake : Bool} {o : Output}
    (h : t.OutputAt w n chain stake o) : o ∈ t.base.outputs ++ t.moreOutputs := by
  cases h with
  | base at_ => exact List.mem_append_left _ (List.mem_of_getElem? at_)
  | extra more at_ =>
    rw [moreOutputs, more]
    exact List.mem_append_right _ (List.mem_of_getElem? at_)

def placement (t : Transaction) (n : Nat) (chain : String) (stake : Bool) (o : Output) :
    Placement :=
  ⟨⟨t.base.id, UInt32.ofNat n, chain⟩, stake, o⟩

theorem mem_placements {p : Placement} : p ∈ t.placements w ↔
    ∃ n chain stake o, t.OutputAt w n chain stake o ∧ t.placement n chain stake o = p := by
  rw [placements, List.mem_append]
  constructor
  · rintro (base | more)
    · obtain ⟨⟨o, n⟩, at_, rfl⟩ := List.mem_map.mp base
      exact ⟨n, _, _, o, .base (List.mem_zipIdx_iff_getElem?.mp at_), rfl⟩
    · cases there : t.extraOutputs with
      | none => simp [there] at more
      | some extra =>
        rw [there] at more
        obtain ⟨⟨o, n⟩, at_, rfl⟩ := List.mem_map.mp more
        obtain ⟨past, at_⟩ := List.mk_mem_zipIdx_iff_le_and_getElem?_sub.mp at_
        have number := OutputAt.extra (w := w) there at_
        rw [Nat.add_sub_cancel' past] at number
        exact ⟨n, _, _, o, number, rfl⟩
  · rintro ⟨n, chain, stake, o, number, rfl⟩
    cases number with
    | base at_ => exact .inl (List.mem_map.mpr ⟨(o, n), List.mem_zipIdx_iff_getElem?.mpr at_, rfl⟩)
    | @extra extra n _ there at_ =>
      rw [there]
      refine .inr (List.mem_map.mpr ⟨(o, t.base.outputs.length + n), ?_, rfl⟩)
      rw [List.mk_mem_zipIdx_iff_le_and_getElem?_sub, Nat.add_sub_cancel_left]
      exact ⟨Nat.le_add_right _ _, at_⟩

/-- The activities that are posted are those of the owners. -/
theorem mem_active_postings {row : ActivityRow} :
    row ∈ (w.postings t).filterMap Posting.active? ↔
      ∃ n chain stake o address, t.OutputAt w n chain stake o ∧ address ∈ o.state.owners ∧
        t.activity chain o.asset address = row := by
  simp only [w.active_postings, List.mem_flatMap, List.mem_map]
  constructor
  · rintro ⟨p, placed, address, owns, rfl⟩
    obtain ⟨n, chain, stake, o, number, rfl⟩ := mem_placements.mp placed
    exact ⟨n, chain, stake, o, address, number, owns, rfl⟩
  · rintro ⟨n, chain, stake, o, address, number, owns, rfl⟩
    exact ⟨_, mem_placements.mpr ⟨n, chain, stake, o, number, rfl⟩, address, owns, rfl⟩

/-- Numbers of 32 bits give outputs the same identifiers as wider ones. -/
theorem output_placement {n : Nat} (small : n < 2 ^ 32) (chain : String) (stake : Bool)
    (o : Output) : (t.placement n chain stake o).place.output = t.outputId n := by
  have wide : (UInt32.ofNat n).toUInt64 = UInt64.ofNat n := by
    apply UInt64.toNat_inj.mp
    rw [UInt32.toNat_toUInt64, UInt32.toNat_ofNat_of_lt' small,
      UInt64.toNat_ofNat_of_lt' (Nat.lt_of_lt_of_le small (by decide))]
  exact congrArg t.base.id.derive wide

theorem map_output_placements
    (numbered : t.base.outputs.length + t.moreOutputs.length ≤ 2 ^ 32) :
    (t.placements w).map (·.place.output) = t.outputIds := by
  have renumber (os : List Output) (start : Nat) (chain : String) (stake : Bool)
      (bound : start + os.length ≤ 2 ^ 32) :
      ((os.zipIdx start).map fun x => t.placement x.2 chain stake x.1).map (·.place.output) =
        (List.range' start os.length).map t.outputId := by
    rw [← List.zipIdx_map_snd, List.map_map, List.map_map]
    refine List.map_congr_left fun x member => ?_
    have below := List.snd_lt_add_of_mem_zipIdx member
    exact output_placement (Nat.lt_of_lt_of_le below (by omega)) chain stake x.1
  have base := renumber t.base.outputs 0 w.chain false (by omega)
  rw [placements, List.map_append, outputIds, List.range_eq_range', ← List.range'_append_1,
    List.map_append, Nat.zero_add]
  refine congrArg₂ _ base ?_
  unfold moreOutputs at *
  cases there : t.extraOutputs with
  | none => rfl
  | some extra =>
    rw [there] at numbered
    exact renumber extra.outputs _ extra.chain.text extra.stake numbered

namespace Fills

variable {ctx : Context} {session : Session}

theorem columns (h : t.Fills w ctx session) {n : Nat} {chain : String} {stake : Bool}
    {o : Output} (number : t.OutputAt w n chain stake o) : ∃ c, o.state.columns? = some c := by
  obtain ⟨c, columns, -⟩ := h.accepts.outputs o number.mem
  exact ⟨c, columns⟩

theorem number_lt (h : t.Fills w ctx session) {n : Nat} {chain : String} {stake : Bool}
    {o : Output} (number : t.OutputAt w n chain stake o) : n < 2 ^ 32 :=
  Nat.lt_of_lt_of_le number.lt h.accepts.numbered

theorem keys_outputs (h : t.Fills w ctx session) :
    Puts.outputs.keys (w.changesOf ctx (w.postings t)) = t.outputIds := by
  rw [w.keys_outputs, w.placed_postings, ← map_output_placements (w := w) h.accepts.numbered,
    List.map_eq_flatMap]
  refine List.flatMap_congr fun p placed => ?_
  obtain ⟨n, chain, stake, o, number, rfl⟩ := mem_placements.mp placed
  obtain ⟨c, columns⟩ := h.columns number
  simp [placement, columns]

/-- The row of an output is what its one write makes of the row before: without one it is new,
and where rows are written over only the time of the old one stays. -/
theorem getElem?_outputs (h : t.Fills w ctx session) (distinct : t.outputIds.Nodup)
    (store : Store) {n : Nat} {chain : String} {stake : Bool} {o : Output}
    (number : t.OutputAt w n chain stake o) :
    ∃ row : Timestamp → OutputRow,
      (∀ time, t.Describes n chain stake o (row time) ∧ (row time).created = time) ∧
      (store.commit session).tables.outputs[t.outputId n]? =
        some ((store.tables.outputs[t.outputId n]?.map fun old =>
          if ctx.overwrite then row old.created else old).getD (row ctx.time)) := by
  obtain ⟨c, columns⟩ := h.columns number
  let p := t.placement n chain stake o
  let row := c.row p.place o.asset stake false
  have identifier : p.place.output = t.outputId n := output_placement (h.number_lt number) ..
  have written : Change.output (row ctx.time) ctx.overwrite ∈ w.changesOf ctx (w.postings t) :=
    List.mem_flatMap.mpr ⟨_, w.output_mem_postings t
      (mem_placements.mpr ⟨n, chain, stake, o, number, rfl⟩) columns, List.mem_singleton_self _⟩
  rw [← h.keys_outputs] at distinct
  have result := Puts.outputs.getElem?_applyAll_of_nodup store.tables distinct written rfl
  have described (time : Timestamp) : t.Describes n chain stake o (row time) := {
    id := identifier
    transaction := rfl
    index := UInt32.toNat_ofNat_of_lt' (h.number_lt number)
    chain := rfl
    asset := rfl
    columns := OutputColumns.shows_row columns ..
    stake := rfl
    frozen := rfl
    genesis := rfl }
  refine ⟨row, fun time => ⟨described time, rfl⟩, ?_⟩
  rw [h.tables_eq, ← (described ctx.time).id]
  exact result

theorem exists_ties (h : t.Fills w ctx session) (P : Identifier → String → Address → Prop) :
    (∃ x ∈ (w.postings t).filterMap Posting.tied?, P x.1.output x.1.chain x.2) ↔
      ∃ output chain address, t.Ties w output chain address ∧ P output chain address := by
  rw [t.exists_tied w]
  constructor
  · rintro (⟨output, address, signs, holds⟩ | ⟨p, placed, address, owns, holds⟩)
    · exact ⟨output, w.chain, address, .signer signs, holds⟩
    · obtain ⟨n, chain, stake, o, number, rfl⟩ := mem_placements.mp placed
      rw [output_placement (h.number_lt number)] at holds
      exact ⟨_, chain, address, .owner number owns, holds⟩
  · rintro ⟨output, chain, address, ties, holds⟩
    cases ties with
    | @owner n _ stake o _ number owns =>
      refine .inr ⟨_, mem_placements.mpr ⟨n, chain, stake, o, number, rfl⟩, address, owns, ?_⟩
      rwa [output_placement (h.number_lt number)]
    | signer signs => exact .inl ⟨output, address, signs, holds⟩

theorem tiesOnly (h : t.Fills w ctx session) (store : Store) :
    t.TiesOnly w store.tables (store.commit session).tables := by
  have tied {κ : Type} (key : Identifier → String → Address → κ) (k : κ) :
      k ∈ ((w.postings t).filterMap Posting.tied?).map
          (fun x => key x.1.output x.1.chain x.2) ↔
        ∃ output chain address, t.Ties w output chain address ∧ key output chain address = k := by
    rw [List.mem_map]
    exact h.exists_ties fun output chain address => key output chain address = k
  rw [h.tables_eq]
  constructor
  case holdings =>
    intro k
    rw [w.mem_holdings]
    exact or_congr_right (tied (fun output _ address => (output, address)) k)
  case presence =>
    intro k
    refine (Puts.presence.mem_applyAll _ _ k).trans (or_congr_right ?_)
    rw [w.keys_presence]
    exact tied (fun _ chain address => (address, chain)) k
  case displays =>
    intro k
    refine (Puts.displays.mem_applyAll _ _ k).trans (or_congr_right ?_)
    rw [w.keys_displays]
    exact tied (fun _ _ address => address) k
  case outgoing =>
    intro k
    refine (Puts.outgoing.mem_applyAll _ _ k).trans (or_congr_right ?_)
    rw [w.keys_outgoing]
    exact tied (fun output _ address => DeltaRow.identity output address) k
  case incoming =>
    intro k
    rw [w.mem_incoming]
    exact or_congr_right (tied (fun output _ address => DeltaRow.identity output address) k)
  case activity =>
    intro k
    refine (Puts.activity.mem_applyAll _ _ k).trans (or_congr_right ?_)
    rw [w.keys_activity, List.mem_map]
    constructor
    · rintro ⟨row, posted, rfl⟩
      obtain ⟨n, chain, stake, o, address, number, owns, rfl⟩ := mem_active_postings.mp posted
      exact ⟨n, chain, stake, o, address, number, owns, rfl⟩
    · rintro ⟨n, chain, stake, o, address, number, owns, rfl⟩
      exact ⟨_, mem_active_postings.mpr ⟨n, chain, stake, o, address, number, owns, rfl⟩, rfl⟩

theorem credited_placement (h : t.Fills w ctx session) {n : Nat} {chain : String} {stake : Bool}
    {o : Output} (number : t.OutputAt w n chain stake o) (address : Address) :
    t.Credited n address ((t.placement n chain stake o).place.delta address) := by
  have identifier : (t.placement n chain stake o).place.output = t.outputId n :=
    output_placement (h.number_lt number) ..
  exact {
    id := by rw [Place.delta_id, identifier]
    output := by rw [Place.delta_output, identifier]
    address := Place.delta_address _ _
    transaction := rfl
    index := UInt32.toNat_ofNat_of_lt' (h.number_lt number) }

/-- The postings of a transaction contribute what its owners and signers do. -/
theorem contributes (h : t.Fills w ctx session) {k : Identifier} {row : DeltaRow}
    (posted : Posting.Contributes (w.postings t) k row) : row.id = k ∧ t.Contributes w row := by
  obtain ⟨id, x, tied, rfl⟩ := posted
  refine ⟨id, ?_⟩
  rw [w.tied_postings] at tied
  rcases List.mem_append.mp tied with signer | owner
  · obtain ⟨a, member, rfl⟩ := List.mem_map.mp signer
    obtain ⟨position, at_, signs, recovered⟩ := mem_attributions.mp member
    obtain ⟨all, beside, given⟩ := Credential.mem_signaturesAt.mp signs
    exact .signer at_ beside given recovered
  · obtain ⟨p, placed, among⟩ := List.mem_flatMap.mp owner
    obtain ⟨address, owns, rfl⟩ := List.mem_map.mp among
    obtain ⟨n, chain, stake, o, number, rfl⟩ := mem_placements.mp placed
    exact .owner number owns (h.credited_placement number address)

theorem displays_of_ties (h : t.Fills w ctx session) {output : Identifier} {chain : String}
    {address : Address} (ties : t.Ties w output chain address) : w.Displays address := by
  cases ties with
  | @owner n _ stake o _ number owns =>
    obtain ⟨c, columns, shown⟩ := h.accepts.outputs o number.mem
    rw [o.state.owners_eq, columns] at owns
    exact shown address owns
  | signer signs =>
    obtain ⟨position, i, all, signature, key, at_, beside, given, recovered, -, rfl⟩ := signs
    have signs := Credential.mem_signaturesAt.mpr ⟨all, beside, given⟩
    obtain ⟨key', recovered', shown⟩ := h.accepts.signers position i signature at_ signs
    cases recovered.symm.trans recovered'
    exact shown

theorem introduces (h : t.Fills w ctx session) (store : Store) :
    t.Introduces w ctx store.tables (store.commit session).tables := by
  have gains : store.tables.Gains w ctx (w.postings t) (store.commit session).tables := by
    rw [h.tables_eq]
    exact (Tables.Gains.refl ..).changesOf fun _ => id
  constructor
  case holdings =>
    rintro ⟨output, address⟩ row found
    refine (em _).imp_right fun new => ?_
    obtain ⟨same, created⟩ := gains.holdings.of_notMem new found
    cases same
    have signed := h.signature?_eq store row.output row.address
    rw [Tables.signature?, found, Tables.signature?, Std.ExtTreeMap.getElem?_eq_none new] at signed
    simp only [Option.bind_some, Option.bind_none, Option.or_none] at signed
    rw [← signed, ← created]
  case presence => exact gains.presence
  case displays =>
    intro k row found
    refine (em _).imp_right fun new => ?_
    obtain rfl := gains.displays.of_notMem new found
    have known := ((h.tiesOnly store).displays k).mp (Table.mem_iff_getElem?.mpr ⟨_, found⟩)
    obtain ⟨output, chain, address, ties, rfl⟩ := known.resolve_left new
    obtain ⟨text, shown⟩ := h.displays_of_ties ties
    exact ⟨rfl, by simp [Writer.displayed, shown, Except.toOption]⟩
  case outgoing => exact fun k row found => (gains.outgoing k row found).imp_right h.contributes
  case incoming => exact fun k row found => (gains.incoming k row found).imp_right h.contributes
  case activity =>
    intro k row found
    rcases gains.activity k row found with known | ⟨id, posted⟩
    · exact .inl known
    · obtain ⟨n, chain, stake, o, address, number, owns, same⟩ := mem_active_postings.mp posted
      exact .inr ⟨id, n, chain, stake, o, address, number, owns, same.symm⟩

/-- Where all that is new contributes, a row that an owner's contribution stands under is that
contribution, or there is a collision. -/
theorem exists_credited (h : t.Fills w ctx session) {n : Nat} {chain : String} {stake : Bool}
    {o : Output} (number : t.OutputAt w n chain stake o) {address : Address} {ν : Type}
    {before after : Table Identifier ν} (delta : ν → DeltaRow)
    (new : before.Brings (fun k row => (delta row).id = k ∧ t.Contributes w (delta row)) after)
    (known : DeltaRow.identity (t.outputId n) address ∈ after) :
    ∃ own row, t.Credited n address own ∧ after[own.id]? = some row ∧
      (own.id ∉ before → delta row = own ∨ (delta row).Mistaken own) := by
  have own := h.credited_placement number address
  rw [← own.id] at known
  obtain ⟨row, found⟩ := Table.mem_iff_getElem?.mp known
  refine ⟨_, row, own, found, fun absent => ?_⟩
  obtain ⟨id, contributes⟩ := new.of_notMem absent found
  exact (id ▸ contributes.filedUnder).eq_or_mistaken own.filedUnder

theorem credits (h : t.Fills w ctx session) (store : Store) {n : Nat} {chain : String}
    {stake : Bool} {o : Output} (number : t.OutputAt w n chain stake o) {address : Address}
    (owns : address ∈ o.state.owners) :
    t.Credits store.tables (store.commit session).tables n chain o.asset address := by
  have only := h.tiesOnly store
  have new := h.introduces store
  have ties : t.Ties w (t.outputId n) chain address := .owner number owns
  constructor
  case holding => exact (only.holdings _).mpr (.inr ⟨_, _, _, ties, rfl⟩)
  case presence => exact (only.presence _).mpr (.inr ⟨_, _, _, ties, rfl⟩)
  case display => exact (only.displays _).mpr (.inr ⟨_, _, _, ties, rfl⟩)
  case outgoing =>
    exact h.exists_credited number id new.outgoing
      ((only.outgoing _).mpr (.inr ⟨_, _, _, ties, rfl⟩))
  case incoming =>
    exact h.exists_credited number IncomingRow.delta new.incoming
      ((only.incoming _).mpr (.inr ⟨_, _, _, ties, rfl⟩))
  case activity =>
    obtain ⟨row, found⟩ := Table.mem_iff_getElem?.mp
      ((only.activity _).mpr (.inr ⟨n, chain, stake, o, address, number, owns, rfl⟩))
    refine ⟨row, found, fun absent => ?_⟩
    obtain ⟨id, n', chain', stake', o', address', -, -, rfl⟩ := new.activity.of_notMem absent found
    exact ActivityRow.FiledUnder.eq_or_mistaken ⟨id, id⟩ ⟨rfl, rfl⟩

/-- Whatever the tables are that a transaction is committed to, it places exactly its outputs,
each as what it is under its number, and ties exactly their owners and its signers. -/
theorem places (h : t.Fills w ctx session) (distinct : t.outputIds.Nodup) (store : Store) :
    t.Places w ctx store.tables (store.commit session).tables ∧
      t.TiesOnly w store.tables (store.commit session).tables ∧
      t.Introduces w ctx store.tables (store.commit session).tables := by
  refine ⟨?_, h.tiesOnly store, h.introduces store⟩
  constructor
  case outputs =>
    intro id
    rw [h.tables_eq, ← h.keys_outputs]
    exact Puts.outputs.mem_applyAll _ _ id
  case others =>
    intro id unwritten
    rw [h.tables_eq]
    rw [← h.keys_outputs] at unwritten
    exact Puts.outputs.getElem?_applyAll_of_notMem _ unwritten
  case fresh =>
    intro n chain stake o number absent
    obtain ⟨row, described, result⟩ := h.getElem?_outputs distinct store number
    rw [absent] at result
    exact ⟨row ctx.time, result, described ctx.time⟩
  case overwritten =>
    intro n chain stake o number old present overwrites
    obtain ⟨row, described, result⟩ := h.getElem?_outputs distinct store number
    rw [present, overwrites] at result
    exact ⟨row old.created, result, described old.created⟩
  case kept =>
    intro n chain stake o number old present off
    obtain ⟨row, -, result⟩ := h.getElem?_outputs distinct store number
    rw [present, off] at result
    exact result
  case owners =>
    intro n chain stake o number address owns
    exact h.credits store number owns

/-- A transfer on the chain of the writer, and to another chain a staked and locked one that
names one of its two owners twice. Both hold it, though none of their rows was there before. -/
theorem places_lockedStake : ∃ (t : Transaction) (session : Session) (row : OutputRow)
    (other : Address), other ≠ default ∧
      t.Fills Settings.plain.writer ⟨default, false⟩ session ∧ t.outputIds.Nodup ∧
      (Store.empty.commit session).tables.outputs[t.outputId 1]? = some row ∧
      row.amount = 20 ∧ row.stakeLocktime = 5 ∧ row.stake = true ∧
      ∀ owner ∈ [default, other],
        (Store.empty.commit session).tables.holdings[(t.outputId 1, owner)]? =
          some ⟨t.outputId 1, owner, none, default⟩ ∧
        ∃ own contributed, t.Credited 1 owner own ∧
          (Store.empty.commit session).tables.outgoing[own.id]? = some contributed ∧
          (contributed = own ∨ contributed.Mistaken own) := by
  let other : Address := ⟨List.replicate 20 7, List.length_replicate⟩
  let owners : List Address := [default, other, default]
  let locked : Output := ⟨default, .lockedTransfer 5 (.transfer 20 ⟨0, 1, owners⟩)⟩
  let t : Transaction :=
    { Transaction.sample default [] [⟨default, .transfer 30 ⟨0, 1, [default]⟩⟩] with
      extraOutputs := some ⟨default, [locked], true⟩ }
  have filled : t.Fills Settings.plain.writer ⟨default, false⟩ _ := .of_run rfl
  have distinct : t.outputIds.Nodup := by decide +kernel
  have number : t.OutputAt Settings.plain.writer 1 (default : Identifier).text true locked :=
    @OutputAt.extra t _ ⟨default, [locked], true⟩ 0 locked rfl rfl
  obtain ⟨placed, -, new⟩ := places filled distinct .empty
  have absent : Store.empty.tables.outputs[t.outputId 1]? = none := Std.ExtTreeMap.getElem?_empty
  obtain ⟨row, found, described, -⟩ := placed.fresh 1 _ _ _ number absent
  have shown : row.Has .transfer 20 0 [] ⟨0, 1, owners⟩ (some 5) := described.columns
  refine ⟨t, _, row, other, by decide, filled, distinct, found, shown.amount, shown.stakeLocktime,
    described.stake, fun owner either => ?_⟩
  have owns : owner ∈ locked.state.owners := List.mem_of_mem_take (i := 2) either
  have credits := placed.owners 1 _ _ _ number owner owns
  obtain ⟨held, holds⟩ := Table.mem_iff_getElem?.mp credits.holding
  obtain ⟨own, contributed, credited, contributes, same⟩ := credits.outgoing
  obtain rfl := new.holdings.of_notMem Std.ExtTreeMap.not_mem_empty holds
  exact ⟨holds, own, contributed, credited, contributes, same Std.ExtTreeMap.not_mem_empty⟩

end Fills
end Transaction
end LedgerIndex
