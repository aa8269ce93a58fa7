import LedgerIndex.Proofs.Attributions
import LedgerIndex.Proofs.WriteOnce

/-!
# Second spends

An output is redeemed once: a second spend of it leaves the redemption as it is. But whoever
signs the second spend is attributed all the same. Its signature takes the place of the one that
came with the redemption, its holding is stamped anew, and if it was not tied to the output
before it now contributes. So nothing changes about the output exactly if each signer had already
signed for it, last with this very signature and at the time that the clock still shows.
-/
namespace LedgerIndex

namespace Change

def signs (k : Identifier × Address) : Change → Bool
  | signature id owner _ => decide ((id, owner) = k)
  | _ => false

/-- The time of the last of some changes to sign for a holding. The clock shows `clock n` for the
first of the changes, and so on. -/
def signedAt? (clock : Nat → Timestamp) (k : Identifier × Address) :
    Nat → List Change → Option Timestamp
  | _, [] => none
  | n, c :: cs => (signedAt? clock k (n + 1) cs).or (if c.signs k then some (clock n) else none)

variable {clock : Nat → Timestamp} {k : Identifier × Address} {s : Stamps} {time : Timestamp}

theorem isSome_signedAt? {n : Nat} {cs : List Change} :
    (signedAt? clock k n cs).isSome ↔ ∃ c ∈ cs, c.signs k = true := by
  induction cs generalizing n with
  | nil => simp [signedAt?]
  | cons c cs ih =>
    rw [signedAt?, Option.isSome_or, Bool.or_eq_true, ih]
    cases h : c.signs k <;> simp [h]

theorem getElem?_holdings_stamp {c : Change} (keeps : c.Follows false) (now : Timestamp)
    (found : s.holdings[k]? = some time) :
    (c.stamp now s).holdings[k]? = some (if c.signs k then now else time) := by
  cases c with
  | holding row overwrite =>
    cases keeps
    rw [stamp, Table.upsert, Table.getElem?_put]
    by_cases here : (row.output, row.address) = k
    · rw [if_pos here, here, found]
      rfl
    · rw [if_neg here]
      exact found
  | signature output address value =>
    rw [stamp, Table.getElem?_update]
    by_cases here : (output, address) = k
    · simp [signs, here, found]
    · simp [signs, here, found]
  | _ => exact found

/-- Where rows are not written over, a holding is stamped anew only when it is signed. -/
theorem getElem?_holdings_stampAll {cs : List Change} (keeps : ∀ c ∈ cs, c.Follows false) (n : Nat)
    (found : s.holdings[k]? = some time) :
    (stampAll clock n s cs).holdings[k]? = some ((signedAt? clock k n cs).getD time) := by
  induction cs generalizing n s time with
  | nil => exact found
  | cons c cs ih =>
    have first := getElem?_holdings_stamp (keeps c List.mem_cons_self) (clock n) found
    rw [stampAll, ih (fun d member => keeps d (List.mem_cons_of_mem c member)) _ first, signedAt?]
    cases signedAt? clock k (n + 1) cs <;> cases c.signs k <;> rfl

end Change

/-- The time that the clock of a store shows at the last signature of a session for a holding. -/
def Store.signedAt? (store : Store) (session : Session) (k : Identifier × Address) :
    Option Timestamp :=
  Change.signedAt? store.clock k store.writes.length session.staged

/-- The changes of some postings sign for the holdings that the postings sign for. -/
theorem Writer.exists_signs_changesOf (w : Writer) (ctx : Context) (ps : List Posting)
    (k : Identifier × Address) :
    (∃ c ∈ w.changesOf ctx ps, c.signs k = true) ↔ (Posting.lastSigned? ps k).isSome := by
  have each (p : Posting) : (∃ c ∈ w.changes ctx p, c.signs k = true) ↔
      ∃ x, p.signed? = some x ∧ x.1 = k := by
    cases p with
    | tie place address signature =>
      cases signature <;> simp [changes, Change.signs, Posting.signed?]
    | _ => simp [changes, Change.signs, Posting.signed?]
  simp only [changesOf, List.mem_flatMap, Posting.lastSigned?, Option.isSome_map,
    List.getLast?_isSome, ne_eq, List.filter_eq_nil_iff, List.mem_filterMap]
  simp only [not_forall, decide_eq_true_eq, not_not]
  constructor
  · rintro ⟨c, ⟨p, posted, member⟩, signs⟩
    obtain ⟨x, signed, rfl⟩ := (each p).mp ⟨c, member, signs⟩
    exact ⟨x, ⟨p, posted, signed⟩, rfl⟩
  · rintro ⟨x, ⟨p, posted, signed⟩, here⟩
    obtain ⟨c, member, signs⟩ := (each p).mpr ⟨x, signed, here⟩
    exact ⟨c, ⟨p, posted, member⟩, signs⟩

/-- Nothing is different about an output, the marks on its contributions aside. -/
structure Tables.SameAbout (output : Identifier) (t t' : Tables) : Prop where
  redemption : t'.redemptions[output]? = t.redemptions[output]?
  holdings : ∀ address : Address, t'.holdings[(output, address)]? = t.holdings[(output, address)]?
  outgoing : ∀ (k : Identifier) (row : DeltaRow), row.output = output →
    (t'.outgoing[k]? = some row ↔ t.outgoing[k]? = some row)
  incoming : ∀ (k : Identifier) (delta : DeltaRow), delta.output = output →
    (t'.incoming[k]?.map (·.delta) = some delta ↔ t.incoming[k]?.map (·.delta) = some delta)

/-- In tables that fit together nothing else about an output changes where its holdings do not
and nothing is taken away. -/
theorem Tables.SameAbout.of_holdings {t t' : Tables} {overwrite : Bool} {output : Identifier}
    (before : t.Integral) (after : t'.Integral) (advances : t.Advances overwrite t')
    (redeemed : output ∈ t.redemptions)
    (holdings : ∀ address : Address,
      t'.holdings[(output, address)]? = t.holdings[(output, address)]?) :
    t.SameAbout output t' := by
  have outgoing (k : Identifier) (row : DeltaRow) (about : row.output = output) :
      t'.outgoing[k]? = some row ↔ t.outgoing[k]? = some row := by
    constructor
    · intro found
      obtain ⟨-, identity, -⟩ := after.contributions k row found
      obtain ⟨held, there⟩ := Table.mem_iff_getElem?.mp (after.held k row found)
      rw [about] at there
      rw [holdings] at there
      have backed := before.backed output row.address (Table.mem_iff_getElem?.mpr ⟨held, there⟩)
      rw [← about] at backed
      obtain ⟨old, known⟩ := Table.mem_iff_getElem?.mp backed.contribution
      rw [identity] at known
      obtain ⟨row', found', rfl⟩ := advances.outgoing k old known
      rw [found'] at found
      cases found
      exact known
    · intro found
      obtain ⟨row', found', rfl⟩ := advances.outgoing k row found
      exact found'
  obtain ⟨row, found⟩ := Table.mem_iff_getElem?.mp redeemed
  obtain ⟨row', found', rfl⟩ := advances.redemptions output row found
  refine ⟨found'.trans found.symm, holdings, outgoing, fun k delta about => ?_⟩
  rw [after.mirrored, before.mirrored]
  exact outgoing k delta about

/-- Nothing is different about an output, the stamps included. -/
structure Store.SameAbout (output : Identifier) (store store' : Store) : Prop where
  rows : store.tables.SameAbout output store'.tables
  holdings : ∀ address : Address,
    store'.stamps.holdings[(output, address)]? = store.stamps.holdings[(output, address)]?
  outgoing : ∀ (k : Identifier) (row : DeltaRow), row.output = output →
    store.tables.outgoing[k]? = some row → store'.stamps.outgoing[k]? = store.stamps.outgoing[k]?
  incoming : ∀ (k : Identifier) (row : IncomingRow), row.delta.output = output →
    store.tables.incoming[k]? = some row → store'.stamps.incoming[k]? = store.stamps.incoming[k]?

namespace Transaction.Fills

variable {t : Transaction} {w : Writer} {ctx : Context} {session : Session}

theorem work (h : t.Fills w ctx session) (content : Identifier) :
    (Work.message w ctx content (.block ⟨[t]⟩)).Fills session := by
  have alone : (Work.message w ctx content (.block ⟨[t]⟩)).script = w.indexTransaction ctx t :=
    Script.bind_done _
  rw [Work.Fills, alone]
  exact h

/-- Where rows are not written over, a holding changes only by a signature. -/
theorem getElem?_holdings (h : t.Fills w ctx session) (off : ctx.overwrite = false) (store : Store)
    {output : Identifier} {address : Address} {row : HoldingRow}
    (found : store.tables.holdings[(output, address)]? = some row) :
    (store.commit session).tables.holdings[(output, address)]? =
      some { row with signature := (t.lastSignature? output address).or row.signature } := by
  obtain ⟨row', found', advances⟩ := ((h.work default).advances_tables store).holdings _ row found
  have signature : row'.signature = (t.lastSignature? output address).or row.signature := by
    have all := h.signature?_eq store output address
    rw [Tables.signature?, Tables.signature?, found, found'] at all
    exact all
  rw [found', ← signature]
  exact congrArg some (advances.stays off)

/-- The holdings of an output stay as they are exactly if each signer had signed for it with the
same signature and each owner had held it. -/
theorem sameHoldings_iff (h : t.Fills w ctx session) (off : ctx.overwrite = false) (store : Store)
    (output : Identifier) :
    (∀ address : Address, (store.commit session).tables.holdings[(output, address)]? =
      store.tables.holdings[(output, address)]?) ↔
    (∀ address, t.SignedFor output address →
      store.tables.signature? (output, address) = t.lastSignature? output address) ∧
    ∀ p ∈ t.placements w, p.place.output = output → ∀ owner ∈ p.output.state.owners,
      (output, owner) ∈ store.tables.holdings := by
  constructor
  · intro same
    constructor
    · intro address signed
      obtain ⟨value, last⟩ := Option.isSome_iff_exists.mp (isSome_lastSignature?.mpr signed)
      have signature := h.signature?_eq store output address
      rw [Tables.signature?, same, last, Option.some_or] at signature
      rw [last]
      exact signature
    · intro p placed here owner owns
      have held := (h.mem_holdings store output owner).mpr (.inr (.inr ⟨p, placed, here, owns⟩))
      rwa [Table.mem_iff_getElem?, same, ← Table.mem_iff_getElem?] at held
  · rintro ⟨signers, owners⟩ address
    cases found : store.tables.holdings[(output, address)]? with
    | some held =>
      rw [h.getElem?_holdings off store found]
      cases last : t.lastSignature? output address with
      | none => rfl
      | some value =>
        have signed := isSome_lastSignature?.mp (Option.isSome_of_eq_some last)
        have signature := signers address signed
        rw [Tables.signature?, found, last] at signature
        change held.signature = some value at signature
        rw [Option.some_or, ← signature]
    | none =>
      have unheld : (output, address) ∉ store.tables.holdings := by
        rw [Table.mem_iff_getElem?, found]
        simp
      have still : (output, address) ∉ (store.commit session).tables.holdings := by
        rw [h.mem_holdings]
        rintro (held | signed | ⟨p, placed, here, owns⟩)
        · exact unheld held
        · have signature := signers address signed
          have last := isSome_lastSignature?.mpr signed
          rw [← signature, Tables.signature?, found] at last
          cases last
        · exact unheld (owners p placed here address owns)
      rw [Table.mem_iff_getElem?, not_exists] at still
      exact Option.eq_none_iff_forall_ne_some.mpr still

/-- A signature for a holding is staged for each signer, and for nobody else. -/
theorem isSome_signedAt? (h : t.Fills w ctx session) (store : Store) (output : Identifier)
    (address : Address) :
    (store.signedAt? session (output, address)).isSome ↔ t.SignedFor output address := by
  rw [Store.signedAt?, Change.isSome_signedAt?, h.staged_eq, w.exists_signs_changesOf,
    lastSigned?_postings, isSome_lastSignature?]

/-- Where rows are not written over, a holding is stamped anew only when it is signed. -/
theorem getElem?_stamps_holdings (h : t.Fills w ctx session) (off : ctx.overwrite = false)
    (store : Store) {k : Identifier × Address} {time : Timestamp}
    (found : store.stamps.holdings[k]? = some time) :
    (store.commit session).stamps.holdings[k]? =
      some ((store.signedAt? session k).getD time) := by
  have keeps : ∀ c ∈ session.staged, c.Follows ctx.overwrite := (h.work default).follows
  rw [off] at keeps
  exact Change.getElem?_holdings_stampAll keeps _ found

/-- The stamps of the holdings of an output stay as they are exactly if each signer signs at the
time that is already shown, as long as no holding is new. -/
theorem sameStamps_iff (h : t.Fills w ctx session) (off : ctx.overwrite = false) (store : Store)
    (output : Identifier) (covered : store.stamps.Cover store.tables)
    (unadded : ∀ address : Address, (output, address) ∈ (store.commit session).tables.holdings →
      (output, address) ∈ store.tables.holdings) :
    (∀ address : Address, (store.commit session).stamps.holdings[(output, address)]? =
      store.stamps.holdings[(output, address)]?) ↔
    ∀ address, t.SignedFor output address → store.stamps.holdings[(output, address)]? =
      store.signedAt? session (output, address) := by
  have after := Change.cover_stampAll covered store.clock store.writes.length session.staged
  constructor
  · intro same address signed
    obtain ⟨now, signs⟩ := Option.isSome_iff_exists.mp
      ((h.isSome_signedAt? store output address).mpr signed)
    have held := unadded address ((h.mem_holdings store output address).mpr (.inr (.inl signed)))
    obtain ⟨time, found⟩ := Table.mem_iff_getElem?.mp ((covered.holdings _).mpr held)
    have stamped := h.getElem?_stamps_holdings off store found
    rw [same, signs] at stamped
    rw [stamped, signs]
    rfl
  · intro signers address
    cases found : store.stamps.holdings[(output, address)]? with
    | some time =>
      rw [h.getElem?_stamps_holdings off store found]
      cases signs : store.signedAt? session (output, address) with
      | none => rfl
      | some now =>
        have signed := (h.isSome_signedAt? store output address).mp (Option.isSome_of_eq_some signs)
        have shown := signers address signed
        rw [found, signs] at shown
        exact shown.symm
    | none =>
      have unstamped : (output, address) ∉ (store.commit session).stamps.holdings := by
        intro stamped
        have held := unadded address ((after.holdings _).mp stamped)
        obtain ⟨time, present⟩ := Table.mem_iff_getElem?.mp ((covered.holdings _).mpr held)
        rw [found] at present
        cases present
      rw [Table.mem_iff_getElem?, not_exists] at unstamped
      exact Option.eq_none_iff_forall_ne_some.mpr unstamped

end Transaction.Fills

namespace Store.History

open Transaction

variable {works : List Work} {store : Store} {t : Transaction} {w : Writer} {ctx : Context}
  {session : Session} {output : Identifier}

/-- A transaction leaves the redemption of an output as it is, and of its holdings only the
signatures and the stamps can change, where an address signs for the output. Nothing about the
output changes exactly if the transaction brings no new signature for it, and each one that it
brings at the time that its holding already shows. -/
theorem respent (h : History works store) {row : RedemptionRow}
    (redeemed : store.tables.redemptions[output]? = some row) (filled : t.Fills w ctx session)
    (off : ctx.overwrite = false) :
    (store.commit session).tables.redemptions[output]? = some row ∧
      (∀ (address : Address) (held : HoldingRow),
        store.tables.holdings[(output, address)]? = some held →
        (store.commit session).tables.holdings[(output, address)]? =
          some { held with signature := (t.lastSignature? output address).or held.signature }) ∧
      (∀ (address : Address) (time : Timestamp),
        store.stamps.holdings[(output, address)]? = some time →
        (store.commit session).stamps.holdings[(output, address)]? =
          some ((store.signedAt? session (output, address)).getD time)) ∧
      (∀ address, (store.signedAt? session (output, address)).isSome ↔
        t.SignedFor output address) ∧
      (store.SameAbout output (store.commit session) ↔
        (∀ address, t.SignedFor output address →
          store.tables.signature? (output, address) = t.lastSignature? output address ∧
          store.stamps.holdings[(output, address)]? =
            store.signedAt? session (output, address)) ∧
        ∀ p ∈ t.placements w, p.place.output = output → ∀ owner ∈ p.output.state.owners,
          (output, owner) ∈ store.tables.holdings) := by
  have work := filled.work default
  have advances := work.advances_tables store
  have stamps := Change.advances_stampAll work.follows store.clock store.writes.length store.stamps
  have before := h.integral_tables
  have after := work.integral_commit before
  obtain ⟨row', kept, rfl⟩ := advances.redemptions output row redeemed
  refine ⟨kept, fun address held found => filled.getElem?_holdings off store found,
    fun address time found => filled.getElem?_stamps_holdings off store found,
    filled.isSome_signedAt? store output, ?_⟩
  have unadded (same : ∀ address : Address,
      (store.commit session).tables.holdings[(output, address)]? =
        store.tables.holdings[(output, address)]?) (address : Address)
      (held : (output, address) ∈ (store.commit session).tables.holdings) :
      (output, address) ∈ store.tables.holdings := by
    rwa [Table.mem_iff_getElem?, same, ← Table.mem_iff_getElem?] at held
  constructor
  · intro same
    obtain ⟨signers, owners⟩ := (filled.sameHoldings_iff off store output).mp same.rows.holdings
    have stamped := (filled.sameStamps_iff off store output h.covered
      (unadded same.rows.holdings)).mp same.holdings
    exact ⟨fun address signed => ⟨signers address signed, stamped address signed⟩, owners⟩
  · rintro ⟨signers, owners⟩
    have rows := (filled.sameHoldings_iff off store output).mpr
      ⟨fun address signed => (signers address signed).1, owners⟩
    have stamped (table : Stamps → Table Identifier Timestamp)
        (keeps : (table store.stamps).Extends Eq (table (store.commit session).stamps))
        {k : Identifier} (known : k ∈ table store.stamps) :
        (table (store.commit session).stamps)[k]? = (table store.stamps)[k]? := by
      obtain ⟨time, found⟩ := Table.mem_iff_getElem?.mp known
      obtain ⟨time', found', rfl⟩ := keeps k time found
      rw [found, found']
    exact {
      rows := .of_holdings before after advances
        (Table.mem_iff_getElem?.mpr ⟨row, redeemed⟩) rows
      holdings := (filled.sameStamps_iff off store output h.covered (unadded rows)).mpr
        fun address signed => (signers address signed).2
      outgoing := fun k row _ found => stamped Stamps.outgoing stamps.outgoing
        ((h.covered.outgoing k).mpr (Table.mem_iff_getElem?.mpr ⟨row, found⟩))
      incoming := fun k row _ found => stamped Stamps.incoming stamps.incoming
        ((h.covered.incoming k).mpr (Table.mem_iff_getElem?.mpr ⟨row, found⟩)) }

/-- The sample output after it has been spent with a signature over four sevens. -/
private theorem spentSigned : ∃ (store : Store) (row : RedemptionRow),
    History [.block [.funding],
      .block [.signedSpending (.ofContent []) [7, 7, 7, 7] Signer.sevensSigned]] store ∧
    store.tables.redemptions[(default : Identifier).derive 0]? = some row ∧
    row.redeemer = .ofContent [] ∧
    store.tables.signature? ((default : Identifier).derive 0, Signer.sampleKey.address) =
      some Signer.sevensSigned := by
  let first := Transaction.signedSpending (.ofContent []) [7, 7, 7, 7] Signer.sevensSigned
  have filled : first.Fills Settings.plain.writer ⟨default, false⟩ _ := .of_run (by decide +kernel)
  have funded := (History.blank fun _ => .epoch).commit (.block [.funding]) (.of_run rfl)
  have spent := funded.commit (.block [first]) (filled.work default)
  have signature := filled.signature?_eq (Store.empty.commit (Work.block [.funding]).session)
    ((default : Identifier).derive 0) Signer.sampleKey.address
  rw [lastSignature?_signedSpending _ Signer.recover_sevensSigned, Option.some_or] at signature
  exact ⟨_, Writer.redemption first.base.id Settings.plain.writer.chain default
    ⟨default, 0, default, 1⟩, spent, by decide +kernel, rfl, signature⟩

/-- A second spend that nobody signs changes nothing. -/
theorem respent_unsigned : ∃ (store : Store) (t : Transaction) (session : Session)
    (row : RedemptionRow),
    History [.block [.funding],
      .block [.signedSpending (.ofContent []) [7, 7, 7, 7] Signer.sevensSigned]] store ∧
    t.Fills Settings.plain.writer ⟨default, false⟩ session ∧
    (∃ i ∈ t.base.inputs, i.output = (default : Identifier).derive 0) ∧
    store.tables.redemptions[(default : Identifier).derive 0]? = some row ∧
    row.redeemer ≠ t.base.id ∧
    store.SameAbout ((default : Identifier).derive 0) (store.commit session) := by
  obtain ⟨store, row, spent, redeemed, redeemer, -⟩ := spentSigned
  let t := Transaction.sample (.ofContent [0]) [⟨default, 0, default, 1⟩] []
  have filled : t.Fills Settings.plain.writer ⟨default, false⟩ _ := .of_run (by decide +kernel)
  have other : row.redeemer ≠ t.base.id := by
    rw [redeemer]
    decide +kernel
  obtain ⟨-, -, -, -, same⟩ := spent.respent redeemed filled rfl
  refine ⟨store, t, _, row, spent, filled, ⟨_, List.mem_singleton_self _, rfl⟩, redeemed, other,
    same.mpr ⟨fun address signed => ?_, ?_⟩⟩
  · obtain ⟨position, i, all, signature, key, -, beside, -⟩ := signed
    simp [t, Transaction.sample] at beside
  · intro p placed
    cases placed

/-- A second spend with another signature puts it in the place of the one that came with the
redemption. -/
theorem respent_resigned : ∃ (store : Store) (t : Transaction) (session : Session)
    (row : RedemptionRow) (k : Identifier × Address),
    History [.block [.funding],
      .block [.signedSpending (.ofContent []) [7, 7, 7, 7] Signer.sevensSigned]] store ∧
    t.Fills Settings.plain.writer ⟨default, false⟩ session ∧
    (∃ i ∈ t.base.inputs, i.output = k.1) ∧
    store.tables.redemptions[k.1]? = some row ∧ row.redeemer ≠ t.base.id ∧
    (store.commit session).tables.redemptions[k.1]? = some row ∧
    store.tables.signature? k = some Signer.sevensSigned ∧
    (store.commit session).tables.signature? k = some Signer.eightsSigned ∧
    ¬store.tables.SameAbout k.1 (store.commit session).tables := by
  obtain ⟨store, row, spent, redeemed, redeemer, signature⟩ := spentSigned
  let t := Transaction.signedSpending (.ofContent [0]) [8, 8, 8, 8] Signer.eightsSigned
  have filled : t.Fills Settings.plain.writer ⟨default, false⟩ _ := .of_run (by decide +kernel)
  have other : row.redeemer ≠ t.base.id := by
    rw [redeemer]
    decide +kernel
  have kept := (((filled.work default).advances_tables store).redemptions _ row redeemed)
  obtain ⟨row', kept, rfl⟩ := kept
  have resigned := filled.signature?_eq store ((default : Identifier).derive 0)
    Signer.sampleKey.address
  rw [lastSignature?_signedSpending _ Signer.recover_eightsSigned, Option.some_or] at resigned
  refine ⟨store, t, _, row, ((default : Identifier).derive 0, Signer.sampleKey.address), spent,
    filled, ⟨_, List.mem_singleton_self _, rfl⟩, redeemed, other, kept, signature, resigned,
    fun same => ?_⟩
  rw [Tables.signature?, same.holdings] at resigned
  rw [Tables.signature?, resigned] at signature
  revert signature
  decide +kernel

end Store.History
end LedgerIndex
