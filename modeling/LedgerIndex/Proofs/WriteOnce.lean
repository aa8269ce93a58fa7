import LedgerIndex.Proofs.Stamping

/-!
# What is written once

No session takes a row away. Redemptions, contributions and activities stay as they were first
written, with their stamps, a contribution that has been marked stays marked, and a holding does
not lose its signature, also not when it is written over. Without overwriting every other row
stays too, and so do the stamps, of which only those of holdings are renewed.
-/
namespace LedgerIndex

def Stays {ν : Type} (overwrite : Bool) (row row' : ν) : Prop :=
  overwrite = false → row' = row

theorem Stays.refl {ν : Type} {overwrite : Bool} (row : ν) : Stays overwrite row row :=
  fun _ => rfl

theorem Stays.trans {ν : Type} {overwrite : Bool} {a b c : ν} (h : Stays overwrite a b)
    (h' : Stays overwrite b c) : Stays overwrite a c :=
  fun off => (h' off).trans (h off)

theorem Table.stays_upsertCarrying {κ ν : Type} [Ord κ] [Std.TransOrd κ] [Std.LawfulEqOrd κ]
    [DecidableEq κ] (t : Table κ ν) (k : κ) (new : ν) (overwrite : Bool) (carry : ν → ν → ν) :
    t.Extends (Stays overwrite) (t.upsertCarrying k new overwrite carry) := by
  apply Extends.put Stays.refl
  rintro old rfl
  rfl

/-- A holding keeps its signature or gets another one. Nothing else about it changes, unless
rows are written over. -/
structure HoldingRow.Advances (overwrite : Bool) (row row' : HoldingRow) : Prop where
  signed : row.signature.isSome → row'.signature.isSome
  stays : overwrite = false → row' = { row with signature := row'.signature }

namespace HoldingRow.Advances

variable {overwrite : Bool} {a b c : HoldingRow}

theorem refl (row : HoldingRow) : row.Advances overwrite row :=
  ⟨id, fun _ => rfl⟩

theorem trans (h : a.Advances overwrite b) (h' : b.Advances overwrite c) :
    a.Advances overwrite c where
  signed := h'.signed ∘ h.signed
  stays off := by
    rw [h'.stays off, h.stays off]

theorem of_put (overwrite : Bool) (old new : HoldingRow) :
    old.Advances overwrite (if overwrite then Change.carryHolding old new else old) where
  signed h := by
    cases overwrite with
    | false => exact h
    | true =>
      change (new.signature <|> old.signature).isSome
      cases new.signature with
      | none => exact h
      | some value => rfl
  stays := by
    rintro rfl
    rfl

theorem of_sign {value : Option Bytes} (present : value.isSome) (row : HoldingRow) :
    row.Advances overwrite { row with signature := value } :=
  ⟨fun _ => present, fun _ => rfl⟩

end HoldingRow.Advances

/-- A contribution stays the same one, and is not taken back once it is marked. -/
structure IncomingRow.Advances (row row' : IncomingRow) : Prop where
  delta : row'.delta = row.delta
  spent : row.spent = true → row'.spent = true

namespace IncomingRow.Advances

variable {a b c : IncomingRow}

theorem refl (row : IncomingRow) : row.Advances row :=
  ⟨rfl, id⟩

theorem trans (h : a.Advances b) (h' : b.Advances c) : a.Advances c :=
  ⟨h'.delta.trans h.delta, h'.spent ∘ h.spent⟩

theorem of_mark (output : Identifier) (row : IncomingRow) :
    row.Advances (Change.markSpent output row) := by
  unfold Change.markSpent
  split
  · exact ⟨rfl, fun _ => rfl⟩
  · exact refl row

end IncomingRow.Advances

/-- What may become of the tables in a session that writes rows over, or one that does not. -/
structure Tables.Advances (overwrite : Bool) (t t' : Tables) : Prop where
  transactions : t.transactions.Extends (Stays overwrite) t'.transactions
  outputs : t.outputs.Extends (Stays overwrite) t'.outputs
  redemptions : t.redemptions.Extends Eq t'.redemptions
  addresses : t.addresses.Extends (Stays overwrite) t'.addresses
  presence : t.presence.Extends (Stays overwrite) t'.presence
  displays : t.displays.Extends (Stays overwrite) t'.displays
  holdings : t.holdings.Extends (HoldingRow.Advances overwrite) t'.holdings
  outgoing : t.outgoing.Extends Eq t'.outgoing
  incoming : t.incoming.Extends IncomingRow.Advances t'.incoming
  activity : t.activity.Extends Eq t'.activity
  traces : t.traces.Extends (Stays overwrite) t'.traces
  logs : t.logs.Extends (Stays overwrite) t'.logs
  rewards : t'.rewards = t.rewards
  blocks : t'.blocks = t.blocks

namespace Tables.Advances

variable {overwrite : Bool} {t t' t'' : Tables}

theorem refl (t : Tables) : t.Advances overwrite t where
  transactions := .refl .refl _
  outputs := .refl .refl _
  redemptions := .refl .refl _
  addresses := .refl .refl _
  presence := .refl .refl _
  displays := .refl .refl _
  holdings := .refl .refl _
  outgoing := .refl .refl _
  incoming := .refl .refl _
  activity := .refl .refl _
  traces := .refl .refl _
  logs := .refl .refl _
  rewards := rfl
  blocks := rfl

theorem trans (h : t.Advances overwrite t') (h' : t'.Advances overwrite t'') :
    t.Advances overwrite t'' where
  transactions := h.transactions.trans .trans h'.transactions
  outputs := h.outputs.trans .trans h'.outputs
  redemptions := h.redemptions.trans .trans h'.redemptions
  addresses := h.addresses.trans .trans h'.addresses
  presence := h.presence.trans .trans h'.presence
  displays := h.displays.trans .trans h'.displays
  holdings := h.holdings.trans .trans h'.holdings
  outgoing := h.outgoing.trans .trans h'.outgoing
  incoming := h.incoming.trans .trans h'.incoming
  activity := h.activity.trans .trans h'.activity
  traces := h.traces.trans .trans h'.traces
  logs := h.logs.trans .trans h'.logs
  rewards := h'.rewards.trans h.rewards
  blocks := h'.blocks.trans h.blocks

end Tables.Advances

structure Stamps.Advances (overwrite : Bool) (s s' : Stamps) : Prop where
  addresses : s.addresses.Extends (Stays overwrite) s'.addresses
  presence : s.presence.Extends (Stays overwrite) s'.presence
  displays : s.displays.Extends (Stays overwrite) s'.displays
  holdings : ∀ k ∈ s.holdings, k ∈ s'.holdings
  outgoing : s.outgoing.Extends Eq s'.outgoing
  incoming : s.incoming.Extends Eq s'.incoming
  activity : s.activity.Extends Eq s'.activity

namespace Stamps.Advances

variable {overwrite : Bool} {s s' s'' : Stamps}

theorem refl (s : Stamps) : s.Advances overwrite s where
  addresses := .refl .refl _
  presence := .refl .refl _
  displays := .refl .refl _
  holdings _ known := known
  outgoing := .refl .refl _
  incoming := .refl .refl _
  activity := .refl .refl _

theorem trans (h : s.Advances overwrite s') (h' : s'.Advances overwrite s'') :
    s.Advances overwrite s'' where
  addresses := h.addresses.trans .trans h'.addresses
  presence := h.presence.trans .trans h'.presence
  displays := h.displays.trans .trans h'.displays
  holdings k known := h'.holdings k (h.holdings k known)
  outgoing := h.outgoing.trans .trans h'.outgoing
  incoming := h.incoming.trans .trans h'.incoming
  activity := h.activity.trans .trans h'.activity

end Stamps.Advances

namespace Change

/-- A change that writes rows over only if that is asked for, and puts no empty signature. -/
def Follows (overwrite : Bool) : Change → Prop
  | transaction _ o | output _ o | address _ o | presence _ o | display _ o | holding _ o
  | trace _ o | log _ o => o = overwrite
  | signature _ _ value => value.isSome
  | redemption _ | outgoing _ | incoming _ | spent _ | activity _ => True

theorem advances_apply {overwrite : Bool} {c : Change} (h : c.Follows overwrite) (t : Tables) :
    t.Advances overwrite (c.apply t) := by
  have self : t.Advances overwrite t := .refl t
  cases c with
  | transaction row o =>
    cases h
    exact { self with transactions := t.transactions.stays_upsertCarrying _ _ _ _ }
  | output row o =>
    cases h
    exact { self with outputs := t.outputs.stays_upsertCarrying _ _ _ _ }
  | redemption row => exact { self with redemptions := .put .refl .refl _ }
  | address row o =>
    cases h
    exact { self with addresses := t.addresses.stays_upsertCarrying _ _ _ _ }
  | presence row o =>
    cases h
    exact { self with presence := t.presence.stays_upsertCarrying _ _ _ _ }
  | display row o =>
    cases h
    exact { self with displays := t.displays.stays_upsertCarrying _ _ _ fun _ new => new }
  | holding row o =>
    cases h
    exact { self with holdings := .put .refl (fun old => .of_put overwrite old row) _ }
  | signature output address value =>
    exact { self with holdings := .update .refl (.of_sign h) _ }
  | outgoing row => exact { self with outgoing := .put .refl .refl _ }
  | incoming row => exact { self with incoming := .put .refl .refl _ }
  | spent output => exact { self with incoming := .map (.of_mark output) _ }
  | activity row => exact { self with activity := .put .refl .refl _ }
  | trace row o =>
    cases h
    exact { self with traces := t.traces.stays_upsertCarrying _ _ _ fun _ new => new }
  | log row o =>
    cases h
    exact { self with logs := t.logs.stays_upsertCarrying _ _ _ fun _ new => new }

theorem advances_applyAll {overwrite : Bool} {cs : List Change}
    (h : ∀ c ∈ cs, c.Follows overwrite) (t : Tables) :
    t.Advances overwrite (applyAll t cs) := by
  induction cs generalizing t with
  | nil => exact .refl t
  | cons c cs ih =>
    have first := advances_apply (h c List.mem_cons_self) t
    exact first.trans (ih (fun d hd => h d (List.mem_cons_of_mem c hd)) _)

theorem advances_stamp {overwrite : Bool} {c : Change} (h : c.Follows overwrite) (now : Timestamp)
    (s : Stamps) : s.Advances overwrite (c.stamp now s) := by
  have self : s.Advances overwrite s := .refl s
  cases c with
  | address row o =>
    cases h
    exact { self with addresses := s.addresses.stays_upsertCarrying _ _ _ fun _ now => now }
  | presence row o =>
    cases h
    exact { self with presence := s.presence.stays_upsertCarrying _ _ _ fun _ now => now }
  | display row o =>
    cases h
    exact { self with displays := s.displays.stays_upsertCarrying _ _ _ fun _ now => now }
  | holding row o =>
    exact { self with holdings := fun _ known => (Table.mem_put _ _ _ _ _).mpr (.inr known) }
  | signature output address value =>
    exact { self with holdings := fun _ known => (Table.mem_update _ _ _ _).mpr known }
  | outgoing row => exact { self with outgoing := .put .refl .refl _ }
  | incoming row => exact { self with incoming := .put .refl .refl _ }
  | activity row => exact { self with activity := .put .refl .refl _ }
  | transaction row o | output row o | redemption row | spent output | trace row o | log row o =>
    exact self

theorem advances_stampAll {overwrite : Bool} {cs : List Change}
    (h : ∀ c ∈ cs, c.Follows overwrite) (clock : Nat → Timestamp) (n : Nat) (s : Stamps) :
    s.Advances overwrite (stampAll clock n s cs) := by
  induction cs generalizing n s with
  | nil => exact .refl s
  | cons c cs ih =>
    have first := advances_stamp (h c List.mem_cons_self) (clock n) s
    exact first.trans (ih (fun d hd => h d (List.mem_cons_of_mem c hd)) _ _)

end Change

namespace Writer

variable (w : Writer) (ctx : Context)

/-- A signature is only ever put where there is one to put. -/
theorem follows_changes (p : Posting) : ∀ c ∈ w.changes ctx p, c.Follows ctx.overwrite := by
  cases p with
  | tie place address signature =>
    cases signature <;> simp [changes, Change.Follows]
  | _ => simp [changes, Change.Follows]

theorem follows_changesOf (ps : List Posting) :
    ∀ c ∈ w.changesOf ctx ps, c.Follows ctx.overwrite := by
  intro c staged
  obtain ⟨p, -, posted⟩ := List.mem_flatMap.mp staged
  exact w.follows_changes ctx p c posted

end Writer

namespace Work

variable {work : Work} {session : Session}

theorem Fills.follows (filled : work.Fills session) :
    ∀ c ∈ session.staged, c.Follows work.context.overwrite := by
  rw [filled.staged_eq]
  exact work.writer.follows_changesOf _ _

theorem Fills.advances_tables (filled : work.Fills session) (store : Store) :
    store.tables.Advances work.context.overwrite (store.commit session).tables :=
  Change.advances_applyAll filled.follows _

/-- Whatever a session is filled with, committing it takes nothing away from any store, and
changes what is there only as far as that is allowed, in the rows and in their stamps. Every row
keeps a stamp. -/
theorem Fills.advances (filled : work.Fills session) (store : Store) :
    store.tables.Advances work.context.overwrite (store.commit session).tables ∧
      store.stamps.Advances work.context.overwrite (store.commit session).stamps ∧
      (store.stamps.Cover store.tables →
        (store.commit session).stamps.Cover (store.commit session).tables) :=
  ⟨filled.advances_tables store, Change.advances_stampAll filled.follows _ _ _,
    fun covers => Change.cover_stampAll covers _ _ _⟩

/-- An output that is created once more, and written over, does not lose the signature that
redeemed it, and the contribution of its owner keeps its stamp. -/
theorem Fills.advances_signed : ∃ (work : Work) (session : Session) (store : Store)
    (k : Identifier × Address) (row row' : HoldingRow),
    work.context.overwrite = true ∧ work.Fills session ∧ store.tables.holdings[k]? = some row ∧
      row.signature = some [7] ∧ (store.commit session).tables.holdings[k]? = some row' ∧
      row'.signature.isSome ∧
      store.stamps.outgoing[DeltaRow.identity k.1 k.2]? = some ⟨7, 0⟩ ∧
      (store.commit session).stamps.outgoing[DeltaRow.identity k.1 k.2]? = some ⟨7, 0⟩ := by
  let work : Work :=
    .message Settings.plain.writer ⟨default, true⟩ default (.block ⟨[.funding]⟩)
  let k : Identifier × Address := ((default : Identifier).derive 0, default)
  let row : HoldingRow := ⟨k.1, k.2, some [7], default⟩
  let store : Store :=
    { Store.empty with
      tables := { Tables.empty with holdings := (∅ : Table _ _).insert k row }
      stamps := { Stamps.empty with
        outgoing := (∅ : Table _ _).insert (DeltaRow.identity k.1 k.2) ⟨7, 0⟩ } }
  have filled : work.Fills _ := .of_run rfl
  have found : store.tables.holdings[k]? = some row := by simp [store]
  have stamped : store.stamps.outgoing[DeltaRow.identity k.1 k.2]? = some ⟨7, 0⟩ := by simp [store]
  obtain ⟨tables, stamps, -⟩ := filled.advances store
  obtain ⟨row', kept, advances⟩ := tables.holdings k row found
  obtain ⟨-, still, rfl⟩ := stamps.outgoing _ _ stamped
  exact ⟨work, _, store, k, row, row', rfl, filled, found, rfl, kept, advances.signed rfl, stamped,
    still⟩

end Work
end LedgerIndex
