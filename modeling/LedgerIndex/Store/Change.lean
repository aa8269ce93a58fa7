import LedgerIndex.Store.Tables

/-!
# Changes

The writes a session can stage. A row keeps the time of its first write when it is
overwritten, traces and logs excepted; a holding also keeps its signature when the
new row has none. Spends, contributions and activities are written once.
-/
namespace LedgerIndex

/-- A write to one table. -/
inductive Change where
  | transaction (row : TransactionRow) (overwrite : Bool)
  | output (row : OutputRow) (overwrite : Bool)
  | redemption (row : RedemptionRow)
  | address (row : AddressRow) (overwrite : Bool)
  | presence (row : PresenceRow) (overwrite : Bool)
  | display (row : DisplayRow) (overwrite : Bool)
  | holding (row : HoldingRow) (overwrite : Bool)
  | signature (output : Identifier) (address : Address) (signature : Option Bytes)
  | outgoing (row : DeltaRow)
  | incoming (row : DeltaRow)
  | spent (output : Identifier)
  | activity (row : ActivityRow)
  | trace (row : TraceRow) (overwrite : Bool)
  | log (row : LogRow) (overwrite : Bool)
deriving DecidableEq

namespace Change

/-- The table that is written to. -/
def table : Change → TableName
  | transaction .. => .transactions
  | output .. => .outputs
  | redemption _ => .redemptions
  | address .. => .addresses
  | presence .. => .presence
  | display .. => .displays
  | holding .. | signature .. => .holdings
  | outgoing _ => .outgoing
  | incoming _ | spent _ => .incoming
  | activity _ => .activity
  | trace .. => .traces
  | log .. => .logs

/-- A holding that overwrites another. -/
def carryHolding (old new : HoldingRow) : HoldingRow :=
  { new with created := old.created, signature := new.signature <|> old.signature }

/-- A contribution of the given output is marked, any other stays. -/
def markSpent (output : Identifier) (row : IncomingRow) : IncomingRow :=
  if row.delta.output = output then { row with spent := true } else row

@[simp] theorem markSpent_delta (output : Identifier) (row : IncomingRow) :
    (markSpent output row).delta = row.delta := by
  unfold markSpent
  split <;> rfl

def apply (t : Tables) : Change → Tables
  | transaction row overwrite =>
    { t with
      transactions := t.transactions.upsertCarrying row.id row overwrite fun old new =>
        { new with created := old.created } }
  | output row overwrite =>
    { t with
      outputs := t.outputs.upsertCarrying row.id row overwrite fun old new =>
        { new with created := old.created } }
  | redemption row => { t with redemptions := t.redemptions.insertNew row.id row }
  | address row overwrite =>
    { t with
      addresses := t.addresses.upsertCarrying row.address row overwrite fun old new =>
        { new with created := old.created } }
  | presence row overwrite =>
    { t with
      presence := t.presence.upsertCarrying (row.address, row.chain) row overwrite
        fun old new => { new with created := old.created } }
  | display row overwrite => { t with displays := t.displays.upsert row.address row overwrite }
  | holding row overwrite =>
    { t with
      holdings := t.holdings.upsertCarrying (row.output, row.address) row overwrite
        carryHolding }
  | signature id owner value =>
    { t with
      holdings := t.holdings.update (id, owner) fun row => { row with signature := value } }
  | outgoing row => { t with outgoing := t.outgoing.insertNew row.id row }
  | incoming row => { t with incoming := t.incoming.insertNew row.id ⟨row, false⟩ }
  | spent id => { t with incoming := t.incoming.map fun _ row => markSpent id row }
  | activity row => { t with activity := t.activity.insertNew row.id row }
  | trace row overwrite => { t with traces := t.traces.upsert row.id row overwrite }
  | log row overwrite => { t with logs := t.logs.upsert row.id row overwrite }

/-- Applies changes in order. -/
def applyAll (t : Tables) (changes : List Change) : Tables :=
  changes.foldl apply t

@[simp] theorem applyAll_nil (t : Tables) : applyAll t [] = t := rfl

@[simp] theorem applyAll_cons (t : Tables) (c : Change) (cs : List Change) :
    applyAll t (c :: cs) = applyAll (apply t c) cs := rfl

theorem applyAll_append (t : Tables) (cs ds : List Change) :
    applyAll t (cs ++ ds) = applyAll (applyAll t cs) ds := by
  simp [applyAll, List.foldl_append]

end Change
end LedgerIndex
