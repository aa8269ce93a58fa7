import LedgerIndex.Store.Row

/-!
# Tables

A table is a map from keys to rows, ordered by key and equal to any other map with
the same rows. Writing to an occupied key is a question of policy: most rows stay
as they are unless overwriting is asked for, and then keep what must not change.
-/
namespace LedgerIndex

/-- Pairs of keys are ordered by their first part, then by their second. -/
instance Table.pairOrd {α β : Type} [Ord α] [Ord β] : Ord (α × β) := lexOrd

instance Table.transOrd_pair : Std.TransOrd (Address × String) :=
  inferInstance

instance Table.transOrd_holder : Std.TransOrd (Identifier × Address) :=
  inferInstance

abbrev Table (κ ν : Type) [Ord κ] := Std.ExtTreeMap κ ν compare

namespace Table

variable {κ ν : Type} [Ord κ] [Std.TransOrd κ]

/-- Writes a row; where there is one already, `conflict` says what becomes of it. -/
def put (t : Table κ ν) (k : κ) (new : ν) (conflict : ν → ν) : Table κ ν :=
  t.alter k fun
    | none => some new
    | some old => some (conflict old)

/-- Changes a row if there is one. -/
def update (t : Table κ ν) (k : κ) (f : ν → ν) : Table κ ν :=
  t.alter k fun row => row.map f

theorem getElem?_put [Std.LawfulEqOrd κ] [DecidableEq κ] (t : Table κ ν) (k k' : κ) (new : ν)
    (conflict : ν → ν) :
    (t.put k new conflict)[k']? =
      if k = k' then some ((t[k]?.map conflict).getD new) else t[k']? := by
  by_cases h : k = k'
  · subst h
    cases hk : t[k]? <;> simp [put, hk]
  · simp [put, Std.ExtTreeMap.getElem?_alter, Std.LawfulEqCmp.compare_eq_iff_eq, h]

theorem getElem?_update [Std.LawfulEqOrd κ] [DecidableEq κ] (t : Table κ ν) (k k' : κ) (f : ν → ν) :
    (t.update k f)[k']? = if k = k' then t[k]?.map f else t[k']? := by
  by_cases h : k = k'
  · subst h
    simp [update]
  · simp [update, Std.ExtTreeMap.getElem?_alter, Std.LawfulEqCmp.compare_eq_iff_eq, h]

/-- Leaves an existing row alone. -/
def insertNew (t : Table κ ν) (k : κ) (new : ν) : Table κ ν :=
  t.put k new id

/-- Leaves an existing row alone, or overwrites all of it. -/
def upsert (t : Table κ ν) (k : κ) (new : ν) (overwrite : Bool) : Table κ ν :=
  t.put k new fun old => if overwrite then new else old

/-- Leaves an existing row alone, or overwrites it with what `carry` makes of the
old and the new one. -/
def upsertCarrying (t : Table κ ν) (k : κ) (new : ν) (overwrite : Bool)
    (carry : ν → ν → ν) : Table κ ν :=
  t.put k new fun old => if overwrite then carry old new else old

end Table

/-- Everything that is stored. -/
structure Tables where
  transactions : Table Identifier TransactionRow
  outputs : Table Identifier OutputRow
  redemptions : Table Identifier RedemptionRow
  addresses : Table Address AddressRow
  presence : Table (Address × String) PresenceRow
  displays : Table Address DisplayRow
  holdings : Table (Identifier × Address) HoldingRow
  outgoing : Table Identifier DeltaRow
  incoming : Table Identifier IncomingRow
  activity : Table Identifier ActivityRow
  traces : Table Identifier TraceRow
  logs : Table Identifier LogRow
  rewards : Table String RewardRow
  blocks : Table String BlockRow

def Tables.empty : Tables := ⟨∅, ∅, ∅, ∅, ∅, ∅, ∅, ∅, ∅, ∅, ∅, ∅, ∅, ∅⟩

instance : Inhabited Tables := ⟨.empty⟩

/-- The tables that sessions write to. -/
inductive TableName where
  | transactions
  | outputs
  | redemptions
  | addresses
  | presence
  | displays
  | holdings
  | outgoing
  | incoming
  | activity
  | traces
  | logs
deriving DecidableEq, Repr

def TableName.text : TableName → String
  | .transactions => "transactions"
  | .outputs => "outputs"
  | .redemptions => "outputs_redeeming"
  | .addresses => "addresses"
  | .presence => "address_chain"
  | .displays => "addresses_bech32"
  | .holdings => "output_addresses"
  | .outgoing => "output_addresses_accumulate_out"
  | .incoming => "output_addresses_accumulate_in"
  | .activity => "output_txs_accumulate"
  | .traces => "tx_traces"
  | .logs => "tx_logs"

end LedgerIndex
