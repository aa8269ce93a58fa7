import LedgerIndex.Script
import LedgerIndex.Signer

/-!
# Writing transactions

A transaction becomes rows in a fixed order: for each input its signers, the mark on
what it spends, and its redemption; for each output its owners and then the output;
last the transaction with its fee. So an output row means that the rows of its
owners are there, and a transaction row that everything of the transaction is.
-/
namespace LedgerIndex

/-- Writes the transactions of one chain. -/
structure Writer where
  chain : String
  asset : Identifier
  part : String
  strict : Bool
deriving DecidableEq

/-- What all rows of one message share: their time, and whether they overwrite. -/
structure Context where
  time : Timestamp
  overwrite : Bool
deriving DecidableEq

/-- Raw bytes past this length are stored empty. -/
def maxRawLength : Nat := 16 * 1024 * 1024 - 1

/-- A memo past this length is not stored. -/
def maxMemoLength : Nat := 1024

/-- The greatest total. Totals have 128 bits. -/
def maxTotal : Nat := 2 ^ 128 - 1

/-- Inputs less outputs less what is accounted for elsewhere. The sum of the latter two
saturates at the greatest total, the difference at zero. -/
def fee (totalIn totalOut extra : Nat) : Nat :=
  totalIn - min (totalOut + extra) maxTotal

/-- Where an output or input belongs: the transaction that created it, its position
there, and the chain. -/
structure Place where
  transaction : Identifier
  index : UInt32
  chain : String
deriving DecidableEq

/-- The identifier of the output at a place. -/
def Place.output (p : Place) : Identifier :=
  p.transaction.derive p.index.toUInt64

/-- What differs between the variants of an output. -/
structure OutputColumns where
  kind : OutputKind
  amount : UInt64
  owners : Owners
  group : UInt32
  payload : Bytes
  stakeLocktime : UInt64
  stakeable : Bool
deriving DecidableEq

/-- The columns of an output, unless it locks something other than a transfer. -/
def OutputState.columns? : OutputState → Option OutputColumns
  | .transfer amount owners => some ⟨.transfer, amount, owners, 0, [], 0, false⟩
  | .lockedTransfer locktime (.transfer amount owners) =>
    some ⟨.transfer, amount, owners, 0, [], locktime, true⟩
  | .lockedTransfer _ _ => none
  | .nftTransfer group payload owners => some ⟨.nftTransfer, 0, owners, group, payload, 0, false⟩
  | .nftMint group owners => some ⟨.nftMint, 0, owners, group, [], 0, false⟩
  | .fungibleMint owners => some ⟨.fungibleMint, 0, owners, 0, [], 0, false⟩

/-- What an output pays out at once: locked amounts are not. -/
def OutputState.spendable : OutputState → UInt64
  | .transfer amount _ => amount
  | _ => 0

namespace Writer

/-- Records the key behind an address. -/
def recordKey (ctx : Context) (key : Curve.PublicKey) : Script Address := do
  Script.stage (.address ⟨key.address, key.compressed, ctx.time⟩ ctx.overwrite)
  return key.address

/-- Ties an address to the output at a place; a signature that spends it goes on the
tie even if the tie was there before. -/
def linkAddress (w : Writer) (ctx : Context) (output : Identifier) (place : Place)
    (address : Address) (signature : Option Bytes) : Script Unit := do
  Script.stage (.presence ⟨address, place.chain, ctx.time⟩ ctx.overwrite)
  let text ← Script.ofExcept (address.display w.part)
  Script.stage (.display ⟨address, text⟩ ctx.overwrite)
  let delta : DeltaRow :=
    ⟨DeltaRow.identity output address, output, address, place.transaction, place.index⟩
  Script.stage (.outgoing delta)
  Script.stage (.incoming delta)
  Script.stage (.holding ⟨output, address, signature, ctx.time⟩ ctx.overwrite)
  if signature.isSome then Script.stage (.signature output address signature)

/-- Only outputs of the writer's own chain have to be there when they are spent. -/
def checkSpent (w : Writer) (chain : String) (i : Input) : Script Unit := do
  if chain = w.chain then
    let known ← Script.call (.outputExists i.output)
    if !known then
      if w.strict then
        Script.fail (.invariant (.spentUnindexed i.output i.transaction i.index))
      else
        Script.log (.unindexedSpend i.output i.transaction i.index chain)

/-- Attributes an input to the signer of one signature. -/
def attributeSigner (w : Writer) (ctx : Context) (unsigned : Bytes) (chain : String) (i : Input)
    (signature : Bytes) : Script Unit := do
  let key ← Script.ofExcept (Signer.recover unsigned signature)
  let address ← recordKey ctx key
  w.linkAddress ctx i.output ⟨i.transaction, i.index, chain⟩ address (some signature)

/-- The signatures that the credential at a position gives. Positions have 64 bits. -/
def signaturesAt (credentials : List Credential) (position : Nat) : Except Failure (List Bytes) :=
  if 2 ^ 64 ≤ position then .error .outOfRange
  else match credentials[position]? with
    | some (.signatures all) => .ok all
    | _ => .ok []

/-- The spend of an input by a transaction. -/
def redemption (spender : Identifier) (chain : String) (time : Timestamp) (i : Input) :
    RedemptionRow :=
  ⟨i.output, time, spender, i.amount, i.index, i.transaction, i.asset, chain, time⟩

/-- Spends the input at a position among all inputs of the transaction. -/
def spendInput (w : Writer) (ctx : Context) (spender : Identifier) (unsigned : Bytes)
    (chain : String) (credentials : List Credential) (position : Nat) (i : Input) :
    Script Unit := do
  w.checkSpent chain i
  let signatures ← Script.ofExcept (signaturesAt credentials position)
  signatures.forM (w.attributeSigner ctx unsigned chain i)
  Script.stage (.spent i.output)
  Script.stage (.redemption (redemption spender chain ctx.time i))

/-- What an input or output of an asset counts toward the totals. -/
def counted (w : Writer) (asset : Identifier) (amount : UInt64) : Nat :=
  if asset = w.asset then amount.toNat else 0

/-- Adds to a total. Totals have 128 bits. -/
def added (total amount : Nat) : Except Failure Nat :=
  if total + amount < 2 ^ 128 then .ok (total + amount) else .error .outOfRange

/-- Spends inputs in order, the first of them at a position among all inputs of the
transaction, and adds them to a total. -/
def spendInputs (w : Writer) (ctx : Context) (spender : Identifier) (unsigned : Bytes)
    (chain : String) (credentials : List Credential) :
    (position total : Nat) → List Input → Script Nat
  | _, total, [] => return total
  | position, total, i :: rest => do
    let total ← Script.ofExcept (added total (w.counted i.asset i.amount))
    w.spendInput ctx spender unsigned chain credentials position i
    w.spendInputs ctx spender unsigned chain credentials (position + 1) total rest

/-- Ties the owner of a new output to it. -/
def linkOwner (w : Writer) (ctx : Context) (place : Place) (asset : Identifier)
    (address : Address) : Script Unit := do
  w.linkAddress ctx place.output place address none
  Script.stage (.activity
    ⟨ActivityRow.identity place.chain asset address place.transaction, place.chain, asset,
     address, place.transaction⟩)

/-- Writes an output and its owners, and adds it to an amount and a total. -/
def placeOutput (w : Writer) (ctx : Context) (place : Place) (asset : Identifier)
    (stake genesis : Bool) (amount total : Nat) (state : OutputState) : Script (Nat × Nat) :=
  match state.columns? with
  | none => .fail (.decoding (.lockedOutput place.transaction place.index))
  | some c => do
    let total ← Script.ofExcept (added total (w.counted asset c.amount))
    let amount ← Script.ofExcept (added amount state.spendable.toNat)
    c.owners.addresses.forM (w.linkOwner ctx place asset)
    Script.stage (.output {
      id := place.output, chain := place.chain, transaction := place.transaction
      index := place.index, asset, kind := c.kind, amount := c.amount
      locktime := c.owners.locktime, threshold := c.owners.threshold, group := c.group
      payload := c.payload, stakeLocktime := c.stakeLocktime, stake, frozen := false
      stakeable := c.stakeable, genesis, created := ctx.time } ctx.overwrite)
    return (amount, total)

/-- A position as the index of an output. -/
def outputIndex (position : Nat) : Except Failure UInt32 :=
  if position < 2 ^ 32 then .ok (UInt32.ofNat position)
  else .error (.decoding (.outputIndex position))

/-- Writes outputs in order, the first of them at a position among all outputs of the
transaction, and adds them to a total. -/
def placeOutputs (w : Writer) (ctx : Context) (transaction : Identifier) (chain : String)
    (stake : Bool) : (position total : Nat) → List Output → Script Nat
  | _, total, [] => return total
  | position, total, o :: rest => do
    let index ← Script.ofExcept (outputIndex position)
    let place : Place := ⟨transaction, index, chain⟩
    let (_, total) ← w.placeOutput ctx place o.asset stake false 0 total o.state
    w.placeOutputs ctx transaction chain stake (position + 1) total rest

/-- The fee as it is stored. -/
def storedFee (t : Transaction) (totalIn totalOut : Nat) : Except Failure UInt64 :=
  let due := if t.genesis then 0 else fee totalIn totalOut t.extraFee.toNat
  if due < 2 ^ 64 then .ok (UInt64.ofNat due)
  else .error (.data (.feeOverflow due t.base.id))

/-- The row of a transaction. -/
def transactionRow (w : Writer) (ctx : Context) (t : Transaction) (fee : UInt64) :
    TransactionRow where
  id := t.base.id
  chain := w.chain
  kind := t.kind
  memo := if t.base.memo.length ≤ maxMemoLength then some t.base.memo else none
  raw := if maxRawLength < t.raw.length then [] else t.raw
  fee := fee
  genesis := t.genesis
  network := t.base.network
  created := ctx.time

@[simp] theorem transactionRow_id (w : Writer) (ctx : Context) (t : Transaction) (fee : UInt64) :
    (w.transactionRow ctx t fee).id = t.base.id := rfl

@[simp] theorem transactionRow_fee (w : Writer) (ctx : Context) (t : Transaction) (fee : UInt64) :
    (w.transactionRow ctx t fee).fee = fee := rfl

/-- Writes every row of a transaction. Credentials belong to the base inputs; those past
them are cut off, so that the extra inputs have no signers. -/
def indexTransaction (w : Writer) (ctx : Context) (t : Transaction) : Script Unit := do
  let totalIn ← w.spendInputs ctx t.base.id t.unsigned w.chain t.credentials 0 0 t.base.inputs
  let totalIn ← match t.extraInputs with
    | none => pure totalIn
    | some extra =>
      w.spendInputs ctx t.base.id t.unsigned extra.chain.text
        (t.credentials.take t.base.inputs.length) t.base.inputs.length totalIn extra.inputs
  let totalOut ← w.placeOutputs ctx t.base.id w.chain false 0 0 t.base.outputs
  let totalOut ← match t.extraOutputs with
    | none => pure totalOut
    | some extra =>
      w.placeOutputs ctx t.base.id extra.chain.text extra.stake t.base.outputs.length totalOut
        extra.outputs
  let fee ← Script.ofExcept (storedFee t totalIn totalOut)
  Script.stage (.transaction (w.transactionRow ctx t fee) ctx.overwrite)

/-- Writes a payload: the transactions of a block in order, or one row. -/
def consume (w : Writer) (ctx : Context) (content : Identifier) : Payload → Script Unit
  | .block b => b.transactions.forM (w.indexTransaction ctx)
  | .trace t => Script.stage (.trace ⟨content, t, ctx.time⟩ ctx.overwrite)
  | .log l => Script.stage (.log ⟨content, l, ctx.time⟩ ctx.overwrite)

end Writer

end LedgerIndex
