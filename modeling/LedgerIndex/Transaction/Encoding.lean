import LedgerIndex.Json.Record
import LedgerIndex.Transaction.Basic

/-!
# Transactions as JSON

The state of an output and a credential are tagged by a member `type` that may
stand anywhere in the object, or first in an array. What carries a tag is checked
as a whole before it is read, passed-over members included. An output state inside
another may give its tag as a position in the list of variants.
-/
namespace LedgerIndex
open Json

/-- An identifier or address in its text form. -/
def Fixed.decode {n : Nat} : Decoder (Fixed n) := fun levels j => do
  (Fixed.parse (← asText levels j)).toOption

def Fixed.encode {n : Nat} (a : Fixed n) : Json :=
  Json.ofString a.text

/-- A name alone, or an object from the name to nothing. -/
def TransactionKind.decode : Decoder TransactionKind
  | _, .scalar (.string raw) => (text? raw).bind ofName?
  | _ + 1, .object [(key, .scalar .null)] => (text? key).bind ofName?
  | _, _ => none

def TransactionKind.encode (k : TransactionKind) : Json :=
  Json.ofString k.name

def Owners.decode : Decoder Owners
  | 0, _ => none
  | levels + 1, j => do
    let r ← record? ["locktime", "threshold", "addresses"] j
    return {
      locktime := ← r.getD "locktime" 0 (asUInt64 levels)
      threshold := ← r.getD "threshold" 0 (asUInt32 levels)
      addresses := ← r.getD "addresses" [] (asList Fixed.decode levels) }

def encodeBytes (bs : Bytes) : Json :=
  .array (bs.map fun b => Json.ofNat b.toNat)

def Owners.encode (o : Owners) : Json :=
  Json.ofMembers
    [("locktime", Json.ofNat o.locktime.toNat),
     ("threshold", Json.ofNat o.threshold.toNat),
     ("addresses", .array (o.addresses.map Fixed.encode))]

/-- A tagged value taken apart: its tag, and the rest in the same form. -/
structure Tagged where
  tag : Json
  body : Json

/-- Finds the tag. It must not be repeated. -/
def Tagged.ofJson? : Json → Option Tagged
  | .array (tag :: items) => some ⟨tag, .array items⟩
  | .object members =>
    match members.partition fun m => text? m.1 == some "type" with
    | ([tag], rest) => some ⟨tag.2, .object rest⟩
    | _ => none
  | _ => none

/-- The position of a tag among the names of the variants. A tag below another
tagged value may be the position itself. -/
def tagIndex? (names : List String) (nested : Bool) : Json → Option Nat
  | .scalar (.string raw) => (text? raw).bind names.idxOf?
  | .scalar (.number n) =>
    if nested then
      n.toInt?.bind fun i => if 0 ≤ i ∧ i < names.length then some i.toNat else none
    else none
  | _ => none

namespace OutputState

def names : List String :=
  ["transfer", "locked_transfer", "nft_transfer", "nft_mint", "fungible_mint"]

/-- Reads a checked output state. -/
def decodeChecked (nested : Bool) : Decoder OutputState
  | 0, _ => none
  | levels + 1, j => do
    let t ← Tagged.ofJson? j
    match ← tagIndex? names nested t.tag with
    | 0 =>
      let r ← record? ["amount", "owners"] t.body
      return .transfer (← r.get "amount" (asUInt64 levels))
        (← r.get "owners" (Owners.decode levels))
    | 1 =>
      let r ← record? ["locktime", "inner"] t.body
      return .lockedTransfer (← r.get "locktime" (asUInt64 levels))
        (← r.get "inner" (decodeChecked true levels))
    | 2 =>
      let r ← record? ["group_id", "payload", "owners"] t.body
      return .nftTransfer (← r.get "group_id" (asUInt32 levels))
        (← r.getD "payload" [] (asBytes levels)) (← r.get "owners" (Owners.decode levels))
    | 3 =>
      let r ← record? ["group_id", "owners"] t.body
      return .nftMint (← r.get "group_id" (asUInt32 levels))
        (← r.get "owners" (Owners.decode levels))
    | _ =>
      let r ← record? ["owners"] t.body
      return .fungibleMint (← r.get "owners" (Owners.decode levels))

def decode : Decoder OutputState := fun levels j =>
  if isSound levels j then decodeChecked false levels j else none

def encode : OutputState → Json
  | .transfer amount owners => Json.ofMembers
      [("type", Json.ofString "transfer"), ("amount", Json.ofNat amount.toNat),
       ("owners", owners.encode)]
  | .lockedTransfer locktime inner => Json.ofMembers
      [("type", Json.ofString "locked_transfer"), ("locktime", Json.ofNat locktime.toNat),
       ("inner", inner.encode)]
  | .nftTransfer group payload owners => Json.ofMembers
      [("type", Json.ofString "nft_transfer"), ("group_id", Json.ofNat group.toNat),
       ("payload", encodeBytes payload), ("owners", owners.encode)]
  | .nftMint group owners => Json.ofMembers
      [("type", Json.ofString "nft_mint"), ("group_id", Json.ofNat group.toNat),
       ("owners", owners.encode)]
  | .fungibleMint owners => Json.ofMembers
      [("type", Json.ofString "fungible_mint"), ("owners", owners.encode)]

end OutputState

namespace Credential

def names : List String := ["secp256k1", "other"]

/-- Reads a checked credential. The members of one that is not understood are
passed over; written as an array it has none. -/
def decodeChecked : Decoder Credential
  | 0, _ => none
  | levels + 1, j => do
    let t ← Tagged.ofJson? j
    match ← tagIndex? names false t.tag with
    | 0 =>
      let r ← record? ["signatures"] t.body
      return .signatures (← r.get "signatures" (asList asBytes levels))
    | _ =>
      match t.body with
      | .array (_ :: _) => none
      | _ => return .other

def decode : Decoder Credential := fun levels j =>
  if isSound levels j then decodeChecked levels j else none

def encode : Credential → Json
  | .signatures all => Json.ofMembers
      [("type", Json.ofString "secp256k1"), ("signatures", .array (all.map encodeBytes))]
  | .other => Json.ofMembers [("type", Json.ofString "other")]

end Credential

def Input.decode : Decoder Input
  | 0, _ => none
  | levels + 1, j => do
    let r ← record? ["tx_id", "output_index", "asset_id", "amount"] j
    return {
      transaction := ← r.get "tx_id" (Fixed.decode levels)
      index := ← r.get "output_index" (asUInt32 levels)
      asset := ← r.get "asset_id" (Fixed.decode levels)
      amount := ← r.get "amount" (asUInt64 levels) }

def Input.encode (i : Input) : Json :=
  Json.ofMembers
    [("tx_id", i.transaction.encode), ("output_index", Json.ofNat i.index.toNat),
     ("asset_id", i.asset.encode), ("amount", Json.ofNat i.amount.toNat)]

def Output.decode : Decoder Output
  | 0, _ => none
  | levels + 1, j => do
    let r ← record? ["asset_id", "out"] j
    return {
      asset := ← r.get "asset_id" (Fixed.decode levels)
      state := ← r.get "out" (OutputState.decode levels) }

def Output.encode (o : Output) : Json :=
  Json.ofMembers [("asset_id", o.asset.encode), ("out", o.state.encode)]

def PlacedOutput.decode : Decoder PlacedOutput
  | 0, _ => none
  | levels + 1, j => do
    let r ← record? ["tx_id", "output_index", "asset_id", "out"] j
    return {
      transaction := ← r.get "tx_id" (Fixed.decode levels)
      index := ← r.get "output_index" (asUInt32 levels)
      asset := ← r.get "asset_id" (Fixed.decode levels)
      state := ← r.get "out" (OutputState.decode levels) }

def PlacedOutput.encode (o : PlacedOutput) : Json :=
  Json.ofMembers
    [("tx_id", o.transaction.encode), ("output_index", Json.ofNat o.index.toNat),
     ("asset_id", o.asset.encode), ("out", o.state.encode)]

def BaseTransaction.decode : Decoder BaseTransaction
  | 0, _ => none
  | levels + 1, j => do
    let r ← record? ["id", "network_id", "memo", "ins", "outs"] j
    return {
      id := ← r.get "id" (Fixed.decode levels)
      network := ← r.get "network_id" (asUInt32 levels)
      memo := ← r.getD "memo" [] (asBytes levels)
      inputs := ← r.getD "ins" [] (asList Input.decode levels)
      outputs := ← r.getD "outs" [] (asList Output.decode levels) }

def BaseTransaction.encode (t : BaseTransaction) : Json :=
  Json.ofMembers
    [("id", t.id.encode), ("network_id", Json.ofNat t.network.toNat),
     ("memo", encodeBytes t.memo), ("ins", .array (t.inputs.map Input.encode)),
     ("outs", .array (t.outputs.map Output.encode))]

def ExtraInputs.decode : Decoder ExtraInputs
  | 0, _ => none
  | levels + 1, j => do
    let r ← record? ["chain_id", "ins"] j
    return {
      chain := ← r.get "chain_id" (Fixed.decode levels)
      inputs := ← r.get "ins" (asList Input.decode levels) }

def ExtraInputs.encode (e : ExtraInputs) : Json :=
  Json.ofMembers
    [("chain_id", e.chain.encode), ("ins", .array (e.inputs.map Input.encode))]

def ExtraOutputs.decode : Decoder ExtraOutputs
  | 0, _ => none
  | levels + 1, j => do
    let r ← record? ["chain_id", "outs", "stake"] j
    return {
      chain := ← r.get "chain_id" (Fixed.decode levels)
      outputs := ← r.get "outs" (asList Output.decode levels)
      stake := ← r.getD "stake" false (asBool levels) }

def ExtraOutputs.encode (e : ExtraOutputs) : Json :=
  Json.ofMembers
    [("chain_id", e.chain.encode), ("outs", .array (e.outputs.map Output.encode)),
     ("stake", Json.ofBool e.stake)]

namespace Transaction

def decode : Decoder Transaction
  | 0, _ => none
  | levels + 1, j => do
    let r ← record? ["tx_type", "base", "unsigned_bytes", "raw_bytes", "credentials", "extra_ins",
      "extra_outs", "extra_fee", "genesis"] j
    return {
      kind := ← r.get "tx_type" (TransactionKind.decode levels)
      base := ← r.get "base" (BaseTransaction.decode levels)
      unsigned := ← r.getD "unsigned_bytes" [] (asBytes levels)
      raw := ← r.getD "raw_bytes" [] (asBytes levels)
      credentials := ← r.getD "credentials" [] (asList Credential.decode levels)
      extraInputs := ← r.getD "extra_ins" none (asOption ExtraInputs.decode levels)
      extraOutputs := ← r.getD "extra_outs" none (asOption ExtraOutputs.decode levels)
      extraFee := ← r.getD "extra_fee" 0 (asUInt64 levels)
      genesis := ← r.getD "genesis" false (asBool levels) }

def encode (t : Transaction) : Json :=
  Json.ofMembers
    [("tx_type", t.kind.encode), ("base", t.base.encode),
     ("unsigned_bytes", encodeBytes t.unsigned), ("raw_bytes", encodeBytes t.raw),
     ("credentials", .array (t.credentials.map Credential.encode)),
     ("extra_ins", (t.extraInputs.map ExtraInputs.encode).getD (.scalar .null)),
     ("extra_outs", (t.extraOutputs.map ExtraOutputs.encode).getD (.scalar .null)),
     ("extra_fee", Json.ofNat t.extraFee.toNat), ("genesis", Json.ofBool t.genesis)]

end Transaction
end LedgerIndex
