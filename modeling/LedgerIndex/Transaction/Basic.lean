import LedgerIndex.Identifier

/-!
# Transactions

A transaction spends outputs of earlier ones and creates its own. Outputs moved
in from, or out to, another chain stand beside the base inputs and outputs.
-/
namespace LedgerIndex

inductive TransactionKind where
  | base
  | createAsset
  | operation
  | importation
  | exportation
  | addValidator
  | addAllychainValidator
  | addNominator
  | createChain
  | createAllychain
  | platformImport
  | platformExport
  | advanceTime
  | rewardValidator
deriving DecidableEq, Repr

namespace TransactionKind

def all : List TransactionKind :=
  [.base, .createAsset, .operation, .importation, .exportation, .addValidator,
   .addAllychainValidator, .addNominator, .createChain, .createAllychain, .platformImport,
   .platformExport, .advanceTime, .rewardValidator]

/-- The name in payloads and in the transaction table. -/
def name : TransactionKind → String
  | .base => "base"
  | .createAsset => "create_asset"
  | .operation => "operation"
  | .importation => "import"
  | .exportation => "export"
  | .addValidator => "add_validator"
  | .addAllychainValidator => "add_allychain_validator"
  | .addNominator => "add_nominator"
  | .createChain => "create_chain"
  | .createAllychain => "create_allychain"
  | .platformImport => "pvm_import"
  | .platformExport => "pvm_export"
  | .advanceTime => "advance_time"
  | .rewardValidator => "reward_validator"

def ofName? (s : String) : Option TransactionKind :=
  all.find? (·.name == s)

end TransactionKind

/-- Who may spend an output, how many of them it takes, and from when. -/
structure Owners where
  locktime : UInt64
  threshold : UInt32
  addresses : List Address
deriving DecidableEq

/-- What an output holds. -/
inductive OutputState where
  | transfer (amount : UInt64) (owners : Owners)
  | lockedTransfer (locktime : UInt64) (inner : OutputState)
  | nftTransfer (group : UInt32) (payload : Bytes) (owners : Owners)
  | nftMint (group : UInt32) (owners : Owners)
  | fungibleMint (owners : Owners)
deriving DecidableEq

/-- An output of another transaction that is spent. -/
structure Input where
  transaction : Identifier
  index : UInt32
  asset : Identifier
  amount : UInt64
deriving DecidableEq

/-- The identifier of the output that is spent. -/
def Input.output (i : Input) : Identifier :=
  i.transaction.derive i.index.toUInt64

structure Output where
  asset : Identifier
  state : OutputState
deriving DecidableEq

/-- An output together with where it was created, as a node reports it. -/
structure PlacedOutput where
  transaction : Identifier
  index : UInt32
  asset : Identifier
  state : OutputState
deriving DecidableEq

/-- What authorises an input. -/
inductive Credential where
  | signatures (all : List Bytes)
  | other
deriving DecidableEq

structure BaseTransaction where
  id : Identifier
  network : UInt32
  memo : Bytes
  inputs : List Input
  outputs : List Output
deriving DecidableEq

structure ExtraInputs where
  chain : Identifier
  inputs : List Input
deriving DecidableEq

structure ExtraOutputs where
  chain : Identifier
  outputs : List Output
  stake : Bool
deriving DecidableEq

structure Transaction where
  kind : TransactionKind
  base : BaseTransaction
  unsigned : Bytes
  raw : Bytes
  credentials : List Credential
  extraInputs : Option ExtraInputs
  extraOutputs : Option ExtraOutputs
  extraFee : UInt64
  genesis : Bool
deriving DecidableEq

end LedgerIndex
