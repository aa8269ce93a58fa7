import LedgerIndex.Payload
import LedgerIndex.Timestamp

/-!
# Rows

One structure for each table of the index. A row whose identity is a hash of its
content carries that hash as `id`. What depends on the message alone stands in the rows:
the columns that show when the indexer itself wrote a row stand beside them, as stamps.
-/
namespace LedgerIndex

inductive OutputKind where
  | fungibleMint
  | transfer
  | nftMint
  | nftTransfer
deriving DecidableEq, Repr

namespace OutputKind

/-- The number in the output table. -/
def code : OutputKind → Nat
  | .fungibleMint => 6
  | .transfer => 7
  | .nftMint => 10
  | .nftTransfer => 11

def name : OutputKind → String
  | .fungibleMint => "secp256k1_mint"
  | .transfer => "secp256k1_transfer"
  | .nftMint => "nft_mint"
  | .nftTransfer => "nft_transfer"

def ofName? (s : String) : Option OutputKind :=
  [fungibleMint, transfer, nftMint, nftTransfer].find? (·.name == s)

end OutputKind

/-- What a block of the platform chain decides. -/
inductive BlockKind where
  | proposal
  | abort
  | commit
  | standard
  | atomic
deriving DecidableEq, Repr

namespace BlockKind

def all : List BlockKind := [.proposal, .abort, .commit, .standard, .atomic]

/-- The number in the block table. -/
def code : BlockKind → Nat
  | .proposal => 0
  | .abort => 1
  | .commit => 2
  | .standard => 3
  | .atomic => 4

def ofCode? (n : Int) : Option BlockKind :=
  all.find? fun k => (k.code : Int) == n

def name : BlockKind → String
  | .proposal => "proposal"
  | .abort => "abort"
  | .commit => "commit"
  | .standard => "standard"
  | .atomic => "atomic"

def ofName? (s : String) : Option BlockKind :=
  all.find? (·.name == s)

end BlockKind

/-- A transaction. A memo past the limit is missing, raw bytes past theirs are empty. -/
structure TransactionRow where
  id : Identifier
  chain : String
  kind : TransactionKind
  memo : Option Bytes
  raw : Bytes
  fee : UInt64
  genesis : Bool
  network : UInt32
  created : Timestamp
deriving DecidableEq

structure OutputRow where
  id : Identifier
  chain : String
  transaction : Identifier
  index : UInt32
  asset : Identifier
  kind : OutputKind
  amount : UInt64
  locktime : UInt64
  threshold : UInt32
  group : UInt32
  payload : Bytes
  stakeLocktime : UInt64
  stake : Bool
  frozen : Bool
  stakeable : Bool
  genesis : Bool
  created : Timestamp
deriving DecidableEq

/-- The spend of an output, under the identifier of the output. -/
structure RedemptionRow where
  id : Identifier
  redeemed : Timestamp
  redeemer : Identifier
  amount : UInt64
  index : UInt32
  transaction : Identifier
  asset : Identifier
  chain : String
  created : Timestamp
deriving DecidableEq

structure AddressRow where
  address : Address
  key : Bytes
  created : Timestamp
deriving DecidableEq

/-- An address has been seen on a chain. -/
structure PresenceRow where
  address : Address
  chain : String
  created : Timestamp
deriving DecidableEq

/-- How an address is displayed. -/
structure DisplayRow where
  address : Address
  text : String
deriving DecidableEq

/-- An output belongs to an address; the signature that spent it, if known. -/
structure HoldingRow where
  output : Identifier
  address : Address
  signature : Option Bytes
  created : Timestamp
deriving DecidableEq

/-- A contribution of one output to the balance of one address. -/
structure DeltaRow where
  id : Identifier
  output : Identifier
  address : Address
  transaction : Identifier
  index : UInt32
deriving DecidableEq

/-- A contribution that is marked once its output has been spent. -/
structure IncomingRow where
  delta : DeltaRow
  spent : Bool
deriving DecidableEq

/-- A transaction concerns an address on a chain in an asset. -/
structure ActivityRow where
  id : Identifier
  chain : String
  asset : Identifier
  address : Address
  transaction : Identifier
deriving DecidableEq

structure TraceRow where
  id : Identifier
  trace : Trace
  created : Timestamp
deriving DecidableEq

structure LogRow where
  id : Identifier
  log : Log
  created : Timestamp
deriving DecidableEq

/-- A reward decided by the child of a block. -/
structure RewardRow where
  block : String
  transaction : Identifier
  processed : Bool
  created : Timestamp
deriving DecidableEq

structure BlockRow where
  parent : String
  kind : BlockKind
deriving DecidableEq

/-- The identity of a contribution. -/
def DeltaRow.identity (output : Identifier) (address : Address) : Identifier :=
  Identifier.ofContent (Bytes.ofString s!"{output}:{address}")

/-- The identity of an activity. -/
def ActivityRow.identity (chain : String) (asset : Identifier) (address : Address)
    (transaction : Identifier) : Identifier :=
  Identifier.ofContent (Bytes.ofString s!"{chain}:{asset}:{address}:{transaction}")

end LedgerIndex
