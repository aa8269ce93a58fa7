import LedgerIndex.Hash.Ripemd160
import LedgerIndex.Text.Checked
import Std.Data.ExtTreeMap

/-!
# Identifiers and addresses

Transactions, outputs, assets, chains and derived rows are named by 32 bytes,
the owners of outputs by 20. Both are shown in base 58 with a checksum, and both
are ordered by their bytes.
-/
namespace LedgerIndex

/-- Exactly `n` bytes. -/
structure Fixed (n : Nat) where
  bytes : Bytes
  length_bytes : bytes.length = n
deriving DecidableEq

namespace Fixed

@[ext] theorem ext {n : Nat} {a b : Fixed n} (h : a.bytes = b.bytes) : a = b := by
  cases a
  cases b
  simpa using h

instance {n : Nat} : Ord (Fixed n) where
  compare a b := compare a.bytes b.bytes

instance {n : Nat} : Std.TransOrd (Fixed n) :=
  inferInstanceAs (Std.TransCmp (compareOn (Fixed.bytes (n := n))))

instance {n : Nat} : Std.LawfulEqOrd (Fixed n) where
  eq_of_compare {a b} h :=
    Fixed.ext (Std.LawfulEqOrd.eq_of_compare (show compare a.bytes b.bytes = .eq from h))

/-- Zero bytes only. -/
def zero (n : Nat) : Fixed n :=
  ⟨List.replicate n 0, by simp⟩

instance {n : Nat} : Inhabited (Fixed n) := ⟨zero n⟩

def ofBytes? {n : Nat} (bs : Bytes) : Option (Fixed n) :=
  if h : bs.length = n then some ⟨bs, h⟩ else none

/-- The text form. -/
def text {n : Nat} (a : Fixed n) : String :=
  Text.Checked.encode58 a.bytes

instance {n : Nat} : ToString (Fixed n) := ⟨text⟩

/-- Why a text or a byte string names nothing of the wanted size. -/
inductive Fault where
  | text (fault : Text.Checked.Fault)
  | size (got : Nat)
deriving DecidableEq, Repr

def ofBytes {n : Nat} (bs : Bytes) : Except Fault (Fixed n) :=
  match ofBytes? bs with
  | some a => .ok a
  | none => .error (.size bs.length)

/-- Reads the text form. -/
def parse {n : Nat} (s : String) : Except Fault (Fixed n) :=
  match Text.Checked.decode58 s with
  | .error f => .error (.text f)
  | .ok bs => ofBytes bs

end Fixed

/-- Names a transaction, an output, an asset, a chain or a derived row. -/
abbrev Identifier := Fixed 32

/-- Names an owner of outputs. -/
abbrev Address := Fixed 20

namespace Identifier

-- Tables are keyed by identifiers and addresses: their order is found once, under a name.
instance instTransOrd : Std.TransOrd Identifier :=
  inferInstance

/-- The identifier of some content. -/
def ofContent (content : Bytes) : Identifier :=
  ⟨Hash.Sha256.digest content, Hash.Sha256.length_digest content⟩

/-- The identifier of the thing numbered `n` that belongs to `id`: an output of
a transaction, for instance. -/
def derive (id : Identifier) (n : UInt64) : Identifier :=
  ofContent (Bytes.ofNat 8 n.toNat ++ id.bytes)

end Identifier

namespace Address

instance instTransOrd : Std.TransOrd Address :=
  inferInstance

/-- The address that a compressed public key controls. -/
def ofKey (compressed : Bytes) : Address :=
  ⟨Hash.Ripemd160.digest (Hash.Sha256.digest compressed), Hash.Ripemd160.length_digest _⟩

end Address
end LedgerIndex
