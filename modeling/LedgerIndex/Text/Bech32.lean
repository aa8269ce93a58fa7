import LedgerIndex.Bytes
import LedgerIndex.Radix

/-!
# Bech32

A lower-case human-readable part, the separator `1`, the data in groups of five
bits, and six checksum groups.
-/
namespace LedgerIndex.Text.Bech32

/-- What is wrong with a human-readable part. -/
inductive Fault where
  | empty
  | tooLong (bytes : Nat)
  | nonAscii (c : Char)
  | outsidePrintable (code : Nat)
  | mixedCase
deriving DecidableEq, Repr

def Fault.message : Fault → String
  | .empty => "hrp is empty, must have at least 1 character"
  | .tooLong n => s!"hrp is too long, found {n} characters, must be <= 126"
  | .nonAscii c => s!"found non-ASCII character: {c}"
  | .outsidePrintable n =>
    s!"byte value is not valid US-ASCII: '{String.ofList (Nat.toDigits 16 n)}'"
  | .mixedCase => "hrp cannot mix upper and lower case"

/-- The longest human-readable part, in bytes. -/
def maxPartLength : Nat := 83

/-- The first fault among the characters, given which cases came before. -/
def findFault (lower upper : Bool) : List Char → Option Fault
  | [] => none
  | c :: cs =>
    if 127 < c.toNat then some (.nonAscii c)
    else if c.toNat < 33 ∨ 126 < c.toNat then some (.outsidePrintable c.toNat)
    else if c.isLower then
      if upper then some .mixedCase else findFault true upper cs
    else if c.isUpper then
      if lower then some .mixedCase else findFault lower true cs
    else findFault lower upper cs

/-- The fault of a human-readable part. Its length in bytes is judged first. -/
def fault? (part : String) : Option Fault :=
  if part.isEmpty then some .empty
  else if maxPartLength < part.utf8ByteSize then some (.tooLong part.utf8ByteSize)
  else findFault false false part.toList

/-- The characters of five-bit groups in order of value. -/
def alphabet : List Char :=
  "qpzry9x8gf2tvdw0s3jn54khce6mua7l".toList

def generators : List Nat :=
  [0x3b6a57b2, 0x26508e6d, 0x1ea119fa, 0x3d4233dd, 0x2a1462b3]

/-- One step of the checksum polynomial over groups of five bits. -/
def polymodStep (state group : Nat) : Nat :=
  let top := state / 2 ^ 25
  let shifted := (state % 2 ^ 25 * 32) ^^^ group
  generators.zipIdx.foldl (fun s g => if top.testBit g.2 then s ^^^ g.1 else s) shifted

def polymod (groups : List Nat) : Nat :=
  groups.foldl polymodStep 1

/-- High bits, a zero, and low bits of the characters of the part. -/
def expand (part : List Char) : List Nat :=
  part.map (·.toNat / 32) ++ 0 :: part.map (·.toNat % 32)

def checksum (part : List Char) (data : List Nat) : List Nat :=
  let m := polymod (expand part ++ data ++ List.replicate 6 0) ^^^ 1
  [25, 20, 15, 10, 5, 0].map fun shift => m / 2 ^ shift % 32

/-- Bits of a byte string, most significant first. -/
def bits (bs : Bytes) : List Bool :=
  bs.flatMap fun b => [7, 6, 5, 4, 3, 2, 1, 0].map b.toNat.testBit

/-- Five bits at a time; a short last group is filled with zeros. -/
def groups : List Bool → List Nat
  | a :: b :: c :: d :: e :: rest =>
    (16 * a.toNat + 8 * b.toNat + 4 * c.toNat + 2 * d.toNat + e.toNat) :: groups rest
  | [] => []
  | rest =>
    let filled := rest ++ List.replicate (5 - rest.length) false
    [filled.foldl (fun n bit => 2 * n + bit.toNat) 0]

/-- Bech32 text of a byte string under a human-readable part. -/
def encode (part : String) (bs : Bytes) : Except Fault String :=
  match fault? part with
  | some f => .error f
  | none =>
    let lower := part.toList.map Char.toLower
    let data := groups (bits bs)
    .ok (String.ofList (lower ++ '1' :: (data ++ checksum lower data).map (alphabet.getD · 'q')))

end LedgerIndex.Text.Bech32
