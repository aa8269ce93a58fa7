import LedgerIndex.Bytes
import LedgerIndex.Radix

/-!
# Base 58

The digits of the number that the bytes spell, in an alphabet without the
look-alikes `0`, `O`, `I` and `l`. Leading zero bytes do not show in the number;
each is written as a leading `1`.
-/
namespace LedgerIndex.Text.Base58

/-- The digits in order of value, as ASCII codes. -/
def alphabet : Bytes :=
  [49, 50, 51, 52, 53, 54, 55, 56, 57, 65, 66, 67, 68, 69, 70, 71, 72, 74, 75, 76, 77, 78, 80, 81,
   82, 83, 84, 85, 86, 87, 88, 89, 90, 97, 98, 99, 100, 101, 102, 103, 104, 105, 106, 107, 109,
   110, 111, 112, 113, 114, 115, 116, 117, 118, 119, 120, 121, 122]

/-- The ASCII code of a digit below 58. -/
def digitCode (d : Nat) : UInt8 :=
  alphabet.getD d 0

/-- The value of a character as a digit. -/
def digit? (c : Char) : Option Nat :=
  alphabet.idxOf? (UInt8.ofNat c.toNat)

/-- Base 58 text of a byte string. -/
def encode (bs : Bytes) : String :=
  let zeros := (bs.takeWhile (· == 0)).length
  let number := Radix.digits 58 (Bytes.toNat bs)
  String.ofList (List.replicate zeros '1' ++
    number.reverse.map fun d => Char.ofNat (digitCode d).toNat)

/-- What is wrong with a text, and at which byte of it. -/
inductive Fault where
  | badCharacter (c : Char) (index : Nat)
  | nonAscii (index : Nat)
deriving DecidableEq, Repr

/-- The digits of a text whose first character stands at byte `index`. Every
character before a refused one is ASCII, so characters and bytes count alike. -/
def digits (index : Nat) : List Char → Except Fault (List Nat)
  | [] => .ok []
  | c :: cs =>
    if 127 < c.toNat then .error (.nonAscii index)
    else match digit? c with
      | none => .error (.badCharacter c index)
      | some d => (d :: ·) <$> digits (index + 1) cs

/-- The bytes a base 58 text stands for. -/
def decode (text : String) : Except Fault Bytes := do
  let ds ← digits 0 text.toList
  let zeros := (ds.takeWhile (· == 0)).length
  let number := Radix.digits 256 (Radix.value 58 ds.reverse)
  return List.replicate zeros 0 ++ number.reverse.map UInt8.ofNat

end LedgerIndex.Text.Base58
