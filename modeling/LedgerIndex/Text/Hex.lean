import LedgerIndex.Bytes

/-!
# Hexadecimal text

Lower case when written, either case when read.
-/
namespace LedgerIndex.Text.Hex

/-- The character of a digit below sixteen. -/
def digitChar (d : Nat) : Char :=
  if d < 10 then Char.ofNat (48 + d) else Char.ofNat (87 + d)

/-- The digit an ASCII byte stands for. -/
def digit? (b : UInt8) : Option Nat :=
  if 48 ≤ b ∧ b ≤ 57 then some (b.toNat - 48)
  else if 97 ≤ b ∧ b ≤ 102 then some (b.toNat - 87)
  else if 65 ≤ b ∧ b ≤ 70 then some (b.toNat - 55)
  else none

/-- Two digits for each byte. -/
def encode (bs : Bytes) : String :=
  String.ofList (bs.flatMap fun b => [digitChar (b.toNat / 16), digitChar (b.toNat % 16)])

/-- What is wrong with a digit string. -/
inductive Fault where
  | oddLength
  | badDigit (byte : UInt8) (index : Nat)
deriving DecidableEq, Repr

/-- Reads digit pairs, the first of which stands at byte `index`. -/
def decodeFrom (index : Nat) : Bytes → Except Fault Bytes
  | [] => .ok []
  | [_] => .error .oddLength
  | hi :: lo :: rest =>
    match digit? hi, digit? lo with
    | none, _ => .error (.badDigit hi index)
    | _, none => .error (.badDigit lo (index + 1))
    | some h, some l => (UInt8.ofNat (16 * h + l) :: ·) <$> decodeFrom (index + 2) rest

/-- Reads a digit string. An odd length is refused before any digit is looked
at; otherwise the first bad digit is named. -/
def decode (text : Bytes) : Except Fault Bytes :=
  if text.length % 2 = 1 then .error .oddLength else decodeFrom 0 text

end LedgerIndex.Text.Hex
