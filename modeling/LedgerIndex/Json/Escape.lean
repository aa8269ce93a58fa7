import LedgerIndex.Bytes
import LedgerIndex.Text.Hex

/-!
# Strings of JSON

A string is kept as the bytes between its quotes. Taking the escapes out gives
bytes, which are a text if they are UTF-8. Surrogates only come in pairs.
-/
namespace LedgerIndex.Json

/-- The form of a byte between quotes. -/
def escapeByte (b : UInt8) : Bytes :=
  if b = 34 then [92, 34]
  else if b = 92 then [92, 92]
  else if b = 8 then [92, 98]
  else if b = 9 then [92, 116]
  else if b = 10 then [92, 110]
  else if b = 12 then [92, 102]
  else if b = 13 then [92, 114]
  else if b < 32 then
    [92, 117, 48, 48, if b < 16 then 48 else 49,
      UInt8.ofNat (Text.Hex.digitChar (b.toNat % 16)).toNat]
  else [b]

def escape (bs : Bytes) : Bytes :=
  bs.flatMap escapeByte

/-- The byte that a one-letter escape stands for. -/
def letter? (b : UInt8) : Option UInt8 :=
  if b = 34 ∨ b = 92 ∨ b = 47 then some b
  else if b = 98 then some 8
  else if b = 102 then some 12
  else if b = 110 then some 10
  else if b = 114 then some 13
  else if b = 116 then some 9
  else none

/-- Four hexadecimal digits. -/
def code? (a b c d : UInt8) : Option Nat := do
  let a ← Text.Hex.digit? a
  let b ← Text.Hex.digit? b
  let c ← Text.Hex.digit? c
  let d ← Text.Hex.digit? d
  return ((a * 16 + b) * 16 + c) * 16 + d

/-- UTF-8 bytes of a code point that is no surrogate. -/
def codePoint (n : Nat) : Bytes :=
  Bytes.ofString (String.singleton (Char.ofNat n))

/-- Takes the escapes out; the bytes done so far are in reverse. -/
def unescapeFrom (done : Bytes) : Bytes → Option Bytes
  | [] => some done.reverse
  | 92 :: 117 :: a :: b :: c :: d :: rest =>
    match code? a b c d with
    | none => none
    | some high =>
      if 0xd800 ≤ high ∧ high < 0xdc00 then
        match rest with
        | 92 :: 117 :: a :: b :: c :: d :: rest =>
          match code? a b c d with
          | none => none
          | some low =>
            if 0xdc00 ≤ low ∧ low < 0xe000 then
              let n := 0x10000 + (high - 0xd800) * 1024 + (low - 0xdc00)
              unescapeFrom ((codePoint n).reverse ++ done) rest
            else none
        | _ => none
      else if 0xdc00 ≤ high ∧ high < 0xe000 then none
      else unescapeFrom ((codePoint high).reverse ++ done) rest
  | 92 :: mark :: rest =>
    match letter? mark with
    | none => none
    | some b => unescapeFrom (b :: done) rest
  | [92] => none
  | b :: rest => unescapeFrom (b :: done) rest

/-- The text of a string, if its escapes and its bytes are in order. -/
def text? (raw : Bytes) : Option String :=
  (unescapeFrom [] raw).bind Bytes.toString?

/-- The bytes between the quotes of a text. -/
def ofText (s : String) : Bytes :=
  escape (Bytes.ofString s)

end LedgerIndex.Json
