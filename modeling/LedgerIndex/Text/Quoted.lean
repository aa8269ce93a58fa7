import LedgerIndex.Bytes
import LedgerIndex.Text.Hex
import LedgerIndex.Text.Hidden

/-!
# Quoted text

How texts, single characters and raw bytes are shown inside a message. A
character without a visible form is written as its code point in braces; a byte
that is no part of a character is written as two upper-case hexadecimal digits.
-/
namespace LedgerIndex.Text.Quoted

/-- Lower-case hexadecimal digits without padding. -/
def hexDigits (n : Nat) : List Char :=
  Nat.toDigits 16 n

/-- A character inside quotes, where the given quotes are escaped. -/
def escape (quotes : List Char) (c : Char) : List Char :=
  if c = '\x00' then ['\\', '0']
  else if c = '\t' then ['\\', 't']
  else if c = '\r' then ['\\', 'r']
  else if c = '\n' then ['\\', 'n']
  else if c = '\\' ∨ c ∈ quotes then ['\\', c]
  else if c.toNat < 32 ∨ isHidden c then '\\' :: 'u' :: '\x7b' :: hexDigits c.toNat ++ ['\x7d']
  else [c]

/-- A character in single quotes. -/
def char (c : Char) : String :=
  String.ofList ('\'' :: escape ['\''] c ++ ['\''])

/-- A text in double quotes. -/
def text (s : String) : String :=
  String.ofList ('"' :: s.toList.flatMap (escape ['"']) ++ ['"'])

/-- A list of texts. -/
def list (ss : List String) : String :=
  "[" ++ ", ".intercalate (ss.map text) ++ "]"

/-- The character that the bytes begin with, and how many bytes it takes. -/
def head? (bs : Bytes) : Option (Char × Nat) :=
  [1, 2, 3, 4].findSome? fun n => do
    let s ← Bytes.toString? (bs.take n)
    let c ← s.toList.head?
    return (c, n)

/-- Escapes all but the first `skip` bytes. -/
def escapeBytes : (skip : Nat) → Bytes → List Char
  | _, [] => []
  | skip + 1, _ :: bs => escapeBytes skip bs
  | 0, b :: bs =>
    match head? (b :: bs) with
    | some (c, n) => escape ['"'] c ++ escapeBytes (n - 1) bs
    | none =>
      ['\\', 'x', (Hex.digitChar (b.toNat / 16)).toUpper, (Hex.digitChar (b.toNat % 16)).toUpper]
        ++ escapeBytes 0 bs

/-- Bytes in double quotes, read as UTF-8 as far as they are. -/
def bytes (bs : Bytes) : String :=
  String.ofList ('"' :: escapeBytes 0 bs ++ ['"'])

end LedgerIndex.Text.Quoted
