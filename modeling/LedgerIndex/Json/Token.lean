import LedgerIndex.Json.Number
import LedgerIndex.Text.Hex

/-!
# Tokens of JSON

Scanning looks at one byte at a time. A token is lexically sound, no more: the
escapes of a string are well formed but need not stand for a text, and a number
may be too large for anything.
-/
namespace LedgerIndex

/-- A value without parts. A string is the bytes between its quotes. -/
inductive Json.Scalar where
  | null
  | bool (b : Bool)
  | number (n : Json.Number)
  | string (raw : Bytes)
deriving DecidableEq, Repr

inductive Json.Token where
  | openArray
  | closeArray
  | openObject
  | closeObject
  | comma
  | colon
  | scalar (s : Json.Scalar)
deriving DecidableEq, Repr

namespace Json

def Scalar.text : Scalar → Bytes
  | .null => [110, 117, 108, 108]
  | .bool true => [116, 114, 117, 101]
  | .bool false => [102, 97, 108, 115, 101]
  | .number n => n.token
  | .string raw => 34 :: raw ++ [34]

def Token.text : Token → Bytes
  | .openArray => [91]
  | .closeArray => [93]
  | .openObject => [123]
  | .closeObject => [125]
  | .comma => [44]
  | .colon => [58]
  | .scalar s => s.text

/-- Where a scan stands. The bytes of an unfinished token are in reverse. -/
inductive Scan where
  | between
  | word (rest : Bytes) (meaning : Scalar)
  | number (done : Bytes)
  | string (done : Bytes)
  | escape (done : Bytes)
  | code (done : Bytes) (left : Nat)

def isBlank (b : UInt8) : Bool :=
  b == 32 || b == 9 || b == 10 || b == 13

/-- The byte may be part of a number. -/
def isNumeric (b : UInt8) : Bool :=
  isDigit b || b == 45 || b == 43 || b == 46 || b == 101 || b == 69

/-- The first byte of a token, or a blank. -/
def Scan.start (b : UInt8) : Option (List Token × Scan) :=
  if isBlank b then some ([], .between)
  else if b = 91 then some ([.openArray], .between)
  else if b = 93 then some ([.closeArray], .between)
  else if b = 123 then some ([.openObject], .between)
  else if b = 125 then some ([.closeObject], .between)
  else if b = 44 then some ([.comma], .between)
  else if b = 58 then some ([.colon], .between)
  else if b = 34 then some ([], .string [])
  else if b = 110 then some ([], .word [117, 108, 108] .null)
  else if b = 116 then some ([], .word [114, 117, 101] (.bool true))
  else if b = 102 then some ([], .word [97, 108, 115, 101] (.bool false))
  else if b = 45 || isDigit b then some ([], .number [b])
  else none

/-- The tokens that a byte completes, and where the scan stands after it. -/
def Scan.step : Scan → UInt8 → Option (List Token × Scan)
  | .between, b => start b
  | .word [] _, _ => none
  | .word [last] meaning, b =>
    if b = last then some ([.scalar meaning], .between) else none
  | .word (next :: rest) meaning, b => if b = next then some ([], .word rest meaning) else none
  | .number done, b =>
    if isNumeric b then some ([], .number (b :: done))
    else do
      let n ← Number.ofToken? done.reverse
      let (tokens, after) ← start b
      return (.scalar (.number n) :: tokens, after)
  | .string done, b =>
    if b = 34 then some ([.scalar (.string done.reverse)], .between)
    else if b = 92 then some ([], .escape (b :: done))
    else if b < 32 then none
    else some ([], .string (b :: done))
  | .escape done, b =>
    if b = 117 then some ([], .code (b :: done) 3)
    else if b = 34 ∨ b = 92 ∨ b = 47 ∨ b = 98 ∨ b = 102 ∨ b = 110 ∨ b = 114 ∨ b = 116 then
      some ([], .string (b :: done))
    else none
  | .code done left, b =>
    match Text.Hex.digit? b, left with
    | none, _ => none
    | some _, 0 => some ([], .string (b :: done))
    | some _, left + 1 => some ([], .code (b :: done) left)

/-- The tokens completed by the end of the text. -/
def Scan.finish : Scan → Option (List Token)
  | .between => some []
  | .number done => do return [.scalar (.number (← Number.ofToken? done.reverse))]
  | _ => none

/-- Scans on; the tokens found so far are in reverse. -/
def Scan.run (scan : Scan) (found : List Token) : Bytes → Option (List Token)
  | [] => scan.finish.map fun tokens => (tokens.reverse ++ found).reverse
  | b :: rest =>
    match scan.step b with
    | none => none
    | some (tokens, scan) => scan.run (tokens.reverse ++ found) rest

/-- The tokens of a text. -/
def tokens? (bs : Bytes) : Option (List Token) :=
  Scan.between.run [] bs

end Json
end LedgerIndex
