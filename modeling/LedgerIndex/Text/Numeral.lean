/-!
# Numbers and truth values in settings

Decimal digits with an optional plus sign, and the words `true` and `false`.
-/
namespace LedgerIndex.Text.Numeral

inductive Fault where
  | empty
  | badDigit
  | tooLarge
  | notBoolean
deriving DecidableEq, Repr

def Fault.message : Fault → String
  | .empty => "cannot parse integer from empty string"
  | .badDigit => "invalid digit found in string"
  | .tooLarge => "number too large to fit in target type"
  | .notBoolean => "provided string was not \x60true\x60 or \x60false\x60"

/-- Continues a number; stops at the first character that is no digit or makes
it exceed the limit. -/
def readFrom (limit n : Nat) : List Char → Except Fault Nat
  | [] => .ok n
  | c :: cs =>
    if c.isDigit then
      let n := 10 * n + (c.toNat - 48)
      if n ≤ limit then readFrom limit n cs else .error .tooLarge
    else .error .badDigit

/-- A number that is at most `limit`. -/
def read (limit : Nat) (s : String) : Except Fault Nat :=
  match s.toList with
  | [] => .error .empty
  | ['+'] => .error .badDigit
  | '+' :: cs => readFrom limit 0 cs
  | cs => readFrom limit 0 cs

def readBool (s : String) : Except Fault Bool :=
  if s = "true" then .ok true
  else if s = "false" then .ok false
  else .error .notBoolean

end LedgerIndex.Text.Numeral
