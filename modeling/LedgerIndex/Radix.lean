/-!
# Positional numerals

Digits of a natural number in an arbitrary base, least significant first. The
text encodings of this library (decimal, base 58, base 256) are all numerals,
and share these two functions.
-/
namespace LedgerIndex.Radix

/-- A power of a number is the core library's, also where a theory of monoids offers its own. -/
@[default_instance 20000]
instance (priority := 20000) instPow {α : Type} [NatPow α] : Pow α Nat :=
  instPowNat

/-- At most `limit` digits of `n` in base `b`, least significant first. -/
def digitsUpTo (b : Nat) : (limit n : Nat) → List Nat
  | 0, _ => []
  | limit + 1, n => if n = 0 then [] else n % b :: digitsUpTo b limit (n / b)

/-- The digits of `n` in base `b`, least significant first; none for zero. A
number below `2 ^ k` has at most `k` digits in any base. -/
def digits (b n : Nat) : List Nat :=
  digitsUpTo b (n.log2 + 1) n

/-- The number with the given digits, least significant first. -/
def value (b : Nat) (ds : List Nat) : Nat :=
  ds.foldr (fun d n => d + b * n) 0

/-- Zero has one digit when written out. -/
def writtenDigits (b n : Nat) : List Nat :=
  if n = 0 then [0] else (digits b n).reverse

end LedgerIndex.Radix
