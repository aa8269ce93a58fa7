import LedgerIndex.Bytes
import LedgerIndex.Radix

/-!
# Numbers of JSON

A number keeps its digits. Integers are exact. A number that is only carried
along must still fit a 64-bit binary floating point value, which is judged the
way a reader with a 64-bit significand sees it: digits past that are counted,
not read.
-/
namespace LedgerIndex.Json

/-- ASCII digits of a number, split at the point and the exponent mark. -/
structure Number where
  negative : Bool
  whole : Bytes
  fraction : Bytes
  exponent : Option (Bool × Bytes)
deriving DecidableEq, Repr

def isDigit (b : UInt8) : Bool := 48 ≤ b && b ≤ 57

def digitValue (b : UInt8) : Nat := b.toNat - 48

/-- The number that ASCII digits spell. -/
def spelled (ds : Bytes) : Nat :=
  ds.foldl (fun n b => 10 * n + digitValue b) 0

/-- The ASCII digits of a natural number. -/
def spell (n : Nat) : Bytes :=
  (Radix.writtenDigits 10 n).map fun d => UInt8.ofNat (48 + d)

namespace Number

/-- The exponent part of a token. -/
def exponent? : Bytes → Option (Option (Bool × Bytes))
  | [] => some none
  | mark :: rest =>
    if mark = 101 ∨ mark = 69 then
      let (negative, ds) : Bool × Bytes := match rest with
        | 45 :: ds => (true, ds)
        | 43 :: ds => (false, ds)
        | ds => (false, ds)
      if ds ≠ [] ∧ ds.all isDigit then some (some (negative, ds)) else none
    else none

/-- A number from all the characters of its token: no superfluous leading zero,
and at least one digit on each side of a point. -/
def ofToken? (token : Bytes) : Option Number :=
  let (negative, token) : Bool × Bytes := match token with
    | 45 :: rest => (true, rest)
    | _ => (false, token)
  let whole := token.takeWhile isDigit
  let rest := token.dropWhile isDigit
  if whole = [] ∨ (whole.head? = some 48 ∧ whole.length ≠ 1) then none
  else match rest with
    | 46 :: rest =>
      let fraction := rest.takeWhile isDigit
      if fraction = [] then none
      else (Number.mk negative whole fraction ·) <$> exponent? (rest.dropWhile isDigit)
    | _ => (Number.mk negative whole [] ·) <$> exponent? rest

/-- The token of a number. -/
def token (n : Number) : Bytes :=
  (if n.negative then [45] else []) ++ n.whole
    ++ (if n.fraction = [] then [] else 46 :: n.fraction)
    ++ match n.exponent with
      | none => []
      | some (negative, ds) => 101 :: (if negative then [45] else []) ++ ds

def ofNat (n : Nat) : Number :=
  ⟨false, spell n, [], none⟩

/-- The integer this number is written as. Minus zero is not an integer. -/
def toInt? (n : Number) : Option Int :=
  if n.fraction = [] ∧ n.exponent = none then
    let value := spelled n.whole
    if n.negative then
      if value = 0 then none else some (-(value : Int))
    else some value
  else none

/-- Largest significand that is read exactly. -/
def significandLimit : Nat := 2 ^ 64 - 1

/-- Reads whole digits into a significand; once it is full, counts the others. -/
def readWhole (s skipped : Nat) : Bytes → Nat × Nat
  | [] => (s, skipped)
  | b :: ds =>
    if 0 < skipped ∨ significandLimit < 10 * s + digitValue b then readWhole s (skipped + 1) ds
    else readWhole (10 * s + digitValue b) 0 ds

/-- Reads fraction digits into a significand until it is full. -/
def readFraction (s : Nat) (e : Int) : Bytes → Nat × Int
  | [] => (s, e)
  | b :: ds =>
    if significandLimit < 10 * s + digitValue b then (s, e)
    else readFraction (10 * s + digitValue b) (e - 1) ds

/-- Nearest number of at most 53 binary digits, the even one of two. -/
def round53 (n : Nat) : Nat :=
  let shift := n.log2 - 52
  let unit := 2 ^ shift
  let q := n / unit
  let r := n % unit
  if 2 * r < unit ∨ (2 * r = unit ∧ q % 2 = 0) then q * unit else (q + 1) * unit

/-- The product of a significand and a power of ten, each rounded, is beyond the
largest finite value. -/
def overflows (s : Nat) (e : Int) : Bool :=
  if e < 0 ∨ s = 0 then false
  else if 308 < e then true
  else 2 ^ 1024 - 2 ^ 970 ≤ round53 s * round53 (10 ^ e.toNat)

/-- The significand that is read, and the power of ten that goes with it. -/
def parts (n : Number) : Nat × Int :=
  let (s, skipped) := readWhole 0 0 n.whole
  let (s, e) := readFraction s skipped n.fraction
  match n.exponent with
  | none => (s, e)
  | some (negative, ds) => (s, if negative then e - spelled ds else e + spelled ds)

/-- The number fits a finite 64-bit binary floating point value. An exponent of
`2 ^ 31` and more is too large for any significand but zero. -/
def isFinite (n : Number) : Bool :=
  let (s, e) := n.parts
  match n.exponent with
  | some (negative, ds) =>
    if 2 ^ 31 ≤ spelled ds then negative || s == 0 else !overflows s e
  | none => !overflows s e

/-- Multiplies by a power of ten, in steps that a floating point value can hold. -/
def scale (x : Float) (e : Int) : Float :=
  if x == 0.0 then x
  else if 0 ≤ e then x * Float.ofScientific 1 false (min e.toNat 309)
  else if -308 ≤ e then x / Float.ofScientific 1 false (-e).toNat
  else scale (x / 1e308) (e + 308)
termination_by (-e).toNat

/-- The floating point value that is read. Significand and power of ten are rounded
each on its own, so it may miss the nearest one. -/
def toFloat (n : Number) : Float :=
  let (s, e) := n.parts
  let x := scale (UInt64.ofNat s).toFloat e
  if n.negative then -x else x

end Number
end LedgerIndex.Json
