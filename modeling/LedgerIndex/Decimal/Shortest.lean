import LedgerIndex.Radix

/-!
# Shortest decimal text of a binary floating point number

The text has the fewest significant digits that still read back as the same
number, the nearest such digits to it, and no exponent. The search runs over
decimal grids from coarse to fine, in exact arithmetic on `m * 2 ^ q`.
-/
namespace LedgerIndex.Decimal

/-- A positive dyadic number `m * 2 ^ q`; `edge` says that the gap below it is
half the gap above. -/
structure Dyadic where
  m : Nat
  q : Int
  edge : Bool

/-- A quarter of the unit of `m`, as a fraction, measured in units of `10 ^ k`. -/
def Dyadic.quarter (v : Dyadic) (k : Int) : Nat × Nat :=
  let e := v.q - 2
  (2 ^ e.toNat * 10 ^ (-k).toNat, 2 ^ (-e).toNat * 10 ^ k.toNat)

/-- The number `d * 10 ^ k` is read back as `v`. -/
def Dyadic.readsBack (v : Dyadic) (k : Int) (d : Nat) : Bool :=
  let (num, den) := v.quarter k
  let low := (4 * v.m - if v.edge then 1 else 2) * num
  let high := (4 * v.m + 2) * num
  if v.m % 2 = 0 then low ≤ d * den && d * den ≤ high
  else low < d * den && d * den < high

/-- The multiple of `10 ^ k` next to `v` that reads back as `v`; of two, the
nearer one. -/
def Dyadic.onGrid? (v : Dyadic) (k : Int) : Option Nat :=
  let (num, den) := v.quarter k
  let d := 4 * v.m * num / den
  let rest := 4 * v.m * num - d * den
  match v.readsBack k d, v.readsBack k (d + 1) with
  | true, true => some (if 2 * rest ≤ den then d else d + 1)
  | true, false => some d
  | false, true => some (d + 1)
  | false, false => none

/-- The coarsest of the `steps` grids below `10 ^ top` that has a hit. -/
def Dyadic.search (v : Dyadic) (top : Int) : (steps : Nat) → Nat × Int
  | 0 => (0, 0)
  | steps + 1 =>
    match v.onGrid? top with
    | some d => (d, top)
    | none => v.search (top - 1) steps

/-- Shortest digits and their decimal exponent. -/
def Dyadic.shortest (v : Dyadic) : Nat × Int :=
  v.search 309 640

/-- The number `d * 10 ^ k` in positional notation. -/
def positional (d : Nat) (k : Int) : String :=
  let digits := Nat.toDigits 10 d
  if 0 ≤ k then String.ofList (digits ++ List.replicate k.toNat '0')
  else
    let places := (-k).toNat
    let padded := List.replicate (places + 1 - digits.length) '0' ++ digits
    String.ofList (padded.take (padded.length - places) ++ '.' ::
      padded.drop (padded.length - places))

/-- Sign, exponent field and fraction field of the 64-bit format. -/
def fields (bits : Nat) : Bool × Nat × Nat :=
  (bits / 2 ^ 63 % 2 == 1, bits / 2 ^ 52 % 2 ^ 11, bits % 2 ^ 52)

/-- Text of the number with the given 64-bit pattern. -/
def textOfBits (bits : Nat) : String :=
  let (negative, exponent, fraction) := fields bits
  let sign := if negative then "-" else ""
  if exponent = 2047 then
    if fraction = 0 then sign ++ "inf" else "NaN"
  else if exponent = 0 ∧ fraction = 0 then sign ++ "0"
  else
    let v : Dyadic :=
      if exponent = 0 then ⟨fraction, -1074, false⟩
      else ⟨2 ^ 52 + fraction, (exponent : Int) - 1075, fraction == 0 && 1 < exponent⟩
    let (d, k) := v.shortest
    sign ++ positional d k

/-- Text of a floating point number. -/
def text (x : Float) : String :=
  textOfBits x.toBits.toNat

end LedgerIndex.Decimal
