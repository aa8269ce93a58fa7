import LedgerIndex.Bytes

/-!
# The curve `y² = x³ + 7` of secp256k1

Field elements are naturals below the field prime. Points are multiplied in
Jacobian coordinates, where `z = 0` is the point at infinity.
-/
namespace LedgerIndex.Curve

/-- The field prime. -/
def fieldPrime : Nat :=
  0xfffffffffffffffffffffffffffffffffffffffffffffffffffffffefffffc2f

/-- The prime order of the group. -/
def groupOrder : Nat :=
  0xfffffffffffffffffffffffffffffffebaaedce6af48a03bbfd25e8cd0364141

/-- `base ^ exponent` modulo `m`, over the low `bits` bits of the exponent. -/
def powMod (m base exponent : Nat) : (bits : Nat) → Nat
  | 0 => 1 % m
  | bits + 1 =>
    let half := powMod m base (exponent / 2) bits
    let square := half * half % m
    if exponent % 2 = 1 then square * base % m else square

/-- Inverse of a nonzero element modulo a prime below `2 ^ 256`. -/
def invMod (m a : Nat) : Nat :=
  powMod m a (m - 2) 256

/-- Subtraction modulo `m` of numbers below `m`. -/
def subMod (m a b : Nat) : Nat :=
  (a + m - b) % m

/-- An affine point. -/
structure Point where
  x : Nat
  y : Nat
deriving DecidableEq, Repr

/-- The point lies on the curve and its coordinates are reduced. -/
def Point.onCurve (p : Point) : Bool :=
  p.x < fieldPrime && p.y < fieldPrime &&
    p.y * p.y % fieldPrime == (p.x * p.x * p.x + 7) % fieldPrime

/-- The point with the given reduced abscissa and parity of the ordinate. -/
def Point.lift? (x : Nat) (odd : Bool) : Option Point :=
  if x < fieldPrime then
    let square := (x * x * x + 7) % fieldPrime
    let y := powMod fieldPrime square ((fieldPrime + 1) / 4) 256
    if y * y % fieldPrime = square then
      some ⟨x, if (y % 2 == 1) == odd then y else (fieldPrime - y) % fieldPrime⟩
    else none
  else none

structure Jacobian where
  x : Nat
  y : Nat
  z : Nat

def Jacobian.infinity : Jacobian := ⟨1, 1, 0⟩

def Jacobian.ofPoint (p : Point) : Jacobian := ⟨p.x, p.y, 1⟩

def Jacobian.double (p : Jacobian) : Jacobian :=
  if p.z = 0 ∨ p.y = 0 then .infinity
  else
    let yy := p.y * p.y % fieldPrime
    let s := 4 * p.x * yy % fieldPrime
    let m := 3 * p.x * p.x % fieldPrime
    let x := subMod fieldPrime (m * m % fieldPrime) (2 * s % fieldPrime)
    let y := subMod fieldPrime (m * subMod fieldPrime s x % fieldPrime) (8 * yy * yy % fieldPrime)
    ⟨x, y, 2 * p.y * p.z % fieldPrime⟩

def Jacobian.add (p q : Jacobian) : Jacobian :=
  if p.z = 0 then q
  else if q.z = 0 then p
  else
    let pp := p.z * p.z % fieldPrime
    let qq := q.z * q.z % fieldPrime
    let u₁ := p.x * qq % fieldPrime
    let u₂ := q.x * pp % fieldPrime
    let s₁ := p.y * (q.z * qq % fieldPrime) % fieldPrime
    let s₂ := q.y * (p.z * pp % fieldPrime) % fieldPrime
    if u₁ = u₂ then
      if s₁ = s₂ then p.double else .infinity
    else
      let h := subMod fieldPrime u₂ u₁
      let r := subMod fieldPrime s₂ s₁
      let hh := h * h % fieldPrime
      let hhh := h * hh % fieldPrime
      let v := u₁ * hh % fieldPrime
      let x := subMod fieldPrime (r * r % fieldPrime) ((hhh + 2 * v) % fieldPrime)
      let y := subMod fieldPrime (r * subMod fieldPrime v x % fieldPrime) (s₁ * hhh % fieldPrime)
      ⟨x, y, p.z * q.z % fieldPrime * h % fieldPrime⟩

/-- Multiplication by the low `bits` bits of `n`. -/
def Jacobian.multiply (p : Jacobian) (n : Nat) : (bits : Nat) → Jacobian
  | 0 => .infinity
  | bits + 1 =>
    let twice := (p.multiply (n / 2) bits).double
    if n % 2 = 1 then twice.add p else twice

def Jacobian.toPoint? (p : Jacobian) : Option Point :=
  if p.z = 0 then none
  else
    let inverse := invMod fieldPrime p.z
    let square := inverse * inverse % fieldPrime
    some ⟨p.x * square % fieldPrime, p.y * (square * inverse % fieldPrime) % fieldPrime⟩

/-- The standard generator of the group. -/
def generator : Jacobian :=
  ⟨0x79be667ef9dcbbac55a06295ce870b07029bfcdb2dce28d959f2815b16f81798,
   0x483ada7726a3c4655da4fbfc0e1108a8fd17b448a68554199c47d08ffb10d4b8, 1⟩

/-- A point other than infinity, as a public key. -/
structure PublicKey where
  point : Point
deriving DecidableEq, Repr

/-- The 33-byte form: parity of the ordinate, then the abscissa. -/
def PublicKey.compressed (k : PublicKey) : Bytes :=
  (if k.point.y % 2 = 1 then 3 else 2) :: Bytes.ofNat 32 k.point.x

/-- Reads a key of 33 bytes (tag 2 or 3) or of 65 bytes (tag 4; tags 6 and 7
repeat the parity of the ordinate). -/
def PublicKey.ofBytes? (bs : Bytes) : Option PublicKey :=
  match bs with
  | [] => none
  | tag :: body =>
    let x := Bytes.toNat (body.take 32)
    let y := Bytes.toNat (body.drop 32)
    if body.length = 32 ∧ (tag = 2 ∨ tag = 3) then
      PublicKey.mk <$> Point.lift? x (tag == 3)
    else if body.length = 64 ∧ (tag = 4 ∨ tag = 6 ∨ tag = 7) then
      if Point.onCurve ⟨x, y⟩ ∧ (tag = 4 ∨ y % 2 = tag.toNat - 6) then some ⟨⟨x, y⟩⟩ else none
    else none

end LedgerIndex.Curve
