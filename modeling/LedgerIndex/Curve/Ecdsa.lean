import LedgerIndex.Curve.Secp256k1
import LedgerIndex.Hash.Hmac

/-!
# Recoverable ECDSA signatures

A signature is `r ‖ s ‖ v`: two 32-byte scalars and a recovery id that says
which of the points with abscissa `r` the signer used. Signing is deterministic
(the nonce of RFC 6979) and always gives the smaller of the two `s`.
-/
namespace LedgerIndex.Curve.Ecdsa

inductive Fault where
  | badRecoveryId
  | malformedSignature
  | malformedSecret
  | malformedPublicKey
deriving DecidableEq, Repr

def Fault.message : Fault → String
  | .badRecoveryId => "bad recovery id"
  | .malformedSignature => "malformed signature"
  | .malformedSecret => "malformed or out-of-range secret key"
  | .malformedPublicKey => "malformed public key"

structure Signature where
  r : Nat
  s : Nat
  recovery : Nat
deriving DecidableEq, Repr

def Signature.toBytes (σ : Signature) : Bytes :=
  Bytes.ofNat 32 σ.r ++ Bytes.ofNat 32 σ.s ++ [UInt8.ofNat σ.recovery]

/-- Reads 65 bytes. The recovery id is judged before the scalars. -/
def Signature.ofBytes (bs : Bytes) : Except Fault Signature :=
  let r := Bytes.toNat (bs.take 32)
  let s := Bytes.toNat ((bs.drop 32).take 32)
  let v := Bytes.toNat (bs.drop 64)
  if 3 < v then .error .badRecoveryId
  else if r < groupOrder ∧ s < groupOrder then .ok ⟨r, s, v⟩
  else .error .malformedSignature

/-- The key that made a signature over a digest: `r⁻¹ (s R - z G)`. -/
def Signature.recover (σ : Signature) (digest : Bytes) : Except Fault PublicKey :=
  if σ.r = 0 ∨ σ.s = 0 then .error .malformedSignature
  else
    let x := if σ.recovery < 2 then σ.r else σ.r + groupOrder
    match Point.lift? x (σ.recovery % 2 == 1) with
    | none => .error .malformedSignature
    | some nonce =>
      let z := Bytes.toNat digest % groupOrder
      let inverse := invMod groupOrder σ.r
      let u₁ := (groupOrder - z) % groupOrder * inverse % groupOrder
      let u₂ := σ.s * inverse % groupOrder
      let key := (generator.multiply u₁ 256).add ((Jacobian.ofPoint nonce).multiply u₂ 256)
      match key.toPoint? with
      | none => .error .malformedSignature
      | some p => .ok ⟨p⟩

/-- The key and value of the nonce generator of RFC 6979. -/
structure Nonces where
  key : Bytes
  value : Bytes

def Nonces.next (g : Nonces) : Nonces :=
  { g with value := Hash.Hmac.digest g.key g.value }

def Nonces.mix (g : Nonces) (tag : UInt8) (data : Bytes) : Nonces :=
  let key := Hash.Hmac.digest g.key (g.value ++ tag :: data)
  { key, value := Hash.Hmac.digest key g.value }

def Nonces.seed (secret digest : Nat) : Nonces :=
  let data := Bytes.ofNat 32 secret ++ Bytes.ofNat 32 digest
  let start : Nonces := ⟨List.replicate 32 0, List.replicate 32 1⟩
  (start.mix 0 data).mix 1 data

/-- The signature with nonce `k`, unless `k` is unusable. -/
def signWith (secret z k : Nat) : Option Signature :=
  if k = 0 ∨ groupOrder ≤ k then none
  else match (generator.multiply k 256).toPoint? with
    | none => none
    | some nonce =>
      let r := nonce.x % groupOrder
      let s := invMod groupOrder k * ((z + r * secret) % groupOrder) % groupOrder
      if r = 0 ∨ s = 0 then none
      else
        let v := (if groupOrder ≤ nonce.x then 2 else 0) + nonce.y % 2
        if s ≤ groupOrder / 2 then some ⟨r, s, v⟩
        else some ⟨r, groupOrder - s, if v % 2 = 0 then v + 1 else v - 1⟩

/-- Tries nonces in turn; one of the first is usable except with negligible
probability. -/
def signFrom (secret z : Nat) : (tries : Nat) → Nonces → Option Signature
  | 0, _ => none
  | tries + 1, g =>
    let g := g.next
    match signWith secret z (Bytes.toNat g.value) with
    | some σ => some σ
    | none => signFrom secret z tries (g.mix 0 [])

/-- A secret key: 32 bytes of a number from one to below the group order. -/
def secret? (bs : Bytes) : Option Nat :=
  let d := Bytes.toNat bs
  if bs.length = 32 ∧ 0 < d ∧ d < groupOrder then some d else none

/-- Signs a digest. -/
def sign (secret digest : Bytes) : Except Fault Signature :=
  match secret? secret with
  | none => .error .malformedSecret
  | some d =>
    let z := Bytes.toNat digest % groupOrder
    match signFrom d z 16 (Nonces.seed d z) with
    | none => .error .malformedSecret
    | some σ => .ok σ

end LedgerIndex.Curve.Ecdsa
