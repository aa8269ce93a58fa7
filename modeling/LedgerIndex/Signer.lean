import LedgerIndex.Failure

/-!
# Signers

The key behind a signature over the unsigned bytes of a transaction, the address of
that key, and the form in which an address is displayed.
-/
namespace LedgerIndex

namespace Signer

/-- The size of a recoverable signature. -/
def signatureSize : Nat := 65

/-- The key that signed. The size is judged before the signature is looked into. -/
def recover (unsigned signature : Bytes) : Except Failure Curve.PublicKey :=
  if signature.length ≠ signatureSize then
    .error (.decoding (.signatureSize signature.length))
  else
    let key := do (← Curve.Ecdsa.Signature.ofBytes signature).recover (Hash.Sha256.digest unsigned)
    key.mapError fun f => .decoding (.curve f)

/-- Signs the unsigned bytes of a transaction. -/
def sign (secret unsigned : Bytes) : Except Failure Bytes :=
  match Curve.Ecdsa.sign secret (Hash.Sha256.digest unsigned) with
  | .ok signature => .ok signature.toBytes
  | .error f => .error (.decoding (.curve f))

/-- Reads a key that is given as such. -/
def readKey (bs : Bytes) : Except Failure Curve.PublicKey :=
  match Curve.PublicKey.ofBytes? bs with
  | some key => .ok key
  | none => .error (.decoding (.curve .malformedPublicKey))

end Signer

/-- The address that a key controls. -/
def Curve.PublicKey.address (key : Curve.PublicKey) : Address :=
  Address.ofKey key.compressed

/-- The display form of an address under a human-readable part. -/
def Address.display (part : String) (address : Address) : Except Failure String :=
  (Text.Bech32.encode part address.bytes).mapError fun f => .settings (.badPart part f)

end LedgerIndex
