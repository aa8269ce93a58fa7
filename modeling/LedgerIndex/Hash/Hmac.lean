import LedgerIndex.Hash.Sha256

/-!
# HMAC over SHA-256

Only keys of at most one block are needed here; a longer key would be hashed
first.
-/
namespace LedgerIndex.Hash.Hmac

def blockKey (key : Bytes) : Bytes :=
  let k := if key.length ≤ 64 then key else Sha256.digest key
  k ++ List.replicate (64 - k.length) 0

/-- The keyed digest of a message. -/
def digest (key message : Bytes) : Bytes :=
  let k := blockKey key
  let inner := Sha256.digest (k.map (· ^^^ 0x36) ++ message)
  Sha256.digest (k.map (· ^^^ 0x5c) ++ inner)

end LedgerIndex.Hash.Hmac
