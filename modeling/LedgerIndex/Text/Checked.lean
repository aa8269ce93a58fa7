import LedgerIndex.Hash.Sha256
import LedgerIndex.Text.Base58
import LedgerIndex.Text.Hex
import LedgerIndex.Text.Quoted

/-!
# Text with a checksum

A payload is followed by the last four bytes of its SHA-256 digest and the whole
is written in base 58, for identifiers, or in hexadecimal after `0x`, for the
outputs a node reports. Reading takes the checksum off again and refuses a text
whose checksum does not fit.
-/
namespace LedgerIndex.Text.Checked

def checksumLength : Nat := 4

/-- The last four bytes of the digest. -/
def checksum (payload : Bytes) : Bytes :=
  (Hash.Sha256.digest payload).drop (32 - checksumLength)

/-- The payload and its checksum. -/
def protect (payload : Bytes) : Bytes :=
  payload ++ checksum payload

inductive Fault where
  | base58 (source : String) (fault : Base58.Fault)
  | missingPrefix
  | hex (fault : Hex.Fault)
  | tooShort (size : Nat)
  | mismatch
deriving DecidableEq, Repr

def base58Message : Base58.Fault → String
  | .badCharacter c i =>
    s!"provided string contained invalid character {Quoted.char c} at byte {i}"
  | .nonAscii i => s!"provided string contained non-ascii character starting at byte {i}"

/-- A bad digit is shown as the character of its byte value. -/
def hexMessage : Hex.Fault → String
  | .oddLength => "Odd number of digits"
  | .badDigit b i => s!"Invalid character {Quoted.char (Char.ofNat b.toNat)} at position {i}"

def Fault.message : Fault → String
  | .base58 source f => s!"invalid base58 '{source}': {base58Message f}"
  | .missingPrefix => "hex payload is missing 0x prefix"
  | .hex f => s!"invalid hex: {hexMessage f}"
  | .tooShort n => s!"payload of {n} bytes is shorter than its checksum"
  | .mismatch => "checksum mismatch"

/-- The payload of a sealed byte string. -/
def strip (sealed : Bytes) : Except Fault Bytes :=
  if sealed.length < checksumLength then .error (.tooShort sealed.length)
  else
    let payload := sealed.take (sealed.length - checksumLength)
    if sealed.drop payload.length = checksum payload then .ok payload else .error .mismatch

/-- Base 58 text of a payload with its checksum. -/
def encode58 (payload : Bytes) : String :=
  Base58.encode (protect payload)

def decode58 (s : String) : Except Fault Bytes :=
  match Base58.decode s with
  | .error f => .error (.base58 s f)
  | .ok sealed => strip sealed

/-- Hexadecimal text of a payload with its checksum. -/
def encodeHex (payload : Bytes) : String :=
  "0x" ++ Hex.encode (protect payload)

def decodeHex (s : String) : Except Fault Bytes :=
  match Bytes.ofString s with
  | 48 :: 120 :: digits =>
    match Hex.decode digits with
    | .error f => .error (.hex f)
    | .ok sealed => strip sealed
  | _ => .error .missingPrefix

end LedgerIndex.Text.Checked
