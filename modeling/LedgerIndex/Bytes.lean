import LedgerIndex.Radix

/-!
# Byte strings

Bytes are lists, so that a fact about a payload is an induction on it. Fixed
width numbers are written most significant byte first unless a name says
otherwise.
-/
namespace LedgerIndex

abbrev Bytes := List UInt8

namespace Bytes

/-- The low `width` bytes of `n`, most significant first. -/
def ofNat : (width n : Nat) → Bytes
  | 0, _ => []
  | width + 1, n => UInt8.ofNat (n / 256 ^ width) :: ofNat width n

/-- The low `width` bytes of `n`, least significant first. -/
def ofNatLittle : (width n : Nat) → Bytes
  | 0, _ => []
  | width + 1, n => UInt8.ofNat n :: ofNatLittle width (n / 256)

/-- The number whose digits in base 256 are the given bytes. -/
def toNat (bs : Bytes) : Nat :=
  bs.foldl (fun n b => n * 256 + b.toNat) 0

@[simp] theorem length_ofNat (width n : Nat) : (ofNat width n).length = width := by
  induction width with
  | zero => rfl
  | succ width ih => simp [ofNat, ih]

@[simp] theorem length_ofNatLittle (width n : Nat) :
    (ofNatLittle width n).length = width := by
  induction width generalizing n with
  | zero => rfl
  | succ width ih => simp [ofNatLittle, ih]

/-- The UTF-8 form of a text. -/
def ofString (s : String) : Bytes :=
  s.toUTF8.data.toList

/-- The text whose UTF-8 form this is, if it is one. -/
def toString? (bs : Bytes) : Option String :=
  String.fromUTF8? ⟨bs.toArray⟩

theorem toString?_ofString (s : String) : toString? (ofString s) = some s := by
  have h : (⟨(ofString s).toArray⟩ : ByteArray) = s.toByteArray := by
    simp [ofString]
  unfold toString? String.fromUTF8?
  rw [h, dif_pos s.isValidUTF8]
  rfl

end Bytes
end LedgerIndex
