import LedgerIndex.Proofs.Spelling

/-!
# Hexadecimal

A text in hexadecimal is read as a payload exactly if, in lower case, it is the text of that
payload. Reading goes byte by byte: a digit is one byte, and no character beyond ASCII has a byte
that could be taken for a digit.
-/
namespace LedgerIndex

namespace Bytes

theorem ofString_eq (s : String) : ofString s = s.toList.flatMap String.utf8EncodeChar := by
  have parts : s.toByteArray = s.toList.utf8Encode := by
    rw [← String.toByteArray_ofList, String.ofList_toList]
  rw [ofString, String.toUTF8_eq_toByteArray, parts, List.utf8Encode, List.toList_data_toByteArray]

theorem ofString_append (s t : String) : ofString (s ++ t) = ofString s ++ ofString t := by
  rw [ofString_eq, ofString_eq, ofString_eq, String.toList_append, List.flatMap_append]

theorem utf8EncodeChar_of_lt {c : Char} (ascii : c.toNat < 128) :
    String.utf8EncodeChar c = [UInt8.ofNat c.toNat] :=
  if_pos (Nat.le_of_lt_succ ascii)

theorem le_of_mem_utf8EncodeChar {c : Char} (wide : 128 ≤ c.toNat) {b : UInt8}
    (member : b ∈ String.utf8EncodeChar c) : 128 ≤ b := by
  -- Each byte of a wider character is a part of its number on top of a mark of 128 or more.
  have high (n k : Nat) (lead : 128 ≤ k) (fits : n + k < 256) : 128 ≤ UInt8.ofNat (n + k) := by
    rw [UInt8.le_iff_toNat_le, UInt8.toNat_ofNat_of_lt' fits]
    exact lead.trans (Nat.le_add_left k n)
  simp only [String.utf8EncodeChar, if_neg (show ¬c.val.toNat ≤ 127 from Nat.not_le.mpr wide)]
    at member
  split at member
  · simp only [List.mem_cons, List.not_mem_nil, or_false] at member
    rcases member with rfl | rfl <;> exact high _ _ (by decide) (by omega)
  · split at member <;> simp only [List.mem_cons, List.not_mem_nil, or_false] at member
    · rcases member with rfl | rfl | rfl <;> exact high _ _ (by decide) (by omega)
    · rcases member with rfl | rfl | rfl | rfl <;> exact high _ _ (by decide) (by omega)

/-- A text that begins with an ASCII byte begins with that character. -/
theorem eq_append_of_ofString_eq_cons {s : String} {b : UInt8} {rest : Bytes} (ascii : b < 128)
    (h : ofString s = b :: rest) :
    ∃ t, s = String.singleton (Char.ofNat b.toNat) ++ t ∧ ofString t = rest := by
  rw [ofString_eq] at h
  cases parts : s.toList with
  | nil => simp [parts] at h
  | cons c cs =>
    rw [parts, List.flatMap_cons] at h
    -- The first byte of a wider character would not be ASCII.
    have narrow : c.toNat < 128 := by
      refine Nat.lt_of_not_le fun wide => ?_
      have some : String.utf8EncodeChar c ≠ [] := String.utf8EncodeChar_ne_nil
      obtain ⟨first, more, bytes⟩ := List.exists_cons_of_ne_nil some
      rw [bytes, List.cons_append] at h
      have high := le_of_mem_utf8EncodeChar wide (bytes ▸ List.mem_cons_self)
      rw [(List.cons.inj h).1] at high
      exact absurd ascii (UInt8.not_lt.mpr high)
    rw [utf8EncodeChar_of_lt narrow] at h
    obtain ⟨first, later⟩ := List.cons.inj h
    have same : Char.ofNat b.toNat = c := by
      rw [← first, UInt8.toNat_ofNat_of_lt' (narrow.trans (by decide)), Char.ofNat_toNat]
    refine ⟨String.ofList cs, ?_, ?_⟩
    · rw [← String.toList_inj, same, parts]
      simp
    · rw [ofString_eq, String.toList_ofList]
      exact later

def lower (b : UInt8) : UInt8 :=
  if 65 ≤ b ∧ b ≤ 90 then b + 32 else b

theorem lower_of_le {b : UInt8} (h : 128 ≤ b) : lower b = b := by
  refine if_neg fun capital => ?_
  exact absurd (UInt8.le_trans h capital.2) (by decide)

theorem map_lower_utf8EncodeChar (c : Char) :
    (String.utf8EncodeChar c).map lower = String.utf8EncodeChar c.toLower := by
  rcases Nat.lt_or_ge c.toNat 128 with ascii | wide
  · have all : ∀ n < 128,
        [lower (UInt8.ofNat n)] = String.utf8EncodeChar (Char.ofNat n).toLower := by
      decide +kernel
    rw [utf8EncodeChar_of_lt ascii, List.map_singleton, all c.toNat ascii, Char.ofNat_toNat]
  · have capital : ¬(c.val ≥ 'A'.val ∧ c.val ≤ 'Z'.val) := by
      rintro ⟨-, bound⟩
      exact absurd (wide.trans (UInt32.le_iff_toNat_le.mp bound)) (by decide)
    have stays : c.toLower = c := dif_neg capital
    rw [stays]
    exact (List.map_congr_left fun b member =>
      lower_of_le (le_of_mem_utf8EncodeChar wide member)).trans (List.map_id _)

theorem map_lower_ofString (s : String) : (ofString s).map lower = ofString s.toLower := by
  have letters : s.toLower.toList = s.toList.map Char.toLower := String.toList_map
  rw [ofString_eq, ofString_eq, letters, List.map_flatMap, List.flatMap_map]
  exact List.flatMap_congr fun c _ => map_lower_utf8EncodeChar c

end Bytes

namespace Text.Hex

def digits (b : UInt8) : Bytes :=
  [UInt8.ofNat (digitChar (b.toNat / 16)).toNat, UInt8.ofNat (digitChar (b.toNat % 16)).toNat]

theorem digit?_eq_some_iff {b : UInt8} {d : Nat} (h : d < 16) :
    digit? b = some d ↔ Bytes.lower b = UInt8.ofNat (digitChar d).toNat := by
  have all : ∀ n < 256, ∀ d < 16, digit? (UInt8.ofNat n) = some d ↔
      Bytes.lower (UInt8.ofNat n) = UInt8.ofNat (digitChar d).toNat := by
    decide +kernel
  have one := all b.toNat b.toNat_lt d h
  rwa [UInt8.ofNat_toNat] at one

theorem lt_of_digit? {b : UInt8} {d : Nat} (h : digit? b = some d) : d < 16 := by
  simp only [digit?, UInt8.le_iff_toNat_le, UInt8.reduceToNat] at h
  split at h
  · cases h
    omega
  · split at h
    · cases h
      omega
    · split at h
      · cases h
        omega
      · cases h

theorem ofString_encode (bs : Bytes) : Bytes.ofString (encode bs) = bs.flatMap digits := by
  have ascii : ∀ d < 16, String.utf8EncodeChar (digitChar d) =
      [UInt8.ofNat (digitChar d).toNat] := by
    decide +kernel
  rw [Bytes.ofString_eq, encode, String.toList_ofList, List.flatMap_assoc]
  refine List.flatMap_congr fun b _ => ?_
  have bound := b.toNat_lt
  simp [digits, ascii (b.toNat / 16) (by omega), ascii (b.toNat % 16) (by omega)]

theorem map_lower_eq_digits_append_iff {hi lo b : UInt8} {rest more : Bytes} :
    (hi :: lo :: rest).map Bytes.lower = digits b ++ more ↔
      digit? hi = some (b.toNat / 16) ∧ digit? lo = some (b.toNat % 16) ∧
        rest.map Bytes.lower = more := by
  have bound := b.toNat_lt
  rw [digit?_eq_some_iff (by omega), digit?_eq_some_iff (by omega)]
  simp [digits]

theorem ofNat_eq_iff {h l : Nat} {b : UInt8} (high : h < 16) (low : l < 16) :
    UInt8.ofNat (16 * h + l) = b ↔ h = b.toNat / 16 ∧ l = b.toNat % 16 := by
  rw [← UInt8.toNat_inj, UInt8.toNat_ofNat_of_lt' (by simp only [UInt8.size]; omega)]
  omega

/-- Pairs of digits are read as bytes exactly if, made small, they are the digits of those. -/
theorem decodeFrom_eq_ok_iff {index : Nat} {text bs : Bytes} :
    decodeFrom index text = .ok bs ↔ text.map Bytes.lower = bs.flatMap digits := by
  -- The cases are those of reading: the end, a digit that is left over, a bad digit on either
  -- side, and a pair of digits before the rest.
  fun_induction decodeFrom index text generalizing bs with
  | case1 => cases bs <;> simp [digits]
  | case2 => cases bs <;> simp [digits]
  | case3 index hi lo rest bad =>
    cases bs with
    | nil => simp
    | cons b bs => rw [List.flatMap_cons, map_lower_eq_digits_append_iff, bad]; simp
  | case4 index hi lo rest bad =>
    cases bs with
    | nil => simp
    | cons b bs => rw [List.flatMap_cons, map_lower_eq_digits_append_iff, bad]; simp
  | case5 index hi lo rest h l low high ih =>
    cases bs with
    | nil => cases decodeFrom (index + 2) rest <;> simp
    | cons b bs =>
      rw [List.flatMap_cons, map_lower_eq_digits_append_iff, ← ih, high, low, Option.some.injEq,
        Option.some.injEq]
      cases decodeFrom (index + 2) rest with
      | error f => simp
      | ok more =>
        rw [Except.map_ok, Except.ok.injEq, List.cons.injEq, Except.ok.injEq,
          ofNat_eq_iff (lt_of_digit? high) (lt_of_digit? low), and_assoc]

theorem length_flatMap_digits (bs : Bytes) : (bs.flatMap digits).length = 2 * bs.length := by
  simp [List.length_flatMap, digits, Nat.mul_comm]

/-- Texts decode to the bytes they spell, in either case. Those of odd length are refused
beforehand. -/
theorem decode_eq_ok_iff {text bs : Bytes} :
    decode text = .ok bs ↔ text.map Bytes.lower = bs.flatMap digits := by
  rw [decode]
  split
  next odd =>
    refine iff_of_false nofun fun same => ?_
    have lengths := congrArg List.length same
    rw [List.length_map, length_flatMap_digits] at lengths
    omega
  next => exact decodeFrom_eq_ok_iff

theorem decode_ofString_eq_ok_iff {text : String} {bs : Bytes} :
    decode (Bytes.ofString text) = .ok bs ↔ text.toLower = encode bs := by
  rw [decode_eq_ok_iff, Bytes.map_lower_ofString, ← ofString_encode]
  exact Bytes.ofString_injective.eq_iff

theorem toLower_encode (bs : Bytes) : (encode bs).toLower = encode bs := by
  have small : ∀ d < 16, Bytes.lower (UInt8.ofNat (digitChar d).toNat) =
      UInt8.ofNat (digitChar d).toNat := by
    decide +kernel
  apply Bytes.ofString_injective
  rw [← Bytes.map_lower_ofString, ofString_encode, List.map_flatMap]
  refine List.flatMap_congr fun b _ => ?_
  have bound := b.toNat_lt
  simp [digits, small (b.toNat / 16) (by omega), small (b.toNat % 16) (by omega)]

end Text.Hex

namespace Text.Checked

theorem strip_eq_ok_iff {wrapped payload : Bytes} :
    strip wrapped = .ok payload ↔ wrapped = protect payload := by
  constructor
  · exact fun taken => (protect_of_strip taken).symm
  · rintro rfl
    exact strip_protect payload

theorem decodeHex_append_eq_ok_iff {text : String} {payload : Bytes} :
    decodeHex ("0x" ++ text) = .ok payload ↔ text.toLower = Hex.encode (protect payload) := by
  have bytes : Bytes.ofString ("0x" ++ text) = 48 :: 120 :: Bytes.ofString text :=
    Bytes.ofString_append _ _
  rw [decodeHex, bytes, ← Hex.decode_ofString_eq_ok_iff]
  cases read : Hex.decode (Bytes.ofString text) with
  | error f => simp [read]
  | ok wrapped => simp only [read, strip_eq_ok_iff, Except.ok.injEq]

/-- The text is the payload and its checksum, each digit in either case. -/
def Spells (s : String) (payload : Bytes) : Prop :=
  ∃ digits : String, s = "0x" ++ digits ∧
    digits.toLower = Hex.encode (payload ++ (Hash.Sha256.digest payload).drop 28)

/-- A text is read as a payload exactly if it spells that payload. -/
theorem decodeHex_eq_ok_iff {s : String} {payload : Bytes} :
    decodeHex s = .ok payload ↔ Spells s payload := by
  constructor
  · intro read
    obtain ⟨digits, start⟩ : ∃ digits, Bytes.ofString s = 48 :: 120 :: digits := by
      rw [decodeHex] at read
      split at read
      next digits start => exact ⟨digits, start⟩
      next => cases read
    obtain ⟨t, rfl, more⟩ := Bytes.eq_append_of_ofString_eq_cons (by decide) start
    obtain ⟨t, rfl, -⟩ := Bytes.eq_append_of_ofString_eq_cons (by decide) more
    rw [← String.append_assoc] at read ⊢
    exact ⟨t, rfl, decodeHex_append_eq_ok_iff.mp read⟩
  · rintro ⟨digits, rfl, same⟩
    exact decodeHex_append_eq_ok_iff.mpr same

theorem decodeHex_encodeHex (payload : Bytes) : decodeHex (encodeHex payload) = .ok payload :=
  decodeHex_append_eq_ok_iff.mpr (Hex.toLower_encode _)

end Text.Checked
end LedgerIndex
