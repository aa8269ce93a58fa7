import LedgerIndex.Proofs.Identities

/-!
# Spelling

A payload with its checksum has one text in base 58, and that text is read as the payload and as
nothing else. So an identifier and its text determine each other, leading zero bytes included,
and no second spelling of an identifier is accepted.
-/
namespace LedgerIndex

namespace Text.Checked

@[simp] theorem length_checksum (payload : Bytes) : (checksum payload).length = checksumLength := by
  rw [checksum, List.length_drop, Hash.Sha256.length_digest]
  rfl

theorem length_protect (payload : Bytes) :
    (protect payload).length = payload.length + checksumLength := by
  rw [protect, List.length_append, length_checksum]

theorem strip_protect (payload : Bytes) : strip (protect payload) = .ok payload := by
  have long : ¬ (protect payload).length < checksumLength := by
    rw [length_protect]
    omega
  have front : (protect payload).take ((protect payload).length - checksumLength) = payload := by
    rw [length_protect, Nat.add_sub_cancel]
    exact List.take_left
  have fits : (protect payload).drop payload.length = checksum payload := List.drop_left
  simp only [strip, if_neg long, front, if_pos fits]

/-- What is accepted is a payload followed by its own checksum. -/
theorem protect_of_strip {wrapped payload : Bytes} (h : strip wrapped = .ok payload) :
    protect payload = wrapped := by
  rw [strip] at h
  split at h
  next => simp at h
  next long =>
    simp only at h
    split at h
    next fits =>
      obtain rfl := Except.ok.inj h
      have front : (wrapped.take (wrapped.length - checksumLength)).length =
          wrapped.length - checksumLength := by
        rw [List.length_take]
        omega
      rw [protect, ← fits, front, List.take_append_drop]
    next => simp at h

theorem decode58_encode58 (payload : Bytes) : decode58 (encode58 payload) = .ok payload := by
  rw [decode58, encode58, Base58.decode_encode]
  exact strip_protect payload

theorem encode58_of_decode58 {s : String} {payload : Bytes} (h : decode58 s = .ok payload) :
    encode58 payload = s := by
  rw [decode58] at h
  split at h
  next => simp at h
  next wrapped read =>
    rw [encode58, protect_of_strip h]
    exact Base58.encode_of_decode read

/-- A text is read as a payload exactly when it is the text of that payload. -/
theorem decode58_eq_ok_iff {s : String} {payload : Bytes} :
    decode58 s = .ok payload ↔ s = encode58 payload := by
  constructor
  · exact fun read => (encode58_of_decode58 read).symm
  · rintro rfl
    exact decode58_encode58 payload

end Text.Checked

namespace Fixed

variable {n : Nat}

theorem ofBytes_bytes (a : Fixed n) : ofBytes a.bytes = .ok a := by
  rw [ofBytes, ofBytes?, dif_pos a.length_bytes]

theorem bytes_of_ofBytes {bs : Bytes} {a : Fixed n} (h : ofBytes bs = .ok a) : a.bytes = bs := by
  by_cases size : bs.length = n
  · rw [ofBytes, ofBytes?, dif_pos size] at h
    obtain rfl := Except.ok.inj h
    rfl
  · rw [ofBytes, ofBytes?, dif_neg size] at h
    simp at h

theorem parse_text (a : Fixed n) : parse a.text = .ok a := by
  rw [parse, text, Text.Checked.decode58_encode58]
  exact ofBytes_bytes a

theorem text_of_parse {s : String} {a : Fixed n} (h : parse s = .ok a) : a.text = s := by
  rw [parse] at h
  split at h
  next => simp at h
  next bs read =>
    rw [text, bytes_of_ofBytes h]
    exact Text.Checked.encode58_of_decode58 read

theorem parse_eq_ok_iff {s : String} {a : Fixed n} : parse s = .ok a ↔ s = a.text := by
  constructor
  · exact fun read => (text_of_parse read).symm
  · rintro rfl
    exact parse_text a

/-- Base 58 text with a checksum is an exact code: reading is the inverse of writing, and what is
read is what is written. The same holds for identifiers of every size and their texts. -/
theorem spelling_exact :
    (∀ (payload : Bytes) (s : String),
      Text.Checked.decode58 s = .ok payload ↔ s = Text.Checked.encode58 payload) ∧
    ∀ n : Nat,
      (∀ a : Fixed n, parse a.text = .ok a) ∧
      (∀ a b : Fixed n, a ≠ b → a.text ≠ b.text) ∧
      ∀ s : String, (∃ a : Fixed n, parse s = .ok a) ↔ ∃ a : Fixed n, s = a.text := by
  refine ⟨fun _ _ => Text.Checked.decode58_eq_ok_iff, fun n => ⟨parse_text, ?_, fun s => ?_⟩⟩
  · exact fun a b different same => different (text_injective same)
  · exact exists_congr fun _ => parse_eq_ok_iff

end Fixed
end LedgerIndex
