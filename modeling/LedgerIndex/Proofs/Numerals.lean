import LedgerIndex.Text.Base58
import Mathlib.Data.List.TakeWhile
import Mathlib.Data.Nat.Digits.Lemmas

/-!
# Numerals

The digits of a number give it back, and they are the only ones without needless zeros that
do. So a row of digits is changed into another base and back without loss, once the zeros before
it are kept apart. Base 58 text is such a change of bytes into digits: reading undoes writing
and writing undoes reading.
-/
namespace LedgerIndex

namespace Radix

theorem value_eq_ofDigits (b : Nat) (ds : List Nat) : value b ds = Nat.ofDigits b ds := by
  induction ds with
  | nil => rfl
  | cons d ds ih =>
    rw [Nat.ofDigits_cons, ← ih]
    rfl

theorem digitsUpTo_eq_digits {b : Nat} (base : 1 < b) {limit n : Nat} (h : n < b ^ limit) :
    digitsUpTo b limit n = Nat.digits b n := by
  induction limit generalizing n with
  | zero =>
    obtain rfl : n = 0 := by simpa using h
    simp [digitsUpTo]
  | succ limit ih =>
    rw [digitsUpTo]
    split
    next zero => simp [zero]
    next positive =>
      rw [Nat.digits_def' base (Nat.pos_of_ne_zero positive), ih]
      exact Nat.div_lt_of_lt_mul (Nat.pow_succ' ▸ h)

theorem digits_eq_digits {b : Nat} (base : 1 < b) (n : Nat) : digits b n = Nat.digits b n := by
  apply digitsUpTo_eq_digits base
  calc n < 2 ^ (n.log2 + 1) := Nat.lt_log2_self
    _ ≤ b ^ (n.log2 + 1) := Nat.pow_le_pow_left base _

/-- The same number in another base, with the same zeros before it; digits stand most
significant first. -/
def convert (b c : Nat) (ds : List Nat) : List Nat :=
  List.replicate (ds.takeWhile (· == 0)).length 0 ++ (Nat.digits c (Nat.ofDigits b ds.reverse)).reverse

theorem lt_of_mem_convert {b c d : Nat} {ds : List Nat} (base : 1 < c) (h : d ∈ convert b c ds) :
    d < c := by
  rcases List.mem_append.mp h with zero | shown
  · rw [List.eq_of_mem_replicate zero]
    exact Nat.zero_lt_of_lt base
  · exact Nat.digits_lt_base base (List.mem_reverse.mp shown)

theorem length_takeWhile_convert (b c : Nat) (ds : List Nat) :
    ((convert b c ds).takeWhile (· == 0)).length = (ds.takeWhile (· == 0)).length := by
  have shown : (Nat.digits c (Nat.ofDigits b ds.reverse)).reverse.takeWhile (· == 0) = [] := by
    cases parts : (Nat.digits c (Nat.ofDigits b ds.reverse)).reverse with
    | nil => rfl
    | cons e es =>
      have some_digit : Nat.ofDigits b ds.reverse ≠ 0 := by
        intro none
        simp [none] at parts
      have first := Nat.getLast_digit_ne_zero c some_digit
      rw [List.getLast_eq_head_reverse] at first
      simp only [parts, List.head_cons] at first
      simp [first]
  rw [convert, List.takeWhile_append_of_pos (by simp), shown, List.append_nil,
    List.length_replicate]

theorem ofDigits_convert (b c : Nat) (ds : List Nat) :
    Nat.ofDigits c (convert b c ds).reverse = Nat.ofDigits b ds.reverse := by
  rw [convert, List.reverse_append, List.reverse_reverse, List.reverse_replicate,
    Nat.ofDigits_append_replicate_zero, Nat.ofDigits_digits]

/-- In their own base, digits are those of their number, with the zeros that they begin with. -/
theorem convert_self {b : Nat} (base : 1 < b) {ds : List Nat} (bounded : ∀ d ∈ ds, d < b) :
    convert b b ds = ds := by
  induction ds with
  | nil => simp [convert]
  | cons d ds ih =>
    by_cases zero : d = 0
    · subst zero
      have same : Nat.ofDigits b (0 :: ds).reverse = Nat.ofDigits b ds.reverse := by
        simp [Nat.ofDigits_append]
      have rest := ih fun e he => bounded e (List.mem_cons_of_mem 0 he)
      rw [convert, same, List.takeWhile_cons_of_pos rfl]
      exact congrArg (0 :: ·) rest
    · have significant (h : (d :: ds).reverse ≠ []) : (d :: ds).reverse.getLast h ≠ 0 := by
        rw [List.getLast_reverse]
        exact zero
      rw [convert, List.takeWhile_cons_of_neg (by simpa using zero),
        Nat.digits_ofDigits b base _ (fun e he => bounded e (List.mem_reverse.mp he)) significant,
        List.reverse_reverse]
      rfl

/-- Changing the base and changing it back leaves the digits as they were. -/
theorem convert_convert {b c : Nat} (base : 1 < b) {ds : List Nat} (bounded : ∀ d ∈ ds, d < b) :
    convert c b (convert b c ds) = ds := by
  calc convert c b (convert b c ds)
    _ = convert b b ds := by
      rw [convert, length_takeWhile_convert, ofDigits_convert]
      rfl
    _ = ds := convert_self base bounded

end Radix

namespace Bytes

theorem toNat_eq_ofDigits (bs : Bytes) :
    toNat bs = Nat.ofDigits 256 (bs.map UInt8.toNat).reverse := by
  induction bs using List.reverseRecOn with
  | nil => rfl
  | append_singleton bs b ih =>
    have step : toNat (bs ++ [b]) = toNat bs * 256 + b.toNat := by simp [toNat]
    rw [step, ih, List.map_append, List.reverse_append]
    simp only [List.map_cons, List.map_nil, List.reverse_singleton, List.singleton_append,
      Nat.ofDigits_cons]
    ring

theorem length_takeWhile_map_toNat (bs : Bytes) :
    ((bs.map UInt8.toNat).takeWhile (· == 0)).length = (bs.takeWhile (· == 0)).length := by
  induction bs with
  | nil => rfl
  | cons b bs ih =>
    by_cases zero : b = 0
    · subst zero
      simpa using ih
    · have significant : b.toNat ≠ 0 := fun none => zero (UInt8.toNat_inj.mp none)
      simp [zero, significant]

theorem map_ofNat_map_toNat (bs : Bytes) : (bs.map UInt8.toNat).map UInt8.ofNat = bs := by
  simp [Function.comp_def]

theorem map_toNat_map_ofNat {ds : List Nat} (bounded : ∀ d ∈ ds, d < 256) :
    (ds.map UInt8.ofNat).map UInt8.toNat = ds := by
  rw [List.map_map]
  have same : ∀ d ∈ ds, (UInt8.toNat ∘ UInt8.ofNat) d = id d :=
    fun d hd => UInt8.toNat_ofNat_of_lt' (bounded d hd)
  rw [List.map_congr_left same, List.map_id]

theorem lt_of_mem_map_toNat {bs : Bytes} {d : Nat} (h : d ∈ bs.map UInt8.toNat) : d < 256 := by
  obtain ⟨b, -, rfl⟩ := List.mem_map.mp h
  exact b.toNat_lt

end Bytes

namespace Text.Base58

def character (d : Nat) : Char :=
  Char.ofNat (digitCode d).toNat

theorem digit?_character : ∀ d < 58, digit? (character d) = some d ∧ (character d).toNat ≤ 127 := by
  decide +kernel

theorem character_of_digit? {c : Char} {d : Nat} (ascii : c.toNat ≤ 127) (known : digit? c = some d) :
    d < 58 ∧ character d = c := by
  have codes : ∀ code < 128, ∀ d ∈ digit? (Char.ofNat code), d < 58 ∧ character d = Char.ofNat code := by
    decide +kernel
  have told := codes c.toNat (Nat.lt_succ_of_le ascii)
  rw [Char.ofNat_toNat] at told
  exact told d known

theorem digits_map_character {ds : List Nat} (h : ∀ d ∈ ds, d < 58) (index : Nat) :
    digits index (ds.map character) = .ok ds := by
  induction ds generalizing index with
  | nil => rfl
  | cons d ds ih =>
    obtain ⟨known, ascii⟩ := digit?_character d (h d List.mem_cons_self)
    rw [List.map_cons, digits, if_neg (Nat.not_lt.mpr ascii), known,
      ih fun e he => h e (List.mem_cons_of_mem d he)]
    rfl

/-- Digits are read from a text only if it is written with them. -/
theorem map_character_of_digits {index : Nat} {cs : List Char} {ds : List Nat}
    (h : digits index cs = .ok ds) : (∀ d ∈ ds, d < 58) ∧ ds.map character = cs := by
  induction cs generalizing index ds with
  | nil =>
    obtain rfl : [] = ds := Except.ok.inj h
    simp
  | cons c cs ih =>
    rw [digits] at h
    split at h
    next => simp at h
    next ascii =>
      split at h
      next => simp at h
      next d known =>
        cases rest : digits (index + 1) cs with
        | error f => simp [rest] at h
        | ok es =>
          obtain rfl : d :: es = ds := by simpa [rest] using h
          obtain ⟨small, own⟩ := character_of_digit? (Nat.le_of_not_lt ascii) known
          obtain ⟨bounded, written⟩ := ih rest
          exact ⟨List.forall_mem_cons.mpr ⟨small, bounded⟩, by rw [List.map_cons, own, written]⟩

def spelled (bs : Bytes) : List Nat :=
  List.replicate (bs.takeWhile (· == 0)).length 0 ++ (Nat.digits 58 (Bytes.toNat bs)).reverse

theorem spelled_eq (bs : Bytes) : spelled bs = Radix.convert 256 58 (bs.map UInt8.toNat) := by
  rw [spelled, Radix.convert, Bytes.length_takeWhile_map_toNat, Bytes.toNat_eq_ofDigits]

theorem toList_encode (bs : Bytes) : (encode bs).toList = (spelled bs).map character := by
  rw [encode, spelled, String.toList_ofList, List.map_append, List.map_replicate,
    Radix.digits_eq_digits (by decide)]
  rfl

theorem lt_of_mem_spelled {bs : Bytes} {d : Nat} (h : d ∈ spelled bs) : d < 58 := by
  rw [spelled_eq] at h
  exact Radix.lt_of_mem_convert (by decide) h

theorem digits_encode (bs : Bytes) : digits 0 (encode bs).toList = .ok (spelled bs) := by
  rw [toList_encode]
  exact digits_map_character (fun _ => lt_of_mem_spelled) 0

/-- The bytes of a text are its digits in the base of bytes. -/
theorem decode_of_digits {text : String} {ds : List Nat} (h : digits 0 text.toList = .ok ds) :
    decode text = .ok ((Radix.convert 58 256 ds).map UInt8.ofNat) := by
  have read : decode text = .ok (List.replicate (ds.takeWhile (· == 0)).length 0 ++
      (Radix.digits 256 (Radix.value 58 ds.reverse)).reverse.map UInt8.ofNat) := by
    rw [decode, h]
    rfl
  rw [read, Radix.digits_eq_digits (by decide), Radix.value_eq_ofDigits, Radix.convert,
    List.map_append, List.map_replicate]
  rfl

theorem decode_encode (bs : Bytes) : decode (encode bs) = .ok bs := by
  rw [decode_of_digits (digits_encode bs), spelled_eq,
    Radix.convert_convert (by decide) fun _ => Bytes.lt_of_mem_map_toNat,
    Bytes.map_ofNat_map_toNat]

/-- Only the text of a byte string is read as that byte string. -/
theorem encode_of_decode {text : String} {bs : Bytes} (h : decode text = .ok bs) :
    encode bs = text := by
  cases shown : digits 0 text.toList with
  | error f =>
    rw [decode, shown] at h
    simp [bind, Except.bind] at h
  | ok ds =>
    obtain ⟨bounded, written⟩ := map_character_of_digits shown
    rw [decode_of_digits shown] at h
    have bytes : (Radix.convert 58 256 ds).map UInt8.ofNat = bs := Except.ok.inj h
    have same : spelled bs = ds := by
      rw [spelled_eq, ← bytes,
        Bytes.map_toNat_map_ofNat fun _ => Radix.lt_of_mem_convert (by decide),
        Radix.convert_convert (by decide) bounded]
    rw [← String.toList_inj, toList_encode, same, written]

theorem encode_injective : Function.Injective encode := by
  intro a b same
  have read := decode_encode a
  rw [same, decode_encode b] at read
  exact (Except.ok.inj read).symm

/-- A text in base 58 has no other characters than the digits. -/
theorem digit?_of_mem_encode {bs : Bytes} {c : Char} (h : c ∈ (encode bs).toList) :
    (digit? c).isSome := by
  rw [toList_encode] at h
  obtain ⟨d, hd, rfl⟩ := List.mem_map.mp h
  rw [(digit?_character d (lt_of_mem_spelled hd)).1]
  rfl

end Text.Base58
end LedgerIndex
