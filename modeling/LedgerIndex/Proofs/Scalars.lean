import LedgerIndex.Json.Record
import LedgerIndex.Proofs.Numerals

/-!
# Scalars of JSON

A natural number is read back from its digits, and up to 64 bits no reader finds it too large. A
text is read back from between its quotes, whichever of its bytes are escaped there.
-/
namespace LedgerIndex.Json

theorem spelled_eq_ofDigits (ds : Bytes) :
    spelled ds = Nat.ofDigits 10 (ds.map digitValue).reverse := by
  rw [Nat.ofDigits_eq_foldr, List.foldr_reverse, List.foldl_map, spelled]
  simp only [Nat.cast_id, Nat.add_comm]

theorem digitValue_ofNat {d : Nat} (h : d < 10) : digitValue (UInt8.ofNat (48 + d)) = d := by
  rw [digitValue, UInt8.toNat_ofNat_of_lt' (show 48 + d < UInt8.size by simp [UInt8.size]; omega)]
  omega

theorem isDigit_ofNat {d : Nat} (h : d < 10) : isDigit (UInt8.ofNat (48 + d)) = true := by
  have all : ∀ d < 10, isDigit (UInt8.ofNat (48 + d)) = true := by decide
  exact all d h

/-- Written out, a number has some digit and no needless zero. -/
theorem writtenDigits_cases (n : Nat) : n = 0 ∧ Radix.writtenDigits 10 n = [0] ∨
    ∃ d ds, Radix.writtenDigits 10 n = d :: ds ∧ d ≠ 0 := by
  by_cases zero : n = 0
  · exact .inl ⟨zero, by rw [Radix.writtenDigits, if_pos zero]⟩
  · right
    have first := Nat.getLast_digit_ne_zero 10 zero
    rw [List.getLast_eq_head_reverse] at first
    rw [Radix.writtenDigits, if_neg zero, Radix.digits_eq_digits (by decide)]
    exact ⟨_, _, (List.cons_head_tail _).symm, first⟩

theorem lt_of_mem_writtenDigits {n d : Nat} (h : d ∈ Radix.writtenDigits 10 n) : d < 10 := by
  rw [Radix.writtenDigits] at h
  split at h
  · simp_all
  · rw [Radix.digits_eq_digits (by decide)] at h
    exact Nat.digits_lt_base (by decide) (List.mem_reverse.mp h)

theorem ofDigits_writtenDigits (n : Nat) :
    Nat.ofDigits 10 (Radix.writtenDigits 10 n).reverse = n := by
  rw [Radix.writtenDigits]
  split
  next zero => simp [zero]
  next => rw [List.reverse_reverse, Radix.digits_eq_digits (by decide), Nat.ofDigits_digits]

theorem isDigit_of_mem_spell {n : Nat} {b : UInt8} (h : b ∈ spell n) : isDigit b = true := by
  obtain ⟨d, member, rfl⟩ := List.mem_map.mp h
  exact isDigit_ofNat (lt_of_mem_writtenDigits member)

theorem spelled_spell (n : Nat) : spelled (spell n) = n := by
  have values : (spell n).map digitValue = Radix.writtenDigits 10 n := by
    rw [spell, List.map_map]
    have same : ∀ d ∈ Radix.writtenDigits 10 n,
        (digitValue ∘ fun d => UInt8.ofNat (48 + d)) d = id d :=
      fun d member => digitValue_ofNat (lt_of_mem_writtenDigits member)
    rw [List.map_congr_left same, List.map_id]
  rw [spelled_eq_ofDigits, values, ofDigits_writtenDigits]

namespace Number

theorem toInt?_ofNat (n : Nat) : (ofNat n).toInt? = some (n : Int) := by
  simp [toInt?, ofNat, spelled_spell]

theorem token_ofNat (n : Nat) : (ofNat n).token = spell n := by
  simp [token, ofNat]

theorem ofToken?_spell (n : Nat) : ofToken? (spell n) = some (ofNat n) := by
  have digits : ∀ b ∈ spell n, isDigit b = true := fun _ => isDigit_of_mem_spell
  have whole : (spell n).takeWhile isDigit = spell n := List.takeWhile_eq_self_iff.mpr digits
  have rest : (spell n).dropWhile isDigit = [] := List.dropWhile_eq_nil_iff.mpr digits
  have sound : ¬ (spell n = [] ∨ (spell n).head? = some 48 ∧ (spell n).length ≠ 1) := by
    rcases writtenDigits_cases n with ⟨-, zero⟩ | ⟨d, ds, shown, positive⟩
    · simp [spell, zero]
    · have small : d < 10 := lt_of_mem_writtenDigits (n := n) (by simp [shown])
      have first : ∀ d < 10, d ≠ 0 → UInt8.ofNat (48 + d) ≠ 48 := by decide
      rw [spell, shown]
      rintro (none | ⟨zero, -⟩)
      · cases none
      · exact first d small positive (Option.some.inj zero)
  have unsigned : ∀ rest, spell n ≠ 45 :: rest := by
    intro rest minus
    have digit := digits 45 (minus ▸ List.mem_cons_self)
    exact absurd digit (by decide)
  unfold ofToken?
  split
  next negative token signed =>
    split at signed
    next minus => exact absurd minus (unsigned _)
    next =>
      cases signed
      rw [whole, rest, if_neg sound]
      rfl

theorem readWhole_eq {s : Nat} {ds : Bytes}
    (fits : ds.foldl (fun n b => 10 * n + digitValue b) s ≤ significandLimit) :
    readWhole s 0 ds = (ds.foldl (fun n b => 10 * n + digitValue b) s, 0) := by
  induction ds generalizing s with
  | nil => rfl
  | cons b ds ih =>
    have grows (t : Nat) (ds : Bytes) : t ≤ ds.foldl (fun n b => 10 * n + digitValue b) t := by
      induction ds generalizing t with
      | nil => exact Nat.le_refl t
      | cons b ds ih => exact Nat.le_trans (by omega) (ih (10 * t + digitValue b))
    have small : 10 * s + digitValue b ≤ significandLimit := (grows _ ds).trans fits
    rw [readWhole, if_neg (by omega), ih fits]
    rfl

theorem round53_le (n : Nat) : round53 n ≤ n + 2 ^ (n.log2 - 52) := by
  have whole : n / 2 ^ (n.log2 - 52) * 2 ^ (n.log2 - 52) ≤ n := Nat.div_mul_le_self n _
  simp only [round53]
  split
  · exact whole.trans (Nat.le_add_right _ _)
  · rw [Nat.add_mul, Nat.one_mul]
    exact Nat.add_le_add_right whole _

/-- An integer is written with neither a fraction nor an exponent. -/
theorem spelled_of_toInt? {n : Number} {i : Nat} (h : n.toInt? = some (i : Int)) :
    n.fraction = [] ∧ n.exponent = none ∧ spelled n.whole = i := by
  rw [toInt?, Option.ite_none_right_eq_some] at h
  obtain ⟨⟨fraction, exponent⟩, h⟩ := h
  refine ⟨fraction, exponent, ?_⟩
  split at h
  · rw [Option.ite_none_left_eq_some, Option.some.injEq] at h
    omega
  · exact Int.ofNat.inj (Option.some.inj h)

/-- A natural number of 64 bits fits a floating point value. -/
theorem isFinite_of_toInt? {n : Number} {i : Nat} (h : n.toInt? = some (i : Int))
    (small : i < 2 ^ 64) : n.isFinite = true := by
  obtain ⟨fraction, exponent, whole⟩ := spelled_of_toInt? h
  have read : n.parts = (i, 0) := by
    have fits : spelled n.whole ≤ significandLimit := by
      rw [whole, significandLimit]
      omega
    simp only [parts, fraction, exponent, readWhole_eq fits, readFraction]
    exact congrArg (·, (0 : Int)) whole
  have unit : 2 ^ (i.log2 - 52) ≤ 2 ^ 64 := by
    apply Nat.pow_le_pow_right (by decide)
    by_cases zero : i = 0
    · simp [zero]
    · have bits : i.log2 < 64 := (Nat.log2_lt zero).mpr small
      omega
  have rounded (a : Nat) (large : 66 ≤ a) :
      round53 i * round53 (10 ^ (0 : Int).toNat) < 2 ^ (a + 54) - 2 ^ a := by
    have one : round53 (10 ^ (0 : Int).toNat) = 1 := by decide
    have far : 2 ^ 66 ≤ 2 ^ a := Nat.pow_le_pow_right Nat.two_pos large
    rw [one, Nat.mul_one, Nat.pow_add]
    calc round53 i ≤ i + 2 ^ (i.log2 - 52) := round53_le i
      _ ≤ 2 ^ 64 + 2 ^ 64 := Nat.add_le_add small.le unit
      _ < 2 ^ a * 2 ^ 54 - 2 ^ a := by omega
  have bounded : overflows i 0 = false := by
    have exponent : 1024 = 970 + 54 := rfl
    rw [overflows]
    split
    · rfl
    · rw [if_neg (by decide), exponent]
      exact decide_eq_false (Nat.not_le.mpr (rounded 970 (by decide)))
  rw [isFinite, read]
  simp [exponent, bounded]

theorem isFinite_ofNat {n : Nat} (h : n < 2 ^ 64) : (ofNat n).isFinite = true :=
  isFinite_of_toInt? (toInt?_ofNat n) h

end Number

inductive Escaped (b : UInt8) : Bytes → Prop
  | letter {mark : UInt8} : letter? mark = some b → Escaped b [92, mark]
  | code {high low : UInt8} : code? 48 48 high low = some b.toNat → b < 32 →
    Escaped b [92, 117, 48, 48, high, low]
  | plain : ¬ b < 32 → b ≠ 34 → b ≠ 92 → Escaped b [b]

theorem escaped (b : UInt8) : Escaped b (escapeByte b) := by
  unfold escapeByte
  split
  next quote =>
    subst quote
    exact .letter rfl
  next unquoted =>
    split
    next backslash =>
      subst backslash
      exact .letter rfl
    next unslashed =>
      split
      next same =>
        subst same
        exact .letter rfl
      split
      next same =>
        subst same
        exact .letter rfl
      split
      next same =>
        subst same
        exact .letter rfl
      split
      next same =>
        subst same
        exact .letter rfl
      split
      next same =>
        subst same
        exact .letter rfl
      split
      next control =>
        have codes : ∀ n < 32, code? 48 48 (if UInt8.ofNat n < 16 then 48 else 49)
            (UInt8.ofNat (Text.Hex.digitChar (n % 16)).toNat) = some n := by
          decide
        have code := codes b.toNat (UInt8.lt_iff_toNat_lt.mp control)
        rw [UInt8.ofNat_toNat] at code
        exact .code code control
      next shown => exact .plain shown unquoted unslashed

theorem codePoint_of_lt {n : Nat} (h : n < 32) : codePoint n = [UInt8.ofNat n] := by
  have all : ∀ n < 32, codePoint n = [UInt8.ofNat n] := by decide +kernel
  exact all n h

theorem unescapeFrom_escaped {b : UInt8} {form : Bytes} (h : Escaped b form) (done rest : Bytes) :
    unescapeFrom done (form ++ rest) = unescapeFrom (b :: done) rest := by
  cases h with
  | @letter mark stands =>
    have other : mark ≠ 117 := by
      rintro rfl
      cases stands
    change unescapeFrom done (92 :: mark :: rest) = _
    rw [unescapeFrom, stands]
    intro _ _ _ _ _ marked
    exact absurd marked other
  | @code high low stands control =>
    have small : b.toNat < 32 := UInt8.lt_iff_toNat_lt.mp control
    have high : ¬ (0xd800 ≤ b.toNat ∧ b.toNat < 0xdc00) := by omega
    have low : ¬ (0xdc00 ≤ b.toNat ∧ b.toNat < 0xe000) := by omega
    change unescapeFrom done (92 :: 117 :: 48 :: 48 :: _ :: _ :: rest) = _
    rw [unescapeFrom, stands]
    simp only [if_neg high, if_neg low, codePoint_of_lt small, UInt8.ofNat_toNat]
    rfl
  | plain shown unquoted unslashed =>
    change unescapeFrom done (b :: rest) = _
    rw [unescapeFrom]
    · intro _ _ _ _ _ slash
      exact absurd slash unslashed
    · intro _ _ slash
      exact absurd slash unslashed
    · intro slash
      exact absurd slash unslashed

theorem unescapeFrom_escape (done bs : Bytes) :
    unescapeFrom done (escape bs) = some (done.reverse ++ bs) := by
  induction bs generalizing done with
  | nil => simp [escape, unescapeFrom]
  | cons b bs ih =>
    have parts : escape (b :: bs) = escapeByte b ++ escape bs := rfl
    rw [parts, unescapeFrom_escaped (escaped b), ih, List.reverse_cons, List.append_assoc]
    rfl

theorem text?_ofText (s : String) : text? (ofText s) = some s := by
  rw [text?, ofText, unescapeFrom_escape]
  exact Bytes.toString?_ofString s

end LedgerIndex.Json
