import LedgerIndex.Proofs.Numerals
import LedgerIndex.Store.Row

/-!
# Identities

A contribution and an activity are named by the digest of a text that joins their parts by
colons. The text determines the parts, also where one of them is a text that has colons
itself: no part after it has any. An output is named by the digest of its place and its
transaction, both of fixed width. So different rows have different names, unless two digests
collide.
-/
namespace LedgerIndex

/-- A list is split at the last occurrence of a value in one way only. -/
theorem Text.split_last {α : Type} {c : α} {xs ys xs' ys' : List α}
    (h : xs ++ c :: ys = xs' ++ c :: ys') (hy : c ∉ ys) (hy' : c ∉ ys') :
    xs = xs' ∧ ys = ys' := by
  rcases List.append_eq_append_iff.mp h with ⟨between, rfl, rest⟩ | ⟨between, rfl, rest⟩
  · cases between with
    | nil => exact ⟨(List.append_nil xs).symm, (List.cons.inj rest).2⟩
    | cons d between =>
      obtain ⟨rfl, rfl⟩ := List.cons.inj rest
      simp at hy
  · cases between with
    | nil => exact ⟨List.append_nil xs', (List.cons.inj rest).2.symm⟩
    | cons d between =>
      obtain ⟨rfl, rfl⟩ := List.cons.inj rest
      simp at hy'

theorem Text.Checked.encode58_injective : Function.Injective encode58 := by
  intro a b same
  have protects : a ++ checksum a = b ++ checksum b := Base58.encode_injective same
  refine (List.append_inj' protects ?_).1
  simp [checksum, Hash.Sha256.length_digest]

theorem Bytes.ofString_injective : Function.Injective Bytes.ofString := by
  intro s t same
  have read := toString?_ofString s
  rw [same, toString?_ofString t] at read
  exact (Option.some.inj read).symm

namespace Fixed

variable {n : Nat}

theorem text_injective : Function.Injective (text : Fixed n → String) :=
  fun _ _ same => Fixed.ext (Text.Checked.encode58_injective same)

theorem colon_not_mem_text (a : Fixed n) : ':' ∉ a.text.toList := by
  intro colon
  have digit : (Text.Base58.digit? ':').isSome := Text.Base58.digit?_of_mem_encode colon
  revert digit
  decide

end Fixed

namespace DeltaRow

def name (output : Identifier) (address : Address) : String :=
  s!"{output}:{address}"

theorem name_inj {o o' : Identifier} {a a' : Address} (h : name o a = name o' a') :
    o = o' ∧ a = a' := by
  have joined : o.text.toList ++ ':' :: a.text.toList = o'.text.toList ++ ':' :: a'.text.toList := by
    simpa [name, toString] using congrArg String.toList h
  obtain ⟨first, second⟩ := Text.split_last joined a.colon_not_mem_text a'.colon_not_mem_text
  exact ⟨Fixed.text_injective (String.toList_inj.mp first),
    Fixed.text_injective (String.toList_inj.mp second)⟩

end DeltaRow

namespace ActivityRow

def name (chain : String) (asset : Identifier) (address : Address) (transaction : Identifier) :
    String :=
  s!"{chain}:{asset}:{address}:{transaction}"

/-- The chain may be any text, but what comes after it has no colon. -/
theorem name_inj {c c' : String} {s s' : Identifier} {a a' : Address} {t t' : Identifier}
    (h : name c s a t = name c' s' a' t') : c = c' ∧ s = s' ∧ a = a' ∧ t = t' := by
  have joined : ((c.toList ++ ':' :: s.text.toList) ++ ':' :: a.text.toList) ++ ':' :: t.text.toList =
      ((c'.toList ++ ':' :: s'.text.toList) ++ ':' :: a'.text.toList) ++ ':' :: t'.text.toList := by
    simpa [name, toString] using congrArg String.toList h
  obtain ⟨rest, fourth⟩ := Text.split_last joined t.colon_not_mem_text t'.colon_not_mem_text
  obtain ⟨rest, third⟩ := Text.split_last rest a.colon_not_mem_text a'.colon_not_mem_text
  obtain ⟨first, second⟩ := Text.split_last rest s.colon_not_mem_text s'.colon_not_mem_text
  exact ⟨String.toList_inj.mp first, Fixed.text_injective (String.toList_inj.mp second),
    Fixed.text_injective (String.toList_inj.mp third),
    Fixed.text_injective (String.toList_inj.mp fourth)⟩

end ActivityRow

/-- Different contents with the same digest. -/
structure Hash.Sha256.Collision (x y : Bytes) : Prop where
  different : x ≠ y
  same : digest x = digest y

theorem Bytes.ofNat_inj {width n m : Nat} (h : ofNat width n = ofNat width m) :
    n % 256 ^ width = m % 256 ^ width := by
  induction width with
  | zero => rw [Nat.pow_zero, Nat.mod_one, Nat.mod_one]
  | succ width ih =>
    obtain ⟨first, rest⟩ := List.cons.inj h
    have top : n / 256 ^ width % 256 = m / 256 ^ width % 256 := by
      simpa using congrArg UInt8.toNat first
    rw [Nat.pow_succ, Nat.mod_mul, Nat.mod_mul, ih rest, top]

namespace Identifier

theorem numbered_inj {a b : Identifier} {n m : UInt64}
    (h : Bytes.ofNat 8 n.toNat ++ a.bytes = Bytes.ofNat 8 m.toNat ++ b.bytes) : a = b ∧ n = m := by
  obtain ⟨number, owner⟩ := List.append_inj h (by simp)
  have same : n.toNat % 256 ^ 8 = m.toNat % 256 ^ 8 := Bytes.ofNat_inj number
  have bound (k : UInt64) : k.toNat < 256 ^ 8 := k.toNat_lt
  rw [Nat.mod_eq_of_lt (bound n), Nat.mod_eq_of_lt (bound m)] at same
  exact ⟨Fixed.ext owner, UInt64.toNat_inj.mp same⟩

/-- An identity is the digest of a content that tells what is identified. So if two things are
taken for one another, their contents are a collision. -/
structure Faithful {α : Type} (identity : α → Identifier) (content : α → Bytes) : Prop where
  digests : ∀ a, (identity a).bytes = Hash.Sha256.digest (content a)
  injective : Function.Injective content
  collides : ∀ a b, a ≠ b → identity a = identity b →
    Hash.Sha256.Collision (content a) (content b)

theorem Faithful.of_injective {α : Type} {content : α → Bytes}
    (injective : Function.Injective content) :
    Faithful (fun a => ofContent (content a)) content where
  digests _ := rfl
  injective := injective
  collides _ _ different same :=
    ⟨fun h => different (injective h), congrArg Fixed.bytes same⟩

theorem derive_faithful : Faithful (fun p : Identifier × UInt64 => p.1.derive p.2)
    fun p => Bytes.ofNat 8 p.2.toNat ++ p.1.bytes := by
  apply Faithful.of_injective
  rintro ⟨a, n⟩ ⟨b, m⟩ same
  obtain ⟨rfl, rfl⟩ := numbered_inj same
  rfl

end Identifier

theorem DeltaRow.identity_faithful :
    Identifier.Faithful (fun p : Identifier × Address => identity p.1 p.2)
      fun p => Bytes.ofString (name p.1 p.2) := by
  apply Identifier.Faithful.of_injective
  rintro ⟨o, a⟩ ⟨o', a'⟩ same
  obtain ⟨rfl, rfl⟩ := name_inj (Bytes.ofString_injective same)
  rfl

theorem ActivityRow.identity_faithful :
    Identifier.Faithful
      (fun p : String × Identifier × Address × Identifier => identity p.1 p.2.1 p.2.2.1 p.2.2.2)
      fun p => Bytes.ofString (name p.1 p.2.1 p.2.2.1 p.2.2.2) := by
  apply Identifier.Faithful.of_injective
  rintro ⟨c, s, a, t⟩ ⟨c', s', a', t'⟩ same
  obtain ⟨rfl, rfl, rfl, rfl⟩ := name_inj (Bytes.ofString_injective same)
  rfl

/-- The identities of outputs and of their spends, of contributions and of activities are all
faithful, whatever text names the chain. -/
theorem Identifier.derived_faithful :
    Faithful (fun p : Identifier × UInt64 => p.1.derive p.2)
      (fun p => Bytes.ofNat 8 p.2.toNat ++ p.1.bytes) ∧
    Faithful (fun p : Identifier × Address => DeltaRow.identity p.1 p.2)
      (fun p => Bytes.ofString s!"{p.1}:{p.2}") ∧
    Faithful (fun p : String × Identifier × Address × Identifier =>
        ActivityRow.identity p.1 p.2.1 p.2.2.1 p.2.2.2)
      (fun p => Bytes.ofString s!"{p.1}:{p.2.1}:{p.2.2.1}:{p.2.2.2}") :=
  ⟨derive_faithful, DeltaRow.identity_faithful, ActivityRow.identity_faithful⟩

end LedgerIndex
