import LedgerIndex.Proofs.Footprints

/-!
# Attributions

A transaction puts a signature on exactly those holdings whose output is spent by one of its base
inputs and whose address is recovered from a signature in the credential beside that input. Of
several signatures for one holding the last one stays, whatever was there before and whether or
not rows are written over. Credentials past the base inputs bear on nothing.
-/
namespace LedgerIndex

def Tables.signature? (t : Tables) (k : Identifier × Address) : Option Bytes :=
  t.holdings[k]?.bind (·.signature)

/-- The session decides the signature on a holding, whatever the tables are that it is committed
to. -/
def Session.Signs (s : Session) (k : Identifier × Address) : Prop :=
  ∃ value, ∀ store : Store, (store.commit s).tables.signature? k = some value

def Posting.lastSigned? (ps : List Posting) (k : Identifier × Address) : Option Bytes :=
  (((ps.filterMap signed?).filter (·.1 = k)).getLast?).map (·.2)

theorem Posting.lastSigned?_cons (p : Posting) (ps : List Posting) (k : Identifier × Address) :
    lastSigned? (p :: ps) k = (lastSigned? ps k).or (lastSigned? [p] k) := by
  rw [lastSigned?, ← List.singleton_append, List.filterMap_append, List.filter_append,
    List.getLast?_append, Option.map_or]
  rfl

/-- The holding that a tie leaves, over an old one if there is one. A signature goes on it in
either case. -/
def Context.tiedHolding (ctx : Context) (place : Place) (address : Address)
    (signature : Option Bytes) : Option HoldingRow → HoldingRow
  | none => ⟨place.output, address, signature, ctx.time⟩
  | some old =>
    { (if ctx.overwrite then { old with output := place.output, address := address } else old) with
      signature := signature.or old.signature }

namespace Writer

open Change Posting

variable (w : Writer) (ctx : Context)

theorem getElem?_holdings_tie (t : Tables) (place : Place) (address : Address)
    (signature : Option Bytes) (k : Identifier × Address) :
    (applyAll t (w.changes ctx (.tie place address signature))).holdings[k]? =
      if (place.output, address) = k then
        some (ctx.tiedHolding place address signature t.holdings[k]?)
      else t.holdings[k]? := by
  rw [applyAll_tie]
  by_cases here : (place.output, address) = k
  · subst here
    cases signature with
    | none =>
      simp only [Option.isSome_none, Bool.false_eq_true, if_false, if_true, Table.upsertCarrying,
        Table.getElem?_put]
      cases t.holdings[(place.output, address)]? with
      | none => rfl
      | some old => cases h : ctx.overwrite <;> simp [Context.tiedHolding, carryHolding, h]
    | some value =>
      simp only [Option.isSome_some, if_true, Table.upsertCarrying, Table.getElem?_update,
        Table.getElem?_put]
      cases t.holdings[(place.output, address)]? with
      | none => rfl
      | some old => cases h : ctx.overwrite <;> simp [Context.tiedHolding, carryHolding, h]
  · cases signature <;>
      simp only [Option.isSome_none, Option.isSome_some, Bool.false_eq_true, Table.getElem?_update,
        Table.upsertCarrying, Table.getElem?_put, here, if_false, if_true]

/-- One posting puts its signature, if it has one, on its holding. -/
theorem signature?_changes (t : Tables) (p : Posting) (k : Identifier × Address) :
    (applyAll t (w.changes ctx p)).signature? k = (lastSigned? [p] k).or (t.signature? k) := by
  cases p with
  | tie place address signature =>
    rw [Tables.signature?, getElem?_holdings_tie]
    by_cases here : (place.output, address) = k
    · subst here
      rw [if_pos rfl, Tables.signature?]
      cases signature <;> cases t.holdings[(place.output, address)]? <;>
        simp [Context.tiedHolding, lastSigned?, signed?, List.filterMap_cons]
    · rw [if_neg here]
      cases signature <;> simp [Tables.signature?, lastSigned?, signed?, List.filterMap_cons, here]
  | _ => rfl

/-- The last of all signatures stays, or else the one that was there before. -/
theorem signature?_changesOf (t : Tables) (ps : List Posting) (k : Identifier × Address) :
    (applyAll t (w.changesOf ctx ps)).signature? k = (lastSigned? ps k).or (t.signature? k) := by
  induction ps generalizing t with
  | nil => rfl
  | cons p ps ih =>
    rw [changesOf_cons, applyAll_append, ih, signature?_changes, lastSigned?_cons p ps,
      Option.or_assoc]

end Writer

namespace Transaction

/-- An address signs for an output: it is recovered from a signature in the credential beside a
base input that spends the output. -/
def SignedFor (t : Transaction) (output : Identifier) (address : Address) : Prop :=
  ∃ (position : Nat) (i : Input) (all : List Bytes) (signature : Bytes) (key : Curve.PublicKey),
    t.base.inputs[position]? = some i ∧ t.credentials[position]? = some (.signatures all) ∧
    signature ∈ all ∧ Signer.recover t.unsigned signature = .ok key ∧ i.output = output ∧
    key.address = address

/-- The last signature of an address for an output, input by input. -/
def lastSignature? (t : Transaction) (output : Identifier) (address : Address) : Option Bytes :=
  ((t.attributions.filter fun a => a.input.output = output ∧ a.key.address = address).getLast?).map
    (·.signature)

variable {t : Transaction}

theorem signedFor_iff {output : Identifier} {address : Address} : t.SignedFor output address ↔
    ∃ a ∈ t.attributions, a.input.output = output ∧ a.key.address = address := by
  constructor
  · rintro ⟨position, i, all, signature, key, at_, beside, given, recovered, rfl, rfl⟩
    have signs := Credential.mem_signaturesAt.mpr ⟨all, beside, given⟩
    exact ⟨⟨i, key, signature⟩, mem_attributions.mpr ⟨position, at_, signs, recovered⟩, rfl, rfl⟩
  · rintro ⟨a, member, rfl, rfl⟩
    obtain ⟨position, at_, signs, recovered⟩ := mem_attributions.mp member
    obtain ⟨all, beside, given⟩ := Credential.mem_signaturesAt.mp signs
    exact ⟨position, _, all, _, _, at_, beside, given, recovered, rfl, rfl⟩

theorem isSome_lastSignature? {output : Identifier} {address : Address} :
    (t.lastSignature? output address).isSome ↔ t.SignedFor output address := by
  rw [signedFor_iff, lastSignature?, Option.isSome_map, List.getLast?_isSome, Ne,
    List.filter_eq_nil_iff]
  simp

theorem lastSigned?_postings (w : Writer) (output : Identifier) (address : Address) :
    Posting.lastSigned? (w.postings t) (output, address) = t.lastSignature? output address := by
  rw [Posting.lastSigned?, Writer.signed_postings, List.filter_map, List.getLast?_map,
    Option.map_map, lastSignature?]
  simp [Function.comp_def]

/-- What is tied by the postings of a transaction are its signers to what they spend, and the
owners of its outputs. -/
theorem exists_tied (t : Transaction) (w : Writer) (P : Identifier → String → Address → Prop) :
    (∃ x ∈ (w.postings t).filterMap Posting.tied?, P x.1.output x.1.chain x.2) ↔
      (∃ output address, t.SignedFor output address ∧ P output w.chain address) ∨
        ∃ p ∈ t.placements w, ∃ address ∈ p.output.state.owners,
          P p.place.output p.place.chain address := by
  simp only [w.tied_postings, List.mem_append, List.mem_map, List.mem_flatMap, signedFor_iff]
  constructor
  · rintro ⟨-, ⟨a, member, rfl⟩ | ⟨p, placed, address, owns, rfl⟩, holds⟩
    · exact .inl ⟨_, _, ⟨a, member, rfl, rfl⟩, holds⟩
    · exact .inr ⟨p, placed, address, owns, holds⟩
  · rintro (⟨-, -, ⟨a, member, rfl, rfl⟩, holds⟩ | ⟨p, placed, address, owns, holds⟩)
    · exact ⟨_, .inl ⟨a, member, rfl⟩, holds⟩
    · exact ⟨_, .inr ⟨p, placed, address, owns, rfl⟩, holds⟩

theorem indexTransaction_congr (w : Writer) (ctx : Context) {credentials : List Credential}
    (same : ∀ n < t.base.inputs.length, credentials[n]? = t.credentials[n]?) :
    w.indexTransaction ctx { t with credentials } = w.indexTransaction ctx t := by
  rw [Writer.indexTransaction_eq, Writer.indexTransaction_eq, w.spendInputs_congr]
  · rfl
  · intro n _ below
    exact same n (by simpa using below)

/-- What a transaction does about signers when it takes one state of the tables to another. -/
structure Attributes (t : Transaction) (session : Session) (before after : Tables) : Prop where
  /-- The holdings that are signed are those of the addresses that sign for their output. -/
  signs : ∀ output address, session.Signs (output, address) ↔ t.SignedFor output address
  last : ∀ output address, t.SignedFor output address → ∃ value,
    t.lastSignature? output address = some value ∧ after.signature? (output, address) = some value
  others : ∀ output address, ¬t.SignedFor output address →
    after.signature? (output, address) = before.signature? (output, address)
  addresses : ∀ address : Address, address ∈ after.addresses ↔
    address ∈ before.addresses ∨ ∃ output, t.SignedFor output address

namespace Fills

variable {w : Writer} {ctx : Context} {session : Session}

theorem signature?_eq (h : t.Fills w ctx session) (store : Store) (output : Identifier)
    (address : Address) : (store.commit session).tables.signature? (output, address) =
      (t.lastSignature? output address).or (store.tables.signature? (output, address)) := by
  rw [h.tables_eq, w.signature?_changesOf, lastSigned?_postings]

theorem signs_iff (h : t.Fills w ctx session) (output : Identifier) (address : Address) :
    session.Signs (output, address) ↔ t.SignedFor output address := by
  rw [← isSome_lastSignature?]
  constructor
  · rintro ⟨value, decided⟩
    have fresh := decided .empty
    rw [h.signature?_eq] at fresh
    have nothing : Store.empty.tables.signature? (output, address) = none := by
      simp [Tables.signature?, Store.empty, Store.blank, Tables.empty]
    rw [nothing, Option.or_none] at fresh
    rw [fresh]
    rfl
  · intro signed
    obtain ⟨value, last⟩ := Option.isSome_iff_exists.mp signed
    refine ⟨value, fun store => ?_⟩
    rw [h.signature?_eq, last, Option.some_or]

/-- A holding that is there afterwards was there before, or its address signs for its output, or
owns it as one that the transaction creates. -/
theorem mem_holdings (h : t.Fills w ctx session) (store : Store) (output : Identifier)
    (address : Address) : (output, address) ∈ (store.commit session).tables.holdings ↔
      (output, address) ∈ store.tables.holdings ∨ t.SignedFor output address ∨
        ∃ p ∈ t.placements w, p.place.output = output ∧ address ∈ p.output.state.owners := by
  rw [h.tables_eq, w.mem_holdings, List.mem_map]
  refine or_congr_right ((t.exists_tied w fun o _ a => (o, a) = (output, address)).trans ?_)
  simp [and_comm, and_left_comm]

/-- Whatever the tables are that a transaction is committed to, it attributes exactly its signers,
and with any other credentials past its base inputs it leaves the same tables. -/
theorem attributes (h : t.Fills w ctx session) (store : Store) :
    t.Attributes session store.tables (store.commit session).tables ∧
      ∀ credentials : List Credential,
        (∀ n < t.base.inputs.length, credentials[n]? = t.credentials[n]?) →
        { t with credentials }.Fills w ctx session ∧
        ∀ session', { t with credentials }.Fills w ctx session' →
          (store.commit session').tables = (store.commit session).tables := by
  refine ⟨⟨h.signs_iff, fun output address signed => ?_, fun output address unsigned => ?_,
    fun address => ?_⟩, fun credentials same => ?_⟩
  · obtain ⟨value, last⟩ := Option.isSome_iff_exists.mp (isSome_lastSignature?.mpr signed)
    exact ⟨value, last, by rw [h.signature?_eq, last, Option.some_or]⟩
  · rw [← isSome_lastSignature?, Option.not_isSome_iff_eq_none] at unsigned
    rw [h.signature?_eq, unsigned, Option.none_or]
  · have keys := Puts.addresses.mem_applyAll store.tables (w.changesOf ctx (w.postings t)) address
    rw [w.keys_addresses, w.keyed_postings, ← h.staged_eq] at keys
    refine keys.trans (or_congr_right ?_)
    simp only [signedFor_iff, List.mem_map]
    constructor
    · rintro ⟨a, member, rfl⟩
      exact ⟨a.input.output, a, member, rfl, rfl⟩
    · rintro ⟨-, a, member, -, rfl⟩
      exact ⟨a, member, rfl⟩
  · have alike := t.indexTransaction_congr w ctx same
    refine ⟨by rw [Fills, alike]; exact h, fun session' h' => ?_⟩
    rw [Fills, alike] at h'
    rw [tables_eq h', h.tables_eq]

end Fills
end Transaction

namespace Signer

def sampleKey : Curve.PublicKey :=
  ⟨⟨0x989c0b76cb563971fdc9bef31ec06c3560f3249d6ee9e5d83c57625596e05f6f,
    0x631f4d05b3ae518776ee08755a7703e64b2ebc32547504de0b55a142d4ecdf80⟩⟩

def sevensSigned : Bytes :=
  Bytes.ofNat 32 0x752d3e5a0ee1155d2aa1800ec9b22760154be72fb1d87490c0c798d178fd5b60 ++
  Bytes.ofNat 32 0x5642fa1ecf0878419755993417050205427a9e5fb1d0da0a9392adbf50624b65 ++ [0]

def eightsSigned : Bytes :=
  Bytes.ofNat 32 0xb1a689798159a394cf399aae10ad06eadab6c438741f6d56e4b1e3503b9c53b2 ++
  Bytes.ofNat 32 0x5208fb5a96e10be39d734f01bbe6f900b35eea729c5e9276f419ae961a3ab9f0 ++ [1]

theorem recover_of_toOption {unsigned signature : Bytes} {key : Curve.PublicKey}
    (h : (recover unsigned signature).toOption = some key) :
    recover unsigned signature = .ok key := by
  revert h
  cases recover unsigned signature <;> simp [Except.toOption]

theorem recover_sevensSigned : recover [7, 7, 7, 7] sevensSigned = .ok sampleKey :=
  recover_of_toOption (by decide +kernel)

theorem recover_eightsSigned : recover [8, 8, 8, 8] eightsSigned = .ok sampleKey :=
  recover_of_toOption (by decide +kernel)

end Signer

namespace Transaction

/-- The spend of the sample output with a signature over some bytes. -/
def signedSpending (id : Identifier) (unsigned signature : Bytes) : Transaction :=
  { sample id [⟨default, 0, default, 1⟩] [] with
    unsigned, credentials := [.signatures [signature]] }

theorem attributions_signedSpending (id : Identifier) {unsigned signature : Bytes}
    {key : Curve.PublicKey} (recovered : Signer.recover unsigned signature = .ok key) :
    (signedSpending id unsigned signature).attributions =
      [⟨⟨default, 0, default, 1⟩, key, signature⟩] := by
  simp [attributions, signersOf, signedSpending, sample, Credential.signaturesAt, recovered,
    Except.toOption]

theorem signedFor_signedSpending (id : Identifier) {unsigned signature : Bytes}
    {key : Curve.PublicKey} (recovered : Signer.recover unsigned signature = .ok key)
    (output : Identifier) (address : Address) :
    (signedSpending id unsigned signature).SignedFor output address ↔
      (default : Identifier).derive 0 = output ∧ key.address = address := by
  rw [signedFor_iff, attributions_signedSpending id recovered]
  simp [Input.output]

theorem lastSignature?_signedSpending (id : Identifier) {unsigned signature : Bytes}
    {key : Curve.PublicKey} (recovered : Signer.recover unsigned signature = .ok key) :
    (signedSpending id unsigned signature).lastSignature? ((default : Identifier).derive 0)
      key.address = some signature := by
  rw [lastSignature?, attributions_signedSpending id recovered]
  simp [Input.output]

/-- One signature is put on the one output that is spent, and a second credential would bear on
nothing. -/
theorem Fills.attributes_signedSpending : ∃ (t : Transaction) (session : Session),
    t.Fills Settings.plain.writer ⟨default, false⟩ session ∧
      t.SignedFor ((default : Identifier).derive 0) Signer.sampleKey.address ∧
      t.Attributes session .empty (Store.empty.commit session).tables ∧
      { t with credentials := t.credentials ++ [Credential.other] }.Fills Settings.plain.writer
        ⟨default, false⟩ session := by
  let t : Transaction := signedSpending (.ofContent []) [7, 7, 7, 7] Signer.sevensSigned
  have filled : t.Fills Settings.plain.writer ⟨default, false⟩ _ := .of_run (by decide +kernel)
  have signed : t.SignedFor ((default : Identifier).derive 0) Signer.sampleKey.address :=
    (signedFor_signedSpending _ Signer.recover_sevensSigned _ _).mpr ⟨rfl, rfl⟩
  have attributes := filled.attributes .empty
  refine ⟨t, _, filled, signed, attributes.1, (attributes.2 _ ?_).1⟩
  intro n below
  obtain rfl : n = 0 := Nat.lt_one_iff.mp below
  rfl

end Transaction
end LedgerIndex
