import LedgerIndex.Proofs.Reading
import LedgerIndex.Proofs.Spelling
import LedgerIndex.Rewards

/-!
# Formats

Every format of a payload can be taken apart the way it was put together: the decoder of a type
gives back what the encoder was given, if it may enter as many levels as the value has. What is
tagged is looked through beforehand, and passes. With the text read back as the value it was
written from, decoding a body undoes encoding it.
-/
namespace LedgerIndex

namespace Json

mutual

def depth : Json → Nat
  | .scalar _ => 0
  | .array items => itemDepth items + 1
  | .object members => memberDepth members + 1

def itemDepth : List Json → Nat
  | [] => 0
  | v :: items => max v.depth (itemDepth items)

def memberDepth : List (Bytes × Json) → Nat
  | [] => 0
  | (_, v) :: members => max v.depth (memberDepth members)

end

variable {levels : Nat}

theorem depth_array_le_iff {items : List Json} :
    (Json.array items).depth ≤ levels + 1 ↔ ∀ v ∈ items, v.depth ≤ levels := by
  rw [depth, Nat.add_le_add_iff_right]
  induction items with
  | nil => simp [itemDepth]
  | cons v items ih => rw [itemDepth, max_le_iff, ih, List.forall_mem_cons]

theorem depth_ofMembers_le_iff {members : List (String × Json)} :
    (ofMembers members).depth ≤ levels + 1 ↔ ∀ m ∈ members, m.2.depth ≤ levels := by
  rw [ofMembers, depth, Nat.add_le_add_iff_right]
  induction members with
  | nil => simp [memberDepth]
  | cons m members ih => rw [List.map_cons, memberDepth, max_le_iff, ih, List.forall_mem_cons]

theorem levels_of_ofMembers {members : List (String × Json)}
    (nests : (ofMembers members).depth ≤ levels) :
    ∃ inner, levels = inner + 1 ∧ ∀ m ∈ members, m.2.depth ≤ inner := by
  cases levels with
  | zero => simp [ofMembers, depth] at nests
  | succ inner => exact ⟨inner, rfl, depth_ofMembers_le_iff.mp nests⟩

/-- Plain values pass the check that tagged values are given. -/
theorem Plain.isSound {v : Json} (h : v.Plain) (nests : v.depth ≤ levels) :
    isSound levels v = true := by
  induction h generalizing levels with
  | null => simp [Json.isSound]
  | bool b => simp [Json.isSound, ofBool]
  | natural small => simpa [Json.isSound, ofNat] using Number.isFinite_ofNat small
  | text s => simp [Json.isSound, ofString, text?_ofText]
  | array _ ih =>
    cases levels with
    | zero => simp [depth] at nests
    | succ levels =>
      rw [depth_array_le_iff] at nests
      rw [Json.isSound, List.all_eq_true]
      exact fun v member => ih v member (nests v member)
  | record _ ih =>
    obtain ⟨inner, rfl, inside⟩ := levels_of_ofMembers nests
    rw [ofMembers, Json.isSound, List.all_map, List.all_eq_true]
    intro m member
    simp [text?_ofText, ih m member (inside m member)]

theorem mapM_map_eq_some {α β : Type} {encode : α → β} {decode : β → Option α} {as : List α}
    (each : ∀ a ∈ as, decode (encode a) = some a) : (as.map encode).mapM decode = some as := by
  induction as with
  | nil => rfl
  | cons a as ih =>
    have first := each a List.mem_cons_self
    have others := ih fun b hb => each b (List.mem_cons_of_mem a hb)
    rw [List.map_cons, List.mapM_cons, first, others]
    rfl

/-- What the encoder writes is plain, and the decoder gives back what the encoder was given. -/
structure Codec {α : Type} (encode : α → Json) (decode : Decoder α) : Prop where
  plain : ∀ a, (encode a).Plain
  decode_encode : ∀ {levels : Nat} (a : α), (encode a).depth ≤ levels →
    decode levels (encode a) = some a

namespace Codec

variable {α : Type} {encode : α → Json} {decode : Decoder α}

theorem text : Codec ofString asText where
  plain := .text
  decode_encode s _ := text?_ofText s

theorem bool : Codec ofBool asBool where
  plain := .bool
  decode_encode _ _ := rfl

theorem asNat_ofNat {bound n : Nat} (h : n < bound) : asNat bound levels (ofNat n) = some n := by
  have within : (decide ((0 : Int) ≤ n) && decide ((n : Int) ≤ (bound : Int) - 1)) = true := by
    simp only [Bool.and_eq_true, decide_eq_true_eq]
    omega
  have kept : asInt 0 ((bound : Int) - 1) levels (ofNat n) = some (n : Int) := by
    simp only [asInt, ofNat, Number.toInt?_ofNat]
    exact Option.filter_some_pos within
  rw [asNat, kept]
  rfl

theorem uint64 : Codec (fun n : UInt64 => ofNat n.toNat) asUInt64 where
  plain n := .natural n.toNat_lt
  decode_encode n _ := by simp [asUInt64, asNat_ofNat n.toNat_lt]

theorem uint32 : Codec (fun n : UInt32 => ofNat n.toNat) asUInt32 where
  plain n := .natural (n.toNat_lt.trans (by decide))
  decode_encode n _ := by simp [asUInt32, asNat_ofNat n.toNat_lt]

theorem byte : Codec (fun b : UInt8 => ofNat b.toNat) asByte where
  plain b := .natural (b.toNat_lt.trans (by decide))
  decode_encode b _ := by simp [asByte, asNat_ofNat b.toNat_lt]

theorem list (h : Codec encode decode) :
    Codec (fun as : List α => .array (as.map encode)) (asList decode) where
  plain as := .array (List.forall_mem_map.mpr fun a _ => h.plain a)
  decode_encode {levels} as nests := by
    cases levels with
    | zero => simp [depth] at nests
    | succ levels =>
      rw [depth_array_le_iff, List.forall_mem_map] at nests
      exact mapM_map_eq_some fun a member => h.decode_encode a (nests a member)

theorem bytes : Codec encodeBytes asBytes :=
  byte.list

/-- A missing value is a null, which no value is written as. -/
theorem option (h : Codec encode decode) (some_value : ∀ a, encode a ≠ .scalar .null) :
    Codec (fun a : Option α => (a.map encode).getD (.scalar .null)) (asOption decode) where
  plain a := by
    cases a with
    | none => exact .null
    | some a => exact h.plain a
  decode_encode {levels} a nests := by
    cases a with
    | none => rfl
    | some a =>
      have read : asOption decode levels (encode a) = some <$> decode levels (encode a) := by
        unfold asOption
        split
        next null => exact absurd null (some_value a)
        next => rfl
      exact read.trans (congrArg (some <$> ·) (h.decode_encode a nests))

/-- A format that is a record can be taken apart if its members can. -/
theorem record {members : α → List (String × Json)}
    (plain : ∀ a, ∀ m ∈ members a, m.2.Plain)
    (read : ∀ levels a, (∀ m ∈ members a, m.2.depth ≤ levels) →
      decode (levels + 1) (ofMembers (members a)) = some a) :
    Codec (fun a => ofMembers (members a)) decode where
  plain a := .record (plain a)
  decode_encode {levels} a nests := by
    obtain ⟨inner, rfl, inside⟩ := levels_of_ofMembers nests
    exact read inner a inside

end Codec

theorem Codec.decodeBody_write {α : Type} {encode : α → Json} {decode : Decoder α}
    (h : Codec encode decode) {a : α} (nests : (encode a).depth ≤ maxLevels) :
    decodeBody decode (encode a).write = some a := by
  rw [decodeBody, read_write (h.plain a), Option.bind_some]
  exact h.decode_encode a nests

theorem record?_ofMembers {names : List String} {members : List (String × Json)}
    (known : ∀ m ∈ members, m.1 ∈ names) (once : (members.map (·.1)).Nodup) :
    record? names (ofMembers members) = some ⟨members⟩ := by
  have named : (members.map fun m => (ofText m.1, m.2)).mapM
      (fun m => do return (← text? m.1, m.2)) = some members :=
    mapM_map_eq_some fun m _ => by simp [text?_ofText]
  have kept : (members.filter fun m => names.contains m.1) = members :=
    List.filter_eq_self.mpr fun m member => List.contains_iff_mem.mpr (known m member)
  rw [ofMembers, record?, named, Option.bind_eq_bind, Option.bind_some, kept, if_pos once]

end Json

open Json

theorem Fixed.codec {n : Nat} : Codec (Fixed.encode (n := n)) Fixed.decode where
  plain a := .text a.text
  decode_encode {levels} a _ := by
    have read : asText levels a.encode = some a.text := text?_ofText a.text
    simp [Fixed.decode, read, parse_text, Except.toOption]

theorem TransactionKind.codec : Codec TransactionKind.encode TransactionKind.decode where
  plain k := .text k.name
  decode_encode k _ := by
    have named : ofName? k.name = some k := by cases k <;> decide
    change (text? (ofText k.name)).bind ofName? = some k
    rw [text?_ofText]
    exact named

theorem Owners.codec : Codec Owners.encode Owners.decode := by
  apply Codec.record
  · intro o
    simp [Codec.uint64.plain, Codec.uint32.plain, Fixed.codec.list.plain]
  · intro levels o nests
    simp only [List.forall_mem_cons] at nests
    obtain ⟨locktime, threshold, addresses, -⟩ := nests
    rw [Owners.decode, record?_ofMembers (by simp) (by simp)]
    simp [Record.getD, List.lookup_cons, Codec.uint64.decode_encode o.locktime locktime,
      Codec.uint32.decode_encode o.threshold threshold,
      Fixed.codec.list.decode_encode o.addresses addresses]

theorem Tagged.ofJson?_ofMembers {tag : Json} {members : List (String × Json)}
    (untagged : ∀ m ∈ members, m.1 ≠ "type") :
    Tagged.ofJson? (ofMembers (("type", tag) :: members)) = some ⟨tag, ofMembers members⟩ := by
  let isTag : Bytes × Json → Bool := fun m => text? m.1 == some "type"
  let rest := members.map fun m => (ofText m.1, m.2)
  have first : isTag (ofText "type", tag) = true := by simp [isTag, text?_ofText]
  have others : ∀ m ∈ rest, isTag m = false :=
    List.forall_mem_map.mpr fun m member => by simpa [isTag, text?_ofText] using untagged m member
  have parts : ((ofText "type", tag) :: rest).partition isTag = ([(ofText "type", tag)], rest) := by
    have tags : rest.filter isTag = [] :=
      List.filter_eq_nil_iff.mpr fun m member => by simp [others m member]
    have kept : rest.filter (not ∘ isTag) = rest :=
      List.filter_eq_self.mpr fun m member => by simp [others m member]
    rw [List.partition_eq_filter_filter, List.filter_cons_of_pos first, tags,
      List.filter_cons_of_neg (by simp [first]), kept]
  rw [ofMembers, List.map_cons, Tagged.ofJson?, parts]
  rfl

theorem tagIndex?_ofString (names : List String) (nested : Bool) (name : String) :
    tagIndex? names nested (Json.ofString name) = names.idxOf? name := by
  change (text? (ofText name)).bind names.idxOf? = _
  rw [text?_ofText, Option.bind_some]

namespace OutputState

theorem plain_encode (state : OutputState) : state.encode.Plain := by
  induction state with
  | lockedTransfer locktime inner ih =>
    exact .record (by simp [Plain.text, Codec.uint64.plain, ih])
  | _ =>
    exact .record (by simp [Plain.text, Codec.uint64.plain, Codec.uint32.plain,
      Codec.bytes.plain, Owners.codec.plain])

/-- Below a locked output the state of an output is not checked once more. -/
theorem decodeChecked_encode (state : OutputState) (nested : Bool) {levels : Nat}
    (nests : state.encode.depth ≤ levels) :
    decodeChecked nested levels state.encode = some state := by
  induction state generalizing nested levels with
  | transfer amount owners =>
    obtain ⟨levels, rfl, inside⟩ := levels_of_ofMembers nests
    have position : names.idxOf? "transfer" = some 0 := by decide
    simp only [List.forall_mem_cons] at inside
    obtain ⟨-, paid, owned, -⟩ := inside
    rw [decodeChecked, encode, Tagged.ofJson?_ofMembers (by simp)]
    simp only [Option.bind_eq_bind, Option.bind_some, tagIndex?_ofString, position]
    rw [record?_ofMembers (by simp) (by simp)]
    simp [Record.get, List.lookup_cons, Codec.uint64.decode_encode amount paid,
      Owners.codec.decode_encode owners owned]
  | lockedTransfer locktime inner ih =>
    obtain ⟨levels, rfl, inside⟩ := levels_of_ofMembers nests
    have position : names.idxOf? "locked_transfer" = some 1 := by decide
    simp only [List.forall_mem_cons] at inside
    obtain ⟨-, locked, within, -⟩ := inside
    rw [decodeChecked, encode, Tagged.ofJson?_ofMembers (by simp)]
    simp only [Option.bind_eq_bind, Option.bind_some, tagIndex?_ofString, position]
    rw [record?_ofMembers (by simp) (by simp)]
    simp [Record.get, List.lookup_cons, Codec.uint64.decode_encode locktime locked, ih true within]
  | nftTransfer group payload owners =>
    obtain ⟨levels, rfl, inside⟩ := levels_of_ofMembers nests
    have position : names.idxOf? "nft_transfer" = some 2 := by decide
    simp only [List.forall_mem_cons] at inside
    obtain ⟨-, grouped, carried, owned, -⟩ := inside
    rw [decodeChecked, encode, Tagged.ofJson?_ofMembers (by simp)]
    simp only [Option.bind_eq_bind, Option.bind_some, tagIndex?_ofString, position]
    rw [record?_ofMembers (by simp) (by simp)]
    simp [Record.get, Record.getD, List.lookup_cons, Codec.uint32.decode_encode group grouped,
      Codec.bytes.decode_encode payload carried, Owners.codec.decode_encode owners owned]
  | nftMint group owners =>
    obtain ⟨levels, rfl, inside⟩ := levels_of_ofMembers nests
    have position : names.idxOf? "nft_mint" = some 3 := by decide
    simp only [List.forall_mem_cons] at inside
    obtain ⟨-, grouped, owned, -⟩ := inside
    rw [decodeChecked, encode, Tagged.ofJson?_ofMembers (by simp)]
    simp only [Option.bind_eq_bind, Option.bind_some, tagIndex?_ofString, position]
    rw [record?_ofMembers (by simp) (by simp)]
    simp [Record.get, List.lookup_cons, Codec.uint32.decode_encode group grouped,
      Owners.codec.decode_encode owners owned]
  | fungibleMint owners =>
    obtain ⟨levels, rfl, inside⟩ := levels_of_ofMembers nests
    have position : names.idxOf? "fungible_mint" = some 4 := by decide
    simp only [List.forall_mem_cons] at inside
    obtain ⟨-, owned, -⟩ := inside
    rw [decodeChecked, encode, Tagged.ofJson?_ofMembers (by simp)]
    simp only [Option.bind_eq_bind, Option.bind_some, tagIndex?_ofString, position]
    rw [record?_ofMembers (by simp) (by simp)]
    simp [Record.get, Owners.codec.decode_encode owners owned]

theorem codec : Codec encode decode where
  plain := plain_encode
  decode_encode {levels} state nests := by
    rw [decode, if_pos (state.plain_encode.isSound nests)]
    exact state.decodeChecked_encode false nests

end OutputState

namespace Credential

theorem plain_encode (c : Credential) : c.encode.Plain := by
  cases c with
  | signatures all => exact .record (by simp [Plain.text, Codec.bytes.list.plain])
  | other => exact .record (by simp [Plain.text])

theorem decodeChecked_encode (c : Credential) {levels : Nat} (nests : c.encode.depth ≤ levels) :
    decodeChecked levels c.encode = some c := by
  cases c with
  | signatures all =>
    obtain ⟨levels, rfl, inside⟩ := levels_of_ofMembers nests
    have position : names.idxOf? "secp256k1" = some 0 := by decide
    simp only [List.forall_mem_cons] at inside
    obtain ⟨-, signed, -⟩ := inside
    rw [decodeChecked, encode, Tagged.ofJson?_ofMembers (by simp)]
    simp only [Option.bind_eq_bind, Option.bind_some, tagIndex?_ofString, position]
    rw [record?_ofMembers (by simp) (by simp)]
    simp [Record.get, Codec.bytes.list.decode_encode all signed]
  | other =>
    obtain ⟨levels, rfl, -⟩ := levels_of_ofMembers nests
    have position : names.idxOf? "other" = some 1 := by decide
    rw [decodeChecked, encode, Tagged.ofJson?_ofMembers (by simp)]
    simp only [Option.bind_eq_bind, Option.bind_some, tagIndex?_ofString, position]
    rfl

theorem codec : Codec encode decode where
  plain := plain_encode
  decode_encode {levels} c nests := by
    rw [decode, if_pos (c.plain_encode.isSound nests)]
    exact c.decodeChecked_encode nests

end Credential

theorem Input.codec : Codec Input.encode Input.decode := by
  apply Codec.record
  · intro i
    simp [Codec.uint64.plain, Codec.uint32.plain, Fixed.codec.plain]
  · intro levels i nests
    simp only [List.forall_mem_cons] at nests
    obtain ⟨transaction, index, asset, amount, -⟩ := nests
    rw [Input.decode, record?_ofMembers (by simp) (by simp)]
    simp [Record.get, List.lookup_cons, Fixed.codec.decode_encode i.transaction transaction,
      Codec.uint32.decode_encode i.index index, Fixed.codec.decode_encode i.asset asset,
      Codec.uint64.decode_encode i.amount amount]

theorem Output.codec : Codec Output.encode Output.decode := by
  apply Codec.record
  · intro o
    simp [Fixed.codec.plain, OutputState.codec.plain]
  · intro levels o nests
    simp only [List.forall_mem_cons] at nests
    obtain ⟨asset, state, -⟩ := nests
    rw [Output.decode, record?_ofMembers (by simp) (by simp)]
    simp [Record.get, List.lookup_cons, Fixed.codec.decode_encode o.asset asset,
      OutputState.codec.decode_encode o.state state]

theorem PlacedOutput.codec : Codec PlacedOutput.encode PlacedOutput.decode := by
  apply Codec.record
  · intro o
    simp [Codec.uint32.plain, Fixed.codec.plain, OutputState.codec.plain]
  · intro levels o nests
    simp only [List.forall_mem_cons] at nests
    obtain ⟨transaction, index, asset, state, -⟩ := nests
    rw [PlacedOutput.decode, record?_ofMembers (by simp) (by simp)]
    simp [Record.get, List.lookup_cons, Fixed.codec.decode_encode o.transaction transaction,
      Codec.uint32.decode_encode o.index index, Fixed.codec.decode_encode o.asset asset,
      OutputState.codec.decode_encode o.state state]

theorem BaseTransaction.codec : Codec BaseTransaction.encode BaseTransaction.decode := by
  apply Codec.record
  · intro t
    simp [Codec.uint32.plain, Codec.bytes.plain, Fixed.codec.plain,
      Input.codec.list.plain, Output.codec.list.plain]
  · intro levels t nests
    simp only [List.forall_mem_cons] at nests
    obtain ⟨id, network, memo, inputs, outputs, -⟩ := nests
    rw [BaseTransaction.decode, record?_ofMembers (by simp) (by simp)]
    simp [Record.get, Record.getD, List.lookup_cons, Fixed.codec.decode_encode t.id id,
      Codec.uint32.decode_encode t.network network, Codec.bytes.decode_encode t.memo memo,
      Input.codec.list.decode_encode t.inputs inputs,
      Output.codec.list.decode_encode t.outputs outputs]

theorem ExtraInputs.codec : Codec ExtraInputs.encode ExtraInputs.decode := by
  apply Codec.record
  · intro e
    simp [Fixed.codec.plain, Input.codec.list.plain]
  · intro levels e nests
    simp only [List.forall_mem_cons] at nests
    obtain ⟨chain, inputs, -⟩ := nests
    rw [ExtraInputs.decode, record?_ofMembers (by simp) (by simp)]
    simp [Record.get, List.lookup_cons, Fixed.codec.decode_encode e.chain chain,
      Input.codec.list.decode_encode e.inputs inputs]

theorem ExtraOutputs.codec : Codec ExtraOutputs.encode ExtraOutputs.decode := by
  apply Codec.record
  · intro e
    simp [Codec.bool.plain, Fixed.codec.plain, Output.codec.list.plain]
  · intro levels e nests
    simp only [List.forall_mem_cons] at nests
    obtain ⟨chain, outputs, stake, -⟩ := nests
    rw [ExtraOutputs.decode, record?_ofMembers (by simp) (by simp)]
    simp [Record.get, Record.getD, List.lookup_cons, Fixed.codec.decode_encode e.chain chain,
      Output.codec.list.decode_encode e.outputs outputs,
      Codec.bool.decode_encode e.stake stake]

theorem Transaction.codec : Codec Transaction.encode Transaction.decode := by
  have extraInputs := ExtraInputs.codec.option (by simp [ExtraInputs.encode, ofMembers])
  have extraOutputs := ExtraOutputs.codec.option (by simp [ExtraOutputs.encode, ofMembers])
  apply Codec.record
  · intro t
    simp [TransactionKind.codec.plain, BaseTransaction.codec.plain, Codec.bytes.plain,
      Credential.codec.list.plain, extraInputs.plain, extraOutputs.plain, Codec.uint64.plain,
      Codec.bool.plain]
  · intro levels t nests
    simp only [List.forall_mem_cons] at nests
    obtain ⟨kind, base, unsigned, raw, credentials, extraIn, extraOut, fee, genesis, -⟩ := nests
    rw [Transaction.decode, record?_ofMembers (by simp) (by simp)]
    simp [Record.get, Record.getD, List.lookup_cons, TransactionKind.codec.decode_encode t.kind kind,
      BaseTransaction.codec.decode_encode t.base base,
      Codec.bytes.decode_encode t.unsigned unsigned, Codec.bytes.decode_encode t.raw raw,
      Credential.codec.list.decode_encode t.credentials credentials,
      extraInputs.decode_encode t.extraInputs extraIn,
      extraOutputs.decode_encode t.extraOutputs extraOut,
      Codec.uint64.decode_encode t.extraFee fee, Codec.bool.decode_encode t.genesis genesis]

theorem Block.codec : Codec Block.encode Block.decode := by
  apply Codec.record
  · intro b
    simp [Transaction.codec.list.plain]
  · intro levels b nests
    simp only [List.forall_mem_cons] at nests
    rw [Block.decode, record?_ofMembers (by simp) (by simp)]
    simp [Record.getD, Transaction.codec.list.decode_encode b.transactions nests.1]

theorem Trace.codec : Codec Trace.encode Trace.decode := by
  apply Codec.record
  · intro t
    simp [Plain.text, Codec.uint32.plain, Codec.bytes.plain]
  · intro levels t nests
    simp only [List.forall_mem_cons] at nests
    obtain ⟨hash, index, content, -⟩ := nests
    rw [Trace.decode, record?_ofMembers (by simp) (by simp)]
    simp [Record.get, List.lookup_cons, Codec.text.decode_encode t.hash hash,
      Codec.uint32.decode_encode t.index index, Codec.bytes.decode_encode t.content content]

theorem Log.codec : Codec Log.encode Log.decode := by
  apply Codec.record
  · intro l
    simp [Plain.text, Codec.uint32.plain, Codec.bytes.plain, Codec.text.list.plain,
      Codec.bool.plain]
  · intro levels l nests
    simp only [List.forall_mem_cons] at nests
    obtain ⟨block, transaction, index, address, topics, data, removed, -⟩ := nests
    rw [Log.decode, record?_ofMembers (by simp) (by simp)]
    simp [Record.get, Record.getD, List.lookup_cons, Codec.text.decode_encode l.blockHash block,
      Codec.text.decode_encode l.transactionHash transaction,
      Codec.uint32.decode_encode l.index index, Codec.text.decode_encode l.address address,
      Codec.text.list.decode_encode l.topics topics, Codec.bytes.decode_encode l.data data,
      Codec.bool.decode_encode l.removed removed]

def Payload.encode : Payload → Json
  | .block b => b.encode
  | .trace t => t.encode
  | .log l => l.encode

/-- Whatever a payload or a reported output holds, it is read back from its compact text, unless
that nests more levels than any text may. -/
theorem Payload.bodies_read_back :
    (∀ p : Payload, p.encode.depth ≤ maxLevels → decode? p.kind p.encode.write = some p) ∧
    ∀ o : PlacedOutput, o.encode.depth ≤ maxLevels →
      Rewards.decodeOutput o.encode.write = .ok o := by
  constructor
  · intro p nests
    cases p with
    | block b => exact congrArg (block <$> ·) (Block.codec.decodeBody_write nests)
    | trace t => exact congrArg (trace <$> ·) (Trace.codec.decodeBody_write nests)
    | log l => exact congrArg (log <$> ·) (Log.codec.decodeBody_write nests)
  · intro o nests
    rw [Rewards.decodeOutput, PlacedOutput.codec.decodeBody_write nests]

/-- A block with locked outputs inside one another, and such an output on its own. -/
theorem Payload.bodies_read_back_locked : ∃ (p : Payload) (o : PlacedOutput),
    p.kind = .block ∧ p.encode.depth = 11 ∧ decode? p.kind p.encode.write = some p ∧
      o.encode.depth = 6 ∧ Rewards.decodeOutput o.encode.write = .ok o := by
  let state : OutputState :=
    .lockedTransfer 7 (.lockedTransfer 8 (.transfer 18446744073709551615 ⟨0, 1, [default]⟩))
  let t : Transaction := {
    kind := .importation
    base := ⟨default, 1, [0, 255], [⟨default, 0, default, 1⟩], [⟨default, state⟩]⟩
    unsigned := [1]
    raw := [2]
    credentials := [.signatures [[3]], .other]
    extraInputs := some ⟨default, []⟩
    extraOutputs := some ⟨default, [⟨default, .nftMint 1 ⟨0, 1, []⟩⟩], true⟩
    extraFee := 1
    genesis := true }
  let p : Payload := .block ⟨[t]⟩
  let o : PlacedOutput := ⟨default, 0, default, state⟩
  have deep : p.encode.depth = 11 := by decide +kernel
  have deep' : o.encode.depth = 6 := by decide +kernel
  exact ⟨p, o, rfl, deep, bodies_read_back.1 p (by rw [deep]; decide), deep',
    bodies_read_back.2 o (by rw [deep']; decide)⟩

end LedgerIndex
