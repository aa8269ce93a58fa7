import LedgerIndex.Proofs.Integrity
import LedgerIndex.Proofs.Replay
import Mathlib.Data.List.Basic

/-!
# Footprints

Which rows a list of postings leaves in each table. The keys of a table afterwards are those
it had before and those that the postings write, and a row whose key is written once is what
that one write makes of the row before. For a transaction the postings are listed output by
output and input by input, whichever chain they belong to, so that what it leaves can be read
off its own lists.
-/
namespace LedgerIndex

namespace Puts

variable {κ ν : Type} [Ord κ] [Std.TransOrd κ] (p : Puts κ ν)

def keys (cs : List Change) : List κ :=
  cs.flatMap fun c => ((p.written c).map (·.1)).toList

theorem keys_cons (c : Change) (cs : List Change) :
    p.keys (c :: cs) = ((p.written c).map (·.1)).toList ++ p.keys cs := rfl

theorem keys_changesOf (w : Writer) (ctx : Context) {key : Posting → Option κ}
    (writes : ∀ q, p.keys (w.changes ctx q) = (key q).toList) (ps : List Posting) :
    p.keys (w.changesOf ctx ps) = ps.filterMap key := by
  rw [keys, Writer.changesOf, List.flatMap_assoc, List.filterMap_eq_flatMap_toList]
  exact List.flatMap_congr fun q _ => writes q

variable [Std.LawfulEqOrd κ] [DecidableEq κ]

theorem getElem?_apply (t : Tables) (c : Change) (k : κ) :
    (p.table (c.apply t))[k]? = match p.written c with
      | some (k', new, overwrite) =>
        if k' = k then
          some (((p.table t)[k]?.map fun old => if overwrite then p.carry old new else old).getD new)
        else (p.table t)[k]?
      | none => (p.table t)[k]? := by
  rw [p.table_apply]
  cases p.written c with
  | none => rfl
  | some write =>
    obtain ⟨k', new, overwrite⟩ := write
    simp only [Table.upsertCarrying, Table.getElem?_put]
    by_cases same : k' = k
    · subst same
      rfl
    · simp [same]

theorem mem_applyAll (t : Tables) (cs : List Change) (k : κ) :
    k ∈ p.table (Change.applyAll t cs) ↔ k ∈ p.table t ∨ k ∈ p.keys cs := by
  induction cs generalizing t with
  | nil => simp [keys]
  | cons c cs ih =>
    have first : k ∈ p.table (c.apply t) ↔
        k ∈ p.table t ∨ k ∈ ((p.written c).map (·.1)).toList := by
      rw [p.table_apply]
      cases p.written c with
      | none => simp
      | some write =>
        simp only [Table.upsertCarrying, Table.mem_put, Option.map_some, Option.toList_some,
          List.mem_singleton, or_comm, eq_comm]
    rw [Change.applyAll_cons, ih, first, p.keys_cons, List.mem_append, or_assoc]

theorem getElem?_applyAll_of_notMem (t : Tables) {cs : List Change} {k : κ}
    (unwritten : k ∉ p.keys cs) : (p.table (Change.applyAll t cs))[k]? = (p.table t)[k]? := by
  induction cs generalizing t with
  | nil => rfl
  | cons c cs ih =>
    rw [p.keys_cons, List.mem_append, not_or] at unwritten
    rw [Change.applyAll_cons, ih _ unwritten.2, p.getElem?_apply]
    cases hw : p.written c with
    | none => rfl
    | some write =>
      have other : write.1 ≠ k := by
        rintro rfl
        simp [hw] at unwritten
      exact if_neg other

/-- Where no key is written twice, a row that is written is what that makes of the one before. -/
theorem getElem?_applyAll_of_nodup (t : Tables) {cs : List Change} (distinct : (p.keys cs).Nodup)
    {c : Change} (member : c ∈ cs) {k : κ} {new : ν} {overwrite : Bool}
    (writes : p.written c = some (k, new, overwrite)) :
    (p.table (Change.applyAll t cs))[k]? =
      some (((p.table t)[k]?.map fun old => if overwrite then p.carry old new else old).getD new) := by
  induction cs generalizing t with
  | nil => cases member
  | cons d cs ih =>
    rw [p.keys_cons, List.nodup_append] at distinct
    obtain ⟨-, distinct, apart⟩ := distinct
    rw [Change.applyAll_cons]
    rcases List.mem_cons.mp member with rfl | member
    · have once : k ∉ p.keys cs := fun again => apart k (by simp [writes]) k again rfl
      rw [p.getElem?_applyAll_of_notMem _ once, p.getElem?_apply, writes]
      exact if_pos rfl
    · have again : k ∈ p.keys cs := List.mem_flatMap.mpr ⟨c, member, by simp [writes]⟩
      rw [ih _ distinct member, p.getElem?_apply]
      cases hw : p.written d with
      | none => rfl
      | some write =>
        have other : write.1 ≠ k := apart _ (by simp [hw]) k again
        simp only [if_neg other]

end Puts

namespace Posting

def tied? : Posting → Option (Place × Address)
  | tie place address _ => some (place, address)
  | _ => none

def signed? : Posting → Option ((Identifier × Address) × Bytes)
  | tie place address (some signature) => some ((place.output, address), signature)
  | _ => none

def keyed? : Posting → Option Address
  | key k => some k.address
  | _ => none

def placed? : Posting → Option Identifier
  | output place _ _ _ _ => some place.output
  | _ => none

def active? : Posting → Option ActivityRow
  | activity place asset owner => some (place.activity asset owner)
  | _ => none

end Posting

namespace Writer

open Change

variable (w : Writer) (ctx : Context) (t : Tables) (ps : List Posting)

theorem keys_outputs : Puts.outputs.keys (w.changesOf ctx ps) = ps.filterMap Posting.placed? := by
  apply Puts.keys_changesOf
  intro q
  cases q with
  | tie place address signature => cases signature <;> rfl
  | _ => rfl

theorem keys_addresses :
    Puts.addresses.keys (w.changesOf ctx ps) = ps.filterMap Posting.keyed? := by
  apply Puts.keys_changesOf
  intro q
  cases q with
  | tie place address signature => cases signature <;> rfl
  | _ => rfl

theorem keys_activity :
    Puts.activity.keys (w.changesOf ctx ps) = (ps.filterMap Posting.active?).map (·.id) := by
  rw [List.map_filterMap]
  apply Puts.keys_changesOf
  intro q
  cases q with
  | tie place address signature => cases signature <;> rfl
  | _ => rfl

theorem keys_presence : Puts.presence.keys (w.changesOf ctx ps) =
    (ps.filterMap Posting.tied?).map fun x => (x.2, x.1.chain) := by
  rw [List.map_filterMap]
  apply Puts.keys_changesOf
  intro q
  cases q with
  | tie place address signature => cases signature <;> rfl
  | _ => rfl

theorem keys_displays :
    Puts.displays.keys (w.changesOf ctx ps) = (ps.filterMap Posting.tied?).map (·.2) := by
  rw [List.map_filterMap]
  apply Puts.keys_changesOf
  intro q
  cases q with
  | tie place address signature => cases signature <;> rfl
  | _ => rfl

theorem keys_outgoing : Puts.outgoing.keys (w.changesOf ctx ps) =
    (ps.filterMap Posting.tied?).map fun x => DeltaRow.identity x.1.output x.2 := by
  rw [List.map_filterMap]
  apply Puts.keys_changesOf
  intro q
  cases q with
  | tie place address signature => cases signature <;> rfl
  | _ => rfl

theorem mem_incoming (k : Identifier) : k ∈ (applyAll t (w.changesOf ctx ps)).incoming ↔
    k ∈ t.incoming ∨
      k ∈ (ps.filterMap Posting.tied?).map fun x => DeltaRow.identity x.1.output x.2 := by
  induction ps generalizing t with
  | nil => simp
  | cons q ps ih =>
    rw [changesOf_cons, applyAll_append, ih]
    cases q with
    | tie place address signature =>
      have first : k ∈ (applyAll t (w.changes ctx (.tie place address signature))).incoming ↔
          DeltaRow.identity place.output address = k ∨ k ∈ t.incoming := by
        rw [applyAll_tie]
        exact Table.mem_put ..
      rw [first, List.filterMap_cons_some (f := Posting.tied?) rfl, List.map_cons, List.mem_cons,
        or_assoc, or_left_comm, eq_comm]
    | spend spender chain i =>
      have first : k ∈ (applyAll t (w.changes ctx (.spend spender chain i))).incoming ↔
          k ∈ t.incoming := Std.ExtTreeMap.mem_map
      rw [first, List.filterMap_cons_none (f := Posting.tied?) rfl]
    | _ => rw [List.filterMap_cons_none (f := Posting.tied?) rfl]; rfl

theorem mem_holdings (k : Identifier × Address) :
    k ∈ (applyAll t (w.changesOf ctx ps)).holdings ↔
      k ∈ t.holdings ∨ k ∈ (ps.filterMap Posting.tied?).map fun x => (x.1.output, x.2) := by
  induction ps generalizing t with
  | nil => simp
  | cons q ps ih =>
    rw [changesOf_cons, applyAll_append, ih]
    cases q with
    | tie place address signature =>
      rw [mem_holdings_tie, List.filterMap_cons_some (f := Posting.tied?) rfl, List.map_cons,
        List.mem_cons, or_assoc, or_left_comm, eq_comm]
    | _ => rw [List.filterMap_cons_none (f := Posting.tied?) rfl]; rfl

end Writer

structure Attribution where
  input : Input
  key : Curve.PublicKey
  signature : Bytes

structure Placement where
  place : Place
  stake : Bool
  output : Output

/-- The key behind a signature, and the tie to the output it spends. -/
def Attribution.postings (chain : String) (a : Attribution) : List Posting :=
  [.key a.key, .tie (a.input.place chain) a.key.address (some a.signature)]

def Placement.postings (p : Placement) : List Posting :=
  p.output.state.postings p.place p.output.asset p.stake false

def OutputState.owners : OutputState → List Address
  | .transfer _ owners | .lockedTransfer _ (.transfer _ owners) | .nftTransfer _ _ owners
  | .nftMint _ owners | .fungibleMint owners => owners.addresses
  | .lockedTransfer _ _ => []

theorem OutputState.owners_eq (state : OutputState) :
    state.owners = state.columns?.elim [] fun c => c.owners.addresses := by
  cases state with
  | lockedTransfer locktime inner => cases inner <;> rfl
  | _ => rfl

namespace Transaction

/-- The signers of the base input at a position, in the order of their signatures. -/
def signersOf (t : Transaction) (i : Input) (position : Nat) : List Attribution :=
  (Credential.signaturesAt t.credentials position).filterMap fun signature =>
    (Signer.recover t.unsigned signature).toOption.map fun key => ⟨i, key, signature⟩

/-- The signers of all base inputs, input by input. Other inputs have none. -/
def attributions (t : Transaction) : List Attribution :=
  t.base.inputs.zipIdx.flatMap fun (i, position) => t.signersOf i position

/-- The outputs of a transaction, those on the chain of the writer and then those to another
chain, numbered through. -/
def placements (t : Transaction) (w : Writer) : List Placement :=
  (t.base.outputs.zipIdx.map fun (o, position) =>
    ⟨⟨t.base.id, UInt32.ofNat position, w.chain⟩, false, o⟩) ++
  t.extraOutputs.elim [] fun extra =>
    (extra.outputs.zipIdx t.base.outputs.length).map fun (o, position) =>
      ⟨⟨t.base.id, UInt32.ofNat position, extra.chain.text⟩, extra.stake, o⟩

end Transaction

/-- What is listed of an output: something of each owner, and of the output if it can be
written. -/
theorem Placement.filterMap_postings {γ : Type} (p : Placement) (f : Posting → Option γ) :
    p.postings.filterMap f =
      p.output.state.owners.flatMap (fun a =>
        [.tie p.place a none, .activity p.place p.output.asset a].filterMap f) ++
      (p.output.state.columns?.bind fun c =>
        f (.output p.place p.output.asset p.stake false c)).toList := by
  rw [postings, OutputState.postings, OutputState.owners_eq]
  cases p.output.state.columns? with
  | none => rfl
  | some c =>
    rw [List.filterMap_append, List.filterMap_flatMap, List.filterMap_eq_flatMap_toList _ [_]]
    simp

theorem Input.signer_eq (i : Input) (unsigned : Bytes) (chain : String) (signature : Bytes) :
    i.signer unsigned chain signature =
      ((Signer.recover unsigned signature).toOption.map fun key =>
        (⟨i, key, signature⟩ : Attribution)).toList.flatMap (Attribution.postings chain) := by
  unfold signer
  cases Signer.recover unsigned signature with
  | ok key => simp [Attribution.postings, Input.place, Except.toOption]
  | error f => rfl

/-- The inputs of a transaction are posted one by one, the signers of each and then its spend. -/
theorem Input.postingsFrom_eq (t : Transaction) (spender : Identifier) (chain : String)
    (position : Nat) (is : List Input) :
    Input.postingsFrom spender t.unsigned chain t.credentials position is =
      (is.zipIdx position).flatMap fun (i, n) =>
        (t.signersOf i n).flatMap (Attribution.postings chain) ++ [.spend spender chain i] := by
  induction is generalizing position with
  | nil => rfl
  | cons i rest ih =>
    have signers : (Credential.signaturesAt t.credentials position).flatMap
        (i.signer t.unsigned chain) =
          (t.signersOf i position).flatMap (Attribution.postings chain) := by
      rw [Transaction.signersOf, List.filterMap_eq_flatMap_toList, List.flatMap_assoc]
      exact List.flatMap_congr fun s _ => i.signer_eq t.unsigned chain s
    rw [postingsFrom, postings, signers, ih]
    rfl

theorem Input.postingsFrom_nil (spender : Identifier) (unsigned : Bytes) (chain : String)
    (position : Nat) (is : List Input) :
    Input.postingsFrom spender unsigned chain [] position is = is.map (.spend spender chain) := by
  induction is generalizing position with
  | nil => rfl
  | cons i rest ih =>
    rw [postingsFrom, ih]
    rfl

/-- What is listed of the inputs of a transaction, spends left out. -/
theorem Input.filterMap_postingsFrom {γ : Type} {f : Posting → Option γ}
    (spends : ∀ spender chain i, f (.spend spender chain i) = none) (t : Transaction)
    (spender : Identifier) (chain : String) (position : Nat) (is : List Input) :
    (Input.postingsFrom spender t.unsigned chain t.credentials position is).filterMap f =
      (((is.zipIdx position).flatMap fun (i, n) => t.signersOf i n).flatMap
        (Attribution.postings chain)).filterMap f := by
  rw [postingsFrom_eq, List.flatMap_assoc, List.filterMap_flatMap, List.filterMap_flatMap]
  simp [spends]

theorem Input.filterMap_postingsFrom_nil {γ : Type} {f : Posting → Option γ}
    (spends : ∀ spender chain i, f (.spend spender chain i) = none) (spender : Identifier)
    (unsigned : Bytes) (chain : String) (position : Nat) (is : List Input) :
    (Input.postingsFrom spender unsigned chain [] position is).filterMap f = [] := by
  rw [postingsFrom_nil]
  simp [spends]

theorem Output.postingsFrom_eq (transaction : Identifier) (chain : String) (stake : Bool)
    (position : Nat) (os : List Output) :
    Output.postingsFrom transaction chain stake position os =
      ((os.zipIdx position).map fun (o, n) =>
        (⟨⟨transaction, UInt32.ofNat n, chain⟩, stake, o⟩ : Placement)).flatMap
          Placement.postings := by
  induction os generalizing position with
  | nil => rfl
  | cons o rest ih =>
    rw [postingsFrom, ih]
    rfl

namespace Writer

variable (w : Writer) (t : Transaction)

theorem filterMap_spendPostings {γ : Type} {f : Posting → Option γ}
    (spends : ∀ spender chain i, f (.spend spender chain i) = none) :
    (w.spendPostings t).filterMap f =
      (t.attributions.flatMap (Attribution.postings w.chain)).filterMap f := by
  rw [spendPostings, List.filterMap_append, Input.filterMap_postingsFrom spends]
  have none_more : (t.extraInputs.elim [] fun extra => Input.postingsFrom t.base.id t.unsigned
      extra.chain.text [] t.base.inputs.length extra.inputs).filterMap f = [] := by
    cases t.extraInputs with
    | none => rfl
    | some extra => exact Input.filterMap_postingsFrom_nil spends _ _ _ _ _
  rw [none_more, List.append_nil]
  rfl

theorem placePostings_eq :
    w.placePostings t = (t.placements w).flatMap Placement.postings := by
  rw [placePostings, Transaction.placements, List.flatMap_append, Output.postingsFrom_eq]
  cases t.extraOutputs with
  | none => rfl
  | some extra => exact congrArg _ (Output.postingsFrom_eq _ _ _ _ _)

/-- What is listed of the postings of a transaction: nothing of its spends and of itself, something
of its signers, of the owners of its outputs, and of the outputs. -/
theorem filterMap_postings {γ : Type} {f : Posting → Option γ}
    (spends : ∀ spender chain i, f (.spend spender chain i) = none)
    (itself : ∀ t fee, f (.transaction t fee) = none) :
    (w.postings t).filterMap f =
      t.attributions.flatMap (fun a => (a.postings w.chain).filterMap f) ++
        (t.placements w).flatMap fun p => p.postings.filterMap f := by
  rw [postings, List.filterMap_append, List.filterMap_append, w.filterMap_spendPostings t spends,
    placePostings_eq, List.filterMap_flatMap, List.filterMap_flatMap]
  simp [itself]

theorem keyed_postings :
    (w.postings t).filterMap Posting.keyed? = t.attributions.map (·.key.address) := by
  rw [w.filterMap_postings t (fun _ _ _ => rfl) fun _ _ => rfl]
  simp [Placement.filterMap_postings, Attribution.postings, Posting.keyed?, List.filterMap_cons,
    List.map_eq_flatMap]

theorem signed_postings : (w.postings t).filterMap Posting.signed? =
    t.attributions.map fun a => ((a.input.output, a.key.address), a.signature) := by
  rw [w.filterMap_postings t (fun _ _ _ => rfl) fun _ _ => rfl]
  have signer (a : Attribution) : (a.postings w.chain).filterMap Posting.signed? =
      [((a.input.output, a.key.address), a.signature)] := rfl
  simp [Placement.filterMap_postings, signer, Posting.signed?, List.filterMap_cons,
    List.map_eq_flatMap]

/-- Signers are tied to what they spend, and owners to what is created. -/
theorem tied_postings : (w.postings t).filterMap Posting.tied? =
    t.attributions.map (fun a => (a.input.place w.chain, a.key.address)) ++
      (t.placements w).flatMap fun p => p.output.state.owners.map fun a => (p.place, a) := by
  rw [w.filterMap_postings t (fun _ _ _ => rfl) fun _ _ => rfl]
  simp [Placement.filterMap_postings, Attribution.postings, Posting.tied?, List.filterMap_cons,
    List.map_eq_flatMap]

theorem active_postings : (w.postings t).filterMap Posting.active? =
    (t.placements w).flatMap fun p => p.output.state.owners.map (p.place.activity p.output.asset) := by
  rw [w.filterMap_postings t (fun _ _ _ => rfl) fun _ _ => rfl]
  simp [Placement.filterMap_postings, Attribution.postings, Posting.active?, List.filterMap_cons,
    List.map_eq_flatMap]

theorem placed_postings : (w.postings t).filterMap Posting.placed? =
    (t.placements w).flatMap fun p =>
      (p.output.state.columns?.bind fun _ => some p.place.output).toList := by
  rw [w.filterMap_postings t (fun _ _ _ => rfl) fun _ _ => rfl]
  have nothing {γ : Type} (xs : List γ) : xs.flatMap (fun _ => ([] : List Identifier)) = [] :=
    List.flatMap_eq_nil_iff.mpr fun _ _ => rfl
  simp [Placement.filterMap_postings, nothing, Attribution.postings, Posting.placed?,
    List.filterMap_cons]

/-- The output of each placement that can be written is among the postings. -/
theorem output_mem_postings {p : Placement} (placed : p ∈ t.placements w) {c : OutputColumns}
    (columns : p.output.state.columns? = some c) :
    .output p.place p.output.asset p.stake false c ∈ w.postings t := by
  have among : .output p.place p.output.asset p.stake false c ∈ p.postings := by
    simp [Placement.postings, OutputState.postings, columns]
  rw [postings, placePostings_eq]
  simp only [List.mem_append, List.mem_flatMap]
  exact .inl (.inr ⟨p, placed, among⟩)

end Writer

namespace Transaction

theorem mem_signersOf {t : Transaction} {i : Input} {position : Nat} {a : Attribution} :
    a ∈ t.signersOf i position ↔ a.input = i ∧
      a.signature ∈ Credential.signaturesAt t.credentials position ∧
      Signer.recover t.unsigned a.signature = .ok a.key := by
  rw [signersOf, List.mem_filterMap]
  constructor
  · rintro ⟨s, given, h⟩
    obtain ⟨key, recovered, rfl⟩ := Option.map_eq_some_iff.mp h
    refine ⟨rfl, given, ?_⟩
    revert recovered
    cases Signer.recover t.unsigned s <;> simp [Except.toOption]
  · rintro ⟨rfl, given, recovered⟩
    exact ⟨a.signature, given, by simp [recovered, Except.toOption]⟩

/-- What makes a signer: a base input, and a signature in the credential at its position. -/
theorem mem_attributions {t : Transaction} {a : Attribution} :
    a ∈ t.attributions ↔ ∃ position, t.base.inputs[position]? = some a.input ∧
      a.signature ∈ Credential.signaturesAt t.credentials position ∧
      Signer.recover t.unsigned a.signature = .ok a.key := by
  rw [attributions, List.mem_flatMap]
  constructor
  · rintro ⟨⟨i, position⟩, at_, signs⟩
    obtain ⟨rfl, given, recovered⟩ := mem_signersOf.mp signs
    exact ⟨position, List.mem_zipIdx_iff_getElem?.mp at_, given, recovered⟩
  · rintro ⟨position, at_, given, recovered⟩
    exact ⟨(a.input, position), List.mem_zipIdx_iff_getElem?.mpr at_,
      mem_signersOf.mpr ⟨rfl, given, recovered⟩⟩

def Fills (t : Transaction) (w : Writer) (ctx : Context) (session : Session) : Prop :=
  (w.indexTransaction ctx t).Reaches ⟨session, .done ()⟩

namespace Fills

variable {t : Transaction} {w : Writer} {ctx : Context} {session : Session}

theorem staged_eq (h : t.Fills w ctx session) :
    session.staged = w.changesOf ctx (w.postings t) :=
  (w.indexTransaction_posts ctx t).staged_eq (w.indexTransaction_steady ctx t) h

theorem tables_eq (h : t.Fills w ctx session) (store : Store) :
    (store.commit session).tables =
      Change.applyAll store.tables (w.changesOf ctx (w.postings t)) := by
  rw [← h.staged_eq]
  rfl

/-- A transaction that gets through when it is left alone fills a session. -/
theorem of_run (h : ((w.indexTransaction ctx t).run (fun _ => []) .empty .empty).result = .ok ()) :
    t.Fills w ctx ((w.indexTransaction ctx t).run (fun _ => []) .empty .empty).session := by
  have undisturbed : (w.indexTransaction ctx t).Leaves .empty .empty () _ := ⟨h, rfl⟩
  exact .leaves .start (w.indexTransaction_steady ctx t) undisturbed

end Fills
end Transaction
end LedgerIndex
