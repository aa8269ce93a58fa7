import LedgerIndex.Proofs.Integrity
import LedgerIndex.Proofs.Staging

/-!
# Marks

A spend marks the contributions to its output that are there by then. So a contribution is
marked exactly if its output is spent at some time after its address was first tied to it.
A signer is tied to an output just before its spend. An owner is tied to it when it is created,
and that may come after the spend: such a contribution stays unmarked, although its output
is redeemed.
-/
namespace LedgerIndex

namespace Posting

def Ties (output : Identifier) (address : Address) : Posting → Prop
  | tie place a _ => place.output = output ∧ a = address
  | _ => False

def Spends (output : Identifier) : Posting → Prop
  | spend _ _ i => i.output = output
  | _ => False

def SpentSince (ps : List Posting) (output : Identifier) (address : Address) : Prop :=
  ∃ before after, ps = before ++ after ∧ (∃ p ∈ before, p.Ties output address) ∧
    ∃ p ∈ after, p.Spends output

/-- The output is spent, and then an owner is tied to it for the first time, and then it is
not spent again. -/
def TiedLate (ps : List Posting) (output : Identifier) (address : Address) : Prop :=
  ∃ before place after, ps = before ++ .tie place address none :: after ∧
    place.output = output ∧ (∃ p ∈ before, p.Spends output) ∧
    (∀ p ∈ before, ¬p.Ties output address) ∧ ∀ p ∈ after, ¬p.Spends output

theorem SpentSince.tied {ps : List Posting} {output : Identifier} {address : Address}
    (h : SpentSince ps output address) : ∃ p ∈ ps, p.Ties output address := by
  obtain ⟨before, after, rfl, ⟨p, first, ties⟩, -⟩ := h
  exact ⟨p, List.mem_append_left _ first, ties⟩

theorem spentSince_concat (ps : List Posting) (p : Posting) (output : Identifier)
    (address : Address) : SpentSince (ps ++ [p]) output address ↔
      SpentSince ps output address ∨ (∃ q ∈ ps, q.Ties output address) ∧ p.Spends output := by
  constructor
  · rintro ⟨before, after, parts, ⟨q, first, ties⟩, r, second, spends⟩
    have some_after : after ≠ [] := List.ne_nil_of_mem second
    obtain ⟨rest, last, ends⟩ := (List.eq_nil_or_concat after).resolve_left some_after
    rw [List.concat_eq_append] at ends
    subst ends
    rw [← List.append_assoc] at parts
    obtain ⟨rfl, same⟩ := List.append_inj' parts rfl
    cases same
    rcases List.mem_append.mp second with earlier | now
    · exact .inl ⟨before, rest, rfl, ⟨q, first, ties⟩, r, earlier, spends⟩
    · cases List.mem_singleton.mp now
      exact .inr ⟨⟨q, List.mem_append_left _ first, ties⟩, spends⟩
  · rintro (⟨before, after, rfl, tied, r, second, spends⟩ | ⟨tied, spends⟩)
    · exact ⟨before, after ++ [p], List.append_assoc .., tied, r,
        List.mem_append_left _ second, spends⟩
    · exact ⟨ps, [p], rfl, tied, p, List.mem_singleton_self p, spends⟩

theorem TiedLate.not_spentSince {ps : List Posting} {output : Identifier} {address : Address}
    (late : TiedLate ps output address) : ¬SpentSince ps output address := by
  obtain ⟨before, place, after, rfl, -, -, untied, unspent⟩ := late
  rintro ⟨start, rest, both, ⟨q, first, ties⟩, r, second, spends⟩
  rcases List.append_eq_append_iff.mp both with ⟨between, rfl, left⟩ | ⟨between, rfl, -⟩
  · cases between with
    | nil => exact untied q (by simpa using first) ties
    | cons p between =>
      cases left
      exact unspent r (List.mem_append_right _ second) spends
  · exact untied q (List.mem_append_left _ first) ties

def SignersSpend (ps : List Posting) : Prop :=
  ∀ before place address value after, ps = before ++ .tie place address (some value) :: after →
    ∃ p ∈ after, p.Spends place.output

namespace SignersSpend

theorem nil : SignersSpend [] := by
  intro before place address value after parts
  simp at parts

theorem append {ps qs : List Posting} (hp : SignersSpend ps) (hq : SignersSpend qs) :
    SignersSpend (ps ++ qs) := by
  intro before place address value after parts
  rcases Change.split_append parts with ⟨rest, first, rfl⟩ | ⟨start, -, second⟩
  · obtain ⟨p, later, spends⟩ := hp before place address value rest first
    exact ⟨p, List.mem_append_left _ later, spends⟩
  · exact hq start place address value after second

theorem flatMap {γ : Type} {f : γ → List Posting} (h : ∀ x, SignersSpend (f x)) (xs : List γ) :
    SignersSpend (xs.flatMap f) := by
  induction xs with
  | nil => exact .nil
  | cons x xs ih => exact (h x).append ih

theorem of_unsigned {ps : List Posting}
    (h : ∀ place address value, .tie place address (some value) ∉ ps) : SignersSpend ps := by
  intro before place address value after parts
  exact absurd (by simp [parts]) (h place address value)

theorem outputState (state : OutputState) (place : Place) (asset : Identifier)
    (stake genesis : Bool) : SignersSpend (state.postings place asset stake genesis) := by
  apply of_unsigned
  unfold OutputState.postings
  split <;> simp

theorem outputs (transaction : Identifier) (chain : String) (stake : Bool) (position : Nat)
    (os : List Output) :
    SignersSpend (Output.postingsFrom transaction chain stake position os) := by
  induction os generalizing position with
  | nil => exact .nil
  | cons o rest ih => exact (outputState _ _ _ _ _).append (ih _)

theorem input (i : Input) (spender : Identifier) (unsigned : Bytes) (chain : String)
    (signatures : List Bytes) :
    SignersSpend (i.postings spender unsigned chain signatures) := by
  intro before place address value after parts
  rcases Change.split_append parts with ⟨rest, first, rfl⟩ | ⟨start, -, second⟩
  · refine ⟨.spend spender chain i, by simp, ?_⟩
    have signs : .tie place address (some value) ∈ signatures.flatMap (i.signer unsigned chain) := by
      simp [first]
    obtain ⟨signature, -, signed⟩ := List.mem_flatMap.mp signs
    unfold Input.signer at signed
    split at signed
    · obtain ⟨rfl, -, -⟩ : place = i.place chain ∧ _ := by simpa using signed
      rfl
    · simp at signed
  · cases start <;> simp at second

theorem inputs (spender : Identifier) (unsigned : Bytes) (chain : String)
    (credentials : List Credential) (position : Nat) (is : List Input) :
    SignersSpend (Input.postingsFrom spender unsigned chain credentials position is) := by
  induction is generalizing position with
  | nil => exact .nil
  | cons i rest ih => exact (input _ _ _ _ _).append (ih _)

theorem transaction (w : Writer) (t : Transaction) : SignersSpend (w.postings t) := by
  apply SignersSpend.append
  · apply SignersSpend.append
    · apply (inputs _ _ _ _ _ _).append
      cases t.extraInputs with
      | none => exact .nil
      | some extra => exact inputs _ _ _ _ _ _
    · apply (outputs _ _ _ _ _).append
      cases t.extraOutputs with
      | none => exact .nil
      | some extra => exact outputs _ _ _ _ _
  · exact .of_unsigned (by simp)

theorem work (work : Work) : SignersSpend work.postings := by
  cases work with
  | message w ctx content payload =>
    cases payload with
    | block b => exact .flatMap (transaction w) _
    | trace t => exact .of_unsigned (by simp [Work.postings, Writer.postingsOf])
    | log l => exact .of_unsigned (by simp [Work.postings, Writer.postingsOf])
  | payout s r outputs => exact .flatMap (fun o => outputState _ _ _ _ _) _

end SignersSpend

/-- If a tied address does not see its output spent, then its first tie came late, and it was
the tie of an owner. -/
theorem TiedLate.of_not_spentSince {ps : List Posting} {output : Identifier} {address : Address}
    (signers : SignersSpend ps) (tied : ∃ p ∈ ps, p.Ties output address)
    (spent : ∃ p ∈ ps, p.Spends output) (h : ¬SpentSince ps output address) :
    TiedLate ps output address := by
  classical
  have known : (ps.find? fun p => p.Ties output address).isSome := by
    simpa using tied
  obtain ⟨p, found⟩ := Option.isSome_iff_exists.mp known
  obtain ⟨ties, before, after, rfl, untied⟩ := List.find?_eq_some_iff_append.mp found
  have ties : p.Ties output address := by simpa using ties
  have unspent (q : Posting) (later : q ∈ after) : ¬q.Spends output := by
    intro spends
    exact h ⟨before ++ [p], after, by simp, ⟨p, by simp, ties⟩, q, later, spends⟩
  cases p with
  | tie place owner signature =>
    obtain ⟨rfl, rfl⟩ := ties
    have unsigned : signature = none := by
      cases signature with
      | none => rfl
      | some value =>
        obtain ⟨q, later, spends⟩ := signers before place owner value after rfl
        exact absurd spends (unspent q later)
    subst unsigned
    obtain ⟨q, hq, spends⟩ := spent
    have earlier : q ∈ before := by
      rcases List.mem_append.mp hq with earlier | later
      · exact earlier
      · rcases List.mem_cons.mp later with rfl | later
        · cases spends
        · exact absurd spends (unspent q later)
    exact ⟨before, place, after, rfl, rfl, ⟨q, earlier, spends⟩, by simpa using untied, unspent⟩
  | _ => cases ties

end Posting

open Posting

/-- What the contributions and redemptions of the tables say about the postings that they
come from. -/
structure Tables.Follows (t : Tables) (ps : List Posting) : Prop where
  tied : ∀ p ∈ ps, ∀ output address, p.Ties output address →
    DeltaRow.identity output address ∈ t.incoming
  known : t.incoming.Every fun _ row => ∃ p ∈ ps, p.Ties row.delta.output row.delta.address
  marked : ∀ (k : Identifier) (row : IncomingRow), t.incoming[k]? = some row →
    (row.spent = true ↔ SpentSince ps row.delta.output row.delta.address)
  redeemed : ∀ output ∈ t.redemptions, ∃ p ∈ ps, p.Spends output

namespace Tables.Follows

variable {t t' : Tables} {ps : List Posting}

theorem empty : Tables.empty.Follows [] where
  tied := by simp
  known := .empty
  marked := by simp [Tables.empty]
  redeemed := by simp [Tables.empty]

/-- Postings that neither tie nor spend do not matter, nor do the tables they write to. -/
theorem concat_other (h : t.Follows ps) {p : Posting} (incoming : t'.incoming = t.incoming)
    (redemptions : t'.redemptions = t.redemptions)
    (unties : ∀ output address, ¬p.Ties output address) (unspent : ∀ output, ¬p.Spends output) :
    t'.Follows (ps ++ [p]) where
  tied q hq output address ties := by
    rw [incoming]
    rcases List.mem_append.mp hq with earlier | now
    · exact h.tied q earlier output address ties
    · cases List.mem_singleton.mp now
      exact absurd ties (unties output address)
  known k row found := by
    obtain ⟨q, hq, ties⟩ := h.known k row (incoming ▸ found)
    exact ⟨q, List.mem_append_left _ hq, ties⟩
  marked k row found := by
    rw [h.marked k row (incoming ▸ found), spentSince_concat]
    simp [unspent]
  redeemed output known := by
    obtain ⟨q, hq, spends⟩ := h.redeemed output (redemptions ▸ known)
    exact ⟨q, List.mem_append_left _ hq, spends⟩

/-- A tie adds a contribution unless there is one, and this one has not been spent yet. -/
theorem concat_tie (h : t.Follows ps) (w : Writer) (ctx : Context) (place : Place)
    (address : Address) (signature : Option Bytes) :
    (Change.applyAll t (w.changes ctx (.tie place address signature))).Follows
      (ps ++ [.tie place address signature]) := by
  have incoming : (Change.applyAll t (w.changes ctx (.tie place address signature))).incoming =
      t.incoming.insertNew (DeltaRow.identity place.output address)
        ⟨place.delta address, false⟩ := by
    rw [w.applyAll_tie]
    rfl
  have redemptions : (Change.applyAll t (w.changes ctx (.tie place address signature))).redemptions =
      t.redemptions := by
    rw [w.applyAll_tie]
  exact {
    tied := by
      intro q hq output owner ties
      rw [incoming]
      simp only [Table.insertNew, Table.mem_put]
      rcases List.mem_append.mp hq with earlier | now
      · exact .inr (h.tied q earlier output owner ties)
      · cases List.mem_singleton.mp now
        obtain ⟨rfl, rfl⟩ := ties
        exact .inl rfl
    known := by
      rw [incoming]
      intro k row found
      rcases Table.insertNew_cases found with old | ⟨-, rfl⟩
      · obtain ⟨q, hq, ties⟩ := h.known k row old
        exact ⟨q, List.mem_append_left _ hq, ties⟩
      · exact ⟨_, List.mem_append_right _ (List.mem_singleton_self _), rfl, rfl⟩
    marked := by
      rw [incoming]
      intro k row found
      rw [spentSince_concat]
      rcases Table.insertNew_cases found with old | ⟨fresh, rfl⟩
      · rw [h.marked k row old]
        simp [Posting.Spends]
      · have untied : ¬SpentSince ps place.output address := by
          intro since
          obtain ⟨q, hq, ties⟩ := since.tied
          exact fresh (h.tied q hq _ _ ties)
        simp [Posting.Spends, Place.delta, untied]
    redeemed := by
      rw [redemptions]
      intro output known
      obtain ⟨q, hq, spends⟩ := h.redeemed output known
      exact ⟨q, List.mem_append_left _ hq, spends⟩ }

theorem concat_spend (h : t.Follows ps) (w : Writer) (ctx : Context) (spender : Identifier)
    (chain : String) (i : Input) :
    (Change.applyAll t (w.changes ctx (.spend spender chain i))).Follows
      (ps ++ [.spend spender chain i]) := by
  have row_cases (k : Identifier) (row : IncomingRow)
      (found : (t.incoming.map fun _ row => Change.markSpent i.output row)[k]? = some row) :
      ∃ old, t.incoming[k]? = some old ∧ row.delta = old.delta ∧
        (row.spent = true ↔ old.spent = true ∨ i.output = old.delta.output) := by
    rw [Std.ExtTreeMap.getElem?_map] at found
    obtain ⟨old, before, rfl⟩ := Option.map_eq_some_iff.mp found
    refine ⟨old, before, ?_⟩
    by_cases spent : old.delta.output = i.output
    · simp [Change.markSpent, spent]
    · simp [Change.markSpent, spent, Ne.symm spent]
  exact {
    tied := by
      intro q hq output owner ties
      change _ ∈ t.incoming.map fun _ row => Change.markSpent i.output row
      rw [Std.ExtTreeMap.mem_map]
      rcases List.mem_append.mp hq with earlier | now
      · exact h.tied q earlier output owner ties
      · cases List.mem_singleton.mp now
        cases ties
    known := by
      intro k row found
      obtain ⟨old, before, same, -⟩ := row_cases k row found
      obtain ⟨q, hq, ties⟩ := h.known k old before
      rw [same]
      exact ⟨q, List.mem_append_left _ hq, ties⟩
    marked := by
      intro k row found
      obtain ⟨old, before, same, marks⟩ := row_cases k row found
      rw [marks, same, spentSince_concat, h.marked k old before]
      simp [h.known k old before, Posting.Spends]
    redeemed := by
      intro output known
      have either : i.output = output ∨ output ∈ t.redemptions :=
        (Table.mem_put t.redemptions _ _ _ _).mp known
      rcases either with now | earlier
      · exact ⟨_, List.mem_append_right _ (List.mem_singleton_self _), now⟩
      · obtain ⟨q, hq, spends⟩ := h.redeemed output earlier
        exact ⟨q, List.mem_append_left _ hq, spends⟩ }

theorem concat (h : t.Follows ps) (w : Writer) (ctx : Context) (p : Posting) :
    (Change.applyAll t (w.changes ctx p)).Follows (ps ++ [p]) := by
  cases p with
  | tie place address signature => exact h.concat_tie w ctx place address signature
  | spend spender chain i => exact h.concat_spend w ctx spender chain i
  | _ => exact h.concat_other rfl rfl (by simp [Posting.Ties]) (by simp [Posting.Spends])

theorem append (h : t.Follows ps) (w : Writer) (ctx : Context) (qs : List Posting) :
    (Change.applyAll t (w.changesOf ctx qs)).Follows (ps ++ qs) := by
  induction qs generalizing t ps with
  | nil =>
    rw [List.append_nil]
    exact h
  | cons q qs ih =>
    rw [Writer.changesOf_cons, Change.applyAll_append, ← List.singleton_append,
      ← List.append_assoc]
    exact ih (h.concat w ctx q)

end Tables.Follows

namespace Store.History

variable {works : List Work} {store : Store}

/-- Contributions and redemptions follow from what was committed and its order. -/
theorem follows (h : History works store) :
    store.tables.Follows (works.flatMap Work.postings) := by
  induction h with
  | blank clock => exact .empty
  | commit work _ filled ih =>
    change (Change.applyAll _ _).Follows _
    rw [filled.staged_eq, List.flatMap_append, List.flatMap_singleton]
    exact ih.append work.writer work.context work.postings
  | markReward id _ ih => exact { ih with }
  | insertBlock id parent kind _ ih => exact { ih with }
  | insertReward id block transaction created _ ih => exact { ih with }

/-- A contribution to an output that is redeemed is marked, except when its owner was only
tied to the output after the last spend. -/
theorem unmarked_iff (h : History works store) {output : Identifier}
    (redeemed : output ∈ store.tables.redemptions) {k : Identifier} {row : IncomingRow}
    (found : store.tables.incoming[k]? = some row) (contributes : row.delta.output = output) :
    row.spent = false ↔ TiedLate (works.flatMap Work.postings) output row.delta.address := by
  have follows := h.follows
  have marked := follows.marked k row found
  rw [contributes] at marked
  constructor
  · intro unmarked
    apply TiedLate.of_not_spentSince
    · exact .flatMap .work works
    · exact contributes ▸ follows.known k row found
    · exact follows.redeemed output redeemed
    · rw [← marked, unmarked]
      exact Bool.false_ne_true
  · intro late
    rw [← Bool.not_eq_true, marked]
    exact late.not_spentSince

/-- When the output is created before it is spent, its contribution is marked. -/
theorem unmarked_iff_funded : ∃ (store : Store) (k : Identifier) (row : IncomingRow),
    History [.block [.funding], .block [.spending]] store ∧
      row.delta.output ∈ store.tables.redemptions ∧ store.tables.incoming[k]? = some row ∧
      row.spent = true ∧ ¬TiedLate ([Work.block [.funding], .block [.spending]].flatMap
        Work.postings) row.delta.output row.delta.address := by
  let store : Store :=
    (Store.empty.commit (Work.block [.funding]).session).commit (Work.block [.spending]).session
  let delta : DeltaRow := Place.delta ⟨default, 0, Settings.plain.writer.chain⟩ default
  have funded := (History.blank fun _ => .epoch).commit (.block [.funding]) (.of_run rfl)
  have spent : History [.block [.funding], .block [.spending]] store :=
    funded.commit (.block [.spending]) (.of_run rfl)
  have redeemed : delta.output ∈ store.tables.redemptions := by decide +kernel
  have found : store.tables.incoming[delta.id]? = some ⟨delta, true⟩ := by decide +kernel
  refine ⟨store, delta.id, ⟨delta, true⟩, spent, redeemed, found, rfl, fun late => ?_⟩
  exact Bool.noConfusion ((spent.unmarked_iff redeemed found rfl).mpr late)

/-- When it is spent before it is created, its contribution is left unmarked. -/
theorem redeemed_unmarked : ∃ (store : Store) (k : Identifier) (row : IncomingRow),
    History [.block [.spending], .block [.funding]] store ∧
      row.delta.output ∈ store.tables.redemptions ∧ store.tables.incoming[k]? = some row ∧
      row.spent = false := by
  let store : Store :=
    (Store.empty.commit (Work.block [.spending]).session).commit (Work.block [.funding]).session
  let delta : DeltaRow := Place.delta ⟨default, 0, Settings.plain.writer.chain⟩ default
  have spent := (History.blank fun _ => .epoch).commit (.block [.spending]) (.of_run rfl)
  have funded : History [.block [.spending], .block [.funding]] store :=
    spent.commit (.block [.funding]) (.of_run rfl)
  have redeemed : delta.output ∈ store.tables.redemptions := by decide +kernel
  have found : store.tables.incoming[delta.id]? = some ⟨delta, false⟩ := by decide +kernel
  exact ⟨store, delta.id, ⟨delta, false⟩, funded, redeemed, found, rfl⟩

end Store.History
end LedgerIndex
