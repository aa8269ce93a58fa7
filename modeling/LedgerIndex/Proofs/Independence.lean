import LedgerIndex.Proofs.Commuting
import LedgerIndex.Proofs.History
import LedgerIndex.Proofs.Identities
import LedgerIndex.Proofs.Inquiries

/-!
# Independent blocks

Two blocks that share no transaction and no output can be indexed in either order. Neither
learns of the other, since a block asks for the outputs that it spends only; and their postings
are apart, unless two digests collide. Addresses may be shared. Then their rows tell which
block saw the address first, and nothing else differs.
-/
namespace LedgerIndex

/-- Two blocks share no transaction, and no output that either spends or creates. -/
structure Block.Independent (a b : Block) : Prop where
  transactions : ∀ t ∈ a.transactions, ∀ u ∈ b.transactions, t.base.id ≠ u.base.id
  outputs : ∀ t ∈ a.transactions, ∀ u ∈ b.transactions,
    ∀ id ∈ t.spends ++ t.creates, id ∉ u.spends ++ u.creates

theorem Block.Independent.symm {a b : Block} (h : a.Independent b) : b.Independent a where
  transactions t ht u hu := (h.transactions u hu t ht).symm
  outputs t ht u hu id mine yours := h.outputs u hu t ht id yours mine

namespace Posting

def digested : Posting → List Bytes
  | key k => [k.compressed]
  | tie place address _ => [Bytes.ofString (DeltaRow.name place.output address)]
  | activity place asset owner =>
    [Bytes.ofString (ActivityRow.name place.chain asset owner place.transaction)]
  | _ => []

def redigested : Posting → List Bytes
  | key k => [Hash.Sha256.digest k.compressed]
  | _ => []

/-- No two values that the postings name have the same digest. -/
structure Collisionless (ps : List Posting) : Prop where
  sha256 : ∀ x ∈ ps.flatMap digested, ∀ y ∈ ps.flatMap digested,
    Hash.Sha256.digest x = Hash.Sha256.digest y → x = y
  ripemd160 : ∀ x ∈ ps.flatMap redigested, ∀ y ∈ ps.flatMap redigested,
    Hash.Ripemd160.digest x = Hash.Ripemd160.digest y → x = y

/-- A posting is about a transaction: its outputs are spent or created by it. -/
def Of (t : Transaction) : Posting → Prop
  | key _ => True
  | tie place _ _ => place.output ∈ t.spends ++ t.creates
  | activity place _ _ => place.transaction = t.base.id
  | output place _ _ _ _ => place.output ∈ t.spends ++ t.creates
  | spend _ _ i => i.output ∈ t.spends ++ t.creates
  | transaction u _ => u.base.id = t.base.id
  | trace _ _ => False
  | log _ _ => False

variable {t u : Transaction}

theorem of_input {i : Input} (known : i.output ∈ t.spends) (spender : Identifier)
    (unsigned : Bytes) (chain : String) (signatures : List Bytes) :
    ∀ p ∈ i.postings spender unsigned chain signatures, p.Of t := by
  have inside : i.output ∈ t.spends ++ t.creates := List.mem_append_left _ known
  intro p hp
  rcases List.mem_append.mp hp with signs | spends
  · obtain ⟨signature, -, signed⟩ := List.mem_flatMap.mp signs
    unfold Input.signer at signed
    split at signed
    · rcases List.mem_cons.mp signed with rfl | signed
      · exact True.intro
      · cases List.mem_singleton.mp signed
        exact inside
    · simp at signed
  · cases List.mem_singleton.mp spends
    exact inside

theorem of_inputs {is : List Input} (known : ∀ i ∈ is, i.output ∈ t.spends) (spender : Identifier)
    (unsigned : Bytes) (chain : String) (credentials : List Credential) (position : Nat) :
    ∀ p ∈ Input.postingsFrom spender unsigned chain credentials position is, p.Of t := by
  induction is generalizing position with
  | nil => simp [Input.postingsFrom]
  | cons i rest ih =>
    intro p hp
    rcases List.mem_append.mp hp with first | later
    · exact of_input (known i List.mem_cons_self) _ _ _ _ p first
    · exact ih (fun j hj => known j (List.mem_cons_of_mem i hj)) _ p later

theorem of_outputs (chain : String) (stake : Bool) {position : Nat} {os : List Output}
    (known : ∀ n, position ≤ n → n < position + os.length →
      t.base.id.derive (UInt32.ofNat n).toUInt64 ∈ t.creates) :
    ∀ p ∈ Output.postingsFrom t.base.id chain stake position os, p.Of t := by
  induction os generalizing position with
  | nil => simp [Output.postingsFrom]
  | cons o rest ih =>
    have inside : t.base.id.derive (UInt32.ofNat position).toUInt64 ∈ t.spends ++ t.creates :=
      List.mem_append_right _ (known position (Nat.le_refl _) (by simp))
    intro p hp
    rcases List.mem_append.mp hp with first | later
    · obtain ⟨owner, rfl⟩ | ⟨owner, rfl⟩ | ⟨c, rfl⟩ := OutputState.cases_of_mem_postings first
      · exact inside
      · rfl
      · exact inside
    · refine ih (fun n lower upper => known n (by omega) ?_) p later
      simp only [List.length_cons]
      omega

/-- Everything that is posted for a transaction is about it. -/
theorem of_transaction (w : Writer) (t : Transaction) : ∀ p ∈ w.postings t, p.Of t := by
  have created (n : Nat) (upper : n < t.base.outputs.length +
      (t.extraOutputs.elim [] (·.outputs)).length) :
      t.base.id.derive (UInt32.ofNat n).toUInt64 ∈ t.creates :=
    List.mem_map.mpr ⟨n, by simpa using upper, rfl⟩
  intro p hp
  rcases List.mem_append.mp hp with rows | last
  · rcases List.mem_append.mp rows with spends | places
    · rcases List.mem_append.mp spends with base | extra
      · refine of_inputs (fun i hi => ?_) _ _ _ _ _ p base
        exact List.mem_append_left _ (List.mem_map_of_mem hi)
      · cases given : t.extraInputs with
        | none => simp [given] at extra
        | some more =>
          rw [given] at extra
          refine of_inputs (fun i hi => ?_) _ _ _ _ _ p extra
          rw [Transaction.spends, given]
          exact List.mem_append_right _ (List.mem_map_of_mem hi)
    · rcases List.mem_append.mp places with base | extra
      · exact of_outputs _ _ (fun n _ upper => created n (by omega)) p base
      · cases given : t.extraOutputs with
        | none => simp [given] at extra
        | some more =>
          rw [given] at extra
          refine of_outputs _ _ (fun n _ upper => created n ?_) p extra
          rw [given]
          exact upper
  · cases List.mem_singleton.mp last
    rfl

/-- Postings about transactions that share nothing are apart, unless digests collide. -/
theorem Of.apart {p q : Posting} (hp : p.Of t) (hq : q.Of u)
    (transactions : t.base.id ≠ u.base.id)
    (outputs : ∀ id ∈ t.spends ++ t.creates, id ∉ u.spends ++ u.creates)
    (sha256 : ∀ x ∈ p.digested, ∀ y ∈ q.digested,
      Hash.Sha256.digest x = Hash.Sha256.digest y → x = y)
    (ripemd160 : ∀ x ∈ p.redigested, ∀ y ∈ q.redigested,
      Hash.Ripemd160.digest x = Hash.Ripemd160.digest y → x = y) : p.Apart q := by
  have differ {o o' : Identifier} (mine : o ∈ t.spends ++ t.creates)
      (yours : o' ∈ u.spends ++ u.creates) : o ≠ o' := by
    rintro rfl
    exact outputs o mine yours
  have unnamed {x y : String} (hx : Bytes.ofString x ∈ p.digested)
      (hy : Bytes.ofString y ∈ q.digested)
      (same : Identifier.ofContent (Bytes.ofString x) = .ofContent (Bytes.ofString y)) : x = y :=
    Bytes.ofString_injective (sha256 _ hx _ hy (congrArg Fixed.bytes same))
  cases p with
  | key k =>
    cases q with
    | key k' =>
      intro shared
      have digests := ripemd160 _ (List.mem_singleton_self _) _ (List.mem_singleton_self _)
        (congrArg Fixed.bytes shared)
      exact sha256 _ (List.mem_singleton_self _) _ (List.mem_singleton_self _) digests
    | _ => exact True.intro
  | tie place address signature =>
    cases q with
    | tie place' address' signature' =>
      refine ⟨differ hp hq, fun same => ?_⟩
      have names := unnamed (List.mem_singleton_self _) (List.mem_singleton_self _) same
      exact differ hp hq (DeltaRow.name_inj names).1
    | spend => exact differ hp hq
    | _ => exact True.intro
  | activity place asset owner =>
    cases q with
    | activity place' asset' owner' =>
      intro same
      have names := unnamed (List.mem_singleton_self _) (List.mem_singleton_self _) same
      have both := (ActivityRow.name_inj names).2.2.2
      rw [hp, hq] at both
      exact transactions both
    | _ => exact True.intro
  | output =>
    cases q with
    | output => exact differ hp hq
    | _ => exact True.intro
  | spend =>
    cases q with
    | spend => exact differ hp hq
    | tie => exact (differ hp hq).symm
    | _ => exact True.intro
  | transaction t' fee =>
    cases q with
    | transaction u' fee' =>
      intro same
      rw [hp, hq] at same
      exact transactions same
    | _ => exact True.intro
  | trace => exact hp.elim
  | log => exact hp.elim

end Posting

/-- Where one list of changes does nothing, it does not matter which comes first. -/
theorem Facet.Sound.swap {κ ν : Type} [Ord κ] [Std.TransOrd κ] {f : Facet κ ν} (sound : f.Sound)
    {cs ds : List Change} {k : κ} (silent : f.edits ds k = []) (t : Tables) :
    (f.table (Change.applyAll t (cs ++ ds)))[k]? = (f.table (Change.applyAll t (ds ++ cs)))[k]? := by
  rw [sound.applyAll, sound.applyAll, f.edits_append, f.edits_append, silent, List.append_nil,
    List.nil_append]

theorem Puts.edits_eq_nil {κ ν : Type} [Ord κ] [Std.TransOrd κ] [DecidableEq κ] (p : Puts κ ν)
    {cs : List Change} {k : κ}
    (unwritten : ∀ c ∈ cs, ∀ new overwrite, p.written c ≠ some (k, new, overwrite)) :
    p.facet.edits cs k = [] := by
  apply List.flatMap_eq_nil_iff.mpr
  intro c hc
  rw [Option.toList_eq_nil_iff]
  cases hw : p.written c with
  | none => simp [facet, hw]
  | some write =>
    obtain ⟨k', new, overwrite⟩ := write
    have other : k' ≠ k := by
      rintro rfl
      exact unwritten c hc new overwrite hw
    simp [facet, hw, other]

/-- The tables are the same, except that the rows of some addresses may tell different times at
which the address was first seen. -/
structure Tables.Alike (shared : Address → Prop) (t t' : Tables) : Prop where
  undated : t.undated = t'.undated
  addresses : ∀ address : Address, ¬shared address →
    t.addresses[address]? = t'.addresses[address]?
  presence : ∀ (address : Address) (chain : String), ¬shared address →
    t.presence[(address, chain)]? = t'.presence[(address, chain)]?

theorem Tables.Alike.refl (shared : Address → Prop) (t : Tables) : t.Alike shared t :=
  ⟨rfl, fun _ _ => rfl, fun _ _ _ => rfl⟩

namespace Posting

/-- The posting writes a row of an address, as that of a key or as one tied to an output. -/
def Touches (address : Address) : Posting → Prop
  | key k => k.address = address
  | tie _ owner _ => owner = address
  | _ => False

end Posting

namespace Writer

variable (w : Writer) (ctx : Context)

def Touches (b : Block) (address : Address) : Prop :=
  ∃ t ∈ b.transactions, ∃ p ∈ w.postings t, p.Touches address

theorem touches_of_address {row : AddressRow} {o : Bool} {p : Posting}
    (h : .address row o ∈ w.changes ctx p) : p.Touches row.address := by
  cases p with
  | key k =>
    obtain ⟨rfl, -⟩ : row = ⟨k.address, k.compressed, ctx.time⟩ ∧ _ := by simpa [changes] using h
    rfl
  | tie place address signature => cases signature <;> simp [changes] at h
  | _ => simp [changes] at h

theorem touches_of_presence {row : PresenceRow} {o : Bool} {p : Posting}
    (h : .presence row o ∈ w.changes ctx p) : p.Touches row.address := by
  cases p with
  | tie place address signature =>
    obtain ⟨rfl, -⟩ : row = ⟨address, place.chain, ctx.time⟩ ∧ o = ctx.overwrite := by
      cases signature <;> simpa [changes] using h
    rfl
  | _ => simp [changes] at h

theorem output_of_change {t : Transaction} {row : OutputRow} {o : Bool} {p : Posting} (hp : p.Of t)
    (h : .output row o ∈ w.changes ctx p) : row.id ∈ t.spends ++ t.creates := by
  cases p with
  | output place asset stake genesis columns =>
    obtain ⟨rfl, -⟩ : row = columns.row place asset stake genesis ctx.time ∧ _ := by
      simpa [changes] using h
    exact hp
  | tie place address signature => cases signature <;> simp [changes] at h
  | _ => simp [changes] at h

variable {b : Block}

/-- A block does nothing at a key that none of its postings writes to. -/
theorem edits_block {κ ν : Type} [Ord κ] [Std.TransOrd κ] [DecidableEq κ] (puts : Puts κ ν) {k : κ}
    (unwritten : ∀ t ∈ b.transactions, ∀ p ∈ w.postings t, ∀ c ∈ w.changes ctx p,
      ∀ new overwrite, puts.written c ≠ some (k, new, overwrite)) :
    puts.facet.edits (w.changesOf ctx (b.transactions.flatMap w.postings)) k = [] := by
  apply puts.edits_eq_nil
  intro c hc
  obtain ⟨p, hp, posted⟩ := List.mem_flatMap.mp hc
  obtain ⟨t, ht, hp⟩ := List.mem_flatMap.mp hp
  exact unwritten t ht p hp c posted

theorem edits_addresses {address : Address} (untouched : ¬w.Touches b address) :
    Puts.addresses.facet.edits (w.changesOf ctx (b.transactions.flatMap w.postings)) address =
      [] := by
  apply w.edits_block ctx
  intro t ht p hp c posted new overwrite written
  cases c with
  | address row o =>
    cases written
    exact untouched ⟨t, ht, p, hp, w.touches_of_address ctx posted⟩
  | _ => cases written

theorem edits_presence {address : Address} (untouched : ¬w.Touches b address) (chain : String) :
    Puts.presence.facet.edits (w.changesOf ctx (b.transactions.flatMap w.postings))
      (address, chain) = [] := by
  apply w.edits_block ctx
  intro t ht p hp c posted new overwrite written
  cases c with
  | presence row o =>
    cases written
    exact untouched ⟨t, ht, p, hp, w.touches_of_presence ctx posted⟩
  | _ => cases written

theorem edits_outputs {id : Identifier}
    (unknown : ∀ t ∈ b.transactions, id ∉ t.spends ++ t.creates) :
    Puts.outputs.facet.edits (w.changesOf ctx (b.transactions.flatMap w.postings)) id = [] := by
  apply w.edits_block ctx
  intro t ht p hp c posted new overwrite written
  cases c with
  | output row o =>
    cases written
    exact unknown t ht (w.output_of_change ctx (Posting.of_transaction w t p hp) posted)
  | _ => cases written

/-- The changes of independent blocks have the same effect in either order, but for the time. -/
theorem undated_comm {ctx ctx' : Context} (same : ctx.overwrite = ctx'.overwrite) {a b : Block}
    (independent : a.Independent b)
    (collisionless : Posting.Collisionless
      (a.transactions.flatMap w.postings ++ b.transactions.flatMap w.postings)) (t : Tables) :
    (Change.applyAll t (w.changesOf ctx (a.transactions.flatMap w.postings) ++
        w.changesOf ctx' (b.transactions.flatMap w.postings))).undated =
      (Change.applyAll t (w.changesOf ctx' (b.transactions.flatMap w.postings) ++
        w.changesOf ctx (a.transactions.flatMap w.postings))).undated := by
  rw [Change.undated_applyAll, Change.undated_applyAll, List.map_append, List.map_append]
  apply Change.applyAll_comm
  intro c hc d hd
  obtain ⟨c, mine, rfl⟩ := List.mem_map.mp hc
  obtain ⟨d, yours, rfl⟩ := List.mem_map.mp hd
  obtain ⟨p, hp, posted⟩ := List.mem_flatMap.mp mine
  obtain ⟨q, hq, posted'⟩ := List.mem_flatMap.mp yours
  have left {f : Posting → List Bytes} {x : Bytes} (hx : x ∈ f p) :
      x ∈ (a.transactions.flatMap w.postings ++ b.transactions.flatMap w.postings).flatMap f :=
    List.mem_flatMap.mpr ⟨p, List.mem_append_left _ hp, hx⟩
  have right {f : Posting → List Bytes} {x : Bytes} (hx : x ∈ f q) :
      x ∈ (a.transactions.flatMap w.postings ++ b.transactions.flatMap w.postings).flatMap f :=
    List.mem_flatMap.mpr ⟨q, List.mem_append_right _ hq, hx⟩
  obtain ⟨t, ht, hp⟩ := List.mem_flatMap.mp hp
  obtain ⟨u, hu, hq⟩ := List.mem_flatMap.mp hq
  apply w.apart_changes ctx ctx' same _ c posted d posted'
  apply (Posting.of_transaction w t p hp).apart (Posting.of_transaction w u q hq)
  · exact independent.transactions t ht u hu
  · exact independent.outputs t ht u hu
  · exact fun x hx y hy => collisionless.sha256 x (left hx) y (right hy)
  · exact fun x hx y hy => collisionless.ripemd160 x (left hx) y (right hy)

/-- The changes of independent blocks have the same effect in either order, but for the time
at which an address was first seen that both touch. -/
theorem alike_comm {ctx ctx' : Context} (same : ctx.overwrite = ctx'.overwrite) {a b : Block}
    (independent : a.Independent b)
    (collisionless : Posting.Collisionless
      (a.transactions.flatMap w.postings ++ b.transactions.flatMap w.postings)) (t : Tables) :
    Tables.Alike (fun x => w.Touches a x ∧ w.Touches b x)
      (Change.applyAll t (w.changesOf ctx (a.transactions.flatMap w.postings) ++
        w.changesOf ctx' (b.transactions.flatMap w.postings)))
      (Change.applyAll t (w.changesOf ctx' (b.transactions.flatMap w.postings) ++
        w.changesOf ctx (a.transactions.flatMap w.postings))) where
  undated := w.undated_comm same independent collisionless t
  addresses address unshared := by
    rcases not_and_or.mp unshared with mine | yours
    · exact (Puts.addresses.sound_facet.swap (w.edits_addresses ctx mine) t).symm
    · exact Puts.addresses.sound_facet.swap (w.edits_addresses ctx' yours) t
  presence address chain unshared := by
    rcases not_and_or.mp unshared with mine | yours
    · exact (Puts.presence.sound_facet.swap (w.edits_presence ctx mine chain) t).symm
    · exact Puts.presence.sound_facet.swap (w.edits_presence ctx' yours chain) t

end Writer

namespace Task

def ending (s : Settings) (t : Task) (store : Store) : Ending Unit :=
  (t.attempt s).run (fun _ => []) store .empty

def filling (s : Settings) (t : Task) (store : Store) : Ending Unit :=
  (t.body s).run (fun _ => []) store .empty

/-- A task that is left alone ends as its body does, and commits what that has staged. -/
theorem ending_eq (s : Settings) (t : Task) (store : Store) :
    (t.ending s store).result = (t.filling s store).result ∧
      (t.ending s store).store = match (t.filling s store).result with
        | .ok _ => store.commit (t.filling s store).session
        | .error _ => store := by
  have keeps : (t.filling s store).store = store := (t.body_steady s).run_store store .empty
  unfold filling at keeps
  simp only [ending, filling, attempt_eq, Script.run, Call.perform, Script.run_bind]
  generalize (t.body s).run (fun _ => []) store .empty = ending at keeps ⊢
  obtain ⟨result, after, session, events⟩ := ending
  cases keeps
  cases result <;> exact ⟨rfl, rfl⟩

theorem filling_staged {s : Settings} {t : Task} {store : Store}
    (through : (t.filling s store).result = .ok ()) :
    (t.filling s store).session.staged = (t.work s).changes :=
  (fills_of_leaves ⟨through, rfl⟩).staged_eq

/-- What a block stages, and whether it gets through, depends on the outputs that it spends. -/
theorem filling_congr {s : Settings} {t : Task} {b : Block} (payload : t.payload = .block b)
    {store store' : Store} (agree : ∀ u ∈ b.transactions, ∀ id ∈ u.spends,
      store.tables.outputs.contains id = store'.tables.outputs.contains id) :
    (t.filling s store).result = (t.filling s store').result ∧
      (t.filling s store).session = (t.filling s store').session := by
  have inquires : (t.body s).Inquires fun id => ∃ u ∈ b.transactions, id ∈ u.spends := by
    rw [body, payload]
    exact .consume _ (((s.writer.consume_inquires _ _ fun u hu id hid => ⟨u, hu, hid⟩).bind
      fun _ => .consumed _ (.done ())))
  apply inquires.run_eq
  rintro id ⟨u, hu, hid⟩
  exact agree u hu id hid

/-- A block neither adds nor takes away outputs that it has nothing to do with. -/
theorem contains_ending {s : Settings} {t : Task} {b : Block} (payload : t.payload = .block b)
    (store : Store) {id : Identifier} (unknown : ∀ u ∈ b.transactions, id ∉ u.spends ++ u.creates) :
    (t.ending s store).store.tables.outputs.contains id = store.tables.outputs.contains id := by
  rw [(t.ending_eq s store).2]
  cases through : (t.filling s store).result with
  | error f => rfl
  | ok _ =>
    change (Change.applyAll _ _).outputs.contains id = _
    rw [filling_staged through]
    have unchanged : (Change.applyAll store.tables (t.work s).changes).outputs[id]? =
        store.tables.outputs[id]? := by
      have edits := Puts.outputs.sound_facet.applyAll store.tables (t.work s).changes id
      rw [work, payload] at edits ⊢
      have silent := s.writer.edits_outputs ⟨t.time, s.overwrite⟩ unknown
      exact edits.trans (congrArg (Edit.applyAll · _) silent)
    rw [← Std.ExtTreeMap.isSome_getElem?_eq_contains, ← Std.ExtTreeMap.isSome_getElem?_eq_contains,
      unchanged]

/-- Each of two tasks ends as it would have ended in the other order, and either order leaves
the same tables, up to when some addresses were first seen. -/
structure Interchangeable (s : Settings) (a b : Task) (shared : Address → Prop) (store : Store) :
    Prop where
  first : (a.ending s (b.ending s store).store).result = (a.ending s store).result
  second : (b.ending s (a.ending s store).store).result = (b.ending s store).result
  tables : Tables.Alike shared (b.ending s (a.ending s store).store).store.tables
    (a.ending s (b.ending s store).store).store.tables

/-- Independent blocks can be indexed in either order. -/
theorem interchangeable (s : Settings) {a b : Task} {A B : Block} (ha : a.payload = .block A)
    (hb : b.payload = .block B) (independent : A.Independent B)
    (collisionless : Posting.Collisionless
      (A.transactions.flatMap s.writer.postings ++ B.transactions.flatMap s.writer.postings))
    (store : Store) :
    Interchangeable s a b (fun x => s.writer.Touches A x ∧ s.writer.Touches B x) store := by
  -- neither learns of the other
  obtain ⟨resultA, sessionA⟩ := filling_congr (s := s) ha fun u hu id hid =>
    (contains_ending (s := s) hb store fun v hv =>
      independent.outputs u hu v hv id (List.mem_append_left _ hid)).symm
  obtain ⟨resultB, sessionB⟩ := filling_congr (s := s) hb fun u hu id hid =>
    (contains_ending (s := s) ha store fun v hv =>
      independent.symm.outputs u hu v hv id (List.mem_append_left _ hid)).symm
  obtain ⟨endA, storeA⟩ := a.ending_eq s store
  obtain ⟨endB, storeB⟩ := b.ending_eq s store
  obtain ⟨endBA, storeBA⟩ := a.ending_eq s (b.ending s store).store
  obtain ⟨endAB, storeAB⟩ := b.ending_eq s (a.ending s store).store
  rw [← resultA] at endBA storeBA
  rw [← sessionA] at storeBA
  rw [← resultB] at endAB storeAB
  rw [← sessionB] at storeAB
  refine ⟨endBA.trans endA.symm, endAB.trans endB.symm, ?_⟩
  rw [storeAB, storeBA, storeA, storeB]
  cases throughA : (a.filling s store).result with
  | error f => exact .refl _ _
  | ok _ =>
    cases throughB : (b.filling s store).result with
    | error f => exact .refl _ _
    | ok _ =>
      -- both are committed, so their changes are applied in either order
      change Tables.Alike _ (Change.applyAll (Change.applyAll _ _) _)
        (Change.applyAll (Change.applyAll _ _) _)
      rw [filling_staged throughA, filling_staged throughB, ← Change.applyAll_append,
        ← Change.applyAll_append, work, work, ha, hb]
      have same : (⟨a.time, s.overwrite⟩ : Context).overwrite =
        (⟨b.time, s.overwrite⟩ : Context).overwrite := rfl
      exact s.writer.alike_comm same independent collisionless store.tables

/-- Two blocks pay the same owner at different times, and one of them spends an output that is
not there. -/
theorem interchangeable_sharedOwner : ∃ (a b : Task) (A B : Block), a.payload = .block A ∧
    b.payload = .block B ∧ a.time ≠ b.time ∧ Settings.plain.writer.Touches A default ∧
      Settings.plain.writer.Touches B default ∧ Interchangeable .plain a b
        (fun x => Settings.plain.writer.Touches A x ∧ Settings.plain.writer.Touches B x) .empty := by
  let paid : List Output := [⟨default, .transfer 1 ⟨0, 1, [default]⟩⟩]
  let A : Block := ⟨[.funding]⟩
  let B : Block := ⟨[.sample (.ofContent []) [⟨.ofContent [0], 0, default, 1⟩] paid]⟩
  let subject : Subject := ⟨"", "", .block⟩
  let a : Task := ⟨subject, default, ⟨0, 0⟩, .block A⟩
  let b : Task := ⟨subject, default, ⟨1, 0⟩, .block B⟩
  have independent : A.Independent B := ⟨by decide +kernel, by decide +kernel⟩
  have collisionless : Posting.Collisionless (A.transactions.flatMap Settings.plain.writer.postings ++
      B.transactions.flatMap Settings.plain.writer.postings) :=
    ⟨by decide +kernel, by decide +kernel⟩
  have touchesA : Settings.plain.writer.Touches A default :=
    ⟨_, List.mem_singleton_self _, _, List.mem_cons_self, rfl⟩
  have touchesB : Settings.plain.writer.Touches B default :=
    ⟨_, List.mem_singleton_self _, _, List.mem_cons_of_mem _ List.mem_cons_self, rfl⟩
  exact ⟨a, b, A, B, rfl, rfl, by decide, touchesA, touchesB,
    interchangeable .plain rfl rfl independent collisionless .empty⟩

end Task
end LedgerIndex
