import LedgerIndex.Proofs.Edits

/-!
# Replaying changes

What becomes of the tables when the same changes are applied a second time. Every table
but two absorbs them whatever they are. Holdings do, unless a signature comes before its
holding; and a contribution that was new the first time is marked the second time, if it
came after the last spend of its output.
-/
namespace LedgerIndex

/-- Carrying over a row: the last new row decides, and a row carried over itself stays. -/
structure Carries {ν : Type} (carry : ν → ν → ν) : Prop where
  latest : ∀ old a b, carry (carry old a) b = carry old b
  self : ∀ row, carry row row = row

namespace Edit

variable {ν : Type}

/-- Writes a row, over an existing one only if overwriting is asked for. -/
def put (carry : ν → ν → ν) (new : ν) (overwrite : Bool) : Edit ν :=
  ⟨some new, fun old => if overwrite then carry old new else old⟩

theorem absorbing_of_puts {carry : ν → ν → ν} (carries : Carries carry) {es : List (Edit ν)}
    (puts : ∀ e ∈ es, ∃ new overwrite, e = put carry new overwrite) : Absorbing es where
  twice e he row := by
    obtain ⟨new, overwrite, rfl⟩ := puts e he
    cases overwrite <;> simp [put, carries.latest]
  around e he f hf row := by
    obtain ⟨new, overwrite, rfl⟩ := puts e he
    obtain ⟨other, overwrite', rfl⟩ := puts f hf
    cases overwrite <;> cases overwrite' <;> simp [put, carries.latest]
  fresh e he row fresh := by
    obtain ⟨new, overwrite, rfl⟩ := puts e he
    obtain rfl : new = row := by simpa [put] using fresh
    cases overwrite <;> simp [put, carries.self]

end Edit

/-- A table whose rows are only ever put there as a whole: `written` says which row a change
puts under which key, and whether over an existing one. -/
structure Puts (κ ν : Type) [Ord κ] [Std.TransOrd κ] where
  table : Tables → Table κ ν
  carry : ν → ν → ν
  written : Change → Option (κ × ν × Bool)
  carries : Carries carry
  table_apply (c : Change) (t : Tables) : table (c.apply t) = match written c with
    | some (k, new, overwrite) => (table t).upsertCarrying k new overwrite carry
    | none => table t

namespace Puts

section

variable {κ ν : Type} [Ord κ] [Std.TransOrd κ] [DecidableEq κ] (p : Puts κ ν)

def facet : Facet κ ν where
  table := p.table
  edit c k := (p.written c).bind fun (k', new, overwrite) =>
    if k' = k then some (.put p.carry new overwrite) else none

theorem sound_facet [Std.LawfulEqOrd κ] : p.facet.Sound := by
  intro t c k
  change (p.table (c.apply t))[k]? = Edit.applyAll _ (p.table t)[k]?
  rw [p.table_apply]
  cases hw : p.written c with
  | none => simp [facet, hw, Edit.applyAll]
  | some w =>
    obtain ⟨k', new, overwrite⟩ := w
    simp only [Table.upsertCarrying, Table.getElem?_put, facet, hw, Option.bind_some]
    by_cases hk : k' = k
    · subst hk
      cases (p.table t)[k']? <;> simp [Edit.applyAll, Edit.apply, Edit.put]
    · simp [hk, Edit.applyAll]

theorem exists_put_of_mem_edits {cs : List Change} {k : κ} {e : Edit ν}
    (he : e ∈ p.facet.edits cs k) : ∃ new overwrite, e = .put p.carry new overwrite := by
  obtain ⟨c, -, hc⟩ := List.mem_flatMap.mp he
  obtain ⟨⟨k', new, overwrite⟩, -, hput⟩ := Option.bind_eq_some_iff.mp (Option.mem_toList.mp hc)
  by_cases hk : k' = k
  · exact ⟨new, overwrite, by simpa [hk, eq_comm] using hput⟩
  · simp [hk] at hput

/-- Such a table absorbs changes that are made a second time. -/
theorem twice [Std.LawfulEqOrd κ] (t : Tables) (cs : List Change) :
    p.table (Change.applyAll (Change.applyAll t cs) cs) = p.table (Change.applyAll t cs) := by
  apply p.sound_facet.applyAll_twice
  · intro k
    apply Edit.absorbing_of_puts p.carries
    intro e he
    exact p.exists_put_of_mem_edits he
  · intro k e es all
    have first : e ∈ p.facet.edits cs k := all ▸ List.mem_cons_self
    obtain ⟨new, overwrite, rfl⟩ := p.exists_put_of_mem_edits first
    rfl

end

def transactions : Puts Identifier TransactionRow where
  table := (·.transactions)
  carry old new := { new with created := old.created }
  written
    | .transaction row overwrite => some (row.id, row, overwrite)
    | _ => none
  carries := ⟨fun _ _ _ => rfl, fun _ => rfl⟩
  table_apply c _ := by cases c <;> rfl

def outputs : Puts Identifier OutputRow where
  table := (·.outputs)
  carry old new := { new with created := old.created }
  written
    | .output row overwrite => some (row.id, row, overwrite)
    | _ => none
  carries := ⟨fun _ _ _ => rfl, fun _ => rfl⟩
  table_apply c _ := by cases c <;> rfl

def redemptions : Puts Identifier RedemptionRow where
  table := (·.redemptions)
  carry old _ := old
  written
    | .redemption row => some (row.id, row, false)
    | _ => none
  carries := ⟨fun _ _ _ => rfl, fun _ => rfl⟩
  table_apply c _ := by cases c <;> rfl

def addresses : Puts Address AddressRow where
  table := (·.addresses)
  carry old new := { new with created := old.created }
  written
    | .address row overwrite => some (row.address, row, overwrite)
    | _ => none
  carries := ⟨fun _ _ _ => rfl, fun _ => rfl⟩
  table_apply c _ := by cases c <;> rfl

def presence : Puts (Address × String) PresenceRow where
  table := (·.presence)
  carry old new := { new with created := old.created }
  written
    | .presence row overwrite => some ((row.address, row.chain), row, overwrite)
    | _ => none
  carries := ⟨fun _ _ _ => rfl, fun _ => rfl⟩
  table_apply c _ := by cases c <;> rfl

def displays : Puts Address DisplayRow where
  table := (·.displays)
  carry _ new := new
  written
    | .display row overwrite => some (row.address, row, overwrite)
    | _ => none
  carries := ⟨fun _ _ _ => rfl, fun _ => rfl⟩
  table_apply c _ := by cases c <;> rfl

def outgoing : Puts Identifier DeltaRow where
  table := (·.outgoing)
  carry old _ := old
  written
    | .outgoing row => some (row.id, row, false)
    | _ => none
  carries := ⟨fun _ _ _ => rfl, fun _ => rfl⟩
  table_apply c _ := by cases c <;> rfl

def activity : Puts Identifier ActivityRow where
  table := (·.activity)
  carry old _ := old
  written
    | .activity row => some (row.id, row, false)
    | _ => none
  carries := ⟨fun _ _ _ => rfl, fun _ => rfl⟩
  table_apply c _ := by cases c <;> rfl

def traces : Puts Identifier TraceRow where
  table := (·.traces)
  carry _ new := new
  written
    | .trace row overwrite => some (row.id, row, overwrite)
    | _ => none
  carries := ⟨fun _ _ _ => rfl, fun _ => rfl⟩
  table_apply c _ := by cases c <;> rfl

def logs : Puts Identifier LogRow where
  table := (·.logs)
  carry _ new := new
  written
    | .log row overwrite => some (row.id, row, overwrite)
    | _ => none
  carries := ⟨fun _ _ _ => rfl, fun _ => rfl⟩
  table_apply c _ := by cases c <;> rfl

end Puts

attribute [ext] Tables

namespace Change

theorem untouched_applyAll (t : Tables) (cs : List Change) :
    (applyAll t cs).rewards = t.rewards ∧ (applyAll t cs).blocks = t.blocks := by
  induction cs generalizing t with
  | nil => exact ⟨rfl, rfl⟩
  | cons c cs ih =>
    have same : (c.apply t).rewards = t.rewards ∧ (c.apply t).blocks = t.blocks := by
      cases c <;> exact ⟨rfl, rfl⟩
    exact ⟨(ih _).1.trans same.1, (ih _).2.trans same.2⟩

end Change

def Edit.sign (value : Option Bytes) : Edit HoldingRow :=
  ⟨none, fun row => { row with signature := value }⟩

def Facet.holdings : Facet (Identifier × Address) HoldingRow where
  table := (·.holdings)
  edit
    | .holding row overwrite, k =>
      if (row.output, row.address) = k then some (.put Change.carryHolding row overwrite) else none
    | .signature output address value, k =>
      if (output, address) = k then some (.sign value) else none
    | _, _ => none

namespace Facet

theorem sound_holdings : holdings.Sound := by
  intro t c k
  cases c with
  | holding row overwrite =>
    simp only [holdings, Change.apply, Table.upsertCarrying, Table.getElem?_put]
    by_cases hk : (row.output, row.address) = k
    · subst hk
      cases t.holdings[(row.output, row.address)]? <;> simp [Edit.applyAll, Edit.apply, Edit.put]
    · simp [hk, Edit.applyAll]
  | signature output address value =>
    simp only [holdings, Change.apply, Table.getElem?_update]
    by_cases hk : (output, address) = k
    · subst hk
      cases t.holdings[(output, address)]? <;> simp [Edit.applyAll, Edit.apply, Edit.sign]
    · simp [hk, Edit.applyAll]
  | _ => rfl

theorem mem_edits_holdings {cs : List Change} {k : Identifier × Address} {e : Edit HoldingRow}
    (he : e ∈ holdings.edits cs k) :
    (∃ row overwrite, e = .put Change.carryHolding row overwrite) ∨ ∃ value, e = .sign value := by
  obtain ⟨c, -, hc⟩ := List.mem_flatMap.mp he
  rw [Option.mem_toList] at hc
  cases c with
  | holding row overwrite =>
    by_cases hk : (row.output, row.address) = k
    · exact .inl ⟨row, overwrite, by simpa [holdings, hk, eq_comm] using hc⟩
    · simp [holdings, hk] at hc
  | signature output address value =>
    by_cases hk : (output, address) = k
    · exact .inr ⟨value, by simpa [holdings, hk, eq_comm] using hc⟩
    · simp [holdings, hk] at hc
  | _ => cases hc

/-- The last signature decides, whether it came with a holding or on its own. -/
theorem absorbing_holdings (cs : List Change) (k : Identifier × Address) :
    Edit.Absorbing (holdings.edits cs k) where
  twice e he row := by
    rcases mem_edits_holdings he with ⟨new, overwrite, rfl⟩ | ⟨value, rfl⟩
    · cases overwrite <;> cases h : new.signature <;> simp [Edit.put, Change.carryHolding, h]
    · rfl
  around e he f hf row := by
    rcases mem_edits_holdings he with ⟨new, overwrite, rfl⟩ | ⟨value, rfl⟩
    · rcases mem_edits_holdings hf with ⟨other, overwrite', rfl⟩ | ⟨value, rfl⟩
      · cases overwrite <;> cases overwrite' <;> cases h : new.signature <;>
          cases h' : other.signature <;> simp [Edit.put, Change.carryHolding, h, h']
      · cases overwrite <;> cases h : new.signature <;>
          simp [Edit.put, Edit.sign, Change.carryHolding, h]
    · rcases mem_edits_holdings hf with ⟨other, overwrite, rfl⟩ | ⟨value', rfl⟩
      · cases overwrite <;> simp [Edit.put, Edit.sign, Change.carryHolding]
      · rfl
  fresh e he row fresh := by
    rcases mem_edits_holdings he with ⟨new, overwrite, rfl⟩ | ⟨value, rfl⟩
    · obtain rfl : new = row := by simpa [Edit.put] using fresh
      obtain ⟨output, address, signature, created⟩ := new
      cases overwrite <;> cases signature <;> rfl
    · cases fresh

end Facet

namespace Change

/-- Every signature comes after a holding of the same output and address. -/
def Signed (cs : List Change) : Prop :=
  ∀ pre output address value post, cs = pre ++ .signature output address value :: post →
    ∃ row overwrite, .holding row overwrite ∈ pre ∧ row.output = output ∧ row.address = address

theorem holdings_twice {cs : List Change} (signed : Signed cs) (t : Tables) :
    (applyAll (applyAll t cs) cs).holdings = (applyAll t cs).holdings := by
  refine Facet.sound_holdings.applyAll_twice (Facet.absorbing_holdings cs) ?_ t
  intro k e es all
  obtain ⟨pre, c, post, parts, before, made, -⟩ := Facet.exists_first all
  cases c with
  | holding row overwrite =>
    by_cases hk : (row.output, row.address) = k
    · obtain rfl : Edit.put carryHolding row overwrite = e := by
        simpa [Facet.holdings, hk] using made
      rfl
    · simp [Facet.holdings, hk] at made
  | signature output address value =>
    by_cases hk : (output, address) = k
    · obtain ⟨row, overwrite, held, rfl, rfl⟩ := signed pre output address value post parts
      have nothing := List.flatMap_eq_nil_iff.mp before _ held
      simp [Facet.holdings, hk] at nothing
    · simp [Facet.holdings, hk] at made
  | _ => cases made

end Change

namespace Facet

def incoming : Facet Identifier IncomingRow where
  table := (·.incoming)
  edit
    | .incoming delta, k => if delta.id = k then some ⟨some ⟨delta, false⟩, id⟩ else none
    | .spent output, _ => some ⟨none, Change.markSpent output⟩
    | _, _ => none

theorem sound_incoming : incoming.Sound := by
  intro t c k
  cases c with
  | incoming delta =>
    simp only [incoming, Change.apply, Table.insertNew, Table.getElem?_put]
    by_cases hk : delta.id = k
    · subst hk
      cases t.incoming[delta.id]? <;> simp [Edit.applyAll, Edit.apply]
    · simp [hk, Edit.applyAll]
  | spent output =>
    simp only [incoming, Change.apply, Std.ExtTreeMap.getElem?_map]
    cases t.incoming[k]? <;> rfl
  | _ => rfl

/-- A contribution keeps what it is, and is marked if its output is spent. -/
theorem reviseAll_incoming (cs : List Change) (k : Identifier) (row : IncomingRow) :
    Edit.reviseAll (incoming.edits cs k) row =
      { row with spent := row.spent || decide (.spent row.delta.output ∈ cs) } := by
  induction cs generalizing row with
  | nil => simp [edits, Edit.reviseAll]
  | cons c cs ih =>
    have skip (h : incoming.edit c k = none) (hc : ∀ output, c ≠ .spent output) :
        Edit.reviseAll (incoming.edits (c :: cs) k) row =
          { row with spent := row.spent || decide (.spent row.delta.output ∈ c :: cs) } := by
      have : incoming.edits (c :: cs) k = incoming.edits cs k := by simp [edits, h]
      rw [this, ih]
      simp [(hc _).symm]
    cases c with
    | incoming delta =>
      by_cases hk : delta.id = k
      · have : incoming.edits (.incoming delta :: cs) k =
            ⟨some ⟨delta, false⟩, id⟩ :: incoming.edits cs k := by
          simp [edits, incoming, hk]
        rw [this]
        change Edit.reviseAll (incoming.edits cs k) row = _
        rw [ih]
        simp
      · exact skip (by simp [incoming, hk]) (by simp)
    | spent output =>
      change Edit.reviseAll (incoming.edits cs k) (Change.markSpent output row) = _
      rw [ih]
      by_cases ho : row.delta.output = output <;> simp [Change.markSpent, ho]
    | _ => exact skip rfl (by simp)

/-- A contribution is never made at a key, or it is made after edits that make none. -/
theorem incoming_cases (cs : List Change) (k : Identifier) :
    (∀ e ∈ incoming.edits cs k, e.fresh = none) ∨
    ∃ pre delta post, cs = pre ++ .incoming delta :: post ∧ delta.id = k ∧
      ∀ e ∈ incoming.edits pre k, e.fresh = none := by
  induction cs with
  | nil => simp [edits]
  | cons c cs ih =>
    by_cases made : ∃ delta, c = .incoming delta ∧ delta.id = k
    · obtain ⟨delta, rfl, hk⟩ := made
      exact .inr ⟨[], delta, cs, rfl, hk, by simp [edits]⟩
    · have unmade : ∀ e ∈ (incoming.edit c k).toList, e.fresh = none := by
        intro e he
        rw [Option.mem_toList] at he
        cases c with
        | incoming delta =>
          have : delta.id ≠ k := fun hk => made ⟨delta, rfl, hk⟩
          simp [incoming, this] at he
        | spent output =>
          cases he
          rfl
        | _ => cases he
      have longer (ds : List Change) (h : ∀ e ∈ incoming.edits ds k, e.fresh = none) :
          ∀ e ∈ incoming.edits (c :: ds) k, e.fresh = none := by
        intro e he
        rcases List.mem_append.mp he with he | he
        · exact unmade e he
        · exact h e he
      rcases ih with never | ⟨pre, delta, post, rfl, hk, before⟩
      · exact .inl (longer cs never)
      · exact .inr ⟨c :: pre, delta, post, rfl, hk, longer pre before⟩

end Facet

namespace Change

def ComesLate (cs : List Change) (delta : DeltaRow) : Prop :=
  ∃ pre post, cs = pre ++ .incoming delta :: post ∧ .spent delta.output ∈ pre ∧
    .spent delta.output ∉ post

/-- The second time a contribution is as it was, or it is marked because it came late. -/
theorem incoming_twice (t : Tables) (cs : List Change) (k : Identifier) :
    (applyAll (applyAll t cs) cs).incoming[k]? = (applyAll t cs).incoming[k]? ∨
    ∃ row, (applyAll t cs).incoming[k]? = some row ∧ row.spent = false ∧
      (applyAll (applyAll t cs) cs).incoming[k]? = some { row with spent := true } ∧
      ComesLate cs row.delta := by
  have applied (t : Tables) : (applyAll t cs).incoming[k]? =
      Edit.applyAll (Facet.incoming.edits cs k) t.incoming[k]? :=
    Facet.sound_incoming.applyAll t cs k
  rw [applied, applied]
  cases before : t.incoming[k]? with
  | some row =>
    left
    simp [Edit.applyAll_some, Facet.reviseAll_incoming]
  | none =>
    rcases Facet.incoming_cases cs k with never | ⟨pre, delta, post, parts, made, unmade⟩
    · left
      rw [Edit.applyAll_none never, Edit.applyAll_none never]
    · have first : Edit.applyAll (Facet.incoming.edits cs k) none =
          some ⟨delta, decide (.spent delta.output ∈ post)⟩ := by
        have put : Facet.incoming.edits (.incoming delta :: post) k =
            ⟨some ⟨delta, false⟩, id⟩ :: Facet.incoming.edits post k := by
          simp [Facet.edits, Facet.incoming, made]
        rw [parts, Facet.edits_append, put, Edit.applyAll_append, Edit.applyAll_none unmade]
        change Edit.applyAll (Facet.incoming.edits post k) (some ⟨delta, false⟩) = _
        rw [Edit.applyAll_some, Facet.reviseAll_incoming]
        simp
      have either : (.spent delta.output : Change) ∈ cs ↔
          .spent delta.output ∈ pre ∨ .spent delta.output ∈ post := by simp [parts]
      rw [first, Edit.applyAll_some, Facet.reviseAll_incoming]
      by_cases after : (.spent delta.output : Change) ∈ post
      · simp [after]
      · by_cases earlier : (.spent delta.output : Change) ∈ pre
        · right
          exact ⟨_, rfl, by simp [after], by simp [either, earlier],
            pre, post, parts, earlier, after⟩
        · left
          simp [either, earlier, after]

end Change
end LedgerIndex
