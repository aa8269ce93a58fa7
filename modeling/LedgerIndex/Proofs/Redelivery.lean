import LedgerIndex.Proofs.Alone
import LedgerIndex.Proofs.Staging

/-!
# Redelivery

A stream may deliver a message again after it has been handled. The second handling
ends well too and stages the same changes, and every table absorbs them. The one
exception is the mark on a contribution that the first handling made after the spend of
its output: the second handling finds the row and marks it.
-/
namespace LedgerIndex

/-- Some transaction spends the output, and the same or a later one creates it. -/
def Transaction.SpentEarly (ts : List Transaction) (id : Identifier) : Prop :=
  ∃ (i j : Nat) (t u : Transaction), i ≤ j ∧ ts[i]? = some t ∧ ts[j]? = some u ∧
    id ∈ t.spends ∧ id ∈ u.creates

namespace Change

theorem Chronicle.signed {ts : List Transaction} {cs : List Change} (h : Chronicle ts cs) :
    Signed cs := by
  induction h with
  | nil => exact .of_unsigned (by simp)
  | cons hi ho _ ih => exact (hi.signed.append ho.signed).append ih

/-- A contribution without a later spend is made by an output, and what was spent before it
was spent by the same transaction or by an earlier one. -/
theorem Chronicle.created {ts : List Transaction} {cs pre post : List Change} {delta : DeltaRow}
    (h : Chronicle ts cs) (made : cs = pre ++ .incoming delta :: post)
    (unmarked : .spent delta.output ∉ post) :
    ∃ (j : Nat) (u : Transaction), ts[j]? = some u ∧ delta.output ∈ u.creates ∧
      ∀ id, .spent id ∈ pre →
        ∃ (i : Nat) (t : Transaction), i ≤ j ∧ ts[i]? = some t ∧ id ∈ t.spends := by
  induction h generalizing pre with
  | nil => simp at made
  | @cons t ts ins outs cs hi ho _ ih =>
    rcases split_append made with ⟨rest, here, rfl⟩ | ⟨start, rfl, later⟩
    · rcases split_append here with ⟨rest', input, rfl⟩ | ⟨start, rfl, output⟩
      · have marked := hi.marked pre delta rest' input
        exact absurd (by simp [marked]) unmarked
      · refine ⟨0, t, rfl, ho.contributes delta (by simp [output]), fun id spent => ?_⟩
        rcases List.mem_append.mp spent with spent | spent
        · exact ⟨0, t, Nat.le_refl 0, rfl, hi.spends id spent⟩
        · exact absurd (by simp [output, spent]) (ho.unspent id)
    · obtain ⟨j, u, hj, created, earlier⟩ := ih later
      refine ⟨j + 1, u, hj, created, fun id spent => ?_⟩
      simp only [List.mem_append] at spent
      rcases spent with (spent | spent) | spent
      · exact ⟨0, t, Nat.zero_le _, rfl, hi.spends id spent⟩
      · exact absurd spent (ho.unspent id)
      · obtain ⟨i, t', hij, ht, spends⟩ := earlier id spent
        exact ⟨i + 1, t', Nat.succ_le_succ hij, ht, spends⟩

theorem Chronicle.spentEarly {ts : List Transaction} {cs : List Change} {delta : DeltaRow}
    (h : Chronicle ts cs) (late : ComesLate cs delta) :
    Transaction.SpentEarly ts delta.output := by
  obtain ⟨pre, post, made, spent, unmarked⟩ := late
  obtain ⟨j, u, hj, created, earlier⟩ := h.created made unmarked
  obtain ⟨i, t, hij, hi, spends⟩ := earlier delta.output spent
  exact ⟨i, j, t, u, hij, hi, hj, spends, created⟩

/-- Changes that can be made again: signatures are in order, and contributions that come late
are of outputs that the transactions spend early. -/
structure Repeatable (ts : List Transaction) (cs : List Change) : Prop where
  signed : Signed cs
  late : ∀ delta, ComesLate cs delta → Transaction.SpentEarly ts delta.output

/-- A single change is neither a signature without a holding nor late. -/
theorem Repeatable.single (ts : List Transaction) {c : Change}
    (unsigned : ∀ output address value, c ≠ .signature output address value) :
    Repeatable ts [c] where
  signed := .of_unsigned fun output address value h =>
    unsigned output address value (List.mem_singleton.mp h).symm
  late := by
    rintro delta ⟨pre, post, parts, spent, -⟩
    cases pre with
    | nil => simp at spent
    | cons c pre => simp at parts

end Change

def Payload.transactions : Payload → List Transaction
  | .block b => b.transactions
  | _ => []

theorem Writer.consume_stages (w : Writer) (ctx : Context) (content : Identifier) (p : Payload) :
    (w.consume ctx content p).Stages (Change.Repeatable p.transactions) := by
  cases p with
  | block b =>
    apply (w.transactions_stages ctx _).mono
    intro cs chronicle
    exact ⟨chronicle.signed, fun _ => chronicle.spentEarly⟩
  | trace t => exact .stage (.single _ (by simp))
  | log l => exact .stage (.single _ (by simp))

namespace Task

variable {s : Settings} {task : Task}

theorem body_stages (s : Settings) (task : Task) :
    (task.body s).Stages (Change.Repeatable task.payload.transactions) := by
  refine .bind (.consume _ (.done ())) (.consume _) (fun _ => ?_) (by rintro _ ds rfl hd; exact hd)
  refine .bind (s.writer.consume_steady _ _ _) (s.writer.consume_stages _ _ _)
    (fun _ => .consumed _) ?_
  rintro cs _ hc rfl
  exact (List.append_nil cs).symm ▸ hc

/-- What an undisturbed attempt stages it would stage again on any later store. -/
theorem commit?_again {store after : Store} (h : task.commit? s store = some after) :
    ∃ cs, Change.Repeatable task.payload.transactions cs ∧ after = store.commit ⟨cs⟩ ∧
      ∀ later, store.KeepsOutputs later → task.commit? s later = some (later.commit ⟨cs⟩) := by
  obtain ⟨⟨cs⟩, leaves, rfl⟩ := (commit?_eq_some_iff s task store after).mp h
  obtain ⟨cs', staged, repeatable⟩ := task.body_stages s store .empty () ⟨cs⟩ leaves
  obtain rfl : cs = cs' := staged
  refine ⟨cs, repeatable, rfl, fun later keeps => ?_⟩
  exact (commit?_eq_some_iff s task later _).mpr
    ⟨⟨cs⟩, (task.body_steady s).leaves_later keeps leaves, rfl⟩

end Task

def Delivery.transactions (s : Settings) (d : Delivery) : List Transaction :=
  (d.task? s).elim [] (·.payload.transactions)

/-- The tables before and after a message is handled again. -/
structure Absorbed (ts : List Transaction) (t₁ t₂ : Tables) : Prop where
  /-- Only contributions differ. -/
  same : t₂ = { t₁ with incoming := t₂.incoming }
  /-- A contribution that differs has been marked, and its output is spent early. -/
  marked : ∀ k : Identifier, t₂.incoming[k]? = t₁.incoming[k]? ∨
    ∃ row, t₁.incoming[k]? = some row ∧ row.spent = false ∧
      t₂.incoming[k]? = some { row with spent := true } ∧
      Transaction.SpentEarly ts row.delta.output
  unchanged : (∀ id, ¬Transaction.SpentEarly ts id) → t₂ = t₁

theorem Absorbed.refl (ts : List Transaction) (t : Tables) : Absorbed ts t t where
  same := rfl
  marked _ := .inl rfl
  unchanged _ := rfl

theorem Change.Repeatable.absorbed {ts : List Transaction} {cs : List Change}
    (h : Repeatable ts cs) (t : Tables) :
    Absorbed ts (applyAll t cs) (applyAll (applyAll t cs) cs) := by
  have same : applyAll (applyAll t cs) cs =
      { applyAll t cs with incoming := (applyAll (applyAll t cs) cs).incoming } := by
    have untouched := untouched_applyAll (applyAll t cs) cs
    exact Tables.ext (Puts.transactions.twice t cs) (Puts.outputs.twice t cs)
      (Puts.redemptions.twice t cs) (Puts.addresses.twice t cs) (Puts.presence.twice t cs)
      (Puts.displays.twice t cs) (holdings_twice h.signed t) (Puts.outgoing.twice t cs) rfl
      (Puts.activity.twice t cs) (Puts.traces.twice t cs) (Puts.logs.twice t cs)
      untouched.1 untouched.2
  have marked := incoming_twice t cs
  exact {
    same
    marked := fun k => (marked k).imp_right fun ⟨row, before, unspent, after, late⟩ =>
      ⟨row, before, unspent, after, h.late row.delta late⟩
    unchanged := by
      intro never
      have incoming : (applyAll (applyAll t cs) cs).incoming = (applyAll t cs).incoming := by
        ext k : 1
        rcases marked k with unmarked | ⟨row, -, -, -, late⟩
        · exact unmarked
        · exact absurd (h.late row.delta late) (never _)
      rw [same, incoming] }

/-- The second time the effect of a message is defined again, and absorbed. -/
theorem Delivery.effect?_again {s : Settings} {d : Delivery} {store after : Store}
    (h : d.effect? s store = some after) {later : Store} (same : later.tables = after.tables) :
    ∃ last, d.effect? s later = some last ∧
      Absorbed (d.transactions s) after.tables last.tables := by
  cases ht : d.task? s with
  | none =>
    cases hk : s.topics.route d.topic with
    | none =>
      refine ⟨later, by simp [effect?, hk], ?_⟩
      rw [same]
      exact .refl _ _
    | some kind => simp [effect?, hk, ht] at h
  | some task =>
    have evolves := evolves_of_effect? h
    rw [effect?_of_task? ht] at h
    obtain ⟨cs, repeatable, rfl, again⟩ := Task.commit?_again h
    have keeps : store.KeepsOutputs later := by
      intro id known
      rw [same]
      exact evolves.keepsOutputs id known
    refine ⟨later.commit ⟨cs⟩, (effect?_of_task? ht later).trans (again later keeps), ?_⟩
    have absorbed := repeatable.absorbed store.tables
    simp only [Store.commit, same, transactions, ht, Option.elim_some]
    exact absorbed

/-- A message that has been handled with success is handled with success when it is delivered
again, and all that can change is the mark on contributions whose output is spent early. -/
theorem Handling.Alone.redelivery {s : Settings} {d : Delivery} {ix₀ ix₁ ix₁' : Indexer}
    (first : Alone s d ix₀ ix₁ (.settled (.ok ())))
    (same : ix₁'.store.tables = ix₁.store.tables) :
    (∃ ix₂, Alone s d ix₁' ix₂ (.settled (.ok ()))) ∧
      ∀ ix₂ result, Alone s d ix₁' ix₂ (.settled result) → result = .ok () ∧
        Absorbed (d.transactions s) ix₁.store.tables ix₂.store.tables := by
  obtain ⟨last, applied, absorbed⟩ := Delivery.effect?_again first.effect?_eq same
  constructor
  · obtain ⟨ix₂, second, -⟩ := of_effect? applied
    exact ⟨ix₂, second⟩
  · intro ix₂ result second
    obtain rfl : result = .ok () := by
      rcases second.ends_well applied with settled | ⟨task, run, -, attempting, -⟩
      · cases settled
        rfl
      · cases attempting
    have reached := second.effect?_eq
    rw [applied] at reached
    cases reached
    exact ⟨rfl, absorbed⟩

def Transaction.selfSpending : Transaction where
  kind := .base
  base := {
    id := default
    network := 1
    memo := []
    inputs := [⟨default, 0, default, 1⟩]
    outputs := [⟨default, .transfer 1 ⟨0, 1, [default]⟩⟩] }
  unsigned := []
  raw := []
  credentials := []
  extraInputs := none
  extraOutputs := none
  extraFee := 0
  genesis := false

def Delivery.selfSpending : Delivery :=
  { Delivery.emptyBlock "a" with body := Json.write (Block.encode ⟨[.selfSpending]⟩) }

/-- Its contribution is marked when the block is handled again, and not before. -/
theorem Handling.Alone.redelivery_selfSpending : ∃ ix₁ ix₂,
    Alone .plain .selfSpending .empty ix₁ (.settled (.ok ())) ∧
    Alone .plain .selfSpending ix₁ ix₂ (.settled (.ok ())) ∧
    ix₁.store.tables.incoming.toList.map (·.2.spent) = [false] ∧
    ix₂.store.tables.incoming.toList.map (·.2.spent) = [true] ∧
    Absorbed (Delivery.selfSpending.transactions .plain) ix₁.store.tables ix₂.store.tables := by
  have once : (Delivery.selfSpending.effect? .plain Indexer.empty.store).map
      (·.tables.incoming.toList.map (·.2.spent)) = some [false] := by decide +kernel
  have twice : ((Delivery.selfSpending.effect? .plain Indexer.empty.store).bind
      (Delivery.selfSpending.effect? .plain)).map
      (·.tables.incoming.toList.map (·.2.spent)) = some [true] := by decide +kernel
  obtain ⟨after, applied, unmarked⟩ := Option.map_eq_some_iff.mp once
  obtain ⟨ix₁, first, rfl⟩ := of_effect? applied
  obtain ⟨⟨ix₂, second⟩, all⟩ := first.redelivery rfl
  rw [applied, Option.bind_some, second.effect?_eq] at twice
  exact ⟨ix₁, ix₂, first, second, unmarked, by simpa using twice, (all ix₂ _ second).2⟩

end LedgerIndex
