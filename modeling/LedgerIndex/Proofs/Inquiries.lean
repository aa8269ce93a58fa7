import LedgerIndex.Proofs.Attempt
import LedgerIndex.Proofs.Staging

/-!
# What a script asks for

The only thing that a script learns from the store is whether some outputs are known, and the
writer asks for those that a transaction spends. Where two stores agree on them, a script goes
the same way on both.
-/
namespace LedgerIndex

namespace Script

variable {α β : Type} {P : Identifier → Prop}

/-- The script stages changes, and asks for no outputs but those of some kind. -/
inductive Inquires (P : Identifier → Prop) : Script α → Prop
  | done (a : α) : Inquires P (.done a)
  | fail (f : Failure) : Inquires P (.fail f)
  | note (e : Event) {next : Script α} : Inquires P next → Inquires P (.note e next)
  | stage (c : Change) {next : Unit → Script α} :
    Inquires P (next ()) → Inquires P (.ask (.stage c) next)
  | consume (t : Timestamp) {next : Unit → Script α} :
    Inquires P (next ()) → Inquires P (.ask (.consume t) next)
  | consumed (t : Timestamp) {next : Unit → Script α} :
    Inquires P (next ()) → Inquires P (.ask (.consumed t) next)
  | outputExists {id : Identifier} {next : Bool → Script α} : P id →
    (∀ known, Inquires P (next known)) → Inquires P (.ask (.outputExists id) next)

namespace Inquires

theorem bind {s : Script α} {k : α → Script β} (hs : s.Inquires P) (hk : ∀ a, (k a).Inquires P) :
    (s.bind k).Inquires P := by
  induction hs with
  | done a => exact hk a
  | fail f => exact .fail f
  | note e _ ih => exact .note e ih
  | stage c _ ih => exact .stage c ih
  | consume t _ ih => exact .consume t ih
  | consumed t _ ih => exact .consumed t ih
  | outputExists known _ ih => exact .outputExists known ih

theorem call_stage (c : Change) : (Script.stage c).Inquires P :=
  .stage c (.done ())

theorem ofExcept (x : Except Failure α) : (Script.ofExcept x).Inquires P := by
  cases x with
  | ok a => exact .done a
  | error f => exact .fail f

theorem forM {γ : Type} {f : γ → Script Unit} {xs : List γ} (hf : ∀ x ∈ xs, (f x).Inquires P) :
    (xs.forM f).Inquires P := by
  induction xs with
  | nil => exact .done ()
  | cons x xs ih =>
    exact (hf x List.mem_cons_self).bind fun _ => ih fun y hy => hf y (List.mem_cons_of_mem x hy)

/-- Stores that agree on what is asked for are not told apart. -/
theorem run_eq {s : Script α} (hs : s.Inquires P) {node : Identifier → List Bytes}
    {store store' : Store}
    (agree : ∀ id, P id → store.tables.outputs.contains id = store'.tables.outputs.contains id)
    (session : Session) :
    (s.run node store session).result = (s.run node store' session).result ∧
      (s.run node store session).session = (s.run node store' session).session := by
  induction hs generalizing session with
  | done a => exact ⟨rfl, rfl⟩
  | fail f => exact ⟨rfl, rfl⟩
  | note e _ ih => exact ih session
  | stage c _ ih => exact ih (session.stage c)
  | consume t _ ih => exact ih session
  | consumed t _ ih => exact ih session
  | @outputExists id next known _ ih =>
    have same : store.outputExists session id = store'.outputExists session id := by
      rw [Store.outputExists, agree id known]
      rfl
    change ((next (store.outputExists session id)).run node store session).result =
        ((next (store'.outputExists session id)).run node store' session).result ∧
      ((next (store.outputExists session id)).run node store session).session =
        ((next (store'.outputExists session id)).run node store' session).session
    rw [same]
    exact ih _ session

end Inquires
end Script

namespace Writer

open Script

variable (w : Writer) (ctx : Context) {P : Identifier → Prop}

theorem linkAddress_inquires (output : Identifier) (place : Place) (address : Address)
    (signature : Option Bytes) :
    (w.linkAddress ctx output place address signature).Inquires P := by
  refine (Inquires.call_stage _).bind fun _ => (Inquires.ofExcept _).bind fun _ =>
    (Inquires.call_stage _).bind fun _ => (Inquires.call_stage _).bind fun _ =>
    (Inquires.call_stage _).bind fun _ => (Inquires.call_stage _).bind fun _ => ?_
  split
  · exact .call_stage _
  · exact .done ()

theorem checkSpent_inquires (chain : String) {i : Input} (spends : P i.output) :
    (w.checkSpent chain i).Inquires P := by
  unfold checkSpent
  split
  · apply Inquires.outputExists spends
    intro known
    cases known with
    | true => exact .done ()
    | false =>
      cases strict : w.strict with
      | true => exact .fail _
      | false => exact .note _ (.done ())
  · exact .done ()

theorem spendInput_inquires (spender : Identifier) (unsigned : Bytes) (chain : String)
    (credentials : List Credential) (position : Nat) {i : Input} (spends : P i.output) :
    (w.spendInput ctx spender unsigned chain credentials position i).Inquires P := by
  have signer (signature : Bytes) : (w.attributeSigner ctx unsigned chain i signature).Inquires P :=
    (Inquires.ofExcept _).bind fun _ =>
      ((Inquires.call_stage _).bind fun _ => .done _).bind fun _ =>
      w.linkAddress_inquires ctx _ _ _ _
  exact (w.checkSpent_inquires chain spends).bind fun _ => (Inquires.ofExcept _).bind fun _ =>
    (Inquires.forM fun _ _ => signer _).bind fun _ =>
    (Inquires.call_stage _).bind fun _ => .call_stage _

theorem spendInputs_inquires (spender : Identifier) (unsigned : Bytes) (chain : String)
    (credentials : List Credential) (position total : Nat) {is : List Input}
    (spends : ∀ i ∈ is, P i.output) :
    (w.spendInputs ctx spender unsigned chain credentials position total is).Inquires P := by
  induction is generalizing position total with
  | nil => exact .done total
  | cons i rest ih =>
    exact (Inquires.ofExcept _).bind fun _ =>
      (w.spendInput_inquires ctx _ _ _ _ _ (spends i List.mem_cons_self)).bind fun _ =>
      ih _ _ fun j hj => spends j (List.mem_cons_of_mem i hj)

theorem placeOutput_inquires (place : Place) (asset : Identifier) (stake genesis : Bool)
    (amount total : Nat) (state : OutputState) :
    (w.placeOutput ctx place asset stake genesis amount total state).Inquires P := by
  have owner (address : Address) : (w.linkOwner ctx place asset address).Inquires P :=
    (w.linkAddress_inquires ctx _ _ _ _).bind fun _ => .call_stage _
  unfold placeOutput
  split
  · exact .fail _
  · exact (Inquires.ofExcept _).bind fun _ => (Inquires.ofExcept _).bind fun _ =>
      (Inquires.forM fun _ _ => owner _).bind fun _ =>
      (Inquires.call_stage _).bind fun _ => .done _

theorem placeOutputs_inquires (transaction : Identifier) (chain : String) (stake : Bool)
    (position total : Nat) (os : List Output) :
    (w.placeOutputs ctx transaction chain stake position total os).Inquires P := by
  induction os generalizing position total with
  | nil => exact .done total
  | cons o rest ih =>
    exact (Inquires.ofExcept _).bind fun _ =>
      (w.placeOutput_inquires ctx _ _ _ _ _ _ _).bind fun _ => ih _ _

theorem indexTransaction_inquires {t : Transaction} (spends : ∀ id ∈ t.spends, P id) :
    (w.indexTransaction ctx t).Inquires P := by
  have inputs (i : Input) (h : i ∈ t.base.inputs) : P i.output :=
    spends _ (List.mem_append_left _ (List.mem_map_of_mem h))
  have extraInputs (total : Nat) : (w.spendExtra ctx t total).Inquires P := by
    unfold spendExtra
    split
    · exact .done total
    next extra given =>
      apply w.spendInputs_inquires
      intro i h
      apply spends
      rw [Transaction.spends, given]
      exact List.mem_append_right _ (List.mem_map_of_mem h)
  have extraOutputs (total : Nat) : (w.placeExtra ctx t total).Inquires P := by
    unfold placeExtra
    split
    · exact .done total
    · exact w.placeOutputs_inquires ctx _ _ _ _ _ _
  rw [indexTransaction_eq]
  exact (w.spendInputs_inquires ctx _ _ _ _ _ _ inputs).bind fun _ => (extraInputs _).bind fun _ =>
    (w.placeOutputs_inquires ctx _ _ _ _ _ _).bind fun _ => (extraOutputs _).bind fun _ =>
    (Inquires.ofExcept _).bind fun _ => .call_stage _

theorem consume_inquires (content : Identifier) {b : Block}
    (spends : ∀ t ∈ b.transactions, ∀ id ∈ t.spends, P id) :
    (w.consume ctx content (.block b)).Inquires P :=
  .forM fun t ht => w.indexTransaction_inquires ctx (spends t ht)

end Writer
end LedgerIndex
