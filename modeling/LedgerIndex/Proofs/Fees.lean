import LedgerIndex.Proofs.Checks
import Mathlib.Algebra.Order.BigOperators.Group.List
import Mathlib.Algebra.Order.Ring.Nat

/-!
# Fees

The fee of a transaction is what its native inputs bring in beyond what its native transfers pay
out and what is accounted for elsewhere, and never less than nothing. It is computed by totals
that stay within their 128 bits as long as inputs and outputs can be counted in 64. A transaction
that passes its checks is written with this fee, and one whose fee has more than 64 bits is not
written at all.
-/
namespace LedgerIndex

def Input.native (asset : Identifier) (is : List Input) : Nat :=
  ((is.filter (·.asset = asset)).map (·.amount.toNat)).sum

/-- What an output pays out. Mints do not pay, nor do tokens of their own kind. -/
def OutputState.paid : OutputState → Nat
  | .transfer amount _ | .lockedTransfer _ (.transfer amount _) => amount.toNat
  | _ => 0

def Output.native (asset : Identifier) (os : List Output) : Nat :=
  ((os.filter (·.asset = asset)).map (·.state.paid)).sum

namespace Transaction

def allInputs (t : Transaction) : List Input :=
  t.base.inputs ++ t.moreInputs

def allOutputs (t : Transaction) : List Output :=
  t.base.outputs ++ t.moreOutputs

def due (t : Transaction) (asset : Identifier) : Int :=
  if t.genesis then 0
  else max 0 (Input.native asset t.allInputs -
    (Output.native asset t.allOutputs + t.extraFee.toNat))

end Transaction

/-- Numbers of 64 bits, some of a list, add up to no more than if all were the greatest. -/
theorem sum_filter_le {α : Type} {f : α → Nat} (bits : ∀ x, f x < 2 ^ 64) (p : α → Bool)
    (xs : List α) : ((xs.filter p).map f).sum ≤ xs.length * (2 ^ 64 - 1) := by
  have each : ∀ n ∈ (xs.filter p).map f, n ≤ 2 ^ 64 - 1 := by
    intro n member
    obtain ⟨x, -, rfl⟩ := List.mem_map.mp member
    exact Nat.le_sub_one_of_lt (bits x)
  calc ((xs.filter p).map f).sum
      ≤ ((xs.filter p).map f).length * (2 ^ 64 - 1) := List.sum_le_card_nsmul _ _ each
    _ ≤ xs.length * (2 ^ 64 - 1) := by
      rw [List.length_map]
      exact Nat.mul_le_mul_right _ (List.length_filter_le _ _)

theorem OutputState.paid_lt (state : OutputState) : state.paid < 2 ^ 64 := by
  unfold paid
  split
  · exact UInt64.toNat_lt _
  · exact UInt64.toNat_lt _
  · decide

theorem Input.native_le (asset : Identifier) (is : List Input) :
    native asset is ≤ is.length * (2 ^ 64 - 1) :=
  sum_filter_le (fun i : Input => i.amount.toNat_lt) (·.asset = asset) is

theorem Output.native_le (asset : Identifier) (os : List Output) :
    native asset os ≤ os.length * (2 ^ 64 - 1) :=
  sum_filter_le (fun o : Output => o.state.paid_lt) (·.asset = asset) os

theorem Input.native_lt {is : List Input} (count : is.length < 2 ^ 64) (asset : Identifier) :
    native asset is < 2 ^ 128 := by
  have bound := native_le asset is
  omega

theorem Output.native_lt {os : List Output} (count : os.length < 2 ^ 64) (asset : Identifier) :
    native asset os < 2 ^ 128 := by
  have bound := native_le asset os
  omega

namespace Writer

variable (w : Writer)

/-- The total of the writer is the sum of the native amounts. -/
theorem inputTotal_eq (is : List Input) : w.inputTotal is = Input.native w.asset is := by
  induction is with
  | nil => rfl
  | cons i is ih =>
    by_cases own : i.asset = w.asset
    · simp_all [inputTotal, counted, Input.native]
    · simp_all [inputTotal, counted, Input.native]

theorem inputTotal_append (is js : List Input) :
    w.inputTotal is + w.inputTotal js = Input.native w.asset (is ++ js) := by
  rw [inputTotal_eq, inputTotal_eq]
  simp [Input.native]

theorem outputTotal_eq (os : List Output) : w.outputTotal os = Output.native w.asset os := by
  have amount (o : Output) : (o.state.columns?.elim 0 fun c => w.counted o.asset c.amount) =
      if o.asset = w.asset then o.state.paid else 0 := by
    unfold counted
    cases o.state with
    | lockedTransfer locktime inner => cases inner <;> simp [OutputState.columns?, OutputState.paid]
    | _ => simp [OutputState.columns?, OutputState.paid]
  induction os with
  | nil => rfl
  | cons o os ih =>
    by_cases own : o.asset = w.asset
    · simp_all [outputTotal, Output.native]
    · simp_all [outputTotal, Output.native]

theorem outputTotal_append (os ps : List Output) :
    w.outputTotal os + w.outputTotal ps = Output.native w.asset (os ++ ps) := by
  rw [outputTotal_eq, outputTotal_eq]
  simp [Output.native]

end Writer

/-- The fee is the truncated difference, also where the sum of what goes out saturates. -/
theorem fee_eq {totalIn : Nat} (bits : totalIn < 2 ^ 128) (totalOut extra : Nat) :
    (fee totalIn totalOut extra : Int) = max 0 ((totalIn : Int) - (totalOut + extra)) := by
  unfold fee maxTotal
  omega

namespace Transaction

variable {t : Transaction} {asset : Identifier}

theorem due_nonneg (t : Transaction) (asset : Identifier) : 0 ≤ t.due asset := by
  unfold due
  split <;> omega

theorem storedFee_eq (t : Transaction) (asset : Identifier)
    (count : t.allInputs.length ≤ 2 ^ 64) :
    Writer.storedFee t (Input.native asset t.allInputs) (Output.native asset t.allOutputs) =
      if t.due asset < 2 ^ 64 then .ok (UInt64.ofNat (t.due asset).toNat)
      else .error (.data (.feeOverflow (t.due asset).toNat t.base.id)) := by
  have computed : (if t.genesis then 0 else fee (Input.native asset t.allInputs)
      (Output.native asset t.allOutputs) t.extraFee.toNat) = (t.due asset).toNat := by
    unfold due
    cases t.genesis with
    | true => rfl
    | false =>
      have total := Input.native_le asset t.allInputs
      have bits : Input.native asset t.allInputs < 2 ^ 128 := by omega
      have exact_ := fee_eq bits (Output.native asset t.allOutputs) t.extraFee.toNat
      simp only [Bool.false_eq_true, if_false]
      omega
  have fits : (t.due asset).toNat < 2 ^ 64 ↔ t.due asset < 2 ^ 64 := by omega
  unfold Writer.storedFee
  simp only [computed, fits]

/-- No block is ever written that has a transaction whose fee cannot be stored. -/
theorem not_fills_of_due (count : t.allInputs.length < 2 ^ 64) {w : Writer}
    (overflows : 2 ^ 64 ≤ t.due w.asset) {b : Block} (member : t ∈ b.transactions) (ctx : Context)
    (content : Identifier) (session : Session) :
    ¬(Work.message w ctx content (.block b)).Fills session := by
  intro filled
  obtain ⟨cs, indexed, -⟩ := filled.yields.of_forM member
  obtain ⟨-, fee, stored⟩ := Writer.accepts_of_yields indexed
  rw [w.inputTotal_append, w.outputTotal_append] at stored
  have refused := (t.storedFee_eq w.asset count.le).symm.trans stored
  rw [if_neg (by omega)] at refused
  cases refused

end Transaction

namespace Writer

variable {w : Writer} {t : Transaction}

/-- A transaction that passes the checks ends with the fee that is due, or with its refusal. -/
theorem indexTransaction_ends_due (known : Identifier → Prop) (accepts : w.Accepts t)
    (knows : w.strict = true → ∀ i ∈ t.ownInputs w, known i.output)
    (count : t.allInputs.length + t.allOutputs.length < 2 ^ 64) (ctx : Context) :
    if t.due w.asset < 2 ^ 64 then
      (w.indexTransaction ctx t).Ends known
        (w.changesOf ctx (w.spendPostings t ++ w.placePostings t) ++
          [.transaction (w.transactionRow ctx t (UInt64.ofNat (t.due w.asset).toNat))
            ctx.overwrite]) (.ok ())
    else
      (w.indexTransaction ctx t).Ends known
        (w.changesOf ctx (w.spendPostings t ++ w.placePostings t))
        (.error (.data (.feeOverflow (t.due w.asset).toNat t.base.id))) := by
  have below : t.base.inputs.length + t.moreInputs.length ≤ 2 ^ 64 := by
    rw [← List.length_append]
    exact (Nat.le_add_right _ _).trans count.le
  have inputs : w.inputTotal t.base.inputs + w.inputTotal t.moreInputs =
      Input.native w.asset t.allInputs := w.inputTotal_append _ _
  have outputs : w.outputTotal t.base.outputs + w.outputTotal t.moreOutputs =
      Output.native w.asset t.allOutputs := w.outputTotal_append _ _
  have stored := t.storedFee_eq w.asset (by omega)
  rw [← inputs, ← outputs] at stored
  have ins : w.inputTotal t.base.inputs + w.inputTotal t.moreInputs < 2 ^ 128 :=
    inputs ▸ Input.native_lt (by omega) w.asset
  have outs : w.outputTotal t.base.outputs + w.outputTotal t.moreOutputs < 2 ^ 128 :=
    outputs ▸ Output.native_lt (by omega) w.asset
  split
  · next fits =>
    rw [if_pos fits] at stored
    exact indexTransaction_ends ctx accepts knows below ins outs
      (.ok_bind stored (.call_stage _))
  · next overflows =>
    rw [if_neg overflows] at stored
    rw [← List.append_nil (w.changesOf ctx _)]
    apply indexTransaction_ends ctx accepts knows below ins outs
    rw [stored]
    exact .fail _

/-- A transaction that passes the checks is written with the fee that is due, exactly, which is
nothing for one of the genesis; where that cannot be stored it fails and is never committed. No
total leaves its 128 bits on the way. -/
theorem indexTransaction_charges (accepts : w.Accepts t) {store : Store} {session : Session}
    (knows : w.strict = true → ∀ i ∈ t.ownInputs w, store.outputExists session i.output = true)
    (count : t.allInputs.length + t.allOutputs.length < 2 ^ 64) (ctx : Context)
    (node : Identifier → List Bytes) :
    let ending := (w.indexTransaction ctx t).run node store session
    ending.store = store ∧
    (t.due w.asset < 2 ^ 64 → ending.result = .ok () ∧ ∃ row : TransactionRow,
      row.id = t.base.id ∧ (row.fee.toNat : Int) = t.due w.asset ∧
      (t.genesis = true → row.fee = 0) ∧ row = w.transactionRow ctx t row.fee ∧
      ending.session.staged = session.staged ++
        (w.changesOf ctx (w.spendPostings t ++ w.placePostings t) ++
          [.transaction row ctx.overwrite])) ∧
    (2 ^ 64 ≤ t.due w.asset →
      ending.result = .error (.data (.feeOverflow (t.due w.asset).toNat t.base.id)) ∧
      ∀ (b : Block) (content : Identifier) (session' : Session), t ∈ b.transactions →
        ¬(Work.message w ctx content (.block b)).Fills session') ∧
    (∀ n, Input.native w.asset (t.allInputs.take n) < 2 ^ 128 ∧
      Output.native w.asset (t.allOutputs.take n) < 2 ^ 128) ∧
    ∀ totalIn < 2 ^ 128, ∀ totalOut < 2 ^ 128, ∀ extra : UInt64,
      (fee totalIn totalOut extra.toNat : Int) =
        max 0 ((totalIn : Int) - (totalOut + extra.toNat)) := by
  have ends := indexTransaction_ends_due (fun id => store.outputExists session id = true) accepts
    knows count ctx
  refine ⟨?_, fun fits => ?_, fun overflows => ⟨?_, fun b content session' member => ?_⟩,
    fun n => ⟨?_, ?_⟩, fun totalIn bits totalOut _ extra => fee_eq bits totalOut extra.toNat⟩
  · exact (w.indexTransaction_steady ctx t).run_store store session
  · rw [if_pos fits] at ends
    obtain ⟨ok, -, staged⟩ := ends.run node store session fun _ known => known
    have bits : (t.due w.asset).toNat < 2 ^ 64 := by omega
    have nonneg : 0 ≤ t.due w.asset := t.due_nonneg w.asset
    refine ⟨ok, _, transactionRow_id .., ?_, fun genesis => ?_, rfl, staged⟩
    · rw [transactionRow_fee, UInt64.toNat_ofNat_of_lt' bits]
      omega
    · rw [transactionRow_fee, Transaction.due, if_pos genesis]
      rfl
  · rw [if_neg (by omega)] at ends
    exact (ends.run node store session fun _ known => known).1
  · exact Transaction.not_fills_of_due (by omega) overflows member ctx content session'
  · exact Input.native_lt ((List.length_take_le' _ _).trans_lt (by omega)) w.asset
  · exact Output.native_lt ((List.length_take_le' _ _).trans_lt (by omega)) w.asset

/-- Of a hundred and fifty units a hundred are native. Thirty are paid out and twenty locked, ten
are accounted for elsewhere, and what is minted does not count. In the genesis it would be free. -/
theorem indexTransaction_charges_forty : ∃ t : Transaction, t.genesis = false ∧
    Settings.plain.writer.Accepts t ∧
    ∀ genesis : Bool, ∃ row : TransactionRow,
      let ending := (Settings.plain.writer.indexTransaction ⟨default, false⟩ { t with genesis }).run
        (fun _ => []) .empty .empty
      ending.result = .ok () ∧ row.fee.toNat = (if genesis then 0 else 40) ∧
      ending.session.staged.getLast? = some (.transaction row false) := by
  let t : Transaction :=
    { Transaction.sample default
        [⟨default, 0, default, 100⟩, ⟨default, 1, .ofContent [], 50⟩]
        [⟨default, .transfer 30 ⟨0, 1, [default]⟩⟩,
          ⟨default, .lockedTransfer 5 (.transfer 20 ⟨0, 1, [default]⟩)⟩,
          ⟨default, .fungibleMint ⟨0, 1, [default]⟩⟩] with extraFee := 10 }
  have shown : Settings.plain.writer.Displays default := ⟨_, rfl⟩
  have owner : ∀ a ∈ [(default : Address)], Settings.plain.writer.Displays a :=
    List.forall_mem_singleton.mpr shown
  have accepts (genesis : Bool) : Settings.plain.writer.Accepts { t with genesis } := {
    signers := fun position i signature _ given => by cases given
    outputs := List.forall_mem_cons.mpr ⟨⟨_, rfl, owner⟩,
      List.forall_mem_cons.mpr ⟨⟨_, rfl, owner⟩, List.forall_mem_singleton.mpr ⟨_, rfl, owner⟩⟩⟩
    numbered := by cases genesis <;> decide }
  refine ⟨t, rfl, accepts false, fun genesis => ?_⟩
  have due : Transaction.due { t with genesis } Settings.plain.writer.asset =
      if genesis then 0 else 40 := by
    cases genesis <;> decide +kernel
  obtain ⟨-, fits, -⟩ := indexTransaction_charges (accepts genesis)
    (fun strict => by cases strict) (by cases genesis <;> decide) ⟨default, false⟩ fun _ => []
  obtain ⟨ok, row, -, charged, -, -, staged⟩ := fits (by rw [due]; cases genesis <;> decide)
  refine ⟨row, ok, ?_, ?_⟩
  · rw [due] at charged
    cases genesis
    · exact Int.ofNat.inj charged
    · exact Int.ofNat.inj charged
  · rw [staged, ← List.append_assoc, List.getLast?_concat]

end Writer
end LedgerIndex
