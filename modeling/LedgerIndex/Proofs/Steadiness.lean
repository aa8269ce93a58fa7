import LedgerIndex.Indexing.Handling

/-!
# Steady scripts

What the writer does depends on the store in one way only: an output that a spend
refers to may be missing. Its absence is noted or is fatal; it never changes what is
staged. So a script that got through at one moment would get through later, and would
stage the same, as long as no output disappears from the store in between.
-/
namespace LedgerIndex

def Store.KeepsOutputs (a b : Store) : Prop :=
  ∀ id, a.tables.outputs.contains id = true → b.tables.outputs.contains id = true

namespace Store.KeepsOutputs

theorem refl (a : Store) : a.KeepsOutputs a :=
  fun _ h => h

theorem trans {a b c : Store} (hab : a.KeepsOutputs b) (hbc : b.KeepsOutputs c) :
    a.KeepsOutputs c :=
  fun id h => hbc id (hab id h)

end Store.KeepsOutputs

theorem Store.outputExists_of_keepsOutputs {a b : Store} (h : a.KeepsOutputs b) (s : Session)
    (id : Identifier) (ha : a.outputExists s id = true) : b.outputExists s id = true := by
  simp only [Store.outputExists, Bool.or_eq_true] at ha ⊢
  exact ha.imp_right (h id)

namespace Script

variable {α β : Type}

/-- The script stages changes and asks for outputs. Where an output is missing it fails,
or goes on with a note as if it were there. -/
inductive Steady : Script α → Prop
  | done (a : α) : Steady (.done a)
  | fail (f : Failure) : Steady (.fail f)
  | note (e : Event) {next : Script α} : Steady next → Steady (.note e next)
  | stage (c : Change) {next : Unit → Script α} :
    Steady (next ()) → Steady (.ask (.stage c) next)
  | consume (t : Timestamp) {next : Unit → Script α} :
    Steady (next ()) → Steady (.ask (.consume t) next)
  | consumed (t : Timestamp) {next : Unit → Script α} :
    Steady (next ()) → Steady (.ask (.consumed t) next)
  | fatal (id : Identifier) (f : Failure) {next : Bool → Script α} :
    Steady (next true) → next false = .fail f → Steady (.ask (.outputExists id) next)
  | noted (id : Identifier) (e : Event) {next : Bool → Script α} :
    Steady (next true) → next false = .note e (next true) →
      Steady (.ask (.outputExists id) next)

namespace Steady

theorem bind {s : Script α} {k : α → Script β} (hs : s.Steady) (hk : ∀ a, (k a).Steady) :
    (s.bind k).Steady := by
  induction hs with
  | done a => exact hk a
  | fail f => exact .fail f
  | note e _ ih => exact .note e ih
  | stage c _ ih => exact .stage c ih
  | consume t _ ih => exact .consume t ih
  | consumed t _ ih => exact .consumed t ih
  | fatal id f _ hf ih => exact .fatal id f ih (by simp [hf])
  | noted id e _ he ih => exact .noted id e ih (by simp [he, Script.bind])

theorem call_stage (c : Change) : (Script.stage c).Steady :=
  .stage c (.done ())

theorem ofExcept (x : Except Failure α) : (Script.ofExcept x).Steady := by
  cases x with
  | ok a => exact .done a
  | error f => exact .fail f

theorem forM {γ : Type} (xs : List γ) (f : γ → Script Unit) (hf : ∀ x, (f x).Steady) :
    (xs.forM f).Steady := by
  induction xs with
  | nil => exact .done ()
  | cons x xs ih => exact (hf x).bind fun _ => ih

end Steady
end Script

namespace Writer

variable (w : Writer) (ctx : Context)

theorem recordKey_steady (key : Curve.PublicKey) : (recordKey ctx key).Steady :=
  (Script.Steady.call_stage _).bind fun _ => .done _

theorem linkAddress_steady (output : Identifier) (place : Place) (address : Address)
    (signature : Option Bytes) : (w.linkAddress ctx output place address signature).Steady := by
  refine (Script.Steady.call_stage _).bind fun _ => (Script.Steady.ofExcept _).bind fun _ =>
    (Script.Steady.call_stage _).bind fun _ => (Script.Steady.call_stage _).bind fun _ =>
    (Script.Steady.call_stage _).bind fun _ => (Script.Steady.call_stage _).bind fun _ => ?_
  split
  · exact .call_stage _
  · exact .done ()

theorem checkSpent_steady (chain : String) (i : Input) : (w.checkSpent chain i).Steady := by
  unfold checkSpent
  split
  · by_cases hs : w.strict
    · exact .fatal _ _ (.done ()) (by simp [hs, Script.bind]; rfl)
    · exact .noted _ _ (.done ()) (by simp [hs, Script.bind, Script.log]; rfl)
  · exact .done ()

theorem attributeSigner_steady (unsigned : Bytes) (chain : String) (i : Input)
    (signature : Bytes) : (w.attributeSigner ctx unsigned chain i signature).Steady :=
  (Script.Steady.ofExcept _).bind fun _ => (recordKey_steady ctx _).bind fun _ =>
    w.linkAddress_steady ctx _ _ _ _

theorem spendInput_steady (spender : Identifier) (unsigned : Bytes) (chain : String)
    (credentials : List Credential) (position : Nat) (i : Input) :
    (w.spendInput ctx spender unsigned chain credentials position i).Steady :=
  (w.checkSpent_steady chain i).bind fun _ => (Script.Steady.ofExcept _).bind fun _ =>
    (Script.Steady.forM _ _ fun _ => w.attributeSigner_steady ctx _ _ _ _).bind fun _ =>
    (Script.Steady.call_stage _).bind fun _ => .call_stage _

theorem spendInputs_steady (spender : Identifier) (unsigned : Bytes) (chain : String)
    (credentials : List Credential) (position total : Nat) (is : List Input) :
    (w.spendInputs ctx spender unsigned chain credentials position total is).Steady := by
  induction is generalizing position total with
  | nil => exact .done total
  | cons i rest ih =>
    exact (Script.Steady.ofExcept _).bind fun _ =>
      (w.spendInput_steady ctx _ _ _ _ _ _).bind fun _ => ih _ _

theorem linkOwner_steady (place : Place) (asset : Identifier) (address : Address) :
    (w.linkOwner ctx place asset address).Steady :=
  (w.linkAddress_steady ctx _ _ _ _).bind fun _ => .call_stage _

theorem placeOutput_steady (place : Place) (asset : Identifier) (stake genesis : Bool)
    (amount total : Nat) (state : OutputState) :
    (w.placeOutput ctx place asset stake genesis amount total state).Steady := by
  unfold placeOutput
  split
  · exact .fail _
  · exact (Script.Steady.ofExcept _).bind fun _ => (Script.Steady.ofExcept _).bind fun _ =>
      (Script.Steady.forM _ _ fun _ => w.linkOwner_steady ctx _ _ _).bind fun _ =>
      (Script.Steady.call_stage _).bind fun _ => .done _

theorem placeOutputs_steady (transaction : Identifier) (chain : String) (stake : Bool)
    (position total : Nat) (os : List Output) :
    (w.placeOutputs ctx transaction chain stake position total os).Steady := by
  induction os generalizing position total with
  | nil => exact .done total
  | cons o rest ih =>
    exact (Script.Steady.ofExcept _).bind fun _ =>
      (w.placeOutput_steady ctx _ _ _ _ _ _ _).bind fun _ => ih _ _

/-- Inputs are spent alike if the credentials beside them are the same. -/
theorem spendInputs_congr {credentials credentials' : List Credential} {position : Nat}
    {is : List Input} (same : ∀ n, position ≤ n → n < position + is.length →
      credentials[n]? = credentials'[n]?) (spender : Identifier) (unsigned : Bytes)
    (chain : String) (total : Nat) :
    w.spendInputs ctx spender unsigned chain credentials position total is =
      w.spendInputs ctx spender unsigned chain credentials' position total is := by
  induction is generalizing position total with
  | nil => rfl
  | cons i rest ih =>
    have here : signaturesAt credentials position = signaturesAt credentials' position := by
      unfold signaturesAt
      rw [same position (Nat.le_refl _) (by simp)]
    have later (n : Nat) (h : position + 1 ≤ n) (h' : n < position + 1 + rest.length) :
        credentials[n]? = credentials'[n]? :=
      same n (Nat.le_of_succ_le h) (by simp only [List.length_cons]; omega)
    simp only [spendInputs, spendInput, here, ih later]

def spendExtra (t : Transaction) (total : Nat) : Script Nat :=
  match t.extraInputs with
  | none => .done total
  | some extra =>
    w.spendInputs ctx t.base.id t.unsigned extra.chain.text [] t.base.inputs.length total
      extra.inputs

def placeExtra (t : Transaction) (total : Nat) : Script Nat :=
  match t.extraOutputs with
  | none => .done total
  | some extra =>
    w.placeOutputs ctx t.base.id extra.chain.text extra.stake t.base.outputs.length total
      extra.outputs

theorem indexTransaction_eq (t : Transaction) :
    w.indexTransaction ctx t =
      (w.spendInputs ctx t.base.id t.unsigned w.chain t.credentials 0 0 t.base.inputs).bind
        fun totalIn => (w.spendExtra ctx t totalIn).bind
        fun totalIn => (w.placeOutputs ctx t.base.id w.chain false 0 0 t.base.outputs).bind
        fun totalOut => (w.placeExtra ctx t totalOut).bind
        fun totalOut => (Script.ofExcept (storedFee t totalIn totalOut)).bind
        fun fee => Script.stage (.transaction (w.transactionRow ctx t fee) ctx.overwrite) := by
  have cut (extra : ExtraInputs) (total : Nat) :
      w.spendInputs ctx t.base.id t.unsigned extra.chain.text
        (t.credentials.take t.base.inputs.length) t.base.inputs.length total extra.inputs =
      w.spendInputs ctx t.base.id t.unsigned extra.chain.text [] t.base.inputs.length total
        extra.inputs := by
    apply w.spendInputs_congr
    intro n past _
    rw [List.getElem?_nil, List.getElem?_eq_none]
    exact Nat.le_trans (List.length_take_le _ _) past
  unfold indexTransaction spendExtra placeExtra
  simp only [cut]
  cases t.extraInputs <;> cases t.extraOutputs <;> rfl

theorem spendExtra_steady (t : Transaction) (total : Nat) : (w.spendExtra ctx t total).Steady := by
  unfold spendExtra
  split
  · exact .done _
  · exact w.spendInputs_steady ctx _ _ _ _ _ _ _

theorem placeExtra_steady (t : Transaction) (total : Nat) : (w.placeExtra ctx t total).Steady := by
  unfold placeExtra
  split
  · exact .done _
  · exact w.placeOutputs_steady ctx _ _ _ _ _ _

theorem indexTransaction_steady (t : Transaction) : (w.indexTransaction ctx t).Steady := by
  rw [indexTransaction_eq]
  exact (w.spendInputs_steady ctx _ _ _ _ _ _ _).bind fun _ =>
    (w.spendExtra_steady ctx t _).bind fun _ =>
    (w.placeOutputs_steady ctx _ _ _ _ _ _).bind fun _ =>
    (w.placeExtra_steady ctx t _).bind fun _ =>
    (Script.Steady.ofExcept _).bind fun _ => .call_stage _

theorem consume_steady (content : Identifier) (p : Payload) :
    (w.consume ctx content p).Steady := by
  cases p with
  | block b => exact .forM _ _ fun _ => w.indexTransaction_steady ctx _
  | trace t => exact .call_stage _
  | log l => exact .call_stage _

end Writer
end LedgerIndex
