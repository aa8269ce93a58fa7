import LedgerIndex.Proofs.Attempt
import LedgerIndex.Proofs.Replay

/-!
# What the writer stages

The changes of a block come transaction by transaction, and within a transaction those
of its inputs before those of its outputs. A contribution of a signer is followed by the
mark on the output that was signed for; only the owners of a new output contribute
without one. A signature always comes after the holding it belongs to.
-/
namespace LedgerIndex

namespace Script

variable {α β : Type}

/-- What a steady script stages on one store it stages on any later one. -/
theorem Steady.leaves_later {script : Script α} (steady : script.Steady) {store later : Store}
    (keeps : store.KeepsOutputs later) {session left : Session} {a : α}
    (h : script.Leaves store session a left) : script.Leaves later session a left := by
  induction steady generalizing session with
  | done a => exact h
  | fail f => exact h
  | note e _ ih => exact ih h
  | stage c _ ih => exact ih h
  | consume t _ ih => exact ih h
  | consumed t _ ih => exact ih h
  | @fatal id f next _ hf ih =>
    change (next (store.outputExists session id)).Leaves store session a left at h
    change (next (later.outputExists session id)).Leaves later session a left
    cases known : store.outputExists session id with
    | true =>
      rw [known] at h
      rw [Store.outputExists_of_keepsOutputs keeps session id known]
      exact ih h
    | false => simp [known, hf, Leaves, run] at h
  | @noted id e next _ he ih =>
    change (next (store.outputExists session id)).Leaves store session a left at h
    change (next (later.outputExists session id)).Leaves later session a left
    have present : (next true).Leaves later session a left := by
      cases known : store.outputExists session id with
      | true =>
        rw [known] at h
        exact ih h
      | false =>
        rw [known, he] at h
        exact ih h
    cases later.outputExists session id with
    | true => exact present
    | false =>
      rw [he]
      exact present

/-- Whenever the script succeeds, what it has staged is of a certain kind. -/
def Stages (script : Script α) (P : List Change → Prop) : Prop :=
  ∀ store session a left, script.Leaves store session a left →
    ∃ cs, left.staged = session.staged ++ cs ∧ P cs

namespace Stages

variable {P Q R : List Change → Prop}

theorem done {a : α} (h : P []) : (Script.done a).Stages P := by
  rintro store session a left ⟨-, rfl⟩
  exact ⟨[], by simp [run], h⟩

theorem fail (f : Failure) : (Script.fail f : Script α).Stages P := by
  rintro store session a left ⟨failed, -⟩
  cases failed

theorem ofExcept_bind {x : Except Failure α} {k : α → Script β}
    (hk : ∀ a, x = .ok a → (k a).Stages P) : ((Script.ofExcept x).bind k).Stages P := by
  cases x with
  | ok a => exact hk a rfl
  | error f => exact .fail f

theorem stage {c : Change} (h : P [c]) : (Script.stage c).Stages P := by
  rintro store session a left ⟨-, rfl⟩
  exact ⟨[c], rfl, h⟩

theorem log {e : Event} (h : P []) : (Script.log e).Stages P := by
  rintro store session a left ⟨-, rfl⟩
  exact ⟨[], by simp [Script.log, run], h⟩

theorem consume (t : Timestamp) : (Script.call (.consume t)).Stages (· = []) := by
  rintro store session a left ⟨-, rfl⟩
  exact ⟨[], (List.append_nil _).symm, rfl⟩

theorem consumed (t : Timestamp) : (Script.call (.consumed t)).Stages (· = []) := by
  rintro store session a left ⟨-, rfl⟩
  exact ⟨[], (List.append_nil _).symm, rfl⟩

theorem outputExists {id : Identifier} {k : Bool → Script β} (hk : ∀ known, (k known).Stages P) :
    ((Script.call (.outputExists id)).bind k).Stages P :=
  fun store session a left leaves => hk (store.outputExists session id) store session a left leaves

theorem mono {script : Script α} (h : script.Stages P) (hPQ : ∀ cs, P cs → Q cs) :
    script.Stages Q := by
  intro store session a left leaves
  obtain ⟨cs, staged, hcs⟩ := h store session a left leaves
  exact ⟨cs, staged, hPQ cs hcs⟩

theorem bind {script : Script α} {k : α → Script β} (steady : script.Steady)
    (hs : script.Stages P) (hk : ∀ a, (k a).Stages Q)
    (both : ∀ cs ds, P cs → Q ds → R (cs ++ ds)) : (script.bind k).Stages R := by
  intro store session b left leaves
  obtain ⟨a, between, first, second⟩ := (steady.leaves_bind k store session left b).mp leaves
  obtain ⟨cs, staged, hcs⟩ := hs _ _ _ _ first
  obtain ⟨ds, staged', hds⟩ := hk a _ _ _ _ second
  exact ⟨cs ++ ds, by rw [staged', staged, List.append_assoc], both cs ds hcs hds⟩

theorem forM {γ : Type} {xs : List γ} {f : γ → Script Unit} (steady : ∀ x, (f x).Steady)
    (hf : ∀ x, (f x).Stages P) (nil : P []) (append : ∀ cs ds, P cs → P ds → P (cs ++ ds)) :
    (xs.forM f).Stages P := by
  induction xs with
  | nil => exact .done nil
  | cons x xs ih => exact .bind (steady x) (hf x) (fun _ => ih) append

end Stages
end Script

def Transaction.spends (t : Transaction) : List Identifier :=
  t.base.inputs.map Input.output ++ (t.extraInputs.elim [] (·.inputs)).map Input.output

def Transaction.createdAt (id : Identifier) (position count : Nat) : List Identifier :=
  (List.range' position count).map fun n => id.derive (UInt32.ofNat n).toUInt64

def Transaction.creates (t : Transaction) : List Identifier :=
  createdAt t.base.id 0 (t.base.outputs.length + (t.extraOutputs.elim [] (·.outputs)).length)

namespace Change

/-- An entry of two joined lists is in the first of them or in the second. -/
theorem split_append {α : Type} {cs ds pre post : List α} {c : α}
    (h : cs ++ ds = pre ++ c :: post) :
    (∃ rest, cs = pre ++ c :: rest ∧ post = rest ++ ds) ∨
      ∃ start, pre = cs ++ start ∧ ds = start ++ c :: post := by
  rcases List.append_eq_append_iff.mp h with ⟨start, hp, hd⟩ | ⟨rest, hc, hr⟩
  · exact .inr ⟨start, hp, hd⟩
  · cases rest with
    | nil => exact .inr ⟨[], by simpa using hc.symm, by simpa using hr.symm⟩
    | cons c' rest =>
      cases hr
      exact .inl ⟨rest, hc, rfl⟩

theorem Signed.append {cs ds : List Change} (hc : Signed cs) (hd : Signed ds) :
    Signed (cs ++ ds) := by
  intro pre output address value post h
  rcases split_append h with ⟨rest, first, -⟩ | ⟨start, rfl, second⟩
  · exact hc pre output address value rest first
  · obtain ⟨row, overwrite, held, same⟩ := hd start output address value post second
    exact ⟨row, overwrite, List.mem_append_right _ held, same⟩

theorem Signed.of_unsigned {cs : List Change}
    (h : ∀ output address value, .signature output address value ∉ cs) : Signed cs := by
  intro pre output address value post parts
  exact absurd (by simp [parts]) (h output address value)

structure Ties (outputs : List Identifier) (cs : List Change) : Prop where
  signed : Signed cs
  unspent : ∀ id, .spent id ∉ cs
  contributes : ∀ delta, .incoming delta ∈ cs → delta.output ∈ outputs

namespace Ties

variable {outputs : List Identifier} {cs ds : List Change}

theorem nil (outputs : List Identifier) : Ties outputs [] where
  signed := .of_unsigned (by simp)
  unspent := by simp
  contributes := by simp

theorem append (hc : Ties outputs cs) (hd : Ties outputs ds) : Ties outputs (cs ++ ds) where
  signed := hc.signed.append hd.signed
  unspent id h := (List.mem_append.mp h).elim (hc.unspent id) (hd.unspent id)
  contributes delta h := (List.mem_append.mp h).elim (hc.contributes delta) (hd.contributes delta)

theorem mono {more : List Identifier} (h : Ties outputs cs) (sub : ∀ id ∈ outputs, id ∈ more) :
    Ties more cs where
  signed := h.signed
  unspent := h.unspent
  contributes delta hd := sub _ (h.contributes delta hd)

/-- A single change that is neither a signature nor a spend. -/
theorem single {c : Change}
    (unsigned : ∀ output address value, c ≠ .signature output address value)
    (unspent : ∀ id, c ≠ .spent id)
    (contributes : ∀ delta, c = .incoming delta → delta.output ∈ outputs) :
    Ties outputs [c] where
  signed := .of_unsigned fun output address value h =>
    unsigned output address value (List.mem_singleton.mp h).symm
  unspent id h := unspent id (List.mem_singleton.mp h).symm
  contributes delta h := contributes delta (List.mem_singleton.mp h).symm

end Ties

/-- Spends some outputs, and contributes to none that it does not spend afterwards. -/
structure Spends (outputs : List Identifier) (cs : List Change) : Prop where
  signed : Signed cs
  marked : ∀ pre delta post, cs = pre ++ .incoming delta :: post → .spent delta.output ∈ post
  spends : ∀ id, .spent id ∈ cs → id ∈ outputs

namespace Spends

variable {outputs : List Identifier} {cs ds : List Change}

theorem nil (outputs : List Identifier) : Spends outputs [] where
  signed := .of_unsigned (by simp)
  marked := by simp
  spends := by simp

theorem append {more : List Identifier} (hc : Spends outputs cs) (hd : Spends more ds) :
    Spends (outputs ++ more) (cs ++ ds) where
  signed := hc.signed.append hd.signed
  marked pre delta post h := by
    rcases split_append h with ⟨rest, first, rfl⟩ | ⟨start, rfl, second⟩
    · exact List.mem_append_left _ (hc.marked pre delta rest first)
    · exact hd.marked start delta post second
  spends id h := by
    rcases List.mem_append.mp h with h | h
    · exact List.mem_append_left _ (hc.spends id h)
    · exact List.mem_append_right _ (hd.spends id h)

theorem of_ties {output : Identifier} (ties : Ties [output] cs) (row : RedemptionRow) :
    Spends [output] (cs ++ [.spent output, .redemption row]) where
  signed := ties.signed.append (.of_unsigned (by simp))
  marked pre delta post h := by
    rcases split_append h with ⟨rest, first, rfl⟩ | ⟨start, -, second⟩
    · have : delta.output = output := by
        simpa using ties.contributes delta (by simp [first])
      simp [this]
    · have : (.incoming delta : Change) ∈ [.spent output, .redemption row] := by simp [second]
      simp at this
  spends id h := by
    rcases List.mem_append.mp h with h | h
    · exact absurd h (ties.unspent id)
    · simpa using h

end Spends

/-- The changes of some transactions in order: first what the inputs of one stage, then its
outputs. -/
inductive Chronicle : List Transaction → List Change → Prop
  | nil : Chronicle [] []
  | cons {t : Transaction} {ts : List Transaction} {ins outs cs : List Change} :
    Spends t.spends ins → Ties t.creates outs → Chronicle ts cs →
    Chronicle (t :: ts) (ins ++ outs ++ cs)

end Change

namespace Writer

open Change Script

variable (w : Writer) (ctx : Context)

theorem stage_ties {β : Type} {outputs : List Identifier} {c : Change} {next : Unit → Script β}
    (hc : Ties outputs [c]) (hnext : (next ()).Stages (Ties outputs)) :
    ((Script.stage c).bind next).Stages (Ties outputs) :=
  .bind (.call_stage c) (.stage hc) (fun _ => hnext) fun _ _ => Ties.append

theorem linkAddress_stages (output : Identifier) (place : Place) (address : Address)
    (signature : Option Bytes) :
    (w.linkAddress ctx output place address signature).Stages (Ties [output]) := by
  apply stage_ties (.single (by simp) (by simp) (by simp))
  apply Stages.ofExcept_bind
  intro text _
  apply stage_ties (.single (by simp) (by simp) (by simp))
  apply stage_ties (.single (by simp) (by simp) (by simp))
  apply stage_ties (.single (by simp) (by simp) (by simp))
  -- the holding and its signature are staged together
  cases signature with
  | none =>
    exact stage_ties (.single (by simp) (by simp) (by simp)) (.done (.nil _))
  | some value =>
    refine .bind (.call_stage _) (.stage rfl) (fun _ => .stage rfl) ?_
    rintro _ _ rfl rfl
    exact {
      signed := by
        intro pre output' address' value' post h
        rcases split_append h with ⟨rest, first, -⟩ | ⟨start, rfl, second⟩
        · have held : (.signature output' address' value' : Change) ∈
              pre ++ .signature output' address' value' :: rest := by simp
          rw [← first] at held
          simp at held
        · cases start with
          | nil =>
            cases second
            exact ⟨_, _, List.mem_singleton.mpr rfl, rfl, rfl⟩
          | cons c start => simp at second
      unspent := by simp
      contributes := by simp }

theorem checkSpent_stages (chain : String) (i : Input) :
    (w.checkSpent chain i).Stages (· = []) := by
  unfold checkSpent
  split
  · apply Stages.outputExists
    intro known
    cases known with
    | true => exact .done rfl
    | false =>
      cases strict : w.strict with
      | true => exact .fail _
      | false => exact .log rfl
  · exact .done rfl

theorem attributeSigner_stages (unsigned : Bytes) (chain : String) (i : Input)
    (signature : Bytes) :
    (w.attributeSigner ctx unsigned chain i signature).Stages (Ties [i.output]) := by
  apply Stages.ofExcept_bind
  intro key _
  refine .bind (recordKey_steady ctx key) ?_ (fun address => w.linkAddress_stages ctx _ _ _ _)
    fun _ _ => Ties.append
  exact stage_ties (.single (by simp) (by simp) (by simp)) (.done (.nil _))

theorem spendInput_stages (spender : Identifier) (unsigned : Bytes) (chain : String)
    (credentials : List Credential) (position : Nat) (i : Input) :
    (w.spendInput ctx spender unsigned chain credentials position i).Stages
      (Spends [i.output]) := by
  refine .bind (w.checkSpent_steady chain i) (w.checkSpent_stages chain i) (fun _ => ?_)
    (by rintro _ ds rfl hd; exact hd)
  apply Stages.ofExcept_bind
  intro signatures _
  have signers : (signatures.forM (w.attributeSigner ctx unsigned chain i)).Stages
      (Ties [i.output]) :=
    .forM (fun _ => w.attributeSigner_steady ctx _ _ _ _)
      (fun _ => w.attributeSigner_stages ctx _ _ _ _) (Ties.nil _) fun _ _ => Ties.append
  have spent : ((Script.stage (.spent i.output)).bind fun _ =>
      Script.stage (.redemption (redemption spender chain ctx.time i))).Stages
      (· = [.spent i.output, .redemption (redemption spender chain ctx.time i)]) :=
    .bind (.call_stage _) (.stage rfl) (fun _ => .stage rfl) (by rintro _ _ rfl rfl; rfl)
  exact .bind (Steady.forM _ _ fun _ => w.attributeSigner_steady ctx _ _ _ _) signers
    (fun _ => spent) (by rintro cs _ ties rfl; exact .of_ties ties _)

theorem spendInputs_stages (spender : Identifier) (unsigned : Bytes) (chain : String)
    (credentials : List Credential) (position total : Nat) (is : List Input) :
    (w.spendInputs ctx spender unsigned chain credentials position total is).Stages
      (Spends (is.map Input.output)) := by
  induction is generalizing position total with
  | nil => exact .done (Spends.nil _)
  | cons i rest ih =>
    apply Stages.ofExcept_bind
    intro total _
    exact .bind (w.spendInput_steady ctx _ _ _ _ _ _) (w.spendInput_stages ctx _ _ _ _ _ _)
      (fun _ => ih _ _) fun _ _ => Spends.append

theorem linkOwner_stages (place : Place) (asset : Identifier) (address : Address) :
    (w.linkOwner ctx place asset address).Stages (Ties [place.output]) :=
  .bind (w.linkAddress_steady ctx _ _ _ _) (w.linkAddress_stages ctx _ _ _ _)
    (fun _ => .stage (.single (by simp) (by simp) (by simp))) fun _ _ => Ties.append

theorem placeOutput_stages (place : Place) (asset : Identifier) (stake genesis : Bool)
    (amount total : Nat) (state : OutputState) :
    (w.placeOutput ctx place asset stake genesis amount total state).Stages
      (Ties [place.output]) := by
  unfold placeOutput
  split
  · exact .fail _
  next c _ =>
    apply Stages.ofExcept_bind
    intro _ _
    apply Stages.ofExcept_bind
    intro _ _
    have owners : (c.owners.addresses.forM (w.linkOwner ctx place asset)).Stages
        (Ties [place.output]) :=
      .forM (fun _ => w.linkOwner_steady ctx _ _ _) (fun _ => w.linkOwner_stages ctx _ _ _)
        (Ties.nil _) fun _ _ => Ties.append
    refine .bind (Steady.forM _ _ fun _ => w.linkOwner_steady ctx _ _ _) owners (fun _ => ?_)
      fun _ _ => Ties.append
    exact stage_ties (.single (by simp) (by simp) (by simp)) (.done (.nil _))

theorem placeOutputs_stages (transaction : Identifier) (chain : String) (stake : Bool)
    (position total : Nat) (os : List Output) :
    (w.placeOutputs ctx transaction chain stake position total os).Stages
      (Ties (Transaction.createdAt transaction position os.length)) := by
  induction os generalizing position total with
  | nil => exact .done (Ties.nil _)
  | cons o rest ih =>
    have parts : Transaction.createdAt transaction position (o :: rest).length =
        transaction.derive (UInt32.ofNat position).toUInt64 ::
          Transaction.createdAt transaction (position + 1) rest.length := by
      simp [Transaction.createdAt, List.range'_succ]
    rw [parts]
    apply Stages.ofExcept_bind
    intro index hi
    obtain rfl : UInt32.ofNat position = index := by
      unfold outputIndex at hi
      split at hi <;> simp_all
    refine .bind (w.placeOutput_steady ctx _ _ _ _ _ _ _)
      (w.placeOutput_stages ctx _ _ _ _ _ _ _) (fun _ => ih _ _) fun cs ds hc hd => ?_
    exact (hc.mono (by simp [Place.output])).append
      (hd.mono fun id hid => List.mem_cons_of_mem _ hid)

theorem placeAll_stages (t : Transaction) (totalIn : Nat) :
    ((w.placeOutputs ctx t.base.id w.chain false 0 0 t.base.outputs).bind
      fun totalOut => (w.placeExtra ctx t totalOut).bind
      fun totalOut => (Script.ofExcept (storedFee t totalIn totalOut)).bind
      fun fee => Script.stage (.transaction (w.transactionRow ctx t fee) ctx.overwrite)).Stages
        (Ties t.creates) := by
  have extra (total : Nat) : (w.placeExtra ctx t total).Stages (Ties t.creates) := by
    unfold placeExtra
    split
    · exact .done (Ties.nil _)
    next extra he =>
      apply (w.placeOutputs_stages ctx _ _ _ _ _ _).mono
      intro cs ties
      apply ties.mono
      intro id hid
      simp only [Transaction.createdAt, List.mem_map, List.mem_range'_1] at hid
      obtain ⟨n, hn, rfl⟩ := hid
      exact List.mem_map.mpr ⟨n, by simp [he]; omega, rfl⟩
  refine .bind (w.placeOutputs_steady ctx _ _ _ _ _ _) (w.placeOutputs_stages ctx _ _ _ _ _ _)
    (fun total => ?_) fun cs ds hc hd => (hc.mono ?_).append hd
  · refine .bind (w.placeExtra_steady ctx t _) (extra _) (fun _ => ?_) fun _ _ => Ties.append
    apply Stages.ofExcept_bind
    intro _ _
    exact .stage (.single (by simp) (by simp) (by simp))
  · intro id hid
    simp only [Transaction.createdAt, List.mem_map, List.mem_range'_1] at hid
    obtain ⟨n, hn, rfl⟩ := hid
    exact List.mem_map.mpr ⟨n, by simp; omega, rfl⟩

theorem spendExtra_stages (t : Transaction) (total : Nat) :
    (w.spendExtra ctx t total).Stages
      (Spends ((t.extraInputs.elim [] (·.inputs)).map Input.output)) := by
  unfold spendExtra
  split
  next h => exact h ▸ .done (Spends.nil _)
  next extra h => exact h ▸ w.spendInputs_stages ctx _ _ _ _ _ _ _

theorem indexTransaction_stages (t : Transaction) :
    (w.indexTransaction ctx t).Stages fun cs =>
      ∃ ins outs, cs = ins ++ outs ∧ Spends t.spends ins ∧ Ties t.creates outs := by
  rw [indexTransaction_eq]
  refine .bind (w.spendInputs_steady ctx _ _ _ _ _ _ _) (w.spendInputs_stages ctx _ _ _ _ _ _ _)
    (fun total => ?_) ?_ (Q := fun cs => ∃ ins outs, cs = ins ++ outs ∧
      Spends ((t.extraInputs.elim [] (·.inputs)).map Input.output) ins ∧ Ties t.creates outs)
  · exact .bind (w.spendExtra_steady ctx t _) (w.spendExtra_stages ctx t _)
      (fun _ => w.placeAll_stages ctx t _) fun ins outs hi ho => ⟨ins, outs, rfl, hi, ho⟩
  · rintro cs _ hc ⟨ins, outs, rfl, hi, ho⟩
    exact ⟨cs ++ ins, outs, by simp, hc.append hi, ho⟩

theorem transactions_stages (ts : List Transaction) :
    (ts.forM (w.indexTransaction ctx)).Stages (Chronicle ts) := by
  induction ts with
  | nil => exact .done .nil
  | cons t ts ih =>
    refine .bind (w.indexTransaction_steady ctx t) (w.indexTransaction_stages ctx t)
      (fun _ => ih) ?_
    rintro _ cs ⟨ins, outs, rfl, hi, ho⟩ hc
    exact .cons hi ho hc

end Writer
end LedgerIndex
