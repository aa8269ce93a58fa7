import LedgerIndex.Proofs.Footprints
import LedgerIndex.Proofs.Strictness

/-!
# Checks

What a transaction has to pass before its fee is looked at: its signers must be recovered, the
addresses it ties must be displayed, its outputs must have columns, and there must not be more
of them than can be numbered. A strict writer must also know what is spent on its own chain.
A transaction that passes comes to its fee with everything staged, and one that gets through
has passed.
-/
namespace LedgerIndex

namespace Script

variable {α β : Type} {known : Identifier → Prop}

/-- Left to itself where some outputs are known, the script stages some changes and ends with a
result. Of other outputs it may be told either way. -/
inductive Ends (known : Identifier → Prop) : Script α → List Change → Except Failure α → Prop
  | done (a : α) : Ends known (.done a) [] (.ok a)
  | fail (f : Failure) : Ends known (.fail f) [] (.error f)
  | note (e : Event) {next : Script α} {cs : List Change} {r : Except Failure α} :
    Ends known next cs r → Ends known (.note e next) cs r
  | stage (c : Change) {next : Unit → Script α} {cs : List Change} {r : Except Failure α} :
    Ends known (next ()) cs r → Ends known (.ask (.stage c) next) (c :: cs) r
  | told {id : Identifier} {next : Bool → Script α} {cs : List Change} {r : Except Failure α} :
    known id → Ends known (next true) cs r → Ends known (.ask (.outputExists id) next) cs r
  | either {id : Identifier} {next : Bool → Script α} {cs : List Change} {r : Except Failure α} :
    Ends known (next true) cs r → Ends known (next false) cs r →
      Ends known (.ask (.outputExists id) next) cs r

theorem run_outputExists (node : Identifier → List Bytes) (store : Store) (session : Session)
    (id : Identifier) (next : Bool → Script α) :
    (Script.ask (.outputExists id) next).run node store session =
      (next (store.outputExists session id)).run node store session := rfl

namespace Ends

theorem bind {s : Script α} {k : α → Script β} {cs ds : List Change} {a : α}
    {r : Except Failure β} (first : s.Ends known cs (.ok a)) (second : (k a).Ends known ds r) :
    (s.bind k).Ends known (cs ++ ds) r := by
  generalize same : Except.ok a = result at first
  induction first with
  | done b =>
    cases same
    exact second
  | fail f => cases same
  | note e _ ih => exact .note e (ih same)
  | stage c _ ih => exact .stage c (ih same)
  | told knows _ ih => exact .told knows (ih same)
  | either _ _ ih ih' => exact .either (ih same) (ih' same)

theorem silent_bind {s : Script α} {k : α → Script β} {cs : List Change} {a : α}
    {r : Except Failure β} (first : s.Ends known [] (.ok a)) (second : (k a).Ends known cs r) :
    (s.bind k).Ends known cs r :=
  first.bind second

theorem call_stage (c : Change) : (Script.stage c).Ends known [c] (.ok ()) :=
  .stage c (.done ())

theorem stage_bind {c : Change} {k : Unit → Script β} {cs : List Change} {r : Except Failure β}
    (h : (k ()).Ends known cs r) : ((Script.stage c).bind k).Ends known (c :: cs) r :=
  (call_stage c).bind h

theorem ok_bind {x : Except Failure α} {a : α} (fine : x = .ok a) {k : α → Script β}
    {cs : List Change} {r : Except Failure β} (h : (k a).Ends known cs r) :
    ((Script.ofExcept x).bind k).Ends known cs r := by
  subst fine
  exact h

theorem forM {γ : Type} {f : γ → Script Unit} {g : γ → List Change} {xs : List γ}
    (h : ∀ x ∈ xs, (f x).Ends known (g x) (.ok ())) :
    (xs.forM f).Ends known (xs.flatMap g) (.ok ()) := by
  induction xs with
  | nil => exact .done ()
  | cons x xs ih =>
    exact (h x List.mem_cons_self).bind (ih fun y later => h y (List.mem_cons_of_mem x later))

/-- What is known to a session stays known as it stages more. -/
theorem run {s : Script α} {cs : List Change} {r : Except Failure α} (h : s.Ends known cs r)
    (node : Identifier → List Bytes) (store : Store) (session : Session)
    (knows : ∀ id, known id → store.outputExists session id = true) :
    (s.run node store session).result = r ∧ (s.run node store session).store = store ∧
      (s.run node store session).session.staged = session.staged ++ cs := by
  induction h generalizing session with
  | done a => exact ⟨rfl, rfl, (List.append_nil _).symm⟩
  | fail f => exact ⟨rfl, rfl, (List.append_nil _).symm⟩
  | note e _ ih => exact ih session knows
  | stage c _ ih =>
    have later := ih (session.stage c) fun id h => Store.outputExists_stage (knows id h) c
    rwa [Session.stage, List.append_assoc] at later
  | told known _ ih =>
    rw [run_outputExists, knows _ known]
    exact ih session knows
  | @either id _ _ _ _ _ ih ih' =>
    rw [run_outputExists]
    cases store.outputExists session id with
    | true => exact ih session knows
    | false => exact ih' session knows

end Ends
end Script

/-- The inputs of a transaction that belong to the chain of a writer. -/
def Transaction.ownInputs (t : Transaction) (w : Writer) : List Input :=
  t.base.inputs ++ t.extraInputs.elim [] fun extra =>
    if extra.chain.text = w.chain then extra.inputs else []

namespace Writer

def Displays (w : Writer) (address : Address) : Prop :=
  ∃ text, address.display w.part = .ok text

def Recovers (w : Writer) (unsigned signature : Bytes) : Prop :=
  ∃ key, Signer.recover unsigned signature = .ok key ∧ w.Displays key.address

def CanPlace (w : Writer) (state : OutputState) : Prop :=
  ∃ c, state.columns? = some c ∧ ∀ owner ∈ c.owners.addresses, w.Displays owner

/-- A transaction passes every check that does not depend on the store, its fee aside. -/
structure Accepts (w : Writer) (t : Transaction) : Prop where
  signers : ∀ position i signature, t.base.inputs[position]? = some i →
    signature ∈ Credential.signaturesAt t.credentials position → w.Recovers t.unsigned signature
  outputs : ∀ o ∈ t.base.outputs ++ t.moreOutputs, w.CanPlace o.state
  numbered : t.base.outputs.length + t.moreOutputs.length ≤ 2 ^ 32

open Script

variable {w : Writer} (ctx : Context) {known : Identifier → Prop}

theorem recordKey_ends (key : Curve.PublicKey) :
    (recordKey ctx key).Ends known (w.changes ctx (.key key)) (.ok key.address) :=
  .stage_bind (.done key.address)

theorem linkAddress_ends {address : Address} (shown : w.Displays address) (place : Place)
    (signature : Option Bytes) :
    (w.linkAddress ctx place.output place address signature).Ends known
      (w.changes ctx (.tie place address signature)) (.ok ()) := by
  obtain ⟨text, shown⟩ := shown
  have same : w.displayed address = text := by simp [displayed, shown, Except.toOption]
  apply Ends.stage_bind
  apply Ends.ok_bind shown
  rw [← same]
  apply Ends.stage_bind
  apply Ends.stage_bind
  apply Ends.stage_bind
  apply Ends.stage_bind
  cases signature with
  | none => exact .done ()
  | some value => exact .call_stage _

theorem checkSpent_ends {chain : String} {i : Input}
    (knows : w.strict = true → chain = w.chain → known i.output) :
    (w.checkSpent chain i).Ends known [] (.ok ()) := by
  unfold checkSpent
  by_cases own : chain = w.chain
  · rw [if_pos own]
    cases strict : w.strict with
    | true => exact .told (knows strict own) (.done ())
    | false => exact .either (.done ()) (.note _ (.done ()))
  · rw [if_neg own]
    exact .done ()

theorem attributeSigner_ends {unsigned signature : Bytes} (recovers : w.Recovers unsigned signature)
    (chain : String) (i : Input) :
    (w.attributeSigner ctx unsigned chain i signature).Ends known
      (w.changesOf ctx (i.signer unsigned chain signature)) (.ok ()) := by
  obtain ⟨key, recovered, shown⟩ := recovers
  have parts : w.changesOf ctx (i.signer unsigned chain signature) =
      w.changes ctx (.key key) ++
        w.changes ctx (.tie (i.place chain) key.address (some signature)) := by
    simp [Input.signer, recovered]
  rw [parts]
  unfold attributeSigner
  apply Ends.ok_bind recovered
  exact (recordKey_ends ctx key).bind (linkAddress_ends ctx shown (i.place chain) _)

theorem spendInput_ends {unsigned : Bytes} {chain : String} {credentials : List Credential}
    {position : Nat} {i : Input} (below : position < 2 ^ 64)
    (knows : w.strict = true → chain = w.chain → known i.output)
    (signers : ∀ signature ∈ Credential.signaturesAt credentials position,
      w.Recovers unsigned signature) (spender : Identifier) :
    (w.spendInput ctx spender unsigned chain credentials position i).Ends known
      (w.changesOf ctx (i.postings spender unsigned chain
        (Credential.signaturesAt credentials position))) (.ok ()) := by
  have given : signaturesAt credentials position =
      .ok (Credential.signaturesAt credentials position) := by
    unfold signaturesAt Credential.signaturesAt
    rw [if_neg (Nat.not_le.mpr below)]
    cases credentials[position]? with
    | none => rfl
    | some c => cases c <;> rfl
  rw [Input.postings, changesOf_append, changesOf_flatMap]
  apply (checkSpent_ends knows).silent_bind
  apply Ends.ok_bind given
  apply (Ends.forM fun s h => attributeSigner_ends ctx (signers s h) chain i).bind
  exact .stage_bind (.call_stage _)

theorem added_of_lt {total amount : Nat} (fits : total + amount < 2 ^ 128) :
    added total amount = .ok (total + amount) :=
  if_pos fits

theorem spendInputs_ends {unsigned : Bytes} {chain : String} {credentials : List Credential}
    {position total : Nat} {is : List Input} (below : position + is.length ≤ 2 ^ 64)
    (knows : w.strict = true → chain = w.chain → ∀ i ∈ is, known i.output)
    (signers : ∀ n < is.length, ∀ signature ∈ Credential.signaturesAt credentials (position + n),
      w.Recovers unsigned signature)
    (fits : total + w.inputTotal is < 2 ^ 128) (spender : Identifier) :
    (w.spendInputs ctx spender unsigned chain credentials position total is).Ends known
      (w.changesOf ctx (Input.postingsFrom spender unsigned chain credentials position is))
      (.ok (total + w.inputTotal is)) := by
  induction is generalizing position total with
  | nil => exact .done total
  | cons i rest ih =>
    have sums : total + w.inputTotal (i :: rest) =
        total + w.counted i.asset i.amount + w.inputTotal rest := by
      simp [inputTotal, Nat.add_assoc]
    rw [sums] at fits ⊢
    rw [List.length_cons] at below
    rw [Input.postingsFrom, changesOf_append]
    apply Ends.ok_bind (added_of_lt (by omega))
    apply (spendInput_ends ctx (by omega) (fun strict own => knows strict own i List.mem_cons_self)
      (signers 0 (by simp)) spender).bind
    apply ih
    · omega
    · exact fun strict own j later => knows strict own j (List.mem_cons_of_mem i later)
    · intro n short signature given
      apply signers (n + 1) (by simpa using short) signature
      rwa [Nat.add_comm n 1, ← Nat.add_assoc]
    · exact fits

theorem linkOwner_ends {owner : Address} (shown : w.Displays owner) (place : Place)
    (asset : Identifier) : (w.linkOwner ctx place asset owner).Ends known
      (w.changesOf ctx [.tie place owner none, .activity place asset owner]) (.ok ()) :=
  (linkAddress_ends ctx shown place none).bind (.call_stage _)

theorem placeOutput_ends {state : OutputState} {c : OutputColumns}
    (columns : state.columns? = some c)
    (owners : ∀ owner ∈ c.owners.addresses, w.Displays owner) {asset : Identifier}
    {amount total : Nat} (fits : total + w.counted asset c.amount < 2 ^ 128)
    (spendable : amount + state.spendable.toNat < 2 ^ 128) (place : Place)
    (stake genesis : Bool) :
    (w.placeOutput ctx place asset stake genesis amount total state).Ends known
      (w.changesOf ctx (state.postings place asset stake genesis))
      (.ok (amount + state.spendable.toNat, total + w.counted asset c.amount)) := by
  unfold placeOutput OutputState.postings
  rw [columns, changesOf_append, changesOf_flatMap]
  apply Ends.ok_bind (added_of_lt fits)
  apply Ends.ok_bind (added_of_lt spendable)
  apply (Ends.forM fun owner h => linkOwner_ends ctx (owners owner h) place asset).bind
  exact .stage_bind (.done _)

theorem placeOutputs_ends {position total : Nat} {os : List Output}
    (numbered : position + os.length ≤ 2 ^ 32) (places : ∀ o ∈ os, w.CanPlace o.state)
    (fits : total + w.outputTotal os < 2 ^ 128) (transaction : Identifier) (chain : String)
    (stake : Bool) :
    (w.placeOutputs ctx transaction chain stake position total os).Ends known
      (w.changesOf ctx (Output.postingsFrom transaction chain stake position os))
      (.ok (total + w.outputTotal os)) := by
  induction os generalizing position total with
  | nil => exact .done total
  | cons o rest ih =>
    obtain ⟨c, columns, owners⟩ := places o List.mem_cons_self
    have sums : total + w.outputTotal (o :: rest) =
        total + w.counted o.asset c.amount + w.outputTotal rest := by
      simp [outputTotal, columns, Nat.add_assoc]
    have index : outputIndex position = .ok (UInt32.ofNat position) :=
      if_pos (by rw [List.length_cons] at numbered; omega)
    have spendable : 0 + o.state.spendable.toNat < 2 ^ 128 := by
      have := o.state.spendable.toNat_lt
      omega
    rw [sums] at fits ⊢
    rw [List.length_cons] at numbered
    rw [Output.postingsFrom, changesOf_append]
    apply Ends.ok_bind index
    apply (placeOutput_ends ctx columns owners (by omega) spendable _ stake false).bind
    apply ih
    · omega
    · exact fun o' later => places o' (List.mem_cons_of_mem o later)
    · exact fits

theorem spendExtra_ends {t : Transaction} {total : Nat}
    (knows : w.strict = true → ∀ i ∈ t.ownInputs w, known i.output)
    (below : t.base.inputs.length + t.moreInputs.length ≤ 2 ^ 64)
    (fits : total + w.inputTotal t.moreInputs < 2 ^ 128) :
    (w.spendExtra ctx t total).Ends known
      (w.changesOf ctx (t.extraInputs.elim [] fun extra =>
        Input.postingsFrom t.base.id t.unsigned extra.chain.text [] t.base.inputs.length
          extra.inputs))
      (.ok (total + w.inputTotal t.moreInputs)) := by
  unfold spendExtra Transaction.moreInputs at *
  unfold Transaction.ownInputs at knows
  cases more : t.extraInputs with
  | none => exact .done total
  | some extra =>
    rw [more] at knows below fits
    apply spendInputs_ends ctx below _ _ fits
    · intro strict own i member
      exact knows strict i (List.mem_append_right _ (by simpa [own] using member))
    · intro n _ signature given
      cases given

theorem placeExtra_ends {t : Transaction} {total : Nat} (accepts : w.Accepts t)
    (fits : total + w.outputTotal t.moreOutputs < 2 ^ 128) :
    (w.placeExtra ctx t total).Ends known
      (w.changesOf ctx (t.extraOutputs.elim [] fun extra =>
        Output.postingsFrom t.base.id extra.chain.text extra.stake t.base.outputs.length
          extra.outputs))
      (.ok (total + w.outputTotal t.moreOutputs)) := by
  have numbered := accepts.numbered
  have places (o : Output) (member : o ∈ t.moreOutputs) : w.CanPlace o.state :=
    accepts.outputs o (List.mem_append_right _ member)
  unfold placeExtra Transaction.moreOutputs at *
  cases more : t.extraOutputs with
  | none => exact .done total
  | some extra =>
    rw [more] at numbered places fits
    exact placeOutputs_ends ctx numbered places fits _ _ _

/-- A transaction that passes the checks stages all its inputs and outputs. What comes after that
depends on its fee. -/
theorem indexTransaction_ends {t : Transaction} (accepts : w.Accepts t)
    (knows : w.strict = true → ∀ i ∈ t.ownInputs w, known i.output)
    (below : t.base.inputs.length + t.moreInputs.length ≤ 2 ^ 64)
    (inputs : w.inputTotal t.base.inputs + w.inputTotal t.moreInputs < 2 ^ 128)
    (outputs : w.outputTotal t.base.outputs + w.outputTotal t.moreOutputs < 2 ^ 128)
    {cs : List Change} {r : Except Failure Unit}
    (last : ((Script.ofExcept
      (storedFee t (w.inputTotal t.base.inputs + w.inputTotal t.moreInputs)
        (w.outputTotal t.base.outputs + w.outputTotal t.moreOutputs))).bind fun fee =>
      Script.stage (.transaction (w.transactionRow ctx t fee) ctx.overwrite)).Ends known cs r) :
    (w.indexTransaction ctx t).Ends known
      (w.changesOf ctx (w.spendPostings t ++ w.placePostings t) ++ cs) r := by
  rw [indexTransaction_eq]
  simp only [spendPostings, placePostings, changesOf_append, List.append_assoc]
  have base : (w.spendInputs ctx t.base.id t.unsigned w.chain t.credentials 0 0
      t.base.inputs).Ends known (w.changesOf ctx (Input.postingsFrom t.base.id t.unsigned w.chain
        t.credentials 0 t.base.inputs)) (.ok (0 + w.inputTotal t.base.inputs)) := by
    apply spendInputs_ends ctx
    · omega
    · exact fun strict _ i member => knows strict i (List.mem_append_left _ member)
    · intro n short signature given
      rw [Nat.zero_add] at given
      exact accepts.signers n _ signature (List.getElem?_eq_getElem short) given
    · omega
  have placed : (w.placeOutputs ctx t.base.id w.chain false 0 0 t.base.outputs).Ends known
      (w.changesOf ctx (Output.postingsFrom t.base.id w.chain false 0 t.base.outputs))
      (.ok (0 + w.outputTotal t.base.outputs)) := by
    apply placeOutputs_ends ctx
    · have := accepts.numbered
      omega
    · exact fun o member => accepts.outputs o (List.mem_append_left _ member)
    · omega
  rw [Nat.zero_add] at base placed
  apply base.bind
  apply (spendExtra_ends ctx knows below inputs).bind
  apply placed.bind
  exact (placeExtra_ends ctx accepts outputs).bind last

end Writer

theorem Script.Yields.of_ok_bind {α β : Type} {x : Except Failure α} {k : α → Script β}
    {cs : List Change} {b : β} (h : ((Script.ofExcept x).bind k).Yields cs b) :
    ∃ a, x = .ok a ∧ (k a).Yields cs b := by
  cases x with
  | ok a => exact ⟨a, rfl, h⟩
  | error f => cases h

namespace Writer

variable {w : Writer} {ctx : Context} {cs : List Change}

theorem displays_of_yields {output : Identifier} {place : Place} {address : Address}
    {signature : Option Bytes}
    (h : (w.linkAddress ctx output place address signature).Yields cs ()) : w.Displays address := by
  obtain ⟨-, -, es, -, rest, -⟩ := h.of_bind
  obtain ⟨text, shown, -⟩ := rest.of_ok_bind
  exact ⟨text, shown⟩

theorem recovers_of_yields {unsigned signature : Bytes} {chain : String} {i : Input}
    (h : (w.attributeSigner ctx unsigned chain i signature).Yields cs ()) :
    w.Recovers unsigned signature := by
  obtain ⟨key, recovered, rest⟩ := h.of_ok_bind
  obtain ⟨address, ds, es, first, rest, -⟩ := rest.of_bind
  obtain ⟨-, rfl⟩ := w.recordKey_posts ctx key _ _ first
  exact ⟨key, recovered, displays_of_yields rest⟩

theorem signers_of_yields {spender : Identifier} {unsigned : Bytes} {chain : String}
    {credentials : List Credential} {is : List Input} {position total sum : Nat}
    (h : (w.spendInputs ctx spender unsigned chain credentials position total is).Yields cs sum) :
    ∀ n < is.length, ∀ signature ∈ Credential.signaturesAt credentials (position + n),
      w.Recovers unsigned signature := by
  induction is generalizing position total cs with
  | nil => exact fun n short => absurd short (Nat.not_lt_zero n)
  | cons i rest ih =>
    obtain ⟨total', -, h⟩ := h.of_ok_bind
    obtain ⟨⟨⟩, ds, es, spent, later, -⟩ := h.of_bind
    intro n short signature given
    cases n with
    | zero =>
      obtain ⟨-, -, es, -, spent, -⟩ := spent.of_bind
      obtain ⟨all, all_given, spent⟩ := spent.of_ok_bind
      obtain ⟨⟨⟩, ds, -, signed, -, -⟩ := spent.of_bind
      rw [signaturesAt_of_ok all_given] at signed
      obtain ⟨ds', round, -⟩ := signed.of_forM given
      exact recovers_of_yields round
    | succ n =>
      apply ih later n (by simpa using short) signature
      rwa [Nat.add_assoc, Nat.add_comm 1 n]

theorem canPlace_of_yields {place : Place} {asset : Identifier} {stake genesis : Bool}
    {amount total : Nat} {state : OutputState} {sums : Nat × Nat}
    (h : (w.placeOutput ctx place asset stake genesis amount total state).Yields cs sums) :
    w.CanPlace state := by
  unfold placeOutput at h
  cases columns : state.columns? with
  | none =>
    rw [columns] at h
    cases h
  | some c =>
    rw [columns] at h
    obtain ⟨total', -, h⟩ := h.of_ok_bind
    obtain ⟨amount', -, h⟩ := h.of_ok_bind
    obtain ⟨⟨⟩, ds, -, linked, -, -⟩ := h.of_bind
    refine ⟨c, columns, fun owner owns => ?_⟩
    obtain ⟨ds', round, -⟩ := linked.of_forM owns
    obtain ⟨⟨⟩, es, -, linked, -, -⟩ := round.of_bind
    exact displays_of_yields linked

theorem outputs_of_yields {transaction : Identifier} {chain : String} {stake : Bool}
    {os : List Output} {position total sum : Nat}
    (h : (w.placeOutputs ctx transaction chain stake position total os).Yields cs sum) :
    (∀ o ∈ os, w.CanPlace o.state) ∧ ∀ n < os.length, position + n < 2 ^ 32 := by
  induction os generalizing position total cs with
  | nil => simp
  | cons o rest ih =>
    obtain ⟨index, numbered, h⟩ := h.of_ok_bind
    obtain ⟨sums, ds, es, placed, later, -⟩ := h.of_bind
    obtain ⟨others, numbers⟩ := ih later
    refine ⟨List.forall_mem_cons.mpr ⟨canPlace_of_yields placed, others⟩, fun n short => ?_⟩
    cases n with
    | zero =>
      by_contra large
      have refused := numbered.symm.trans (if_neg large)
      cases refused
    | succ n =>
      have := numbers n (by simpa using short)
      omega

theorem moreOutputs_of_yields {t : Transaction} {total sum : Nat}
    (h : (w.placeExtra ctx t total).Yields cs sum) :
    (∀ o ∈ t.moreOutputs, w.CanPlace o.state) ∧
      ∀ n < t.moreOutputs.length, t.base.outputs.length + n < 2 ^ 32 := by
  unfold placeExtra at h
  unfold Transaction.moreOutputs
  cases more : t.extraOutputs with
  | none => simp
  | some extra =>
    rw [more] at h
    exact outputs_of_yields h

/-- A transaction that gets through has passed the checks, and its fee could be stored. -/
theorem accepts_of_yields {t : Transaction} (h : (w.indexTransaction ctx t).Yields cs ()) :
    w.Accepts t ∧ ∃ fee,
      storedFee t (w.inputTotal t.base.inputs + w.inputTotal t.moreInputs)
        (w.outputTotal t.base.outputs + w.outputTotal t.moreOutputs) = .ok fee := by
  rw [indexTransaction_eq] at h
  obtain ⟨totalIn, ds, es, base, h, -⟩ := h.of_bind
  obtain ⟨totalIn', ds', es', more, h, -⟩ := h.of_bind
  obtain ⟨totalOut, ds'', es'', placed, h, -⟩ := h.of_bind
  obtain ⟨totalOut', ds''', es''', placedMore, h, -⟩ := h.of_bind
  obtain ⟨fee, stored, -⟩ := h.of_ok_bind
  obtain ⟨-, rfl⟩ := w.spendInputs_posts ctx _ _ _ _ _ _ _ _ _ base
  obtain ⟨-, rfl⟩ := w.spendExtra_posts ctx t _ _ _ more
  obtain ⟨places, numbers⟩ := outputs_of_yields placed
  obtain ⟨placesMore, numbersMore⟩ := moreOutputs_of_yields placedMore
  obtain ⟨-, rfl⟩ := w.placeOutputs_posts ctx _ _ _ _ _ _ _ _ placed
  obtain ⟨-, rfl⟩ := w.placeExtra_posts ctx t _ _ _ placedMore
  rw [Nat.zero_add, Nat.zero_add] at stored
  refine ⟨⟨fun position i signature at_ given => ?_, fun o member => ?_, ?_⟩, fee, stored⟩
  · obtain ⟨short, -⟩ := List.getElem?_eq_some_iff.mp at_
    apply signers_of_yields base position short signature
    rwa [Nat.zero_add]
  · exact (List.mem_append.mp member).elim (places o) (placesMore o)
  · -- the last output has a number, be it a base output or one to another chain
    by_contra large
    rcases Nat.eq_zero_or_pos t.moreOutputs.length with none_more | some_more
    · have := numbers (t.base.outputs.length - 1) (by omega)
      omega
    · have := numbersMore (t.moreOutputs.length - 1) (by omega)
      omega

end Writer

namespace Transaction.Fills

variable {t : Transaction} {w : Writer} {ctx : Context} {session : Session}

theorem accepts (h : t.Fills w ctx session) : w.Accepts t :=
  (Writer.accepts_of_yields (Script.Reaches.yields_staged h (w.indexTransaction_steady ctx t))).1

end Transaction.Fills
end LedgerIndex
