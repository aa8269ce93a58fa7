import LedgerIndex.Proofs.Fees

/-!
# Defects

Everything that can be wrong with a transaction is a defect, and its defects are listed in the
order in which the writer would come upon them: input by input, then output by output, and the
fee last. Whatever the session holds, the writer reports the first of them, and a transaction
without defects gets through. It has none exactly when it is well formed.
-/
namespace LedgerIndex

def verdict {α : Type} (defects : List Failure) (a : α) : Except Failure α :=
  defects.head?.elim (.ok a) .error

theorem verdict_eq_ok_iff {ds : List Failure} : verdict ds () = .ok () ↔ ds = [] := by
  cases ds <;> simp [verdict]

theorem verdict_eq_error_iff {α : Type} {ds : List Failure} {a : α} {f : Failure} :
    verdict ds a = .error f ↔ ds.head? = some f := by
  cases ds <;> simp [verdict]

def Informed (known : Identifier → Bool) (store : Store) (session : Session) : Prop :=
  store.outputExists session = known

def Change.places : Change → Bool
  | .output _ _ => true
  | _ => false

/-- A property of sessions that staging anything but an output does not touch. -/
def Lasting (p : Store → Session → Prop) : Prop :=
  ∀ store session c, c.places = false → p store session → p store (session.stage c)

theorem Informed.lasting (known : Identifier → Bool) : Lasting (Informed known) := by
  intro store session c other informed
  funext id
  have unstaged : (session.stage c).stagesOutput id = session.stagesOutput id := by
    cases c with
    | output row overwrite => cases other
    | _ => simp [Session.stagesOutput, Session.stage]
  rw [← informed, Store.outputExists, unstaged]
  rfl

theorem Lasting.top : Lasting ⊤ :=
  fun _ _ _ _ _ => trivial

namespace Script

variable {α β : Type} {p q r : Store → Session → Prop}

/-- Left to itself the script comes to a verdict and writes nothing. Where it starts a session
has one property, and where it gets through another. -/
def Judges (p q : Store → Session → Prop) (s : Script α) (defects : List Failure) (a : α) : Prop :=
  ∀ node store session, p store session →
    (s.run node store session).result = verdict defects a ∧
      (s.run node store session).store = store ∧
      (defects = [] → q store (s.run node store session).session)

namespace Judges

theorem done (a : α) : (Script.done a).Judges p p [] a :=
  fun _ _ _ holds => ⟨rfl, rfl, fun _ => holds⟩

theorem fail (f : Failure) {ds : List Failure} {a : α} : (Script.fail f).Judges p q (f :: ds) a :=
  fun _ _ _ _ => ⟨rfl, rfl, nofun⟩

theorem note (e : Event) {next : Script α} {ds : List Failure} {a : α}
    (h : next.Judges p q ds a) : (Script.note e next).Judges p q ds a :=
  h

theorem ofExcept {x : Except Failure α} {ds : List Failure} {a : α} (h : x = verdict ds a) :
    (Script.ofExcept x).Judges p p ds a := by
  subst h
  cases ds with
  | nil => exact done a
  | cons f ds => exact fun _ _ _ _ => ⟨rfl, rfl, nofun⟩

/-- The first defects come first. If there are any, what would come after does not matter. -/
theorem bind {s : Script α} {k : α → Script β} {ds es : List Failure} {a : α} {b : β}
    (first : s.Judges p q ds a) (second : ds = [] → (k a).Judges q r es b) :
    (s.bind k).Judges p r (ds ++ es) b := by
  intro node store session holds
  obtain ⟨judged, kept, left⟩ := first node store session holds
  rw [run_bind]
  generalize s.run node store session = ending at judged kept left
  obtain ⟨result, store', session', events⟩ := ending
  cases judged
  cases kept
  cases ds with
  | nil => exact second rfl node store' session' (left rfl)
  | cons f ds => exact ⟨rfl, rfl, nofun⟩

theorem ok_bind {x : Except Failure α} {a : α} (fine : x = .ok a) {k : α → Script β}
    {ds : List Failure} {b : β} (h : (k a).Judges p q ds b) :
    ((Script.ofExcept x).bind k).Judges p q ds b := by
  subst fine
  exact h

theorem bind_sound {s : Script α} {k : α → Script β} {ds : List Failure} {a : α} {b : β}
    (first : s.Judges p q ds a) (second : (k a).Judges q r [] b) :
    (s.bind k).Judges p r ds b := by
  rw [← List.append_nil ds]
  exact first.bind fun _ => second

theorem anywhere {s : Script α} {ds : List Failure} {a : α} (h : s.Judges ⊤ q ds a) :
    s.Judges p q ds a :=
  fun node store session _ => h node store session trivial

theorem stage_bind {c : Change} {k : Unit → Script β} {ds : List Failure} {b : β}
    (last : ∀ store session, p store session → q store (session.stage c))
    (h : (k ()).Judges q r ds b) : ((Script.stage c).bind k).Judges p r ds b :=
  fun node store session holds => h node store (session.stage c) (last store session holds)

theorem call_stage {c : Change}
    (last : ∀ store session, p store session → q store (session.stage c)) :
    (Script.stage c).Judges p q [] () :=
  fun _ store session holds => ⟨rfl, rfl, fun _ => last store session holds⟩

theorem told {known : Identifier → Bool} {id : Identifier} {next : Bool → Script α}
    {ds : List Failure} {a : α} (h : (next (known id)).Judges (Informed known) q ds a) :
    (Script.ask (.outputExists id) next).Judges (Informed known) q ds a := by
  intro node store session informed
  rw [run_outputExists, informed]
  exact h node store session informed

theorem forM {γ : Type} {f : γ → Script Unit} {defects : γ → List Failure} (xs : List γ)
    (h : ∀ x, (f x).Judges p p (defects x) ()) :
    (xs.forM f).Judges p p (xs.flatMap defects) () := by
  induction xs with
  | nil => exact done ()
  | cons x xs ih => exact (h x).bind fun _ => ih

end Judges
end Script

namespace Writer

variable (w : Writer)

def partDefects : List Failure :=
  ((Text.Bech32.fault? w.part).map fun f => .settings (.badPart w.part f)).toList

/-- The key behind a signature must be recovered, and its address displayed. -/
def signatureDefects (unsigned signature : Bytes) : List Failure :=
  match Signer.recover unsigned signature with
  | .error f => [f]
  | .ok _ => w.partDefects

def spentDefects (known : Identifier → Bool) (chain : String) (i : Input) : List Failure :=
  if w.strict ∧ chain = w.chain ∧ known i.output = false then
    [.invariant (.spentUnindexed i.output i.transaction i.index)]
  else []

def positionDefects (position : Nat) : List Failure :=
  if 2 ^ 64 ≤ position then [.outOfRange] else []

/-- What is wrong with inputs, the first of which is at a position. -/
def inputDefects (known : Identifier → Bool) (unsigned : Bytes) (chain : String)
    (credentials : List Credential) (position : Nat) (is : List Input) : List Failure :=
  (is.zipIdx position).flatMap fun (i, n) =>
    w.spentDefects known chain i ++ (positionDefects n ++
      (Credential.signaturesAt credentials n).flatMap (w.signatureDefects unsigned))

/-- What is wrong with what an output at a place holds: it must not lock anything but a transfer,
and its owners must be displayed. -/
def stateDefects (place : Place) (state : OutputState) : List Failure :=
  match state.columns? with
  | none => [.decoding (.lockedOutput place.transaction place.index)]
  | some c => c.owners.addresses.flatMap fun _ => w.partDefects

/-- What is wrong with outputs, the first of which is at a position. Outputs are numbered with
32 bits. -/
def outputDefects (transaction : Identifier) (chain : String) (position : Nat)
    (os : List Output) : List Failure :=
  (os.zipIdx position).flatMap fun (o, n) =>
    if 2 ^ 32 ≤ n then [.decoding (.outputIndex n)]
    else w.stateDefects ⟨transaction, UInt32.ofNat n, chain⟩ o.state

end Writer

namespace Transaction

def feeDefects (t : Transaction) (asset : Identifier) : List Failure :=
  if t.due asset < 2 ^ 64 then []
  else [.data (.feeOverflow (t.due asset).toNat t.base.id)]

def defects (t : Transaction) (w : Writer) (known : Identifier → Bool) : List Failure :=
  w.inputDefects known t.unsigned w.chain t.credentials 0 t.base.inputs ++
    ((t.extraInputs.elim [] fun extra =>
      w.inputDefects known t.unsigned extra.chain.text [] t.base.inputs.length extra.inputs) ++
    (w.outputDefects t.base.id w.chain 0 t.base.outputs ++
    ((t.extraOutputs.elim [] fun extra =>
      w.outputDefects t.base.id extra.chain.text t.base.outputs.length extra.outputs) ++
    t.feeDefects w.asset)))

end Transaction

namespace Writer

open Script

variable {w : Writer} (ctx : Context) {p : Store → Session → Prop}

theorem display_eq (address : Address) :
    address.display w.part = verdict w.partDefects (w.displayed address) := by
  unfold displayed partDefects Address.display Text.Bech32.encode
  cases Text.Bech32.fault? w.part <;> rfl

theorem linkAddress_judges (lasting : Lasting p) (output : Identifier) (place : Place)
    (address : Address) (signature : Option Bytes) :
    (w.linkAddress ctx output place address signature).Judges p p w.partDefects () := by
  have stages {c : Change} (other : c.places = false) (store : Store) (session : Session) :
      p store session → p store (session.stage c) :=
    lasting store session c other
  apply Judges.stage_bind (stages rfl)
  apply (Judges.ofExcept (display_eq address)).bind_sound
  apply Judges.stage_bind (stages rfl)
  apply Judges.stage_bind (stages rfl)
  apply Judges.stage_bind (stages rfl)
  apply Judges.stage_bind (stages rfl)
  cases signature with
  | none => exact .done ()
  | some value => exact .call_stage (stages rfl)

theorem attributeSigner_judges (lasting : Lasting p) (unsigned : Bytes) (chain : String)
    (i : Input) (signature : Bytes) :
    (w.attributeSigner ctx unsigned chain i signature).Judges p p
      (w.signatureDefects unsigned signature) () := by
  unfold attributeSigner signatureDefects
  cases Signer.recover unsigned signature with
  | error f => exact .fail f
  | ok key =>
    have recorded : (recordKey ctx key).Judges p p [] key.address :=
      .stage_bind (fun store session => lasting store session _ rfl) (.done _)
    exact recorded.bind fun _ => linkAddress_judges ctx lasting _ _ _ _

theorem checkSpent_judges (known : Identifier → Bool) (chain : String) (i : Input) :
    (w.checkSpent chain i).Judges (Informed known) (Informed known)
      (w.spentDefects known chain i) () := by
  unfold checkSpent spentDefects
  by_cases own : chain = w.chain
  · rw [if_pos own]
    apply Judges.told
    cases known i.output with
    | true => simpa using Judges.done ()
    | false =>
      cases strict : w.strict with
      | true => simpa [own] using Judges.fail _
      | false => exact .note _ (.done ())
  · simpa [own] using Judges.done ()

theorem spendInput_judges (known : Identifier → Bool) (spender : Identifier) (unsigned : Bytes)
    (chain : String) (credentials : List Credential) (position : Nat) (i : Input) :
    (w.spendInput ctx spender unsigned chain credentials position i).Judges (Informed known)
      (Informed known) (w.spentDefects known chain i ++ (positionDefects position ++
        (Credential.signaturesAt credentials position).flatMap (w.signatureDefects unsigned)))
      () := by
  have lasting := Informed.lasting known
  have given : signaturesAt credentials position =
      verdict (positionDefects position) (Credential.signaturesAt credentials position) := by
    unfold signaturesAt positionDefects
    split
    · rfl
    · unfold Credential.signaturesAt
      cases credentials[position]? with
      | none => rfl
      | some c => cases c <;> rfl
  apply (checkSpent_judges known chain i).bind fun _ => ?_
  apply (Judges.ofExcept given).bind fun _ => ?_
  apply (Judges.forM _ fun s => attributeSigner_judges ctx lasting unsigned chain i s).bind_sound
  apply Judges.stage_bind fun store session => lasting store session _ rfl
  exact .call_stage fun store session => lasting store session _ rfl

theorem counted_le (asset : Identifier) (amount : UInt64) :
    w.counted asset amount ≤ 2 ^ 64 - 1 := by
  have := amount.toNat_lt
  unfold counted
  split <;> omega

theorem spendInputs_judges (known : Identifier → Bool) (spender : Identifier) (unsigned : Bytes)
    (chain : String) (credentials : List Credential) {position total : Nat} (is : List Input)
    (below : position ≤ 2 ^ 64) (fits : total ≤ position * (2 ^ 64 - 1)) :
    (w.spendInputs ctx spender unsigned chain credentials position total is).Judges
      (Informed known) (Informed known)
      (w.inputDefects known unsigned chain credentials position is)
      (total + w.inputTotal is) := by
  induction is generalizing position total with
  | nil => exact .done total
  | cons i rest ih =>
    have counts := w.counted_le i.asset i.amount
    have sums : total + w.inputTotal (i :: rest) =
        total + w.counted i.asset i.amount + w.inputTotal rest := by
      simp [inputTotal, Nat.add_assoc]
    rw [sums]
    apply Judges.ok_bind (added_of_lt (by omega))
    apply (spendInput_judges ctx known spender unsigned chain credentials position i).bind
    intro sound
    have short : position < 2 ^ 64 := by
      simp only [positionDefects, List.append_eq_nil_iff, ite_eq_right_iff] at sound
      by_contra long
      cases sound.2.1 (Nat.not_lt.mp long)
    exact ih (by omega) (by omega)

theorem linkOwner_judges (lasting : Lasting p) (place : Place) (asset : Identifier)
    (owner : Address) : (w.linkOwner ctx place asset owner).Judges p p w.partDefects () := by
  exact (linkAddress_judges ctx lasting _ place owner none).bind_sound
    (.call_stage fun store session => lasting store session _ rfl)

def countedState (w : Writer) (asset : Identifier) (state : OutputState) : Nat :=
  state.columns?.elim 0 fun c => w.counted asset c.amount

theorem placeOutput_judges (place : Place) (asset : Identifier) (stake genesis : Bool)
    {total : Nat} (fits : total ≤ 2 ^ 32 * (2 ^ 64 - 1)) (state : OutputState) :
    (w.placeOutput ctx place asset stake genesis 0 total state).Judges ⊤ ⊤
      (w.stateDefects place state)
      (state.spendable.toNat, total + w.countedState asset state) := by
  unfold placeOutput stateDefects countedState
  cases state.columns? with
  | none => exact .fail _
  | some c =>
    have counts := w.counted_le asset c.amount
    have spendable := state.spendable.toNat_lt
    have amount : added 0 state.spendable.toNat = .ok state.spendable.toNat := by
      rw [added_of_lt (by omega), Nat.zero_add]
    apply Judges.ok_bind (added_of_lt (by omega))
    apply Judges.ok_bind amount
    apply (Judges.forM _ fun owner => linkOwner_judges ctx .top place asset owner).bind_sound
    exact .stage_bind (fun _ _ _ => trivial) (.done _)

theorem placeOutputs_judges (transaction : Identifier) (chain : String) (stake : Bool)
    {position total : Nat} (os : List Output) (below : position ≤ 2 ^ 32)
    (fits : total ≤ position * (2 ^ 64 - 1)) :
    (w.placeOutputs ctx transaction chain stake position total os).Judges ⊤ ⊤
      (w.outputDefects transaction chain position os) (total + w.outputTotal os) := by
  induction os generalizing position total with
  | nil => exact .done total
  | cons o rest ih =>
    have counts : w.countedState o.asset o.state ≤ 2 ^ 64 - 1 := by
      unfold countedState
      cases o.state.columns? with
      | none => exact Nat.zero_le _
      | some c => exact w.counted_le o.asset c.amount
    have sums : total + w.outputTotal (o :: rest) =
        total + w.countedState o.asset o.state + w.outputTotal rest := by
      simp [outputTotal, countedState, Nat.add_assoc]
    have numbered : outputIndex position = if 2 ^ 32 ≤ position then
        .error (.decoding (.outputIndex position)) else .ok (UInt32.ofNat position) := by
      unfold outputIndex
      split <;> split <;> first | rfl | omega
    unfold placeOutputs outputDefects
    rw [sums, numbered, List.zipIdx_cons, List.flatMap_cons]
    dsimp only
    split
    · exact Judges.fail _
    · next short =>
      have room : total ≤ 2 ^ 32 * (2 ^ 64 - 1) := fits.trans (Nat.mul_le_mul_right _ below)
      apply Judges.ok_bind rfl
      apply (placeOutput_judges ctx _ o.asset stake false room o.state).bind fun _ => ?_
      apply ih
      · omega
      · omega

theorem placeExtra_judges (t : Transaction) {total : Nat}
    (below : t.base.outputs.length ≤ 2 ^ 32)
    (fits : total ≤ t.base.outputs.length * (2 ^ 64 - 1)) :
    (w.placeExtra ctx t total).Judges ⊤ ⊤
      (t.extraOutputs.elim [] fun extra =>
        w.outputDefects t.base.id extra.chain.text t.base.outputs.length extra.outputs)
      (total + w.outputTotal t.moreOutputs) := by
  unfold placeExtra Transaction.moreOutputs
  cases t.extraOutputs with
  | none => exact .done total
  | some extra => exact placeOutputs_judges ctx _ _ _ _ below fits

theorem spendExtra_judges (known : Identifier → Bool) (t : Transaction) {total : Nat}
    (below : t.base.inputs.length ≤ 2 ^ 64)
    (fits : total ≤ t.base.inputs.length * (2 ^ 64 - 1)) :
    (w.spendExtra ctx t total).Judges (Informed known) (Informed known)
      (t.extraInputs.elim [] fun extra =>
        w.inputDefects known t.unsigned extra.chain.text [] t.base.inputs.length extra.inputs)
      (total + w.inputTotal t.moreInputs) := by
  unfold spendExtra Transaction.moreInputs
  cases t.extraInputs with
  | none => exact .done total
  | some extra => exact spendInputs_judges ctx known _ _ _ _ _ below fits

end Writer

theorem forall_add_lt_iff {position count bound : Nat} :
    (∀ n < count, position + n < bound) ↔ count = 0 ∨ position + count ≤ bound := by
  constructor
  · intro each
    by_contra large
    have := each (count - 1) (by omega)
    omega
  · intro short n below
    omega

theorem flatMap_zipIdx_eq_nil_iff {α β : Type} {f : α × Nat → List β} {xs : List α}
    {position : Nat} : (xs.zipIdx position).flatMap f = [] ↔
      ∀ n, ∀ short : n < xs.length, f (xs[n], position + n) = [] := by
  induction xs generalizing position with
  | nil => simp
  | cons x xs ih =>
    rw [List.zipIdx_cons, List.flatMap_cons, List.append_eq_nil_iff, ih]
    constructor
    · rintro ⟨first, rest⟩ n short
      cases n with
      | zero => exact first
      | succ n =>
        rw [List.getElem_cons_succ, ← Nat.succ_add_eq_add_succ]
        exact rest n (Nat.lt_of_succ_lt_succ short)
    · intro each
      refine ⟨each 0 (Nat.succ_pos _), fun n short => ?_⟩
      rw [Nat.succ_add_eq_add_succ]
      exact each (n + 1) (Nat.succ_lt_succ short)

def Transaction.Presents (t : Transaction) (signature : Bytes) : Prop :=
  ∃ position < t.base.inputs.length, ∃ all,
    t.credentials[position]? = some (.signatures all) ∧ signature ∈ all

/-- Nothing is wrong with a transaction. -/
structure Transaction.WellFormed (t : Transaction) (w : Writer) (known : Identifier → Bool) :
    Prop where
  signed : ∀ signature, t.Presents signature →
    signature.length = 65 ∧ ∃ key, Signer.recover t.unsigned signature = .ok key
  spent : w.strict = true → ∀ i ∈ t.ownInputs w, known i.output = true
  unlocked : ∀ o ∈ t.allOutputs, ∀ locktime inner, o.state = .lockedTransfer locktime inner →
    ∃ amount owners, inner = .transfer amount owners
  displayed : Text.Bech32.fault? w.part = none ∨
    (∀ signature, ¬t.Presents signature) ∧ ∀ o ∈ t.allOutputs, o.state.owners = []
  numbered : ∀ position < t.allOutputs.length, position < 2 ^ 32
  charged : t.genesis = true ∨ t.due w.asset < 2 ^ 64

namespace Writer

variable {w : Writer}

theorem partDefects_eq_nil_iff : w.partDefects = [] ↔ Text.Bech32.fault? w.part = none := by
  simp [partDefects]

theorem displays_iff {address : Address} :
    w.Displays address ↔ Text.Bech32.fault? w.part = none := by
  rw [← partDefects_eq_nil_iff]
  unfold Displays
  rw [display_eq]
  cases w.partDefects <;> simp [verdict]

theorem signatureDefects_eq_nil_iff {unsigned signature : Bytes} :
    w.signatureDefects unsigned signature = [] ↔ w.Recovers unsigned signature := by
  unfold signatureDefects Recovers
  cases Signer.recover unsigned signature with
  | error f => simp
  | ok key => simp [partDefects_eq_nil_iff, displays_iff]

theorem recovers_iff {unsigned signature : Bytes} : w.Recovers unsigned signature ↔
    (signature.length = 65 ∧ ∃ key, Signer.recover unsigned signature = .ok key) ∧
      Text.Bech32.fault? w.part = none := by
  simp only [Recovers, displays_iff, exists_and_right]
  refine and_congr_left fun _ => (and_iff_right_of_imp ?_).symm
  rintro ⟨key, recovered⟩
  by_contra other
  have refused := recovered.symm.trans (if_pos other)
  cases refused

theorem spentDefects_eq_nil_iff {known : Identifier → Bool} {chain : String} {i : Input} :
    w.spentDefects known chain i = [] ↔
      (w.strict = true → chain = w.chain → known i.output = true) := by
  simp [spentDefects]

theorem positionDefects_eq_nil_iff {position : Nat} :
    positionDefects position = [] ↔ position < 2 ^ 64 := by
  simp only [positionDefects, ite_eq_right_iff, reduceCtorEq, imp_false, Nat.not_le]

theorem inputDefects_eq_nil_iff {known : Identifier → Bool} {unsigned : Bytes} {chain : String}
    {credentials : List Credential} {position : Nat} {is : List Input} :
    w.inputDefects known unsigned chain credentials position is = [] ↔
      (w.strict = true → chain = w.chain → ∀ i ∈ is, known i.output = true) ∧
      (is.length = 0 ∨ position + is.length ≤ 2 ^ 64) ∧
      ∀ n < is.length, ∀ signature ∈ Credential.signaturesAt credentials (position + n),
        w.Recovers unsigned signature := by
  rw [inputDefects, flatMap_zipIdx_eq_nil_iff, ← forall_add_lt_iff]
  simp only [List.append_eq_nil_iff, spentDefects_eq_nil_iff, positionDefects_eq_nil_iff,
    List.flatMap_eq_nil_iff, signatureDefects_eq_nil_iff, forall_and]
  refine and_congr_left fun _ => ⟨fun knows strict own => ?_, fun knows n short strict own => ?_⟩
  · exact List.forall_mem_iff_forall_getElem.mpr fun n short => knows n short strict own
  · exact knows strict own _ (List.getElem_mem short)

theorem stateDefects_eq_nil_iff (place : Place) {state : OutputState} :
    w.stateDefects place state = [] ↔ w.CanPlace state := by
  unfold stateDefects CanPlace
  cases state.columns? with
  | none => simp
  | some c => simp [partDefects_eq_nil_iff, displays_iff]

theorem canPlace_iff {state : OutputState} : w.CanPlace state ↔
    (∀ locktime inner, state = .lockedTransfer locktime inner →
      ∃ amount owners, inner = .transfer amount owners) ∧
    (Text.Bech32.fault? w.part = none ∨ state.owners = []) := by
  have shown (owners : List Address) : (∀ owner ∈ owners, w.Displays owner) ↔
      Text.Bech32.fault? w.part = none ∨ owners = [] := by
    simp only [displays_iff]
    cases owners with
    | nil => simp
    | cons owner rest => simpa using fun fine _ _ => fine
  unfold CanPlace
  cases state with
  | lockedTransfer locktime inner =>
    cases inner <;> simp [OutputState.columns?, OutputState.owners, shown]
  | _ => simp [OutputState.columns?, OutputState.owners, shown]

theorem outputDefects_eq_nil_iff {transaction : Identifier} {chain : String} {position : Nat}
    {os : List Output} :
    w.outputDefects transaction chain position os = [] ↔
      (os.length = 0 ∨ position + os.length ≤ 2 ^ 32) ∧
      ∀ o ∈ os, w.CanPlace o.state := by
  have each (o : Output) (n : Nat) : (if 2 ^ 32 ≤ n then [.decoding (.outputIndex n)]
      else w.stateDefects ⟨transaction, UInt32.ofNat n, chain⟩ o.state) = [] ↔
        n < 2 ^ 32 ∧ w.CanPlace o.state := by
    rw [← stateDefects_eq_nil_iff ⟨transaction, UInt32.ofNat n, chain⟩]
    split
    · next large =>
      simp only [reduceCtorEq, false_iff, not_and, Nat.not_lt.mpr large, false_implies]
    · next short =>
      simp only [Nat.not_le.mp short, true_and]
  rw [outputDefects, flatMap_zipIdx_eq_nil_iff, ← forall_add_lt_iff]
  simp only [each, List.forall_mem_iff_forall_getElem]
  exact forall₂_and

end Writer

namespace Transaction

variable {t : Transaction} {w : Writer} {known : Identifier → Bool}

theorem feeDefects_eq_nil_iff {asset : Identifier} :
    t.feeDefects asset = [] ↔ t.due asset < 2 ^ 64 := by
  simp [feeDefects]

theorem presents_iff {signature : Bytes} : t.Presents signature ↔
    ∃ n < t.base.inputs.length, signature ∈ Credential.signaturesAt t.credentials n := by
  simp only [Presents, Credential.mem_signaturesAt]

/-- When nothing is wrong with the inputs, those of another chain included. -/
theorem inputDefects_eq_nil_iff :
    w.inputDefects known t.unsigned w.chain t.credentials 0 t.base.inputs = [] ∧
      (t.extraInputs.elim [] fun extra => w.inputDefects known t.unsigned extra.chain.text []
        t.base.inputs.length extra.inputs) = [] ↔
    (w.strict = true → ∀ i ∈ t.ownInputs w, known i.output = true) ∧
      t.allInputs.length ≤ 2 ^ 64 ∧
      ∀ signature, t.Presents signature → w.Recovers t.unsigned signature := by
  have more : (t.extraInputs.elim [] fun extra => w.inputDefects known t.unsigned
        extra.chain.text [] t.base.inputs.length extra.inputs) = [] ↔
      (w.strict = true → ∀ i ∈ t.extraInputs.elim [] fun extra =>
        if extra.chain.text = w.chain then extra.inputs else [], known i.output = true) ∧
      (t.moreInputs.length = 0 ∨ t.base.inputs.length + t.moreInputs.length ≤ 2 ^ 64) := by
    unfold moreInputs
    cases t.extraInputs with
    | none => simp
    | some extra =>
      by_cases own : extra.chain.text = w.chain
      · simp [Writer.inputDefects_eq_nil_iff, Credential.signaturesAt, own]
      · simp [Writer.inputDefects_eq_nil_iff, Credential.signaturesAt, own]
  rw [more, Writer.inputDefects_eq_nil_iff, allInputs, ownInputs, List.length_append]
  simp only [Nat.zero_add, List.forall_mem_append, presents_iff]
  constructor
  · rintro ⟨⟨knows, short, signed⟩, knowsMore, shortMore⟩
    refine ⟨fun strict => ⟨knows strict trivial, knowsMore strict⟩, by omega, ?_⟩
    rintro signature ⟨n, below, given⟩
    exact signed n below signature given
  · rintro ⟨knows, short, signed⟩
    refine ⟨⟨fun strict _ => (knows strict).1, by omega, ?_⟩, fun strict => (knows strict).2,
      by omega⟩
    exact fun n below signature given => signed signature ⟨n, below, given⟩

/-- When nothing is wrong with the outputs, those to another chain included. -/
theorem outputDefects_eq_nil_iff :
    w.outputDefects t.base.id w.chain 0 t.base.outputs = [] ∧
      (t.extraOutputs.elim [] fun extra => w.outputDefects t.base.id extra.chain.text
        t.base.outputs.length extra.outputs) = [] ↔
    t.allOutputs.length ≤ 2 ^ 32 ∧ ∀ o ∈ t.allOutputs, w.CanPlace o.state := by
  have more : (t.extraOutputs.elim [] fun extra => w.outputDefects t.base.id extra.chain.text
        t.base.outputs.length extra.outputs) = [] ↔
      (t.moreOutputs.length = 0 ∨ t.base.outputs.length + t.moreOutputs.length ≤ 2 ^ 32) ∧
      ∀ o ∈ t.moreOutputs, w.CanPlace o.state := by
    unfold moreOutputs
    cases t.extraOutputs with
    | none => simp
    | some extra => exact Writer.outputDefects_eq_nil_iff
  rw [more, Writer.outputDefects_eq_nil_iff, allOutputs, List.length_append,
    List.forall_mem_append]
  constructor
  · rintro ⟨⟨short, sound⟩, shortMore, soundMore⟩
    exact ⟨by omega, sound, soundMore⟩
  · rintro ⟨short, sound, soundMore⟩
    exact ⟨⟨by omega, sound⟩, by omega, soundMore⟩

/-- A transaction has no defects exactly when it is well formed, and its inputs can be counted. -/
theorem defects_eq_nil_iff :
    t.defects w known = [] ↔ t.WellFormed w known ∧ t.allInputs.length ≤ 2 ^ 64 := by
  have parts : t.defects w known = [] ↔
      ((w.strict = true → ∀ i ∈ t.ownInputs w, known i.output = true) ∧
        t.allInputs.length ≤ 2 ^ 64 ∧
        ∀ signature, t.Presents signature → w.Recovers t.unsigned signature) ∧
      (t.allOutputs.length ≤ 2 ^ 32 ∧ ∀ o ∈ t.allOutputs, w.CanPlace o.state) ∧
      t.due w.asset < 2 ^ 64 := by
    rw [← inputDefects_eq_nil_iff, ← outputDefects_eq_nil_iff, ← feeDefects_eq_nil_iff, defects]
    simp only [List.append_eq_nil_iff, and_assoc]
  rw [parts]
  simp only [Writer.recovers_iff, Writer.canPlace_iff]
  constructor
  · rintro ⟨⟨spent, count, signed⟩, ⟨numbered, sound⟩, charged⟩
    refine ⟨{
      signed := fun signature given => (signed signature given).1
      spent
      unlocked := fun o member => (sound o member).1
      displayed := ?_
      numbered := fun position below => by omega
      charged := .inr charged }, count⟩
    by_cases fault : Text.Bech32.fault? w.part = none
    · exact .inl fault
    · exact .inr ⟨fun signature given => fault (signed signature given).2,
        fun o member => (sound o member).2.resolve_left fault⟩
  · rintro ⟨wellFormed, count⟩
    have numbered : t.allOutputs.length ≤ 2 ^ 32 := by
      by_contra large
      have := wellFormed.numbered (2 ^ 32) (by omega)
      omega
    refine ⟨⟨wellFormed.spent, count, fun signature given => ?_⟩,
      ⟨numbered, fun o member => ⟨wellFormed.unlocked o member, ?_⟩⟩, ?_⟩
    · refine ⟨wellFormed.signed signature given, ?_⟩
      exact wellFormed.displayed.resolve_right fun silent => silent.1 signature given
    · exact wellFormed.displayed.imp_right fun silent => silent.2 o member
    · rcases wellFormed.charged with genesis | fits
      · simp [due, genesis]
      · exact fits

end Transaction

namespace Writer

open Script

variable {w : Writer} (ctx : Context)

theorem storedFee_judged (t : Transaction) (count : t.allInputs.length ≤ 2 ^ 64) :
    storedFee t (w.inputTotal t.base.inputs + w.inputTotal t.moreInputs)
        (w.outputTotal t.base.outputs + w.outputTotal t.moreOutputs) =
      verdict (t.feeDefects w.asset) (UInt64.ofNat (t.due w.asset).toNat) := by
  have stored := t.storedFee_eq w.asset count
  unfold Transaction.allInputs Transaction.allOutputs at stored
  rw [w.inputTotal_append, w.outputTotal_append, stored]
  unfold Transaction.feeDefects
  split <;> rfl

theorem indexTransaction_judges (known : Identifier → Bool) (t : Transaction) :
    (w.indexTransaction ctx t).Judges (Informed known) ⊤ (t.defects w known) () := by
  have ins := w.inputTotal_eq t.base.inputs ▸ Input.native_le w.asset t.base.inputs
  have outs := w.outputTotal_eq t.base.outputs ▸ Output.native_le w.asset t.base.outputs
  rw [indexTransaction_eq]
  unfold Transaction.defects
  apply (spendInputs_judges ctx known _ _ _ _ _ (Nat.zero_le _) (Nat.zero_le _)).bind
  intro base_sound
  obtain ⟨-, below, -⟩ := inputDefects_eq_nil_iff.mp base_sound
  rw [Nat.zero_add] at below ⊢
  apply (spendExtra_judges ctx known t (by omega) ins).bind
  intro extra_sound
  obtain ⟨-, count, -⟩ := Transaction.inputDefects_eq_nil_iff.mp ⟨base_sound, extra_sound⟩
  -- nothing is asked about outputs from here on, so that they may be staged
  apply Judges.anywhere
  apply (placeOutputs_judges ctx _ _ _ _ (Nat.zero_le _) (Nat.zero_le _)).bind
  intro placed_sound
  obtain ⟨numbered, -⟩ := outputDefects_eq_nil_iff.mp placed_sound
  rw [Nat.zero_add] at numbered ⊢
  apply (placeExtra_judges ctx t (by omega) outs).bind
  intro _
  apply (Judges.ofExcept (storedFee_judged t count)).bind_sound
  exact .call_stage fun _ _ _ => trivial

/-- Whatever the store and the session hold, a transaction gets through exactly when it is well
formed. Otherwise the first of its defects is reported, in the order of its rows. The store is
left alone in either case. -/
theorem indexTransaction_judged (w : Writer) (ctx : Context) (t : Transaction)
    (node : Identifier → List Bytes) (store : Store) (session : Session) :
    let known := store.outputExists session
    let ending := (w.indexTransaction ctx t).run node store session
    ending.store = store ∧
    (ending.result = .ok () ↔ t.WellFormed w known ∧ t.allInputs.length ≤ 2 ^ 64) ∧
    ∀ f, ending.result = .error f ↔ (t.defects w known).head? = some f := by
  intro known ending
  obtain ⟨result, kept, -⟩ := indexTransaction_judges ctx known t node store session rfl
  refine ⟨kept, ?_, fun f => ?_⟩
  · rw [result, verdict_eq_ok_iff, Transaction.defects_eq_nil_iff]
  · rw [result, verdict_eq_error_iff]

end Writer
end LedgerIndex
