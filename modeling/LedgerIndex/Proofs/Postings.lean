import LedgerIndex.Proofs.Steadiness
import LedgerIndex.Rewards

/-!
# Postings

What the writer does for a transaction is a list of postings, each of which stands for a
few changes that always come together: the tie of an address to an output with both of its
contributions, the spend of an output with the mark and the redemption, and so on. The list
follows from the transaction alone. A script that ends well has staged the changes of its
postings in order, whatever it was told about outputs meanwhile.
-/
namespace LedgerIndex

/-- One thing that the writer does at a time. -/
inductive Posting where
  | key (key : Curve.PublicKey)
  | tie (place : Place) (address : Address) (signature : Option Bytes)
  | activity (place : Place) (asset : Identifier) (owner : Address)
  | output (place : Place) (asset : Identifier) (stake genesis : Bool) (columns : OutputColumns)
  | spend (spender : Identifier) (chain : String) (input : Input)
  | transaction (transaction : Transaction) (fee : UInt64)
  | trace (content : Identifier) (trace : Trace)
  | log (content : Identifier) (log : Log)

/-- What an address contributes as an owner or signer of the output at a place. -/
def Place.delta (p : Place) (address : Address) : DeltaRow :=
  ⟨DeltaRow.identity p.output address, p.output, address, p.transaction, p.index⟩

@[simp] theorem Place.delta_id (p : Place) (address : Address) :
    (p.delta address).id = DeltaRow.identity p.output address := rfl

@[simp] theorem Place.delta_output (p : Place) (address : Address) :
    (p.delta address).output = p.output := rfl

@[simp] theorem Place.delta_address (p : Place) (address : Address) :
    (p.delta address).address = address := rfl

def Place.activity (p : Place) (asset : Identifier) (owner : Address) : ActivityRow :=
  ⟨ActivityRow.identity p.chain asset owner p.transaction, p.chain, asset, owner, p.transaction⟩

def Input.place (i : Input) (chain : String) : Place :=
  ⟨i.transaction, i.index, chain⟩

def OutputColumns.row (c : OutputColumns) (place : Place) (asset : Identifier)
    (stake genesis : Bool) (time : Timestamp) : OutputRow where
  id := place.output
  chain := place.chain
  transaction := place.transaction
  index := place.index
  asset := asset
  kind := c.kind
  amount := c.amount
  locktime := c.owners.locktime
  threshold := c.owners.threshold
  group := c.group
  payload := c.payload
  stakeLocktime := c.stakeLocktime
  stake := stake
  frozen := false
  stakeable := c.stakeable
  genesis := genesis
  created := time

namespace Writer

def displayed (w : Writer) (address : Address) : String :=
  (address.display w.part).toOption.getD ""

def changes (w : Writer) (ctx : Context) : Posting → List Change
  | .key key => [.address ⟨key.address, key.compressed, ctx.time⟩ ctx.overwrite]
  | .tie place address signature =>
    [.presence ⟨address, place.chain, ctx.time⟩ ctx.overwrite,
     .display ⟨address, w.displayed address⟩ ctx.overwrite,
     .outgoing (place.delta address),
     .incoming (place.delta address),
     .holding ⟨place.output, address, signature, ctx.time⟩ ctx.overwrite] ++
      if signature.isSome then [.signature place.output address signature] else []
  | .activity place asset owner => [.activity (place.activity asset owner)]
  | .output place asset stake genesis columns =>
    [.output (columns.row place asset stake genesis ctx.time) ctx.overwrite]
  | .spend spender chain i => [.spent i.output, .redemption (redemption spender chain ctx.time i)]
  | .transaction t fee => [.transaction (w.transactionRow ctx t fee) ctx.overwrite]
  | .trace content t => [.trace ⟨content, t, ctx.time⟩ ctx.overwrite]
  | .log content l => [.log ⟨content, l, ctx.time⟩ ctx.overwrite]

def changesOf (w : Writer) (ctx : Context) (ps : List Posting) : List Change :=
  ps.flatMap (w.changes ctx)

@[simp] theorem changesOf_nil (w : Writer) (ctx : Context) : w.changesOf ctx [] = [] := rfl

@[simp] theorem changesOf_cons (w : Writer) (ctx : Context) (p : Posting) (ps : List Posting) :
    w.changesOf ctx (p :: ps) = w.changes ctx p ++ w.changesOf ctx ps := rfl

theorem changesOf_append (w : Writer) (ctx : Context) (ps qs : List Posting) :
    w.changesOf ctx (ps ++ qs) = w.changesOf ctx ps ++ w.changesOf ctx qs := by
  simp [changesOf]

theorem changesOf_flatMap {γ : Type} (w : Writer) (ctx : Context) (xs : List γ)
    (f : γ → List Posting) :
    w.changesOf ctx (xs.flatMap f) = xs.flatMap fun x => w.changesOf ctx (f x) := by
  simp [changesOf, List.flatMap_assoc]

end Writer

def Credential.signaturesAt (credentials : List Credential) (position : Nat) : List Bytes :=
  match credentials[position]? with
  | some (.signatures all) => all
  | _ => []

theorem Credential.mem_signaturesAt {credentials : List Credential} {position : Nat}
    {signature : Bytes} : signature ∈ signaturesAt credentials position ↔
      ∃ all, credentials[position]? = some (.signatures all) ∧ signature ∈ all := by
  unfold signaturesAt
  split
  · next all beside => simp [beside]
  · next other => exact iff_of_false List.not_mem_nil fun ⟨all, beside, _⟩ => other all beside

namespace Input

/-- The signer behind one signature: the key, and the tie to the output that is spent. -/
def signer (i : Input) (unsigned : Bytes) (chain : String) (signature : Bytes) : List Posting :=
  match Signer.recover unsigned signature with
  | .ok key => [.key key, .tie (i.place chain) key.address (some signature)]
  | .error _ => []

def postings (i : Input) (spender : Identifier) (unsigned : Bytes) (chain : String)
    (signatures : List Bytes) : List Posting :=
  signatures.flatMap (i.signer unsigned chain) ++ [.spend spender chain i]

def postingsFrom (spender : Identifier) (unsigned : Bytes) (chain : String)
    (credentials : List Credential) : (position : Nat) → List Input → List Posting
  | _, [] => []
  | position, i :: rest =>
    i.postings spender unsigned chain (Credential.signaturesAt credentials position) ++
      postingsFrom spender unsigned chain credentials (position + 1) rest

end Input

/-- The owners of an output, and then the output. One that cannot be written has none. -/
def OutputState.postings (state : OutputState) (place : Place) (asset : Identifier)
    (stake genesis : Bool) : List Posting :=
  match state.columns? with
  | none => []
  | some c =>
    c.owners.addresses.flatMap (fun a => [.tie place a none, .activity place asset a]) ++
      [.output place asset stake genesis c]

theorem OutputState.cases_of_mem_postings {state : OutputState} {place : Place}
    {asset : Identifier} {stake genesis : Bool} {p : Posting}
    (posted : p ∈ state.postings place asset stake genesis) :
    (∃ owner, p = .tie place owner none) ∨ (∃ owner, p = .activity place asset owner) ∨
      ∃ c, p = .output place asset stake genesis c := by
  rw [postings] at posted
  split at posted
  · cases posted
  · rcases List.mem_append.mp posted with owned | written
    · obtain ⟨owner, -, either⟩ := List.mem_flatMap.mp owned
      rcases List.mem_cons.mp either with rfl | active
      · exact .inl ⟨owner, rfl⟩
      · exact .inr (.inl ⟨owner, List.mem_singleton.mp active⟩)
    · exact .inr (.inr ⟨_, List.mem_singleton.mp written⟩)

def Output.postingsFrom (transaction : Identifier) (chain : String) (stake : Bool) :
    (position : Nat) → List Output → List Posting
  | _, [] => []
  | position, o :: rest =>
    o.state.postings ⟨transaction, UInt32.ofNat position, chain⟩ o.asset stake false ++
      Output.postingsFrom transaction chain stake (position + 1) rest

namespace Transaction

def moreInputs (t : Transaction) : List Input :=
  t.extraInputs.elim [] (·.inputs)

def moreOutputs (t : Transaction) : List Output :=
  t.extraOutputs.elim [] (·.outputs)

end Transaction

namespace Writer

def inputTotal (w : Writer) (is : List Input) : Nat :=
  is.foldr (fun i total => w.counted i.asset i.amount + total) 0

def outputTotal (w : Writer) (os : List Output) : Nat :=
  os.foldr (fun o total => (o.state.columns?.elim 0 fun c => w.counted o.asset c.amount) + total) 0

def feeOf (w : Writer) (t : Transaction) : UInt64 :=
  (storedFee t (w.inputTotal t.base.inputs + w.inputTotal t.moreInputs)
    (w.outputTotal t.base.outputs + w.outputTotal t.moreOutputs)).toOption.getD 0

def spendPostings (w : Writer) (t : Transaction) : List Posting :=
  Input.postingsFrom t.base.id t.unsigned w.chain t.credentials 0 t.base.inputs ++
    t.extraInputs.elim [] fun extra =>
      Input.postingsFrom t.base.id t.unsigned extra.chain.text [] t.base.inputs.length extra.inputs

def placePostings (w : Writer) (t : Transaction) : List Posting :=
  Output.postingsFrom t.base.id w.chain false 0 t.base.outputs ++
    t.extraOutputs.elim [] fun extra =>
      Output.postingsFrom t.base.id extra.chain.text extra.stake t.base.outputs.length
        extra.outputs

/-- The postings of a transaction: its inputs, its outputs, and its own row. -/
def postings (w : Writer) (t : Transaction) : List Posting :=
  w.spendPostings t ++ w.placePostings t ++ [.transaction t (w.feeOf t)]

def postingsOf (w : Writer) (content : Identifier) : Payload → List Posting
  | .block b => b.transactions.flatMap w.postings
  | .trace t => [.trace content t]
  | .log l => [.log content l]

end Writer

def PlacedOutput.postings (o : PlacedOutput) (chain : String) : List Posting :=
  o.state.postings ⟨o.transaction, o.index, chain⟩ o.asset false false

namespace Script

variable {α β : Type}

/-- The script can end with a value, having staged some changes. Whether an output is known
is answered either way. -/
inductive Yields : Script α → List Change → α → Prop
  | done (a : α) : Yields (.done a) [] a
  | note (e : Event) {next : Script α} {cs : List Change} {a : α} :
    Yields next cs a → Yields (.note e next) cs a
  | stage (c : Change) {next : Unit → Script α} {cs : List Change} {a : α} :
    Yields (next ()) cs a → Yields (.ask (.stage c) next) (c :: cs) a
  | consume (t : Timestamp) {next : Unit → Script α} {cs : List Change} {a : α} :
    Yields (next ()) cs a → Yields (.ask (.consume t) next) cs a
  | consumed (t : Timestamp) {next : Unit → Script α} {cs : List Change} {a : α} :
    Yields (next ()) cs a → Yields (.ask (.consumed t) next) cs a
  | outputExists (id : Identifier) (known : Bool) {next : Bool → Script α} {cs : List Change}
    {a : α} : Yields (next known) cs a → Yields (.ask (.outputExists id) next) cs a

theorem Yields.of_bind {s : Script α} {k : α → Script β} {cs : List Change} {b : β}
    (h : (s.bind k).Yields cs b) :
    ∃ a ds es, s.Yields ds a ∧ (k a).Yields es b ∧ cs = ds ++ es := by
  induction s generalizing cs with
  | done a => exact ⟨a, [], cs, .done a, h, rfl⟩
  | fail f => cases h
  | note e next ih =>
    cases h with
    | note _ h =>
      obtain ⟨a, ds, es, first, second, parts⟩ := ih h
      exact ⟨a, ds, es, .note e first, second, parts⟩
  | ask c next ih =>
    cases h with
    | stage c h =>
      obtain ⟨a, ds, es, first, second, rfl⟩ := ih () h
      exact ⟨a, c :: ds, es, .stage c first, second, rfl⟩
    | consume t h =>
      obtain ⟨a, ds, es, first, second, parts⟩ := ih () h
      exact ⟨a, ds, es, .consume t first, second, parts⟩
    | consumed t h =>
      obtain ⟨a, ds, es, first, second, parts⟩ := ih () h
      exact ⟨a, ds, es, .consumed t first, second, parts⟩
    | outputExists id known h =>
      obtain ⟨a, ds, es, first, second, parts⟩ := ih known h
      exact ⟨a, ds, es, .outputExists id known first, second, parts⟩

theorem Yields.of_forM {γ : Type} {f : γ → Script Unit} {xs : List γ} {cs : List Change}
    (h : (xs.forM f).Yields cs ()) {x : γ} (member : x ∈ xs) :
    ∃ ds, (f x).Yields ds () ∧ ∀ c ∈ ds, c ∈ cs := by
  induction xs generalizing cs with
  | nil => cases member
  | cons y xs ih =>
    obtain ⟨⟨⟩, ds, es, first, rest, rfl⟩ := Yields.of_bind (k := fun _ => xs.forM f) h
    rcases List.mem_cons.mp member with rfl | member
    · exact ⟨ds, first, fun c => List.mem_append_left _⟩
    · obtain ⟨ds', round, among⟩ := ih rest member
      exact ⟨ds', round, fun c staged => List.mem_append_right _ (among c staged)⟩

/-- Whenever the script ends well it has staged these changes, and this is its value. -/
def Posts (s : Script α) (cs : List Change) (a : α) : Prop :=
  ∀ ds b, s.Yields ds b → ds = cs ∧ b = a

namespace Posts

theorem done (a : α) : (Script.done a).Posts [] a := by
  rintro ds b ⟨⟩
  exact ⟨rfl, rfl⟩

theorem fail (f : Failure) (cs : List Change) (a : α) : (Script.fail f).Posts cs a := by
  rintro ds b ⟨⟩

theorem bind {s : Script α} {k : α → Script β} {cs ds : List Change} {a : α} {b : β}
    (first : s.Posts cs a) (second : (k a).Posts ds b) : (s.bind k).Posts (cs ++ ds) b := by
  intro es b' h
  obtain ⟨a', ds', es', hs, hk, rfl⟩ := h.of_bind
  obtain ⟨rfl, rfl⟩ := first _ _ hs
  obtain ⟨rfl, rfl⟩ := second _ _ hk
  exact ⟨rfl, rfl⟩

theorem silent_bind {s : Script α} {k : α → Script β} {cs : List Change} {a : α} {b : β}
    (first : s.Posts [] a) (second : (k a).Posts cs b) : (s.bind k).Posts cs b :=
  first.bind second

theorem stage (c : Change) : (Script.stage c).Posts [c] () := by
  intro ds b h
  cases h with
  | stage c h =>
    cases h
    exact ⟨rfl, rfl⟩

theorem stage_bind {c : Change} {k : Unit → Script β} {cs : List Change} {b : β}
    (h : (k ()).Posts cs b) : ((Script.stage c).bind k).Posts (c :: cs) b :=
  (stage c).bind h

theorem ofExcept_bind {x : Except Failure α} {k : α → Script β} {cs : List Change} {b : β}
    (h : ∀ a, x = .ok a → (k a).Posts cs b) : ((Script.ofExcept x).bind k).Posts cs b := by
  cases x with
  | ok a => exact h a rfl
  | error f => exact .fail f cs b

theorem forM {γ : Type} {f : γ → Script Unit} {g : γ → List Change}
    (h : ∀ x, (f x).Posts (g x) ()) (xs : List γ) : (xs.forM f).Posts (xs.flatMap g) () := by
  induction xs with
  | nil => exact .done ()
  | cons x xs ih => exact (h x).bind ih

end Posts
end Script

namespace Writer

open Script

variable (w : Writer) (ctx : Context)

theorem recordKey_posts (key : Curve.PublicKey) :
    (recordKey ctx key).Posts (w.changes ctx (.key key)) key.address :=
  .stage_bind (.done key.address)

theorem linkAddress_posts (place : Place) (address : Address) (signature : Option Bytes) :
    (w.linkAddress ctx place.output place address signature).Posts
      (w.changes ctx (.tie place address signature)) () := by
  apply Posts.stage_bind
  apply Posts.ofExcept_bind
  intro text shown
  have same : w.displayed address = text := by simp [displayed, shown, Except.toOption]
  rw [← same]
  apply Posts.stage_bind
  apply Posts.stage_bind
  apply Posts.stage_bind
  apply Posts.stage_bind
  cases signature with
  | none => exact .done ()
  | some value => exact .stage _

theorem checkSpent_posts (chain : String) (i : Input) : (w.checkSpent chain i).Posts [] () := by
  unfold checkSpent
  split
  · rintro ds b h
    cases h with
    | outputExists id known h =>
      cases known with
      | true =>
        cases h
        exact ⟨rfl, rfl⟩
      | false =>
        by_cases strict : w.strict = true
        · simp only [strict] at h
          cases h
        · simp only [strict] at h
          cases h with
          | note e h =>
            cases h
            exact ⟨rfl, rfl⟩
  · exact .done ()

theorem attributeSigner_posts (unsigned : Bytes) (chain : String) (i : Input)
    (signature : Bytes) :
    (w.attributeSigner ctx unsigned chain i signature).Posts
      (w.changesOf ctx (i.signer unsigned chain signature)) () := by
  apply Posts.ofExcept_bind
  intro key recovered
  have parts : w.changesOf ctx (i.signer unsigned chain signature) =
      w.changes ctx (.key key) ++
        w.changes ctx (.tie (i.place chain) key.address (some signature)) := by
    simp [Input.signer, recovered]
  rw [parts]
  exact (w.recordKey_posts ctx key).bind (w.linkAddress_posts ctx (i.place chain) _ _)

theorem signaturesAt_of_ok {credentials : List Credential} {position : Nat} {all : List Bytes}
    (h : signaturesAt credentials position = .ok all) :
    all = Credential.signaturesAt credentials position := by
  unfold signaturesAt at h
  unfold Credential.signaturesAt
  split at h
  · cases h
  · split at h <;> cases h <;> simp [*]

theorem spendInput_posts (spender : Identifier) (unsigned : Bytes) (chain : String)
    (credentials : List Credential) (position : Nat) (i : Input) :
    (w.spendInput ctx spender unsigned chain credentials position i).Posts
      (w.changesOf ctx (i.postings spender unsigned chain
        (Credential.signaturesAt credentials position))) () := by
  apply (w.checkSpent_posts chain i).silent_bind
  apply Posts.ofExcept_bind
  intro signatures given
  rw [signaturesAt_of_ok given, Input.postings, changesOf_append, changesOf_flatMap]
  apply (Posts.forM (w.attributeSigner_posts ctx unsigned chain i) _).bind
  exact .stage_bind (.stage _)

theorem added_of_ok {total amount sum : Nat} (h : added total amount = .ok sum) :
    sum = total + amount := by
  unfold added at h
  split at h <;> cases h
  rfl

theorem spendInputs_posts (spender : Identifier) (unsigned : Bytes) (chain : String)
    (credentials : List Credential) (position total : Nat) (is : List Input) :
    (w.spendInputs ctx spender unsigned chain credentials position total is).Posts
      (w.changesOf ctx (Input.postingsFrom spender unsigned chain credentials position is))
      (total + w.inputTotal is) := by
  induction is generalizing position total with
  | nil => exact .done total
  | cons i rest ih =>
    apply Posts.ofExcept_bind
    intro sum counts
    rw [Input.postingsFrom, changesOf_append]
    have sums : total + w.inputTotal (i :: rest) = sum + w.inputTotal rest := by
      rw [added_of_ok counts]
      simp [inputTotal, Nat.add_assoc]
    rw [sums]
    exact (w.spendInput_posts ctx spender unsigned chain credentials position i).bind (ih _ _)

theorem linkOwner_posts (place : Place) (asset : Identifier) (owner : Address) :
    (w.linkOwner ctx place asset owner).Posts
      (w.changesOf ctx [.tie place owner none, .activity place asset owner]) () :=
  (w.linkAddress_posts ctx place owner none).bind (.stage _)

theorem placeOutput_posts (place : Place) (asset : Identifier) (stake genesis : Bool)
    (amount total : Nat) (state : OutputState) :
    (w.placeOutput ctx place asset stake genesis amount total state).Posts
      (w.changesOf ctx (state.postings place asset stake genesis))
      (amount + state.spendable.toNat,
        total + state.columns?.elim 0 fun c => w.counted asset c.amount) := by
  unfold placeOutput OutputState.postings
  cases state.columns? with
  | none => exact .fail _ _ _
  | some c =>
    apply Posts.ofExcept_bind
    intro total' counts
    apply Posts.ofExcept_bind
    intro amount' spendable
    rw [added_of_ok counts, added_of_ok spendable, changesOf_append, changesOf_flatMap]
    apply (Posts.forM (w.linkOwner_posts ctx place asset) _).bind
    exact .stage_bind (.done _)

theorem outputIndex_of_ok {position : Nat} {index : UInt32}
    (h : outputIndex position = .ok index) : index = UInt32.ofNat position := by
  unfold outputIndex at h
  split at h <;> cases h
  rfl

theorem placeOutputs_posts (transaction : Identifier) (chain : String) (stake : Bool)
    (position total : Nat) (os : List Output) :
    (w.placeOutputs ctx transaction chain stake position total os).Posts
      (w.changesOf ctx (Output.postingsFrom transaction chain stake position os))
      (total + w.outputTotal os) := by
  induction os generalizing position total with
  | nil => exact .done total
  | cons o rest ih =>
    apply Posts.ofExcept_bind
    intro index at_
    rw [outputIndex_of_ok at_, Output.postingsFrom, changesOf_append]
    apply (w.placeOutput_posts ctx _ o.asset stake false 0 total o.state).bind
    have sums : total + w.outputTotal (o :: rest) =
        (total + o.state.columns?.elim 0 fun c => w.counted o.asset c.amount) +
          w.outputTotal rest := by
      simp [outputTotal, Nat.add_assoc]
    rw [sums]
    exact ih _ _

theorem spendExtra_posts (t : Transaction) (total : Nat) :
    (w.spendExtra ctx t total).Posts
      (w.changesOf ctx (t.extraInputs.elim [] fun extra =>
        Input.postingsFrom t.base.id t.unsigned extra.chain.text [] t.base.inputs.length
          extra.inputs))
      (total + w.inputTotal t.moreInputs) := by
  unfold spendExtra Transaction.moreInputs
  cases t.extraInputs with
  | none => exact .done total
  | some extra => exact w.spendInputs_posts ctx _ _ _ _ _ _ _

theorem placeExtra_posts (t : Transaction) (total : Nat) :
    (w.placeExtra ctx t total).Posts
      (w.changesOf ctx (t.extraOutputs.elim [] fun extra =>
        Output.postingsFrom t.base.id extra.chain.text extra.stake t.base.outputs.length
          extra.outputs))
      (total + w.outputTotal t.moreOutputs) := by
  unfold placeExtra Transaction.moreOutputs
  cases t.extraOutputs with
  | none => exact .done total
  | some extra => exact w.placeOutputs_posts ctx _ _ _ _ _ _

/-- A transaction that is indexed has staged its postings and nothing else. -/
theorem indexTransaction_posts (t : Transaction) :
    (w.indexTransaction ctx t).Posts (w.changesOf ctx (w.postings t)) () := by
  rw [indexTransaction_eq]
  simp only [postings, spendPostings, placePostings, changesOf_append, List.append_assoc]
  apply (w.spendInputs_posts ctx _ _ _ _ _ _ _).bind
  apply (w.spendExtra_posts ctx t _).bind
  apply (w.placeOutputs_posts ctx _ _ _ _ _ _).bind
  apply (w.placeExtra_posts ctx t _).bind
  apply Posts.ofExcept_bind
  intro fee stored
  have same : w.feeOf t = fee := by
    simp only [Nat.zero_add] at stored
    simp [feeOf, stored, Except.toOption]
  rw [same]
  exact .stage _

theorem consume_posts (content : Identifier) (p : Payload) :
    (w.consume ctx content p).Posts (w.changesOf ctx (w.postingsOf content p)) () := by
  cases p with
  | block b =>
    rw [postingsOf, changesOf_flatMap]
    exact .forM (w.indexTransaction_posts ctx) _
  | trace t => exact .stage _
  | log l => exact .stage _

end Writer

theorem Rewards.payOut_posts (s : Settings) (r : PendingReward) (o : PlacedOutput) :
    (payOut s r o).Posts
      ((writer s).changesOf ⟨r.created, s.overwrite⟩ (o.postings (writer s).chain)) () := by
  have placed := (writer s).placeOutput_posts ⟨r.created, s.overwrite⟩
    ⟨o.transaction, o.index, (writer s).chain⟩ o.asset false false 0 0 o.state
  have written := placed.bind (k := fun _ => .done ()) (.done ())
  rw [List.append_nil] at written
  exact written

theorem Rewards.payOut_steady (s : Settings) (r : PendingReward) (o : PlacedOutput) :
    (payOut s r o).Steady :=
  ((writer s).placeOutput_steady _ _ _ _ _ _ _ _).bind fun _ => .done ()

end LedgerIndex
