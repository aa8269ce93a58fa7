import LedgerIndex.Proofs.Checks
import LedgerIndex.Proofs.Payouts

/-!
# The order of rows

The rows of a transaction are written in an order in which nothing stands before what it rests on.
Where an output stands, the rows of its owners are written; where a redemption stands, the output
is marked; where a transaction stands, everything of it is written. So however a session is cut
short, a row that is there speaks for all that belongs to it.
-/
namespace LedgerIndex

/-- Wherever the changes are cut, the next one rests on those before the cut. -/
def Layered (P : List Change → Change → Prop) (cs : List Change) : Prop :=
  ∀ before c after, cs = before ++ c :: after → P before c

/-- What a change rests on is not lost when there is more before it. -/
def Stable (P : List Change → Change → Prop) : Prop :=
  ∀ more before c, P before c → P (more ++ before) c

namespace Layered

variable {P : List Change → Change → Prop} {cs ds : List Change}

theorem nil : Layered P [] :=
  fun before _ _ cut => by cases before <;> cases cut

theorem append (stable : Stable P) (first : Layered P cs) (second : Layered P ds) :
    Layered P (cs ++ ds) := by
  intro before c after cut
  rcases List.append_eq_append_iff.mp cut with ⟨rest, rfl, later⟩ | ⟨rest, earlier, later⟩
  · exact stable _ _ _ (second rest c after later)
  · cases rest with
    | nil =>
      rw [List.append_nil] at earlier
      rw [← List.append_nil before, ← earlier]
      exact stable _ _ _ (second [] c after later.symm)
    | cons d rest =>
      cases later
      exact first before c rest earlier

theorem concat {c : Change} (h : Layered P cs) (last : P cs c) : Layered P (cs ++ [c]) := by
  intro before d after cut
  rcases List.eq_nil_or_concat after with rfl | ⟨middle, e, rfl⟩
  · obtain ⟨rfl, same⟩ := List.append_inj' cut rfl
    cases same
    exact last
  · rw [List.concat_eq_append, ← List.cons_append, ← List.append_assoc] at cut
    exact h before d middle (List.append_inj' cut rfl).1

theorem flatMap (stable : Stable P) {γ : Type} {xs : List γ} {f : γ → List Change}
    (each : ∀ x ∈ xs, Layered P (f x)) : Layered P (xs.flatMap f) := by
  induction xs with
  | nil => exact nil
  | cons x xs ih =>
    exact append stable (each x List.mem_cons_self)
      (ih fun y later => each y (List.mem_cons_of_mem x later))

theorem of_free (free : ∀ c ∈ cs, ∀ before, P before c) : Layered P cs := by
  rintro before c after rfl
  exact free c (by simp) before

end Layered

namespace Placement

def ownerPostings (p : Placement) : List Posting :=
  p.output.state.owners.flatMap fun a => [.tie p.place a none, .activity p.place p.output.asset a]

def row? (p : Placement) (time : Timestamp) : Option OutputRow :=
  p.output.state.columns?.map fun c => c.row p.place p.output.asset p.stake false time

end Placement

namespace Writer

variable (w : Writer) (ctx : Context)

/-- The rows of an output: its owners one by one, and then the output. -/
def placementRows (p : Placement) : List Change :=
  w.changesOf ctx p.ownerPostings ++
    ((p.row? ctx.time).map fun row => .output row ctx.overwrite).toList

/-- The rows of everything that belongs to a transaction: input by input its signers, the mark and
the redemption, and output by output its owners and the output. -/
def rowsBeneath (t : Transaction) : List Change :=
  (t.base.inputs.zipIdx.flatMap fun (i, n) =>
    (t.signersOf i n).flatMap (fun a => w.changesOf ctx (a.postings w.chain)) ++
      [.spent i.output, .redemption (redemption t.base.id w.chain ctx.time i)]) ++
  (t.extraInputs.elim [] fun extra => extra.inputs.flatMap fun i =>
    [.spent i.output, .redemption (redemption t.base.id extra.chain.text ctx.time i)]) ++
  (t.placements w).flatMap (w.placementRows ctx)

def rows (t : Transaction) : List Change :=
  w.rowsBeneath ctx t ++ [.transaction (w.transactionRow ctx t (w.feeOf t)) ctx.overwrite]

theorem changesOf_placement (p : Placement) :
    w.changesOf ctx p.postings = w.placementRows ctx p := by
  unfold placementRows Placement.postings OutputState.postings Placement.ownerPostings
    Placement.row?
  rw [OutputState.owners_eq]
  cases p.output.state.columns? with
  | none => rfl
  | some c =>
    rw [changesOf_append]
    rfl

theorem changesOf_postings (t : Transaction) : w.changesOf ctx (w.postings t) = w.rows ctx t := by
  have base : w.changesOf ctx
      (Input.postingsFrom t.base.id t.unsigned w.chain t.credentials 0 t.base.inputs) =
        t.base.inputs.zipIdx.flatMap fun (i, n) =>
          (t.signersOf i n).flatMap (fun a => w.changesOf ctx (a.postings w.chain)) ++
            [.spent i.output, .redemption (redemption t.base.id w.chain ctx.time i)] := by
    rw [Input.postingsFrom_eq, changesOf_flatMap]
    refine List.flatMap_congr fun (i, n) _ => ?_
    rw [changesOf_append, changesOf_flatMap]
    rfl
  have more : w.changesOf ctx (t.extraInputs.elim [] fun extra => Input.postingsFrom t.base.id
      t.unsigned extra.chain.text [] t.base.inputs.length extra.inputs) =
        t.extraInputs.elim [] fun extra => extra.inputs.flatMap fun i =>
          [.spent i.output, .redemption (redemption t.base.id extra.chain.text ctx.time i)] := by
    cases t.extraInputs with
    | none => rfl
    | some extra =>
      simp only [Option.elim_some, Input.postingsFrom_nil, changesOf, List.flatMap_map]
      rfl
  have placed : w.changesOf ctx (w.placePostings t) =
      (t.placements w).flatMap (w.placementRows ctx) := by
    rw [placePostings_eq, changesOf_flatMap]
    exact List.flatMap_congr fun p _ => w.changesOf_placement ctx p
  rw [postings, spendPostings, changesOf_append, changesOf_append, changesOf_append, base, more,
    placed]
  rfl

end Writer

def Change.isFree : Change → Bool
  | .output .. | .redemption _ | .transaction .. => false
  | _ => true

namespace Writer

variable (w : Writer) (ctx : Context)

/-- What a row rests on stands right before it: the rows of the owners before an output, the mark
before a redemption, and all that belongs to a transaction before the transaction. -/
def Rests (ts : List Transaction) (before : List Change) : Change → Prop
  | .output row _ => ∃ t ∈ ts, ∃ p ∈ t.placements w,
      p.row? ctx.time = some row ∧ w.changesOf ctx p.ownerPostings <:+ before
  | .redemption row => [.spent row.id] <:+ before
  | .transaction row _ => ∃ t ∈ ts,
      row = w.transactionRow ctx t (w.feeOf t) ∧ w.rowsBeneath ctx t <:+ before
  | _ => True

theorem rests_stable (ts : List Transaction) : Stable (w.Rests ctx ts) := by
  intro more before c rests
  have longer {cs : List Change} (h : cs <:+ before) : cs <:+ more ++ before :=
    h.trans (List.suffix_append more before)
  cases c with
  | output row overwrite =>
    obtain ⟨t, member, p, placed, row, owners⟩ := rests
    exact ⟨t, member, p, placed, row, longer owners⟩
  | redemption row => exact longer rests
  | transaction row overwrite =>
    obtain ⟨t, member, row, beneath⟩ := rests
    exact ⟨t, member, row, longer beneath⟩
  | _ => trivial

variable {w ctx} {ts : List Transaction}

theorem layered_of_free {cs : List Change} (free : cs.all Change.isFree = true) :
    Layered (w.Rests ctx ts) cs := by
  apply Layered.of_free
  intro c member before
  have loose := List.all_eq_true.mp free c member
  cases c with
  | output row overwrite => cases loose
  | redemption row => cases loose
  | transaction row overwrite => cases loose
  | _ => trivial

theorem layered_spend (spender : Identifier) (chain : String) (i : Input) :
    Layered (w.Rests ctx ts)
      [.spent i.output, .redemption (redemption spender chain ctx.time i)] := by
  have marked : Layered (w.Rests ctx ts) [.spent i.output] := layered_of_free rfl
  exact marked.concat (c := .redemption (redemption spender chain ctx.time i))
    (List.suffix_refl [Change.spent i.output])

theorem layered_placement {t : Transaction} (member : t ∈ ts) {p : Placement}
    (placed : p ∈ t.placements w) : Layered (w.Rests ctx ts) (w.placementRows ctx p) := by
  have owners : Layered (w.Rests ctx ts) (w.changesOf ctx p.ownerPostings) := by
    rw [Placement.ownerPostings, changesOf_flatMap]
    exact .flatMap (w.rests_stable ctx ts) fun _ _ => layered_of_free rfl
  unfold placementRows
  cases shown : p.row? ctx.time with
  | none =>
    rw [Option.map_none, Option.toList_none, List.append_nil]
    exact owners
  | some row => exact owners.concat ⟨t, member, p, placed, shown, List.suffix_refl _⟩

theorem layered_rows {t : Transaction} (member : t ∈ ts) :
    Layered (w.Rests ctx ts) (w.rows ctx t) := by
  have stable := w.rests_stable ctx ts
  have base : Layered (w.Rests ctx ts) (t.base.inputs.zipIdx.flatMap fun (i, n) =>
      (t.signersOf i n).flatMap (fun a => w.changesOf ctx (a.postings w.chain)) ++
        [.spent i.output, .redemption (redemption t.base.id w.chain ctx.time i)]) := by
    refine .flatMap stable fun (i, n) _ => .append stable ?_ (layered_spend _ _ i)
    exact .flatMap stable fun _ _ => layered_of_free rfl
  have more : Layered (w.Rests ctx ts) (t.extraInputs.elim [] fun extra =>
      extra.inputs.flatMap fun i =>
        [.spent i.output, .redemption (redemption t.base.id extra.chain.text ctx.time i)]) := by
    cases t.extraInputs with
    | none => exact .nil
    | some extra => exact .flatMap stable fun i _ => layered_spend _ _ i
  have placed : Layered (w.Rests ctx ts) ((t.placements w).flatMap (w.placementRows ctx)) :=
    .flatMap stable fun p placed => layered_placement member placed
  exact ((base.append stable more).append stable placed).concat
    ⟨t, member, rfl, List.suffix_refl _⟩

end Writer

def signerTables : List TableName :=
  [.addresses, .presence, .displays, .outgoing, .incoming, .holdings, .holdings]

def spendTables : List TableName :=
  [.incoming, .redemptions]

def ownerTables : List TableName :=
  [.presence, .displays, .outgoing, .incoming, .holdings, .activity]

def Transaction.tables (t : Transaction) : List TableName :=
  (t.base.inputs.zipIdx.flatMap fun (_, n) =>
    (Credential.signaturesAt t.credentials n).flatMap (fun _ => signerTables) ++ spendTables) ++
  t.moreInputs.flatMap (fun _ => spendTables) ++
  (t.base.outputs ++ t.moreOutputs).flatMap (fun o =>
    o.state.owners.flatMap (fun _ => ownerTables) ++ [.outputs]) ++
  [.transactions]

theorem Transaction.map_output_placements_eq (t : Transaction) (w : Writer) :
    (t.placements w).map (·.output) = t.base.outputs ++ t.moreOutputs := by
  unfold placements moreOutputs
  cases t.extraOutputs <;> simp [Function.comp_def]

/-- Every signature of a transaction that passes the checks has a signer. -/
theorem Transaction.flatMap_signersOf {γ : Type} {t : Transaction} {w : Writer}
    (accepts : w.Accepts t) {i : Input} {n : Nat} (at_ : t.base.inputs[n]? = some i) (xs : List γ) :
    ((t.signersOf i n).flatMap fun _ => xs) =
      (Credential.signaturesAt t.credentials n).flatMap fun _ => xs := by
  rw [signersOf, List.filterMap_eq_flatMap_toList, List.flatMap_assoc]
  refine List.flatMap_congr fun signature given => ?_
  obtain ⟨key, recovered, -⟩ := accepts.signers n i signature at_ given
  simp [recovered, Except.toOption]

namespace Writer

variable {w : Writer} (ctx : Context)

theorem tables_placement {p : Placement} (places : w.CanPlace p.output.state) :
    (w.placementRows ctx p).map Change.table =
      p.output.state.owners.flatMap (fun _ => ownerTables) ++ [.outputs] := by
  obtain ⟨c, columns, -⟩ := places
  unfold placementRows Placement.row? Placement.ownerPostings
  rw [columns, changesOf_flatMap, List.map_append, List.map_flatMap]
  rfl

theorem tables_rows {t : Transaction} (accepts : w.Accepts t) :
    (w.rows ctx t).map Change.table = t.tables := by
  have base : (t.base.inputs.zipIdx.flatMap fun (i, n) =>
      (t.signersOf i n).flatMap (fun a => w.changesOf ctx (a.postings w.chain)) ++
        [.spent i.output, .redemption (redemption t.base.id w.chain ctx.time i)]).map
          Change.table = t.base.inputs.zipIdx.flatMap fun (_, n) =>
            (Credential.signaturesAt t.credentials n).flatMap (fun _ => signerTables) ++
              spendTables := by
    rw [List.map_flatMap]
    refine List.flatMap_congr fun (i, n) member => ?_
    dsimp only
    rw [← t.flatMap_signersOf accepts (List.mem_zipIdx_iff_getElem?.mp member), List.map_append,
      List.map_flatMap]
    rfl
  have more : (t.extraInputs.elim [] fun extra => extra.inputs.flatMap fun i =>
      [.spent i.output, .redemption (redemption t.base.id extra.chain.text ctx.time i)]).map
        Change.table = t.moreInputs.flatMap fun _ => spendTables := by
    unfold Transaction.moreInputs
    cases t.extraInputs with
    | none => rfl
    | some extra =>
      rw [Option.elim_some, List.map_flatMap]
      rfl
  have placed : ((t.placements w).flatMap (w.placementRows ctx)).map Change.table =
      (t.base.outputs ++ t.moreOutputs).flatMap fun o =>
        o.state.owners.flatMap (fun _ => ownerTables) ++ [.outputs] := by
    rw [← t.map_output_placements_eq w, List.map_flatMap, List.flatMap_map]
    refine List.flatMap_congr fun p member => w.tables_placement ctx (accepts.outputs _ ?_)
    rw [← t.map_output_placements_eq w]
    exact List.mem_map_of_mem member
  rw [rows, rowsBeneath, List.map_append, List.map_append, List.map_append, base, more, placed]
  rfl

end Writer

namespace Work.Fills

/-- A session that is full of a block holds the rows of its transactions, one after another, and
its commit names the tables they are written to. Each row comes right after what it rests on. So
however the session is cut short, what a row rests on is there if the row is. -/
theorem ordered {w : Writer} {ctx : Context} {content : Identifier} {b : Block}
    {session : Session} (filled : (message w ctx content (.block b)).Fills session)
    (store : Store) :
    session.staged = b.transactions.flatMap (w.rows ctx) ∧
    (store.commit session).writes = store.writes ++ b.transactions.flatMap Transaction.tables ∧
    (∀ before c after, session.staged = before ++ c :: after →
      w.Rests ctx b.transactions before c) ∧
    ∀ cut, cut <+: session.staged → ∀ c ∈ cut, ∃ before,
      w.Rests ctx b.transactions before c ∧
        ∀ d ∈ before, d.Creates → d.Present (Change.applyAll store.tables cut) := by
  have posted : session.staged = w.changesOf ctx (b.transactions.flatMap w.postings) :=
    filled.staged_eq
  have staged : session.staged = b.transactions.flatMap (w.rows ctx) := by
    rw [posted, Writer.changesOf_flatMap]
    exact List.flatMap_congr fun t _ => w.changesOf_postings ctx t
  have layered : Layered (w.Rests ctx b.transactions) session.staged := by
    rw [staged]
    exact .flatMap (w.rests_stable ctx _) fun t member => Writer.layered_rows member
  refine ⟨staged, ?_, layered, ?_⟩
  · refine congrArg (store.writes ++ ·) ?_
    rw [staged, List.map_flatMap]
    refine List.flatMap_congr fun t member => ?_
    obtain ⟨cs, indexed, -⟩ := filled.yields.of_forM member
    exact w.tables_rows ctx (Writer.accepts_of_yields indexed).1
  · rintro cut ⟨rest, whole⟩ c member
    obtain ⟨before, after, rfl⟩ := List.append_of_mem member
    refine ⟨before, layered before c (after ++ rest) (by simp [← whole]), ?_⟩
    intro d earlier creates
    exact Change.present_applyAll (List.mem_append_left _ earlier) creates store.tables

/-- The output of one transaction is spent by the next. -/
theorem ordered_fundedAndSpent : ∃ session,
    (Work.block [.funding, .spending]).Fills session ∧
      (Store.empty.commit session).writes =
        [.presence, .displays, .outgoing, .incoming, .holdings, .activity, .outputs,
          .transactions, .incoming, .redemptions, .transactions] := by
  have filled : (Work.block [.funding, .spending]).Fills _ := .of_run (by decide +kernel)
  obtain ⟨-, writes, -⟩ := ordered filled .empty
  exact ⟨_, filled, writes⟩

end Work.Fills
end LedgerIndex
