import LedgerIndex.Proofs.History
import LedgerIndex.Proofs.Inquiries
import LedgerIndex.Proofs.Permanence
import LedgerIndex.Proofs.Redelivery
import LedgerIndex.Proofs.WriteOnce

/-!
# Payouts

A payout creates outputs and ties their owners to them; it spends nothing. Once it has been
committed, every row that it writes is there, and committing it once more changes nothing: not
as long as no other session is committed in between, and where rows are not written over not
ever.
-/
namespace LedgerIndex

/-- A row that is there is not written over, if that leaves it as it is. -/
theorem Table.put_of_mem {κ ν : Type} [Ord κ] [Std.TransOrd κ] [Std.LawfulEqOrd κ] [DecidableEq κ]
    {t : Table κ ν} {k : κ} (known : k ∈ t) (new : ν) {conflict : ν → ν}
    (same : ∀ old, conflict old = old) : t.put k new conflict = t := by
  ext k' : 1
  rw [getElem?_put]
  by_cases here : k = k'
  · subst here
    obtain ⟨row, found⟩ := mem_iff_getElem?.mp known
    rw [if_pos rfl, found]
    exact congrArg some (same row)
  · rw [if_neg here]

namespace Change

/-- Where rows are not written over, one that is there stays. -/
theorem apply_of_present {t : Tables} {c : Change} (h : c.Present t) (keeps : c.Follows false) :
    c.apply t = t := by
  cases c with
  | signature output address value => exact h.elim
  | spent output => exact h.elim
  | transaction row overwrite =>
    cases keeps
    exact congrArg (fun x => { t with transactions := x }) (Table.put_of_mem h _ fun _ => rfl)
  | output row overwrite =>
    cases keeps
    exact congrArg (fun x => { t with outputs := x }) (Table.put_of_mem h _ fun _ => rfl)
  | redemption row =>
    exact congrArg (fun x => { t with redemptions := x }) (Table.put_of_mem h _ fun _ => rfl)
  | address row overwrite =>
    cases keeps
    exact congrArg (fun x => { t with addresses := x }) (Table.put_of_mem h _ fun _ => rfl)
  | presence row overwrite =>
    cases keeps
    exact congrArg (fun x => { t with presence := x }) (Table.put_of_mem h _ fun _ => rfl)
  | display row overwrite =>
    cases keeps
    exact congrArg (fun x => { t with displays := x }) (Table.put_of_mem h _ fun _ => rfl)
  | holding row overwrite =>
    cases keeps
    exact congrArg (fun x => { t with holdings := x }) (Table.put_of_mem h _ fun _ => rfl)
  | outgoing row =>
    exact congrArg (fun x => { t with outgoing := x }) (Table.put_of_mem h _ fun _ => rfl)
  | incoming row =>
    exact congrArg (fun x => { t with incoming := x }) (Table.put_of_mem h _ fun _ => rfl)
  | activity row =>
    exact congrArg (fun x => { t with activity := x }) (Table.put_of_mem h _ fun _ => rfl)
  | trace row overwrite =>
    cases keeps
    exact congrArg (fun x => { t with traces := x }) (Table.put_of_mem h _ fun _ => rfl)
  | log row overwrite =>
    cases keeps
    exact congrArg (fun x => { t with logs := x }) (Table.put_of_mem h _ fun _ => rfl)

theorem applyAll_of_present {t : Tables} {cs : List Change}
    (h : ∀ c ∈ cs, c.Present t ∧ c.Follows false) : applyAll t cs = t := by
  induction cs with
  | nil => rfl
  | cons c cs ih =>
    obtain ⟨present, keeps⟩ := h c List.mem_cons_self
    rw [applyAll_cons, apply_of_present present keeps]
    exact ih fun d member => h d (List.mem_cons_of_mem c member)

theorem Repeatable.of_creates {cs : List Change} (h : ∀ c ∈ cs, c.Creates) :
    Repeatable [] cs where
  signed := .of_unsigned fun _ _ _ member => h _ member
  late := by
    rintro delta ⟨pre, post, rfl, spent, -⟩
    exact (h _ (List.mem_append_left _ spent)).elim

/-- What the change writes to is the same in both tables. -/
def SameRow (t t' : Tables) : Change → Prop
  | transaction row _ => t'.transactions[row.id]? = t.transactions[row.id]?
  | output row _ => t'.outputs[row.id]? = t.outputs[row.id]?
  | redemption row => t'.redemptions[row.id]? = t.redemptions[row.id]?
  | address row _ => t'.addresses[row.address]? = t.addresses[row.address]?
  | presence row _ => t'.presence[(row.address, row.chain)]? = t.presence[(row.address, row.chain)]?
  | display row _ => t'.displays[row.address]? = t.displays[row.address]?
  | holding row _ =>
    t'.holdings[(row.output, row.address)]? = t.holdings[(row.output, row.address)]?
  | signature id owner _ => t'.holdings[(id, owner)]? = t.holdings[(id, owner)]?
  | outgoing row => t'.outgoing[row.id]? = t.outgoing[row.id]?
  | incoming row => t'.incoming[row.id]? = t.incoming[row.id]?
  | spent _ => t'.incoming = t.incoming
  | activity row => t'.activity[row.id]? = t.activity[row.id]?
  | trace row _ => t'.traces[row.id]? = t.traces[row.id]?
  | log row _ => t'.logs[row.id]? = t.logs[row.id]?

end Change

namespace Facet

variable {κ ν : Type} [Ord κ] [Std.TransOrd κ] [Std.LawfulEqOrd κ] {f : Facet κ ν}
  {cs : List Change} {t t' : Tables}

/-- Changes that leave a table as it is leave another one so that has the same rows at the keys
that they edit. -/
theorem Sound.unchanged (sound : f.Sound) (same : f.table (Change.applyAll t cs) = f.table t)
    (rows : ∀ c ∈ cs, ∀ k e, f.edit c k = some e → (f.table t')[k]? = (f.table t)[k]?) :
    f.table (Change.applyAll t' cs) = f.table t' := by
  ext k : 1
  rw [sound.applyAll]
  cases all : f.edits cs k with
  | nil => rfl
  | cons e es =>
    obtain ⟨pre, c, post, parts, -, edit, -⟩ := exists_first all
    rw [rows c (by simp [parts]) k e edit, ← all, ← sound.applyAll, same]

end Facet

theorem Puts.unchanged {κ ν : Type} [Ord κ] [Std.TransOrd κ] [Std.LawfulEqOrd κ] [DecidableEq κ]
    (p : Puts κ ν) {cs : List Change} {t t' : Tables}
    (same : Change.applyAll t cs = t) (rows : ∀ c ∈ cs, c.SameRow t t')
    (written : ∀ c k new overwrite, p.written c = some (k, new, overwrite) → c.SameRow t t' →
      (p.table t')[k]? = (p.table t)[k]?) :
    p.table (Change.applyAll t' cs) = p.table t' := by
  apply p.sound_facet.unchanged (congrArg p.table same)
  intro c member k e edit
  obtain ⟨⟨k', new, overwrite⟩, writes, here⟩ := Option.bind_eq_some_iff.mp edit
  by_cases hk : k' = k
  · subst hk
    exact written c k' new overwrite writes (rows c member)
  · change (if k' = k then _ else none) = some e at here
    rw [if_neg hk] at here
    cases here

namespace Change

variable {cs : List Change} {t t' : Tables}

theorem holdings_unchanged (same : applyAll t cs = t) (rows : ∀ c ∈ cs, c.SameRow t t') :
    (applyAll t' cs).holdings = t'.holdings := by
  apply Facet.sound_holdings.unchanged (congrArg Tables.holdings same)
  intro c member k e edit
  have row := rows c member
  cases c with
  | holding new overwrite =>
    by_cases hk : (new.output, new.address) = k
    · exact hk ▸ row
    · simp [Facet.holdings, hk] at edit
  | signature id owner value =>
    by_cases hk : (id, owner) = k
    · exact hk ▸ row
    · simp [Facet.holdings, hk] at edit
  | _ => cases edit

theorem incoming_unchanged (same : applyAll t cs = t) (rows : ∀ c ∈ cs, c.SameRow t t') :
    (applyAll t' cs).incoming = t'.incoming := by
  apply Facet.sound_incoming.unchanged (congrArg Tables.incoming same)
  intro c member k e edit
  have row := rows c member
  cases c with
  | incoming delta =>
    by_cases hk : delta.id = k
    · exact hk ▸ row
    · simp [Facet.incoming, hk] at edit
  | spent output =>
    change t'.incoming[k]? = t.incoming[k]?
    rw [show t'.incoming = t.incoming from row]
  | _ => cases edit

/-- Changes that leave all tables as they are leave others so that have the same rows where they
write. -/
theorem unchanged_of_sameRow (same : applyAll t cs = t) (rows : ∀ c ∈ cs, c.SameRow t t') :
    applyAll t' cs = t' := by
  refine Tables.ext (Puts.transactions.unchanged same rows ?_) (Puts.outputs.unchanged same rows ?_)
    (Puts.redemptions.unchanged same rows ?_) (Puts.addresses.unchanged same rows ?_)
    (Puts.presence.unchanged same rows ?_) (Puts.displays.unchanged same rows ?_)
    (holdings_unchanged same rows) (Puts.outgoing.unchanged same rows ?_)
    (incoming_unchanged same rows) (Puts.activity.unchanged same rows ?_)
    (Puts.traces.unchanged same rows ?_) (Puts.logs.unchanged same rows ?_)
    (untouched_applyAll t' cs).1 (untouched_applyAll t' cs).2
  all_goals
    -- only the change that puts a row there names the key
    intro c k new overwrite written
    cases c <;> cases written
    exact fun row => row

end Change

/-- The rows that the work writes are as they were committed, or at least none is written over. -/
def Work.Lasts (work : Work) (committed later : Store) : Prop :=
  (∀ c ∈ work.changes, c.SameRow committed.tables later.tables) ∨
    work.context.overwrite = false ∧ committed.Evolves later

/-- Flags, blocks and rewards are in no row that work writes. -/
theorem Work.Lasts.of_tables {work : Work} {committed later : Store}
    (same : later.tables = { committed.tables with
      rewards := later.tables.rewards, blocks := later.tables.blocks }) :
    work.Lasts committed later := by
  refine .inl fun c _ => ?_
  rw [same]
  cases c <;> rfl

/-- A script that asks for nothing goes the same way on every store. -/
theorem Script.Yields.run_eq {α : Type} {script : Script α} {cs : List Change} {a : α}
    (h : script.Yields cs a) (blind : script.Inquires fun _ => False)
    (node : Identifier → List Bytes) (store : Store) (session : Session) :
    ∃ events, script.run node store session = ⟨.ok a, store, ⟨session.staged ++ cs⟩, events⟩ := by
  induction h generalizing session with
  | done a => exact ⟨[], by simp [run]⟩
  | note e _ ih =>
    cases blind with
    | note _ blind =>
      obtain ⟨events, ended⟩ := ih blind session
      exact ⟨e :: events, by simp [run, ended]⟩
  | @stage c next cs a _ ih =>
    cases blind with
    | stage _ blind =>
      obtain ⟨events, ended⟩ := ih blind (session.stage c)
      refine ⟨events, Eq.trans ended ?_⟩
      simp [Session.stage]
  | consume t _ ih =>
    cases blind with
    | consume _ blind => exact ih blind session
  | consumed t _ ih =>
    cases blind with
    | consumed _ blind => exact ih blind session
  | outputExists id known _ _ =>
    cases blind with
    | outputExists asked _ => exact asked.elim

def PlacedOutput.id (o : PlacedOutput) : Identifier :=
  o.transaction.derive o.index.toUInt64

/-- An output that has been paid out is among what was staged. -/
theorem Rewards.payOut_stored {s : Settings} {r : PendingReward} {o : PlacedOutput}
    {cs : List Change} (h : (payOut s r o).Yields cs ()) :
    ∃ row, .output row s.overwrite ∈ cs ∧ row.id = o.id := by
  obtain ⟨rfl, -⟩ := payOut_posts s r o cs () h
  cases columns : o.state.columns? with
  | none =>
    simp only [payOut, Writer.placeOutput, columns] at h
    cases h
  | some c =>
    let place : Place := ⟨o.transaction, o.index, (writer s).chain⟩
    refine ⟨c.row place o.asset false false r.created, List.mem_flatMap.mpr ?_, rfl⟩
    refine ⟨.output place o.asset false false c, ?_, List.mem_singleton_self _⟩
    simp [PlacedOutput.postings, OutputState.postings, columns, place]

namespace Work

variable {s : Settings} {r : PendingReward} {outputs : List PlacedOutput} {session : Session}

theorem payout_creates (s : Settings) (r : PendingReward) (outputs : List PlacedOutput) :
    ∀ c ∈ (payout s r outputs).changes, c.Creates := by
  intro c staged
  obtain ⟨posting, posted, made⟩ := List.mem_flatMap.mp staged
  obtain ⟨o, -, posted⟩ := List.mem_flatMap.mp posted
  obtain ⟨owner, rfl⟩ | ⟨owner, rfl⟩ | ⟨c, rfl⟩ := OutputState.cases_of_mem_postings posted
  · simp only [Writer.changes, Option.isSome_none, Bool.false_eq_true, if_false,
      List.append_nil, List.mem_cons, List.not_mem_nil, or_false] at made
    rcases made with rfl | rfl | rfl | rfl | rfl <;> trivial
  · obtain rfl := List.mem_singleton.mp made
    trivial
  · obtain rfl := List.mem_singleton.mp made
    trivial

/-- A payout that has been committed can be committed again, and then changes no row. -/
theorem Fills.payout_again (filled : (payout s r outputs).Fills session) {again : Session}
    (refilled : (payout s r outputs).Fills again) {store later : Store}
    (lasts : (payout s r outputs).Lasts (store.commit session) later) :
    (later.commit again).tables = later.tables := by
  change Change.applyAll later.tables again.staged = later.tables
  rw [refilled.staged_eq]
  have creates := payout_creates s r outputs
  have committed : (store.commit session).tables =
      Change.applyAll store.tables (payout s r outputs).changes := by
    rw [← filled.staged_eq]
    rfl
  rcases lasts with rows | ⟨off, evolves⟩
  · refine Change.unchanged_of_sameRow ?_ rows
    rw [committed]
    exact ((Change.Repeatable.of_creates creates).absorbed store.tables).unchanged
      fun id ⟨_, _, _, _, _, nothing, _⟩ => by simp at nothing
  · apply Change.applyAll_of_present
    intro c staged
    constructor
    · have present := Change.present_applyAll staged (creates c staged) store.tables
      rw [← committed] at present
      exact present.within evolves.within
    · have follows := (payout s r outputs).writer.follows_changesOf _ _ c staged
      rwa [off] at follows

/-- A payout that has been staged is staged again on any store. -/
theorem Fills.payout_run (filled : (payout s r outputs).Fills session)
    (node : Identifier → List Bytes) (store : Store) :
    ∃ events, (outputs.forM (Rewards.payOut s r)).run node store .empty =
      ⟨.ok (), store, session, events⟩ := by
  have blind : (outputs.forM (Rewards.payOut s r)).Inquires fun _ => False :=
    .forM fun o _ => ((Rewards.writer s).placeOutput_inquires _ _ _ _ _ _ _ _).bind
      fun _ => .done ()
  exact filled.yields.run_eq blind node store .empty

/-- A payout that has been committed has stored all of its outputs. -/
theorem Fills.payout_stored (filled : (payout s r outputs).Fills session) (store : Store)
    {o : PlacedOutput} (member : o ∈ outputs) :
    o.id ∈ (store.commit session).tables.outputs := by
  obtain ⟨cs, paid, among⟩ := Script.Yields.of_forM filled.yields member
  obtain ⟨row, staged, named⟩ := Rewards.payOut_stored paid
  rw [← named]
  exact Change.present_applyAll (among _ staged) trivial store.tables

end Work
end LedgerIndex
