import LedgerIndex.Proofs.History
import LedgerIndex.Proofs.Rows
import Mathlib.Data.Set.Insert

/-!
# Strict writers

Whether an output is known is asked when its spend is staged, and the spend shows only when its
session is committed. In between other sessions are committed or given up. Still, an output that
was known is there then: it is in the store, from which no output is ever removed, or it is
staged in the same session, which is committed as a whole. So where all writers of a chain are
strict, no redemption of that chain is without its output, however sessions interleave.
-/
namespace LedgerIndex

namespace Script

variable {α β : Type} {c : String} {known more : Set Identifier}

/-- The script redeems an output of the chain only if it is among those known beforehand or those
it has been told of since. -/
inductive Cautious (c : String) : Set Identifier → Script α → Prop
  | done {known : Set Identifier} (a : α) : Cautious c known (.done a)
  | fail {known : Set Identifier} (f : Failure) : Cautious c known (.fail f)
  | note {known : Set Identifier} (e : Event) {next : Script α} :
    Cautious c known next → Cautious c known (.note e next)
  | stage {known : Set Identifier} {change : Change} {next : Unit → Script α} :
    (∀ row, change = .redemption row → row.chain = c → row.id ∈ known) →
      Cautious c known (next ()) → Cautious c known (.ask (.stage change) next)
  | outputExists {known : Set Identifier} {id : Identifier} {next : Bool → Script α} :
    Cautious c (insert id known) (next true) → Cautious c known (next false) →
      Cautious c known (.ask (.outputExists id) next)

namespace Cautious

theorem mono {s : Script α} (h : s.Cautious c known) (sub : known ⊆ more) :
    s.Cautious c more := by
  induction h generalizing more with
  | done a => exact .done a
  | fail f => exact .fail f
  | note e _ ih => exact .note e (ih sub)
  | stage backed _ ih =>
    exact .stage (fun row redeems own => sub (backed row redeems own)) (ih sub)
  | outputExists _ _ told untold =>
    exact .outputExists (told (Set.insert_subset_insert sub)) (untold sub)

theorem bind {s : Script α} {k : α → Script β} (hs : s.Cautious c known)
    (hk : ∀ a, (k a).Cautious c known) : (s.bind k).Cautious c known := by
  induction hs with
  | done a => exact hk a
  | fail f => exact .fail f
  | note e _ ih => exact .note e (ih hk)
  | stage backed _ ih => exact .stage backed (ih hk)
  | outputExists _ _ told untold =>
    exact .outputExists (told fun a => (hk a).mono (Set.subset_insert _ _)) (untold hk)

theorem call_stage {change : Change} (other : ∀ row, change ≠ .redemption row) :
    (Script.stage change).Cautious c known :=
  .stage (fun row redeems => absurd redeems (other row)) (.done ())

theorem ofExcept (x : Except Failure α) : (Script.ofExcept x).Cautious c known := by
  cases x with
  | ok a => exact .done a
  | error f => exact .fail f

theorem forM {γ : Type} {f : γ → Script Unit} (hf : ∀ x, (f x).Cautious c known) (xs : List γ) :
    (xs.forM f).Cautious c known := by
  induction xs with
  | nil => exact .done ()
  | cons x xs ih => exact (hf x).bind fun _ => ih

end Cautious
end Script

namespace Writer

open Script

variable (w : Writer) (ctx : Context) {c : String} {known : Set Identifier}

theorem linkAddress_cautious (output : Identifier) (place : Place) (address : Address)
    (signature : Option Bytes) :
    (w.linkAddress ctx output place address signature).Cautious c known := by
  refine (Cautious.call_stage (by simp)).bind fun _ => (Cautious.ofExcept _).bind fun _ =>
    (Cautious.call_stage (by simp)).bind fun _ => (Cautious.call_stage (by simp)).bind fun _ =>
    (Cautious.call_stage (by simp)).bind fun _ => (Cautious.call_stage (by simp)).bind fun _ => ?_
  split
  · exact .call_stage (by simp)
  · exact .done ()

theorem placeOutput_cautious (place : Place) (asset : Identifier) (stake genesis : Bool)
    (amount total : Nat) (state : OutputState) :
    (w.placeOutput ctx place asset stake genesis amount total state).Cautious c known := by
  have owner (address : Address) : (w.linkOwner ctx place asset address).Cautious c known :=
    (w.linkAddress_cautious ctx _ _ _ _).bind fun _ => .call_stage (by simp)
  unfold placeOutput
  split
  · exact .fail _
  · exact (Cautious.ofExcept _).bind fun _ => (Cautious.ofExcept _).bind fun _ =>
      (Cautious.forM owner _).bind fun _ =>
      (Cautious.call_stage (by simp)).bind fun _ => .done _

theorem placeOutputs_cautious (transaction : Identifier) (chain : String) (stake : Bool)
    (position total : Nat) (os : List Output) :
    (w.placeOutputs ctx transaction chain stake position total os).Cautious c known := by
  induction os generalizing position total with
  | nil => exact .done total
  | cons o rest ih =>
    exact (Cautious.ofExcept _).bind fun _ =>
      (w.placeOutput_cautious ctx _ _ _ _ _ _ _).bind fun _ => ih _ _

variable {w}

/-- A strict writer goes on only if the output is known, where it belongs to its own chain. -/
theorem checkSpent_bind_cautious {β : Type} (own : w.chain = c) (strict : w.strict = true)
    {chain : String} {i : Input} {k : Unit → Script β}
    (hk : (k ()).Cautious c {id | id ∈ known ∨ chain = c ∧ id = i.output}) :
    ((w.checkSpent chain i).bind k).Cautious c known := by
  unfold checkSpent
  by_cases same : chain = w.chain
  · rw [if_pos same, strict]
    apply Cautious.outputExists
    · apply hk.mono
      rintro id (before | ⟨-, rfl⟩)
      · exact Set.mem_insert_of_mem _ before
      · exact Set.mem_insert _ _
    · exact .fail _
  · rw [if_neg same]
    apply hk.mono
    rintro id (before | ⟨foreign, -⟩)
    · exact before
    · exact absurd (foreign.trans own.symm) same

theorem spendInput_cautious (own : w.chain = c) (strict : w.strict = true) (spender : Identifier)
    (unsigned : Bytes) (chain : String) (credentials : List Credential) (position : Nat)
    (i : Input) :
    (w.spendInput ctx spender unsigned chain credentials position i).Cautious c known := by
  have signer (known : Set Identifier) (signature : Bytes) :
      (w.attributeSigner ctx unsigned chain i signature).Cautious c known :=
    (Cautious.ofExcept _).bind fun _ =>
      ((Cautious.call_stage (by simp)).bind fun _ => .done _).bind fun _ =>
      w.linkAddress_cautious ctx _ _ _ _
  apply checkSpent_bind_cautious own strict
  refine (Cautious.ofExcept _).bind fun _ => (Cautious.forM (signer _) _).bind fun _ =>
    (Cautious.call_stage (by simp)).bind fun _ => .stage ?_ (.done ())
  rintro row ⟨⟩ redeemed
  exact .inr ⟨redeemed, rfl⟩

theorem spendInputs_cautious (own : w.chain = c) (strict : w.strict = true) (spender : Identifier)
    (unsigned : Bytes) (chain : String) (credentials : List Credential) (position total : Nat)
    (is : List Input) :
    (w.spendInputs ctx spender unsigned chain credentials position total is).Cautious c known := by
  induction is generalizing position total with
  | nil => exact .done total
  | cons i rest ih =>
    exact (Cautious.ofExcept _).bind fun _ =>
      (spendInput_cautious ctx own strict _ _ _ _ _ _).bind fun _ => ih _ _

theorem indexTransaction_cautious (own : w.chain = c) (strict : w.strict = true)
    (t : Transaction) : (w.indexTransaction ctx t).Cautious c known := by
  have extraInputs (total : Nat) : (w.spendExtra ctx t total).Cautious c known := by
    unfold spendExtra
    split
    · exact .done total
    · exact spendInputs_cautious ctx own strict _ _ _ _ _ _ _
  have extraOutputs (total : Nat) : (w.placeExtra ctx t total).Cautious c known := by
    unfold placeExtra
    split
    · exact .done total
    · exact w.placeOutputs_cautious ctx _ _ _ _ _ _
  rw [indexTransaction_eq]
  exact (spendInputs_cautious ctx own strict _ _ _ _ _ _ _).bind fun _ => (extraInputs _).bind fun _ =>
    (w.placeOutputs_cautious ctx _ _ _ _ _ _).bind fun _ => (extraOutputs _).bind fun _ =>
    (Cautious.ofExcept _).bind fun _ => .call_stage (by simp)

end Writer

namespace Work

/-- If the work is a block, its writer belongs to the chain and is strict. -/
def StrictOn (c : String) : Work → Prop
  | message w _ _ (.block _) => w.chain = c ∧ w.strict = true
  | _ => True

theorem StrictOn.cautious {c : String} {work : Work} (h : work.StrictOn c) :
    work.script.Cautious c ∅ := by
  cases work with
  | message w ctx content payload =>
    cases payload with
    | block b => exact .forM (Writer.indexTransaction_cautious ctx h.1 h.2) _
    | trace t => exact .call_stage (by simp)
    | log l => exact .call_stage (by simp)
  | payout s r outputs =>
    exact .forM (fun o => ((Rewards.writer s).placeOutput_cautious _ _ _ _ _ _ _ _).bind
      fun _ => .done ()) _

end Work

namespace Store

theorem outputExists_stage {store : Store} {s : Session} {id : Identifier}
    (h : store.outputExists s id = true) (change : Change) :
    store.outputExists (s.stage change) id = true := by
  simp only [outputExists, Session.stagesOutput, Session.stage, List.any_append, Bool.or_eq_true]
    at h ⊢
  exact h.imp_left .inl

/-- An output that a session knows is there once the session is committed. -/
theorem contains_commit {store : Store} {s : Session} {id : Identifier}
    (h : store.outputExists s id = true) : id ∈ (store.commit s).tables.outputs := by
  rw [Std.ExtTreeMap.mem_iff_contains]
  rcases (Bool.or_eq_true _ _).mp h with staged | stored
  · obtain ⟨change, member, names⟩ := List.any_eq_true.mp staged
    cases change with
    | output row overwrite =>
      obtain rfl : row.id = id := eq_of_beq names
      obtain ⟨pre, post, parts⟩ := List.append_of_mem member
      rw [commit, parts, Change.applyAll_append, Change.applyAll_cons]
      apply Change.contains_output_applyAll
      rw [← Std.ExtTreeMap.mem_iff_contains]
      exact (Table.mem_put _ _ _ _ _).mpr (.inl rfl)
    | _ => exact absurd names Bool.false_ne_true
  · exact Change.contains_output_applyAll _ _ _ stored

end Store

namespace Run

variable {c : String} {store store' : Store} {run : Run Unit}

/-- What the session redeems on the chain is known to it, and its script is cautious on. -/
structure Covered (c : String) (store : Store) (run : Run Unit) : Prop where
  staged : ∀ row, .redemption row ∈ run.session.staged → row.chain = c →
    store.outputExists run.session row.id = true
  rest : run.script.Cautious c {id | store.outputExists run.session id = true}

namespace Covered

theorem start {work : Work} (strict : work.StrictOn c) (store : Store) :
    (Run.start work.script).Covered c store where
  staged := by simp [Run.start, Session.empty]
  rest := strict.cautious.mono (Set.empty_subset _)

theorem resume {work : Work} (h : run.Covered c store) (strict : work.StrictOn c) :
    (Run.mk run.session work.script).Covered c store where
  staged := h.staged
  rest := strict.cautious.mono (Set.empty_subset _)

/-- What is known to a session stays known while others are committed. -/
theorem later (h : run.Covered c store) (keeps : store.KeepsOutputs store') :
    run.Covered c store' where
  staged row redeems own := Store.outputExists_of_keepsOutputs keeps _ _ (h.staged row redeems own)
  rest := h.rest.mono fun id => Store.outputExists_of_keepsOutputs keeps _ id

/-- A step keeps to what is known, and leaves the store alone. -/
theorem step (h : run.Covered c store) (answer : Answer) :
    (run.step answer store).1 = store ∧ (run.step answer store).2.1.Covered c store := by
  obtain ⟨session, script⟩ := run
  obtain ⟨staged, rest⟩ := h
  cases rest with
  | done a => exact ⟨rfl, staged, .done a⟩
  | fail f => exact ⟨rfl, staged, .fail f⟩
  | note e rest => exact ⟨rfl, staged, rest⟩
  | @stage _ change next backed rest =>
    cases answer with
    | refused f => exact ⟨rfl, staged, .fail f⟩
    | granted outputs =>
      refine ⟨rfl, fun row redeems own => ?_, rest.mono fun id known => ?_⟩
      · apply Store.outputExists_stage
        rcases List.mem_append.mp redeems with before | now
        · exact staged row before own
        · exact backed row (List.mem_singleton.mp now).symm own
      · exact Store.outputExists_stage known change
  | @outputExists _ id next told untold =>
    cases answer with
    | refused f => exact ⟨rfl, staged, .fail f⟩
    | granted outputs =>
      refine ⟨rfl, staged, ?_⟩
      change (next (store.outputExists session id)).Cautious c _
      cases known : store.outputExists session id with
      | true => exact told.mono (Set.insert_subset known subset_rfl)
      | false => exact untold

end Covered
end Run

structure SharedStore where
  store : Store
  sessions : List (Run Unit)

namespace SharedStore

/-- The states that any number of sessions come to, if each is filled with work of some kind. They
take their steps in any order, and each step may be refused. A session can be committed or given
up at any moment, and can be filled with more than one piece of work. -/
inductive Reached (allowed : Work → Prop) : SharedStore → Prop
  | empty : Reached allowed ⟨.empty, []⟩
  | opened {shared : SharedStore} (work : Work) : allowed work → Reached allowed shared →
    Reached allowed ⟨shared.store, .start work.script :: shared.sessions⟩
  | resumed {store : Store} {before after : List (Run Unit)} {run : Run Unit} (work : Work) :
    allowed work → Reached allowed ⟨store, before ++ run :: after⟩ →
      Reached allowed ⟨store, before ++ ⟨run.session, work.script⟩ :: after⟩
  | stepped {store : Store} {before after : List (Run Unit)} {run : Run Unit} (answer : Answer) :
    Reached allowed ⟨store, before ++ run :: after⟩ →
      Reached allowed
        ⟨(run.step answer store).1, before ++ (run.step answer store).2.1 :: after⟩
  | committed {store : Store} {before after : List (Run Unit)} {run : Run Unit} :
    Reached allowed ⟨store, before ++ run :: after⟩ →
      Reached allowed ⟨store.commit run.session, before ++ after⟩
  | dropped {store : Store} {before after : List (Run Unit)} {run : Run Unit} :
    Reached allowed ⟨store, before ++ run :: after⟩ → Reached allowed ⟨store, before ++ after⟩
  | markReward {shared : SharedStore} (id : String) : Reached allowed shared →
    Reached allowed { shared with store := shared.store.markReward id }
  | insertBlock {shared : SharedStore} (id parent : String) (kind : BlockKind) :
    Reached allowed shared →
      Reached allowed { shared with store := shared.store.insertBlock id parent kind }
  | insertReward {shared : SharedStore} (id block : String) (transaction : Identifier)
    (created : Timestamp) : Reached allowed shared →
      Reached allowed { shared with store := shared.store.insertReward id block transaction created }

variable {c : String}

/-- Outputs and redemptions stand under their own identifiers, every redemption of the chain has
its output, and open sessions keep to that. -/
structure Sound (c : String) (shared : SharedStore) : Prop where
  outputs : shared.store.tables.outputs.Every fun k row => row.id = k
  redemptions : shared.store.tables.redemptions.Every fun k row =>
    row.id = k ∧ (row.chain = c → k ∈ shared.store.tables.outputs)
  sessions : ∀ run ∈ shared.sessions, run.Covered c shared.store

end SharedStore

namespace Change

theorem every_outputs_applyAll {t : Tables} (h : t.outputs.Every fun k row => row.id = k)
    (cs : List Change) : (applyAll t cs).outputs.Every fun k row => row.id = k := by
  induction cs generalizing t with
  | nil => exact h
  | cons change cs ih =>
    apply ih
    cases change with
    | output row overwrite =>
      apply h.put rfl
      intro old filed
      split
      · rfl
      · exact filed
    | _ => exact h

/-- What holds of the redemptions in the table and of those that are staged holds of all of them
afterwards. -/
theorem every_redemptions_applyAll {P : Identifier → RedemptionRow → Prop} {t : Tables}
    (h : t.redemptions.Every P) {cs : List Change}
    (staged : ∀ row, .redemption row ∈ cs → P row.id row) :
    (applyAll t cs).redemptions.Every P := by
  induction cs generalizing t with
  | nil => exact h
  | cons change cs ih =>
    apply ih ?_ fun row member => staged row (List.mem_cons_of_mem change member)
    cases change with
    | redemption row => exact h.put (staged row List.mem_cons_self) fun _ kept => kept
    | _ => exact h

end Change

namespace SharedStore

variable {c : String}

namespace Sound

theorem replace {store : Store} {before after : List (Run Unit)} {run run' : Run Unit}
    (h : Sound c ⟨store, before ++ run :: after⟩) (covered : run'.Covered c store) :
    Sound c ⟨store, before ++ run' :: after⟩ where
  outputs := h.outputs
  redemptions := h.redemptions
  sessions other member := by
    rcases List.mem_append.mp member with early | late
    · exact h.sessions other (List.mem_append_left _ early)
    · rcases List.mem_cons.mp late with rfl | late
      · exact covered
      · exact h.sessions other (List.mem_append_right _ (List.mem_cons_of_mem run late))

theorem drop {store : Store} {before after : List (Run Unit)} {run : Run Unit}
    (h : Sound c ⟨store, before ++ run :: after⟩) : Sound c ⟨store, before ++ after⟩ where
  outputs := h.outputs
  redemptions := h.redemptions
  sessions other member := by
    apply h.sessions other
    rcases List.mem_append.mp member with early | late
    · exact List.mem_append_left _ early
    · exact List.mem_append_right _ (List.mem_cons_of_mem run late)

/-- What a covered session redeems has its output as soon as it is committed. -/
theorem commit {store : Store} {sessions : List (Run Unit)} {run : Run Unit}
    (h : Sound c ⟨store, sessions⟩) (covered : run.Covered c store) :
    Sound c ⟨store.commit run.session, sessions⟩ := by
  have keeps : store.KeepsOutputs (store.commit run.session) := fun id known =>
    Change.contains_output_applyAll _ _ id known
  refine ⟨Change.every_outputs_applyAll h.outputs _, ?_, fun other member => ?_⟩
  · apply Change.every_redemptions_applyAll
    · intro k row found
      obtain ⟨filed, backed⟩ := h.redemptions k row found
      refine ⟨filed, fun own => ?_⟩
      exact Std.ExtTreeMap.mem_iff_contains.mpr
        (keeps k (Std.ExtTreeMap.mem_iff_contains.mp (backed own)))
    · intro row redeems
      exact ⟨rfl, fun own => Store.contains_commit (covered.staged row redeems own)⟩
  · exact (h.sessions other member).later keeps

theorem congr {shared : SharedStore} (h : shared.Sound c) {store : Store}
    (outputs : store.tables.outputs = shared.store.tables.outputs)
    (redemptions : store.tables.redemptions = shared.store.tables.redemptions) :
    Sound c { shared with store } where
  outputs := outputs ▸ h.outputs
  redemptions := by
    rw [outputs, redemptions]
    exact h.redemptions
  sessions run member := (h.sessions run member).later fun id known => by rw [outputs, known]

end Sound

theorem Reached.sound {shared : SharedStore} (h : Reached (Work.StrictOn c) shared) :
    shared.Sound c := by
  induction h with
  | empty => exact ⟨.empty, .empty, by simp⟩
  | opened work strict _ ih =>
    exact ⟨ih.outputs, ih.redemptions, List.forall_mem_cons.mpr ⟨.start strict _, ih.sessions⟩⟩
  | resumed work strict _ ih => exact ih.replace ((ih.sessions _ (by simp)).resume strict)
  | @stepped store before after run answer _ ih =>
    obtain ⟨same, covered⟩ := (ih.sessions run (by simp)).step answer
    rw [same]
    exact ih.replace covered
  | committed _ ih => exact ih.drop.commit (ih.sessions _ (by simp))
  | dropped _ ih => exact ih.drop
  | markReward id _ ih => exact ih.congr rfl rfl
  | insertBlock id parent kind _ ih => exact ih.congr rfl rfl
  | insertReward id block transaction created _ ih => exact ih.congr rfl rfl

/-- Whatever the sessions on a store do, as long as the blocks among their work are written by
strict writers of one chain: every redemption of that chain has the output it redeems. -/
theorem Reached.redeemed_stored {shared : SharedStore} (h : Reached (Work.StrictOn c) shared)
    {k : Identifier} {row : RedemptionRow} (found : shared.store.tables.redemptions[k]? = some row)
    (own : row.chain = c) :
    row.id = k ∧ ∃ output, shared.store.tables.outputs[k]? = some output ∧ output.id = row.id := by
  obtain ⟨filed, backed⟩ := h.sound.redemptions k row found
  obtain ⟨output, stored⟩ := Table.mem_iff_getElem?.mp (backed own)
  exact ⟨filed, output, stored, (h.sound.outputs k output stored).trans filed.symm⟩

/-- A session that is left alone is filled while others stay open. -/
theorem Reached.filled {allowed : Work → Prop} {store : Store} {before after : List (Run Unit)}
    {session left : Session} {script : Script Unit}
    (h : Reached allowed ⟨store, before ++ ⟨session, script⟩ :: after⟩) (steady : script.Steady)
    (undisturbed : script.Leaves store session () left) :
    Reached allowed ⟨store, before ++ ⟨left, .done ()⟩ :: after⟩ := by
  induction script generalizing session with
  | done a =>
    obtain ⟨-, rfl⟩ := undisturbed
    exact h
  | fail f => cases undisturbed.1
  | note e next ih =>
    cases steady with
    | note _ steady => exact ih (h.stepped (.granted [])) steady undisturbed
  | ask call next ih =>
    obtain ⟨same, steady', -⟩ := steady.perform [] store session
    have stepped := h.stepped (.granted [])
    change Reached allowed ⟨(call.perform [] store session).2.1, _⟩ at stepped
    rw [same] at stepped
    apply ih _ stepped steady'
    cases steady <;> exact undisturbed

/-- Some work is committed to an empty store while another session is opened and given up. -/
theorem Reached.alongside {allowed : Work → Prop} {work other : Work} (ok : allowed work)
    (ok' : allowed other) (through : (work.script.run (fun _ => []) .empty .empty).result = .ok ()) :
    Reached allowed ⟨Store.empty.commit work.session, []⟩ := by
  have opened : Reached allowed ⟨.empty, [.start other.script] ++ .start work.script :: []⟩ :=
    (Reached.empty.opened work ok).opened other ok'
  have full : Reached allowed ⟨.empty, [.start other.script] ++ ⟨work.session, .done ()⟩ :: []⟩ :=
    opened.filled work.script_steady ⟨through, rfl⟩
  have committed := full.committed
  exact @Reached.dropped allowed _ [] [] _ committed

/-- One session creates an output and spends it before it is committed. -/
theorem Reached.redeemed_stored_ownSession :
    ∃ (shared : SharedStore) (k : Identifier) (row : RedemptionRow),
      Reached (Work.StrictOn Settings.plain.writer.chain) shared ∧
      shared.store.tables.redemptions[k]? = some row ∧ row.chain = Settings.plain.writer.chain ∧
      row.id = k ∧ ∃ output, shared.store.tables.outputs[k]? = some output ∧ output.id = row.id := by
  let work : Work := .message { Settings.plain.writer with strict := true } ⟨default, false⟩
    default (.block ⟨[.funding, .spending]⟩)
  let shared : SharedStore := ⟨Store.empty.commit work.session, []⟩
  let input : Input := ⟨default, 0, default, 1⟩
  let row := Writer.redemption (.ofContent []) Settings.plain.writer.chain default input
  have through : (work.script.run (fun _ => []) .empty .empty).result = .ok () := by
    decide +kernel
  have reached : Reached (Work.StrictOn Settings.plain.writer.chain) shared :=
    @Reached.alongside _ work .reward ⟨rfl, rfl⟩ trivial through
  have found : shared.store.tables.redemptions[input.output]? = some row := by decide +kernel
  have own : row.chain = Settings.plain.writer.chain := rfl
  exact ⟨shared, input.output, row, reached, found, own, reached.redeemed_stored found own⟩

end SharedStore
end LedgerIndex
