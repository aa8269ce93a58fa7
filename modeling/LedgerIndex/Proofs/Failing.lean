import LedgerIndex.Proofs.Defects
import LedgerIndex.Proofs.Replies
import LedgerIndex.Proofs.Visits

/-!
# What a script fails with

A script that fails was refused a call, or fails of itself. Which failures it can come to of
itself follows from its leaves, whatever it is replied. The writer has one way to complain about
the settings: the human-readable part under which it displays addresses is no part. So a failure
that concerns the settings is this one, or was reported from outside.
-/
namespace LedgerIndex

namespace Script

variable {α β : Type} {P Q : Failure → Prop}

/-- Whatever it is replied, the script fails of itself in such ways only. -/
inductive FailsOnly (P : Failure → Prop) : Script α → Prop
  | done (a : α) : FailsOnly P (.done a)
  | fail {f : Failure} : P f → FailsOnly P (.fail f)
  | note (e : Event) {next : Script α} : FailsOnly P next → FailsOnly P (.note e next)
  | ask {call : Call} {next : call.Reply → Script α} :
    (∀ reply, FailsOnly P (next reply)) → FailsOnly P (.ask call next)

namespace FailsOnly

theorem mono {s : Script α} (h : s.FailsOnly P) (more : ∀ f, P f → Q f) : s.FailsOnly Q := by
  induction h with
  | done a => exact .done a
  | fail may => exact .fail (more _ may)
  | note e _ ih => exact .note e ih
  | ask _ ih => exact .ask ih

theorem bind {s : Script α} {k : α → Script β} (hs : s.FailsOnly P) (hk : ∀ a, (k a).FailsOnly P) :
    (s.bind k).FailsOnly P := by
  induction hs with
  | done a => exact hk a
  | fail may => exact .fail may
  | note e _ ih => exact .note e ih
  | ask _ ih => exact .ask ih

theorem call (c : Call) : (Script.call c).FailsOnly P :=
  .ask fun reply => .done reply

theorem stage_bind {c : Change} {k : Unit → Script β} (h : (k ()).FailsOnly P) :
    ((Script.stage c).bind k).FailsOnly P :=
  (call _).bind fun _ => h

theorem ofExcept {x : Except Failure α} (h : ∀ f, x = .error f → P f) :
    (Script.ofExcept x).FailsOnly P := by
  cases x with
  | ok a => exact .done a
  | error f => exact .fail (h f rfl)

theorem forM {γ : Type} {f : γ → Script Unit} (h : ∀ x, (f x).FailsOnly P) (xs : List γ) :
    (xs.forM f).FailsOnly P := by
  induction xs with
  | nil => exact .done ()
  | cons x xs ih => exact (h x).bind fun _ => ih

/-- What is left after a step fails in such ways, or with what the step was refused with. -/
theorem step {run : Run α} (h : run.script.FailsOnly P) (answer : Answer) (store : Store) :
    (run.step answer store).2.1.script.FailsOnly fun f => P f ∨ answer = .refused f := by
  have own {s : Script α} (h : s.FailsOnly P) : s.FailsOnly fun f => P f ∨ answer = .refused f :=
    h.mono fun _ => .inl
  obtain ⟨session, script⟩ := run
  cases h with
  | done a => exact .done a
  | fail may => exact .fail (.inl may)
  | note e h => exact own h
  | ask h =>
    cases answer with
    | refused f => exact .fail (.inr rfl)
    | granted outputs => exact own (h _)

end FailsOnly
end Script

/-- A run that has failed was refused a call with that failure, or failed of itself. -/
theorem Run.Plays.failure {α : Type} {P : Failure → Prop} {run run' : Run α} {store last : Store}
    {log : List Exchange} (h : run.Plays store log run' last) (only : run.script.FailsOnly P) :
    run'.script.FailsOnly fun f => P f ∨ ∃ e ∈ log, e.answer = .refused f := by
  induction h generalizing P with
  | rest => exact only.mono fun _ => .inl
  | meanwhile _ _ ih => exact ih only
  | @step answer run _ store _ log _ ih =>
    obtain ⟨session, script⟩ := run
    cases script with
    | done a => exact ih only
    | fail f => exact ih only
    | note e next =>
      cases only with
      | note _ only => exact ih only
    | ask call next =>
      refine (ih (only.step answer store)).mono fun f cause => ?_
      rcases cause with (own | refused) | ⟨e, member, refused⟩
      · exact .inl own
      · exact .inr ⟨_, List.mem_cons_self, refused⟩
      · exact .inr ⟨e, List.mem_cons_of_mem _ member, refused⟩

/-- Whatever it is replied, the handling ends of itself in such failures only. -/
def Handling.FailsOnly (s : Settings) (P : Failure → Prop) : Handling → Prop
  | .attempting task _ run => run.script.FailsOnly P ∧ (task.attempt s).FailsOnly P
  | .pausing task _ _ => (task.attempt s).FailsOnly P
  | .settled result => ∀ f, result = .error f → P f

/-- The answers that a handling has been given so far, the state of the indexer, and how far the
handling of the message has come. Others go on meanwhile. -/
inductive Handling.Answered (s : Settings) (d : Delivery) :
    List Answer → Indexer → Handling → Prop
  | start (ix : Indexer) : Answered s d [] (Handling.start s d ix).1 (Handling.start s d ix).2
  | own (answer : Answer) {answers : List Answer} {ix : Indexer} {h : Handling} :
    Answered s d answers ix h →
    Answered s d (answers ++ [answer]) (h.step s answer ix).1 (h.step s answer ix).2
  | elsewhere {answers : List Answer} {ix ix' : Indexer} {h : Handling} :
    ix.Elsewhere ix' → Answered s d answers ix h → Answered s d answers ix' h

namespace Handling

variable {s : Settings} {d : Delivery} {answers : List Answer} {ix : Indexer} {h : Handling}
  {P Q : Failure → Prop}

theorem FailsOnly.mono (only : h.FailsOnly s P) (more : ∀ f, P f → Q f) : h.FailsOnly s Q := by
  cases h with
  | attempting task retries run => exact ⟨only.1.mono more, only.2.mono more⟩
  | pausing task retries delay => exact Script.FailsOnly.mono only more
  | settled result => exact fun f failed => more f (only f failed)

theorem FailsOnly.step (only : h.FailsOnly s P) (answer : Answer) (ix : Indexer) :
    (h.step s answer ix).2.FailsOnly s fun f => P f ∨ answer = .refused f := by
  have own (f : Failure) (may : P f) : P f ∨ answer = .refused f := .inl may
  cases h with
  | settled result => exact only.mono own
  | pausing task retries delay => exact ⟨only.mono own, only.mono own⟩
  | attempting task retries run =>
    obtain ⟨left, again⟩ := only
    cases halted : run.result? with
    | none =>
      rw [step_unfinished task retries s answer ix halted]
      exact ⟨left.step answer ix.store, again.mono own⟩
    | some result =>
      obtain ⟨-, -, ⟨settled, -⟩ | ⟨f, delay, -, -, paused⟩⟩ :=
        step_over task retries s answer ix halted
      · rw [settled]
        rintro f rfl
        have failed : run.script = .fail f := by
          obtain ⟨session, script⟩ := run
          cases script <;> simp_all [Run.result?]
        rw [failed] at left
        cases left with
        | fail may => exact .inl may
      · rw [paused]
        exact again.mono own

/-- A handling that has failed was refused a call with that failure, or its message is at fault. -/
theorem Answered.failure (answered : Answered s d answers ix h) (undecoded : P (.decoding .payload))
    (attempts : ∀ task, d.task? s = some task → (task.attempt s).FailsOnly P) :
    h.FailsOnly s fun f => P f ∨ .refused f ∈ answers := by
  induction answered with
  | start ix =>
    refine FailsOnly.mono (P := P) ?_ fun _ => .inl
    cases ht : d.task? s with
    | none =>
      rw [(start_of_no_task ht ix).2.2]
      rintro f failed
      split at failed <;> cases failed
      exact undecoded
    | some task =>
      rw [start_of_task ht]
      exact ⟨attempts task ht, attempts task ht⟩
  | own answer _ ih =>
    refine (ih.step answer _).mono ?_
    rintro f ((own | refused) | refused)
    · exact .inl own
    · exact .inr (List.mem_append_left _ refused)
    · exact .inr (List.mem_append_right _ (refused ▸ List.mem_singleton_self _))
  | elsewhere _ _ ih => exact ih

end Handling

def Failure.aboutSettings : Failure → Bool
  | .settings _ => true
  | _ => false

/-- If the failure concerns the settings, it is the complaint about the part. -/
def Writer.Faults (w : Writer) (f : Failure) : Prop :=
  f.aboutSettings = true → f ∈ w.partDefects

namespace Writer

open Script

variable (w : Writer) (ctx : Context)

theorem added_faults (total amount : Nat) :
    (Script.ofExcept (added total amount)).FailsOnly w.Faults := by
  refine .ofExcept fun f failed => ?_
  unfold added at failed
  split at failed <;> cases failed
  exact nofun

theorem linkAddress_faults (output : Identifier) (place : Place) (address : Address)
    (signature : Option Bytes) :
    (w.linkAddress ctx output place address signature).FailsOnly w.Faults := by
  apply FailsOnly.stage_bind
  refine .bind (.ofExcept fun f hidden _ => ?_) fun text => ?_
  · rw [display_eq, verdict_eq_error_iff] at hidden
    exact List.mem_of_mem_head? hidden
  · apply FailsOnly.stage_bind
    apply FailsOnly.stage_bind
    apply FailsOnly.stage_bind
    apply FailsOnly.stage_bind
    split
    · exact .call _
    · exact .done ()

theorem checkSpent_faults (chain : String) (i : Input) :
    (w.checkSpent chain i).FailsOnly w.Faults := by
  unfold checkSpent
  split
  · refine (FailsOnly.call _).bind fun known => ?_
    split
    · split
      · exact .fail nofun
      · exact .note _ (.done ())
    · exact .done ()
  · exact .done ()

theorem recover_faults (unsigned signature : Bytes) :
    (Script.ofExcept (Signer.recover unsigned signature)).FailsOnly w.Faults := by
  refine .ofExcept fun f failed => ?_
  unfold Signer.recover at failed
  split at failed
  · cases failed
    exact nofun
  · simp only [Except.mapError] at failed
    split at failed <;> cases failed
    exact nofun

theorem attributeSigner_faults (unsigned : Bytes) (chain : String) (i : Input)
    (signature : Bytes) :
    (w.attributeSigner ctx unsigned chain i signature).FailsOnly w.Faults :=
  (w.recover_faults unsigned signature).bind fun _ =>
    (FailsOnly.stage_bind (.done _)).bind fun _ => w.linkAddress_faults ctx _ _ _ _

theorem signaturesAt_faults (credentials : List Credential) (position : Nat) :
    (Script.ofExcept (signaturesAt credentials position)).FailsOnly w.Faults := by
  refine .ofExcept fun f failed => ?_
  unfold signaturesAt at failed
  split at failed
  · cases failed
    exact nofun
  · split at failed <;> cases failed

theorem spendInputs_faults (spender : Identifier) (unsigned : Bytes) (chain : String)
    (credentials : List Credential) (position total : Nat) (is : List Input) :
    (w.spendInputs ctx spender unsigned chain credentials position total is).FailsOnly
      w.Faults := by
  induction is generalizing position total with
  | nil => exact .done total
  | cons i rest ih =>
    refine (w.added_faults _ _).bind fun total => ?_
    refine .bind ?_ fun _ => ih _ _
    exact (w.checkSpent_faults chain i).bind fun _ => (w.signaturesAt_faults _ _).bind fun _ =>
      (FailsOnly.forM (w.attributeSigner_faults ctx unsigned chain i) _).bind fun _ =>
      .stage_bind (.call _)

theorem placeOutput_faults (place : Place) (asset : Identifier) (stake genesis : Bool)
    (amount total : Nat) (state : OutputState) :
    (w.placeOutput ctx place asset stake genesis amount total state).FailsOnly w.Faults := by
  have owner (address : Address) : (w.linkOwner ctx place asset address).FailsOnly w.Faults :=
    (w.linkAddress_faults ctx _ _ _ _).bind fun _ => .call _
  unfold placeOutput
  split
  · exact .fail nofun
  · exact (w.added_faults _ _).bind fun _ => (w.added_faults _ _).bind fun _ =>
      (FailsOnly.forM owner _).bind fun _ => .stage_bind (.done _)

theorem placeOutputs_faults (transaction : Identifier) (chain : String) (stake : Bool)
    (position total : Nat) (os : List Output) :
    (w.placeOutputs ctx transaction chain stake position total os).FailsOnly w.Faults := by
  induction os generalizing position total with
  | nil => exact .done total
  | cons o rest ih =>
    refine .bind (.ofExcept fun f failed => ?_) fun index => ?_
    · unfold outputIndex at failed
      split at failed <;> cases failed
      exact nofun
    · exact (w.placeOutput_faults ctx _ _ _ _ _ _ _).bind fun _ => ih _ _

theorem indexTransaction_faults (t : Transaction) :
    (w.indexTransaction ctx t).FailsOnly w.Faults := by
  have extraInputs (total : Nat) : (w.spendExtra ctx t total).FailsOnly w.Faults := by
    unfold spendExtra
    split
    · exact .done total
    · exact w.spendInputs_faults ctx _ _ _ _ _ _ _
  have extraOutputs (total : Nat) : (w.placeExtra ctx t total).FailsOnly w.Faults := by
    unfold placeExtra
    split
    · exact .done total
    · exact w.placeOutputs_faults ctx _ _ _ _ _ _
  rw [indexTransaction_eq]
  refine (w.spendInputs_faults ctx _ _ _ _ _ _ _).bind fun _ => (extraInputs _).bind fun _ =>
    (w.placeOutputs_faults ctx _ _ _ _ _ _).bind fun _ => (extraOutputs _).bind fun _ =>
    .bind (.ofExcept fun f failed => ?_) fun _ => .call _
  unfold storedFee at failed
  generalize (if t.genesis then 0 else fee _ _ t.extraFee.toNat) = due at failed
  dsimp only at failed
  split at failed <;> cases failed
  exact nofun

theorem consume_faults (content : Identifier) (p : Payload) :
    (w.consume ctx content p).FailsOnly w.Faults := by
  cases p with
  | block b => exact .forM (w.indexTransaction_faults ctx) _
  | trace t => exact .call _
  | log l => exact .call _

end Writer

theorem Task.attempt_faults (s : Settings) (t : Task) :
    (t.attempt s).FailsOnly s.writer.Faults :=
  (Script.FailsOnly.call _).bind fun _ => (Script.FailsOnly.call _).bind fun _ =>
    (s.writer.consume_faults _ _ _).bind fun _ =>
    (Script.FailsOnly.call _).bind fun _ => .call _

namespace Rewards

open Script

/-- An output that cannot be read is no matter of settings. -/
theorem decodeOutputs_fault {encoded : List Bytes} {f : Failure}
    (failed : encoded.mapM decodeOutput = .error f) : f = .decoding .payload := by
  obtain ⟨-, bs, -, -, -, read⟩ := mapM_eq_error_iff.mp failed
  unfold decodeOutput at read
  split at read <;> cases read
  rfl

theorem settle_faults (s : Settings) (r : PendingReward) :
    (settle s r).FailsOnly (writer s).Faults := by
  have payOut (o : PlacedOutput) : (payOut s r o).FailsOnly (writer s).Faults :=
    ((writer s).placeOutput_faults _ _ _ _ _ _ _ _).bind fun _ => .done ()
  by_cases block : r.block = .abort
  · rw [settle_of_abort block]
    exact .note _ (.call _)
  · rw [settle_of_payout block]
    refine .ask fun encoded => ?_
    unfold payReplied
    split
    · exact .fail nofun
    · refine .bind (.ofExcept fun f failed => ?_) fun outputs => ?_
      · rw [decodeOutputs_fault failed]
        exact nofun
      · exact .ask fun _ => (FailsOnly.forM payOut _).bind fun _ => .ask fun _ => .ask fun _ =>
          .note _ (.done ())

theorem scan_faults (s : Settings) (cutoff : Timestamp) :
    (scan s cutoff).FailsOnly (writer s).Faults :=
  (FailsOnly.call _).bind fun pending =>
    (FailsOnly.forM (settle_faults s) pending).bind fun _ => .done _

end Rewards
end LedgerIndex
