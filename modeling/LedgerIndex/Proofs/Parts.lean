import LedgerIndex.Proofs.Acceptance
import LedgerIndex.Proofs.Acknowledgement
import LedgerIndex.Proofs.Failing

/-!
# Human-readable parts

Startup takes any text as the human-readable part of displayed addresses. Under a text that is a
part every address is displayed, and the indexer never complains about its settings. Under any
other text no address is: a message that shows one is given up for good, and so is a payout,
although nothing else is wrong with it.
-/
namespace LedgerIndex

namespace Text.Bech32

structure IsPart (part : String) : Prop where
  nonempty : part ≠ ""
  short : part.utf8ByteSize ≤ maxPartLength
  printable : ∀ c ∈ part.toList, 33 ≤ c.toNat ∧ c.toNat ≤ 126
  oneCase : (∀ c ∈ part.toList, c.isUpper = false) ∨ ∀ c ∈ part.toList, c.isLower = false

theorem isUpper_of_isLower {c : Char} (lower : c.isLower = true) : c.isUpper = false := by
  refine Bool.eq_false_iff.mpr fun upper => ?_
  have above : 'a'.val ≤ c.val := of_decide_eq_true (Bool.and_eq_true_iff.mp lower).1
  have below : c.val ≤ 'Z'.val := (of_decide_eq_true upper).2
  exact absurd (UInt32.le_trans above below) (by decide)

theorem findFault_eq_none_iff {lower upper : Bool} {cs : List Char} :
    findFault lower upper cs = none ↔
      (∀ c ∈ cs, 33 ≤ c.toNat ∧ c.toNat ≤ 126) ∧
      (lower = true → ∀ c ∈ cs, c.isUpper = false) ∧
      (upper = true → ∀ c ∈ cs, c.isLower = false) ∧
      ((∀ c ∈ cs, c.isUpper = false) ∨ ∀ c ∈ cs, c.isLower = false) := by
  induction cs generalizing lower upper with
  | nil => simp [findFault]
  | cons c cs ih =>
    rw [findFault]
    by_cases printable : 33 ≤ c.toNat ∧ c.toNat ≤ 126
    · have apart := isUpper_of_isLower (c := c)
      rw [if_neg (by omega : ¬127 < c.toNat), if_neg (by omega : ¬(c.toNat < 33 ∨ 126 < c.toNat))]
      cases isLower : c.isLower <;> cases isUpper : c.isUpper <;> cases lower <;> cases upper <;>
        simp_all
    · have refused : ¬∀ d ∈ c :: cs, 33 ≤ d.toNat ∧ d.toNat ≤ 126 :=
        fun all => printable (all c List.mem_cons_self)
      refine iff_of_false ?_ fun sound => refused sound.1
      split
      · exact nofun
      · rw [if_pos (by omega)]
        exact nofun

theorem fault?_eq_none_iff {part : String} : fault? part = none ↔ IsPart part := by
  unfold fault?
  split
  next empty =>
    refine iff_of_false nofun fun sound => sound.nonempty ?_
    exact String.isEmpty_iff.mp empty
  next filled =>
    split
    next long => exact iff_of_false nofun fun sound => absurd sound.short (Nat.not_le.mpr long)
    next short =>
      rw [findFault_eq_none_iff]
      constructor
      · rintro ⟨printable, -, -, oneCase⟩
        exact ⟨fun empty => filled (String.isEmpty_iff.mpr empty), Nat.not_lt.mp short, printable,
          oneCase⟩
      · exact fun sound => ⟨sound.printable, nofun, nofun, sound.oneCase⟩

end Text.Bech32

def Transaction.Shows (t : Transaction) : Prop :=
  (∃ signature, t.Presents signature) ∨ ∃ o ∈ t.allOutputs, o.state.owners ≠ []

def Payload.Shows : Payload → Prop
  | .block b => ∃ t ∈ b.transactions, t.Shows
  | _ => False

def Work.Shows : Work → Prop
  | .message _ _ _ payload => payload.Shows
  | .payout _ _ outputs => ∃ o ∈ outputs, o.state.owners ≠ []

def Delivery.Shows (s : Settings) (d : Delivery) : Prop :=
  ∃ task, d.task? s = some task ∧ task.payload.Shows

theorem Work.Fills.soundPart {work : Work} {session : Session} (h : work.Fills session)
    (shows : work.Shows) : Text.Bech32.fault? work.writer.part = none := by
  have yields := h.yields
  cases work with
  | message w ctx content payload =>
    cases payload with
    | block b =>
      obtain ⟨t, member, shows⟩ := shows
      obtain ⟨cs, indexed, -⟩ := Script.Yields.of_forM yields member
      obtain ⟨accepts, -⟩ := Writer.accepts_of_yields indexed
      rcases shows with ⟨signature, presents⟩ | ⟨o, placed, owned⟩
      · obtain ⟨n, below, given⟩ := Transaction.presents_iff.mp presents
        obtain ⟨key, -, shown⟩ :=
          accepts.signers n _ signature (List.getElem?_eq_getElem below) given
        exact Writer.displays_iff.mp shown
      · exact (Writer.canPlace_iff.mp (accepts.outputs o placed)).2.resolve_right owned
    | trace t => exact shows.elim
    | log l => exact shows.elim
  | payout s r outputs =>
    obtain ⟨o, member, owned⟩ := shows
    obtain ⟨cs, paid, -⟩ := Script.Yields.of_forM yields member
    obtain ⟨sums, ds, es, placed, -, -⟩ := paid.of_bind
    exact (Writer.canPlace_iff.mp (Writer.canPlace_of_yields placed)).2.resolve_right owned

namespace Script

theorem result_bind_of_error {α β : Type} {s : Script α} {k : α → Script β} {store : Store}
    {session : Session} {f : Failure}
    (failed : (s.run (fun _ => []) store session).result = .error f) :
    ((s.bind k).run (fun _ => []) store session).result = .error f := by
  rw [run_bind]
  generalize s.run (fun _ => []) store session = ending at failed ⊢
  obtain ⟨result, store', between, events⟩ := ending
  cases failed
  rfl

theorem Steady.result_bind {α β : Type} {s : Script α} (steady : s.Steady) {k : α → Script β}
    {store : Store} {session between : Session} {a : α}
    (first : s.Leaves store session a between) :
    ((s.bind k).run (fun _ => []) store session).result =
      ((k a).run (fun _ => []) store between).result := by
  have keeps : (s.run (fun _ => []) store session).store = store := steady.run_store store session
  obtain ⟨ok, rfl⟩ := first
  rw [run_bind]
  generalize s.run (fun _ => []) store session = ending at keeps ok ⊢
  obtain ⟨result, store', between, events⟩ := ending
  cases ok
  cases keeps
  rfl

/-- A steady script that is left to itself has staged what it yields. -/
theorem Steady.yields_of_leaves {α : Type} {s : Script α} (steady : s.Steady) {store : Store}
    {session left : Session} {a : α} (h : s.Leaves store session a left) :
    ∃ cs, left.staged = session.staged ++ cs ∧ s.Yields cs a := by
  induction s generalizing session with
  | done b =>
    obtain ⟨same, rfl⟩ := h
    cases same
    exact ⟨[], (List.append_nil _).symm, .done a⟩
  | fail f => cases h.1
  | note e next ih =>
    cases steady with
    | note _ steady =>
      obtain ⟨cs, staged, yields⟩ := ih steady h
      exact ⟨cs, staged, .note e yields⟩
  | ask c next ih =>
    obtain ⟨same, steady', -⟩ := steady.perform [] store session
    have later : (next (c.perform [] store session).1).Leaves store
        (c.perform [] store session).2.2 a left := by
      rw [← same]
      cases steady <;> exact h
    obtain ⟨cs, staged, yields⟩ := ih _ steady' later
    obtain ⟨ds, first, asked⟩ := steady.yields_of_granted [] store session yields
    exact ⟨ds ++ cs, by rw [staged, first, List.append_assoc], asked⟩

end Script

namespace Writer

variable {w : Writer} {part : String} {ctx : Context} {known : Identifier → Bool} {f : Failure}

theorem inputDefects_part {unsigned : Bytes} {chain : String} {credentials : List Credential}
    {position : Nat} {is : List Input}
    (h : f ∈ w.inputDefects known unsigned chain credentials position is) :
    f ∈ ({ w with part } : Writer).inputDefects known unsigned chain credentials position is ∨
      f ∈ w.partDefects := by
  obtain ⟨i, member, h⟩ := List.mem_flatMap.mp h
  simp only [List.mem_append, List.mem_flatMap] at h
  have among {g : Failure} (here : g ∈ w.spentDefects known chain i.1 ++ (positionDefects i.2 ++
      (Credential.signaturesAt credentials i.2).flatMap
        (({ w with part } : Writer).signatureDefects unsigned))) :
      g ∈ ({ w with part } : Writer).inputDefects known unsigned chain credentials position is :=
    List.mem_flatMap.mpr ⟨i, member, here⟩
  rcases h with spent | far | ⟨signature, given, h⟩
  · exact .inl (among (List.mem_append_left _ spent))
  · exact .inl (among (List.mem_append_right _ (List.mem_append_left _ far)))
  · unfold signatureDefects at h
    split at h
    next g unrecovered =>
      refine .inl (among (List.mem_append_right _ (List.mem_append_right _ ?_)))
      refine List.mem_flatMap.mpr ⟨signature, given, ?_⟩
      rwa [signatureDefects, unrecovered]
    next => exact .inr h

theorem outputDefects_part {transaction : Identifier} {chain : String} {position : Nat}
    {os : List Output} (h : f ∈ w.outputDefects transaction chain position os) :
    f ∈ ({ w with part } : Writer).outputDefects transaction chain position os ∨
      f ∈ w.partDefects := by
  obtain ⟨o, member, h⟩ := List.mem_flatMap.mp h
  dsimp only at h
  split at h
  next large =>
    refine .inl (List.mem_flatMap.mpr ⟨o, member, ?_⟩)
    dsimp only
    rwa [if_pos large]
  next small =>
    unfold stateDefects at h
    split at h
    next locked =>
      refine .inl (List.mem_flatMap.mpr ⟨o, member, ?_⟩)
      dsimp only
      rwa [if_neg small, stateDefects, locked]
    next =>
      obtain ⟨owner, -, h⟩ := List.mem_flatMap.mp h
      exact .inr h

/-- Whatever is wrong with a transaction is wrong under any other part, or is the part. -/
theorem defects_part {t : Transaction} (h : f ∈ t.defects w known) :
    f ∈ t.defects { w with part } known ∨ f ∈ w.partDefects := by
  have more {α : Type} {x : Option α} {g g' : α → List Failure}
      (each : ∀ a, f ∈ g a → f ∈ g' a ∨ f ∈ w.partDefects) (h : f ∈ x.elim [] g) :
      f ∈ x.elim [] g' ∨ f ∈ w.partDefects := by
    cases x with
    | none => cases h
    | some a => exact each a h
  simp only [Transaction.defects, List.mem_append] at h ⊢
  rcases h with h | h | h | h | h
  · exact (inputDefects_part h).imp_left .inl
  · exact (more (fun _ => inputDefects_part) h).imp_left fun h => .inr (.inl h)
  · exact (outputDefects_part h).imp_left fun h => .inr (.inr (.inl h))
  · exact (more (fun _ => outputDefects_part) h).imp_left fun h => .inr (.inr (.inr (.inl h)))
  · exact .inl (.inr (.inr (.inr (.inr h))))

theorem stagesOutput_changesOf (ps : List Posting) (id : Identifier) :
    (Session.mk (w.changesOf ctx ps)).stagesOutput id =
      (Session.mk (({ w with part } : Writer).changesOf ctx ps)).stagesOutput id := by
  simp only [Session.stagesOutput, changesOf, List.any_flatMap]
  congr 1
  funext p
  cases p <;> rfl

/-- What a transaction that gets through makes known does not depend on the part. -/
theorem outputExists_left {t : Transaction} {store : Store} {session session' left left' : Session}
    (agree : store.outputExists session = store.outputExists session')
    (h : (w.indexTransaction ctx t).Leaves store session () left)
    (h' : (({ w with part } : Writer).indexTransaction ctx t).Leaves store session' () left') :
    store.outputExists left = store.outputExists left' := by
  obtain ⟨cs, staged, yields⟩ := (w.indexTransaction_steady ctx t).yields_of_leaves h
  obtain ⟨cs', staged', yields'⟩ :=
    (({ w with part } : Writer).indexTransaction_steady ctx t).yields_of_leaves h'
  obtain ⟨rfl, -⟩ := w.indexTransaction_posts ctx t _ _ yields
  obtain ⟨rfl, -⟩ := ({ w with part } : Writer).indexTransaction_posts ctx t _ _ yields'
  funext id
  have before := congrFun agree id
  have own : (Session.mk (w.changesOf ctx (w.postings t))).stagesOutput id =
      (Session.mk (({ w with part } : Writer).changesOf ctx (w.postings t))).stagesOutput id :=
    stagesOutput_changesOf _ _
  simp only [Store.outputExists, Session.stagesOutput, staged, staged', List.any_append]
    at before own ⊢
  rw [own, Bool.or_right_comm, before, Bool.or_right_comm]
  rfl

/-- A transaction that gets through under some part gets through under another, or that part is
at fault. -/
theorem indexTransaction_part {t : Transaction} {store : Store} {session session' left' : Session}
    (agree : store.outputExists session = store.outputExists session')
    (fine : (({ w with part } : Writer).indexTransaction ctx t).Leaves store session' () left') :
    (∃ f ∈ w.partDefects,
      ((w.indexTransaction ctx t).run (fun _ => []) store session).result = .error f) ∨
    ∃ left, (w.indexTransaction ctx t).Leaves store session () left ∧
      store.outputExists left = store.outputExists left' := by
  have judged := (indexTransaction_judges (w := w) ctx _ t (fun _ => []) store session rfl).1
  have judged' := (indexTransaction_judges (w := { w with part }) ctx _ t (fun _ => []) store
    session' rfl).1
  have sound := verdict_eq_ok_iff.mp (judged'.symm.trans fine.1)
  cases wrong : t.defects w (store.outputExists session) with
  | nil =>
    rw [wrong] at judged
    exact .inr ⟨_, ⟨judged, rfl⟩, outputExists_left agree ⟨judged, rfl⟩ fine⟩
  | cons f fs =>
    rw [wrong] at judged
    refine .inl ⟨f, ?_, judged⟩
    have defect : f ∈ t.defects w (store.outputExists session) := wrong ▸ List.mem_cons_self
    have cause : f ∈ t.defects { w with part } _ ∨ f ∈ w.partDefects := defects_part defect
    rw [agree, sound] at cause
    exact cause.resolve_left List.not_mem_nil

theorem transactions_part {ts : List Transaction} {store : Store}
    {session session' left' : Session}
    (agree : store.outputExists session = store.outputExists session')
    (fine : (ts.forM (({ w with part } : Writer).indexTransaction ctx)).Leaves store session' ()
      left') :
    (∃ f ∈ w.partDefects,
      ((ts.forM (w.indexTransaction ctx)).run (fun _ => []) store session).result = .error f) ∨
    ∃ left, (ts.forM (w.indexTransaction ctx)).Leaves store session () left := by
  induction ts generalizing session session' with
  | nil => exact .inr ⟨session, rfl, rfl⟩
  | cons t ts ih =>
    obtain ⟨⟨⟩, between', first', rest'⟩ :=
      ((({ w with part } : Writer).indexTransaction_steady ctx t).leaves_bind _ _ _ _ _).mp fine
    rcases indexTransaction_part agree first' with ⟨f, cause, failed⟩ | ⟨between, first, agree⟩
    · exact .inl ⟨f, cause, Script.result_bind_of_error failed⟩
    · rcases ih agree rest' with ⟨f, cause, failed⟩ | ⟨left, rest⟩
      · exact .inl ⟨f, cause, ((w.indexTransaction_steady ctx t).result_bind first).trans failed⟩
      · exact .inr ⟨left, ((w.indexTransaction_steady ctx t).leaves_bind _ _ _ _ _).mpr
          ⟨(), between, first, rest⟩⟩

end Writer

/-- An attempt at a message fails as filling its session fails. -/
theorem Task.attempt_failure {s : Settings} {t : Task} {store : Store} {f : Failure}
    (failed : ((t.work s).script.run (fun _ => []) store .empty).result = .error f) :
    ((t.attempt s).run (fun _ => []) store .empty).result = .error f := by
  have filling : (((t.work s).script.bind fun _ => Script.call (.consumed t.time)).run
      (fun _ => []) store .empty).result = .error f :=
    Script.result_bind_of_error failed
  rw [Task.attempt_eq]
  exact Script.result_bind_of_error (s := t.body s) filling

/-- A message that shows an address and would be written under some part needs the part that
there is. -/
theorem Task.attempt_part {s : Settings} {part : String} {t : Task} {store after : Store}
    {fault : Text.Bech32.Fault} (bad : Text.Bech32.fault? s.part = some fault)
    (shows : t.payload.Shows) (fine : t.commit? { s with part } store = some after) :
    ((t.attempt s).run (fun _ => []) store .empty).result =
      .error (.settings (.badPart s.part fault)) := by
  obtain ⟨session, leaves, -⟩ := (Task.commit?_eq_some_iff _ t store after).mp fine
  have begun : ((({ s with part } : Settings).writer.consume ⟨t.time, s.overwrite⟩ t.content
      t.payload).bind fun _ => Script.call (.consumed t.time)).Leaves store .empty () session :=
    leaves
  obtain ⟨⟨⟩, between, filled, -⟩ :=
    ((Writer.consume_steady _ _ _ _).leaves_bind _ _ _ _ _).mp begun
  cases payload : t.payload with
  | block b =>
    rw [payload] at filled shows
    rcases Writer.transactions_part (w := s.writer) rfl filled with
      ⟨f, cause, failed⟩ | ⟨left, through⟩
    · have complaint : f = .settings (.badPart s.part fault) := by
        simpa [Writer.partDefects, Settings.writer, bad] using cause
      rw [← complaint]
      apply Task.attempt_failure
      rwa [Task.work, payload]
    · have full : (Work.message s.writer ⟨t.time, s.overwrite⟩ t.content (.block b)).Fills left :=
        .of_leaves store through
      cases bad.symm.trans (full.soundPart shows)
  | trace t =>
    rw [payload] at shows
    exact shows.elim
  | log l =>
    rw [payload] at shows
    exact shows.elim

namespace Handling

variable {s : Settings} {d : Delivery} {task : Task} {ix₀ ix : Indexer} {h : Handling}

theorem step_final (run : Run Unit) {f : Failure} (final : f.isContention = false)
    (halted : run.result? = some (.error f)) {retries : Nat} {answer : Answer} :
    ((attempting task retries run).step s answer ix).2 = .settled (.error f) := by
  obtain ⟨-, -, ⟨settled, -⟩ | ⟨g, delay, same, contended, -⟩⟩ :=
    step_over task retries s answer ix halted
  · exact settled
  · cases same
    rw [final] at contended
    cases contended

namespace Alone

/-- Where an undisturbed attempt fails for good, handling the message alone ends like that. -/
theorem ends_badly {f : Failure} (ht : d.task? s = some task) (final : f.isContention = false)
    (failed : ((task.attempt s).run (fun _ => []) ix₀.store .empty).result = .error f)
    (alone : Alone s d ix₀ ix h) :
    h = .settled (.error f) ∨ ∃ run, h = .attempting task 0 run ∧
      (run.script.run (fun _ => []) ix.store run.session).result = .error f := by
  induction alone with
  | start =>
    rw [start_of_task ht]
    exact .inr ⟨_, rfl, failed⟩
  | @step outputs ix h alone ih =>
    rcases ih with rfl | ⟨⟨session, script⟩, rfl, failing⟩
    · exact .inl rfl
    · cases script with
      | done a => cases failing
      | fail g =>
        obtain rfl : g = f := by simpa [Script.run] using failing
        exact .inl (step_final ⟨session, .fail g⟩ final rfl)
      | note e next =>
        rw [step_unfinished task 0 s _ ix rfl]
        exact .inr ⟨_, rfl, failing⟩
      | ask c next =>
        obtain ⟨strides, course⟩ := alone.course
        have tracks := (course.record ht).tracks
        cases tracks with
        | attempting retries underway =>
          have unheard := underway.perform_eq rfl outputs session
          rw [step_unfinished task 0 s _ ix rfl]
          simp only [Run.step, unheard]
          rw [Script.run_ask] at failing
          exact .inr ⟨_, rfl, failing⟩

theorem of_failure {f : Failure} (ht : d.task? s = some task) (final : f.isContention = false)
    (failed : ((task.attempt s).run (fun _ => []) ix₀.store .empty).result = .error f) :
    ∃ ix, Alone s d ix₀ ix (.settled (.error f)) := by
  have started : Alone s d ix₀ _ _ := .start
  rw [start_of_task ht] at started
  obtain ⟨ix, session, -, attempted⟩ := started.attempting
  have judged := attempted.step []
  rw [failed, step_final ⟨session, .ofExcept (.error f)⟩ final rfl] at judged
  exact ⟨_, judged⟩

end Alone
end Handling

namespace Settings

/-- Every address is displayed. A message or a cycle of rewards that fails over the settings was
refused a call with that failure. -/
structure Displaying (s : Settings) : Prop where
  isPart : Text.Bech32.IsPart s.part
  displays : ∀ address : Address, ∃ text, address.display s.part = .ok text
  messages : ∀ d answers ix f,
    Handling.Answered s d answers ix (.settled (.error (.settings f))) →
      .refused (.settings f) ∈ answers
  rewards : ∀ cutoff store log session f last,
    Run.Plays (.start (Rewards.scan s cutoff)) store log ⟨session, .fail (.settings f)⟩ last →
      ∃ e ∈ log, e.answer = .refused (.settings f)

structure Mute (s : Settings) (fault : Text.Bech32.Fault) : Prop where
  noPart : ¬Text.Bech32.IsPart s.part
  displays : ∀ address : Address,
    address.display s.part = .error (.settings (.badPart s.part fault))
  /-- Nothing is ever written of a message that shows an address. -/
  unwritten : ∀ d, d.Shows s → ∀ strides ix result,
    Handling.Course s d strides ix (.settled result) →
      result ≠ .ok () ∧ ∀ x ∈ strides, x.after = x.before
  /-- Even if nothing else is wrong with it, and nothing goes wrong. -/
  dropped : ∀ d, d.Shows s → ∀ part ix₀ after,
    d.effect? { s with part } ix₀.store = some after →
      (∃ ix, Handling.Alone s d ix₀ ix (.settled (.error (.settings (.badPart s.part fault))))) ∧
      ∀ ix result, Handling.Alone s d ix₀ ix (.settled result) →
        result = .error (.settings (.badPart s.part fault)) ∧
          Outcome.ofResult? result = some .dropped
  unacknowledged : ∀ source ix₀ rounds ix feed, Feed.Course s source ix₀ rounds ix feed →
    ∀ d, d.Shows s → (d, .processed) ∉ feed.acknowledged
  unpaid : ∀ r outputs session, (∃ o ∈ outputs, o.state.owners ≠ []) →
    ¬(Work.payout s r outputs).Fills session

theorem displaying_of_fault?_eq_none {s : Settings} (sound : Text.Bech32.fault? s.part = none) :
    s.Displaying := by
  have unblamed (w : Writer) (same : w.part = s.part) {f : SettingsFault}
      (faults : w.Faults (.settings f)) : False := by
    have cause := faults rfl
    rw [Writer.partDefects_eq_nil_iff.mpr (same ▸ sound)] at cause
    cases cause
  exact {
    isPart := Text.Bech32.fault?_eq_none_iff.mp sound
    displays := fun address => Writer.displays_iff (w := s.writer).mpr sound
    messages := by
      intro d answers ix f answered
      have failure := answered.failure (P := s.writer.Faults) nofun
        fun task _ => task.attempt_faults s
      exact (failure _ rfl).resolve_left fun faults => unblamed s.writer rfl faults
    rewards := by
      intro cutoff store log session f last played
      cases played.failure (Rewards.scan_faults s cutoff) with
      | fail cause =>
        exact cause.resolve_left fun faults => unblamed (Rewards.writer s) rfl faults }

theorem unfilled {s : Settings} {fault : Text.Bech32.Fault} {task : Task} {store after : Store}
    (bad : Text.Bech32.fault? s.part = some fault) (shows : task.payload.Shows)
    (committed : task.commit? s store = some after) : False := by
  obtain ⟨session, leaves, -⟩ := (Task.commit?_eq_some_iff s task _ _).mp committed
  cases bad.symm.trans ((Task.fills_of_leaves leaves).soundPart shows)

theorem mute_of_fault?_eq_some {s : Settings} {fault : Text.Bech32.Fault}
    (bad : Text.Bech32.fault? s.part = some fault) : s.Mute fault where
  noPart part := by
    rw [Text.Bech32.fault?_eq_none_iff.mpr part] at bad
    cases bad
  displays address := by
    simp only [Address.display, Text.Bech32.encode, bad, Except.mapError]
  unwritten := by
    rintro d ⟨task, ht, shows⟩ strides ix result course
    have record := course.record ht
    cases result with
    | ok a =>
      obtain ⟨earlier, x, later, -, -, committed, -⟩ := record.success
      exact (unfilled bad shows committed).elim
    | error f => exact ⟨nofun, record.failure⟩
  dropped := by
    rintro d ⟨task, ht, shows⟩ part ix₀ after fine
    rw [Delivery.effect?_of_task? (s := { s with part }) ht] at fine
    have failed := Task.attempt_part bad shows fine
    refine ⟨Handling.Alone.of_failure ht rfl failed, fun ix result alone => ?_⟩
    rcases alone.ends_badly ht rfl failed with settled | ⟨run, attempting, -⟩
    · cases settled
      exact ⟨rfl, rfl⟩
    · cases attempting
  unacknowledged := by
    rintro source ix₀ rounds ix feed course d ⟨task, ht, shows⟩ acknowledged
    obtain ⟨strides, told⟩ := course.record.told_of_mem acknowledged
    obtain ⟨x, -, -, written⟩ := told.written (Delivery.served_of_task? ht)
    rw [Delivery.effect?_of_task? ht] at written
    exact unfilled bad shows written
  unpaid r outputs session owned full := by
    cases bad.symm.trans (full.soundPart owned)

/-- Startup accepts any text as the part, and whatever it accepts either displays every address,
because the text is a part, or none at all. -/
theorem Accepted.anyPart {s : Settings} (accepted : s.Accepted) :
    (∀ part, Accepted { s with part }) ∧
    (∀ env part, ofEnvironment env = .ok s →
      ofEnvironment (("BECH32_HRP", Bytes.ofString part) :: env) = .ok { s with part }) ∧
    (s.Displaying ∨ ∃ fault, s.Mute fault) := by
  refine ⟨fun part => ?_, fun env part read => ?_, ?_⟩
  · obtain ⟨batches, workers, backoff, interval⟩ := accepted_iff.mp accepted
    exact accepted_iff.mpr ⟨batches, workers, backoff, interval⟩
  · rw [ofEnvironment_part, read]
    rfl
  · cases fault : Text.Bech32.fault? s.part with
    | none => exact .inl (displaying_of_fault?_eq_none fault)
    | some f => exact .inr ⟨f, mute_of_fault?_eq_some fault⟩

theorem accepted_plain : Settings.plain.Accepted :=
  accepted_iff.mpr ⟨by decide, by decide, rfl, by decide⟩

/-- With the settings of a plain draft every address is displayed, and with no text for a part
the same settings are accepted and none is. -/
theorem Accepted.anyPart_plain : Settings.plain.Accepted ∧ Settings.plain.Displaying ∧
    Accepted { Settings.plain with part := "" } := by
  obtain ⟨accepted, -, displaying | ⟨fault, mute⟩⟩ := Accepted.anyPart accepted_plain
  · exact ⟨accepted_plain, displaying, accepted ""⟩
  · refine absurd (Text.Bech32.fault?_eq_none_iff.mp ?_) mute.noPart
    decide +kernel

/-- Settings without a text for the part are built from a draft, and display no address. -/
theorem accepted_emptyPart :
    ∃ d : Draft, d.part = some "" ∧ ∃ s, d.build = .ok s ∧
      ∀ address : Address, ¬∃ text, address.display s.part = .ok text := by
  have checked : Checked { Settings.plain with part := "" } :=
    ⟨by decide, by decide, rfl, by decide⟩
  refine ⟨_, rfl, _, checked.build_draft, ?_⟩
  rintro address ⟨text, shown⟩
  cases shown

end Settings
end LedgerIndex
