import LedgerIndex.Proofs.Visits

/-!
# Crash safety of payouts

The outputs of a reward are committed, and then the reward is flagged. Those are two calls, and
each of them can fail; so can every other call, and a cycle can be broken off between any two. What
is pending is found again by the next cycle. A reward is flagged only after it has been dealt with,
and one that was paid out but not flagged can be paid out again without effect.
-/
namespace LedgerIndex

namespace Rewards

variable {s : Settings} {session : Session} {first last : Store} {log : List Exchange}

/-- Entries of a list are visited in order, each after those before it have been settled. -/
inductive Tour (s : Settings) : List PendingReward → List Visit → Run Unit → Store → Prop
  | finished (session : Session) (last : Store) : Tour s [] [] ⟨session, .done ()⟩ last
  | halted {v : Visit} (rs : List PendingReward) : v.Made s → ¬v.Done →
    Tour s (v.reward :: rs) [v] (v.run.bind fun _ => rs.forM (settle s)) v.last
  | next {v : Visit} {rs : List PendingReward} {vs : List Visit} {run : Run Unit} {last : Store} :
    v.Made s → v.Done → Tour s rs vs run last → Tour s (v.reward :: rs) (v :: vs) run last

namespace Tour

variable {rs : List PendingReward} {visits : List Visit} {run : Run Unit}

theorem of_plays (h : (Run.mk session (rs.forM (settle s))).Plays first log run last) :
    ∃ visits, Tour s rs visits run last ∧ log = visits.flatMap (·.log) := by
  induction rs generalizing session first log with
  | nil =>
    obtain ⟨rfl, rfl, -⟩ := h.of_over rfl
    exact ⟨[], .finished session last, rfl⟩
  | cons r rs ih =>
    change ((Run.mk session (settle s r)).bind fun _ => rs.forM (settle s)).Plays first log run last
      at h
    rcases h.of_bind with ⟨left, settling, going, rfl⟩ |
      ⟨⟨⟩, between, store, own, others, rfl, settling, rest⟩
    · let v : Visit := ⟨r, first, log, left, last⟩
      have made : v.Made s := ⟨session, settling⟩
      exact ⟨[v], .halted rs made (going ()), by simp [v]⟩
    · let v : Visit := ⟨r, first, own, ⟨between, .done ()⟩, store⟩
      have made : v.Made s := ⟨session, settling⟩
      obtain ⟨visits, tour, rfl⟩ := ih rest
      exact ⟨v :: visits, .next made rfl tour, rfl⟩

/-- Where all entries have been settled, it does not matter what comes after. -/
theorem of_done (h : Tour s rs visits run first) (done : run.script = .done ()) (last : Store) :
    Tour s rs visits run last := by
  induction h with
  | finished session _ => exact .finished session last
  | halted rs made unfinished =>
    obtain ⟨⟨⟩, ended⟩ := Script.of_bind_eq_done done
    exact absurd ended unfinished
  | next made settled _ ih => exact .next made settled (ih done)

theorem made (h : Tour s rs visits run last) : ∀ v ∈ visits, v.Made s := by
  induction h with
  | finished => simp
  | halted rs made => simpa using made
  | next made _ _ ih => exact List.forall_mem_cons.mpr ⟨made, ih⟩

theorem order (h : Tour s rs visits run last) : visits.map (·.reward) <+: rs := by
  induction h with
  | finished => exact List.prefix_rfl
  | @halted v rs => exact ⟨rs, rfl⟩
  | @next v _ _ _ _ _ _ _ ih => exact (List.prefix_cons_inj v.reward).mpr ih

theorem unfinished (h : Tour s rs visits run last) {before after : List Visit} {v : Visit}
    (parts : visits = before ++ v :: after) :
    (∀ u ∈ before, u.Done) ∧ (¬v.Done → after = [] ∧ v.last = last) := by
  induction h generalizing before with
  | finished => simp at parts
  | halted =>
    cases before with
    | nil =>
      cases parts
      exact ⟨by simp, fun _ => ⟨rfl, rfl⟩⟩
    | cons u before => simp at parts
  | next _ settled _ ih =>
    cases before with
    | nil =>
      cases parts
      exact ⟨by simp, fun unfinished => absurd settled unfinished⟩
    | cons u before =>
      cases parts
      obtain ⟨earlier, end_⟩ := ih rfl
      exact ⟨List.forall_mem_cons.mpr ⟨settled, earlier⟩, end_⟩

theorem failed (h : Tour s rs visits run last) {f : Failure} (fails : run.script = .fail f) :
    ∃ before v, visits = before ++ [v] ∧ v.run.script = .fail f := by
  induction h with
  | finished => cases fails
  | @halted v rs made unfinished =>
    refine ⟨[], v, rfl, ?_⟩
    rcases Script.of_bind_eq_fail fails with own | ⟨⟨⟩, settled, -⟩
    · exact own
    · exact absurd settled unfinished
  | @next v _ _ _ _ _ _ _ ih =>
    obtain ⟨before, u, rfl, fails⟩ := ih fails
    exact ⟨v :: before, u, rfl, fails⟩

theorem finished_of_done (h : Tour s rs visits run last) (done : run.script = .done ()) :
    (∀ v ∈ visits, v.Done) ∧ visits.map (·.reward) = rs := by
  induction h with
  | finished => simp
  | halted rs made unfinished =>
    obtain ⟨⟨⟩, ended⟩ := Script.of_bind_eq_done done
    exact absurd ended unfinished
  | @next v _ _ _ _ _ settled _ ih =>
    obtain ⟨others, rewards⟩ := ih done
    exact ⟨List.forall_mem_cons.mpr ⟨settled, others⟩, congrArg (v.reward :: ·) rewards⟩

end Tour

/-- A cycle as far as it got: what passed between the store as it was first and as it was last,
and the run as it was left. -/
structure Cycle where
  first : Store
  log : List Exchange
  run : Run Nat
  last : Store

def Cycle.Made (s : Settings) (c : Cycle) : Prop :=
  ∃ now script, cycle? s now = some script ∧ (Run.start script).Plays c.first c.log c.run c.last

/-- The list was asked for and given, and its entries were visited. -/
structure Cycle.Visits (s : Settings) (c : Cycle) (listing : Exchange) (cutoff : Timestamp)
    (visits : List Visit) : Prop where
  call : listing.call = .pendingRewards cutoff
  granted : listing.Granted
  log : c.log = listing :: visits.flatMap (·.log)
  plays : ∃ run : Run Nat, run.Plays listing.after (visits.flatMap (·.log)) c.run c.last
  tour : ∃ run, Tour s (listing.before.pendingRewards cutoff) visits run c.last ∧
    (∀ f, c.run.script = .fail f → run.script = .fail f) ∧
    ∀ n, c.run.script = .done n → run.script = .done () ∧
      n = (listing.before.pendingRewards cutoff).length

/-- A list that was given is visited as far as the cycle got. -/
theorem Cycle.Visits.of_plays {store : Store} {outputs : List Bytes} {cutoff : Timestamp}
    {run : Run Nat} {rest : List Exchange}
    (h : ((Run.mk .empty ((store.pendingRewards cutoff).forM (settle s))).bind fun _ =>
      .done (store.pendingRewards cutoff).length).Plays store rest run last) :
    let listing : Exchange := ⟨.pendingRewards cutoff, .granted outputs, .empty, store⟩
    ∃ visits, Visits s ⟨first, listing :: rest, run, last⟩ listing cutoff visits := by
  rcases h.of_bind with ⟨left, part, going, rfl⟩ |
    ⟨⟨⟩, between, store', own, others, rfl, whole, ended⟩
  · obtain ⟨visits, tour, rfl⟩ := Tour.of_plays part
    refine ⟨visits, rfl, ⟨outputs, rfl⟩, rfl, ⟨_, h⟩, left, tour, ?_, ?_⟩
    · intro f fails
      rcases Script.of_bind_eq_fail fails with fails | ⟨_, -, ⟨⟩⟩
      exact fails
    · intro n done
      obtain ⟨a, done⟩ := Script.of_bind_eq_done done
      exact absurd done (going a)
  · obtain ⟨visits, tour, rfl⟩ := Tour.of_plays whole
    obtain ⟨rfl, rfl, -⟩ := ended.of_over rfl
    rw [List.append_nil] at h ⊢
    refine ⟨visits, rfl, ⟨outputs, rfl⟩, rfl, ⟨_, h⟩, _, tour.of_done rfl last, ?_, ?_⟩
    · rintro f ⟨⟩
    · rintro n ⟨⟩
      exact ⟨rfl, rfl⟩

/-- A cycle has not got past its list, and is not done, or it has visited entries. -/
theorem Cycle.Made.unlisted_or {c : Cycle} (h : c.Made s) :
    ((∀ e ∈ c.log, e.Idle ∧ ∃ cutoff, e.call = .pendingRewards cutoff) ∧
      ∀ n, c.run.script ≠ .done n) ∨
      ∃ listing cutoff visits, c.Visits s listing cutoff visits := by
  obtain ⟨first, log, run, last⟩ := c
  obtain ⟨now, script, due, h⟩ := h
  change (Run.start script).Plays first log run last at h
  rw [cycle?] at due
  split at due
  · cases due
    obtain ⟨rfl, rfl, -⟩ := h.of_over rfl
    exact .inl ⟨by simp, by rintro n ⟨⟩⟩
  · cases due
  next cutoff _ =>
    cases due
    rcases Run.Plays.of_ask h with ⟨rfl, rfl, -⟩ | ⟨f, store, -, rfl, rfl, -⟩ |
      ⟨outputs, store, rest, -, rfl, visiting⟩
    · exact .inl ⟨by simp, by rintro n ⟨⟩⟩
    · exact .inl ⟨by simpa using .of_refused _ _ _ _, by rintro n ⟨⟩⟩
    · exact .inr ⟨_, cutoff, Visits.of_plays visiting⟩

theorem Cycle.Made.cases {c : Cycle} (h : c.Made s) :
    (∀ e ∈ c.log, e.Idle ∧ ∃ cutoff, e.call = .pendingRewards cutoff) ∨
      ∃ listing cutoff visits, c.Visits s listing cutoff visits :=
  h.unlisted_or.imp_left fun unlisted => unlisted.1

/-- The payout of a reward was committed, and the reward was not flagged in the cycle. -/
structure Cycle.LeftUnflagged (s : Settings) (c : Cycle) (v : Visit) (p : Payout) : Prop where
  paid : v.Paid s p
  /-- It is as pending as it was. -/
  pending : ∀ t, v.reward ∈ p.commit.before.pendingRewards t →
    v.reward ∈ c.last.pendingRewards t
  /-- Whatever fails when it is visited again with the same reply, no row changes but for its
  flag. -/
  again : ∀ w : Visit, w.Made s → w.reward = v.reward →
    (∀ e ∈ w.log, ∀ outputs, e.call = .rewardOutputs v.reward.transaction →
      e.answer = .granted outputs → outputs = p.encoded) →
    ∀ e ∈ w.log, (Work.payout s v.reward p.outputs).Lasts p.commit.after e.before →
      e.after.tables = e.before.tables ∨ e.after = e.before.markReward v.reward.id
  /-- If nothing fails then it is settled. -/
  settled : ∀ later, (Work.payout s v.reward p.outputs).Lasts p.commit.after later →
    ((settle s v.reward).run (fun _ => p.encoded) later .empty).result = .ok () ∧
      ((settle s v.reward).run (fun _ => p.encoded) later .empty).store.tables =
        (later.markReward v.reward.id).tables

/-- If nothing but flags, blocks and rewards was written since the commit, the reward can be settled
again, also where rows are written over. -/
theorem Cycle.LeftUnflagged.settled_at_once {c : Cycle} {v : Visit} {p : Payout}
    (h : c.LeftUnflagged s v p) {later : Store}
    (same : later.tables = { p.commit.after.tables with
      rewards := later.tables.rewards, blocks := later.tables.blocks }) :
    ((settle s v.reward).run (fun _ => p.encoded) later .empty).result = .ok () ∧
      ((settle s v.reward).run (fun _ => p.encoded) later .empty).store.tables =
        (later.markReward v.reward.id).tables :=
  h.settled later (.of_tables same)

structure Cycle.Account (s : Settings) (c : Cycle) (listing : Exchange) (cutoff : Timestamp)
    (visits : List Visit) : Prop where
  call : listing.call = .pendingRewards cutoff
  granted : listing.Granted
  /-- Nothing was called for but the list and what the visits called for. -/
  log : c.log = listing :: visits.flatMap (·.log)
  made : ∀ v ∈ visits, v.Made s
  /-- The entries were visited in order, up to the first that was not settled. -/
  order : visits.map (·.reward) <+: listing.before.pendingRewards cutoff
  halted : ∀ before v after, visits = before ++ v :: after →
    (∀ u ∈ before, u.Done) ∧ (¬v.Done → after = [])
  failed : ∀ f, c.run.script = .fail f →
    ∃ before v, visits = before ++ [v] ∧ v.run.script = .fail f
  finished : ∀ n, c.run.script = .done n → (∀ v ∈ visits, v.Done) ∧
    visits.map (·.reward) = listing.before.pendingRewards cutoff ∧ n = visits.length
  /-- A flag was flipped by the visit of its reward, either as the only call for one that was
  aborted, or after all outputs that the node gave were committed at once. -/
  flips : ∀ e ∈ c.log, ∀ id, e.Flips id → ∃ v ∈ visits, e ∈ v.log ∧ v.reward.id = id ∧
    (v.Aborted ∨ ∃ p, v.Paid s p ∧ p.late = [e] ∧
      ∀ o ∈ p.outputs, o.id ∈ e.before.tables.outputs)
  /-- What was settled stays flagged. -/
  kept : ∀ v ∈ visits, v.Done → c.last.flag? v.reward.id = some true
  /-- What was not settled has changed nothing, unless it was committed. -/
  unwritten : ∀ v ∈ visits, ¬v.Done → (∀ e ∈ v.log, ¬e.Commits) → ∀ e ∈ v.log, e.after = e.before
  /-- What was listed is pending still, unless a visit has flagged it. -/
  pending : ∀ r ∈ listing.before.pendingRewards cutoff, r ∈ c.last.pendingRewards cutoff ∨
    ∃ v ∈ visits, v.reward.id = r.id ∧ ∃ e ∈ v.log, e.Flips r.id
  unflagged : ∀ v ∈ visits, ∀ e ∈ v.log, e.Commits → (∀ m ∈ v.log, ¬m.Flags v.reward.id) →
    ∃ p, p.commit = e ∧ c.LeftUnflagged s v p

namespace Cycle.Visits

variable {c : Cycle} {listing : Exchange} {cutoff : Timestamp} {visits : List Visit}

theorem made (h : c.Visits s listing cutoff visits) : ∀ v ∈ visits, v.Made s := by
  obtain ⟨run, tour, -⟩ := h.tour
  exact tour.made

theorem same (h : c.Visits s listing cutoff visits) : listing.after = listing.before := by
  obtain ⟨outputs, granted⟩ := h.granted
  rw [Exchange.after, granted, h.call]
  rfl

theorem flag?_eq (h : c.Visits s listing cutoff visits) {v : Visit} (member : v ∈ visits) :
    listing.after.flag? v.reward.id = some false := by
  obtain ⟨run, tour, -⟩ := h.tour
  rw [h.same]
  exact Store.flag?_of_mem_pendingRewards
    (tour.order.subset (List.mem_map_of_mem member))

theorem kept (h : c.Visits s listing cutoff visits) {v : Visit} (member : v ∈ visits)
    (done : v.Done) : c.last.flag? v.reward.id = some true := by
  obtain ⟨run, plays⟩ := h.plays
  obtain ⟨e, own, flags⟩ := (h.made v member).flagged done
  obtain ⟨earlier, later⟩ := plays.around (List.mem_flatMap.mpr ⟨v, member, own⟩)
  apply later.keeps_flagged
  rcases earlier.keeps_flag (h.flag?_eq member) with known | ⟨-, known⟩
  · exact flags.flagged known
  · exact flags.flagged known

theorem pending (h : c.Visits s listing cutoff visits) {r : PendingReward}
    (listed : r ∈ listing.before.pendingRewards cutoff) : r ∈ c.last.pendingRewards cutoff ∨
      ∃ v ∈ visits, v.reward.id = r.id ∧ ∃ e ∈ v.log, e.Flips r.id := by
  obtain ⟨run, plays⟩ := h.plays
  rw [← h.same] at listed
  refine (plays.onward.keeps_pending listed).imp_right fun ⟨_, flagged⟩ => ?_
  obtain ⟨e, member, flips⟩ :=
    plays.flips (Store.flag?_of_mem_pendingRewards listed) flagged
  obtain ⟨v, visited, own⟩ := List.mem_flatMap.mp member
  exact ⟨v, visited, ((h.made v visited).of_flags own flips.flags).1, e, own, flips⟩

theorem account (h : c.Visits s listing cutoff visits) : c.Account s listing cutoff visits := by
  have made := h.made
  obtain ⟨run, tour, failed, finished⟩ := h.tour
  exact {
    made
    call := h.call
    granted := h.granted
    log := h.log
    order := tour.order
    halted := fun before v after parts =>
      have ⟨earlier, last⟩ := tour.unfinished parts
      ⟨earlier, fun unfinished => (last unfinished).1⟩
    failed := fun f fails => tour.failed (failed f fails)
    finished := fun n done => by
      obtain ⟨ended, count⟩ := finished n done
      obtain ⟨settled, all⟩ := tour.finished_of_done ended
      exact ⟨settled, all, by rw [count, ← all, List.length_map]⟩
    flips := fun e member id flips => by
      rw [h.log] at member
      rcases List.mem_cons.mp member with rfl | member
      · have call := flips.flags.1
        rw [h.call] at call
        cases call
      · obtain ⟨v, visited, own⟩ := List.mem_flatMap.mp member
        exact ⟨v, visited, own, (made v visited).of_flags own flips.flags⟩
    kept := fun v member done => h.kept member done
    unwritten := fun v member unfinished uncommitted e own =>
      (made v member).unwritten unfinished uncommitted own
    pending := fun r listed => h.pending listed
    unflagged := fun v member e own commits unflagged => by
      obtain ⟨p, paid, rfl⟩ := (made v member).of_commits own commits
      obtain ⟨before, after, parts⟩ := List.append_of_mem member
      have unfinished : ¬v.Done := fun done =>
        have ⟨m, own, flags⟩ := (made v member).flagged done
        unflagged m own flags
      obtain ⟨-, last⟩ := (tour.unfinished parts).2 unfinished
      exact ⟨p, rfl, {
        paid
        pending := fun t listed => last ▸ paid.pending unflagged listed
        again := fun w revisit same replied x own' lasts =>
          paid.again revisit same replied own' lasts
        settled := fun later lasts => paid.settled_again lasts }⟩ }

end Cycle.Visits

/-- Cycles one after another. Each may fail or be broken off anywhere, and before each and after
the last others may change the store. -/
inductive Cycles (s : Settings) (first : Store) : List Cycle → Store → Prop
  | none : Cycles s first [] first
  | meanwhile {cycles : List Cycle} {b c : Store} : Cycles s first cycles b → b.Meanwhile c →
    Cycles s first cycles c
  | cycle {cycles : List Cycle} {c : Cycle} : Cycles s first cycles c.first → c.Made s →
    Cycles s first (cycles ++ [c]) c.last

namespace Cycles

variable {cycles : List Cycle}

/-- What the cycles and the others make of a store together. -/
theorem onward (h : Cycles s first cycles last) : first.Onward (fun _ => True) last := by
  induction h with
  | none => exact .refl
  | meanwhile _ step ih => exact ih.trans (step.mono fun _ _ => trivial)
  | cycle _ made ih =>
    obtain ⟨now, script, -, plays⟩ := made
    exact ih.trans (plays.onward.mono fun _ _ => trivial)

theorem onward_of_mem (h : Cycles s first cycles last) {c : Cycle} (member : c ∈ cycles) :
    c.last.Onward (fun _ => True) last := by
  induction h with
  | none => cases member
  | meanwhile _ step ih => exact (ih member).trans (step.mono fun _ _ => trivial)
  | cycle _ made ih =>
    rcases List.mem_append.mp member with earlier | latest
    · obtain ⟨now, script, -, plays⟩ := made
      exact (ih earlier).trans (plays.onward.mono fun _ _ => trivial)
    · exact List.mem_singleton.mp latest ▸ .refl

theorem made (h : Cycles s first cycles last) : ∀ c ∈ cycles, c.Made s := by
  induction h with
  | none => simp
  | meanwhile _ _ ih => exact ih
  | cycle _ made ih => exact List.forall_mem_append.mpr ⟨ih, by simpa using made⟩

theorem flips (h : Cycles s first cycles last) {id : String}
    (unflagged : first.flag? id = some false) (flagged : last.flag? id = some true) :
    ∃ c ∈ cycles, ∃ e ∈ c.log, e.Flips id := by
  induction h with
  | none =>
    rw [unflagged] at flagged
    cases flagged
  | meanwhile earlier step ih =>
    rcases earlier.onward.keeps_flag unflagged with known | ⟨-, known⟩
    · rw [step.keeps_flag known] at flagged
      cases flagged
    · exact ih known
  | @cycle cycles c earlier made ih =>
    rcases earlier.onward.keeps_flag unflagged with known | ⟨-, known⟩
    · obtain ⟨now, script, -, plays⟩ := made
      obtain ⟨e, member, flips⟩ := plays.flips known flagged
      exact ⟨c, by simp, e, member, flips⟩
    · obtain ⟨c', member, flips⟩ := ih known
      exact ⟨c', List.mem_append_left _ member, flips⟩

end Cycles

/-- What holds of the rewards after any number of cycles. -/
structure CrashSafe (s : Settings) (first : Store) (cycles : List Cycle) (last : Store) :
    Prop where
  /-- A flag that was flipped was flipped by a call in one of the cycles. -/
  flips : ∀ id, first.flag? id = some false → last.flag? id = some true →
    ∃ c ∈ cycles, ∃ e ∈ c.log, e.Flips id
  /-- What was flagged at the end of a cycle stays so. -/
  kept : ∀ c ∈ cycles, ∀ id, c.last.flag? id = some true → last.flag? id = some true
  /-- What was pending at the end of a cycle is pending still, or has been flagged since. -/
  pending : ∀ c ∈ cycles, ∀ t, ∀ r ∈ c.last.pendingRewards t,
    r ∈ last.pendingRewards t ∨ last.flag? r.id = some true
  /-- Each of the cycles did not get past the list, or has done no more than it can account
  for. -/
  accounts : ∀ c ∈ cycles, (∀ e ∈ c.log, e.Idle ∧ ∃ cutoff, e.call = .pendingRewards cutoff) ∨
    ∃ listing cutoff visits, c.Account s listing cutoff visits

/-- However often it is begun, whichever calls fail, and wherever it is broken off: paying out
rewards flags only what has been dealt with, keeps what has been done, and leaves what is pending to
be done again without harm. -/
theorem Cycles.crash_safe {cycles : List Cycle} (h : Cycles s first cycles last) :
    CrashSafe s first cycles last where
  flips _ unflagged flagged := h.flips unflagged flagged
  kept _ member _ flagged := (h.onward_of_mem member).keeps_flagged flagged
  pending _ member _ _ listed :=
    ((h.onward_of_mem member).keeps_pending listed).imp_right fun flagged => flagged.2
  accounts c member := (h.made c member).cases.imp_right fun ⟨listing, cutoff, visits, visited⟩ =>
    ⟨listing, cutoff, visits, visited.account⟩

/-- A cycle in a store that nobody else changes, with an answer for each step. -/
def Cycle.answered (script : Script Nat) (store : Store) (answers : List Answer) : Cycle :=
  let played := (Run.start script).playAll store answers
  ⟨store, played.1, played.2.1, played.2.2⟩

theorem Cycle.made_answered {now : Timestamp} {script : Script Nat}
    (due : cycle? s now = some script) (store : Store) (answers : List Answer) :
    (answered script store answers).Made s :=
  ⟨now, script, due, Run.plays_playAll _ _ _⟩

/-- The first cycle pays out a reward and cannot flag it, the second pays it out again. -/
theorem Cycles.crash_safe_unflagged : ∃ (first last : Store) (cycles : List Cycle),
    Cycles .plain first cycles last ∧ first.flag? "" = some false ∧
      cycles.map (fun c => (c.log.length, c.last.flag? "")) =
        [(12, some false), (12, some true)] ∧
      CrashSafe .plain first cycles last := by
  let first : Store :=
    (Store.empty.insertBlock "child" "" .commit).insertReward "" "" default default
  let output : PlacedOutput := ⟨default, 0, default, .transfer 1 ⟨0, 1, [default]⟩⟩
  let committed : List Answer :=
    [.granted [], .granted [output.encode.write]] ++ List.replicate 9 (.granted [])
  let script : Script Nat := scan .plain ⟨7, 0⟩
  have due : cycle? .plain ⟨10, 0⟩ = some script := rfl
  let one : Cycle := .answered script first (committed ++ [.refused (.contention "")])
  let two : Cycle := .answered script one.last (committed ++ List.replicate 3 (.granted []))
  have h : Cycles .plain first [one, two] two.last :=
    .cycle (.cycle .none (Cycle.made_answered due _ _)) (Cycle.made_answered due _ _)
  have logs : [one, two].map (fun c => (c.log.length, c.last.flag? "")) =
      [(12, some false), (12, some true)] := by decide +kernel
  exact ⟨first, two.last, [one, two], h, by decide +kernel, logs, h.crash_safe⟩

end Rewards
end LedgerIndex
