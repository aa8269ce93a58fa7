import LedgerIndex.Proofs.Exchanges
import LedgerIndex.Proofs.Payouts

/-!
# Visits

Whatever becomes of the calls that are made for an entry of the list of pending rewards, the
entry is in one of three states: it is an aborted one, and no more is done than to flag it; or
nothing has been written for it yet; or all of its outputs have been committed at once, and
nothing is left to do but to flag it.
-/
namespace LedgerIndex

namespace Exchange

def Commits (e : Exchange) : Prop :=
  e.call = .commit ∧ e.Granted

theorem Commits.after {e : Exchange} (h : e.Commits) : e.after = e.before.commit e.session := by
  obtain ⟨call, outputs, granted⟩ := h
  rw [Exchange.after, granted, call]
  rfl

/-- The call changes nothing, commits nothing and flags nothing. -/
structure Idle (e : Exchange) : Prop where
  same : e.after = e.before
  uncommitted : ¬e.Commits
  unflagged : ∀ id, ¬e.Flags id

theorem Idle.of_refused (call : Call) (f : Failure) (session : Session) (store : Store) :
    Idle ⟨call, .refused f, session, store⟩ where
  same := rfl
  uncommitted := by rintro ⟨-, _, ⟨⟩⟩
  unflagged := by rintro id ⟨-, _, ⟨⟩⟩

theorem Idle.of_inward {e : Exchange} (inward : e.call.Inward) (same : e.after = e.before) :
    e.Idle where
  same := same
  uncommitted := by
    rintro ⟨call, -⟩
    rw [call] at inward
    exact inward
  unflagged := by
    rintro id ⟨call, -⟩
    rw [call] at inward
    exact inward

end Exchange

namespace Rewards

variable {s : Settings} {r : PendingReward} {session : Session} {first last : Store}
  {log : List Exchange} {run : Run Unit}

/-- What is left to do for a reward when its outputs have been committed. -/
def flag (r : PendingReward) (count : Nat) : Script Unit :=
  .ask (.markReward r.id) fun _ => .note (.rewardApplied r.id r.transaction count) (.done ())

def pay (s : Settings) (r : PendingReward) (outputs : List PlacedOutput) : Script Unit :=
  .ask .begin fun _ => (outputs.forM (payOut s r)).bind fun _ =>
    .ask .commit fun _ => flag r outputs.length

def payReplied (s : Settings) (r : PendingReward) (encoded : List Bytes) : Script Unit :=
  if encoded.isEmpty then .fail (.node (.noOutputs r.transaction))
  else (Script.ofExcept (encoded.mapM decodeOutput)).bind (pay s r)

theorem settle_of_abort (block : r.block = .abort) :
    settle s r = .note (.rewardAborted r.id r.transaction) (.ask (.markReward r.id) .done) := by
  rw [settle, if_pos block]
  rfl

theorem settle_of_payout (block : r.block ≠ .abort) :
    settle s r = .ask (.rewardOutputs r.transaction) (payReplied s r) := by
  rw [settle, if_neg block]
  rfl

/-- An entry of the list that is being settled: what passed between the store as it was first
and as it was last, and the run as it was left. -/
structure Visit where
  reward : PendingReward
  first : Store
  log : List Exchange
  run : Run Unit
  last : Store

namespace Visit

def Made (s : Settings) (v : Visit) : Prop :=
  ∃ session, (Run.mk session (settle s v.reward)).Plays v.first v.log v.run v.last

def Done (v : Visit) : Prop :=
  v.run.script = .done ()

/-- An aborted reward pays nothing: all that is done is to flag it. -/
structure Aborted (v : Visit) : Prop where
  block : v.reward.block = .abort
  calls : ∀ e ∈ v.log, e.call = .markReward v.reward.id
  flagged : v.Done → ∃ e ∈ v.log, e.Flags v.reward.id
  idle : ¬v.Done → ∀ e ∈ v.log, e.Idle

structure Unpaid (v : Visit) : Prop where
  block : v.reward.block ≠ .abort
  idle : ∀ e ∈ v.log, e.Idle
  unfinished : ¬v.Done

end Visit

/-- After the commit the reward has not been flagged yet, or that was the last call. -/
inductive Ended (r : PendingReward) (commit : Exchange) :
    List Exchange → Run Unit → Store → Prop
  | unflagged {run : Run Unit} {last : Store} : run.script ≠ .done () →
    commit.after.Meanwhile last → Ended r commit [] run last
  | refused {mark : Exchange} {run : Run Unit} {last : Store} : mark.Idle →
    run.script ≠ .done () → commit.after.Meanwhile mark.before → mark.before.Meanwhile last →
      Ended r commit [mark] run last
  | flagged {mark : Exchange} (run : Run Unit) (last : Store) : mark.Flags r.id →
    commit.after.Meanwhile mark.before → Ended r commit [mark] run last

/-- What a payout goes by: the reply of the node, the outputs in it, the exchange that commits
them, and the exchanges before and after. -/
structure Payout where
  encoded : List Bytes
  outputs : List PlacedOutput
  early : List Exchange
  commit : Exchange
  late : List Exchange

/-- The outputs that the node gave were committed, all in one session. -/
structure Visit.Paid (s : Settings) (v : Visit) (p : Payout) : Prop where
  block : v.reward.block ≠ .abort
  log : v.log = p.early ++ p.commit :: p.late
  replied : ∃ e ∈ p.early, e.call = .rewardOutputs v.reward.transaction ∧
    e.answer = .granted p.encoded
  nonempty : p.encoded ≠ []
  decoded : p.encoded.mapM decodeOutput = .ok p.outputs
  idle : ∀ e ∈ p.early, e.Idle
  commits : p.commit.Commits
  filled : (Work.payout s v.reward p.outputs).Fills p.commit.session
  ended : Ended v.reward p.commit p.late v.run v.last

theorem Visit.Aborted.of_plays (block : r.block = .abort)
    (h : (Run.mk session (settle s r)).Plays first log run last) :
    Aborted ⟨r, first, log, run, last⟩ := by
  rw [settle_of_abort block] at h
  rcases h.of_note with ⟨rfl, rfl⟩ | ⟨store, -, asked⟩
  · exact ⟨block, by simp, by rintro ⟨⟩, by simp⟩
  · rcases asked.of_ask with ⟨rfl, rfl, -⟩ | ⟨f, store', -, rfl, rfl, -⟩ |
      ⟨outputs, store', rest, -, rfl, ended⟩
    · exact ⟨block, by simp, by rintro ⟨⟩, by simp⟩
    · exact ⟨block, by simp, by rintro ⟨⟩, fun _ => by simpa using .of_refused _ _ _ _⟩
    · obtain ⟨rfl, rfl, -⟩ := ended.of_over rfl
      exact ⟨block, by simp, fun _ => ⟨_, List.mem_singleton_self _, rfl, outputs, rfl⟩,
        fun unfinished => absurd rfl unfinished⟩

theorem Ended.of_plays {commit : Exchange} {count : Nat}
    (h : (Run.mk session (flag r count)).Plays commit.after log run last) :
    Ended r commit log run last := by
  rcases h.of_ask with ⟨rfl, rfl, later⟩ | ⟨f, store, before, rfl, rfl, later⟩ |
    ⟨outputs, store, rest, before, rfl, applied⟩
  · exact .unflagged (by rintro ⟨⟩) later
  · exact .refused (.of_refused _ _ _ _) (by rintro ⟨⟩) before later
  · have nothing : rest = [] := by
      rcases applied.of_note with ⟨rfl, -⟩ | ⟨store', -, ended⟩
      · rfl
      · exact (ended.of_over rfl).1
    subst nothing
    exact .flagged run last ⟨rfl, outputs, rfl⟩ before

/-- Paying out writes nothing up to the commit, and that commits all of it. -/
theorem pay_cases {outputs : List PlacedOutput}
    (h : (Run.mk session (pay s r outputs)).Plays first log run last) :
    ((∀ e ∈ log, e.Idle) ∧ run.script ≠ .done ()) ∨
    ∃ early commit late, log = early ++ commit :: late ∧ (∀ e ∈ early, e.Idle) ∧
      commit.Commits ∧ (Work.payout s r outputs).Fills commit.session ∧
      Ended r commit late run last := by
  rcases h.of_ask with ⟨rfl, rfl, -⟩ | ⟨f, store, -, rfl, rfl, -⟩ |
    ⟨replies, store, rest, -, rfl, begun⟩
  · exact .inl ⟨by simp, by rintro ⟨⟩⟩
  · exact .inl ⟨by simpa using .of_refused _ _ _ _, by rintro ⟨⟩⟩
  have opening : Exchange.Idle ⟨.begin, .granted replies, session, store⟩ :=
    ⟨rfl, by rintro ⟨⟨⟩, -⟩, by rintro _ ⟨⟨⟩, -⟩⟩
  have quiet {run' : Run Unit} {between : Store} {writes : List Exchange}
      (writing : (Run.start (outputs.forM (payOut s r))).Plays store writes run' between) :
      ∀ e ∈ Exchange.mk .begin (.granted replies) session store :: writes, e.Idle := by
    have inward := writing.of_steady (Work.payout s r outputs).script_steady
    refine List.forall_mem_cons.mpr ⟨opening, fun e member => ?_⟩
    exact .of_inward (inward e member).1 (inward e member).2
  change ((Run.start (outputs.forM (payOut s r))).bind fun _ =>
    .ask .commit fun _ => flag r outputs.length).Plays store rest run last at begun
  rcases begun.of_bind with ⟨left, writing, going, rfl⟩ |
    ⟨⟨⟩, full, store', writes, after, rfl, writing, committing⟩
  · refine .inl ⟨quiet writing, fun ended => ?_⟩
    obtain ⟨a, done⟩ := Script.of_bind_eq_done ended
    exact going a done
  · have early := quiet writing
    rcases committing.of_ask with ⟨rfl, rfl, -⟩ | ⟨f, store'', -, rfl, rfl, -⟩ |
      ⟨replies', store'', late, -, rfl, marking⟩
    · rw [List.append_nil]
      exact .inl ⟨early, by rintro ⟨⟩⟩
    · refine .inl ⟨?_, by rintro ⟨⟩⟩
      rw [← List.cons_append]
      exact List.forall_mem_append.mpr ⟨early, by simpa using .of_refused _ _ _ _⟩
    · exact .inr ⟨_, ⟨.commit, .granted replies', full, store''⟩, late,
        (List.cons_append).symm, early, ⟨rfl, replies', rfl⟩, writing.reaches .start,
        .of_plays marking⟩

/-- A reply without outputs, or with one that is not read, ends it; any other is paid out. -/
theorem payReplied_cases {encoded : List Bytes}
    (h : (Run.mk session (payReplied s r encoded)).Plays first log run last) :
    ((∀ e ∈ log, e.Idle) ∧ run.script ≠ .done ()) ∨
    encoded ≠ [] ∧ ∃ outputs, encoded.mapM decodeOutput = .ok outputs ∧
      (Run.mk session (pay s r outputs)).Plays first log run last := by
  have failed {f : Failure} (h : (Run.mk session (Script.fail f)).Plays first log run last) :
      (∀ e ∈ log, e.Idle) ∧ run.script ≠ .done () := by
    obtain ⟨rfl, rfl, -⟩ := h.of_over rfl
    exact ⟨by simp, by rintro ⟨⟩⟩
  rw [payReplied] at h
  by_cases empty : encoded.isEmpty = true
  · rw [if_pos empty] at h
    exact .inl (failed h)
  · rw [if_neg empty] at h
    cases decoded : encoded.mapM decodeOutput with
    | error f =>
      rw [decoded] at h
      exact .inl (failed h)
    | ok outputs =>
      rw [decoded] at h
      exact .inr ⟨by simpa using empty, outputs, rfl, h⟩

/-- A reward that is not aborted is unpaid until its outputs are committed. -/
theorem Visit.cases_of_plays (block : r.block ≠ .abort)
    (h : (Run.mk session (settle s r)).Plays first log run last) :
    Unpaid ⟨r, first, log, run, last⟩ ∨ ∃ p, Paid s ⟨r, first, log, run, last⟩ p := by
  rw [settle_of_payout block] at h
  rcases h.of_ask with ⟨rfl, rfl, -⟩ | ⟨f, store, -, rfl, rfl, -⟩ |
    ⟨encoded, store, rest, -, rfl, replied⟩
  · exact .inl ⟨block, by simp, by rintro ⟨⟩⟩
  · exact .inl ⟨block, by simpa using .of_refused _ _ _ _, by rintro ⟨⟩⟩
  let asked : Exchange := ⟨.rewardOutputs r.transaction, .granted encoded, session, store⟩
  have asking : asked.Idle := ⟨rfl, by rintro ⟨⟨⟩, -⟩, by rintro _ ⟨⟨⟩, -⟩⟩
  change (Run.mk session (payReplied s r encoded)).Plays store rest run last at replied
  rcases payReplied_cases replied with ⟨idle, unfinished⟩ | ⟨nonempty, outputs, decoded, paying⟩
  · exact .inl ⟨block, List.forall_mem_cons.mpr ⟨asking, idle⟩, unfinished⟩
  rcases pay_cases paying with ⟨idle, unfinished⟩ |
    ⟨early, commit, late, rfl, idle, commits, filled, ended⟩
  · exact .inl ⟨block, List.forall_mem_cons.mpr ⟨asking, idle⟩, unfinished⟩
  · exact .inr ⟨⟨encoded, outputs, asked :: early, commit, late⟩, {
      block, nonempty, decoded, commits, filled, ended
      log := rfl
      replied := ⟨asked, List.mem_cons_self, rfl, rfl⟩
      idle := List.forall_mem_cons.mpr ⟨asking, idle⟩ }⟩

/-- Every visit is one of an aborted reward, or nothing has been written, or all of it has. -/
theorem Visit.Made.cases {v : Visit} (h : v.Made s) :
    v.Aborted ∨ v.Unpaid ∨ ∃ p, v.Paid s p := by
  obtain ⟨session, h⟩ := h
  by_cases block : v.reward.block = .abort
  · exact .inl (.of_plays block h)
  · exact .inr (cases_of_plays block h)

namespace Visit

variable {v w : Visit} {p q : Payout} {e : Exchange}

namespace Paid

theorem mem_commit (h : v.Paid s p) : p.commit ∈ v.log := by
  rw [h.log]
  exact List.mem_append_right _ List.mem_cons_self

/-- Of the calls of a payout one commits, and one after it may flag the reward. -/
theorem call_cases (h : v.Paid s p) (member : e ∈ v.log) :
    e.Idle ∨ e = p.commit ∨ p.late = [e] ∧ e.Flags v.reward.id ∧
      p.commit.after.Meanwhile e.before := by
  rw [h.log] at member
  rcases List.mem_append.mp member with early | member
  · exact .inl (h.idle e early)
  rcases List.mem_cons.mp member with rfl | late
  · exact .inr (.inl rfl)
  have ended := h.ended
  generalize p.late = calls at ended late
  cases ended with
  | unflagged => cases late
  | refused idle => exact .inl (List.mem_singleton.mp late ▸ idle)
  | flagged _ _ flags later =>
    obtain rfl := List.mem_singleton.mp late
    exact .inr (.inr ⟨rfl, flags, later⟩)

theorem eq_commit (h : v.Paid s p) (member : e ∈ v.log) (commits : e.Commits) : e = p.commit := by
  rcases h.call_cases member with idle | same | ⟨-, ⟨call, -⟩, -⟩
  · exact absurd commits idle.uncommitted
  · exact same
  · rw [commits.1] at call
    cases call

theorem stored (h : v.Paid s p) {later : Store} (evolves : p.commit.after.Evolves later)
    {o : PlacedOutput} (member : o ∈ p.outputs) : o.id ∈ later.tables.outputs := by
  apply evolves.within.outputs
  rw [h.commits.after]
  exact h.filled.payout_stored _ member

/-- The reward has been flagged, or others have taken over since the commit. -/
theorem flagged_or (h : v.Paid s p) : (∃ e ∈ v.log, e.Flags v.reward.id) ∨
    ¬v.Done ∧ p.commit.after.Meanwhile v.last := by
  have late : ∀ e ∈ p.late, e ∈ v.log := fun e member =>
    h.log ▸ List.mem_append_right _ (List.mem_cons_of_mem _ member)
  have ended := h.ended
  generalize p.late = calls at ended late
  cases ended with
  | unflagged unfinished later => exact .inr ⟨unfinished, later⟩
  | refused _ unfinished before later => exact .inr ⟨unfinished, before.trans later⟩
  | flagged _ _ flags _ => exact .inl ⟨_, late _ (List.mem_singleton_self _), flags⟩

/-- As long as it has not been flagged, the reward stays pending. -/
theorem pending (h : v.Paid s p) (unflagged : ∀ e ∈ v.log, ¬e.Flags v.reward.id)
    {t : Timestamp} (listed : v.reward ∈ p.commit.before.pendingRewards t) :
    v.reward ∈ v.last.pendingRewards t := by
  rcases h.flagged_or with ⟨e, member, flags⟩ | ⟨-, later⟩
  · exact absurd flags (unflagged e member)
  · have committed : p.commit.before.Meanwhile p.commit.after := by
      rw [h.commits.after]
      exact .commit _ .refl
    exact Store.Meanwhile.keeps_pending (committed.trans later) listed

/-- Once a payout has been committed, any other visit of the reward with the same reply changes
no row any more: it can only flag the reward. -/
theorem again (h : v.Paid s p) (made : w.Made s) (same : w.reward = v.reward)
    (replied : ∀ e ∈ w.log, ∀ outputs, e.call = .rewardOutputs v.reward.transaction →
      e.answer = .granted outputs → outputs = p.encoded)
    (member : e ∈ w.log)
    (lasts : (Work.payout s v.reward p.outputs).Lasts p.commit.after e.before) :
    e.after.tables = e.before.tables ∨ e.after = e.before.markReward v.reward.id := by
  rcases made.cases with aborted | unpaid | ⟨q, paid⟩
  · exact absurd (same ▸ aborted.block) h.block
  · exact .inl (congrArg Store.tables (unpaid.idle e member).same)
  · rcases paid.call_cases member with idle | rfl | ⟨-, flags, -⟩
    · exact .inl (congrArg Store.tables idle.same)
    · obtain ⟨reply, early, call, granted⟩ := paid.replied
      have encoded : q.encoded = p.encoded := by
        refine replied reply ?_ _ (same ▸ call) granted
        exact paid.log ▸ List.mem_append_left _ early
      have outputs : q.outputs = p.outputs := by
        have decoded := paid.decoded
        rw [encoded, h.decoded] at decoded
        exact (Except.ok.inj decoded).symm
      have refilled := paid.filled
      rw [same, outputs] at refilled
      rw [h.commits.after] at lasts
      rw [paid.commits.after]
      exact .inl (h.filled.payout_again refilled lasts)
    · exact .inr (same ▸ flags.after_eq)

/-- Once a payout has been committed, the reward can be settled with the same reply: if nothing
else fails then that goes well, and only the flag is new. -/
theorem settled_again (h : v.Paid s p) {later : Store}
    (lasts : (Work.payout s v.reward p.outputs).Lasts p.commit.after later) :
    ((settle s v.reward).run (fun _ => p.encoded) later .empty).result = .ok () ∧
      ((settle s v.reward).run (fun _ => p.encoded) later .empty).store.tables =
        (later.markReward v.reward.id).tables := by
  rw [h.commits.after] at lasts
  obtain ⟨events, paid⟩ := h.filled.payout_run (fun _ => p.encoded) later
  have same := h.filled.payout_again h.filled lasts
  have settled : (settle s v.reward).run (fun _ => p.encoded) later .empty =
      ⟨.ok (), (later.commit p.commit.session).markReward v.reward.id, .empty,
        events ++ [.rewardApplied v.reward.id v.reward.transaction p.outputs.length]⟩ := by
    rw [settle_of_payout h.block]
    change (payReplied s v.reward p.encoded).run (fun _ => p.encoded) later .empty = _
    rw [payReplied, if_neg (by simpa using h.nonempty), h.decoded]
    change ((p.outputs.forM (payOut s v.reward)).bind fun _ => .ask .commit fun _ =>
      flag v.reward p.outputs.length).run (fun _ => p.encoded) later .empty = _
    rw [Script.run_bind, paid]
    rfl
  rw [settled]
  refine ⟨rfl, ?_⟩
  simp only [Store.markReward, same]

end Paid

namespace Made

theorem flagged (made : v.Made s) (done : v.Done) : ∃ e ∈ v.log, e.Flags v.reward.id := by
  rcases made.cases with aborted | unpaid | ⟨p, paid⟩
  · exact aborted.flagged done
  · exact absurd done unpaid.unfinished
  · exact paid.flagged_or.resolve_right fun unfinished => unfinished.1 done

/-- A visit flags its own reward only, and does so without another call if that was aborted, and
otherwise after its outputs have been stored. -/
theorem of_flags (made : v.Made s) (member : e ∈ v.log) {id : String} (flags : e.Flags id) :
    v.reward.id = id ∧ (v.Aborted ∨ ∃ p, v.Paid s p ∧ p.late = [e] ∧
      ∀ o ∈ p.outputs, o.id ∈ e.before.tables.outputs) := by
  have names {id' : String} (call : e.call = .markReward id') : id' = id := by
    rw [flags.1] at call
    exact (Call.markReward.inj call).symm
  rcases made.cases with aborted | unpaid | ⟨p, paid⟩
  · exact ⟨names (aborted.calls e member), .inl aborted⟩
  · exact absurd flags ((unpaid.idle e member).unflagged id)
  · rcases paid.call_cases member with idle | rfl | ⟨late, own, later⟩
    · exact absurd flags (idle.unflagged id)
    · have call := paid.commits.1
      rw [flags.1] at call
      cases call
    · exact ⟨names own.1, .inr ⟨p, paid, late, fun o => paid.stored later.evolves⟩⟩

/-- A visit that has come to no end, and has committed nothing, has changed nothing. -/
theorem unwritten (made : v.Made s) (unfinished : ¬v.Done) (uncommitted : ∀ e ∈ v.log, ¬e.Commits)
    (member : e ∈ v.log) : e.after = e.before := by
  rcases made.cases with aborted | unpaid | ⟨p, paid⟩
  · exact (aborted.idle unfinished e member).same
  · exact (unpaid.idle e member).same
  · exact absurd paid.commits (uncommitted _ paid.mem_commit)

theorem of_commits (made : v.Made s) (member : e ∈ v.log) (commits : e.Commits) :
    ∃ p, v.Paid s p ∧ p.commit = e := by
  rcases made.cases with aborted | unpaid | ⟨p, paid⟩
  · have call := aborted.calls e member
    rw [commits.1] at call
    cases call
  · exact absurd commits (unpaid.idle e member).uncommitted
  · exact ⟨p, paid, (paid.eq_commit member commits).symm⟩

end Made
end Visit

end Rewards
end LedgerIndex
