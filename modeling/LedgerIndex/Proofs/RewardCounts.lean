import LedgerIndex.Proofs.CrashSafety
import Mathlib.Data.List.Nodup
import Mathlib.Data.List.Perm.Subperm

/-!
# Rewards counted

The list of pending rewards has an entry for every child of the block of a reward, and a
cycle goes by the entries. So it counts entries, and asks the node for entries; the rewards
that it settles are as many as that only where every one of them has a single entry.
-/
namespace LedgerIndex

theorem Table.filter_toList {ν : Type} (t : Table String ν) (k : String) :
    t.toList.filter (·.1 == k) = (t[k]?.map (k, ·)).toList := by
  have distinct : t.toList.Nodup := by
    refine Std.ExtTreeMap.distinct_keys_toList.imp fun apart same => apart ?_
    rw [same]
    exact Std.ReflCmp.compare_self
  have member (x : String × ν) :
      x ∈ t.toList.filter (·.1 == k) ↔ t[k]? = some x.2 ∧ x.1 = k := by
    obtain ⟨k', row⟩ := x
    rw [List.mem_filter, Std.ExtTreeMap.mem_toList_iff_getElem?_eq_some, beq_iff_eq]
    constructor
    · rintro ⟨found, rfl⟩
      exact ⟨found, rfl⟩
    · rintro ⟨found, rfl⟩
      exact ⟨found, rfl⟩
  cases found : t[k]? with
  | none =>
    refine List.eq_nil_iff_forall_not_mem.mpr fun x hx => ?_
    have := ((member x).mp hx).1
    rw [found] at this
    cases this
  | some row =>
    refine List.perm_singleton.mp ?_
    refine (List.perm_ext_iff_of_nodup (distinct.filter _) (by simp)).mpr fun x => ?_
    rw [member, found, List.mem_singleton, Prod.ext_iff]
    constructor
    · rintro ⟨same, key⟩
      exact ⟨key, (Option.some.inj same).symm⟩
    · rintro ⟨key, same⟩
      exact ⟨congrArg some same.symm, key⟩

theorem flatMap_ite {α β : Type} (xs : List α) (p : α → Bool) (f : α → List β) :
    (xs.flatMap fun x => if p x then f x else []) = (xs.filter p).flatMap f := by
  induction xs with
  | nil => rfl
  | cons x xs ih => cases h : p x <;> simp [h, ih]

namespace Store

def children (store : Store) (block : String) : List BlockRow :=
  (store.tables.blocks.toList.filter fun b => b.2.parent == block).map (·.2)

/-- The entries of a reward that is unflagged and due: one for each child of its block. -/
def entries (store : Store) (before : Timestamp) (id : String) : List PendingReward :=
  match store.tables.rewards[id]? with
  | none => []
  | some row =>
    if !row.processed && (compare row.created before).isLT then
      (store.children row.block).map fun child => ⟨id, row.transaction, child.kind, row.created⟩
    else []

/-- The list has the entries of each reward, and no others. -/
theorem pendingRewards_of_id (store : Store) (before : Timestamp) (id : String) :
    ((store.pendingRewards before).filter (·.id == id)).Perm (store.entries before id) := by
  refine ((List.mergeSort_perm _ _).filter _).trans (.of_eq ?_)
  have own (r : String × RewardRow) :
      ((store.tables.blocks.toList.filter fun b => b.2.parent == r.2.block).map fun b =>
        (⟨r.1, r.2.transaction, b.2.kind, r.2.created⟩ : PendingReward)).filter (·.id == id) =
      if r.1 == id then (store.children r.2.block).map fun child =>
        ⟨r.1, r.2.transaction, child.kind, r.2.created⟩ else [] := by
    rw [List.filter_map, children, List.map_map]
    by_cases same : r.1 = id <;> simp [same, Function.comp_def]
  rw [List.filter_flatMap]
  simp only [own, flatMap_ite]
  rw [List.filter_comm, Table.filter_toList, entries]
  cases store.tables.rewards[id]? with
  | none => rfl
  | some row => cases h : !row.processed && (compare row.created before).isLT <;> simp [h]

end Store

def Call.Local : Call → Prop
  | .rewardOutputs _ => False
  | _ => True

namespace Exchange

def flipped? (e : Exchange) : Option String :=
  match e.call with
  | .markReward id =>
    if e.before.flag? id = some false ∧ e.after.flag? id = some true then some id else none
  | _ => none

def asked? (e : Exchange) : Option Identifier :=
  match e.call with
  | .rewardOutputs transaction => some transaction
  | _ => none

theorem flipped?_eq_some {e : Exchange} {id : String} : e.flipped? = some id ↔ e.Flips id := by
  unfold flipped?
  constructor
  · intro h
    split at h
    · split at h
      next flips =>
        cases h
        exact flips
      next => cases h
    · cases h
  · intro flips
    rw [flips.flags.1]
    exact if_pos flips

theorem asked?_eq_none {e : Exchange} (h : e.call.Local) : e.asked? = none := by
  unfold asked?
  split
  next call =>
    rw [call] at h
    exact h.elim
  next => rfl

end Exchange

theorem Run.script_of_result? {α : Type} {run : Run α} {a : α}
    (h : run.result? = some (.ok a)) : run.script = .done a := by
  obtain ⟨session, script⟩ := run
  cases script <;> simp_all [result?]

theorem Run.Plays.inTurn {α : Type} {run run' : Run α} {store last : Store}
    {log : List Exchange} (h : run.Plays store log run' last) :
    log.Pairwise fun e e' => e.after.Onward (fun _ => True) e'.before := by
  induction h with
  | rest => exact .nil
  | meanwhile _ _ ih => exact ih
  | @step answer run _ store _ log rest ih =>
    rcases exchange_cases answer store run with ⟨nothing, -⟩ | ⟨first, own, -, after⟩
    · rwa [nothing]
    · rw [own]
      refine List.pairwise_cons.mpr ⟨fun e member => ?_, ih⟩
      exact after ▸ (rest.around member).1

theorem Run.Plays.flipped_nodup {α : Type} {run run' : Run α} {store last : Store}
    {log : List Exchange} (h : run.Plays store log run' last) :
    (log.filterMap (·.flipped?)).Nodup := by
  refine List.Pairwise.filterMap _ ?_ h.inTurn
  rintro e e' later id flipped _ flipped' rfl
  have first := Exchange.flipped?_eq_some.mp flipped
  have second := Exchange.flipped?_eq_some.mp flipped'
  have still := later.keeps_flagged first.2
  rw [second.1] at still
  cases still

/-- Whatever it is replied, the script makes no calls but those of some kind. -/
inductive Script.OnlyCalls {α : Type} (P : Call → Prop) : Script α → Prop
  | done (a : α) : OnlyCalls P (.done a)
  | fail (f : Failure) : OnlyCalls P (.fail f)
  | note (e : Event) {next : Script α} : OnlyCalls P next → OnlyCalls P (.note e next)
  | ask {call : Call} {next : call.Reply → Script α} : P call →
    (∀ reply, OnlyCalls P (next reply)) → OnlyCalls P (.ask call next)

namespace Script

variable {α β : Type} {P Q : Call → Prop}

theorem OnlyCalls.bind {script : Script α} {k : α → Script β} (h : script.OnlyCalls P)
    (hk : ∀ a, (k a).OnlyCalls P) : (script.bind k).OnlyCalls P := by
  induction h with
  | done a => exact hk a
  | fail f => exact .fail f
  | note e _ ih => exact .note e ih
  | ask may _ ih => exact .ask may ih

theorem Steady.onlyCalls {script : Script α} (h : script.Steady) :
    script.OnlyCalls Call.Inward := by
  induction h with
  | done a => exact .done a
  | fail f => exact .fail f
  | note e _ ih => exact .note e ih
  | stage c _ ih => exact .ask trivial fun _ => ih
  | consume t _ ih => exact .ask trivial fun _ => ih
  | consumed t _ ih => exact .ask trivial fun _ => ih
  | fatal id f _ failed ih =>
    refine .ask trivial fun known => ?_
    cases known with
    | true => exact ih
    | false => exact failed ▸ .fail f
  | noted id e _ noted ih =>
    refine .ask trivial fun known => ?_
    cases known with
    | true => exact ih
    | false => exact noted ▸ .note e ih

theorem OnlyCalls.mono {script : Script α} (h : script.OnlyCalls P) (more : ∀ c, P c → Q c) :
    script.OnlyCalls Q := by
  induction h with
  | done a => exact .done a
  | fail f => exact .fail f
  | note e _ ih => exact .note e ih
  | ask may _ ih => exact .ask (more _ may) ih

end Script

theorem Run.Plays.onlyCalls {α : Type} {P : Call → Prop} {run run' : Run α}
    {store last : Store} {log : List Exchange} (h : run.Plays store log run' last)
    (only : run.script.OnlyCalls P) : ∀ e ∈ log, P e.call := by
  induction h with
  | rest => simp
  | meanwhile _ _ ih => exact ih only
  | @step answer run _ store _ log _ ih =>
    obtain ⟨session, script⟩ := run
    cases script with
    | done a => exact ih only
    | fail f => exact ih only
    | note e next =>
      cases only with
      | note _ only => exact ih only
    | ask call next =>
      cases only with
      | ask may only =>
        refine List.forall_mem_cons.mpr ⟨may, ih ?_⟩
        cases answer with
        | refused f => exact .fail f
        | granted outputs => exact only _

namespace Rewards

variable {s : Settings}

theorem payReplied_onlyCalls (s : Settings) (r : PendingReward) (encoded : List Bytes) :
    (payReplied s r encoded).OnlyCalls Call.Local := by
  have writing (outputs : List PlacedOutput) :
      (outputs.forM (payOut s r)).OnlyCalls Call.Local := by
    refine (Work.payout s r outputs).script_steady.onlyCalls.mono fun call inward => ?_
    cases call <;> trivial
  unfold payReplied
  split
  · exact .fail _
  · refine .bind ?_ fun outputs => ?_
    · cases encoded.mapM decodeOutput with
      | ok outputs => exact .done outputs
      | error f => exact .fail f
    · refine .ask trivial fun _ => (writing outputs).bind fun _ => .ask trivial fun _ => ?_
      exact .ask trivial fun _ => .note _ (.done ())

namespace Visit

variable {v : Visit}

/-- For an entry that has been settled the node was asked once, unless it is an aborted one. -/
theorem Made.asked (made : v.Made s) (done : v.Done) :
    v.log.filterMap (·.asked?) =
      if v.reward.block = .abort then [] else [v.reward.transaction] := by
  by_cases block : v.reward.block = .abort
  · rw [if_pos block, List.filterMap_eq_nil_iff]
    intro e member
    apply Exchange.asked?_eq_none
    rcases made.cases with aborted | unpaid | ⟨p, paid⟩
    · rw [aborted.calls e member]
      trivial
    · exact absurd block unpaid.block
    · exact absurd block paid.block
  · rw [if_neg block]
    obtain ⟨session, plays⟩ := made
    rw [settle_of_payout block] at plays
    rcases plays.of_ask with ⟨-, same, -⟩ | ⟨f, store, -, -, same, -⟩ |
      ⟨encoded, store, rest, -, log, replied⟩
    · rw [Done, same] at done
      cases done
    · rw [Done, same] at done
      cases done
    · have others : rest.filterMap (·.asked?) = [] := by
        rw [List.filterMap_eq_nil_iff]
        intro e member
        exact Exchange.asked?_eq_none
          (replied.onlyCalls (payReplied_onlyCalls s v.reward encoded) e member)
      rw [log, List.filterMap_cons, others]
      rfl

/-- An entry that has been settled was paid out, unless it is an aborted one. -/
theorem Made.commits_iff (made : v.Made s) (done : v.Done) :
    (∃ e ∈ v.log, e.Commits) ↔ v.reward.block ≠ .abort := by
  constructor
  · rintro ⟨e, own, commits⟩
    obtain ⟨p, paid, -⟩ := made.of_commits own commits
    exact paid.block
  · intro block
    rcases made.cases with aborted | unpaid | ⟨p, paid⟩
    · exact absurd aborted.block block
    · exact absurd done unpaid.unfinished
    · exact ⟨p.commit, paid.mem_commit, paid.commits⟩

end Visit

def Cycle.flipped (c : Cycle) : List String :=
  c.log.filterMap (·.flipped?)

def Cycle.asked (c : Cycle) : List Identifier :=
  c.log.filterMap (·.asked?)

/-- The entries of a list are settled: every call is granted, and the node gives one output
whenever it is asked, which makes for twelve steps. -/
def settling (pending : List PendingReward) (store : Store) : List Exchange × Run Nat × Store :=
  let output : PlacedOutput := ⟨default, 0, default, .transfer 1 ⟨0, 1, [default]⟩⟩
  let visit : List Answer := .granted [output.encode.write] :: List.replicate 11 (.granted [])
  (Run.mk .empty ((pending.forM (settle .plain)).bind fun _ => .done pending.length)).playAll store
    (pending.flatMap fun _ => visit)

def Cycle.granted (pending : List PendingReward) (store : Store) : Cycle :=
  let settled := settling pending store
  ⟨store, ⟨.pendingRewards ⟨7, 0⟩, .granted [], .empty, store⟩ :: settled.1, settled.2.1,
    settled.2.2⟩

theorem Cycle.made_granted {pending : List PendingReward} {store : Store}
    (listed : store.pendingRewards ⟨7, 0⟩ = pending) : (granted pending store).Made .plain := by
  subst listed
  have due : cycle? .plain ⟨10, 0⟩ = some (scan .plain ⟨7, 0⟩) := rfl
  exact made_answered due store (.granted [] :: _)

/-- What some visits asked for: each of them once, unless it was of an aborted reward. -/
theorem asked_of_visits {visits : List Visit} (made : ∀ v ∈ visits, v.Made s)
    (done : ∀ v ∈ visits, v.Done) :
    (visits.flatMap (·.log)).filterMap (·.asked?) =
      ((visits.map (·.reward)).filter fun r => decide (r.block ≠ .abort)).map (·.transaction) := by
  induction visits with
  | nil => rfl
  | cons v visits ih =>
    obtain ⟨made, others⟩ := List.forall_mem_cons.mp made
    obtain ⟨done, rest⟩ := List.forall_mem_cons.mp done
    rw [List.flatMap_cons, List.filterMap_append, made.asked done, ih others rest]
    by_cases block : v.reward.block = .abort <;> simp [block]

/-- What a cycle that is done has come to, against the list that it was given. -/
structure Cycle.Counted (s : Settings) (c : Cycle) (n : Nat) (listing : Exchange)
    (cutoff : Timestamp) (visits : List Visit) : Prop where
  call : listing.call = .pendingRewards cutoff
  log : c.log = listing :: visits.flatMap (·.log)
  visited : visits.map (·.reward) = listing.before.pendingRewards cutoff
  /-- A reward that is unflagged and due is listed once for each child of its block. -/
  listed : ∀ id, ((listing.before.pendingRewards cutoff).filter (·.id == id)).Perm
    (listing.before.entries cutoff id)
  single : ((listing.before.pendingRewards cutoff).map (·.id)).Nodup ↔
    ∀ r ∈ listing.before.pendingRewards cutoff, (listing.before.entries cutoff r.id).length = 1
  count : n = (listing.before.pendingRewards cutoff).length
  /-- Every reward that was listed has been flagged in the cycle, and once. -/
  once : c.flipped.Nodup
  flipped : ∀ id, id ∈ c.flipped ↔ ∃ r ∈ listing.before.pendingRewards cutoff, r.id = id
  atMost : c.flipped.length ≤ n
  settled : c.flipped.length = n ↔
    ∀ r ∈ listing.before.pendingRewards cutoff, (listing.before.entries cutoff r.id).length = 1
  /-- The node was asked about every entry that is not aborted, and about nothing else. -/
  asked : c.asked =
    ((listing.before.pendingRewards cutoff).filter fun r => decide (r.block ≠ .abort)).map
      (·.transaction)
  askedFor : ∀ id,
    (((visits.filter (·.reward.id == id)).flatMap (·.log)).filterMap (·.asked?)).length =
      (listing.before.entries cutoff id).countP fun r => decide (r.block ≠ .abort)
  /-- A reward has been paid out if and only if one of its entries is not aborted. -/
  paid : ∀ id, (∃ v ∈ visits, v.reward.id = id ∧ ∃ e ∈ v.log, e.Commits) ↔
    ∃ r ∈ listing.before.entries cutoff id, r.block ≠ .abort

/-- Names are different if and only if each has a single entry. -/
theorem nodup_ids_iff (store : Store) (cutoff : Timestamp) :
    ((store.pendingRewards cutoff).map (·.id)).Nodup ↔
      ∀ r ∈ store.pendingRewards cutoff, (store.entries cutoff r.id).length = 1 := by
  have count (id : String) :
      ((store.pendingRewards cutoff).map (·.id)).count id = (store.entries cutoff id).length := by
    rw [← (store.pendingRewards_of_id cutoff id).length_eq, List.count_eq_countP, List.countP_map,
      List.countP_eq_length_filter]
    rfl
  rw [List.nodup_iff_count_eq_one]
  simp only [List.forall_mem_map, count]

/-- A list without repetitions is as long as another with the same members only if that has none
either. -/
theorem length_eq_iff_nodup {α : Type} {xs ys : List α} (distinct : xs.Nodup)
    (same : ∀ a, a ∈ xs ↔ a ∈ ys) : xs.length ≤ ys.length ∧ (xs.length = ys.length ↔ ys.Nodup) := by
  have within := List.subperm_of_subset distinct fun a => (same a).mp
  refine ⟨within.length_le, fun length => ?_, fun distinct' => ?_⟩
  · exact (within.perm_of_length_le (Nat.le_of_eq length.symm)).nodup_iff.mp distinct
  · exact ((List.perm_ext_iff_of_nodup distinct distinct').mpr same).length_eq

section Visited

variable {c : Cycle} {listing : Exchange} {cutoff : Timestamp} {visits : List Visit}

/-- Where all entries have been settled, the rewards that were flagged are theirs. -/
theorem Cycle.Visits.mem_flipped (h : c.Visits s listing cutoff visits)
    (done : ∀ v ∈ visits, v.Done) {id : String} :
    id ∈ c.flipped ↔ ∃ v ∈ visits, v.reward.id = id := by
  rw [Cycle.flipped, List.mem_filterMap]
  simp only [Exchange.flipped?_eq_some]
  constructor
  · rintro ⟨e, member, flips⟩
    obtain ⟨v, mine, -, same, -⟩ := h.account.flips e member id flips
    exact ⟨v, mine, same⟩
  · rintro ⟨v, mine, rfl⟩
    obtain ⟨run, plays⟩ := h.plays
    obtain ⟨e, own, flips⟩ := plays.flips (h.flag?_eq mine) (h.kept mine (done v mine))
    exact ⟨e, h.log ▸ List.mem_cons_of_mem _ own, flips⟩

/-- The entries of a reward are those that were visited for it. -/
theorem mem_entries_iff {store : Store}
    (visited : visits.map (·.reward) = store.pendingRewards cutoff) {id : String}
    {r : PendingReward} :
    r ∈ store.entries cutoff id ↔ ∃ v ∈ visits, v.reward.id = id ∧ v.reward = r := by
  rw [← (store.pendingRewards_of_id cutoff id).mem_iff, ← visited, List.mem_filter, List.mem_map,
    beq_iff_eq]
  constructor
  · rintro ⟨⟨v, mine, rfl⟩, same⟩
    exact ⟨v, mine, same, rfl⟩
  · rintro ⟨v, mine, same, rfl⟩
    exact ⟨⟨v, mine, rfl⟩, same⟩

/-- For each entry of a reward that is not aborted the node was asked once. -/
theorem length_asked_of_visits {store : Store}
    (visited : visits.map (·.reward) = store.pendingRewards cutoff)
    (made : ∀ v ∈ visits, v.Made s) (done : ∀ v ∈ visits, v.Done) (id : String) :
    (((visits.filter (·.reward.id == id)).flatMap (·.log)).filterMap (·.asked?)).length =
      (store.entries cutoff id).countP fun r => decide (r.block ≠ .abort) := by
  have some_made : ∀ v ∈ visits.filter (·.reward.id == id), v.Made s :=
    fun v mine => made v (List.mem_filter.mp mine).1
  have some_done : ∀ v ∈ visits.filter (·.reward.id == id), v.Done :=
    fun v mine => done v (List.mem_filter.mp mine).1
  rw [asked_of_visits some_made some_done, List.length_map, ← List.countP_eq_length_filter,
    ← (store.pendingRewards_of_id cutoff id).countP_eq, ← visited, List.filter_map]
  rfl

end Visited

/-- A cycle that is done counts the entries of its list. It has settled as many rewards only if
none of them has more than one, and a reward with several is asked about and paid out for each
that is not aborted. -/
theorem Cycle.counted {c : Cycle} (made : c.Made s) {n : Nat} (done : c.run.script = .done n) :
    ∃ listing cutoff visits, c.Counted s n listing cutoff visits := by
  obtain ⟨listing, cutoff, visits, visiting⟩ :=
    made.unlisted_or.resolve_left fun unlisted => unlisted.2 n done
  have account := visiting.account
  obtain ⟨ended, visited, count⟩ := account.finished n done
  have length : n = (listing.before.pendingRewards cutoff).length := by
    rw [count, ← visited, List.length_map]
  have once : c.flipped.Nodup := by
    obtain ⟨now, script, -, plays⟩ := made
    exact plays.flipped_nodup
  have flipped (id : String) :
      id ∈ c.flipped ↔ id ∈ (listing.before.pendingRewards cutoff).map (·.id) := by
    rw [visiting.mem_flipped ended, ← visited, List.map_map]
    exact List.mem_map.symm
  obtain ⟨atMost, settled⟩ := length_eq_iff_nodup once flipped
  rw [List.length_map, ← length] at atMost settled
  refine ⟨listing, cutoff, visits, {
    call := account.call
    log := account.log
    visited
    listed := listing.before.pendingRewards_of_id cutoff
    single := nodup_ids_iff _ _
    count := length
    once
    flipped := fun id => by rw [flipped, List.mem_map]
    atMost
    settled := settled.trans (nodup_ids_iff _ _)
    asked := ?_
    askedFor := length_asked_of_visits visited account.made ended
    paid := ?_ }⟩
  · have listed : listing.asked? = none := by
      apply Exchange.asked?_eq_none
      rw [account.call]
      trivial
    rw [Cycle.asked, account.log, List.filterMap_cons, listed, ← visited]
    exact asked_of_visits account.made ended
  · intro id
    simp only [mem_entries_iff visited]
    constructor
    · rintro ⟨v, mine, same, commits⟩
      exact ⟨v.reward, ⟨v, mine, same, rfl⟩,
        ((account.made v mine).commits_iff (ended v mine)).mp commits⟩
    · rintro ⟨r, ⟨v, mine, same, rfl⟩, block⟩
      exact ⟨v, mine, same, ((account.made v mine).commits_iff (ended v mine)).mpr block⟩

/-- A reward whose block has one child is settled as one. -/
theorem Cycle.counted_oneChild : ∃ (c : Cycle) (n : Nat),
    c.Made .plain ∧ c.run.script = .done n ∧ c.flipped = [""] ∧ n = 1 ∧
      ∃ listing cutoff visits, c.Counted .plain n listing cutoff visits := by
  let store := (Store.empty.insertBlock "a" "" .commit).insertReward "" "" default default
  let entry : PendingReward := ⟨"", default, .commit, default⟩
  have listed : store.pendingRewards ⟨7, 0⟩ = [entry] := by decide +kernel
  have ran : ((Cycle.granted [entry] store).run.result?, (Cycle.granted [entry] store).flipped) =
      (some (.ok 1), [""]) := by decide +kernel
  obtain ⟨ended, flipped⟩ : _ ∧ _ := by simpa only [Prod.mk.injEq] using ran
  have made := Cycle.made_granted listed
  have done := Run.script_of_result? ended
  exact ⟨_, 1, made, done, flipped, rfl, Cycle.counted made done⟩

/-- A reward whose block has two children is listed twice. It is settled, counted as two, and the
node is asked about it twice. -/
theorem Cycle.counted_twice : ∃ c : Cycle,
    c.Made .plain ∧ (c.first.pendingRewards ⟨7, 0⟩).map (·.id) = ["", ""] ∧
      c.run.script = .done 2 ∧ c.flipped = [""] ∧ c.asked = [default, default] := by
  let store := ((Store.empty.insertBlock "a" "" .commit).insertBlock "b" "" .commit).insertReward
    "" "" default default
  let entry : PendingReward := ⟨"", default, .commit, default⟩
  have listed : store.pendingRewards ⟨7, 0⟩ = [entry, entry] :=
    List.mergeSort_of_pairwise (l := [entry, entry]) (by decide +kernel)
  have ran : ((Cycle.granted [entry, entry] store).run.result?,
      (Cycle.granted [entry, entry] store).flipped, (Cycle.granted [entry, entry] store).asked) =
      (some (.ok 2), [""], [default, default]) := by decide +kernel
  obtain ⟨done, flipped, asked⟩ : _ ∧ _ ∧ _ := by simpa only [Prod.mk.injEq] using ran
  exact ⟨_, Cycle.made_granted listed, congrArg (List.map (·.id)) listed,
    Run.script_of_result? done, flipped, asked⟩

end Rewards
end LedgerIndex
