import LedgerIndex.Proofs.Settlement

/-!
# Rounds

A round of a feed is one batch with the acknowledgements it led to. The outcomes of a
batch are acknowledged in their order, and a message without an outcome is passed over;
in each partition such messages come last, so the acknowledgements of a partition are
the first part of what was delivered of it.
-/
namespace LedgerIndex

def Outcomes.answered (outcomes : Outcomes) : List (Delivery × Outcome) :=
  outcomes.filterMap fun x => x.2.map (x.1, ·)

/-- A message that has no outcome is followed by others that have none. -/
def Outcomes.IsRun (outcomes : Outcomes) : Prop :=
  outcomes.Pairwise fun x y => x.2 = none → y.2 = none

namespace Outcomes

def ofAnswer (x : Delivery × Outcome) : Delivery × Option Outcome :=
  (x.1, some x.2)

theorem isRun_append {done left : Outcomes} (outcomes : ∀ x ∈ done, x.2.isSome = true)
    (noOutcomes : ∀ x ∈ left, x.2 = none) : IsRun (done ++ left) := by
  refine List.pairwise_append.mpr ⟨?_, ?_, fun _ _ y hy _ => noOutcomes y hy⟩
  · apply List.pairwise_of_forall_mem_list
    intro x hx y _ untold
    exact absurd (outcomes x hx) (by simp [untold])
  · exact List.pairwise_of_forall_mem_list fun _ _ y hy _ => noOutcomes y hy

theorem answered_ofPartition (outcomes : Outcomes) (p : String) :
    answered (outcomes.ofPartition p) = outcomes.answered.filter (·.1.partition == p) := by
  induction outcomes with
  | nil => rfl
  | cons x rest ih =>
    obtain ⟨d, outcome⟩ := x
    cases outcome <;> by_cases hp : d.partition = p <;>
      simp_all [answered, ofPartition]

theorem IsRun.eq_answered {outcomes : Outcomes} (run : outcomes.IsRun) :
    ∃ left, outcomes = outcomes.answered.map ofAnswer ++ left ∧ ∀ x ∈ left, x.2 = none := by
  induction outcomes with
  | nil => exact ⟨[], by simp [answered]⟩
  | cons x rest ih =>
    obtain ⟨d, outcome⟩ := x
    obtain ⟨behind, rest_run⟩ := List.pairwise_cons.mp run
    cases outcome with
    | none =>
      have none : ∀ y ∈ rest, y.2 = none := fun y hy => behind y hy rfl
      have nothing : answered rest = [] := by
        apply List.filterMap_eq_nil_iff.mpr
        intro y hy
        rw [none y hy]
        rfl
      refine ⟨(d, .none) :: rest, ?_, by simpa using none⟩
      simpa [answered] using nothing
    | some outcome =>
      obtain ⟨left, parts, noOutcomes⟩ := ih rest_run
      refine ⟨left, ?_, noOutcomes⟩
      simpa [answered, ofAnswer] using parts

/-- Where every message has an outcome, every message is acknowledged. -/
theorem map_answered {outcomes : Outcomes} (complete : ∀ x ∈ outcomes, x.2.isSome = true) :
    outcomes.answered.map (·.1) = outcomes.map (·.1) := by
  induction outcomes with
  | nil => rfl
  | cons x rest ih =>
    obtain ⟨d, outcome⟩ := x
    obtain ⟨outcome, rfl⟩ := Option.isSome_iff_exists.mp (complete _ List.mem_cons_self)
    simpa [answered] using ih fun y hy => complete y (List.mem_cons_of_mem _ hy)

end Outcomes

namespace Feed

/-- One batch of a feed: what was delivered, the strides of its messages, and what has been
acknowledged of it. -/
structure Round where
  delivered : List Delivery
  log : List Lane.Entry
  acknowledged : List (Delivery × Outcome)

namespace Round

def acknowledgedOf (r : Round) (p : String) : List (Delivery × Outcome) :=
  r.acknowledged.filter (·.1.partition == p)

def strides (r : Round) (p : String) (place : Nat) : List Stride :=
  Lane.stridesAt (Batch.logOf r.log p) place

/-- The batch is done, some of its outcomes have been acknowledged, and others are left. -/
structure Answers (s : Settings) (r : Round) (acked left : Outcomes) : Prop where
  settlement : ∃ ix₀ ix, Batch.Settlement s r.delivered ix₀ r.log ix (acked ++ left)
  acknowledged : r.acknowledged = acked.answered

namespace Answers

variable {s : Settings} {r : Round} {acked left : Outcomes}

theorem isRun (a : r.Answers s acked left) (p : String) :
    Outcomes.IsRun (Outcomes.ofPartition (acked ++ left) p) := by
  obtain ⟨ix₀, ix, settled⟩ := a.settlement
  obtain ⟨done, rest, parts, outcomes, noOutcomes, -⟩ := settled.runs p
  exact parts ▸ Outcomes.isRun_append outcomes noOutcomes

theorem acknowledgedOf_eq (a : r.Answers s acked left) (p : String) :
    r.acknowledgedOf p = (acked.ofPartition p).answered := by
  rw [acknowledgedOf, a.acknowledged, Outcomes.answered_ofPartition]

theorem prefix_outcomes (a : r.Answers s acked left) (p : String) :
    (r.acknowledgedOf p).map Outcomes.ofAnswer <+: Outcomes.ofPartition (acked ++ left) p := by
  have run := a.isRun p
  rw [Outcomes.ofPartition_append] at run ⊢
  obtain ⟨rest, parts, -⟩ := Outcomes.IsRun.eq_answered (List.pairwise_append.mp run).1
  rw [a.acknowledgedOf_eq]
  refine .trans ⟨rest, parts.symm⟩ (List.prefix_append _ _)

/-- What is acknowledged of a partition is the first part of what was delivered of it. -/
theorem prefix_delivered (a : r.Answers s acked left) (p : String) :
    (r.acknowledgedOf p).map (·.1) <+: Batch.ofPartition r.delivered p := by
  obtain ⟨ix₀, ix, settled⟩ := a.settlement
  have told := (a.prefix_outcomes p).map (·.1)
  rw [Outcomes.map_ofPartition, settled.inOrder, List.map_map] at told
  exact told

theorem told (a : r.Answers s acked left) {p : String} {place : Nat} {d : Delivery}
    {outcome : Outcome} (h : (r.acknowledgedOf p)[place]? = some (d, outcome)) :
    Lane.Told s d (r.strides p place) (some outcome) := by
  obtain ⟨ix₀, ix, settled⟩ := a.settlement
  obtain ⟨rest, parts⟩ := a.prefix_outcomes p
  apply settled.told
  rw [← parts, List.getElem?_append_left (by simpa using (List.getElem?_eq_some_iff.mp h).1),
    List.getElem?_map, h]
  rfl

/-- When nothing is left, a message that has not been acknowledged has no outcome. -/
theorem untold (a : r.Answers s acked []) {p : String} {place : Nat} {d : Delivery}
    (delivered : (Batch.ofPartition r.delivered p)[place]? = some d)
    (behind : (r.acknowledgedOf p).length ≤ place) :
    (∃ x ∈ acked, x.2 = none) ∧ Lane.Told s d (r.strides p place) none := by
  obtain ⟨ix₀, ix, settled⟩ := a.settlement
  have run := a.isRun p
  rw [List.append_nil] at settled run
  rw [← settled.inOrder, ← Outcomes.map_ofPartition, List.getElem?_map] at delivered
  obtain ⟨⟨d', outcome⟩, told, rfl⟩ := Option.map_eq_some_iff.mp delivered
  obtain ⟨rest, parts, noOutcomes⟩ := run.eq_answered
  have hidden := told
  rw [parts, ← a.acknowledgedOf_eq, List.getElem?_append_right (by simpa using behind)] at hidden
  obtain rfl : outcome = none := noOutcomes _ (List.mem_of_getElem? hidden)
  exact ⟨⟨_, (List.mem_filter.mp (List.mem_of_getElem? told)).1, rfl⟩,
    settled.told p place d' none told⟩

end Answers

def Closed (s : Settings) (r : Round) : Prop :=
  ∃ outcomes, r.Answers s outcomes [] ∧ ∀ x ∈ outcomes, x.2.isSome = true

theorem Closed.ofPartition_acknowledged {s : Settings} {r : Round} (closed : r.Closed s)
    (p : String) :
    Batch.ofPartition (r.acknowledged.map (·.1)) p = Batch.ofPartition r.delivered p := by
  obtain ⟨outcomes, a, complete⟩ := closed
  obtain ⟨ix₀, ix, settled⟩ := a.settlement
  rw [List.append_nil] at settled
  rw [a.acknowledged, Outcomes.map_answered complete, settled.inOrder]

end Round
end Feed
end LedgerIndex
