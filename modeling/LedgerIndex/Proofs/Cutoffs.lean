import LedgerIndex.Proofs.Acceptance
import LedgerIndex.Proofs.Visits

/-!
# Cutoffs

A cycle of rewards looks back from the clock by a window of any length. Two ranges have to hold
it: a window that is too long for a difference of times is reported, and the cycle fails. But a
difference of times may reach further back than there are moments, and such a window, which
startup accepts, ends the poller. It never ends in another way: every cycle that is begun comes to
its result, whatever becomes of its calls.
-/
namespace LedgerIndex

namespace Timestamp

/-- What a clock can show: a second that can be represented, and no leap second. -/
structure IsReading (t : Timestamp) : Prop where
  first : firstSecond ≤ t.seconds
  last : t.seconds ≤ lastSecond
  nanos : t.nanos < 10 ^ 9

def Outreached (t : Timestamp) (window : Nat) : Prop :=
  t.seconds - window < firstSecond

variable {t : Timestamp}

theorem before?_eq_none_iff (reading : t.IsReading) {window : Nat} :
    t.before? window = none ↔ t.Outreached window := by
  have := reading.last
  have := reading.nanos
  unfold before? ofParts? Outreached
  split
  · simp only [reduceCtorEq, false_iff]
    omega
  · simp only [true_iff]
    omega

theorem before?_of_not_outreached (reading : t.IsReading) {window : Nat}
    (within : ¬t.Outreached window) :
    t.before? window = some ⟨t.seconds - window, t.nanos⟩ := by
  have := reading.last
  have := reading.nanos
  unfold Outreached at within
  unfold before? ofParts?
  rw [if_pos (by omega)]

end Timestamp

namespace Rewards

open Timestamp

/-- A window that is taken for a difference of times, and reaches back too far from a moment. -/
def Overreaches (now : Timestamp) (window : UInt64) : Prop :=
  window.toNat ≤ maxWindow ∧ now.Outreached window.toNat

structure Cutoffs (now : Timestamp) (window : UInt64) : Prop where
  tooLong : maxWindow < window.toNat ↔ cutoff now window = .error (.settings .windowTooLong)
  exact : ∀ t, cutoff now window = .ok (some t) ↔
    window.toNat ≤ maxWindow ∧ ¬now.Outreached window.toNat ∧
      t = ⟨now.seconds - window.toNat, now.nanos⟩
  missing : cutoff now window = .ok none ↔ Overreaches now window

theorem cutoffs {now : Timestamp} (reading : now.IsReading) (window : UInt64) :
    Cutoffs now window := by
  by_cases long : maxWindow < window.toNat
  · have refused : cutoff now window = .error (.settings .windowTooLong) := if_pos long
    refine ⟨⟨fun _ => refused, fun _ => long⟩, fun t => ?_, ?_⟩
    · rw [refused]
      exact ⟨nofun, fun h => absurd long (Nat.not_lt.mpr h.1)⟩
    · rw [refused]
      exact ⟨nofun, fun h => absurd long (Nat.not_lt.mpr h.1)⟩
  · have short := Nat.not_lt.mp long
    have taken : cutoff now window = .ok (now.before? window.toNat) := if_neg long
    refine ⟨⟨fun h => absurd h long, fun h => ?_⟩, fun t => ?_, ?_⟩
    · rw [taken] at h
      cases h
    · rw [taken]
      by_cases far : now.Outreached window.toNat
      · rw [(before?_eq_none_iff reading).mpr far]
        exact ⟨nofun, fun h => absurd far h.2.1⟩
      · rw [before?_of_not_outreached reading far]
        simp [short, far, eq_comm]
    · rw [taken, Except.ok.injEq, before?_eq_none_iff reading]
      exact ⟨fun far => ⟨short, far⟩, fun h => h.2⟩

/-- From the epoch on no window of less than a quarter of a million years reaches too far. -/
theorem not_overreaches {now : Timestamp} {window : UInt64} (late : 0 ≤ now.seconds)
    (modest : window.toNat ≤ firstSecond.natAbs) : ¬Overreaches now window := by
  rintro ⟨-, far⟩
  unfold Outreached at far
  unfold firstSecond at far modest
  omega

namespace Poller

variable {s : Settings} {ix₀ ix : Indexer} {poller : Poller} {begun : List Timestamp}

def begins (ix : Indexer) : Poller → Bool
  | .idle => !ix.stopping
  | _ => false

/-- The moments at which the poller began a cycle, the state of the indexer, and the poller: the
clock shows anything at a tick, calls are answered in any way, and others go on meanwhile. -/
inductive Course (s : Settings) (ix₀ : Indexer) : List Timestamp → Indexer → Poller → Prop
  | start : Course s ix₀ [] (Poller.start s ix₀).1 (Poller.start s ix₀).2
  | tick (now : Timestamp) {begun : List Timestamp} {ix : Indexer} {poller : Poller} :
    now.IsReading → Course s ix₀ begun ix poller →
    Course s ix₀ (begun ++ if poller.begins ix then [now] else []) (poller.tick s now ix).1
      (poller.tick s now ix).2
  | step (answer : Answer) {begun : List Timestamp} {ix : Indexer} {poller : Poller} :
    Course s ix₀ begun ix poller →
    Course s ix₀ begun (poller.step answer ix).1 (poller.step answer ix).2
  | elsewhere {begun : List Timestamp} {ix ix' : Indexer} {poller : Poller} :
    ix.Elsewhere ix' → Course s ix₀ begun ix poller → Course s ix₀ begun ix' poller

/-- A tick crashes the poller exactly when it begins a cycle whose window reaches too far. -/
theorem tick_crashed_iff {now : Timestamp} (reading : now.IsReading) :
    (poller.tick s now ix).2 = .crashed ↔
      poller = .crashed ∨ poller.begins ix = true ∧ Overreaches now s.rewards.window := by
  have cutoffs := cutoffs reading s.rewards.window
  cases poller with
  | idle =>
    cases stopping : ix.stopping with
    | true => simp [tick, begins, stopping]
    | false =>
      rw [← cutoffs.missing]
      cases found : cutoff now s.rewards.window with
      | error f => simp [tick, begins, stopping, cycle?, found]
      | ok due => cases due <;> simp [tick, begins, stopping, cycle?, found]
  | cycling run => simp [tick, begins]
  | stopped => simp [tick, begins]
  | crashed => simp [tick]

theorem step_crashed_iff {answer : Answer} :
    (poller.step answer ix).2 = .crashed ↔ poller = .crashed := by
  cases poller with
  | cycling run =>
    simp only [step]
    cases run.result? <;> simp [conclude]
  | _ => rfl

theorem Course.crashed_iff (course : Course s ix₀ begun ix poller) :
    poller = .crashed ↔ ∃ now ∈ begun, Overreaches now s.rewards.window := by
  induction course with
  | start => simp [Poller.start]
  | tick now reading _ ih =>
    rw [tick_crashed_iff reading, ih]
    split
    next begins => simp [begins, or_and_right, exists_or]
    next idle => simp [idle]
  | step answer _ ih => rw [step_crashed_iff, ih]
  | elsewhere _ _ ih => exact ih

/-- Steps of the poller one after another, each with its answer and with what others do to the
indexer before it. -/
def play (moves : Nat → Answer × (Indexer → Indexer)) :
    Nat → Indexer → Poller → Indexer × Poller
  | 0, ix, poller => (ix, poller)
  | n + 1, ix, poller =>
    let next := poller.step (moves 0).1 ((moves 0).2 ix)
    play (fun k => moves (k + 1)) n next.1 next.2

theorem exists_idle (moves : Nat → Answer × (Indexer → Indexer)) (ix : Indexer) (run : Run Nat) :
    ∃ n, (play moves n ix (.cycling run)).2 = .idle := by
  obtain ⟨session, script⟩ := run
  induction script generalizing moves ix session with
  | done a => exact ⟨1, rfl⟩
  | fail f => exact ⟨1, rfl⟩
  | note e next ih =>
    obtain ⟨n, idle⟩ := ih (fun k => moves (k + 1)) _ session
    exact ⟨n + 1, idle⟩
  | ask call next ih =>
    cases answer : (moves 0).1 with
    | refused f =>
      refine ⟨2, ?_⟩
      simp only [play, answer]
      rfl
    | granted outputs =>
      obtain ⟨n, idle⟩ := ih (call.perform outputs ((moves 0).2 ix).store session).1
        (fun k => moves (k + 1)) _ (call.perform outputs ((moves 0).2 ix).store session).2.2
      refine ⟨n + 1, ?_⟩
      rw [play, answer]
      exact idle

structure Ticks (s : Settings) (now : Timestamp) (ix : Indexer) (poller : Poller) : Prop where
  cutoffs : Cutoffs now s.rewards.window
  crashes : (poller.tick s now ix).2 = .crashed ↔
    poller = .crashed ∨ poller.begins ix = true ∧ Overreaches now s.rewards.window
  /-- The first step of a cycle with too long a window is its last, and reports why. -/
  reports : poller.begins ix = true → maxWindow < s.rewards.window.toNat → ∀ answer ix',
    (poller.tick s now ix).2.step answer ix' =
      conclude (.error (.settings .windowTooLong)) ix'
  completes : poller.begins ix = true → ¬Overreaches now s.rewards.window → ∀ moves,
    ∃ n, (play moves n (poller.tick s now ix).1 (poller.tick s now ix).2).2 = .idle

theorem ticks {now : Timestamp} (reading : now.IsReading) : Ticks s now ix poller := by
  have cutoffs := cutoffs reading s.rewards.window
  have begun (begins : poller.begins ix = true) : poller = .idle ∧ ix.stopping = false := by
    cases poller <;> simp_all [Poller.begins]
  refine ⟨cutoffs, tick_crashed_iff reading, fun begins long answer ix' => ?_,
    fun begins reach moves => ?_⟩
  · obtain ⟨rfl, going⟩ := begun begins
    have refused := cutoffs.tooLong.mp long
    simp only [tick, going, cycle?, refused]
    rfl
  · obtain ⟨rfl, going⟩ := begun begins
    have found : cutoff now s.rewards.window ≠ .ok none :=
      fun none => reach (cutoffs.missing.mp none)
    simp only [tick, going, cycle?]
    cases due : cutoff now s.rewards.window with
    | error f => exact exists_idle moves ix _
    | ok due' =>
      cases due' with
      | none => exact absurd due found
      | some t => exact exists_idle moves ix _

/-- The poller crashes exactly when it begins a cycle whose window reaches back to before the
first moment. Any other cycle comes to its result: it fails at once if the window is too long, and
looks back by exactly the window otherwise. -/
theorem Course.looksBack (course : Course s ix₀ begun ix poller) :
    (poller = .crashed ↔ ∃ now ∈ begun, Overreaches now s.rewards.window) ∧
    (∀ run, poller = .cycling run → ∀ moves, ∃ n, (play moves n ix poller).2 = .idle) ∧
    ∀ now, now.IsReading → Ticks s now ix poller := by
  refine ⟨course.crashed_iff, ?_, fun now reading => ticks reading⟩
  rintro run rfl moves
  exact exists_idle moves ix run

/-- With the default window a cycle that is begun comes to its result. -/
theorem Course.looksBack_plain : ∃ ix poller, Course .plain .empty [⟨1700000000, 0⟩] ix poller ∧
    poller ≠ .crashed ∧ ∀ moves, ∃ n, (play moves n ix poller).2 = .idle := by
  have reading : Timestamp.IsReading ⟨1700000000, 0⟩ := ⟨by decide, by decide, by decide⟩
  have course := (@Course.start .plain .empty).tick _ reading
  obtain ⟨crashed, completes, -⟩ := course.looksBack
  refine ⟨_, _, course, fun broken => ?_, completes _ rfl⟩
  obtain ⟨now, member, reaches⟩ := crashed.mp broken
  obtain rfl : now = ⟨1700000000, 0⟩ := List.mem_singleton.mp member
  exact not_overreaches (by decide) (by decide) reaches

/-- A window of nine trillion seconds is accepted, and ends the poller at its first tick. -/
theorem accepted_longWindow : ∃ s : Settings, s.Accepted ∧ s.rewards = ⟨5, 9000000000000⟩ ∧
    cutoff ⟨1700000000, 0⟩ s.rewards.window = .ok none ∧
    ((Poller.start s .empty).2.tick s ⟨1700000000, 0⟩ (Poller.start s .empty).1).2 = .crashed := by
  refine ⟨{ Settings.plain with rewards := ⟨5, 9000000000000⟩ }, ?_, rfl, rfl, rfl⟩
  exact Settings.accepted_iff.mpr ⟨by decide, by decide, rfl, by decide⟩

end Poller
end Rewards
end LedgerIndex
