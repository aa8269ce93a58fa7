import LedgerIndex.Proofs.Course
import LedgerIndex.Proofs.Spelling

/-!
# Accepted settings

Settings are accepted when a draft comes to them, whether it was made by hand or read from an
environment. What building insists on is a property of the settings themselves: two sizes, the
delays between retries, and the interval between reward cycles. Nothing else about them is
looked at, the human-readable part of displayed addresses in particular.
-/
namespace LedgerIndex

theorem RewardSchedule.check_eq_ok_iff {r : RewardSchedule} :
    r.check = .ok () ↔ r.interval ≠ 0 := by
  by_cases never : r.interval = 0 <;> simp [check, never]

namespace Settings

def Accepted (s : Settings) : Prop :=
  ∃ d : Draft, d.build = .ok s

structure Checked (s : Settings) : Prop where
  batches : s.batchSize ≠ 0
  workers : s.workers ≠ 0
  backoff : s.backoff.check = .ok ()
  interval : s.rewards.interval ≠ 0

def draft (s : Settings) : Draft where
  database := s.database
  node := s.node
  network := s.network
  chain := s.chain
  asset := s.asset.text
  part := s.part
  topicBase := s.topicBase
  pollInterval := s.pollInterval
  batchSize := s.batchSize
  workers := s.workers
  backoff := s.backoff
  rewards := s.rewards
  writeBudget := s.writeBudget
  lockBudget := s.lockBudget
  overwrite := s.overwrite
  strict := s.strict

theorem bind_eq_ok_iff {ε α β : Type} {x : Except ε α} {k : α → Except ε β} {b : β} :
    (x >>= k) = .ok b ↔ ∃ a, x = .ok a ∧ k a = .ok b := by
  cases x <;> simp [bind, Except.bind]

theorem mapError_eq_ok_iff {ε δ α : Type} {x : Except ε α} {f : ε → δ} {a : α} :
    x.mapError f = .ok a ↔ x = .ok a := by
  cases x <;> simp [Except.mapError]

theorem mapError_eq_error_iff {ε δ α : Type} {x : Except ε α} {f : ε → δ} {e : δ} :
    x.mapError f = .error e ↔ ∃ e', x = .error e' ∧ f e' = e := by
  cases x <;> simp [Except.mapError]

theorem Draft.checked {d : Draft} {s : Settings} (built : d.build = .ok s) : s.Checked := by
  simp only [build, bind_eq_ok_iff] at built
  obtain ⟨database, -, chain, -, source, -, asset, -, built⟩ := built
  split at built
  · obtain ⟨_, ⟨⟩, -⟩ := bind_eq_ok_iff.mp built
  · next sized =>
    simp only [bind_eq_ok_iff] at built
    obtain ⟨⟨⟩, backoff, ⟨⟩, rewards, built⟩ := built
    cases built
    obtain ⟨batches, workers⟩ := not_or.mp sized
    exact ⟨batches, workers, backoff, RewardSchedule.check_eq_ok_iff.mp rewards⟩

/-- Settings that pass the checks are built from their own draft. -/
theorem Checked.build_draft {s : Settings} (checked : s.Checked) : s.draft.build = .ok s := by
  have sized : ¬(s.batchSize = 0 ∨ s.workers = 0) := not_or.mpr ⟨checked.batches, checked.workers⟩
  have rewards := RewardSchedule.check_eq_ok_iff.mpr checked.interval
  simp only [Draft.build, draft, require, bind, Except.bind, Fixed.parse_text, Except.mapError,
    Option.getD_some, if_neg sized, checked.backoff, rewards]
  rfl

theorem accepted_iff {s : Settings} : s.Accepted ↔ s.Checked :=
  ⟨fun ⟨_, built⟩ => Draft.checked built, fun checked => ⟨s.draft, checked.build_draft⟩⟩

theorem Draft.build_part (d : Draft) (part : Option String) :
    ({ d with part } : Draft).build =
      (fun s => { s with part := part.getD "local" }) <$> d.build := by
  simp only [build, map_bind]
  split <;> simp

theorem ofEnvironment_part (env : Environment) (part : String) :
    ofEnvironment (("BECH32_HRP", Bytes.ofString part) :: env) =
      (fun s => { s with part }) <$> ofEnvironment env := by
  have own : Environment.get? (("BECH32_HRP", Bytes.ofString part) :: env) "BECH32_HRP" =
      some part := by
    simp [Environment.get?, Environment.get, Bytes.toString?_ofString, Except.toOption]
  have others {name : String} (apart : name ≠ "BECH32_HRP") :
      Environment.get (("BECH32_HRP", Bytes.ofString part) :: env) name = env.get name := by
    have passed : List.lookup name (("BECH32_HRP", Bytes.ofString part) :: env) =
        List.lookup name env := by
      rw [List.lookup_cons, beq_false_of_ne apart]
    rw [Environment.get, passed, Environment.get]
  have mapped (d : Draft) : ({ d with part := some part } : Draft).build.mapError Failure.settings =
      (fun s => { s with part }) <$> d.build.mapError Failure.settings := by
    rw [Draft.build_part]
    cases d.build <;> rfl
  simp only [ofEnvironment, Environment.read?, own, map_bind]
  simp only [Environment.get?, others, ne_eq, String.reduceEq, not_false_eq_true]
  refine bind_congr fun database => bind_congr fun chain => bind_congr fun asset =>
    bind_congr fun network => bind_congr fun overwrite => ?_
  refine Eq.trans ?_ (mapped _)
  rfl

end Settings
end LedgerIndex
