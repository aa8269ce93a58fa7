import LedgerIndex.Backoff
import LedgerIndex.Decimal.Shortest
import LedgerIndex.Delivery
import LedgerIndex.Failure

/-!
# Settings

A draft names what has been chosen so far, by hand or from environment variables.
Building checks it, the required parts first, and fills in what was left open.
-/
namespace LedgerIndex

/-- When rewards are looked for, in seconds. -/
structure RewardSchedule where
  interval : UInt64
  window : UInt64
deriving DecidableEq, Repr

instance : Inhabited RewardSchedule := ⟨⟨5, 3⟩⟩

structure Settings where
  database : String
  node : Option String
  network : UInt32
  chain : String
  asset : Identifier
  part : String
  topicBase : String
  pollInterval : Nat
  batchSize : Nat
  workers : Nat
  backoff : Backoff
  rewards : RewardSchedule
  writeBudget : Nat
  lockBudget : Nat
  overwrite : Bool
  strict : Bool

/-- Choices that are not made yet are missing. -/
structure Settings.Draft where
  database : Option String := none
  node : Option String := none
  network : Option UInt32 := none
  chain : Option String := none
  asset : Option String := none
  part : Option String := none
  topicBase : Option String := none
  pollInterval : Option Nat := none
  batchSize : Option Nat := none
  workers : Option Nat := none
  backoff : Option Backoff := none
  rewards : Option RewardSchedule := none
  writeBudget : Option Nat := none
  lockBudget : Option Nat := none
  overwrite : Option Bool := none
  strict : Option Bool := none

/-- The delay starts positive and grows toward its ceiling. -/
def Backoff.check (b : Backoff) : Except SettingsFault Unit :=
  if b.initial = 0 then .error .noFirstDelay
  else if b.ceiling < b.initial then .error (.ceilingTooLow b.initial b.ceiling)
  else if !b.multiplier.isFinite || b.multiplier < 1.0 then
    .error (.badMultiplier (Decimal.text b.multiplier))
  else .ok ()

def RewardSchedule.check (r : RewardSchedule) : Except SettingsFault Unit :=
  if r.interval = 0 then .error .noPollInterval else .ok ()

namespace Settings

def topics (s : Settings) : Topics :=
  Topics.ofChain s.network s.chain s.topicBase

/-- A choice that has to be made. -/
def require {α : Type} (fault : SettingsFault) : Option α → Except SettingsFault α
  | some a => .ok a
  | none => .error fault

namespace Draft

/-- Checks a draft and fills in the defaults. -/
def build (d : Draft) : Except SettingsFault Settings := do
  let database ← require .missingDatabase d.database
  let chain ← require .missingChain d.chain
  let source ← require .missingAsset d.asset
  let asset ← (Fixed.parse source : Except Fixed.Fault Identifier).mapError fun f =>
    .badAsset source (Identifier.decodingFault f)
  let batchSize := d.batchSize.getD 100
  let workers := d.workers.getD 10
  if batchSize = 0 ∨ workers = 0 then throw .nothingPerBatch
  let backoff := d.backoff.getD default
  backoff.check
  let rewards := d.rewards.getD default
  rewards.check
  return {
    database, chain, asset, batchSize, workers, backoff, rewards
    node := d.node
    network := d.network.getD 1
    part := d.part.getD "local"
    topicBase := d.topicBase.getD "atomic"
    pollInterval := d.pollInterval.getD 1
    writeBudget := d.writeBudget.getD 180000
    lockBudget := d.lockBudget.getD 5000
    overwrite := d.overwrite.getD false
    strict := d.strict.getD false }

end Draft

/-- Environment variables by name. -/
abbrev Environment := List (String × Bytes)

namespace Environment

/-- A variable that has to be set to a text. -/
def get (env : Environment) (name : String) : Except EnvironmentFault String :=
  match env.lookup name with
  | none => .error .missing
  | some content =>
    match Bytes.toString? content with
    | some s => .ok s
    | none => .error (.notText content)

/-- A variable that may be left out; one that is no text counts as left out. -/
def get? (env : Environment) (name : String) : Option String :=
  (env.get name).toOption

/-- A variable that may be left out and is read by a rule. -/
def read? {α : Type} (env : Environment) (name : String)
    (rule : String → Except Text.Numeral.Fault α) : Except SettingsFault (Option α) :=
  match env.get? name with
  | none => .ok none
  | some source =>
    match rule source with
    | .ok a => .ok (some a)
    | .error f => .error (.badVariable name source f)

end Environment

/-- Settings from environment variables. -/
def ofEnvironment (env : Environment) : Except Failure Settings := do
  let database ← (env.get "DATABASE_URL").mapError .environment
  let chain ← (env.get "CHAIN_ID").mapError .environment
  let asset ← (env.get "NATIVE_ASSET_ID").mapError .environment
  let network ← (env.read? "NETWORK_ID" (Text.Numeral.read (2 ^ 32 - 1))).mapError .settings
  let overwrite ← (env.read? "PERFORM_UPDATES" Text.Numeral.readBool).mapError .settings
  let draft : Draft := {
    database, chain, asset, overwrite
    node := env.get? "NODE_RPC_URL"
    network := network.map UInt32.ofNat
    part := env.get? "BECH32_HRP"
    topicBase := env.get? "TOPIC_BASE" }
  draft.build.mapError .settings

end Settings
end LedgerIndex
