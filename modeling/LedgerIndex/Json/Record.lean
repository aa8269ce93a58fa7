import LedgerIndex.Json.Tree

/-!
# Typed readings of JSON

A reader is given how many more levels of arrays and objects it may enter. A
record is an object whose known members occur once, or an array of the members in
order; unknown members are passed over, and a value that is passed over is not
looked into.
-/
namespace LedgerIndex.Json

/-- The levels of arrays and objects that a text may nest. -/
def maxLevels : Nat := 127

/-- Reads a value of one type, within the given number of levels. -/
abbrev Decoder (α : Type) := (levels : Nat) → Json → Option α

/-- A text. -/
def asText : Decoder String := fun _ j =>
  match j with
  | .scalar (.string raw) => text? raw
  | _ => none

def asBool : Decoder Bool := fun _ j =>
  match j with
  | .scalar (.bool b) => some b
  | _ => none

/-- An integer within bounds. -/
def asInt (low high : Int) : Decoder Int := fun _ j =>
  match j with
  | .scalar (.number n) => n.toInt?.filter fun i => low ≤ i && i ≤ high
  | _ => none

/-- A natural number below `bound`. -/
def asNat (bound : Nat) : Decoder Nat := fun levels j =>
  Int.toNat <$> asInt 0 ((bound : Int) - 1) levels j

def asUInt64 : Decoder UInt64 := fun levels j =>
  UInt64.ofNat <$> asNat (2 ^ 64) levels j

def asUInt32 : Decoder UInt32 := fun levels j =>
  UInt32.ofNat <$> asNat (2 ^ 32) levels j

def asByte : Decoder UInt8 := fun levels j =>
  UInt8.ofNat <$> asNat 256 levels j

/-- A list of values of one type. -/
def asList {α : Type} (item : Decoder α) : Decoder (List α)
  | levels + 1, .array items => items.mapM (item levels)
  | _, _ => none

/-- Bytes as a list of numbers. -/
def asBytes : Decoder Bytes := asList asByte

/-- A value or nothing. -/
def asOption {α : Type} (value : Decoder α) : Decoder (Option α) := fun levels j =>
  match j with
  | .scalar .null => some none
  | _ => some <$> value levels j

/-- The known members that a record holds. -/
structure Record where
  members : List (String × Json)

/-- A record with members of the given names. -/
def record? (names : List String) : Json → Option Record
  | .array items =>
    if items.length ≤ names.length then some ⟨names.zip items⟩ else none
  | .object members => do
    let named ← members.mapM fun m => do return (← text? m.1, m.2)
    let known := named.filter fun m => names.contains m.1
    if (known.map (·.1)).Nodup then some ⟨known⟩ else none
  | .scalar _ => none

/-- A member that must be there. -/
def Record.get {α : Type} (r : Record) (name : String) (value : Json → Option α) : Option α :=
  (r.members.lookup name).bind value

/-- A member that stands for a default when it is missing. -/
def Record.getD {α : Type} (r : Record) (name : String) (default : α)
    (value : Json → Option α) : Option α :=
  match r.members.lookup name with
  | none => some default
  | some j => value j

/-- Every text below is a text, every number is finite, and the levels suffice. A
value that is kept until its type is known has to pass this first. -/
def isSound : (levels : Nat) → Json → Bool
  | _, .scalar (.string raw) => (text? raw).isSome
  | _, .scalar (.number n) => n.isFinite
  | _, .scalar _ => true
  | 0, _ => false
  | levels + 1, .array items => items.all (isSound levels)
  | levels + 1, .object members =>
    members.all fun m => (text? m.1).isSome && isSound levels m.2

end LedgerIndex.Json
