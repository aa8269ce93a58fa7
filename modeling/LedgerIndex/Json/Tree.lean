import LedgerIndex.Json.Escape
import LedgerIndex.Json.Token

/-!
# Trees of JSON

Reading goes through tokens with an explicit stack of the arrays and objects that
are still open, so nesting is not limited here. Objects keep the order of their
members and repeated keys. Writing is compact.
-/
namespace LedgerIndex

inductive Json where
  | scalar (s : Json.Scalar)
  | array (items : List Json)
  | object (members : List (Bytes × Json))

namespace Json

instance : Inhabited Json := ⟨.scalar .null⟩

/-- An open array or object; what it holds so far is in reverse. -/
inductive Frame where
  | array (items : List Json)
  | object (members : List (Bytes × Json)) (key : Bytes)

/-- What a reader expects next, innermost open frame first. -/
inductive Reader where
  | value (stack : List Frame)
  | firstItem (stack : List Frame)
  | afterItem (items : List Json) (stack : List Frame)
  | firstKey (stack : List Frame)
  | nextKey (members : List (Bytes × Json)) (stack : List Frame)
  | colon (members : List (Bytes × Json)) (key : Bytes) (stack : List Frame)
  | afterMember (members : List (Bytes × Json)) (stack : List Frame)
  | done (value : Json)

/-- Hands a finished value to the innermost open frame. -/
def Reader.deliver (v : Json) : List Frame → Reader
  | [] => .done v
  | .array items :: stack => .afterItem (v :: items) stack
  | .object members key :: stack => .afterMember ((key, v) :: members) stack

/-- A value begins. -/
def Reader.begin (stack : List Frame) : Token → Option Reader
  | .scalar s => some (deliver (.scalar s) stack)
  | .openArray => some (.firstItem stack)
  | .openObject => some (.firstKey stack)
  | _ => none

def Reader.step : Reader → Token → Option Reader
  | .value stack, t => begin stack t
  | .firstItem stack, .closeArray => some (deliver (.array []) stack)
  | .firstItem stack, t => begin (.array [] :: stack) t
  | .afterItem items stack, .comma => some (.value (.array items :: stack))
  | .afterItem items stack, .closeArray => some (deliver (.array items.reverse) stack)
  | .firstKey stack, .closeObject => some (deliver (.object []) stack)
  | .firstKey stack, .scalar (.string key) => some (.colon [] key stack)
  | .nextKey members stack, .scalar (.string key) => some (.colon members key stack)
  | .colon members key stack, .colon => some (.value (.object members key :: stack))
  | .afterMember members stack, .comma => some (.nextKey members stack)
  | .afterMember members stack, .closeObject => some (deliver (.object members.reverse) stack)
  | _, _ => none

def Reader.run (reader : Reader) : List Token → Option Json
  | [] => match reader with
    | .done v => some v
    | _ => none
  | t :: ts =>
    match reader.step t with
    | none => none
    | some reader => reader.run ts

/-- The tree that a text spells. -/
def read (bs : Bytes) : Option Json :=
  (tokens? bs).bind (Reader.value []).run

mutual

/-- The tokens of the compact text. -/
def tokens : Json → List Token
  | .scalar s => [.scalar s]
  | .array [] => [.openArray, .closeArray]
  | .array (v :: items) => .openArray :: v.tokens ++ itemTokens items ++ [.closeArray]
  | .object [] => [.openObject, .closeObject]
  | .object ((key, v) :: members) =>
    .openObject :: .scalar (.string key) :: .colon :: v.tokens ++ memberTokens members
      ++ [.closeObject]

/-- Each item with the comma before it. -/
def itemTokens : List Json → List Token
  | [] => []
  | v :: items => .comma :: v.tokens ++ itemTokens items

/-- Each member with the comma before it. -/
def memberTokens : List (Bytes × Json) → List Token
  | [] => []
  | (key, v) :: members =>
    .comma :: .scalar (.string key) :: .colon :: v.tokens ++ memberTokens members

end

/-- Compact text. -/
def write (v : Json) : Bytes :=
  v.tokens.flatMap Token.text

/-- A text as a tree. -/
def ofString (s : String) : Json :=
  .scalar (.string (ofText s))

def ofNat (n : Nat) : Json :=
  .scalar (.number (.ofNat n))

def ofBool (b : Bool) : Json :=
  .scalar (.bool b)

/-- A record as an object. -/
def ofMembers (members : List (String × Json)) : Json :=
  .object (members.map fun m => (ofText m.1, m.2))

end Json
end LedgerIndex
