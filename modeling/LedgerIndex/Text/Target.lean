import LedgerIndex.Bytes
import LedgerIndex.Text.Hex

/-!
# Request targets

The part of a web address after host and port, as it is sent in a request: dot
segments are resolved, a fragment is left out, and characters that may not stand
there are escaped by the bytes of their UTF-8 form.
-/
namespace LedgerIndex.Text.Target

/-- A byte that is escaped wherever it stands. -/
def isAlwaysEscaped (b : UInt8) : Bool :=
  b < 33 || 126 < b || [34, 60, 62].contains b

/-- In a path the characters \x60, \x7b and \x7d are escaped as well. -/
def isEscapedInPath (b : UInt8) : Bool :=
  isAlwaysEscaped b || [96, 123, 125].contains b

/-- In a query an apostrophe is escaped as well. -/
def isEscapedInQuery (b : UInt8) : Bool :=
  isAlwaysEscaped b || b == 39

def escape (isEscaped : UInt8 → Bool) (cs : List Char) : String :=
  String.ofList <| (Bytes.ofString (String.ofList cs)).flatMap fun b =>
    if isEscaped b then
      ['%', (Hex.digitChar (b.toNat / 16)).toUpper, (Hex.digitChar (b.toNat % 16)).toUpper]
    else [Char.ofNat b.toNat]

/-- Segments that stand for the same place, and for the place above. -/
def isHere (segment : String) : Bool :=
  segment == "." || segment.toLower == "%2e"

def isAbove (segment : String) : Bool :=
  ["..", ".%2e", "%2e.", "%2e%2e"].contains segment.toLower

/-- A drive of a file system, such as "C:" or "c|". -/
def isDrive (segment : String) : Bool :=
  match segment.toList with
  | [letter, mark] => letter.isAlpha && (mark = ':' || mark = '|')
  | _ => false

/-- The segments above the last one; the segments are in reverse. Nothing is above a
drive. -/
def above : List String → List String
  | [] => []
  | segment :: done => if isDrive segment then segment :: done else done

/-- Resolves dot segments; the segments so far are in reverse. -/
def resolve (done : List String) : List String → List String
  | [] => done.reverse
  | segment :: rest =>
    if isHere segment then resolve (if rest.isEmpty then "" :: done else done) rest
    else if isAbove segment then
      let done := above done
      resolve (if rest.isEmpty then "" :: done else done) rest
    else resolve (segment :: done) rest

/-- The path of a target. -/
def path (cs : List Char) : String :=
  let cs := cs.map fun c => if c = '\\' then '/' else c
  let segments := (cs.splitOn '/').map (escape isEscapedInPath)
  "/" ++ "/".intercalate (resolve [] segments.tail)

/-- The target of what follows host and port in an address. -/
def ofSuffix (suffix : String) : String :=
  let cs := suffix.toList.filter fun c => c ≠ '\t' ∧ c ≠ '\n' ∧ c ≠ '\r'
  let cs := cs.takeWhile (· ≠ '#')
  let query := (cs.dropWhile (· ≠ '?')).tail
  let target := path (cs.takeWhile (· ≠ '?'))
  if cs.contains '?' then target ++ "?" ++ escape isEscapedInQuery query else target

/-- An address without the slashes at its end. -/
def trimEnd (s : String) : String :=
  String.ofList (s.toList.reverse.dropWhile (· = '/')).reverse

end LedgerIndex.Text.Target
