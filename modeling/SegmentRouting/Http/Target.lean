/-! Request targets: the path within them, the routes of the broker, and
percent-decoding of the table name in a route. -/

namespace SegmentRouting.Http

def isSchemeChar (c : Char) : Bool := c.isAlphanum || "+-.~".toList.contains c

/-- What follows a scheme with its colon and two slashes. -/
def afterScheme? (target : List Char) : Option (List Char) :=
  match target.dropWhile isSchemeChar with
  | ':' :: '/' :: '/' :: rest => some rest
  | _ => none

def isPathEnd (c : Char) : Bool := c == '?' || c == '#'

/-- A target is a path, or a scheme and an authority with a path after them; an
authority alone and the asterisk have no path. The query and the fragment have no say. -/
def pathOf (target : List Char) : List Char :=
  let path :=
    match target with
    | '/' :: _ => target
    | _ => ((afterScheme? target).getD []).dropWhile (fun c => c != '/' && !isPathEnd c)
  path.takeWhile (fun c => !isPathEnd c)

def splitSlash : List Char → List (List Char)
  | [] => [[]]
  | c :: rest =>
    match splitSlash rest with
    | [] => [[c]]
    | piece :: pieces => if c = '/' then [] :: piece :: pieces else (c :: piece) :: pieces

def hexByte? (b : UInt8) : Option UInt8 :=
  if 48 ≤ b ∧ b ≤ 57 then some (b - 48)
  else if 97 ≤ b ∧ b ≤ 102 then some (b - 87)
  else if 65 ≤ b ∧ b ≤ 70 then some (b - 55)
  else none

def hexPair? (a b : UInt8) : Option UInt8 := do
  let high ← hexByte? a
  let low ← hexByte? b
  return high * 16 + low

/-- A percent sign without two hexadecimal digits after it stands for itself. -/
def percentBytes : List UInt8 → List UInt8
  | 37 :: a :: b :: rest =>
    match hexPair? a b with
    | some byte => byte :: percentBytes rest
    | none => 37 :: percentBytes (a :: b :: rest)
  | b :: rest => b :: percentBytes rest
  | [] => []

/-- None when the bytes are no UTF-8. -/
def percentDecode? (s : String) : Option String :=
  String.fromUTF8? ⟨(percentBytes s.toUTF8.toList).toArray⟩

/-- The resources of the broker, with the table name as it stands in the path. -/
inductive Route where
  | health
  | tables
  | externalView (table : String)
  | table (table : String)
  | routingTables (table : String)
deriving DecidableEq, Repr

namespace Route

/-- A table name may be empty in the middle of a path, but not at its end. -/
def ofPath? (path : List Char) : Option Route :=
  match (splitSlash path).map String.ofList with
  | ["", "health"] => some health
  | ["", "tables"] => some tables
  | ["", "tables", t] => if t = "" then none else some (table t)
  | ["", "tables", t, "external-view"] => some (externalView t)
  | ["", "debug", "routing-tables", t] => if t = "" then none else some (routingTables t)
  | _ => none

def ofTarget? (target : String) : Option Route := ofPath? (pathOf target.toList)

end Route

end SegmentRouting.Http
