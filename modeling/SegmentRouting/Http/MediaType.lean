/-! Media types as a content type header gives them, such as
`application/vnd.api+json; charset=utf-8`. -/

namespace SegmentRouting.Http

def isTokenChar (c : Char) : Bool := c.isAlphanum || "!#$%&'*+-.^_`|~".toList.contains c

def isQuotable (c : Char) : Bool := 31 < c.toNat && c.toNat < 127

/-- How far the parameters after a semicolon have been read. -/
inductive ParameterState where
  | start
  | name
  | valueStart
  | value
  | quoteStart
  | quoted
  | closed
deriving DecidableEq, Repr

namespace ParameterState

/-- Spaces may stand before a name and after a quoted value. The first character
within quotes is part of the value, even where it is a quote. -/
def next (state : ParameterState) (c : Char) : Option ParameterState :=
  match state with
  | start => if c = ' ' then some start else if isTokenChar c then some name else none
  | name => if c = '=' then some valueStart else if isTokenChar c then some name else none
  | valueStart => if c = '"' then some quoteStart else if isTokenChar c then some value else none
  | value => if c = ';' then some start else if isTokenChar c then some value else none
  | quoteStart => if isQuotable c then some quoted else none
  | quoted => if c = '"' then some closed else if isQuotable c then some quoted else none
  | closed => if c = ' ' then some closed else if c = ';' then some start else none

/-- A value may be empty at the very end. -/
def mayEnd : ParameterState → Bool
  | start => true
  | valueStart => true
  | value => true
  | closed => true
  | _ => false

end ParameterState

def areParameters (s : List Char) : Bool :=
  ((s.foldlM ParameterState.next .start).map (·.mayEnd)).getD false

/-- A type and a subtype in lower case, the suffix after the last plus of the subtype apart. -/
structure MediaType where
  kind : String
  subtype : String
  suffix : Option String
deriving DecidableEq, Repr

namespace MediaType

/-- A plus at the very front of the subtype belongs to it. -/
def ofParts (kind subtype : List Char) : MediaType :=
  let lower (s : List Char) : String := String.ofList (s.map Char.toLower)
  let tail := (subtype.reverse.takeWhile (· != '+')).reverse
  let front := subtype.take (subtype.length - tail.length - 1)
  if subtype.contains '+' && !front.isEmpty then ⟨lower kind, lower front, some (lower tail)⟩
  else ⟨lower kind, lower subtype, none⟩

def ofHeader? (header : String) : Option MediaType :=
  let kind := header.toList.takeWhile isTokenChar
  match header.toList.dropWhile isTokenChar with
  | '/' :: rest =>
    let subtype := rest.takeWhile isTokenChar
    if kind.isEmpty then none
    else
      match rest.dropWhile isTokenChar with
      | [] => some (ofParts kind subtype)
      | ';' :: parameters =>
        if !subtype.isEmpty && areParameters parameters then some (ofParts kind subtype) else none
      | _ => none
  | _ => none

def isJson (m : MediaType) : Bool :=
  m.kind == "application" && (m.subtype == "json" || m.suffix == some "json")

end MediaType

end SegmentRouting.Http
