import SegmentRouting.Dict
import SegmentRouting.Json.Number

/-! Reading JSON text from left to right as a value of an expected kind. The
first fault decides: text that is no JSON is malformed, and a value of another
kind is a mismatch as soon as that shows, before the rest of it is read. -/

namespace SegmentRouting.Json

inductive ReadFault where
  | malformed
  | mismatch
deriving DecidableEq, Repr

/-- Reads a value at the front of a text and gives it with the text after it. -/
abbrev Reader (α : Type) := List Char → Except ReadFault (α × List Char)

def isSpace (c : Char) : Bool := c == ' ' || c == '\t' || c == '\n' || c == '\r'

def skipSpace (s : List Char) : List Char := s.dropWhile isSpace

def literal : List Char → List Char → Except ReadFault (List Char)
  | [], s => .ok s
  | c :: cs, d :: s => if c = d then literal cs s else .error .malformed
  | _ :: _, [] => .error .malformed

def hexValue? (c : Char) : Option Nat :=
  if c.isDigit then some (c.toNat - '0'.toNat)
  else if 'a' ≤ c ∧ c ≤ 'f' then some (c.toNat - 'a'.toNat + 10)
  else if 'A' ≤ c ∧ c ≤ 'F' then some (c.toNat - 'A'.toNat + 10)
  else none

def hexCode? : List Char → Option (Nat × List Char)
  | a :: b :: c :: d :: s => do
    let a ← hexValue? a
    let b ← hexValue? b
    let c ← hexValue? c
    let d ← hexValue? d
    return (((a * 16 + b) * 16 + c) * 16 + d, s)
  | _ => none

/-- The low half of a surrogate pair, when the high one was `high`. -/
def lowSurrogate (high : Nat) : List Char → Except ReadFault (Char × List Char)
  | '\\' :: 'u' :: s =>
    match hexCode? s with
    | some (low, s) =>
      if 0xdc00 ≤ low ∧ low ≤ 0xdfff then
        .ok (Char.ofNat (0x10000 + (high - 0xd800) * 0x400 + (low - 0xdc00)), s)
      else .error .malformed
    | none => .error .malformed
  | _ => .error .malformed

def escapedCode (s : List Char) : Except ReadFault (Char × List Char) :=
  match hexCode? s with
  | none => .error .malformed
  | some (n, s) =>
    if n < 0xd800 ∨ 0xdfff < n then .ok (Char.ofNat n, s)
    else if n < 0xdc00 then lowSurrogate n s
    else .error .malformed

def escaped : List Char → Except ReadFault (Char × List Char)
  | '"' :: s => .ok ('"', s)
  | '\\' :: s => .ok ('\\', s)
  | '/' :: s => .ok ('/', s)
  | 'b' :: s => .ok ('\x08', s)
  | 'f' :: s => .ok ('\x0c', s)
  | 'n' :: s => .ok ('\n', s)
  | 'r' :: s => .ok ('\r', s)
  | 't' :: s => .ok ('\t', s)
  | 'u' :: s => escapedCode s
  | _ => .error .malformed

/-- The characters up to the closing quote, of which there are at most as many as the bound. -/
def stringChars : Nat → List Char → Except ReadFault (List Char × List Char)
  | _, [] => .error .malformed
  | 0, _ => .error .malformed
  | _ + 1, '"' :: s => .ok ([], s)
  | bound + 1, '\\' :: s => do
    let (c, s) ← escaped s
    let (cs, s) ← stringChars bound s
    return (c :: cs, s)
  | bound + 1, c :: s =>
    if c.toNat < 0x20 then .error .malformed
    else do
      let (cs, s) ← stringChars bound s
      return (c :: cs, s)

def stringRest (s : List Char) : Except ReadFault (String × List Char) := do
  let (cs, s) ← stringChars s.length s
  return (String.ofList cs, s)

/-- The fault of a value of the wrong kind. Lists and objects show by their bracket; a
string, number or word is read to its end first. -/
def wrongKind : List Char → ReadFault
  | '[' :: _ => .mismatch
  | '{' :: _ => .mismatch
  | '"' :: s => if (stringRest s).isOk then .mismatch else .malformed
  | 'n' :: s => if (literal ['u', 'l', 'l'] s).isOk then .mismatch else .malformed
  | 't' :: s => if (literal ['r', 'u', 'e'] s).isOk then .mismatch else .malformed
  | 'f' :: s => if (literal ['a', 'l', 's', 'e'] s).isOk then .mismatch else .malformed
  | s =>
    match numeral? s with
    | some (n, _) => if n.isTooLarge then .malformed else .mismatch
    | none => .malformed

def string : Reader String := fun s =>
  match skipSpace s with
  | '"' :: s => stringRest s
  | s => .error (wrongKind s)

def bool : Reader Bool := fun s =>
  match skipSpace s with
  | 't' :: s => (literal ['r', 'u', 'e'] s).map (fun s => (true, s))
  | 'f' :: s => (literal ['a', 'l', 's', 'e'] s).map (fun s => (false, s))
  | s => .error (wrongKind s)

def colon (s : List Char) : Except ReadFault (List Char) :=
  match skipSpace s with
  | ':' :: s => .ok s
  | _ => .error .malformed

variable {α β : Type}

def Reader.map (f : α → β) (read : Reader α) : Reader β := fun s =>
  (read s).map (fun r => (f r.1, r.2))

/-- The items after the first, and the closing bracket. -/
def moreItems (item : Reader α) : Nat → Reader (List α)
  | 0, _ => .error .malformed
  | bound + 1, s =>
    match skipSpace s with
    | ']' :: s => .ok ([], s)
    | ',' :: s => do
      let (x, s) ← item s
      let (xs, s) ← moreItems item bound s
      return (x :: xs, s)
    | _ => .error .malformed

def list (item : Reader α) : Reader (List α) := fun s =>
  match skipSpace s with
  | '[' :: s =>
    match skipSpace s with
    | ']' :: s => .ok ([], s)
    | s => do
      let (x, s) ← item s
      let (xs, s) ← moreItems item s.length s
      return (x :: xs, s)
  | s => .error (wrongKind s)

def entry (value : Reader α) : Reader (String × α) := fun s =>
  match skipSpace s with
  | '"' :: s => do
    let (key, s) ← stringRest s
    let s ← colon s
    let (v, s) ← value s
    return ((key, v), s)
  | _ => .error .malformed

/-- The entries after the first, and the closing brace. -/
def moreEntries (value : Reader α) : Nat → Reader (List (String × α))
  | 0, _ => .error .malformed
  | bound + 1, s =>
    match skipSpace s with
    | '}' :: s => .ok ([], s)
    | ',' :: s => do
      let (e, s) ← entry value s
      let (es, s) ← moreEntries value bound s
      return (e :: es, s)
    | _ => .error .malformed

/-- An object as a dictionary. Of several values for one key the last stays. -/
def dict (value : Reader α) : Reader (Dict α) := fun s =>
  match skipSpace s with
  | '{' :: s =>
    match skipSpace s with
    | '}' :: s => .ok (.empty, s)
    | s => do
      let (e, s) ← entry value s
      let (es, s) ← moreEntries value s.length s
      return (Dict.ofList (e :: es), s)
  | s => .error (wrongKind s)

/-- A text that holds one value and only space after it. -/
def readWhole (read : Reader α) (text : String) : Except ReadFault α := do
  let (a, rest) ← read text.toList
  if (skipSpace rest).isEmpty then return a else throw .malformed

/-- The value at the front of a text, whatever follows it. -/
def readFront (read : Reader α) (text : String) : Except ReadFault α :=
  (read text.toList).map (·.1)

end SegmentRouting.Json
