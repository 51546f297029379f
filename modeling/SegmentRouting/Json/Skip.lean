import SegmentRouting.Json.Reader

/-! Passing over a JSON value of any kind and depth. Only its grammar is
looked at: an escape may name half of a surrogate pair, and a number may be of
any size. -/

namespace SegmentRouting.Json

def skipString : List Char → Except ReadFault (List Char)
  | [] => .error .malformed
  | '"' :: s => .ok s
  | '\\' :: 'u' :: a :: b :: c :: d :: s =>
    if [a, b, c, d].all (fun x => (hexValue? x).isSome) then skipString s else .error .malformed
  | '\\' :: c :: s =>
    if ['"', '\\', '/', 'b', 'f', 'n', 'r', 't'].contains c then skipString s
    else .error .malformed
  | c :: s => if c.toNat < 0x20 then .error .malformed else skipString s

def skipScalar : List Char → Except ReadFault (List Char)
  | '"' :: s => skipString s
  | 'n' :: s => literal ['u', 'l', 'l'] s
  | 't' :: s => literal ['r', 'u', 'e'] s
  | 'f' :: s => literal ['a', 'l', 's', 'e'] s
  | s =>
    match numeral? s with
    | some (_, s) => .ok s
    | none => .error .malformed

def skipKey (s : List Char) : Except ReadFault (List Char) :=
  match skipSpace s with
  | '"' :: s => do
    let s ← skipString s
    colon s
  | _ => .error .malformed

inductive Bracket where
  | square
  | curly
deriving DecidableEq, Repr

/-- Pass over values until the brackets that are open have closed. `due` says
that a value has to come next; else one has just ended. -/
def skipOpen : Nat → List Bracket → Bool → List Char → Except ReadFault (List Char)
  | 0, _, _, _ => .error .malformed
  | bound + 1, stack, true, s =>
    match skipSpace s with
    | '[' :: s =>
      match skipSpace s with
      | ']' :: s => skipOpen bound stack false s
      | s => skipOpen bound (.square :: stack) true s
    | '{' :: s =>
      match skipSpace s with
      | '}' :: s => skipOpen bound stack false s
      | s => do
        let s ← skipKey s
        skipOpen bound (.curly :: stack) true s
    | s => do
      let s ← skipScalar s
      skipOpen bound stack false s
  | _ + 1, [], false, s => .ok s
  | bound + 1, .square :: stack, false, s =>
    match skipSpace s with
    | ']' :: s => skipOpen bound stack false s
    | ',' :: s => skipOpen bound (.square :: stack) true s
    | _ => .error .malformed
  | bound + 1, .curly :: stack, false, s =>
    match skipSpace s with
    | '}' :: s => skipOpen bound stack false s
    | ',' :: s => do
      let s ← skipKey s
      skipOpen bound (.curly :: stack) true s
    | _ => .error .malformed

/-- Each step passes over a character, except the last. -/
def skipValue (s : List Char) : Except ReadFault (List Char) :=
  skipOpen (s.length + 1) [] true s

end SegmentRouting.Json
