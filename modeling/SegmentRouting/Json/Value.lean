/-! JSON values and their compact text. Members of an object are written in the
order they are given. -/

namespace SegmentRouting.Json

inductive Value where
  | null
  | bool (b : Bool)
  | number (n : Nat)
  | string (s : String)
  | array (items : List Value)
  | object (fields : List (String × Value))

def hexDigit (n : Nat) : Char := n.digitChar

/-- Quotes, backslashes and control characters are escaped, by a letter where there is one. -/
def escape (c : Char) : List Char :=
  match c with
  | '"' => ['\\', '"']
  | '\\' => ['\\', '\\']
  | '\x08' => ['\\', 'b']
  | '\x0c' => ['\\', 'f']
  | '\n' => ['\\', 'n']
  | '\r' => ['\\', 'r']
  | '\t' => ['\\', 't']
  | c =>
    if c.toNat < 0x20 then
      ['\\', 'u', '0', '0', hexDigit (c.toNat / 16), hexDigit (c.toNat % 16)]
    else [c]

def quoted (s : String) : List Char := '"' :: s.toList.flatMap escape ++ ['"']

namespace Value

mutual

def chars : Value → List Char
  | null => ['n', 'u', 'l', 'l']
  | bool true => ['t', 'r', 'u', 'e']
  | bool false => ['f', 'a', 'l', 's', 'e']
  | number n => Nat.toDigits 10 n
  | string s => quoted s
  | array [] => ['[', ']']
  | array (v :: vs) => '[' :: v.chars ++ itemsChars vs
  | object [] => ['{', '}']
  | object ((k, v) :: fs) => '{' :: quoted k ++ ':' :: v.chars ++ fieldsChars fs

/-- The items after the first, and the closing bracket. -/
def itemsChars : List Value → List Char
  | [] => [']']
  | v :: vs => ',' :: v.chars ++ itemsChars vs

/-- The members after the first, and the closing brace. -/
def fieldsChars : List (String × Value) → List Char
  | [] => ['}']
  | (k, v) :: fs => ',' :: quoted k ++ ':' :: v.chars ++ fieldsChars fs

end

def text (v : Value) : String := String.ofList v.chars

end Value

end SegmentRouting.Json
