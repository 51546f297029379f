/-! Numbers in JSON text: their grammar, and whether their value lies beyond
the finite double-precision numbers. -/

namespace SegmentRouting.Json

/-- The digits of a number, its sign apart. -/
structure Numeral where
  whole : List Char
  fraction : List Char
  exponentNegative : Bool
  exponent : List Char
deriving DecidableEq, Repr

def digits? (s : List Char) : Option (List Char × List Char) :=
  match s.takeWhile Char.isDigit with
  | [] => none
  | ds => some (ds, s.dropWhile Char.isDigit)

/-- A zero that leads stands alone. -/
def whole? : List Char → Option (List Char × List Char)
  | '0' :: s =>
    match s with
    | c :: _ => if c.isDigit then none else some (['0'], s)
    | [] => some (['0'], s)
  | s => digits? s

def fraction? : List Char → Option (List Char × List Char)
  | '.' :: s => digits? s
  | s => some ([], s)

def exponentDigits? : List Char → Option (Bool × List Char × List Char)
  | '+' :: s => (digits? s).map (fun r => (false, r))
  | '-' :: s => (digits? s).map (fun r => (true, r))
  | s => (digits? s).map (fun r => (false, r))

def exponent? : List Char → Option (Bool × List Char × List Char)
  | 'e' :: s => exponentDigits? s
  | 'E' :: s => exponentDigits? s
  | s => some (false, [], s)

def unsigned? (s : List Char) : Option (Numeral × List Char) := do
  let (whole, s) ← whole? s
  let (fraction, s) ← fraction? s
  let (negative, exponent, s) ← exponent? s
  return (⟨whole, fraction, negative, exponent⟩, s)

def numeral? : List Char → Option (Numeral × List Char)
  | '-' :: s => unsigned? s
  | s => unsigned? s

/-- Append digits to a value while it stays within 64 bits; the digits left over come second. -/
def absorb : Nat → List Char → Nat × List Char
  | n, [] => (n, [])
  | n, c :: cs =>
    let next := n * 10 + (c.toNat - '0'.toNat)
    if next < UInt64.size then absorb next cs else (n, c :: cs)

/-- The nearest number of 53 significant bits, a tie going to the even one. -/
def roundToDouble (n : Nat) : Nat :=
  if n.log2 < 53 then n
  else
    let unit := 1 <<< (n.log2 - 52)
    let kept := n / unit
    let lost := n % unit
    if unit < 2 * lost || (unit == 2 * lost && kept % 2 == 1) then (kept + 1) * unit
    else kept * unit

/-- The least product that rounds to more than every finite double. -/
def doubleLimit : Nat := (1 <<< 1024) - (1 <<< 970)

namespace Numeral

/-- A significand within 64 bits and the power of ten it is scaled by. -/
def parts (n : Numeral) : Nat × Int :=
  let (significand, dropped) := absorb 0 n.whole
  let (significand, unused) := absorb significand n.fraction
  let exponent : Int := Nat.ofDigitChars 10 n.exponent 0
  (significand, (dropped.length : Int) - ((n.fraction.length - unused.length : Nat) : Int) +
    (if n.exponentNegative then -exponent else exponent))

/-- The significand and the power of ten are rounded to doubles before they are multiplied. -/
def isTooLarge (n : Numeral) : Bool :=
  match n.parts with
  | (_, .negSucc _) => false
  | (significand, .ofNat e) =>
    if e ≤ 308 then
      decide (doubleLimit ≤ roundToDouble significand * roundToDouble (Nat.pow 10 e))
    else significand != 0

end Numeral

end SegmentRouting.Json
