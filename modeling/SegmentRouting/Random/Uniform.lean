/-! Sources of random 64-bit words, and even draws of a number below a bound from them by
multiply and reject. A word `v` is kept when the low half of `v * n` lies in the zone, which
is `n` doubled as often as 64 bits allow; the high half is then the number. -/

namespace SegmentRouting

class Generator (G : Type) where
  next : G → UInt64 × G

/-- Words fixed in advance, and zeros after them. -/
structure WordList where
  rest : List UInt64
  drawn : Nat := 0
deriving DecidableEq, Repr

instance : Generator WordList where
  next w :=
    match w.rest with
    | [] => (0, ⟨[], w.drawn + 1⟩)
    | v :: vs => (v, ⟨vs, w.drawn + 1⟩)

/-- How often a number can be doubled within 64 bits. -/
def leadingZeros (n : Nat) : Nat := 63 - n.log2

def zone (n : Nat) : Nat := n <<< leadingZeros n

def keeps (n : Nat) (v : UInt64) : Bool := decide (v.toNat * n % UInt64.size < zone n)

def scaled (n : Nat) (v : UInt64) : Nat := v.toNat * n / UInt64.size

variable {G : Type} [Generator G]

/-- A number below `n`, rejecting at most `attempts` words. The word after
them is scaled whatever it is, so that every source of words gives an answer. -/
def belowWithin (n : Nat) : Nat → G → Nat × G
  | 0, g =>
    let (v, g) := Generator.next g
    (scaled n v, g)
  | attempts + 1, g =>
    let (v, g) := Generator.next g
    if keeps n v then (scaled n v, g) else belowWithin n attempts g

/-- At least half of all words are kept, so that this many rejections do not occur. -/
def maxRejections : Nat := UInt64.size

def below (n : Nat) (g : G) : Nat × G := belowWithin n maxRejections g

theorem scaled_lt {n : Nat} (hn : 0 < n) (v : UInt64) : scaled n v < n := by
  refine (Nat.div_lt_iff_lt_mul (by decide)).mpr ?_
  rw [Nat.mul_comm n]
  exact Nat.mul_lt_mul_of_pos_right (UInt64.toNat_lt v) hn

theorem belowWithin_lt {n : Nat} (hn : 0 < n) (attempts : Nat) (g : G) :
    (belowWithin n attempts g).1 < n := by
  induction attempts generalizing g with
  | zero => exact scaled_lt hn _
  | succ attempts ih =>
    simp only [belowWithin]
    split
    · exact scaled_lt hn _
    · exact ih _

theorem below_lt {n : Nat} (hn : 0 < n) (g : G) : (below n g).1 < n := belowWithin_lt hn _ g

end SegmentRouting
