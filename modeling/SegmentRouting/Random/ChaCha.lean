import SegmentRouting.Random.Uniform

/-! The ChaCha stream of twelve rounds as a source of 64-bit words, with a key
spread from a 64-bit seed. A block is a square of words; a quarter round works
on whole rows at once, and diagonals are columns after the rows have turned. -/

namespace SegmentRouting

structure WordRow where
  w0 : UInt32
  w1 : UInt32
  w2 : UInt32
  w3 : UInt32
deriving DecidableEq, Repr

namespace WordRow

def zip (f : UInt32 → UInt32 → UInt32) (a b : WordRow) : WordRow :=
  ⟨f a.w0 b.w0, f a.w1 b.w1, f a.w2 b.w2, f a.w3 b.w3⟩

/-- Each word of the first row, combined with the second, has its bits rotated. -/
def mix (n : UInt32) (a b : WordRow) : WordRow :=
  zip (fun x y => ((x ^^^ y) <<< n) ||| ((x ^^^ y) >>> (32 - n))) a b

def turn (a : WordRow) : WordRow := ⟨a.w1, a.w2, a.w3, a.w0⟩

end WordRow

structure WordSquare where
  a : WordRow
  b : WordRow
  c : WordRow
  d : WordRow
deriving DecidableEq, Repr

namespace WordSquare

/-- The quarter round on all four columns. -/
def columnRound (s : WordSquare) : WordSquare :=
  let a := s.a.zip (· + ·) s.b
  let d := s.d.mix 16 a
  let c := s.c.zip (· + ·) d
  let b := s.b.mix 12 c
  let a := a.zip (· + ·) b
  let d := d.mix 8 a
  let c := c.zip (· + ·) d
  ⟨a, b.mix 7 c, c, d⟩

/-- The quarter round on all four diagonals. -/
def diagonalRound (s : WordSquare) : WordSquare :=
  let t := columnRound ⟨s.a, s.b.turn, s.c.turn.turn, s.d.turn.turn.turn⟩
  ⟨t.a, t.b.turn.turn.turn, t.c.turn.turn, t.d.turn⟩

def doubleRounds : Nat → WordSquare → WordSquare
  | 0, s => s
  | n + 1, s => doubleRounds n s.columnRound.diagonalRound

def add (s t : WordSquare) : WordSquare :=
  ⟨s.a.zip (· + ·) t.a, s.b.zip (· + ·) t.b, s.c.zip (· + ·) t.c, s.d.zip (· + ·) t.d⟩

end WordSquare

def joinWords (low high : UInt32) : UInt64 := low.toUInt64 ||| (high.toUInt64 <<< 32)

structure ChaCha where
  key : WordRow × WordRow
  /-- The number of the next block. -/
  block : UInt64 := 0
  /-- The words of the last block that are still to be drawn. -/
  pending : List UInt64 := []
deriving DecidableEq, Repr

namespace ChaCha

/-- The first word of a block and the seven others. -/
def blockWords (key : WordRow × WordRow) (block : UInt64) : UInt64 × List UInt64 :=
  let start : WordSquare := ⟨⟨0x61707865, 0x3320646e, 0x79622d32, 0x6b206574⟩, key.1, key.2,
    ⟨block.toUInt32, (block >>> 32).toUInt32, 0, 0⟩⟩
  let s := (start.doubleRounds 6).add start
  (joinWords s.a.w0 s.a.w1, [joinWords s.a.w2 s.a.w3,
    joinWords s.b.w0 s.b.w1, joinWords s.b.w2 s.b.w3,
    joinWords s.c.w0 s.c.w1, joinWords s.c.w2 s.c.w3,
    joinWords s.d.w0 s.d.w1, joinWords s.d.w2 s.d.w3])

instance : Generator ChaCha where
  next g :=
    match g.pending with
    | v :: vs => (v, ⟨g.key, g.block, vs⟩)
    | [] =>
      let (v, vs) := blockWords g.key g.block
      (v, ⟨g.key, g.block + 1, vs⟩)

/-- One step of the congruential sequence that spreads a seed. -/
def seedStep (state : UInt64) : UInt64 := state * 6364136223846793005 + 11634580027462260723

/-- The key word of a state: high bits folded down and rotated by the topmost five. -/
def seedWord (state : UInt64) : UInt32 :=
  let x := (((state >>> 18) ^^^ state) >>> 27).toUInt32
  let r := (state >>> 59).toUInt32
  (x >>> r) ||| (x <<< ((32 - r) % 32))

/-- A row of key words, with the state after the last. -/
def seedRow (state : UInt64) : WordRow × UInt64 :=
  let s1 := seedStep state
  let s2 := seedStep s1
  let s3 := seedStep s2
  let s4 := seedStep s3
  (⟨seedWord s1, seedWord s2, seedWord s3, seedWord s4⟩, s4)

def ofSeed (seed : UInt64) : ChaCha :=
  let (low, state) := seedRow seed
  ⟨(low, (seedRow state).1), 0, []⟩

end ChaCha

end SegmentRouting
