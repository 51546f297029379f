import SegmentRouting.Random.Uniform
import SegmentRouting.RoutingTable

/-! Building one routing table. Segments with the fewest candidates go first;
each goes to a candidate drawn with weight `max - own`, the distance of its
load to the greatest among the candidates, so that the most loaded one is
never fed while another may take the segment. -/

namespace SegmentRouting

/-- The number of segments assigned to each instance so far. -/
abbrev Load := Dict Nat

def Load.of (load : Load) (i : Instance) : Nat := (load.get? i).getD 0

def maximum (ns : List Nat) : Nat := ns.max?.getD 0

theorem le_maximum {n : Nat} {ns : List Nat} (h : n ∈ ns) : n ≤ maximum ns :=
  List.le_max?_getD_of_mem h

theorem maximum_le {m : Nat} {ns : List Nat} (h : ∀ n ∈ ns, n ≤ m) : maximum ns ≤ m := by
  unfold maximum
  cases hm : ns.max? with
  | none => exact Nat.zero_le m
  | some n => exact h n (List.max?_mem hm)

theorem maximum_mem {ns : List Nat} (h : 0 < maximum ns) : maximum ns ∈ ns := by
  unfold maximum at h ⊢
  cases hm : ns.max? with
  | none => simp [hm] at h
  | some n => exact List.max?_mem hm

def weightsOf (loads : List Nat) : List Nat :=
  let most := maximum loads
  loads.map (most - ·)

/-- The position in whose share of the weights a draw falls. -/
def locate? : List Nat → Nat → Option Nat
  | [], _ => none
  | w :: ws, r => if r < w then some 0 else (locate? ws (r - w)).map (· + 1)

/-- The last position with a weight, or the first of all. -/
def lastPositive : List Nat → Nat
  | [] => 0
  | _ :: ws => if ws.any (0 < ·) then lastPositive ws + 1 else 0

variable {G : Type} [Generator G]

/-- A position drawn in proportion to its weight, or evenly when there is no weight at all. -/
def drawPosition (weights : List Nat) (g : G) : Nat × G :=
  if total weights = 0 then below weights.length g
  else
    let (r, g) := below (total weights) g
    ((locate? weights r).getD (lastPositive weights), g)

/-- A single candidate is taken without a draw. -/
def pick (eligible : List Instance) (load : Load) (g : G) : Option Instance × G :=
  match eligible with
  | [] => (none, g)
  | [only] => (some only, g)
  | _ =>
    let (position, g) := drawPosition (weightsOf (eligible.map load.of)) g
    (eligible[position]?, g)

structure Progress (G : Type) where
  table : RoutingTable
  load : Load
  source : G

def Progress.place (p : Progress G) (c : Candidates) : Progress G :=
  match pick c.eligible.toList p.load p.source with
  | (none, source) => ⟨p.table, p.load, source⟩
  | (some i, source) =>
    ⟨p.table.add i c.segment, p.load.update i (fun n => n.getD 0 + 1), source⟩

def Candidates.sizeLE (a b : Candidates) : Bool := decide (a.eligible.size ≤ b.eligible.size)

/-- Fewest candidates first; entries with equally many keep their order. -/
def Coverage.placementOrder (c : Coverage) : List Candidates :=
  c.entries.mergeSort Candidates.sizeLE

def Coverage.assign (c : Coverage) (g : G) : RoutingTable × G :=
  let done := c.placementOrder.foldl Progress.place ⟨.empty, .empty, g⟩
  (done.table, done.source)

end SegmentRouting
