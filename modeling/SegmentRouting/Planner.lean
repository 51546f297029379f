import SegmentRouting.Assignment
import SegmentRouting.Deployment
import SegmentRouting.Random.ChaCha

/-! How the tables of a view are planned. The candidates are found once for all
tables; each table is then drawn from them on its own. -/

namespace SegmentRouting

/-- The two phases of a build and the number of tables. -/
structure Planner where
  tableCount : Nat
  coverage : ClusterView → List Member → Except RoutingError Coverage
  table : Coverage → Nat → RoutingTable

namespace Planner

/-- Tables of streaming segments, each drawn from the source of its index. -/
def streaming {G : Type} [Generator G] (tableCount : Nat) (sourceAt : Nat → G) : Planner where
  tableCount := tableCount
  coverage v members := .ok (v.coverage members)
  table c index := (c.assign (sourceAt index)).1

/-- The tables one after the other. -/
def build (p : Planner) (v : ClusterView) (members : List Member) :
    Except RoutingError TableSet :=
  (p.coverage v members).map (fun c =>
    ⟨c.table, (List.range p.tableCount).map (p.table c), c.unassignable⟩)

end Planner

namespace Settings

/-- A seeded build gives the table at index `i` the seed `seed + i`, wrapping around; an
unseeded one takes the sources it is given. -/
def sourceAt (s : Settings) (entropy : Nat → ChaCha) (index : Nat) : ChaCha :=
  match s.seed with
  | none => entropy index
  | some seed => ChaCha.ofSeed (seed + UInt64.ofNat index)

def planner (s : Settings) (entropy : Nat → ChaCha) : Planner :=
  .streaming s.tableCount (s.sourceAt entropy)

end Settings

end SegmentRouting
