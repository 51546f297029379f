import SegmentRouting.Planner
import SegmentRouting.Registry

/-! Rebuilding the routing tables of one table with a worker for each. Workers
finish in any order; the first that reports a failure fails the rebuild. -/

namespace SegmentRouting

/-- What a worker reports: the table it built, or why it stopped. -/
abbrev WorkerReport := Except String RoutingTable

/-- Put reports into the slots of their indexes as they come in. -/
def fillSlots : List (Option RoutingTable) → List (Nat × WorkerReport) →
    Except RoutingError (List (Option RoutingTable))
  | slots, [] => .ok slots
  | _, (_, .error reason) :: _ => .error (.buildFailed reason)
  | slots, (index, .ok table) :: rest => fillSlots (slots.set index (some table)) rest

def fullSlots? : List (Option RoutingTable) → Option (List RoutingTable)
  | [] => some []
  | none :: _ => none
  | some table :: rest => (fullSlots? rest).map (table :: ·)

def collectTables (count : Nat) (reports : List (Nat × WorkerReport)) :
    Except RoutingError (List RoutingTable) := do
  let slots ← fillSlots (List.replicate count none) reports
  match fullSlots? slots with
  | some tables => .ok tables
  | none => .error (.buildFailed "a routing table was not generated")

namespace Planner

/-- The report of the worker for an index. It stops early for the reason `stops` gives, if any. -/
def report (p : Planner) (c : Coverage) (stops : Nat → Option String) (index : Nat) :
    WorkerReport :=
  match stops index with
  | some reason => .error reason
  | none => .ok (p.table c index)

/-- The set built for a table by workers that finish in the given order. -/
def buildConcurrently (p : Planner) (table : String) (v : ClusterView) (members : List Member)
    (stops : Nat → Option String) (order : List Nat) : Except RoutingError TableSet := do
  let c ← p.coverage v members
  let tables ← collectTables p.tableCount (order.map (fun i => (i, p.report c stops i)))
  return ⟨table, tables, c.unassignable⟩

end Planner

namespace Registry

/-- A rebuild from beginning to end. It answers the set it built even where a
newer one was recorded in the meantime. -/
def rebuild (r : Registry) (p : Planner) (table : String) (v : ClusterView)
    (members : List Member) (stops : Nat → Option String) (order : List Nat) :
    Except RoutingError TableSet × Registry :=
  match r.start table v with
  | .error e => (.error e, r)
  | .ok (ticket, r) =>
    let built := p.buildConcurrently table v members stops order
    (built, r.finish ticket built)

end Registry

end SegmentRouting
