import SegmentRouting.Coverage

/-! Routing tables: for one query, which instance answers for which segments, and what can
go wrong while they are built or looked up. -/

namespace SegmentRouting

/-- The sum, at the instances that `Nat` itself has. -/
abbrev total (ns : List Nat) : Nat := @List.sum Nat _ Zero.ofOfNat0 ns

structure RoutingTable where
  assignments : Dict Names
deriving DecidableEq

namespace RoutingTable

def empty : RoutingTable := ⟨.empty⟩

def add (t : RoutingTable) (holder : Instance) (segment : Segment) : RoutingTable :=
  ⟨t.assignments.update holder (fun held => (held.getD .empty).insert segment)⟩

def ofPairs (pairs : List (Instance × Segment)) : RoutingTable :=
  pairs.foldl (fun t p => t.add p.1 p.2) empty

def held? (t : RoutingTable) (holder : Instance) : Option Names := t.assignments.get? holder

/-- The first instance, in order, that holds the segment. -/
def holder? (t : RoutingTable) (segment : Segment) : Option Instance :=
  (t.assignments.toList.find? (fun e => e.2.contains segment)).map (·.1)

def holders (t : RoutingTable) : List Instance := t.assignments.keys

def counts (t : RoutingTable) : Dict Nat := t.assignments.map (fun _ held => held.size)

def size (t : RoutingTable) : Nat := total (t.assignments.toList.map (·.2.size))

def isEmpty (t : RoutingTable) : Bool := t.assignments.isEmpty

end RoutingTable

/-- The alternative tables of one build. The unassignable segments stand in none of them. -/
structure TableSet where
  table : String
  tables : List RoutingTable
  unassignable : List Segment
deriving DecidableEq

/-- Faults in the reported data are no errors: routing then covers less. -/
inductive RoutingError where
  | invalidConfig (key reason : String)
  | tableMismatch (expected actual : String)
  | buildFailed (reason : String)
  | unknownTable (table : String)
deriving DecidableEq, Repr

def RoutingError.message : RoutingError → String
  | .invalidConfig key reason =>
    "Invalid routing configuration for '" ++ key ++ "': " ++ reason
  | .tableMismatch expected actual =>
    "External view is for table '" ++ actual ++ "', expected '" ++ expected ++ "'"
  | .buildFailed reason => "Routing table build failed: " ++ reason
  | .unknownTable table => "No routing tables for table '" ++ table ++ "'"

end SegmentRouting
