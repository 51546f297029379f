import SegmentRouting.RoutingTable

/-! The current routing tables of every table. Each rebuild takes a generation
when it begins and each drop when it happens; what a table has recorded gives
way only to what is no older. -/

namespace SegmentRouting

/-- What was last recorded for a table: its routing tables, or none since it was dropped. -/
structure Recorded where
  generation : Nat
  tables : Option TableSet
deriving DecidableEq

structure Registry where
  /-- The generation given out last. -/
  latest : Nat
  recorded : Dict Recorded
deriving DecidableEq

/-- A rebuild that has begun. -/
structure Ticket where
  table : String
  generation : Nat
deriving DecidableEq, Repr

namespace Registry

def empty : Registry := ⟨0, .empty⟩

/-- Begin a rebuild of a table, unless the view is one of another table. -/
def start (r : Registry) (table : String) (v : ClusterView) :
    Except RoutingError (Ticket × Registry) :=
  if v.table = table then .ok (⟨table, r.latest + 1⟩, ⟨r.latest + 1, r.recorded⟩)
  else .error (.tableMismatch table v.table)

/-- Whether something newer than the ticket is recorded for its table. -/
def isSuperseded (r : Registry) (t : Ticket) : Bool :=
  match r.recorded.get? t.table with
  | none => false
  | some current => t.generation < current.generation

def enter (r : Registry) (t : Ticket) (set : TableSet) : Registry :=
  if r.isSuperseded t then r
  else ⟨r.latest, r.recorded.insert t.table ⟨t.generation, some set⟩⟩

/-- End a rebuild; one that failed leaves no trace. -/
def finish (r : Registry) (t : Ticket) : Except RoutingError TableSet → Registry
  | .ok set => r.enter t set
  | .error _ => r

def current? (r : Registry) (table : String) : Option TableSet :=
  (r.recorded.get? table).bind (·.tables)

def lookUp (r : Registry) (table : String) : Except RoutingError TableSet :=
  match r.current? table with
  | some set => .ok set
  | none => .error (.unknownTable table)

/-- Forget the routing tables of a table and say whether there were any. Where
there were none nothing is recorded and no generation is taken. -/
def drop (r : Registry) (table : String) : Bool × Registry :=
  match r.current? table with
  | none => (false, r)
  | some _ => (true, ⟨r.latest + 1, r.recorded.insert table ⟨r.latest + 1, none⟩⟩)

/-- The tables that have routing tables, in code point order. -/
def routed (r : Registry) : List String :=
  (r.recorded.toList.filter (fun e => e.2.tables.isSome)).map (·.1)

end Registry

end SegmentRouting
