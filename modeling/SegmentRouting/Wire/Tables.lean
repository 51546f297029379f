import SegmentRouting.RoutingTable
import SegmentRouting.Wire.View

/-! The JSON forms of routing tables and of what the broker reports about them. -/

namespace SegmentRouting

open Json

def namesJson (names : List String) : Value := .array (names.map .string)

namespace RoutingTable

def json (t : RoutingTable) : Value := t.assignments.json (fun held => namesJson held.toList)

def reader : Reader RoutingTable := (dict ((list string).map Names.ofList)).map RoutingTable.mk

end RoutingTable

/-- Routing tables as they are reported, the segments of an instance in a list. -/
structure TablesReport where
  table : String
  tables : List (Dict (List Segment))
  unassignable : List Segment
deriving DecidableEq

/-- The members of a set of tables, with the value of its tables. -/
def tablesJson (table : String) (tables : Value) (unassignable : List Segment) : Value :=
  .object [("table_name", .string table), ("tables", tables),
    ("unassignable_segments", namesJson unassignable)]

structure TablesDraft (α : Type) where
  table : Option String := none
  tables : Option (List α) := none
  unassignable : Option (List Segment) := none

/-- All three members are required. -/
def tablesShape {α β : Type} (item : Reader α) (make : String → List α → List Segment → β) :
    RecordShape (TablesDraft α) β where
  blank := {}
  fields := [
    .of "table_name" TablesDraft.table (fun d x => { d with table := some x }) string,
    .of "tables" TablesDraft.tables (fun d x => { d with tables := some x }) (list item),
    .of "unassignable_segments" TablesDraft.unassignable
      (fun d x => { d with unassignable := some x }) (list string)]
  finish d := do return make (← d.table) (← d.tables) (← d.unassignable)

namespace TableSet

def json (s : TableSet) : Value :=
  tablesJson s.table (.array (s.tables.map RoutingTable.json)) s.unassignable

def reader : Reader TableSet := record (tablesShape RoutingTable.reader TableSet.mk)

def report (s : TableSet) : TablesReport :=
  ⟨s.table, s.tables.map (fun t => t.assignments.map (fun _ held => held.toList)), s.unassignable⟩

end TableSet

namespace TablesReport

def json (r : TablesReport) : Value :=
  tablesJson r.table (.array (r.tables.map (Dict.json namesJson))) r.unassignable

def reader : Reader TablesReport := record (tablesShape (dict (list string)) TablesReport.mk)

end TablesReport

structure BuildSummary where
  table : String
  tableCount : Nat
  routedSegments : Nat
  unassignable : List Segment
deriving DecidableEq, Repr

/-- All tables of a set route the same segments, so that the first speaks for all. -/
def TableSet.summary (s : TableSet) : BuildSummary :=
  ⟨s.table, s.tables.length, (s.tables.head?.map (·.size)).getD 0, s.unassignable⟩

def BuildSummary.json (b : BuildSummary) : Value :=
  .object [("table_name", .string b.table), ("table_count", .number b.tableCount),
    ("routed_segments", .number b.routedSegments),
    ("unassignable_segments", namesJson b.unassignable)]

def tableListJson (names : List String) : Value := .object [("tables", namesJson names)]

def RoutingError.json (e : RoutingError) : Value := .object [("error", .string e.message)]

end SegmentRouting
