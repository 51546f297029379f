import SegmentRouting.Proofs.Json.RoundTrip
import SegmentRouting.Wire.Tables

/-! Views, members of the cluster, options, routing tables and changes of views are read back
from their JSON text as they were written, whatever strings they hold. -/

namespace SegmentRouting

open Json

theorem Dict.readsAs {α : Type} {read : Reader α} {f : α → Value} {d : Dict α}
    (h : ∀ e ∈ d.toList, ReadsAs read (f e.2) e.2) : ReadsAs (dict read) (d.json f) d :=
  readsAs_dict h

theorem readsAs_states (segments : Dict (Dict String)) :
    ReadsAs statesReader (statesJson segments) segments := by
  apply Dict.readsAs
  intro e _
  exact Dict.readsAs fun e' _ => readsAs_string e'.2

theorem readsAs_strings (names : List String) : ReadsAs (list string) (namesJson names) names :=
  readsAs_list fun name _ => readsAs_string name

theorem Options.readsAs (o : Options) : ReadsAs Options.reader o.json o :=
  Dict.readsAs fun e _ => readsAs_string e.2

theorem ClusterView.readsAs (v : ClusterView) : ReadsAs ClusterView.reader v.json v := by
  have fills : ClusterView.shape.Fills {} [("table_name", .string v.table),
      ("segments", statesJson v.segments)] ⟨some v.table, some v.segments⟩ := by
    apply RecordShape.Fills.of rfl rfl (readsAs_string v.table)
    apply RecordShape.Fills.of rfl rfl (readsAs_states v.segments)
    exact .done _
  exact readsAs_record fills rfl

theorem Member.readsAs (m : Member) : ReadsAs Member.reader m.json m := by
  have fills : Member.shape.Fills {} [("instance_id", .string m.id), ("enabled", .bool m.enabled)]
      ⟨some m.id, some m.enabled⟩ := by
    apply RecordShape.Fills.of rfl rfl (readsAs_string m.id)
    apply RecordShape.Fills.of rfl rfl (readsAs_bool m.enabled)
    exact .done _
  exact readsAs_record fills rfl

theorem ChangeRequest.readsAs (r : ChangeRequest) : ReadsAs ChangeRequest.reader r.json r := by
  have fills : ChangeRequest.shape.Fills {} [("segments", statesJson r.segments),
      ("instances", .array (r.members.map Member.json))] ⟨some r.segments, some r.members⟩ := by
    apply RecordShape.Fills.of rfl rfl (readsAs_states r.segments)
    apply RecordShape.Fills.of rfl rfl (readsAs_list fun m _ => m.readsAs)
    exact .done _
  exact readsAs_record fills rfl

theorem readsAs_tables {α β : Type} {item : Reader α} {f : α → Value}
    {make : String → List α → List Segment → β} {tables : List α}
    (h : ∀ t ∈ tables, ReadsAs item (f t) t) (table : String) (unassignable : List Segment) :
    ReadsAs (record (tablesShape item make))
      (tablesJson table (.array (tables.map f)) unassignable) (make table tables unassignable) := by
  have fills : (tablesShape item make).Fills {} [("table_name", .string table),
      ("tables", .array (tables.map f)), ("unassignable_segments", namesJson unassignable)]
      ⟨some table, some tables, some unassignable⟩ := by
    apply RecordShape.Fills.of rfl rfl (readsAs_string table)
    apply RecordShape.Fills.of rfl rfl (readsAs_list h)
    apply RecordShape.Fills.of rfl rfl (readsAs_strings unassignable)
    exact .done _
  exact readsAs_record fills rfl

/-- The segments of an instance are written in order and read as a set. -/
theorem RoutingTable.readsAs (t : RoutingTable) : ReadsAs RoutingTable.reader t.json t := by
  have hassignments : ReadsAs (dict ((list string).map Names.ofList)) t.json t.assignments := by
    apply Dict.readsAs
    intro e _
    have hread := (readsAs_strings e.2.toList).map Names.ofList
    rwa [Names.ofList_toList] at hread
  exact hassignments.map RoutingTable.mk

namespace TableSet

theorem readsAs (s : TableSet) : ReadsAs TableSet.reader s.json s :=
  readsAs_tables (fun t _ => t.readsAs) s.table s.unassignable

/-- The report of a set is written like the set itself. -/
theorem json_report (s : TableSet) : s.report.json = s.json := by
  have htable : ∀ t : RoutingTable,
      (t.assignments.map (fun _ held => held.toList)).json namesJson = t.json := by
    intro t
    simp only [Dict.json, Dict.map, RoutingTable.json, List.map_map]
    rfl
  simp only [report, TablesReport.json, json, List.map_map]
  congr 2
  exact List.map_congr_left fun t _ => htable t

end TableSet

theorem TablesReport.readsAs (r : TablesReport) : ReadsAs TablesReport.reader r.json r :=
  readsAs_tables (fun _ _ => Dict.readsAs fun e _ => readsAs_strings e.2) r.table r.unassignable

/-- Instances and partitions are written as the texts they are. A table may list instances that
hold nothing, and these come back too. -/
theorem written_values_round_trip :
    RoundTrips ClusterView.reader ClusterView.json ∧
      RoundTrips Member.reader Member.json ∧
      RoundTrips (string : Reader Instance) .string ∧
      RoundTrips (string : Reader Partition) .string ∧
      RoundTrips Options.reader Options.json ∧
      RoundTrips RoutingTable.reader RoutingTable.json ∧
      RoundTrips TableSet.reader TableSet.json :=
  ⟨.of_readsAs ClusterView.readsAs, .of_readsAs Member.readsAs, .of_readsAs readsAs_string,
    .of_readsAs readsAs_string, .of_readsAs Options.readsAs, .of_readsAs RoutingTable.readsAs,
    .of_readsAs TableSet.readsAs⟩

end SegmentRouting
