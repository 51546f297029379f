import SegmentRouting.ClusterView
import SegmentRouting.Deployment
import SegmentRouting.Json.Record
import SegmentRouting.Json.Value

/-! The JSON forms of views, members of the cluster, options, and the request
that brings a new view of a table. -/

namespace SegmentRouting

open Json

def Dict.json {α : Type} (value : α → Value) (d : Dict α) : Value :=
  .object (d.toList.map (fun e => (e.1, value e.2)))

def statesJson (segments : Dict (Dict String)) : Value := segments.json (Dict.json .string)

def statesReader : Reader (Dict (Dict String)) := dict (dict string)

def Options.json (o : Options) : Value := Dict.json .string o

def Options.reader : Reader Options := dict string

namespace ClusterView

def json (v : ClusterView) : Value :=
  .object [("table_name", .string v.table), ("segments", statesJson v.segments)]

structure Draft where
  table : Option String := none
  segments : Option (Dict (Dict String)) := none

/-- Without segments the view is empty. -/
def shape : RecordShape Draft ClusterView where
  blank := {}
  fields := [
    .of "table_name" Draft.table (fun d x => { d with table := some x }) string,
    .of "segments" Draft.segments (fun d x => { d with segments := some x }) statesReader]
  finish d := d.table.map (fun table => ⟨table, d.segments.getD .empty⟩)

def reader : Reader ClusterView := record shape

end ClusterView

namespace Member

def json (m : Member) : Value :=
  .object [("instance_id", .string m.id), ("enabled", .bool m.enabled)]

structure Draft where
  id : Option String := none
  enabled : Option Bool := none

/-- A member is enabled unless it says otherwise. -/
def shape : RecordShape Draft Member where
  blank := {}
  fields := [
    .of "instance_id" Draft.id (fun d x => { d with id := some x }) string,
    .of "enabled" Draft.enabled (fun d x => { d with enabled := some x }) bool]
  finish d := d.id.map (fun id => ⟨id, d.enabled.getD true⟩)

def reader : Reader Member := record shape

end Member

/-- A new view of a table that is named elsewhere. -/
structure ChangeRequest where
  segments : Dict (Dict String)
  members : List Member
deriving DecidableEq

namespace ChangeRequest

def view (r : ChangeRequest) (table : String) : ClusterView := ⟨table, r.segments⟩

def json (r : ChangeRequest) : Value :=
  .object [("segments", statesJson r.segments), ("instances", .array (r.members.map Member.json))]

structure Draft where
  segments : Option (Dict (Dict String)) := none
  members : Option (List Member) := none

def shape : RecordShape Draft ChangeRequest where
  blank := {}
  fields := [
    .of "segments" Draft.segments (fun d x => { d with segments := some x }) statesReader,
    .of "instances" Draft.members (fun d x => { d with members := some x }) (list Member.reader)]
  finish d := some ⟨d.segments.getD .empty, d.members.getD []⟩

def reader : Reader ChangeRequest := record shape

end ChangeRequest

end SegmentRouting
