import SegmentRouting.PartitionLog

/-! The replicas that may answer for each streaming segment such that no query
sees the data of a partition twice. -/

namespace SegmentRouting

structure Candidates where
  segment : Segment
  eligible : Names
deriving DecidableEq

structure Coverage where
  table : String
  entries : List Candidates
deriving DecidableEq

namespace Coverage

/-- The candidates of a segment; none when the segment is not routed. -/
def eligible? (c : Coverage) (segment : Segment) : Option Names :=
  (c.entries.find? (fun e => e.segment == segment)).map (·.eligible)

def unassignable (c : Coverage) : List Segment :=
  (c.entries.filter (fun e => e.eligible.isEmpty)).map (·.segment)

end Coverage

/-- Online replicas may always serve, consuming ones only those of the
consuming segment, and no others. -/
def ReplicaState.mayServe (state : ReplicaState) (isConsuming : Bool) : Bool :=
  match state with
  | .online => true
  | .consuming => isConsuming
  | _ => false

def ClusterView.candidates (v : ClusterView) (consuming : Option Segment) (scope : Names)
    (segment : Segment) : Candidates :=
  ⟨segment, Names.ofList (((v.replicas segment).filter (fun r =>
    r.2.mayServe (consuming == some segment) && scope.contains r.1)).map (·.1))⟩

/-- Every segment of the logs in order, `consuming` naming for each partition
the segment that may be served from consuming replicas. -/
def Coverage.ofLogs (v : ClusterView) (logs : Dict PartitionLog)
    (consuming : Partition → Option Segment) (scope : Names) : Coverage :=
  ⟨v.table, logs.toList.flatMap (fun p =>
    p.2.segments.map (fun s => v.candidates (consuming p.1) scope s.name))⟩

def ClusterView.consumingIn (v : ClusterView) (logs : Dict PartitionLog) (p : Partition) :
    Option Segment :=
  (logs.get? p).bind v.consuming?

def ClusterView.coverage (v : ClusterView) (members : List Member) : Coverage :=
  Coverage.ofLogs v v.logs (v.consumingIn v.logs) (serving members)

end SegmentRouting
