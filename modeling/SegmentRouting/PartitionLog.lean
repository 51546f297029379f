import SegmentRouting.ClusterView
import SegmentRouting.StreamSegment

/-! The streaming segments of a view by partition, and the one segment of each
partition that may be served while it is still being consumed. -/

namespace SegmentRouting

/-- The segments of one partition in order. The order is degraded when some
sequence number cannot be read: then the names alone decide it. -/
structure PartitionLog where
  segments : List StreamSegment
  degraded : Bool
deriving DecidableEq

/-- Numbers first, then names. -/
def rankLE (a b : Nat × String) : Bool :=
  decide (a.1 < b.1) || (decide (a.1 = b.1) && decide (a.2 ≤ b.2))

namespace StreamSegment

def isNumbered (s : StreamSegment) : Bool := s.sequenceNumber.toOption.isSome

/-- The place of a segment in its partition; in a degraded order all numbers count as zero. -/
def rank (degraded : Bool) (s : StreamSegment) : Nat × String :=
  (if degraded then 0 else s.sequenceNumber.toOption.getD 0, s.name)

end StreamSegment

namespace PartitionLog

def ofSegments (segments : List StreamSegment) : PartitionLog :=
  let degraded := !segments.all (·.isNumbered)
  ⟨segments.mergeSort (fun a b => rankLE (a.rank degraded) (b.rank degraded)), degraded⟩

def last? (log : PartitionLog) : Option StreamSegment := log.segments.getLast?

end PartitionLog

namespace ClusterView

def streamSegments (v : ClusterView) : List StreamSegment :=
  v.names.filterMap StreamSegment.ofName?

def logs (v : ClusterView) : Dict PartitionLog :=
  let segments := v.streamSegments
  Dict.ofNames (Names.ofList (segments.map (·.partition)))
    (fun p => PartitionLog.ofSegments (segments.filter (fun s => s.partition == p)))

/-- A segment has flushed once any of its replicas, on whatever instance, is online. -/
def isFlushed (v : ClusterView) (segment : Segment) : Bool :=
  (v.replicas segment).any (fun r => r.2 == .online)

/-- The last segment of a partition may be served from consuming replicas until it has flushed. -/
def consuming? (v : ClusterView) (log : PartitionLog) : Option Segment :=
  match log.last? with
  | none => none
  | some last => if v.isFlushed last.name then none else some last.name

end ClusterView

end SegmentRouting
