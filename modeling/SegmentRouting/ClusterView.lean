import SegmentRouting.Dict
import SegmentRouting.ReplicaState

/-! What the cluster reports about one table: which instance holds which
segment in which state, and which instances may serve queries. -/

namespace SegmentRouting

abbrev Instance := String

abbrev Segment := String

/-- State texts are kept as they were reported. -/
structure ClusterView where
  table : String
  segments : Dict (Dict String)
deriving DecidableEq

namespace ClusterView

def ofTable (table : String) : ClusterView := ⟨table, .empty⟩

def withState (v : ClusterView) (segment : Segment) (holder : Instance) (state : String) :
    ClusterView :=
  ⟨v.table, v.segments.update segment (fun old => (old.getD .empty).insert holder state)⟩

def states? (v : ClusterView) (segment : Segment) : Option (Dict String) :=
  v.segments.get? segment

/-- The replicas of a segment by instance; none for a segment not in the view. -/
def replicas (v : ClusterView) (segment : Segment) : List (Instance × ReplicaState) :=
  match v.states? segment with
  | none => []
  | some states => states.toList.map (fun e => (e.1, ReplicaState.ofString e.2))

def names (v : ClusterView) : List Segment := v.segments.keys

def size (v : ClusterView) : Nat := v.segments.size

def isEmpty (v : ClusterView) : Bool := v.segments.isEmpty

end ClusterView

/-- One entry of the list of instances. A disabled instance keeps its replicas
but takes no queries. -/
structure Member where
  id : Instance
  enabled : Bool := true
deriving DecidableEq, Repr

/-- The instances that some entry of the list enables. -/
def serving (members : List Member) : Names :=
  Names.ofList ((members.filter (·.enabled)).map (·.id))

theorem mem_serving {members : List Member} {i : Instance} :
    i ∈ serving members ↔ ∃ m ∈ members, m.enabled = true ∧ m.id = i := by
  simp [serving, Names.mem_ofList, and_assoc]

end SegmentRouting
