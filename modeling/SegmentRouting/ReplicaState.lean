import SegmentRouting.Text

/-! The state of one replica of a segment. Reading a state never fails: what
is not a known state, in any letter case and between any blanks, is unknown. -/

namespace SegmentRouting

inductive ReplicaState where
  | online
  | consuming
  | error
  | offline
  | dropped
  | unknown
deriving DecidableEq, Repr

namespace ReplicaState

/-- Only the letters a to z change case. -/
def ofString (s : String) : ReplicaState :=
  match String.ofList ((trimChars s.toList).map Char.toUpper) with
  | "ONLINE" => online
  | "CONSUMING" => consuming
  | "ERROR" => error
  | "OFFLINE" => offline
  | "DROPPED" => dropped
  | _ => unknown

def name : ReplicaState → String
  | online => "ONLINE"
  | consuming => "CONSUMING"
  | error => "ERROR"
  | offline => "OFFLINE"
  | dropped => "DROPPED"
  | unknown => "UNKNOWN"

end ReplicaState

end SegmentRouting
