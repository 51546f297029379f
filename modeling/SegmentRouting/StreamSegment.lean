import SegmentRouting.Text

/-! Streaming segments by their names: four fields, joined by double
underscores, for the table, the stream partition, the sequence number and the
time of creation. Other names belong to segments that are not routed here. -/

namespace SegmentRouting

/-- The parts between double underscores, which are found from the left and
do not overlap. -/
def splitFields : List Char → List (List Char)
  | [] => [[]]
  | '_' :: '_' :: rest => [] :: splitFields rest
  | c :: rest =>
    match splitFields rest with
    | [] => [[c]]
    | field :: fields => (c :: field) :: fields

abbrev Partition := String

structure StreamSegment where
  name : String
  table : String
  partition : Partition
  sequence : String
deriving DecidableEq, Repr

/-- The sequence field of a name is no natural number within 32 bits. -/
structure SequenceFault where
  name : String
  sequence : String
deriving DecidableEq, Repr

def SequenceFault.message (f : SequenceFault) : String :=
  "Segment " ++ f.name ++ " has a malformed sequence number '" ++ f.sequence ++ "'"

namespace StreamSegment

def ofName? (name : String) : Option StreamSegment :=
  match splitFields name.toList with
  | [table, partition, sequence, _] =>
    some ⟨name, String.ofList table, String.ofList partition, String.ofList sequence⟩
  | _ => none

def sequenceNumber (s : StreamSegment) : Except SequenceFault Nat :=
  (readNatural UInt32.size s.sequence.toList).mapError (fun _ => ⟨s.name, s.sequence⟩)

theorem name_of_ofName? {name : String} {s : StreamSegment} (h : ofName? name = some s) :
    s.name = name := by
  unfold ofName? at h
  split at h
  · exact Option.some.inj h ▸ rfl
  · contradiction

end StreamSegment

end SegmentRouting
