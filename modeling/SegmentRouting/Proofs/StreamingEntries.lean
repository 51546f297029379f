import Mathlib.Data.List.Nodup
import SegmentRouting.Coverage

/-! Every streaming segment of a view stands once in the log of its own
partition, and so has one entry in the coverage of the view. -/

namespace SegmentRouting

theorem StreamSegment.ofName?_isSome {name : String} :
    (ofName? name).isSome = true ↔ (splitFields name.toList).length = 4 := by
  unfold ofName?
  split
  · rename_i he
    simp [he]
  · rename_i hne
    simp only [Option.isSome_none, Bool.false_eq_true, false_iff]
    intro hlen
    obtain ⟨a, b, c, d, he⟩ := List.length_eq_four.mp hlen
    exact hne a b c d he

theorem PartitionLog.perm_ofSegments (l : List StreamSegment) :
    (ofSegments l).segments.Perm l := List.mergeSort_perm l _

namespace ClusterView

/-- A segment of the view whose name has four fields. -/
def Streams (v : ClusterView) (segment : Segment) : Prop :=
  segment ∈ v.names ∧ (splitFields segment.toList).length = 4

def logOf (v : ClusterView) (p : Partition) : PartitionLog :=
  .ofSegments (v.streamSegments.filter (fun s => s.partition == p))

variable {v : ClusterView} {s s' : StreamSegment}

theorem mem_streamSegments :
    s ∈ v.streamSegments ↔ s.name ∈ v.names ∧ StreamSegment.ofName? s.name = some s := by
  simp only [streamSegments, List.mem_filterMap]
  constructor
  · rintro ⟨name, hn, hs⟩
    have he := StreamSegment.name_of_ofName? hs
    subst he
    exact ⟨hn, hs⟩
  · rintro ⟨hn, hs⟩
    exact ⟨s.name, hn, hs⟩

theorem eq_of_name_eq (hs : s ∈ v.streamSegments) (hs' : s' ∈ v.streamSegments)
    (h : s.name = s'.name) : s = s' := by
  have he := (mem_streamSegments.mp hs).2
  rw [h, (mem_streamSegments.mp hs').2] at he
  exact (Option.some.inj he).symm

theorem streams_iff {segment : Segment} :
    v.Streams segment ↔ ∃ s ∈ v.streamSegments, s.name = segment := by
  constructor
  · rintro ⟨hn, hlen⟩
    obtain ⟨s, hs⟩ := Option.isSome_iff_exists.mp (StreamSegment.ofName?_isSome.mpr hlen)
    have he := StreamSegment.name_of_ofName? hs
    subst he
    exact ⟨s, mem_streamSegments.mpr ⟨hn, hs⟩, rfl⟩
  · rintro ⟨s, hs, rfl⟩
    have hh := mem_streamSegments.mp hs
    exact ⟨hh.1, StreamSegment.ofName?_isSome.mp (by rw [hh.2]; rfl)⟩

theorem nodup_streamSegments (v : ClusterView) : v.streamSegments.Nodup := by
  apply List.Nodup.filterMap _ v.segments.nodup_keys
  intro a b s ha hb
  rw [← StreamSegment.name_of_ofName? ha, ← StreamSegment.name_of_ofName? hb]

theorem nodup_names_streamSegments (v : ClusterView) : (v.streamSegments.map (·.name)).Nodup :=
  v.nodup_streamSegments.map_on fun _ hs _ hs' h => eq_of_name_eq hs hs' h

theorem mem_logOf {p : Partition} :
    s ∈ (v.logOf p).segments ↔ s ∈ v.streamSegments ∧ s.partition = p := by
  rw [logOf, (PartitionLog.perm_ofSegments _).mem_iff, List.mem_filter, beq_iff_eq]

theorem nodup_logOf (v : ClusterView) (p : Partition) : (v.logOf p).segments.Nodup :=
  (PartitionLog.perm_ofSegments _).nodup_iff.mpr (v.nodup_streamSegments.filter _)

theorem get?_logs {p : Partition} {log : PartitionLog} :
    v.logs.get? p = some log ↔ (∃ s ∈ v.streamSegments, s.partition = p) ∧ log = v.logOf p := by
  rw [logs, Dict.get?_ofNames, Names.mem_ofList, List.mem_map]
  rfl

theorem mem_logs {p : Partition} {log : PartitionLog} (h : (p, log) ∈ v.logs.toList) :
    log = v.logOf p := (get?_logs.mp (Dict.get?_eq_some_iff.mpr h)).2

theorem mem_log_iff {p : Partition} {log : PartitionLog} (h : (p, log) ∈ v.logs.toList) :
    s ∈ log.segments ↔ s ∈ v.streamSegments ∧ s.partition = p := by
  rw [mem_logs h, mem_logOf]

/-- The candidates of a segment, with the consuming segment of its own partition. -/
def candidatesOf (v : ClusterView) (members : List Member) (s : StreamSegment) : Candidates :=
  v.candidates (v.consuming? (v.logOf s.partition)) (serving members) s.name

theorem consumingIn_logs (hs : s ∈ v.streamSegments) :
    v.consumingIn v.logs s.partition = v.consuming? (v.logOf s.partition) := by
  have hh : v.logs.get? s.partition = some (v.logOf s.partition) :=
    get?_logs.mpr ⟨⟨s, hs, rfl⟩, rfl⟩
  rw [consumingIn, hh]
  rfl

theorem entries_coverage (v : ClusterView) (members : List Member) :
    (v.coverage members).entries =
      v.logs.toList.flatMap (fun p => p.2.segments.map (v.candidatesOf members)) := by
  apply List.flatMap_congr
  rintro ⟨p, log⟩ hp
  apply List.map_congr_left
  intro s hs
  have hh := (mem_log_iff hp).mp hs
  rw [candidatesOf, ← consumingIn_logs hh.1, hh.2]

theorem mem_coverage {members : List Member} {e : Candidates} :
    e ∈ (v.coverage members).entries ↔
      ∃ s ∈ v.streamSegments, e = v.candidatesOf members s := by
  rw [entries_coverage, List.mem_flatMap]
  constructor
  · rintro ⟨⟨p, log⟩, hp, he⟩
    obtain ⟨s, hs, rfl⟩ := List.mem_map.mp he
    exact ⟨s, ((mem_log_iff hp).mp hs).1, rfl⟩
  · rintro ⟨s, hs, rfl⟩
    have hp := get?_logs.mpr ⟨⟨s, hs, rfl⟩, rfl⟩
    exact ⟨_, Dict.get?_eq_some_iff.mp hp, List.mem_map_of_mem (mem_logOf.mpr ⟨hs, rfl⟩)⟩

theorem nodup_names_logs (v : ClusterView) :
    ((v.logs.toList.flatMap (fun p => p.2.segments)).map (·.name)).Nodup := by
  apply List.Nodup.map_on
  · intro s hs s' hs' h
    obtain ⟨⟨p, log⟩, hp, hs⟩ := List.mem_flatMap.mp hs
    obtain ⟨⟨p', log'⟩, hp', hs'⟩ := List.mem_flatMap.mp hs'
    exact eq_of_name_eq ((mem_log_iff hp).mp hs).1 ((mem_log_iff hp').mp hs').1 h
  · refine List.nodup_flatMap.mpr ⟨?_, ?_⟩
    · rintro ⟨p, log⟩ hp
      rw [mem_logs hp]
      exact v.nodup_logOf p
    · apply v.logs.ascending.imp_of_mem
      rintro ⟨p, log⟩ ⟨p', log'⟩ hp hp' hlt
      apply List.disjoint_left.mpr
      intro s hs hs'
      have he := ((mem_log_iff hp).mp hs).2.symm.trans ((mem_log_iff hp').mp hs').2
      subst he
      exact String.lt_irrefl _ hlt

theorem nodup_coverage (v : ClusterView) (members : List Member) :
    ((v.coverage members).entries.map (·.segment)).Nodup := by
  have hmap : (v.coverage members).entries.map (·.segment) =
      (v.logs.toList.flatMap (fun p => p.2.segments)).map (·.name) := by
    rw [entries_coverage, List.map_flatMap, List.map_flatMap]
    simp only [List.map_map]
    rfl
  rw [hmap]
  exact v.nodup_names_logs

end ClusterView

end SegmentRouting
