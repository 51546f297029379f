import SegmentRouting.Planner
import SegmentRouting.Proofs.Eligibility
import SegmentRouting.Proofs.PartitionOrder

/-! The coverage of a view in closed form: which segments it lists, in which
order, and which instances may serve each of them, all from the names and the
states that are reported, with no logs of partitions and no choice of consuming
segments. -/

namespace SegmentRouting

namespace ClusterView

/-- Partitions come in code point order, and the segments of each in their own. -/
def Earlier (v : ClusterView) (s s' : StreamSegment) : Prop :=
  s.partition < s'.partition ∨ s.partition = s'.partition ∧ v.Precedes s s'

/-- The instance is enabled and holds an online replica, or it holds a consuming one of
the greatest segment of a partition while no replica at all of that segment is online. -/
def MayServe (v : ClusterView) (members : List Member) (s : StreamSegment) (i : Instance) : Prop :=
  (∃ m ∈ members, m.enabled = true ∧ m.id = i) ∧
    (v.Reports s.name i .online ∨
      v.Reports s.name i .consuming ∧ v.IsGreatest s ∧ ∀ j, ¬ v.Reports s.name j .online)

/-- The streaming segments in the order of their entries. -/
def arranged (v : ClusterView) : List StreamSegment :=
  v.logs.toList.flatMap (fun p => p.2.segments)

variable {v : ClusterView} {members : List Member} {s : StreamSegment} {i : Instance}

theorem entries_eq_map_arranged (v : ClusterView) (members : List Member) :
    (v.coverage members).entries = v.arranged.map (v.candidatesOf members) := by
  rw [entries_coverage, arranged, List.map_flatMap]

theorem mem_arranged : s ∈ v.arranged ↔ s ∈ v.streamSegments := by
  rw [arranged, List.mem_flatMap]
  constructor
  · rintro ⟨⟨p, log⟩, hp, hs⟩
    exact ((mem_log_iff hp).mp hs).1
  · intro hs
    have hlog := get?_logs.mpr ⟨⟨s, hs, rfl⟩, rfl⟩
    exact ⟨_, Dict.get?_eq_some_iff.mp hlog, mem_logOf.mpr ⟨hs, rfl⟩⟩

theorem pairwise_arranged (v : ClusterView) : v.arranged.Pairwise v.Earlier := by
  have hmem : ∀ {p log}, (p, log) ∈ v.logs.toList → ∀ s ∈ log.segments, s.partition = p :=
    fun hp _ hs => ((mem_log_iff hp).mp hs).2
  apply List.pairwise_flatMap.mpr
  constructor
  · rintro ⟨p, log⟩ hp
    have hpair : log.segments.Pairwise v.Precedes := mem_logs hp ▸ v.pairwise_logOf p
    apply hpair.imp_of_mem
    intro s s' hs hs' h
    exact .inr ⟨(hmem hp s hs).trans (hmem hp s' hs').symm, h⟩
  · apply v.logs.ascending.imp_of_mem
    intro a b ha hb hlt s hs s' hs'
    left
    rw [hmem ha s hs, hmem hb s' hs']
    exact hlt

theorem isConsumingSource_iff (hs : s ∈ v.streamSegments) :
    v.IsConsumingSource s ↔ v.IsGreatest s ∧ ∀ j, ¬ v.Reports s.name j .online := by
  rw [IsConsumingSource, last?_logOf_iff hs]

theorem mem_candidatesOf_iff_mayServe (hs : s ∈ v.streamSegments) :
    i ∈ (v.candidatesOf members s).eligible ↔ v.MayServe members s i := by
  rw [mem_candidatesOf hs, isConsumingSource_iff hs, MayServe]

theorem mem_unassignable_iff (hs : s ∈ v.streamSegments) :
    s.name ∈ (v.coverage members).unassignable ↔ ∀ i, ¬ v.MayServe members s i := by
  have hempty : (v.candidatesOf members s).eligible.isEmpty = true ↔
      ∀ i, ¬ v.MayServe members s i := by
    rw [← Bool.not_eq_false, Names.isEmpty_eq_false_iff, not_exists]
    exact forall_congr' fun i => not_congr (mem_candidatesOf_iff_mayServe hs)
  rw [← hempty, Coverage.unassignable, List.mem_map]
  constructor
  · rintro ⟨e, he, hname⟩
    obtain ⟨hmem, hgap⟩ := List.mem_filter.mp he
    obtain ⟨s', hs', rfl⟩ := mem_coverage.mp hmem
    rwa [eq_of_name_eq hs' hs hname] at hgap
  · intro hgap
    exact ⟨_, List.mem_filter.mpr ⟨mem_coverage.mpr ⟨s, hs, rfl⟩, hgap⟩, rfl⟩

end ClusterView

variable {G : Type} [Generator G]

/-- The coverage is the same for all sources and any number of tables. Its entries go
with the streaming segments one by one, and a strict order lets none stand twice. -/
theorem Planner.coverage_closed_form (count : Nat) (sourceAt : Nat → G) (v : ClusterView)
    (members : List Member) :
    ∃ c segments, (Planner.streaming count sourceAt).coverage v members = .ok c ∧
      c.table = v.table ∧
      (∀ segment, v.Streams segment ↔ ∃ s ∈ segments, s.name = segment) ∧
      (∀ s ∈ segments, StreamSegment.ofName? s.name = some s) ∧
      segments.Pairwise v.Earlier ∧
      List.Forall₂ (fun s e => e.segment = s.name ∧ ∀ i, i ∈ e.eligible ↔ v.MayServe members s i)
        segments c.entries ∧
      c.unassignable.Sublist (segments.map (·.name)) ∧
      ∀ s ∈ segments, s.name ∈ c.unassignable ↔ ∀ i, ¬ v.MayServe members s i := by
  have hstream : ∀ s ∈ v.arranged, s ∈ v.streamSegments :=
    fun s hs => ClusterView.mem_arranged.mp hs
  refine ⟨v.coverage members, v.arranged, rfl, rfl, ?_, ?_, v.pairwise_arranged, ?_, ?_, ?_⟩
  · intro segment
    simp only [ClusterView.mem_arranged]
    exact ClusterView.streams_iff
  · intro s hs
    exact (ClusterView.mem_streamSegments.mp (hstream s hs)).2
  · rw [ClusterView.entries_eq_map_arranged, List.forall₂_map_right_iff, List.forall₂_same]
    intro s hs
    exact ⟨rfl, fun i => ClusterView.mem_candidatesOf_iff_mayServe (hstream s hs)⟩
  · have hnames : (v.coverage members).entries.map (·.segment) = v.arranged.map (·.name) := by
      rw [ClusterView.entries_eq_map_arranged, List.map_map]
      rfl
    rw [← hnames]
    exact List.filter_sublist.map _
  · intro s hs
    exact ClusterView.mem_unassignable_iff (hstream s hs)

end SegmentRouting
