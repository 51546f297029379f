import SegmentRouting.Proofs.ClosedForm
import SegmentRouting.Proofs.NameGrammar

/-! The logs of all partitions taken together: each streaming name of the view
stands in one place, in the log of its own partition, and every log is strictly
ordered by numbers and names, or by names alone where one number of the
partition cannot be read. The states of the replicas have no part in it. -/

namespace SegmentRouting

/-- Numbers first, then names; in a degraded log the names alone. -/
def PartitionLog.Before (log : PartitionLog) (s s' : StreamSegment) : Prop :=
  if log.degraded then s.name < s'.name
  else ∃ m n, s.HasNumber m ∧ s'.HasNumber n ∧ (m < n ∨ m = n ∧ s.name < s'.name)

namespace ClusterView

variable {v : ClusterView} {s s' : StreamSegment} {p : Partition}

theorem mem_streamSegments_iff_exists :
    s ∈ v.streamSegments ↔ ∃ name ∈ v.names, StreamSegment.ofName? name = some s :=
  List.mem_filterMap

theorem precedes_iff_before (hp : s.partition = p) :
    v.Precedes s s' ↔ (v.logOf p).Before s s' := by
  subst hp
  simp only [Precedes, PartitionLog.Before, StreamSegment.sequenceNumber_eq_ok_iff]
  by_cases hnum : v.IsNumbered s.partition
  · have hdeg : ¬ (v.logOf s.partition).degraded = true := fun h => degraded_logOf.mp h hnum
    simp only [if_neg hdeg, hnum, true_and, not_true, false_and, or_false]
  · simp only [if_pos (degraded_logOf.mpr hnum), hnum, not_false_eq_true, true_and, false_and,
      false_or]

theorem pairwise_before (v : ClusterView) (p : Partition) :
    (v.logOf p).segments.Pairwise (v.logOf p).Before := by
  apply (v.pairwise_logOf p).imp_of_mem
  intro s s' hs _ h
  exact (precedes_iff_before (mem_logOf.mp hs).2).mp h

theorem degraded_logOf_iff :
    (v.logOf p).degraded = true ↔ ∃ s ∈ (v.logOf p).segments, ∀ n, ¬ s.HasNumber n := by
  simp only [degraded_logOf, IsNumbered, StreamSegment.sequenceNumber_eq_ok_iff, mem_logOf,
    and_assoc, not_forall, not_exists, exists_prop]

theorem last?_logOf_greatest (hs : (v.logOf p).segments ≠ []) :
    ∃ last ∈ (v.logOf p).segments, (v.logOf p).last? = some last ∧
      ∀ s ∈ (v.logOf p).segments, s ≠ last → (v.logOf p).Before s last := by
  obtain ⟨last, hlast⟩ : ∃ last, (v.logOf p).last? = some last :=
    ⟨_, List.getLast?_eq_some_getLast hs⟩
  have hmem := List.mem_of_getLast? hlast
  obtain ⟨hstream, rfl⟩ := mem_logOf.mp hmem
  refine ⟨last, hmem, hlast, ?_⟩
  intro s hs hne
  have hh := mem_logOf.mp hs
  exact (precedes_iff_before hh.2).mp ((last?_logOf_iff hstream).mp hlast s hh.1 hh.2 hne)

theorem logs_order_streaming_names (v : ClusterView) :
    (∀ p, p ∈ v.logs.keys ↔
      ∃ name ∈ v.names, ∃ s, StreamSegment.ofName? name = some s ∧ s.partition = p) ∧
    (∀ name ∈ v.names, ∀ s, StreamSegment.ofName? name = some s →
      ((v.logs.toList.flatMap (fun e => e.2.segments)).map (·.name)).count name = 1 ∧
      ∃ log, v.logs.get? s.partition = some log ∧ s ∈ log.segments) ∧
    (∀ p log, v.logs.get? p = some log →
      log.segments ≠ [] ∧
      (∀ s ∈ log.segments,
        s.name ∈ v.names ∧ StreamSegment.ofName? s.name = some s ∧ s.partition = p) ∧
      (log.degraded = true ↔ ∃ s ∈ log.segments, ∀ n, ¬ s.HasNumber n) ∧
      log.segments.Pairwise log.Before ∧
      ∃ last ∈ log.segments, log.last? = some last ∧
        ∀ s ∈ log.segments, s ≠ last → log.Before s last) ∧
    ∀ v' : ClusterView, v'.names = v.names → v'.logs = v.logs := by
  refine ⟨?_, ?_, ?_, ?_⟩
  · intro p
    rw [Dict.mem_keys_iff, Option.isSome_iff_exists]
    constructor
    · rintro ⟨log, hlog⟩
      obtain ⟨s, hs, hp⟩ := (get?_logs.mp hlog).1
      obtain ⟨name, hname, hread⟩ := mem_streamSegments_iff_exists.mp hs
      exact ⟨name, hname, s, hread, hp⟩
    · rintro ⟨name, hname, s, hread, hp⟩
      exact ⟨v.logOf p, get?_logs.mpr
        ⟨⟨s, mem_streamSegments_iff_exists.mpr ⟨name, hname, hread⟩, hp⟩, rfl⟩⟩
  · intro name hname s hs
    have hstream : s ∈ v.streamSegments := mem_streamSegments_iff_exists.mpr ⟨name, hname, hs⟩
    obtain rfl := StreamSegment.name_of_ofName? hs
    constructor
    · exact List.count_eq_one_of_mem v.nodup_names_logs
        (List.mem_map_of_mem (mem_arranged.mpr hstream))
    · exact ⟨v.logOf s.partition, get?_logs.mpr ⟨⟨s, hstream, rfl⟩, rfl⟩,
        mem_logOf.mpr ⟨hstream, rfl⟩⟩
  · intro p log hlog
    obtain ⟨⟨s, hs, hp⟩, rfl⟩ := get?_logs.mp hlog
    have hne : (v.logOf p).segments ≠ [] := List.ne_nil_of_mem (mem_logOf.mpr ⟨hs, hp⟩)
    refine ⟨hne, ?_, degraded_logOf_iff, v.pairwise_before p, last?_logOf_greatest hne⟩
    intro s hs
    have hh := mem_logOf.mp hs
    exact ⟨(mem_streamSegments.mp hh.1).1, (mem_streamSegments.mp hh.1).2, hh.2⟩
  · intro v' hnames
    rw [logs, logs, streamSegments, streamSegments, hnames]

end ClusterView

end SegmentRouting
