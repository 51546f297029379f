import SegmentRouting.Proofs.Eligibility
import SegmentRouting.Proofs.SingleHolder
import SegmentRouting.Proofs.StateText

/-! No two tables of one build serve a partition from different consuming
segments, and no segment from replicas in different states. Both follow from
where the candidates of a segment come from, so the picks do not matter. -/

namespace SegmentRouting

variable {G : Type} [Generator G] {count : Nat} {sourceAt : Nat → G} {v : ClusterView}
  {members : List Member} {set : TableSet}

namespace Planner

/-- What a table of the set holds comes from the candidates of a streaming segment. -/
theorem candidate_of_holds (hset : (streaming count sourceAt).build v members = .ok set)
    {t : RoutingTable} (ht : t ∈ set.tables) {i : Instance} {segment : Segment}
    (h : t.Holds i segment) :
    ∃ s ∈ v.streamSegments, s.name = segment ∧ i ∈ (v.candidatesOf members s).eligible := by
  obtain rfl := Except.ok.inj ((build_streaming count sourceAt v members).symm.trans hset)
  obtain ⟨n, -, rfl⟩ := List.mem_map.mp ht
  obtain ⟨e, he, rfl, hi⟩ := Coverage.mem_deals (Coverage.holds_assign.mp h)
  obtain ⟨s, hs, rfl⟩ := ClusterView.mem_coverage.mp he
  exact ⟨s, hs, rfl, hi⟩

theorem reports_of_holds (hset : (streaming count sourceAt).build v members = .ok set)
    {t : RoutingTable} (ht : t ∈ set.tables) {i : Instance} {segment : Segment}
    (h : t.Holds i segment) :
    v.Reports segment i .online ∨ v.Reports segment i .consuming ∧
      ∃ s ∈ v.streamSegments, s.name = segment ∧ v.IsConsumingSource s := by
  obtain ⟨s, hs, rfl, hi⟩ := candidate_of_holds hset ht h
  rcases ((ClusterView.mem_candidatesOf hs).mp hi).2 with ho | ⟨hc, hsource⟩
  · exact .inl ho
  · exact .inr ⟨hc, s, hs, rfl, hsource⟩

theorem source_of_holds_consuming (hset : (streaming count sourceAt).build v members = .ok set)
    {t : RoutingTable} (ht : t ∈ set.tables) {i : Instance} {segment : Segment}
    (h : t.Holds i segment) (hc : v.Reports segment i .consuming) :
    ∃ s ∈ v.streamSegments, s.name = segment ∧ v.IsConsumingSource s := by
  rcases reports_of_holds hset ht h with ho | ⟨-, hs⟩
  · have := ho.unique hc
    contradiction
  · exact hs

/-- Whether any replica at all is online decides the one state a segment is served in. -/
theorem uniform_state (hset : (streaming count sourceAt).build v members = .ok set)
    (segment : Segment) :
    (∀ t ∈ set.tables, ∀ i, t.Holds i segment → v.Reports segment i .online) ∨
      ∀ t ∈ set.tables, ∀ i, t.Holds i segment → v.Reports segment i .consuming := by
  by_cases hno : ∀ j, ¬ v.Reports segment j .online
  · right
    intro t ht i hi
    rcases reports_of_holds hset ht hi with ho | ⟨hc, -⟩
    · exact absurd ho (hno i)
    · exact hc
  · left
    intro t ht i hi
    rcases reports_of_holds hset ht hi with ho | ⟨-, s, -, rfl, hsource⟩
    · exact ho
    · exact absurd hsource.2 hno

theorem stateText_of_holds (hset : (streaming count sourceAt).build v members = .ok set)
    {t : RoutingTable} (ht : t ∈ set.tables) {i : Instance} {segment : Segment}
    (h : t.Holds i segment) :
    ∃ text, v.stateText? segment i = some text ∧
      (IsCaseVariant "ONLINE" (trimChars text.toList) ∨
        IsCaseVariant "CONSUMING" (trimChars text.toList)) := by
  rcases reports_of_holds hset ht h with ⟨text, htext, ho⟩ | ⟨⟨text, htext, hc⟩, -⟩
  · exact ⟨text, htext, .inl (ReplicaState.ofString_eq_online_iff.mp ho)⟩
  · exact ⟨text, htext, .inr (ReplicaState.ofString_eq_consuming_iff.mp hc)⟩

theorem enabled_of_holds (hset : (streaming count sourceAt).build v members = .ok set)
    {t : RoutingTable} (ht : t ∈ set.tables) {i : Instance} {segment : Segment}
    (h : t.Holds i segment) : ∃ m ∈ members, m.enabled = true ∧ m.id = i := by
  obtain ⟨s, hs, -, hi⟩ := candidate_of_holds hset ht h
  exact ((ClusterView.mem_candidatesOf hs).mp hi).1

end Planner

/-- The five parts speak of all tables of the set together: the consuming
segments, that there is one for each partition, the one state of each segment,
the texts of the states, and the instances in scope. -/
theorem Planner.build_serves_one_state (count : Nat) (sourceAt : Nat → G) (v : ClusterView)
    (members : List Member) :
    ∃ set, (Planner.streaming count sourceAt).build v members = .ok set ∧
      (∀ t ∈ set.tables, ∀ i segment, t.Holds i segment → v.Reports segment i .consuming →
        ∃ s ∈ v.streamSegments, s.name = segment ∧
          (∃ log, v.logs.get? s.partition = some log ∧ log.last? = some s) ∧
          ∀ j, ¬ v.Reports segment j .online) ∧
      (∀ s ∈ v.streamSegments, ∀ s' ∈ v.streamSegments, s.partition = s'.partition →
        (∃ t ∈ set.tables, ∃ i, t.Holds i s.name ∧ v.Reports s.name i .consuming) →
        (∃ t ∈ set.tables, ∃ i, t.Holds i s'.name ∧ v.Reports s'.name i .consuming) → s = s') ∧
      (∀ segment,
        (∀ t ∈ set.tables, ∀ i, t.Holds i segment → v.Reports segment i .online) ∨
          ∀ t ∈ set.tables, ∀ i, t.Holds i segment → v.Reports segment i .consuming) ∧
      (∀ t ∈ set.tables, ∀ i segment, t.Holds i segment →
        ∃ text, v.stateText? segment i = some text ∧
          (IsCaseVariant "ONLINE" (trimChars text.toList) ∨
            IsCaseVariant "CONSUMING" (trimChars text.toList))) ∧
      ∀ t ∈ set.tables, ∀ i segment, t.Holds i segment →
        ∃ m ∈ members, m.enabled = true ∧ m.id = i := by
  obtain ⟨set, hset⟩ : ∃ set, (streaming count sourceAt).build v members = .ok set :=
    ⟨_, build_streaming count sourceAt v members⟩
  have hlast : ∀ s ∈ v.streamSegments,
      (∃ t ∈ set.tables, ∃ i, t.Holds i s.name ∧ v.Reports s.name i .consuming) →
      v.IsConsumingSource s := by
    rintro s hs ⟨t, ht, i, hi, hc⟩
    obtain ⟨s', hs', hn, hsource⟩ := source_of_holds_consuming hset ht hi hc
    rwa [ClusterView.eq_of_name_eq hs' hs hn] at hsource
  refine ⟨set, hset, ?_, ?_, uniform_state hset, fun t ht i segment => stateText_of_holds hset ht,
    fun t ht i segment => enabled_of_holds hset ht⟩
  · intro t ht i segment hi hc
    obtain ⟨s, hs, rfl, hsource⟩ := source_of_holds_consuming hset ht hi hc
    have hlog := ClusterView.get?_logs.mpr ⟨⟨s, hs, rfl⟩, rfl⟩
    exact ⟨s, hs, rfl, ⟨_, hlog, hsource.1⟩, hsource.2⟩
  · intro s hs s' hs' hp hc hc'
    have hl := (hlast s hs hc).1
    rw [hp, (hlast s' hs' hc').1] at hl
    exact (Option.some.inj hl).symm

end SegmentRouting
