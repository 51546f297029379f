import SegmentRouting.Proofs.StreamingEntries

/-! Which instances may serve a streaming segment, in terms of the states that
the view reports for it. -/

namespace SegmentRouting

namespace ClusterView

/-- The text reported for a segment on an instance. -/
def stateText? (v : ClusterView) (segment : Segment) (i : Instance) : Option String :=
  (v.states? segment).bind (·.get? i)

def Reports (v : ClusterView) (segment : Segment) (i : Instance) (state : ReplicaState) : Prop :=
  ∃ text, v.stateText? segment i = some text ∧ ReplicaState.ofString text = state

variable {v : ClusterView} {segment : Segment} {i : Instance}

theorem mem_replicas {state : ReplicaState} :
    (i, state) ∈ v.replicas segment ↔ v.Reports segment i state := by
  unfold replicas Reports stateText?
  split <;> rename_i he
  · simp [he]
  · simp only [he, Option.bind_some, Dict.get?_eq_some_iff, List.mem_map, Prod.mk.injEq]
    constructor
    · rintro ⟨⟨a, text⟩, hm, rfl, rfl⟩
      exact ⟨text, hm, rfl⟩
    · rintro ⟨text, hm, rfl⟩
      exact ⟨(i, text), hm, rfl, rfl⟩

theorem Reports.unique {state state' : ReplicaState} (h : v.Reports segment i state)
    (h' : v.Reports segment i state') : state = state' := by
  obtain ⟨text, ht, rfl⟩ := h
  obtain ⟨text', ht', rfl⟩ := h'
  rw [ht] at ht'
  rw [Option.some.inj ht']

theorem isFlushed_iff : v.isFlushed segment = true ↔ ∃ i, v.Reports segment i .online := by
  rw [isFlushed, List.any_eq_true]
  constructor
  · rintro ⟨⟨i, state⟩, hm, hs⟩
    obtain rfl := beq_iff_eq.mp hs
    exact ⟨i, mem_replicas.mp hm⟩
  · rintro ⟨i, hi⟩
    exact ⟨(i, .online), mem_replicas.mpr hi, rfl⟩

theorem consuming?_eq_some_iff {log : PartitionLog} :
    v.consuming? log = some segment ↔
      (∃ last, log.last? = some last ∧ last.name = segment) ∧
        ∀ i, ¬ v.Reports segment i .online := by
  unfold consuming?
  split <;> rename_i he
  · simp [he]
  · rename_i last
    have hflushed : (∀ i, ¬ v.Reports last.name i .online) ↔ ¬ v.isFlushed last.name = true := by
      rw [isFlushed_iff, not_exists]
    simp only [he, Option.some.injEq, exists_eq_left']
    split <;> rename_i hf
    · constructor
      · intro h
        contradiction
      · rintro ⟨rfl, hno⟩
        exact absurd hf (hflushed.mp hno)
    · constructor
      · intro h
        obtain rfl := Option.some.inj h
        exact ⟨rfl, hflushed.mpr hf⟩
      · rintro ⟨rfl, -⟩
        rfl

theorem mayServe_iff {state : ReplicaState} {isConsuming : Bool} :
    state.mayServe isConsuming = true ↔
      state = .online ∨ state = .consuming ∧ isConsuming = true := by
  cases state <;> simp [ReplicaState.mayServe]

theorem mem_candidates {consuming : Option Segment} {scope : Names} :
    i ∈ (v.candidates consuming scope segment).eligible ↔
      i ∈ scope ∧ (v.Reports segment i .online ∨
        v.Reports segment i .consuming ∧ consuming = some segment) := by
  rw [candidates, Names.mem_ofList, List.mem_map]
  simp only [List.mem_filter, Bool.and_eq_true, mayServe_iff, Names.contains_iff, beq_iff_eq]
  constructor
  · rintro ⟨⟨j, state⟩, ⟨hm, hserve, hscope⟩, rfl⟩
    refine ⟨hscope, ?_⟩
    rcases hserve with rfl | ⟨rfl, hc⟩
    · exact .inl (mem_replicas.mp hm)
    · exact .inr ⟨mem_replicas.mp hm, hc⟩
  · rintro ⟨hscope, hs | ⟨hs, hc⟩⟩
    · exact ⟨(i, .online), ⟨mem_replicas.mpr hs, .inl rfl, hscope⟩, rfl⟩
    · exact ⟨(i, .consuming), ⟨mem_replicas.mpr hs, .inr ⟨rfl, hc⟩, hscope⟩, rfl⟩

/-- The segment stands last in its partition and no replica of it is online, in scope or not. -/
def IsConsumingSource (v : ClusterView) (s : StreamSegment) : Prop :=
  (v.logOf s.partition).last? = some s ∧ ∀ i, ¬ v.Reports s.name i .online

theorem consuming?_logOf {s : StreamSegment} (hs : s ∈ v.streamSegments) :
    v.consuming? (v.logOf s.partition) = some s.name ↔ v.IsConsumingSource s := by
  rw [consuming?_eq_some_iff, IsConsumingSource]
  refine and_congr_left fun _ => ⟨?_, fun hl => ⟨s, hl, rfl⟩⟩
  rintro ⟨last, hl, hn⟩
  have hmem := (mem_logOf.mp (List.mem_of_getLast? hl)).1
  rw [hl, eq_of_name_eq hmem hs hn]

theorem mem_candidatesOf {members : List Member} {s : StreamSegment}
    (hs : s ∈ v.streamSegments) :
    i ∈ (v.candidatesOf members s).eligible ↔
      (∃ m ∈ members, m.enabled = true ∧ m.id = i) ∧
        (v.Reports s.name i .online ∨ v.Reports s.name i .consuming ∧ v.IsConsumingSource s) := by
  rw [candidatesOf, mem_candidates, mem_serving, consuming?_logOf hs]

end ClusterView

end SegmentRouting
