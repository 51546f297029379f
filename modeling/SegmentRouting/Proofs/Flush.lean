import SegmentRouting.Proofs.Eligibility
import SegmentRouting.Proofs.SingleHolder

/-! The flush of the last segment of a partition, replica by replica. A replica
that has gone online ends the consuming phase on whatever instance it is, so that
the segment is routed until the first switch and then again as soon as a replica
in scope has switched. In between it is unassignable. -/

namespace SegmentRouting

/-- Consuming replicas of the segment go online one after the other, in the order
of the list, and nothing else in the view changes. -/
inductive Flush (segment : Segment) (v : ClusterView) : List Instance → ClusterView → Prop where
  | start : Flush segment v [] v
  | switch {switched : List Instance} {v' : ClusterView} {i : Instance} {text : String}
      (flush : Flush segment v switched v') (hi : v'.Reports segment i .consuming)
      (htext : ReplicaState.ofString text = .online) :
      Flush segment v (switched ++ [i]) (v'.withState segment i text)

namespace ClusterView

variable {v : ClusterView} {segment s : Segment} {i j : Instance} {text : String}
  {state : ReplicaState}

theorem stateText?_withState (v : ClusterView) (segment s : Segment) (i j : Instance)
    (text : String) : (v.withState segment i text).stateText? s j =
      if s = segment ∧ j = i then some text else v.stateText? s j := by
  unfold stateText? states? withState
  rw [Dict.get?_update]
  by_cases hs : s = segment
  · subst hs
    simp only [if_true, Option.bind_some, Dict.get?_insert, true_and]
    by_cases hj : j = i
    · simp [hj]
    · cases v.segments.get? s <;> simp [hj, Dict.get?_empty]
  · simp [hs]

theorem reports_withState : (v.withState segment i text).Reports s j state ↔
    if s = segment ∧ j = i then ReplicaState.ofString text = state else v.Reports s j state := by
  unfold Reports
  rw [stateText?_withState]
  by_cases h : s = segment ∧ j = i <;> simp [h]

theorem mem_names_of_reports (h : v.Reports segment i state) : segment ∈ v.names := by
  obtain ⟨text, htext, -⟩ := h
  obtain ⟨states, hstates, -⟩ := Option.bind_eq_some_iff.mp htext
  exact Dict.mem_keys_iff.mpr (by rw [show v.segments.get? segment = some states from hstates]; rfl)

theorem names_withState (h : segment ∈ v.names) : (v.withState segment i text).names = v.names := by
  have hnew : Ascending id (v.withState segment i text).names :=
    List.pairwise_map.mpr (v.withState segment i text).segments.ascending
  have hold : Ascending id v.names := List.pairwise_map.mpr v.segments.ascending
  apply hnew.eq_of_mem_iff hold
  intro s
  have hsegment := Dict.mem_keys_iff.mp h
  unfold names withState
  rw [Dict.mem_keys_iff, Dict.mem_keys_iff, Dict.get?_update]
  by_cases hs : s = segment
  · simp [hs, hsegment]
  · simp [hs]

theorem streamSegments_withState (h : segment ∈ v.names) :
    (v.withState segment i text).streamSegments = v.streamSegments := by
  rw [streamSegments, streamSegments, names_withState h]

end ClusterView

namespace Flush

variable {segment : Segment} {v v' : ClusterView} {switched : List Instance} {i : Instance}
  {state : ReplicaState}

theorem streamSegments_eq (flush : Flush segment v switched v') :
    v'.streamSegments = v.streamSegments := by
  induction flush with
  | start => rfl
  | switch flush hi htext ih =>
    rw [ClusterView.streamSegments_withState (ClusterView.mem_names_of_reports hi), ih]

theorem logOf_eq (flush : Flush segment v switched v') (p : Partition) :
    v'.logOf p = v.logOf p := by
  rw [ClusterView.logOf, ClusterView.logOf, flush.streamSegments_eq]

/-- What a replica reports is decided by whether it has switched. -/
theorem reports_iff (flush : Flush segment v switched v') :
    v'.Reports segment i state ↔
      if i ∈ switched then state = .online else v.Reports segment i state := by
  induction flush with
  | start => simp
  | @switch switched v' j text flush hj htext ih =>
    rw [ClusterView.reports_withState, htext, ih]
    by_cases hij : i = j
    · simp [hij, eq_comm]
    · simp [hij]

theorem online_iff (flush : Flush segment v switched v')
    (hall : ∀ i state, v.Reports segment i state → state = .consuming) :
    v'.Reports segment i .online ↔ i ∈ switched := by
  rw [flush.reports_iff]
  by_cases hi : i ∈ switched
  · simp [hi]
  · simp only [hi, if_false, iff_false]
    intro h
    have := hall i _ h
    contradiction

variable {members : List Member} {s : StreamSegment}

theorem isConsumingSource_iff (flush : Flush s.name v switched v')
    (hall : ∀ i state, v.Reports s.name i state → state = .consuming)
    (hlast : (v.logOf s.partition).last? = some s) :
    v'.IsConsumingSource s ↔ switched = [] := by
  rw [ClusterView.IsConsumingSource, flush.logOf_eq]
  simp only [hlast, true_and, flush.online_iff hall]
  exact List.eq_nil_iff_forall_not_mem.symm

theorem mem_candidatesOf (flush : Flush s.name v switched v')
    (hall : ∀ i state, v.Reports s.name i state → state = .consuming)
    (hs : s ∈ v.streamSegments) (hlast : (v.logOf s.partition).last? = some s) :
    i ∈ (v'.candidatesOf members s).eligible ↔
      i ∈ serving members ∧ (i ∈ switched ∨ switched = [] ∧ v.Reports s.name i .consuming) := by
  have hs' : s ∈ v'.streamSegments := flush.streamSegments_eq ▸ hs
  rw [ClusterView.mem_candidatesOf hs', ← mem_serving, flush.online_iff hall,
    flush.isConsumingSource_iff hall hlast, flush.reports_iff]
  by_cases hnone : switched = []
  · simp [hnone]
  · simp [hnone]

/-- The replicas that may serve are the consuming ones until the first switch, and
the switched ones from then on. -/
theorem uniform_state (flush : Flush s.name v switched v')
    (hall : ∀ i state, v.Reports s.name i state → state = .consuming)
    (hs : s ∈ v.streamSegments) (hlast : (v.logOf s.partition).last? = some s) :
    ∃ state, ∀ i ∈ (v'.candidatesOf members s).eligible, v'.Reports s.name i state := by
  by_cases hnone : switched = []
  · refine ⟨.consuming, ?_⟩
    intro i hi
    have hserve := ((flush.mem_candidatesOf hall hs hlast).mp hi).2
    rw [flush.reports_iff]
    simpa [hnone] using hserve
  · refine ⟨.online, ?_⟩
    intro i hi
    have hserve := ((flush.mem_candidatesOf hall hs hlast).mp hi).2
    rw [flush.online_iff hall]
    simpa [hnone] using hserve

theorem exists_candidate_iff (flush : Flush s.name v switched v')
    (hall : ∀ i state, v.Reports s.name i state → state = .consuming)
    (hserve : ∃ i ∈ serving members, v.Reports s.name i .consuming)
    (hs : s ∈ v.streamSegments) (hlast : (v.logOf s.partition).last? = some s) :
    (∃ i, i ∈ (v'.candidatesOf members s).eligible) ↔
      switched = [] ∨ ∃ i ∈ switched, i ∈ serving members := by
  simp only [flush.mem_candidatesOf hall hs hlast]
  constructor
  · rintro ⟨i, hscope, hi | ⟨hnone, -⟩⟩
    · exact .inr ⟨i, hi, hscope⟩
    · exact .inl hnone
  · rintro (hnone | ⟨i, hi, hscope⟩)
    · obtain ⟨i, hscope, hi⟩ := hserve
      exact ⟨i, hscope, .inr ⟨hnone, hi⟩⟩
    · exact ⟨i, hscope, .inl hi⟩

end Flush

variable {G : Type} [Generator G]

namespace TableSet

/-- Every table has one instance to answer for the segment. -/
def RoutesEverywhere (set : TableSet) (segment : Segment) : Prop :=
  segment ∉ set.unassignable ∧
    ∀ t ∈ set.tables, ∃ i, t.holder? segment = some i ∧ ∀ j, t.Holds j segment ↔ j = i

/-- No table has any instance to answer for the segment. -/
def LeavesOut (set : TableSet) (segment : Segment) : Prop :=
  segment ∈ set.unassignable ∧ ∀ t ∈ set.tables, ∀ i, ¬ t.Holds i segment

end TableSet

namespace Planner

variable {count : Nat} {sourceAt : Nat → G} {v : ClusterView} {members : List Member}
  {set : TableSet} {s : StreamSegment}

theorem routesEverywhere (hset : (streaming count sourceAt).build v members = .ok set)
    (hs : s ∈ v.streamSegments) (h : ∃ i, i ∈ (v.candidatesOf members s).eligible) :
    set.RoutesEverywhere s.name := by
  have he := ClusterView.eligible?_coverage hs members
  have hne := Names.isEmpty_eq_false_iff.mpr h
  refine ⟨?_, ?_⟩
  · have hcount := Coverage.count_unassignable (v.nodup_coverage members) he
    rw [hne] at hcount
    rw [unassignable_of_build hset]
    exact List.count_eq_zero.mp hcount
  · intro t ht
    obtain ⟨i, -, hi⟩ := (routesOnce_of_mem hset ht).routed _ _ he hne
    exact ⟨i, hi⟩

theorem leavesOut (hset : (streaming count sourceAt).build v members = .ok set)
    (hs : s ∈ v.streamSegments) (h : ¬ ∃ i, i ∈ (v.candidatesOf members s).eligible) :
    set.LeavesOut s.name := by
  have he := ClusterView.eligible?_coverage hs members
  have hempty : (v.candidatesOf members s).eligible.isEmpty = true := by
    by_contra hne
    exact h (Names.isEmpty_eq_false_iff.mp (Bool.eq_false_iff.mpr hne))
  refine ⟨?_, ?_⟩
  · have hcount := Coverage.count_unassignable (v.nodup_coverage members) he
    rw [hempty, if_pos rfl] at hcount
    rw [unassignable_of_build hset]
    exact List.count_pos_iff.mp (by omega)
  · intro t ht
    exact (routesOnce_of_mem hset ht).gap _ _ he hempty

/-- `s` is the last segment of a partition and consuming on all its replicas, of
which at least one is in scope; `switched` have gone online so far. -/
theorem routesEverywhere_during_flush (count : Nat) (sourceAt : Nat → G) {v v' : ClusterView}
    {members : List Member} {p : Partition} {log : PartitionLog} {s : StreamSegment}
    {switched : List Instance} (hlog : v.logs.get? p = some log) (hlast : log.last? = some s)
    (hall : ∀ i state, v.Reports s.name i state → state = .consuming)
    (hserve : ∃ i ∈ serving members, v.Reports s.name i .consuming)
    (flush : Flush s.name v switched v') :
    ∃ c set, (streaming count sourceAt).coverage v' members = .ok c ∧
      (streaming count sourceAt).build v' members = .ok set ∧ set.tables.length = count ∧
      (switched = [] ∨ (∃ i ∈ switched, i ∈ serving members) → set.RoutesEverywhere s.name) ∧
      (switched ≠ [] ∧ (∀ i ∈ switched, i ∉ serving members) → set.LeavesOut s.name) ∧
      ∃ state, ∃ eligible, c.eligible? s.name = some eligible ∧
        ∀ i ∈ eligible, v'.Reports s.name i state := by
  obtain ⟨-, rfl⟩ := ClusterView.get?_logs.mp hlog
  obtain ⟨hs, rfl⟩ := ClusterView.mem_logOf.mp (List.mem_of_getLast? hlast)
  have hs' : s ∈ v'.streamSegments := flush.streamSegments_eq ▸ hs
  have hcand := flush.exists_candidate_iff hall hserve hs hlast
  obtain ⟨state, hstate⟩ : ∃ state, ∀ i ∈ (v'.candidatesOf members s).eligible,
      v'.Reports s.name i state := flush.uniform_state hall hs hlast
  refine ⟨_, _, rfl, build_streaming count sourceAt v' members, by simp, ?_, ?_,
    state, _, ClusterView.eligible?_coverage hs' members, hstate⟩
  · intro h
    exact routesEverywhere (build_streaming count sourceAt v' members) hs' (hcand.mpr h)
  · rintro ⟨hsome, hnone⟩
    apply leavesOut (build_streaming count sourceAt v' members) hs'
    rw [hcand]
    rintro (h | ⟨i, hi, hscope⟩)
    · exact hsome h
    · exact hnone i hi hscope

def pairSegment : StreamSegment := ⟨"t__0__0__1", "t", "0", "0"⟩

/-- Two replicas, both consuming. -/
def pairView : ClusterView :=
  ((ClusterView.ofTable "t").withState pairSegment.name "A" "CONSUMING").withState
    pairSegment.name "B" "CONSUMING"

theorem pairView_last :
    ∃ log, pairView.logs.get? "0" = some log ∧ log.last? = some pairSegment :=
  Option.bind_eq_some_iff.mp (by decide +kernel)

theorem pairView_reports (i : Instance) (state : ReplicaState)
    (h : pairView.Reports pairSegment.name i state) : state = .consuming := by
  simp only [pairView, ClusterView.reports_withState] at h
  split_ifs at h
  · exact h.symm
  · exact h.symm
  · obtain ⟨text, htext, -⟩ := h
    contradiction

theorem pairView_serves :
    ∃ i ∈ serving [⟨"A", false⟩, ⟨"B", true⟩], pairView.Reports pairSegment.name i .consuming :=
  ⟨"B", mem_serving.mpr ⟨⟨"B", true⟩, by simp, rfl, rfl⟩, "CONSUMING", by decide +kernel, rfl⟩

/-- The replica in scope switches first. -/
theorem routesEverywhere_during_flush_in_scope :
    let members : List Member := [⟨"A", false⟩, ⟨"B", true⟩]
    let v' := pairView.withState pairSegment.name "B" "ONLINE"
    Flush pairSegment.name pairView ["B"] v' ∧
      ∃ set, (streaming 2 (fun _ => (⟨[], 0⟩ : WordList))).build v' members = .ok set ∧
        set.RoutesEverywhere pairSegment.name := by
  intro members v'
  obtain ⟨log, hlog, hlast⟩ := pairView_last
  have flush : Flush pairSegment.name pairView ["B"] v' :=
    .switch .start ⟨"CONSUMING", by decide +kernel, rfl⟩ rfl
  have hscope : "B" ∈ serving members := mem_serving.mpr ⟨⟨"B", true⟩, by simp [members], rfl, rfl⟩
  obtain ⟨c, set, -, hset, -, hroutes, -⟩ := routesEverywhere_during_flush 2
    (fun _ => (⟨[], 0⟩ : WordList)) hlog hlast pairView_reports pairView_serves flush
  exact ⟨flush, set, hset, hroutes (.inr ⟨"B", by simp, hscope⟩)⟩

/-- The replica on the disabled instance switches first, and no query sees the segment. -/
theorem leavesOut_flush_disabled_first :
    let members : List Member := [⟨"A", false⟩, ⟨"B", true⟩]
    let v' := pairView.withState pairSegment.name "A" "ONLINE"
    (∃ log, pairView.logs.get? "0" = some log ∧ log.last? = some pairSegment) ∧
      (∀ i state, pairView.Reports pairSegment.name i state → state = .consuming) ∧
      (∃ i ∈ serving members, pairView.Reports pairSegment.name i .consuming) ∧
      Flush pairSegment.name pairView ["A"] v' ∧
      (streaming 1 (fun _ => (⟨[], 0⟩ : WordList))).build v' members =
        .ok ⟨"t", [.empty], [pairSegment.name]⟩ ∧
      ¬ (⟨"t", [.empty], [pairSegment.name]⟩ : TableSet).RoutesEverywhere pairSegment.name := by
  intro members v'
  have flush : Flush pairSegment.name pairView ["A"] v' :=
    .switch .start ⟨"CONSUMING", by decide +kernel, rfl⟩ rfl
  refine ⟨pairView_last, pairView_reports, pairView_serves, flush, by decide +kernel, ?_⟩
  rintro ⟨hassigned, -⟩
  exact hassigned (by simp)

end Planner

end SegmentRouting
