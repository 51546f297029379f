import SegmentRouting.Proofs.ClosedForm
import SegmentRouting.Proofs.Flush

/-! What a build reads from a view and a list of instances: the names of the streaming
segments, which replicas of them are online and which are consuming, and which of the
instances that hold those are enabled. Nothing else has any influence on the tables. -/

namespace SegmentRouting

namespace ClusterView

/-- Everything but online and consuming counts as one state, with what is not reported. -/
structure Agrees (v v' : ClusterView) : Prop where
  table : v.table = v'.table
  streams : ∀ segment, v.Streams segment ↔ v'.Streams segment
  online : ∀ segment, v.Streams segment → ∀ i,
    v.Reports segment i .online ↔ v'.Reports segment i .online
  consuming : ∀ segment, v.Streams segment → ∀ i,
    v.Reports segment i .consuming ↔ v'.Reports segment i .consuming

instance (v : ClusterView) (segment : Segment) : Decidable (v.Streams segment) :=
  inferInstanceAs (Decidable (_ ∧ _))

instance (v : ClusterView) (segment : Segment) (i : Instance) (state : ReplicaState) :
    Decidable (v.Reports segment i state) :=
  decidable_of_iff ((v.stateText? segment i).map ReplicaState.ofString = some state)
    Option.map_eq_some_iff

/-- The instance holds an online or a consuming replica of a streaming segment. -/
def IsLive (v : ClusterView) (i : Instance) : Prop :=
  ∃ segment, v.Streams segment ∧
    (v.Reports segment i .online ∨ v.Reports segment i .consuming)

section Changes

variable {v : ClusterView} {segment s : Segment} {i : Instance} {text : String}
  {state : ReplicaState}

theorem Agrees.trans {v v' v'' : ClusterView} (h : v.Agrees v') (h' : v'.Agrees v'') :
    v.Agrees v'' where
  table := h.table.trans h'.table
  streams segment := (h.streams segment).trans (h'.streams segment)
  online segment hs i := (h.online segment hs i).trans
    (h'.online segment ((h.streams segment).mp hs) i)
  consuming segment hs i := (h.consuming segment hs i).trans
    (h'.consuming segment ((h.streams segment).mp hs) i)

theorem streams_withState : (v.withState segment i text).Streams s ↔
    v.Streams s ∨ s = segment ∧ (splitFields segment.toList).length = 4 := by
  have hnames : s ∈ (v.withState segment i text).names ↔ s = segment ∨ s ∈ v.names := by
    unfold names withState
    rw [Dict.mem_keys_iff, Dict.mem_keys_iff, Dict.get?_update]
    by_cases hs : s = segment
    · simp [hs]
    · simp [hs]
  rw [Streams, Streams, hnames]
  by_cases hs : s = segment
  · simp [hs]
  · simp [hs]

theorem reports_withState_of_same (h : v.Reports segment i state ↔ ReplicaState.ofString text = state)
    (s : Segment) (j : Instance) :
    (v.withState segment i text).Reports s j state ↔ v.Reports s j state := by
  rw [reports_withState]
  by_cases hsame : s = segment ∧ j = i
  · rw [if_pos hsame, hsame.1, hsame.2, h]
  · rw [if_neg hsame]

/-- Another text for a replica matters only when it is read as another of the two states. -/
theorem agrees_withState (hs : v.Streams segment)
    (honline : v.Reports segment i .online ↔ ReplicaState.ofString text = .online)
    (hconsuming : v.Reports segment i .consuming ↔ ReplicaState.ofString text = .consuming) :
    v.Agrees (v.withState segment i text) where
  table := rfl
  streams s := by
    rw [streams_withState]
    constructor
    · exact .inl
    · rintro (hold | ⟨rfl, -⟩)
      · exact hold
      · exact hs
  online s _ j := (reports_withState_of_same honline s j).symm
  consuming s _ j := (reports_withState_of_same hconsuming s j).symm

theorem agrees_withState_of_other (hname : (splitFields segment.toList).length ≠ 4) :
    v.Agrees (v.withState segment i text) := by
  have hreports : ∀ state s, v.Streams s → ∀ j,
      v.Reports s j state ↔ (v.withState segment i text).Reports s j state := by
    intro state s hs j
    have hne : s ≠ segment := fun heq => hname (heq ▸ hs.2)
    simp [reports_withState, hne]
  exact ⟨rfl, fun s => by simp [streams_withState, hname], hreports .online, hreports .consuming⟩

end Changes

variable {v v' : ClusterView} {s : StreamSegment}

theorem streams_of_mem (hs : s ∈ v.streamSegments) : v.Streams s.name :=
  streams_iff.mpr ⟨s, hs, rfl⟩

theorem ascending_streamSegments (v : ClusterView) :
    Ascending StreamSegment.name v.streamSegments := by
  have hnames : Ascending id v.names := List.pairwise_map.mpr v.segments.ascending
  apply List.pairwise_filterMap.mpr
  apply hnames.imp
  intro a b hab s hs s' hs'
  rw [StreamSegment.name_of_ofName? hs, StreamSegment.name_of_ofName? hs']
  exact hab

namespace Agrees

theorem streamSegments_eq (h : v.Agrees v') : v.streamSegments = v'.streamSegments := by
  apply v.ascending_streamSegments.eq_of_mem_iff v'.ascending_streamSegments
  intro s
  constructor
  · intro hs
    have hname := (h.streams s.name).mp (streams_of_mem hs)
    exact mem_streamSegments.mpr ⟨hname.1, (mem_streamSegments.mp hs).2⟩
  · intro hs
    have hname := (h.streams s.name).mpr (streams_of_mem hs)
    exact mem_streamSegments.mpr ⟨hname.1, (mem_streamSegments.mp hs).2⟩

theorem logs_eq (h : v.Agrees v') : v.logs = v'.logs := by
  rw [logs, logs, h.streamSegments_eq]

theorem isConsumingSource_iff (h : v.Agrees v') (hs : s ∈ v.streamSegments) :
    v.IsConsumingSource s ↔ v'.IsConsumingSource s := by
  have honline := h.online s.name (streams_of_mem hs)
  simp only [IsConsumingSource, logOf, h.streamSegments_eq, honline]

/-- The scopes are compared only for an instance that would be a candidate within them. -/
theorem candidatesOf_eq {members members' : List Member} (h : v.Agrees v')
    (hscope : ∀ i, v.IsLive i → (i ∈ serving members ↔ i ∈ serving members'))
    (hs : s ∈ v.streamSegments) : v.candidatesOf members s = v'.candidatesOf members' s := by
  have hstreams := streams_of_mem hs
  have heligible : (v.candidatesOf members s).eligible =
      (v'.candidatesOf members' s).eligible := by
    apply Names.eq_of_mem_iff
    intro i
    rw [mem_candidatesOf hs, mem_candidatesOf (h.streamSegments_eq ▸ hs), ← mem_serving,
      ← mem_serving, ← h.online s.name hstreams, ← h.consuming s.name hstreams,
      ← h.isConsumingSource_iff hs]
    apply and_congr_left
    rintro (honline | ⟨hconsuming, -⟩)
    · exact hscope i ⟨s.name, hstreams, .inl honline⟩
    · exact hscope i ⟨s.name, hstreams, .inr hconsuming⟩
  exact congrArg (Candidates.mk s.name) heligible

theorem coverage_eq {members members' : List Member} (h : v.Agrees v')
    (hscope : ∀ i, v.IsLive i → (i ∈ serving members ↔ i ∈ serving members')) :
    v.coverage members = v'.coverage members' := by
  have hentries : (v.coverage members).entries = (v'.coverage members').entries := by
    rw [entries_eq_map_arranged, entries_eq_map_arranged, arranged, arranged, ← h.logs_eq]
    apply List.map_congr_left
    intro s hs
    exact h.candidatesOf_eq hscope (mem_arranged.mp hs)
  exact congrArg₂ Coverage.mk h.table hentries

end Agrees

end ClusterView

/-- A seed leaves no choice but the views and the instances. -/
theorem Settings.build_eq_of_agrees {v v' : ClusterView} {members members' : List Member}
    (h : v.Agrees v')
    (hscope : ∀ i, v.IsLive i → (i ∈ serving members ↔ i ∈ serving members'))
    (s : Settings) (hseed : s.seed.isSome = true) (entropy entropy' : Nat → ChaCha) :
    ∃ set, (s.planner entropy).build v members = .ok set ∧
      (s.planner entropy').build v' members' = .ok set := by
  obtain ⟨seed, hseed⟩ := Option.isSome_iff_exists.mp hseed
  have hsource : s.sourceAt entropy = s.sourceAt entropy' := by
    funext index
    simp only [sourceAt, hseed]
  refine ⟨_, Planner.build_streaming _ _ v members, ?_⟩
  rw [planner, Planner.build_streaming, h.coverage_eq hscope, h.table, hsource]

/-- Another letter case between blanks, a failed replica that was not reported before, and a
segment of another family; the members in another order and repeated, with one that holds
nothing and one that is online outside the streaming segments only. -/
theorem Settings.build_eq_of_agrees_changed :
    let segment := "t__0__0__1"
    let v := ((ClusterView.ofTable "t").withState segment "A" "ONLINE").withState segment "B" "online"
    let v' := ((v.withState segment "A" " Online\t").withState segment "C" "ERROR").withState
      "batch" "D" "ONLINE"
    let members : List Member := [⟨"A", true⟩, ⟨"B", true⟩]
    let members' : List Member := [⟨"Z", true⟩, ⟨"B", false⟩, ⟨"B", true⟩, ⟨"D", true⟩, ⟨"A", true⟩,
      ⟨"A", true⟩]
    v.Agrees v' ∧ (∀ i, v.IsLive i → (i ∈ serving members ↔ i ∈ serving members')) ∧
      ∃ set, ((⟨2, some 5⟩ : Settings).planner (fun _ => .ofSeed 0)).build v members = .ok set ∧
        ((⟨2, some 5⟩ : Settings).planner (fun _ => .ofSeed 1)).build v' members' = .ok set := by
  intro segment v v' members members'
  have hcase : v.Agrees (v.withState segment "A" " Online\t") :=
    ClusterView.agrees_withState (by decide +kernel) (by decide +kernel) (by decide +kernel)
  have hfailed : (v.withState segment "A" " Online\t").Agrees
      ((v.withState segment "A" " Online\t").withState segment "C" "ERROR") :=
    ClusterView.agrees_withState (by decide +kernel) (by decide +kernel) (by decide +kernel)
  have h : v.Agrees v' :=
    (hcase.trans hfailed).trans (ClusterView.agrees_withState_of_other (by decide +kernel))
  have hscope : ∀ i, v.IsLive i → (i ∈ serving members ↔ i ∈ serving members') := by
    rintro i ⟨s, -, hi⟩
    have hholder : i = "A" ∨ i = "B" := by
      by_contra hne
      obtain ⟨hA, hB⟩ := not_or.mp hne
      simp only [v, ClusterView.reports_withState, hA, hB, and_false, if_false] at hi
      rcases hi with ⟨text, htext, -⟩ | ⟨text, htext, -⟩ <;> contradiction
    rcases hholder with rfl | rfl
    · exact iff_of_true (mem_serving.mpr (by decide)) (mem_serving.mpr (by decide))
    · exact iff_of_true (mem_serving.mpr (by decide)) (mem_serving.mpr (by decide))
  exact ⟨h, hscope, Settings.build_eq_of_agrees h hscope ⟨2, some 5⟩ rfl _ _⟩

end SegmentRouting
