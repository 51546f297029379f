import SegmentRouting.Proofs.Agreement
import SegmentRouting.Proofs.PartitionLogs

/-! The part of the coverage that belongs to one partition. It is found from the
names and states of that partition alone: nothing that a view holds elsewhere, not
even a name with an unreadable number, reaches its order, its consuming segment or
its candidates. -/

namespace SegmentRouting

/-- The segment is a streaming one of the partition. -/
def inPartition (p : Partition) (segment : Segment) : Bool :=
  (StreamSegment.ofName? segment).any (·.partition == p)

theorem inPartition_name {v : ClusterView} {s : StreamSegment} (hs : s ∈ v.streamSegments)
    (p : Partition) : inPartition p s.name = (s.partition == p) := by
  rw [inPartition, (ClusterView.mem_streamSegments.mp hs).2, Option.any_some]

namespace ClusterView

theorem inPartition_of_mem_logOf {v : ClusterView} {s : StreamSegment} {p : Partition}
    (hs : s ∈ (v.logOf p).segments) : inPartition p s.name = true := by
  obtain ⟨hstream, rfl⟩ := mem_logOf.mp hs
  rw [inPartition_name hstream, beq_self_eq_true]

/-- The two views hold the same segments of the partition with the same states. -/
def AgreesOn (p : Partition) (v v' : ClusterView) : Prop :=
  ∀ segment, inPartition p segment = true → v.states? segment = v'.states? segment

variable {v v' : ClusterView} {p : Partition} {members : List Member} {s : StreamSegment}

theorem agreesOn_withState {segment : Segment} {i : Instance} {text : String}
    (h : inPartition p segment = false) : v.AgreesOn p (v.withState segment i text) := by
  intro s hs
  have hne : s ≠ segment := by
    rintro rfl
    rw [h] at hs
    contradiction
  rw [states?, states?, withState, Dict.get?_update, if_neg hne]

theorem AgreesOn.trans {v'' : ClusterView} (h : v.AgreesOn p v') (h' : v'.AgreesOn p v'') :
    v.AgreesOn p v'' :=
  fun segment hs => (h segment hs).trans (h' segment hs)

theorem filter_arranged (v : ClusterView) (p : Partition) :
    v.arranged.filter (fun s => inPartition p s.name) = (v.logOf p).segments := by
  have hmem : ∀ s, s ∈ v.arranged.filter (fun s => inPartition p s.name) ↔
      s ∈ (v.logOf p).segments := by
    intro s
    rw [List.mem_filter, mem_arranged, mem_logOf]
    apply and_congr_right
    intro hs
    rw [inPartition_name hs, beq_iff_eq]
  have hpartition : ∀ s ∈ v.arranged.filter (fun s => inPartition p s.name), s.partition = p :=
    fun s hs => (mem_logOf.mp ((hmem s).mp hs)).2
  have hnodup : v.arranged.Nodup := v.nodup_names_logs.of_map
  have hordered : (v.arranged.filter (fun s => inPartition p s.name)).Pairwise v.Precedes := by
    apply (v.pairwise_arranged.filter _).imp_of_mem
    intro s s' hs hs' h
    rcases h with h | ⟨-, h⟩
    · rw [hpartition s hs, hpartition s' hs'] at h
      exact absurd h (String.lt_irrefl p)
    · exact h
  apply List.Perm.eq_of_pairwise _ hordered (v.pairwise_logOf p)
  · exact (List.perm_ext_iff_of_nodup (hnodup.filter _) (v.nodup_logOf p)).mpr hmem
  · intro s s' hs hs' h h'
    have hp := (hpartition s hs).trans (mem_logOf.mp hs').2.symm
    exact absurd h' (h.asymm hp)

theorem filter_entries (v : ClusterView) (members : List Member) (p : Partition) :
    (v.coverage members).entries.filter (fun e => inPartition p e.segment) =
      (v.logOf p).segments.map (v.candidatesOf members) := by
  rw [entries_eq_map_arranged, List.filter_map, ← filter_arranged]
  rfl

theorem filter_unassignable (c : Coverage) (p : Partition) :
    c.unassignable.filter (inPartition p) =
      ((c.entries.filter (fun e => inPartition p e.segment)).filter
        (fun e => e.eligible.isEmpty)).map (·.segment) := by
  rw [Coverage.unassignable, List.filter_map, List.filter_filter, List.filter_filter]
  apply congrArg (List.map Candidates.segment)
  apply List.filter_congr
  intro e _
  exact Bool.and_comm _ _

namespace AgreesOn

theorem names_iff (h : v.AgreesOn p v') {segment : Segment} (hs : inPartition p segment = true) :
    segment ∈ v.names ↔ segment ∈ v'.names := by
  have hstates := h segment hs
  rw [states?, states?] at hstates
  rw [names, names, Dict.mem_keys_iff, Dict.mem_keys_iff, hstates]

theorem replicas_eq (h : v.AgreesOn p v') {segment : Segment} (hs : inPartition p segment = true) :
    v.replicas segment = v'.replicas segment := by
  rw [replicas, replicas, h segment hs]

theorem logOf_eq (h : v.AgreesOn p v') : v.logOf p = v'.logOf p := by
  have hsegments : v.streamSegments.filter (fun s => s.partition == p) =
      v'.streamSegments.filter (fun s => s.partition == p) := by
    apply Ascending.eq_of_mem_iff (v.ascending_streamSegments.filter _)
      (v'.ascending_streamSegments.filter _)
    intro s
    simp only [List.mem_filter, mem_streamSegments]
    apply and_congr_left
    intro hp
    apply and_congr_left
    intro hread
    exact h.names_iff (by rw [inPartition, hread, Option.any_some, hp])
  rw [logOf, logOf, hsegments]

theorem consuming?_eq (h : v.AgreesOn p v') :
    v.consuming? (v.logOf p) = v'.consuming? (v'.logOf p) := by
  rw [← h.logOf_eq, consuming?, consuming?]
  split
  · rfl
  · rename_i last hlast
    have hin := inPartition_of_mem_logOf (List.mem_of_getLast? hlast)
    rw [isFlushed, isFlushed, h.replicas_eq hin]

theorem candidatesOf_eq (h : v.AgreesOn p v') (hs : s ∈ (v.logOf p).segments) :
    v.candidatesOf members s = v'.candidatesOf members s := by
  have hin := inPartition_of_mem_logOf hs
  obtain rfl := (mem_logOf.mp hs).2
  rw [candidatesOf, candidatesOf, h.consuming?_eq, candidates, candidates, h.replicas_eq hin]

theorem filter_entries_eq (h : v.AgreesOn p v') (members : List Member) :
    (v.coverage members).entries.filter (fun e => inPartition p e.segment) =
      (v'.coverage members).entries.filter (fun e => inPartition p e.segment) := by
  rw [filter_entries, filter_entries, ← h.logOf_eq]
  apply List.map_congr_left
  intro s hs
  exact h.candidatesOf_eq hs

end AgreesOn

end ClusterView

variable {G : Type} [Generator G]

/-- Even the tables that the views are of may differ. -/
theorem Planner.coverage_of_one_partition {p : Partition} {v v' : ClusterView}
    (h : v.AgreesOn p v') (count : Nat) (sourceAt : Nat → G) (members : List Member) :
    ∃ c c', (Planner.streaming count sourceAt).coverage v members = .ok c ∧
      (Planner.streaming count sourceAt).coverage v' members = .ok c' ∧
      c.entries.filter (fun e => inPartition p e.segment) =
        c'.entries.filter (fun e => inPartition p e.segment) ∧
      c.unassignable.filter (inPartition p) = c'.unassignable.filter (inPartition p) := by
  have hentries := h.filter_entries_eq members
  refine ⟨v.coverage members, v'.coverage members, rfl, rfl, hentries, ?_⟩
  rw [ClusterView.filter_unassignable, ClusterView.filter_unassignable, hentries]

/-- Beside a partition with a consuming segment stand, in the second view only, another
partition with an unreadable number and a name of another family. -/
theorem Planner.coverage_of_one_partition_degraded_other :
    let v := ((ClusterView.ofTable "t").withState "t__0__1__a" "A" "ONLINE").withState
      "t__0__2__a" "B" "CONSUMING"
    let v' := ((v.withState "t__1__x__a" "A" "lost").withState "t__1__2__a" "B" "ONLINE").withState
      "batch" "A" "ONLINE"
    let members : List Member := [⟨"A", true⟩, ⟨"B", true⟩]
    v.AgreesOn "0" v' ∧
      ∃ c c', (Planner.streaming 1 (fun _ => ChaCha.ofSeed 0)).coverage v members = .ok c ∧
        (Planner.streaming 1 (fun _ => ChaCha.ofSeed 0)).coverage v' members = .ok c' ∧
        c.entries.filter (fun e => inPartition "0" e.segment) =
          c'.entries.filter (fun e => inPartition "0" e.segment) ∧
        c.unassignable.filter (inPartition "0") = c'.unassignable.filter (inPartition "0") := by
  intro v v' members
  have hdegraded : v.AgreesOn "0" (v.withState "t__1__x__a" "A" "lost") :=
    ClusterView.agreesOn_withState (by decide +kernel)
  have hmore : (v.withState "t__1__x__a" "A" "lost").AgreesOn "0"
      ((v.withState "t__1__x__a" "A" "lost").withState "t__1__2__a" "B" "ONLINE") :=
    ClusterView.agreesOn_withState (by decide +kernel)
  have h : v.AgreesOn "0" v' :=
    (hdegraded.trans hmore).trans (ClusterView.agreesOn_withState (by decide +kernel))
  exact ⟨h, Planner.coverage_of_one_partition h 1 (fun _ => ChaCha.ofSeed 0) members⟩

end SegmentRouting
