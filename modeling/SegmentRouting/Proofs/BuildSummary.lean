import SegmentRouting.Proofs.PartitionOrder
import SegmentRouting.Proofs.PeakLoad
import SegmentRouting.Proofs.Registry.Workers
import SegmentRouting.Wire.Tables

/-! The summary of a build accounts for the streaming segments of a view one by one: each is
routed, in all tables alike, or unassignable, and none is both or is counted twice. -/

namespace SegmentRouting

theorem StreamSegment.mergeSort_rank (degraded : Bool) (l : List StreamSegment) :
    l.mergeSort (fun a b => rankLE (a.rank degraded) (b.rank degraded)) =
      l.insertionSort (fun a b => rankLE (a.rank degraded) (b.rank degraded) = true) := by
  apply mergeSort_eq_insertionSort
  · intro a b c hab hbc
    exact rankLE_trans _ _ _ hab hbc
  · intro a b
    exact rankLE_total _ _

namespace Coverage

variable {c : Coverage}

theorem nodup_segments_routable (hc : c.Distinct) : (c.routable.map (·.segment)).Nodup :=
  hc.sublist (List.filter_sublist.map _)

theorem length_routable_add_unassignable (c : Coverage) :
    c.routable.length + c.unassignable.length = c.entries.length := by
  have hsplit := List.length_eq_length_filter_add (l := c.entries) (fun e => e.eligible.isEmpty)
  rw [routable, unassignable, List.length_map]
  omega

theorem mem_segments_routable_iff (hc : c.Distinct) {segment : Segment} :
    segment ∈ c.routable.map (·.segment) ↔
      ∃ eligible, c.eligible? segment = some eligible ∧ eligible.isEmpty = false := by
  simp only [routable, List.mem_map, List.mem_filter, Bool.not_eq_true', eligible?_eq_some_iff hc]
  constructor
  · rintro ⟨e, he, rfl⟩
    exact ⟨e.eligible, he⟩
  · rintro ⟨eligible, he⟩
    exact ⟨_, he, rfl⟩

theorem size_assign {G : Type} [Generator G] (hc : c.Distinct) (g : G) :
    (c.assign g).1.size = c.routable.length := by
  have hlen := (c.perm_segments_deals g).length_eq
  rw [List.length_map, List.length_map, ← routable] at hlen
  rw [assign_eq_ofPairs, RoutingTable.size_ofPairs (nodup_segments_deals hc g), hlen]

end Coverage

namespace ClusterView

variable {v : ClusterView} {members : List Member}

/-- One entry for each name that has four fields. -/
theorem length_entries_coverage (v : ClusterView) (members : List Member) :
    (v.coverage members).entries.length =
      (v.names.filter (fun name => decide ((splitFields name.toList).length = 4))).length := by
  have hperm : ((v.coverage members).entries.map (·.segment)).Perm
      (v.streamSegments.map (·.name)) := by
    apply (List.perm_ext_iff_of_nodup (v.nodup_coverage members)
      v.nodup_names_streamSegments).mpr
    intro segment
    rw [← Coverage.exists_eligible? (v.nodup_coverage members), ← streams_iff_eligible?,
      streams_iff, List.mem_map]
  have hlen := hperm.length_eq
  rw [List.length_map, List.length_map] at hlen
  rw [hlen, streamSegments, List.length_filterMap_eq_countP, List.countP_eq_length_filter]
  congr 2
  funext name
  rw [Bool.eq_iff_iff, StreamSegment.ofName?_isSome, decide_eq_true_iff]

theorem length_routed_names {t : RoutingTable} (h : (v.coverage members).RoutesOnce t) :
    (v.names.filter (fun name => (t.holder? name).isSome)).length =
      (v.coverage members).routable.length := by
  have hc : (v.coverage members).Distinct := v.nodup_coverage members
  have hperm : (v.names.filter (fun name => (t.holder? name).isSome)).Perm
      ((v.coverage members).routable.map (·.segment)) := by
    apply (List.perm_ext_iff_of_nodup (v.segments.nodup_keys.filter _)
      (Coverage.nodup_segments_routable hc)).mpr
    intro name
    rw [List.mem_filter, RoutingTable.isSome_holder?_iff, h.holds_iff,
      Coverage.mem_segments_routable_iff hc]
    refine and_iff_right_of_imp ?_
    rintro ⟨eligible, he, -⟩
    exact (streams_iff_eligible?.mpr ⟨eligible, he⟩).1
  exact hperm.length_eq.trans (List.length_map _)

end ClusterView

theorem TableSet.routedSegments_of_forall {s : TableSet} {n : Nat} (hne : s.tables ≠ [])
    (h : ∀ t ∈ s.tables, t.size = n) : s.summary.routedSegments = n := by
  obtain ⟨t, ts, hts⟩ := List.exists_cons_of_ne_nil hne
  have ht := h t (by simp [hts])
  simpa [summary, hts] using ht

variable {G : Type} [Generator G]

theorem Registry.rebuild_streaming (r : Registry) (count : Nat) (sourceAt : Nat → G)
    (v : ClusterView) (members : List Member) {order : List Nat}
    (horder : order.Perm (List.range count)) :
    (r.rebuild (.streaming count sourceAt) v.table v members (fun _ => none) order).1 =
      .ok ⟨v.table, (List.range count).map (fun n => ((v.coverage members).assign (sourceAt n)).1),
        (v.coverage members).unassignable⟩ := by
  let p := Planner.streaming count sourceAt
  have hrebuild := congrArg Prod.fst (r.rebuild_own p v members (fun _ => none) order)
  have hconcurrently : p.buildConcurrently v.table v members (fun _ => none) order =
      p.build v members :=
    Planner.buildConcurrently_eq_build (Planner.keepsName_streaming count sourceAt)
      (fun _ _ => rfl) horder
  exact (hrebuild.trans hconcurrently).trans (Planner.build_streaming count sourceAt v members)

/-- The workers finish in any order, and the tables are drawn from any sources. The view is the
one of the request, for the table that is named beside it. -/
theorem Registry.summary_accounts (r : Registry) {count : Nat} (hcount : 1 ≤ count)
    (sourceAt : Nat → G) (table : String) (change : ChangeRequest) {order : List Nat}
    (horder : order.Perm (List.range count)) :
    ∃ set, (r.rebuild (.streaming count sourceAt) table (change.view table) change.members
        (fun _ => none) order).1 = .ok set ∧
      set.summary.table = table ∧ set.summary.tableCount = count ∧
      (∀ t ∈ set.tables, t.size = set.summary.routedSegments ∧
        (change.segments.keys.filter (fun name => (t.holder? name).isSome)).length =
          set.summary.routedSegments) ∧
      set.summary.unassignable.Nodup ∧
      set.summary.routedSegments + set.summary.unassignable.length =
        (change.segments.keys.filter
          (fun name => decide ((splitFields name.toList).length = 4))).length := by
  let v := change.view table
  let c := v.coverage change.members
  have hc : c.Distinct := v.nodup_coverage change.members
  have hbuild := Planner.build_streaming count sourceAt v change.members
  refine ⟨_, r.rebuild_streaming count sourceAt v change.members horder, rfl,
    by simp [TableSet.summary], ?_⟩
  have hsize : ∀ t ∈ (List.range count).map (fun n => (c.assign (sourceAt n)).1),
      t.size = c.routable.length := by
    intro t ht
    obtain ⟨n, -, rfl⟩ := List.mem_map.mp ht
    exact Coverage.size_assign hc (sourceAt n)
  have hne : (List.range count).map (fun n => (c.assign (sourceAt n)).1) ≠ [] := by
    simp only [ne_eq, List.map_eq_nil_iff, List.range_eq_nil]
    omega
  rw [TableSet.routedSegments_of_forall hne hsize]
  refine ⟨?_, Coverage.nodup_unassignable hc, ?_⟩
  · intro t ht
    exact ⟨hsize t ht, ClusterView.length_routed_names (Planner.routesOnce_of_mem hbuild ht)⟩
  · exact c.length_routable_add_unassignable.trans (v.length_entries_coverage change.members)

/-- Two of four streaming segments have no candidates, and a fifth name has no four fields. -/
theorem Registry.summary_accounts_mixed :
    let change : ChangeRequest := ⟨((ClusterView.ofTable "t")
        |>.withState "t__0__0__x" "A" "ONLINE"
        |>.withState "t__0__1__x" "B" "consuming"
        |>.withState "t__1__0__x" "A" "CONSUMING"
        |>.withState "t__1__1__x" "C" "ONLINE"
        |>.withState "batch_1" "A" "ONLINE").segments, [⟨"A", true⟩, ⟨"B", true⟩]⟩
    let sourceAt : Nat → ChaCha := fun n => .ofSeed (8 + UInt64.ofNat n)
    1 ≤ 2 ∧ [1, 0].Perm (List.range 2) ∧
      ∃ set, (empty.rebuild (.streaming 2 sourceAt) "t" (change.view "t") change.members
          (fun _ => none) [1, 0]).1 = .ok set ∧
        set.summary = ⟨"t", 2, 2, ["t__1__0__x", "t__1__1__x"]⟩ ∧
        set.summary.routedSegments + set.summary.unassignable.length = 4 := by
  intro change sourceAt
  have horder : [1, 0].Perm (List.range 2) := by decide
  obtain ⟨set, hset, -, -, -, -, hsum⟩ :=
    empty.summary_accounts (by decide : 1 ≤ 2) sourceAt "t" change horder
  have hcoverage : (change.view "t").coverage change.members = ⟨"t",
      [⟨"t__0__0__x", .ofList ["A"]⟩, ⟨"t__0__1__x", .ofList ["B"]⟩, ⟨"t__1__0__x", .empty⟩,
        ⟨"t__1__1__x", .empty⟩]⟩ := by
    simp only [ClusterView.coverage, ClusterView.logs, PartitionLog.ofSegments,
      StreamSegment.mergeSort_rank]
    decide +kernel
  have hbuilt := empty.rebuild_streaming 2 sourceAt (change.view "t") change.members horder
  rw [hcoverage] at hbuilt
  have hsummary : set.summary = ⟨"t", 2, 2, ["t__1__0__x", "t__1__1__x"]⟩ := by
    rw [Except.ok.inj (hset.symm.trans hbuilt)]
    simp only [Coverage.assign, Coverage.placementOrder_eq_insertionSort]
    decide +kernel
  have hnames : (change.segments.keys.filter
      (fun name => decide ((splitFields name.toList).length = 4))).length = 4 := by
    decide +kernel
  exact ⟨by decide, horder, set, hset, hsummary, hsum.trans hnames⟩

end SegmentRouting
