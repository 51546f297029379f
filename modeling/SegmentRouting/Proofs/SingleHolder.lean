import SegmentRouting.Planner
import SegmentRouting.Proofs.Deals
import SegmentRouting.Proofs.Holders
import SegmentRouting.Proofs.StreamingEntries

/-! Each table of a build routes every streaming segment to exactly one of its
candidates, and to none only when it has none. This holds for any picks that
are made among the candidates, whatever the source of random words. -/

namespace SegmentRouting

variable {G : Type} [Generator G]

namespace Coverage

/-- No segment has two entries. -/
def Distinct (c : Coverage) : Prop := (c.entries.map (·.segment)).Nodup

variable {c : Coverage} {segment : Segment} {eligible : Names}

theorem eligible?_eq_some_iff (hc : c.Distinct) :
    c.eligible? segment = some eligible ↔ ⟨segment, eligible⟩ ∈ c.entries := by
  rw [eligible?, Option.map_eq_some_iff]
  constructor
  · rintro ⟨e, he, rfl⟩
    have hs : e.segment = segment := by simpa using List.find?_some he
    subst hs
    exact List.mem_of_find?_eq_some he
  · intro he
    have hfound : (c.entries.find? (fun e => e.segment == segment)).isSome = true :=
      List.find?_isSome.mpr ⟨_, he, by simp⟩
    obtain ⟨e, hf⟩ := Option.isSome_iff_exists.mp hfound
    have hs : e.segment = segment := by simpa using List.find?_some hf
    have heq := List.inj_on_of_nodup_map hc (List.mem_of_find?_eq_some hf) he hs
    exact ⟨e, hf, congrArg Candidates.eligible heq⟩

theorem exists_eligible? (hc : c.Distinct) :
    (∃ eligible, c.eligible? segment = some eligible) ↔ segment ∈ c.entries.map (·.segment) := by
  simp only [eligible?_eq_some_iff hc, List.mem_map]
  constructor
  · rintro ⟨eligible, he⟩
    exact ⟨_, he, rfl⟩
  · rintro ⟨e, he, rfl⟩
    exact ⟨e.eligible, he⟩

theorem nodup_unassignable (hc : c.Distinct) : c.unassignable.Nodup :=
  hc.sublist (List.filter_sublist.map _)

theorem count_unassignable (hc : c.Distinct) (h : c.eligible? segment = some eligible) :
    c.unassignable.count segment = if eligible.isEmpty then 1 else 0 := by
  have he := (eligible?_eq_some_iff hc).mp h
  have hmem : segment ∈ c.unassignable ↔ eligible.isEmpty = true := by
    simp only [unassignable, List.mem_map, List.mem_filter]
    constructor
    · rintro ⟨e, ⟨hmem, hempty⟩, hs⟩
      have heq : e = ⟨segment, eligible⟩ := List.inj_on_of_nodup_map hc hmem he hs
      simpa [heq] using hempty
    · intro hempty
      exact ⟨_, ⟨he, hempty⟩, rfl⟩
  rw [(nodup_unassignable hc).count]
  simp only [hmem]

theorem holds_assign {g : G} {i : Instance} :
    ((c.assign g).1).Holds i segment ↔ (i, segment) ∈ c.deals g := by
  rw [assign_eq_ofPairs, RoutingTable.holds_ofPairs]

theorem eligible_of_holds_assign {g : G} {i : Instance} (hc : c.Distinct)
    (h : ((c.assign g).1).Holds i segment) :
    ∃ eligible, c.eligible? segment = some eligible ∧ i ∈ eligible := by
  obtain ⟨e, he, rfl, hi⟩ := mem_deals (holds_assign.mp h)
  exact ⟨e.eligible, (eligible?_eq_some_iff hc).mpr he, hi⟩

theorem nodup_segments_deals (hc : c.Distinct) (g : G) : ((c.deals g).map (·.2)).Nodup :=
  (c.perm_segments_deals g).nodup_iff.mpr (hc.sublist (List.filter_sublist.map _))

theorem unique_holder_assign {g : G} {i j : Instance} (hc : c.Distinct)
    (hi : ((c.assign g).1).Holds i segment) (hj : ((c.assign g).1).Holds j segment) : j = i := by
  have heq := List.inj_on_of_nodup_map (nodup_segments_deals hc g) (holds_assign.mp hj)
    (holds_assign.mp hi) rfl
  exact congrArg Prod.fst heq

theorem exists_holder_assign (g : G) (hc : c.Distinct) (h : c.eligible? segment = some eligible)
    (hne : eligible.isEmpty = false) : ∃ i, ((c.assign g).1).Holds i segment := by
  have he : (⟨segment, eligible⟩ : Candidates) ∈ c.entries.filter (fun e => !e.eligible.isEmpty) :=
    List.mem_filter.mpr ⟨(eligible?_eq_some_iff hc).mp h, by simp [hne]⟩
  have hs : segment ∈ (c.deals g).map (·.2) :=
    (c.perm_segments_deals g).mem_iff.mpr (List.mem_map.mpr ⟨_, he, rfl⟩)
  obtain ⟨⟨i, s⟩, hd, rfl⟩ := List.mem_map.mp hs
  exact ⟨i, holds_assign.mpr hd⟩

/-- What a table drawn from a coverage does with each of its entries. -/
structure RoutesOnce (c : Coverage) (t : RoutingTable) : Prop where
  routed : ∀ segment eligible, c.eligible? segment = some eligible → eligible.isEmpty = false →
    ∃ i ∈ eligible, t.holder? segment = some i ∧ ∀ j, t.Holds j segment ↔ j = i
  gap : ∀ segment eligible, c.eligible? segment = some eligible → eligible.isEmpty = true →
    ∀ i, ¬ t.Holds i segment
  only : ∀ i segment, t.Holds i segment → ∃ eligible, c.eligible? segment = some eligible
  filled : t.Filled

theorem routesOnce_assign (hc : c.Distinct) (g : G) : c.RoutesOnce (c.assign g).1 where
  routed := by
    intro segment eligible he hne
    obtain ⟨i, hi⟩ := exists_holder_assign g hc he hne
    obtain ⟨eligible', he', hmem⟩ := eligible_of_holds_assign hc hi
    obtain rfl := Option.some.inj (he.symm.trans he')
    have hall : ∀ j, ((c.assign g).1).Holds j segment ↔ j = i := by
      intro j
      constructor
      · exact unique_holder_assign hc hi
      · rintro rfl
        exact hi
    exact ⟨i, hmem, RoutingTable.holder?_of_unique hall, hall⟩
  gap := by
    intro segment eligible he hempty i hi
    obtain ⟨eligible', he', hmem⟩ := eligible_of_holds_assign hc hi
    obtain rfl := Option.some.inj (he.symm.trans he')
    rw [Names.isEmpty, List.isEmpty_iff] at hempty
    rw [← Names.mem_toList, hempty] at hmem
    exact List.not_mem_nil hmem
  only := by
    intro i segment h
    obtain ⟨eligible, he, -⟩ := eligible_of_holds_assign hc h
    exact ⟨eligible, he⟩
  filled := by
    rw [assign_eq_ofPairs]
    exact RoutingTable.filled_ofPairs _

theorem RoutesOnce.holds_iff {t : RoutingTable} (h : c.RoutesOnce t) :
    (∃ i, t.Holds i segment) ↔
      ∃ eligible, c.eligible? segment = some eligible ∧ eligible.isEmpty = false := by
  constructor
  · rintro ⟨i, hi⟩
    obtain ⟨eligible, he⟩ := h.only i segment hi
    refine ⟨eligible, he, Bool.eq_false_iff.mpr ?_⟩
    intro hempty
    exact h.gap segment eligible he hempty i hi
  · rintro ⟨eligible, he, hne⟩
    obtain ⟨i, -, -, hall⟩ := h.routed segment eligible he hne
    exact ⟨i, (hall i).mpr rfl⟩

end Coverage

theorem ClusterView.streams_iff_eligible? {v : ClusterView} {members : List Member}
    {segment : Segment} :
    v.Streams segment ↔ ∃ eligible, (v.coverage members).eligible? segment = some eligible := by
  rw [Coverage.exists_eligible? (v.nodup_coverage members), streams_iff, List.mem_map]
  constructor
  · rintro ⟨s, hs, rfl⟩
    exact ⟨_, mem_coverage.mpr ⟨s, hs, rfl⟩, rfl⟩
  · rintro ⟨e, he, rfl⟩
    obtain ⟨s, hs, rfl⟩ := mem_coverage.mp he
    exact ⟨s, hs, rfl⟩

theorem ClusterView.eligible?_coverage {v : ClusterView} {s : StreamSegment}
    (hs : s ∈ v.streamSegments) (members : List Member) :
    (v.coverage members).eligible? s.name = some (v.candidatesOf members s).eligible :=
  (Coverage.eligible?_eq_some_iff (v.nodup_coverage members)).mpr
    (mem_coverage.mpr ⟨s, hs, rfl⟩)

theorem Planner.build_streaming (count : Nat) (sourceAt : Nat → G) (v : ClusterView)
    (members : List Member) :
    (Planner.streaming count sourceAt).build v members =
      .ok ⟨v.table, (List.range count).map (fun n => ((v.coverage members).assign (sourceAt n)).1),
        (v.coverage members).unassignable⟩ := rfl

theorem Planner.routesOnce_of_mem {count : Nat} {sourceAt : Nat → G} {v : ClusterView}
    {members : List Member} {set : TableSet}
    (hset : (streaming count sourceAt).build v members = .ok set)
    {t : RoutingTable} (ht : t ∈ set.tables) : (v.coverage members).RoutesOnce t := by
  obtain rfl := Except.ok.inj ((build_streaming count sourceAt v members).symm.trans hset)
  obtain ⟨n, -, rfl⟩ := List.mem_map.mp ht
  exact Coverage.routesOnce_assign (v.nodup_coverage members) (sourceAt n)

theorem Planner.unassignable_of_build {count : Nat} {sourceAt : Nat → G} {v : ClusterView}
    {members : List Member} {set : TableSet}
    (hset : (streaming count sourceAt).build v members = .ok set) :
    set.unassignable = (v.coverage members).unassignable := by
  obtain rfl := Except.ok.inj ((build_streaming count sourceAt v members).symm.trans hset)
  rfl

/-- Every settings value gives such a planner, seeded or not. The candidates `c`
are those of this build, and their entries are exactly the streaming segments. -/
theorem Planner.build_routes_each_once (count : Nat) (sourceAt : Nat → G) (v : ClusterView)
    (members : List Member) :
    ∃ c set, (Planner.streaming count sourceAt).coverage v members = .ok c ∧
      (Planner.streaming count sourceAt).build v members = .ok set ∧
      set.tables.length = count ∧
      (∀ segment, v.Streams segment ↔ ∃ eligible, c.eligible? segment = some eligible) ∧
      (∀ segment eligible, c.eligible? segment = some eligible →
        set.unassignable.count segment = if eligible.isEmpty then 1 else 0) ∧
      (∀ t ∈ set.tables, c.RoutesOnce t) ∧
      ∀ t ∈ set.tables, ∀ t' ∈ set.tables, ∀ segment,
        (∃ i, t.Holds i segment) ↔ ∃ i, t'.Holds i segment := by
  have hc : (v.coverage members).Distinct := v.nodup_coverage members
  refine ⟨_, _, rfl, build_streaming count sourceAt v members, by simp,
    fun _ => ClusterView.streams_iff_eligible?, fun _ _ => Coverage.count_unassignable hc, ?_⟩
  have honce : ∀ t ∈ (List.range count).map (fun n => ((v.coverage members).assign (sourceAt n)).1),
      (v.coverage members).RoutesOnce t := by
    intro t ht
    obtain ⟨n, -, rfl⟩ := List.mem_map.mp ht
    exact Coverage.routesOnce_assign hc (sourceAt n)
  refine ⟨honce, ?_⟩
  intro t ht t' ht' segment
  exact (honce t ht).holds_iff.trans (honce t' ht').holds_iff.symm

end SegmentRouting
