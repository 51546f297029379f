import Mathlib.Data.List.Induction
import SegmentRouting.Proofs.LoadTally

/-! Where a load comes from. The first pick that brings any instance to some load is made
among candidates that are all level just below it, since a heavier one would have been
there before. Loads only grow, so that all of them still have nearly as much in the end. -/

namespace SegmentRouting

variable {G : Type} [Generator G]

namespace Progress

/-- Nobody has more than `n` before this pick, so that no candidate outweighs the one it takes. -/
theorem exists_level_pick {cs : List Candidates} {p : Progress G} (hp : ∀ i, p.load.of i = 0)
    {n : Nat} {i : Instance} (h : n < ((p.deals cs).map (·.1)).count i) :
    ∃ before c after j, cs = before ++ c :: after ∧
      (before.foldl place p).choice c = some j ∧ j ∈ c.eligible ∧
      ∀ k ∈ c.eligible, ((p.deals before).map (·.1)).count k = n := by
  induction cs using List.reverseRecOn generalizing i with
  | nil => simp [deals] at h
  | append_singleton cs c ih =>
    by_cases hold : ∃ k, n < ((p.deals cs).map (·.1)).count k
    · obtain ⟨k, hk⟩ := hold
      obtain ⟨before, c', after, j, hcs, hpick⟩ := ih hk
      exact ⟨before, c', after ++ [c], j, by simp [hcs], hpick⟩
    · have hmost : ∀ k, ((p.deals cs).map (·.1)).count k ≤ n := by
        intro k
        by_contra hk
        exact hold ⟨k, by omega⟩
      rw [deals_append, List.map_append, List.count_append] at h
      have hi := hmost i
      rcases (cs.foldl place p).choice_cases c with ⟨-, hc⟩ | ⟨-, j, hj, hc⟩
      · simp [deals, hc] at h
        omega
      · have hij : j = i := by
          by_contra hij
          simp [deals, hc, hij] at h
          omega
        subst hij
        have hn : ((p.deals cs).map (·.1)).count j = n := by
          simp [deals, hc] at h
          omega
        refine ⟨cs, c, [], j, rfl, hc, hj, ?_⟩
        intro k hk
        rcases lighter_or_level_of_pick hc with ⟨k', -, hlt⟩ | hlevel
        · rw [load_foldl_eq_count hp, load_foldl_eq_count hp, hn] at hlt
          have hk' := hmost k'
          omega
        · rw [← load_foldl_eq_count hp, hlevel k hk, load_foldl_eq_count hp, hn]

end Progress

namespace Coverage

variable {c : Coverage}

/-- Behind each load stands a segment whose candidates all have nearly as much. -/
theorem exists_level_segment (hc : c.Distinct) (g : G) {n : Nat} {i : Instance}
    (h : n < (c.assign g).1.loadOf i) :
    ∃ j segment eligible, n < (c.assign g).1.loadOf j ∧ (c.assign g).1.Holds j segment ∧
      c.eligible? segment = some eligible ∧ ∀ k ∈ eligible, n ≤ (c.assign g).1.loadOf k := by
  rw [loadOf_assign hc] at h
  obtain ⟨before, e, after, j, horder, hpick, hj, hlevel⟩ :=
    Progress.exists_level_pick (fun _ => rfl) h
  have hdeals : c.deals g = Progress.deals ⟨.empty, .empty, g⟩ before ++ (j, e.segment) ::
      ((before.foldl Progress.place ⟨.empty, .empty, g⟩).place e).deals after := by
    rw [deals, horder, Progress.deals_append, Progress.deals, hpick]
  have hload : ∀ k ∈ e.eligible, n + (if j = k then 1 else 0) ≤ (c.assign g).1.loadOf k := by
    intro k hk
    rw [loadOf_assign hc, hdeals, List.map_append, List.count_append, hlevel k hk]
    by_cases hjk : j = k
    · simp [hjk]
    · simp [hjk]
  have he : e ∈ c.entries := c.perm_placementOrder.mem_iff.mp (by simp [horder])
  refine ⟨j, e.segment, e.eligible, ?_, holds_assign.mpr (by simp [hdeals]),
    (eligible?_eq_some_iff hc).mpr he, ?_⟩
  · have hown := hload j hj
    rw [if_pos rfl] at hown
    omega
  · intro k hk
    have hother := hload k hk
    omega

/-- The candidate sets may overlap in any way, and loads and weights are unbounded numbers. -/
theorem peak_assign_justified (hc : c.Distinct) (g : G) (hpeak : 0 < (c.assign g).1.peak) :
    ∃ i segment eligible, (c.assign g).1.loadOf i = (c.assign g).1.peak ∧
      (c.assign g).1.Holds i segment ∧ c.eligible? segment = some eligible ∧
      ∀ j ∈ eligible, (c.assign g).1.peak - 1 ≤ (c.assign g).1.loadOf j := by
  have hreached : ∃ i, (c.assign g).1.peak - 1 < (c.assign g).1.loadOf i := by
    by_contra hnone
    have hlow := RoutingTable.peak_le fun i => Nat.not_lt.mp fun hi => hnone ⟨i, hi⟩
    omega
  obtain ⟨i, hi⟩ := hreached
  obtain ⟨j, segment, eligible, hj, hholds, he, hlevel⟩ := exists_level_segment hc g hi
  have hle := (c.assign g).1.loadOf_le_peak j
  exact ⟨j, segment, eligible, by omega, hholds, he, hlevel⟩

/-- Three sets that overlap without being nested, and a segment pinned to an instance that
is in none of them. -/
theorem peak_assign_justified_overlapping :
    let c : Coverage := ⟨"t", [⟨"s1", .ofList ["A", "B"]⟩, ⟨"s2", .ofList ["B", "C"]⟩,
      ⟨"s3", .ofList ["A", "C"]⟩, ⟨"s4", .ofList ["A", "B"]⟩, ⟨"pinned", .ofList ["D"]⟩]⟩
    let t := (c.assign (⟨[5, 7], 0⟩ : WordList)).1
    c.Distinct ∧ t.peak = 2 ∧ ∃ i segment eligible, t.loadOf i = 2 ∧ t.Holds i segment ∧
      c.eligible? segment = some eligible ∧ ∀ j ∈ eligible, 1 ≤ t.loadOf j := by
  intro c t
  have hc : c.Distinct := by
    unfold Distinct
    decide
  have hpeak : t.peak = 2 := by
    simp only [t, assign, placementOrder_eq_insertionSort]
    decide +kernel
  have h := peak_assign_justified hc (⟨[5, 7], 0⟩ : WordList) (by rw [hpeak]; decide)
  rw [hpeak] at h
  exact ⟨hc, hpeak, h⟩

end Coverage

end SegmentRouting
