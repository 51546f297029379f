import Mathlib.Algebra.Order.BigOperators.Group.List
import Mathlib.Algebra.Order.Group.Nat
import Mathlib.Data.List.Perm.Subperm
import Mathlib.Order.Bounds.Basic
import SegmentRouting.Proofs.LevelPick

/-! Where any two candidate sets are nested or disjoint, a table has the least
possible peak load, whatever is drawn. A segment raises the peak only when all its
candidates are level; what they hold came from sets within theirs, which were
placed before, and no other assignment has anywhere else to put it. -/

namespace SegmentRouting

namespace Names

instance : HasSubset Names := ⟨fun s t => ∀ x ∈ s.toList, x ∈ t.toList⟩

instance (s t : Names) : Decidable (s ⊆ t) :=
  inferInstanceAs (Decidable (∀ x ∈ s.toList, x ∈ t.toList))

theorem subset_of_size_le {s t : Names} (h : s ⊆ t) (hsize : t.size ≤ s.size) : t ⊆ s := by
  have hsub : s.toList.Subperm t.toList := s.nodup_toList.subperm h
  have hperm := hsub.perm_of_length_le hsize
  intro x hx
  exact hperm.mem_iff.mpr hx

/-- No member in common. -/
def Apart (s t : Names) : Prop := ∀ x ∈ s.toList, x ∉ t.toList

instance (s t : Names) : Decidable (s.Apart t) :=
  inferInstanceAs (Decidable (∀ x ∈ s.toList, x ∉ t.toList))

end Names

/-- Routed to an instance of the set in every assignment. -/
def Candidates.within (set : Names) (e : Candidates) : Bool :=
  !e.eligible.isEmpty && decide (e.eligible ⊆ set)

def Candidates.Nested (e e' : Candidates) : Prop :=
  e.eligible ⊆ e'.eligible ∨ e'.eligible ⊆ e.eligible ∨ e.eligible.Apart e'.eligible

instance (e e' : Candidates) : Decidable (e.Nested e') :=
  inferInstanceAs (Decidable (_ ∨ _ ∨ _))

theorem Candidates.Nested.subset_or_apart {e e' : Candidates} (h : e.Nested e')
    (hsize : e.eligible.size ≤ e'.eligible.size) :
    e.eligible ⊆ e'.eligible ∨ e.eligible.Apart e'.eligible := by
  rcases h with hsub | hsup | hapart
  · exact .inl hsub
  · exact .inl (Names.subset_of_size_le hsup hsize)
  · exact .inr hapart

namespace Coverage

/-- Empty sets are nested in all others. -/
def Laminar (c : Coverage) : Prop := ∀ e ∈ c.entries, ∀ e' ∈ c.entries, e.Nested e'

instance (c : Coverage) : Decidable c.Laminar :=
  inferInstanceAs (Decidable (∀ e ∈ c.entries, ∀ e' ∈ c.entries, e.Nested e'))

/-- The entries with candidates. -/
def routable (c : Coverage) : List Candidates := c.entries.filter (fun e => !e.eligible.isEmpty)

/-- Each segment with candidates goes to one of them. -/
def Serves (c : Coverage) (f : Segment → Instance) : Prop :=
  ∀ e ∈ c.routable, f e.segment ∈ e.eligible

def loadUnder (c : Coverage) (f : Segment → Instance) (i : Instance) : Nat :=
  (c.routable.map (fun e => f e.segment)).count i

def peakUnder (c : Coverage) (f : Segment → Instance) : Nat :=
  maximum (c.routable.map (fun e => c.loadUnder f (f e.segment)))

variable {c : Coverage} {f : Segment → Instance}

theorem loadUnder_le_peakUnder (c : Coverage) (f : Segment → Instance) (i : Instance) :
    c.loadUnder f i ≤ c.peakUnder f := by
  by_cases hi : i ∈ c.routable.map (fun e => f e.segment)
  · obtain ⟨e, he, rfl⟩ := List.mem_map.mp hi
    exact le_maximum (List.mem_map_of_mem (f := fun e => c.loadUnder f (f e.segment)) he)
  · rw [loadUnder, List.count_eq_zero.mpr hi]
    exact Nat.zero_le _

theorem peakUnder_le {m : Nat} (h : ∀ i, c.loadUnder f i ≤ m) : c.peakUnder f ≤ m := by
  apply maximum_le
  intro n hn
  obtain ⟨e, -, rfl⟩ := List.mem_map.mp hn
  exact h _

/-- More than `n` segments for each instance of a set leave one of them with more than `n`. -/
theorem exists_lt_loadUnder {set : Names} {n : Nat} (hf : c.Serves f)
    (h : n * set.size < c.entries.countP (·.within set)) : ∃ i, n < c.loadUnder f i := by
  by_contra! hle
  have hin : c.entries.countP (·.within set) ≤
      (c.routable.map (fun e => f e.segment)).countP (fun i => decide (i ∈ set.toList)) := by
    rw [List.countP_map, routable, List.countP_filter]
    apply List.countP_mono_left
    intro e he hw
    simp only [Candidates.within, Bool.and_eq_true, decide_eq_true_eq] at hw
    have hmem := hf e (List.mem_filter.mpr ⟨he, hw.1⟩)
    simp only [Function.comp_apply, Bool.and_eq_true, decide_eq_true_eq]
    exact ⟨hw.2 _ hmem, hw.1⟩
  have hsum := total_map_count set.nodup_toList (c.routable.map (fun e => f e.segment))
  have hbound : total (set.toList.map (c.loadUnder f)) ≤ n * set.size := by
    have hall : ∀ k ∈ set.toList.map (c.loadUnder f), k ≤ n := by
      intro k hk
      obtain ⟨i, -, rfl⟩ := List.mem_map.mp hk
      exact hle i
    simpa [Names.size, Nat.mul_comm] using List.sum_le_card_nsmul _ n hall
  change total (set.toList.map (c.loadUnder f)) = _ at hsum
  omega

end Coverage

variable {G : Type} [Generator G]

namespace Progress

/-- Picks within a set come from entries within it when no entry is partly in it. -/
theorem countP_deals_le {set : Names} {cs : List Candidates}
    (h : ∀ e ∈ cs, e.eligible ⊆ set ∨ e.eligible.Apart set) (p : Progress G) :
    ((p.deals cs).map (·.1)).countP (fun i => decide (i ∈ set.toList)) ≤
      cs.countP (·.within set) := by
  induction cs generalizing p with
  | nil => simp [deals]
  | cons c cs ih =>
    have hrest := ih (fun e he => h e (List.mem_cons_of_mem c he)) (p.place c)
    rw [deals, List.countP_cons]
    rcases p.choice_cases c with ⟨-, hc⟩ | ⟨hne, i, hi, hc⟩
    · rw [hc]
      exact Nat.le_trans hrest (Nat.le_add_right _ _)
    · simp only [hc, List.map_cons, List.countP_cons]
      by_cases hset : i ∈ set.toList
      · have hsub : c.eligible ⊆ set :=
          (h c List.mem_cons_self).resolve_right (fun hapart => hapart i hi hset)
        have hw : c.within set = true := by simp [Candidates.within, hne, hsub]
        simp only [hset, hw, decide_true, if_true]
        omega
      · simp only [hset, decide_false, Bool.false_eq_true, if_false]
        omega

/-- An entry whose candidates all have `n` brings one segment too many within its own set. -/
theorem crowded_of_level {cs : List Candidates} {c : Candidates} {n : Nat} (p : Progress G)
    (hne : c.eligible.isEmpty = false)
    (hapart : ∀ e ∈ cs, e.eligible ⊆ c.eligible ∨ e.eligible.Apart c.eligible)
    (hlevel : ∀ k ∈ c.eligible.toList, ((p.deals cs).map (·.1)).count k = n) :
    n * c.eligible.size < (cs ++ [c]).countP (·.within c.eligible) := by
  have hall : ∀ m ∈ c.eligible.toList.map (fun k => ((p.deals cs).map (·.1)).count k), n ≤ m := by
    intro m hm
    obtain ⟨k, hk, rfl⟩ := List.mem_map.mp hm
    exact Nat.le_of_eq (hlevel k hk).symm
  have hlow : n * c.eligible.size ≤
      total (c.eligible.toList.map (fun k => ((p.deals cs).map (·.1)).count k)) := by
    simpa [Names.size, Nat.mul_comm] using List.card_nsmul_le_sum _ n hall
  rw [total_map_count c.eligible.nodup_toList] at hlow
  have hhigh := countP_deals_le hapart p
  have hself : c.within c.eligible = true := by
    simp only [Candidates.within, hne, Bool.not_false, Bool.true_and, decide_eq_true_eq]
    exact fun x hx => hx
  rw [List.countP_append, List.countP_singleton, hself, if_pos rfl]
  exact Nat.lt_succ_of_le (Nat.le_trans hlow hhigh)

/-- Behind each load stands a set with more entries within it than its instances
could take at less. -/
theorem exists_crowded {cs : List Candidates}
    (hsorted : cs.Pairwise (fun e e' => e.eligible.size ≤ e'.eligible.size))
    (hnested : ∀ e ∈ cs, ∀ e' ∈ cs, e.Nested e') {p : Progress G} (hp : ∀ i, p.load.of i = 0)
    {n : Nat} {i : Instance} (h : n < ((p.deals cs).map (·.1)).count i) :
    ∃ set : Names, n * set.size < cs.countP (·.within set) := by
  obtain ⟨before, c, after, j, rfl, -, hj, hlevel⟩ := exists_level_pick hp h
  have hs := List.pairwise_append.mp hsorted
  have hcrowded : n * c.eligible.size < (before ++ [c]).countP (·.within c.eligible) := by
    apply crowded_of_level p (Names.isEmpty_eq_false_iff.mpr ⟨j, hj⟩) _ hlevel
    intro e he
    exact (hnested e (by simp [he]) c (by simp)).subset_or_apart (hs.2.2 e he c (by simp))
  refine ⟨c.eligible, ?_⟩
  rw [List.append_cons, List.countP_append]
  omega

end Progress

namespace Coverage

variable {c : Coverage}

/-- The table as an assignment. -/
def assigned (c : Coverage) (g : G) (segment : Segment) : Instance :=
  ((c.assign g).1.holder? segment).getD ""

theorem holder?_of_routable (hc : c.Distinct) (g : G) {e : Candidates} (he : e ∈ c.routable) :
    ∃ i ∈ e.eligible, (c.assign g).1.holder? e.segment = some i ∧
      ∀ j, (c.assign g).1.Holds j e.segment ↔ j = i := by
  obtain ⟨hmem, hne⟩ := List.mem_filter.mp he
  have hne' : e.eligible.isEmpty = false := by simpa using hne
  exact (routesOnce_assign hc g).routed _ _ ((eligible?_eq_some_iff hc).mpr hmem) hne'

theorem serves_assigned (hc : c.Distinct) (g : G) : c.Serves (c.assigned g) := by
  intro e he
  obtain ⟨i, hi, hholder, -⟩ := holder?_of_routable hc g he
  simpa [assigned, hholder] using hi

theorem loadUnder_assigned (hc : c.Distinct) (g : G) (i : Instance) :
    c.loadUnder (c.assigned g) i = ((c.assign g).1).loadOf i := by
  have hperm := (c.perm_segments_deals g).map (c.assigned g)
  have hdeals : ((c.deals g).map (·.2)).map (c.assigned g) = (c.deals g).map (·.1) := by
    rw [List.map_map]
    apply List.map_congr_left
    intro d hd
    have hholds : (c.assign g).1.Holds d.1 d.2 := holds_assign.mpr hd
    obtain ⟨e, he, hs, hi⟩ := mem_deals hd
    have hne : e.eligible.isEmpty = false := Names.isEmpty_eq_false_iff.mpr ⟨d.1, hi⟩
    obtain ⟨j, -, hholder, hall⟩ :=
      holder?_of_routable hc g (List.mem_filter.mpr ⟨he, by simp [hne]⟩)
    rw [hs] at hholder hall
    simpa [assigned, hholder] using ((hall d.1).mp hholds).symm
  rw [hdeals, List.map_map] at hperm
  rw [loadUnder, loadOf_assign hc]
  exact (hperm.count_eq i).symm

theorem peakUnder_assigned (hc : c.Distinct) (g : G) :
    c.peakUnder (c.assigned g) = (c.assign g).1.peak := by
  apply Nat.le_antisymm
  · apply peakUnder_le
    intro i
    rw [loadUnder_assigned hc]
    exact RoutingTable.loadOf_le_peak _ i
  · apply RoutingTable.peak_le
    intro i
    rw [← loadUnder_assigned hc]
    exact loadUnder_le_peakUnder _ _ i

/-- Loads and weights are unbounded numbers here, so that any number of entries is covered. -/
theorem peak_assign_isLeast (hc : c.Distinct) (hl : c.Laminar) (g : G) :
    IsLeast {m | ∃ f, c.Serves f ∧ c.peakUnder f = m} (c.assign g).1.peak := by
  constructor
  · exact ⟨c.assigned g, serves_assigned hc g, peakUnder_assigned hc g⟩
  · rintro m ⟨f, hf, rfl⟩
    apply RoutingTable.peak_le
    intro i
    by_contra! hlt
    rw [loadOf_assign hc] at hlt
    have hnested : ∀ e ∈ c.placementOrder, ∀ e' ∈ c.placementOrder, e.Nested e' := by
      intro e he e' he'
      exact hl e (c.perm_placementOrder.mem_iff.mp he) e' (c.perm_placementOrder.mem_iff.mp he')
    obtain ⟨set, hset⟩ := Progress.exists_crowded c.pairwise_placementOrder hnested
      (fun _ => rfl) hlt
    rw [c.perm_placementOrder.countP_eq] at hset
    obtain ⟨j, hj⟩ := exists_lt_loadUnder hf hset
    have hle := c.loadUnder_le_peakUnder f j
    omega

/-- A chain of sets from one instance to three, with two segments pinned to that
instance, a set apart from the chain, and a gap. -/
theorem peak_assign_isLeast_chain :
    let c : Coverage := ⟨"t", [⟨"wide", .ofList ["A", "B", "C"]⟩, ⟨"pinned", .ofList ["A"]⟩,
      ⟨"pair", .ofList ["A", "B"]⟩, ⟨"pool", .ofList ["D", "E"]⟩, ⟨"also pinned", .ofList ["A"]⟩,
      ⟨"gap", .empty⟩]⟩
    c.Distinct ∧ c.Laminar ∧ IsLeast {m | ∃ f, c.Serves f ∧ c.peakUnder f = m} 2 := by
  intro c
  have hc : c.Distinct := by
    unfold Distinct
    decide
  have hl : c.Laminar := by decide +kernel
  have hpeak : (c.assign (⟨[5, 7], 0⟩ : WordList)).1.peak = 2 := by
    rw [assign, placementOrder_eq_insertionSort]
    decide +kernel
  exact ⟨hc, hl, hpeak ▸ peak_assign_isLeast hc hl _⟩

end Coverage

end SegmentRouting
