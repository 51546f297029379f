import SegmentRouting.Proofs.PlacementOrder
import SegmentRouting.Proofs.WeightedPick

/-! The picks of one table in the order in which they are made. The table is
made of nothing but these, and each entry with candidates gives one of them. -/

namespace SegmentRouting

variable {G : Type} [Generator G]

namespace Progress

def choice (p : Progress G) (c : Candidates) : Option Instance :=
  (pick c.eligible.toList p.load p.source).1

/-- Each segment with the instance it goes to; segments without candidates are left out. -/
def deals : Progress G → List Candidates → List (Instance × Segment)
  | _, [] => []
  | p, c :: cs =>
    match p.choice c with
    | none => (p.place c).deals cs
    | some i => (i, c.segment) :: (p.place c).deals cs

theorem table_place (p : Progress G) (c : Candidates) :
    (p.place c).table =
      match p.choice c with
      | none => p.table
      | some i => p.table.add i c.segment := by
  unfold place choice
  split <;> rename_i he <;> simp only [he]

theorem table_foldl_place (p : Progress G) (cs : List Candidates) :
    (cs.foldl place p).table = (p.deals cs).foldl (fun t d => t.add d.1 d.2) p.table := by
  induction cs generalizing p with
  | nil => rfl
  | cons c cs ih =>
    rw [List.foldl_cons, ih, table_place, deals]
    cases p.choice c <;> rfl

theorem choice_cases (p : Progress G) (c : Candidates) :
    (c.eligible.isEmpty = true ∧ p.choice c = none) ∨
      (c.eligible.isEmpty = false ∧ ∃ i ∈ c.eligible, p.choice c = some i) := by
  cases he : c.eligible.isEmpty with
  | true =>
    refine .inl ⟨rfl, ?_⟩
    rw [Names.isEmpty, List.isEmpty_iff] at he
    rw [choice, he]
    rfl
  | false =>
    have hne : c.eligible.toList ≠ [] := by
      intro hh
      simp [Names.isEmpty, hh] at he
    exact .inr ⟨rfl, pick_spec c.eligible.toList p.load p.source hne⟩

theorem segments_deals (p : Progress G) (cs : List Candidates) :
    (p.deals cs).map (·.2) = (cs.filter (fun c => !c.eligible.isEmpty)).map (·.segment) := by
  induction cs generalizing p with
  | nil => rfl
  | cons c cs ih =>
    rcases p.choice_cases c with ⟨he, hc⟩ | ⟨he, i, -, hc⟩
    · simp [deals, hc, he, ih]
    · simp [deals, hc, he, ih]

theorem mem_deals {p : Progress G} {cs : List Candidates} {d : Instance × Segment}
    (h : d ∈ p.deals cs) : ∃ c ∈ cs, c.segment = d.2 ∧ d.1 ∈ c.eligible := by
  induction cs generalizing p with
  | nil => simp [deals] at h
  | cons c cs ih =>
    have hrest : d ∈ (p.place c).deals cs →
        ∃ c' ∈ c :: cs, c'.segment = d.2 ∧ d.1 ∈ c'.eligible := by
      intro hd
      obtain ⟨c', hc', hh⟩ := ih hd
      exact ⟨c', List.mem_cons_of_mem _ hc', hh⟩
    rcases p.choice_cases c with ⟨-, hc⟩ | ⟨-, i, hi, hc⟩
    · rw [deals, hc] at h
      exact hrest h
    · rw [deals, hc] at h
      rcases List.mem_cons.mp h with rfl | h
      · exact ⟨c, List.mem_cons_self, rfl, hi⟩
      · exact hrest h

end Progress

namespace Coverage

def deals (c : Coverage) (g : G) : List (Instance × Segment) :=
  Progress.deals ⟨.empty, .empty, g⟩ c.placementOrder

theorem assign_eq_ofPairs (c : Coverage) (g : G) :
    (c.assign g).1 = RoutingTable.ofPairs (c.deals g) :=
  Progress.table_foldl_place _ _

theorem mem_deals {c : Coverage} {g : G} {d : Instance × Segment} (h : d ∈ c.deals g) :
    ∃ e ∈ c.entries, e.segment = d.2 ∧ d.1 ∈ e.eligible := by
  obtain ⟨e, he, hd⟩ := Progress.mem_deals h
  exact ⟨e, c.perm_placementOrder.mem_iff.mp he, hd⟩

theorem perm_segments_deals (c : Coverage) (g : G) :
    ((c.deals g).map (·.2)).Perm
      ((c.entries.filter (fun e => !e.eligible.isEmpty)).map (·.segment)) := by
  rw [deals, Progress.segments_deals]
  exact (c.perm_placementOrder.filter _).map _

end Coverage

end SegmentRouting
