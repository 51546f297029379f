import SegmentRouting.RoutingTable

/-! Which instances of a routing table hold which segments. -/

namespace SegmentRouting

namespace RoutingTable

/-- The instance answers for the segment. -/
def Holds (t : RoutingTable) (i : Instance) (segment : Segment) : Prop :=
  ∃ held, t.held? i = some held ∧ segment ∈ held

variable {t : RoutingTable} {i j : Instance} {segment : Segment}

theorem held?_add (t : RoutingTable) (i j : Instance) (segment : Segment) :
    (t.add i segment).held? j =
      if j = i then some (((t.held? i).getD .empty).insert segment) else t.held? j :=
  Dict.get?_update _ _ _ _

theorem mem_getD_held? {s : Segment} : s ∈ (t.held? i).getD .empty ↔ t.Holds i s := by
  cases he : t.held? i with
  | none => simp [Holds, he, Names.not_mem_empty]
  | some held => simp [Holds, he]

theorem holds_add {s : Segment} :
    (t.add i segment).Holds j s ↔ (j = i ∧ s = segment) ∨ t.Holds j s := by
  by_cases hj : j = i
  · subst hj
    have hh : (t.add j segment).Holds j s ↔ s ∈ ((t.held? j).getD .empty).insert segment := by
      simp [Holds, held?_add]
    rw [hh, Names.mem_insert, mem_getD_held?]
    simp
  · simp [Holds, held?_add, hj]

theorem holds_foldl_add {pairs : List (Instance × Segment)} :
    (pairs.foldl (fun t p => t.add p.1 p.2) t).Holds i segment ↔
      (i, segment) ∈ pairs ∨ t.Holds i segment := by
  induction pairs generalizing t with
  | nil => simp
  | cons p pairs ih =>
    rw [List.foldl_cons, ih, holds_add, List.mem_cons, Prod.ext_iff, or_left_comm, or_assoc]

theorem holds_ofPairs {pairs : List (Instance × Segment)} :
    (ofPairs pairs).Holds i segment ↔ (i, segment) ∈ pairs := by
  have hempty : ¬ empty.Holds i segment := by
    rintro ⟨held, he, -⟩
    simp [empty, held?, Dict.get?_empty] at he
  rw [ofPairs, holds_foldl_add]
  exact or_iff_left hempty

/-- An instance is listed only when it holds something. -/
def Filled (t : RoutingTable) : Prop :=
  ∀ i held, t.held? i = some held → ∃ segment, segment ∈ held

theorem filled_add (h : t.Filled) (i : Instance) (segment : Segment) :
    (t.add i segment).Filled := by
  intro j held he
  rw [held?_add] at he
  split at he
  · obtain rfl := Option.some.inj he
    exact ⟨segment, Names.mem_insert.mpr (.inl rfl)⟩
  · exact h j held he

theorem filled_ofPairs (pairs : List (Instance × Segment)) : (ofPairs pairs).Filled := by
  have hfold : ∀ t : RoutingTable, t.Filled →
      (pairs.foldl (fun t p => t.add p.1 p.2) t).Filled := by
    induction pairs with
    | nil => exact fun t h => h
    | cons p pairs ih => exact fun t h => ih _ (filled_add h p.1 p.2)
  apply hfold
  intro i held he
  simp [empty, held?, Dict.get?_empty] at he

theorem holds_iff_mem : t.Holds i segment ↔
    ∃ e ∈ t.assignments.toList, e.1 = i ∧ e.2.contains segment = true := by
  simp only [Holds, held?, Dict.get?_eq_some_iff, Names.contains_iff]
  constructor
  · rintro ⟨held, he, hs⟩
    exact ⟨(i, held), he, rfl, hs⟩
  · rintro ⟨⟨a, held⟩, he, rfl, hs⟩
    exact ⟨held, he, hs⟩

theorem mem_holders_of_holds (h : t.Holds i segment) : i ∈ t.holders := by
  obtain ⟨held, hheld, -⟩ := h
  exact Dict.mem_keys_iff.mpr (Option.isSome_of_eq_some hheld)

theorem Filled.isEmpty_iff (h : t.Filled) :
    t.isEmpty = true ↔ ∀ i segment, ¬ t.Holds i segment := by
  rw [isEmpty, Dict.isEmpty, List.isEmpty_iff]
  constructor
  · intro hnil i segment hi
    obtain ⟨e, he, -⟩ := holds_iff_mem.mp hi
    rw [hnil] at he
    exact List.not_mem_nil he
  · intro hnone
    apply List.eq_nil_iff_forall_not_mem.mpr
    rintro ⟨i, held⟩ he
    have hheld : t.held? i = some held := Dict.get?_eq_some_iff.mpr he
    obtain ⟨segment, hs⟩ := h i held hheld
    exact hnone i segment ⟨held, hheld, hs⟩

theorem holds_of_holder? (h : t.holder? segment = some i) : t.Holds i segment := by
  obtain ⟨e, he, hi⟩ := Option.map_eq_some_iff.mp h
  exact holds_iff_mem.mpr ⟨e, List.mem_of_find?_eq_some he, hi, by simpa using List.find?_some he⟩

theorem holder?_eq_none_iff : t.holder? segment = none ↔ ∀ i, ¬ t.Holds i segment := by
  rw [holder?, Option.map_eq_none_iff, List.find?_eq_none]
  constructor
  · intro h i hi
    obtain ⟨e, he, -, hs⟩ := holds_iff_mem.mp hi
    exact h e he hs
  · intro h e he hs
    exact h e.1 (holds_iff_mem.mpr ⟨e, he, rfl, hs⟩)

theorem isSome_holder?_iff : (t.holder? segment).isSome = true ↔ ∃ i, t.Holds i segment := by
  constructor
  · intro h
    obtain ⟨i, hi⟩ := Option.isSome_iff_exists.mp h
    exact ⟨i, holds_of_holder? hi⟩
  · rintro ⟨i, hi⟩
    rw [Option.isSome_iff_ne_none]
    exact fun hnone => holder?_eq_none_iff.mp hnone i hi

theorem holder?_of_unique (h : ∀ j, t.Holds j segment ↔ j = i) :
    t.holder? segment = some i := by
  cases he : t.holder? segment with
  | none => exact absurd ((h i).mpr rfl) (holder?_eq_none_iff.mp he i)
  | some j => exact congrArg some ((h j).mp (holds_of_holder? he))

end RoutingTable

end SegmentRouting
