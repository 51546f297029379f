import SegmentRouting.Proofs.SingleHolder

/-! Loads are counts of picks: both the running loads that weigh the picks and
the sizes of the finished table count how often an instance was picked. -/

namespace SegmentRouting

theorem countP_mem_cons {a : String} {l : List String} (ha : a ∉ l) (ys : List String) :
    ys.countP (fun y => decide (y ∈ a :: l)) =
      ys.count a + ys.countP (fun y => decide (y ∈ l)) := by
  induction ys with
  | nil => rfl
  | cons y ys ih =>
    rw [List.countP_cons, List.count_cons, List.countP_cons, ih]
    by_cases hy : y = a
    · subst hy
      simp [ha]
      omega
    · simp [hy]
      omega

/-- Counting the members of a set one by one. -/
theorem total_map_count {l : List String} (hl : l.Nodup) (ys : List String) :
    total (l.map (fun i => ys.count i)) = ys.countP (fun y => decide (y ∈ l)) := by
  induction l with
  | nil => simp [total]
  | cons a l ih =>
    have hl' := List.nodup_cons.mp hl
    rw [List.map_cons, total, List.sum_cons, countP_mem_cons hl'.1]
    exact congrArg (ys.count a + ·) (ih hl'.2)

theorem Names.size_eq_length {s : Names} {l : List String} (hl : l.Nodup)
    (h : ∀ a, a ∈ s ↔ a ∈ l) : s.size = l.length :=
  ((List.perm_ext_iff_of_nodup s.nodup_toList hl).mpr h).length_eq

variable {G : Type} [Generator G]

namespace Progress

theorem load_place (p : Progress G) (c : Candidates) (j : Instance) :
    (p.place c).load.of j = p.load.of j + if p.choice c = some j then 1 else 0 := by
  unfold place choice
  split <;> rename_i he
  · simp [he]
  · rename_i i source
    simp only [he, Option.some.injEq]
    by_cases hj : j = i
    · simp [Load.of, Dict.get?_update, hj]
    · simp [Load.of, Dict.get?_update, hj, Ne.symm hj]

theorem load_foldl_place (p : Progress G) (cs : List Candidates) (j : Instance) :
    (cs.foldl place p).load.of j = p.load.of j + ((p.deals cs).map (·.1)).count j := by
  induction cs generalizing p with
  | nil => simp [deals]
  | cons c cs ih =>
    rw [List.foldl_cons, ih, load_place, deals]
    cases hc : p.choice c with
    | none => simp
    | some i =>
      by_cases hi : i = j
      · simp [hi]
        omega
      · simp [hi]

theorem load_foldl_eq_count {p : Progress G} (hp : ∀ i, p.load.of i = 0) (cs : List Candidates)
    (j : Instance) : (cs.foldl place p).load.of j = ((p.deals cs).map (·.1)).count j := by
  rw [load_foldl_place, hp, Nat.zero_add]

theorem length_deals_le (p : Progress G) (cs : List Candidates) :
    (p.deals cs).length ≤ cs.length := by
  have hdeals := congrArg List.length (p.segments_deals cs)
  rw [List.length_map, List.length_map] at hdeals
  rw [hdeals]
  exact List.length_filter_le _ cs

theorem load_foldl_le {p : Progress G} (hp : ∀ i, p.load.of i = 0) (cs : List Candidates)
    (j : Instance) : (cs.foldl place p).load.of j ≤ cs.length := by
  have hcount := List.count_le_length (a := j) (l := (p.deals cs).map (·.1))
  rw [List.length_map] at hcount
  rw [load_foldl_eq_count hp]
  exact Nat.le_trans hcount (p.length_deals_le cs)

theorem deals_append (p : Progress G) (cs cs' : List Candidates) :
    p.deals (cs ++ cs') = p.deals cs ++ (cs.foldl place p).deals cs' := by
  induction cs generalizing p with
  | nil => rfl
  | cons c cs ih =>
    rw [List.cons_append, deals, deals, ih, List.foldl_cons]
    cases p.choice c <;> rfl

end Progress

namespace RoutingTable

/-- The number of segments an instance answers for. -/
def loadOf (t : RoutingTable) (i : Instance) : Nat := ((t.held? i).getD .empty).size

/-- The largest number of segments any instance answers for. -/
def peak (t : RoutingTable) : Nat := maximum (t.assignments.toList.map (·.2.size))

variable {t : RoutingTable}

theorem loadOf_le_peak (t : RoutingTable) (i : Instance) : t.loadOf i ≤ t.peak := by
  unfold loadOf
  cases he : t.held? i with
  | none => exact Nat.zero_le _
  | some held =>
    have hm : (i, held) ∈ t.assignments.toList := Dict.get?_eq_some_iff.mp he
    exact le_maximum (List.mem_map_of_mem (f := fun e => e.2.size) hm)

theorem peak_le {m : Nat} (h : ∀ i, t.loadOf i ≤ m) : t.peak ≤ m := by
  apply maximum_le
  intro n hn
  obtain ⟨⟨i, held⟩, hm, rfl⟩ := List.mem_map.mp hn
  have he : t.held? i = some held := Dict.get?_eq_some_iff.mpr hm
  have hi := h i
  simpa [loadOf, he] using hi

theorem loadOf_ofPairs {pairs : List (Instance × Segment)} (h : (pairs.map (·.2)).Nodup)
    (i : Instance) : (ofPairs pairs).loadOf i = (pairs.map (·.1)).count i := by
  have hnd : ((pairs.filter (fun d => d.1 == i)).map (·.2)).Nodup :=
    h.sublist (List.filter_sublist.map _)
  have hmem : ∀ s, s ∈ ((ofPairs pairs).held? i).getD .empty ↔
      s ∈ (pairs.filter (fun d => d.1 == i)).map (·.2) := by
    intro s
    rw [mem_getD_held?, holds_ofPairs, List.mem_map]
    constructor
    · intro hs
      exact ⟨(i, s), List.mem_filter.mpr ⟨hs, by simp⟩, rfl⟩
    · rintro ⟨⟨j, s'⟩, hd, rfl⟩
      obtain ⟨hd, hj⟩ := List.mem_filter.mp hd
      have hj' : j = i := by simpa using hj
      exact hj' ▸ hd
  rw [loadOf, Names.size_eq_length hnd hmem, List.length_map, List.count, List.countP_map,
    List.countP_eq_length_filter]
  rfl

theorem size_eq_total_loadOf (t : RoutingTable) : t.size = total (t.holders.map t.loadOf) := by
  rw [size, holders, Dict.keys, List.map_map]
  congr 1
  apply List.map_congr_left
  rintro ⟨i, held⟩ he
  have hheld : t.held? i = some held := Dict.get?_eq_some_iff.mpr he
  simp [loadOf, hheld]

theorem size_ofPairs {pairs : List (Instance × Segment)} (h : (pairs.map (·.2)).Nodup) :
    (ofPairs pairs).size = pairs.length := by
  have hload : (ofPairs pairs).loadOf = fun i => (pairs.map (·.1)).count i :=
    funext (loadOf_ofPairs h)
  have hnd : (ofPairs pairs).holders.Nodup := Dict.nodup_keys _
  have hall : ∀ i ∈ pairs.map (·.1), i ∈ (ofPairs pairs).holders := by
    intro i hi
    obtain ⟨⟨i, segment⟩, hd, rfl⟩ := List.mem_map.mp hi
    exact mem_holders_of_holds (holds_ofPairs.mpr hd)
  rw [size_eq_total_loadOf, hload, total_map_count hnd,
    List.countP_eq_length.mpr fun i hi => decide_eq_true (hall i hi), List.length_map]

end RoutingTable

namespace Coverage

variable {c : Coverage}

theorem loadOf_assign (hc : c.Distinct) (g : G) (i : Instance) :
    ((c.assign g).1).loadOf i = ((c.deals g).map (·.1)).count i := by
  rw [assign_eq_ofPairs, RoutingTable.loadOf_ofPairs (nodup_segments_deals hc g)]

end Coverage

end SegmentRouting
