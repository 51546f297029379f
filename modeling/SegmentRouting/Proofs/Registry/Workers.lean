import Mathlib.Data.List.Nodup
import SegmentRouting.Registry.Rebuild

/-! Workers may finish in any order. When each of them has reported, the slots
hold the tables in the order of the indexes, as if they had been built one after
the other. A single failure fails the rebuild, and then nothing is recorded. -/

namespace SegmentRouting

variable {count : Nat} {built : Nat → RoutingTable} {done order : List Nat}

/-- The slots once the workers in `done` have reported. -/
def slotsAfter (count : Nat) (built : Nat → RoutingTable) (done : List Nat) :
    List (Option RoutingTable) :=
  (List.range count).map (fun i => if i ∈ done then some (built i) else none)

theorem replicate_eq_slotsAfter (count : Nat) (built : Nat → RoutingTable) :
    List.replicate count none = slotsAfter count built [] := by
  simp [slotsAfter, List.map_const']

theorem getElem?_slotsAfter {i : Nat} (hi : i < count) :
    (slotsAfter count built done)[i]? = some (if i ∈ done then some (built i) else none) := by
  simp [slotsAfter, hi]

theorem set_slotsAfter (count : Nat) (built : Nat → RoutingTable) (done : List Nat) (i : Nat) :
    (slotsAfter count built done).set i (some (built i)) =
      slotsAfter count built (done ++ [i]) := by
  apply List.ext_getElem?
  intro j
  by_cases hj : j < count
  · rw [List.getElem?_set, getElem?_slotsAfter hj, getElem?_slotsAfter hj]
    by_cases hij : i = j
    · subst hij
      simp [slotsAfter, hj]
    · simp [hij, Ne.symm hij]
  · simp [slotsAfter, hj]

theorem fillSlots_slotsAfter (count : Nat) (built : Nat → RoutingTable) (done order : List Nat) :
    fillSlots (slotsAfter count built done) (order.map (fun i => (i, .ok (built i)))) =
      .ok (slotsAfter count built (done ++ order)) := by
  induction order generalizing done with
  | nil => simp [fillSlots]
  | cons i order ih =>
    simp only [List.map_cons, fillSlots]
    rw [set_slotsAfter, ih, List.append_assoc, List.singleton_append]

theorem fillSlots_replicate (count : Nat) (built : Nat → RoutingTable) (order : List Nat) :
    fillSlots (List.replicate count none) (order.map (fun i => (i, .ok (built i)))) =
      .ok (slotsAfter count built order) := by
  rw [replicate_eq_slotsAfter count built, fillSlots_slotsAfter, List.nil_append]

theorem fullSlots?_map_some (l : List RoutingTable) : fullSlots? (l.map some) = some l := by
  induction l with
  | nil => rfl
  | cons table l ih => simp [fullSlots?, ih]

/-- Every report meets the empty slot of its index, and in the end all slots are full. -/
structure FillsEachSlotOnce (count : Nat) (reports : List (Nat × WorkerReport))
    (tables : List RoutingTable) : Prop where
  empty_before : ∀ before report after, reports = before ++ report :: after →
    ∃ slots, fillSlots (List.replicate count none) before = .ok slots ∧
      slots[report.1]? = some none
  full_after : ∃ slots, fillSlots (List.replicate count none) reports = .ok slots ∧
    fullSlots? slots = some tables

theorem fillsEachSlotOnce_of_perm (h : order.Perm (List.range count)) (built : Nat → RoutingTable) :
    FillsEachSlotOnce count (order.map (fun i => (i, .ok (built i))))
      ((List.range count).map built) where
  empty_before := by
    intro before report after he
    obtain ⟨done, rest, horder, rfl, hrest⟩ := List.map_eq_append_iff.mp he
    obtain ⟨i, rest, rfl, rfl, -⟩ := List.map_eq_cons_iff.mp hrest
    subst horder
    have hi : i < count := List.mem_range.mp (h.mem_iff.mp (by simp))
    have hnew : i ∉ done := by
      have hnd := h.nodup_iff.mpr List.nodup_range
      have hdis := List.disjoint_of_nodup_append hnd
      exact fun hd => hdis hd List.mem_cons_self
    refine ⟨_, fillSlots_replicate count built done, ?_⟩
    simp [getElem?_slotsAfter hi, hnew]
  full_after := by
    have hfull : slotsAfter count built order = ((List.range count).map built).map some := by
      rw [slotsAfter, List.map_map]
      apply List.map_congr_left
      intro i hi
      simp [h.mem_iff.mpr hi]
    refine ⟨_, fillSlots_replicate count built order, ?_⟩
    rw [hfull, fullSlots?_map_some]

theorem FillsEachSlotOnce.collectTables {reports : List (Nat × WorkerReport)}
    {tables : List RoutingTable} (h : FillsEachSlotOnce count reports tables) :
    collectTables count reports = .ok tables := by
  obtain ⟨slots, hfill, hfull⟩ := h.full_after
  simp [SegmentRouting.collectTables, hfill, hfull, bind, Except.bind]

/-- With a failure among the reports, the first of them is the outcome. -/
theorem fillSlots_of_failure {reports : List (Nat × WorkerReport)} {i : Nat} {reason : String}
    (h : (i, .error reason) ∈ reports) (slots : List (Option RoutingTable)) :
    ∃ j reason', (j, .error reason') ∈ reports ∧
      fillSlots slots reports = .error (.buildFailed reason') := by
  induction reports generalizing slots with
  | nil => simp at h
  | cons report reports ih =>
    obtain ⟨j, outcome⟩ := report
    cases outcome with
    | error reason' => exact ⟨j, reason', List.mem_cons_self, rfl⟩
    | ok table =>
      have hrest : (i, .error reason) ∈ reports := by simpa using h
      obtain ⟨k, reason', hk, he⟩ := ih hrest (slots.set j (some table))
      exact ⟨k, reason', List.mem_cons_of_mem _ hk, he⟩

namespace Planner

variable {p : Planner} {c : Coverage} {v : ClusterView} {members : List Member}
  {stops : Nat → Option String}

/-- What is planned for a view goes by the name of the table of that view. -/
def KeepsName (p : Planner) : Prop :=
  ∀ v members c, p.coverage v members = .ok c → c.table = v.table

theorem keepsName_streaming {G : Type} [Generator G] (count : Nat) (sourceAt : Nat → G) :
    (streaming count sourceAt).KeepsName := by
  intro v members c hc
  exact Except.ok.inj hc ▸ rfl

theorem reports_of_completes (hstops : ∀ i < p.tableCount, stops i = none)
    (horder : order.Perm (List.range p.tableCount)) :
    order.map (fun i => (i, p.report c stops i)) = order.map (fun i => (i, .ok (p.table c i))) := by
  apply List.map_congr_left
  intro i hi
  have hlt := List.mem_range.mp (horder.mem_iff.mp hi)
  simp [report, hstops i hlt]

theorem buildConcurrently_eq_build (hname : p.KeepsName)
    (hstops : ∀ i < p.tableCount, stops i = none)
    (horder : order.Perm (List.range p.tableCount)) :
    p.buildConcurrently v.table v members stops order = p.build v members := by
  cases hc : p.coverage v members with
  | error e => simp [buildConcurrently, build, hc, bind, Except.bind, Except.map]
  | ok c =>
    have hcollect := (fillsEachSlotOnce_of_perm horder (p.table c)).collectTables
    rw [← reports_of_completes hstops horder] at hcollect
    simp [buildConcurrently, build, hc, bind, Except.bind, Except.map, hcollect,
      hname v members c hc, pure, Except.pure]

theorem buildConcurrently_of_failure {i : Nat} {reason : String} (table : String)
    (hstop : stops i = some reason) (hi : i ∈ order) (hc : p.coverage v members = .ok c) :
    ∃ j ∈ order, ∃ reason', stops j = some reason' ∧
      p.buildConcurrently table v members stops order = .error (.buildFailed reason') := by
  have hreport : (i, .error reason) ∈ order.map (fun i => (i, p.report c stops i)) :=
    List.mem_map.mpr ⟨i, hi, by simp [report, hstop]⟩
  obtain ⟨j, reason', hj, hfill⟩ := fillSlots_of_failure hreport (List.replicate p.tableCount none)
  obtain ⟨k, hk, he⟩ := List.mem_map.mp hj
  obtain ⟨rfl, hreason⟩ := Prod.mk.inj he
  refine ⟨k, hk, reason', ?_, ?_⟩
  · unfold report at hreason
    split at hreason <;> rename_i hs <;> simp_all
  · simp [buildConcurrently, hc, collectTables, hfill, bind, Except.bind]

end Planner

namespace Registry

theorem rebuild_own (r : Registry) (p : Planner) (v : ClusterView) (members : List Member)
    (stops : Nat → Option String) (order : List Nat) :
    r.rebuild p v.table v members stops order =
      (p.buildConcurrently v.table v members stops order,
        (⟨r.latest + 1, r.recorded⟩ : Registry).finish ⟨v.table, r.latest + 1⟩
          (p.buildConcurrently v.table v members stops order)) := by
  simp [rebuild, start]

end Registry

/-- `order` is the order in which the workers finish, and `stops` says which of
them fail. The tables need not depend on anything but the coverage and their index. -/
theorem Registry.rebuild_eq_build (r : Registry) {p : Planner} (hname : p.KeepsName)
    (v : ClusterView) (members : List Member) (stops : Nat → Option String) {order : List Nat}
    (horder : order.Perm (List.range p.tableCount)) :
    ((∀ i < p.tableCount, stops i = none) →
      (r.rebuild p v.table v members stops order).1 = p.build v members ∧
      ∀ c, p.coverage v members = .ok c →
        FillsEachSlotOnce p.tableCount (order.map (fun i => (i, p.report c stops i)))
          ((List.range p.tableCount).map (p.table c))) ∧
    ((∃ e, p.coverage v members = .error e) ∨
        (∃ i < p.tableCount, ∃ reason, stops i = some reason) →
      ∃ e, (r.rebuild p v.table v members stops order).1 = .error e ∧
        (p.coverage v members = .error e ∨
          ∃ i < p.tableCount, ∃ reason, stops i = some reason ∧ e = .buildFailed reason) ∧
        (r.rebuild p v.table v members stops order).2.recorded = r.recorded) := by
  rw [rebuild_own]
  constructor
  · intro hstops
    refine ⟨Planner.buildConcurrently_eq_build hname hstops horder, ?_⟩
    intro c hc
    rw [Planner.reports_of_completes hstops horder]
    exact fillsEachSlotOnce_of_perm horder (p.table c)
  · intro hfail
    cases hc : p.coverage v members with
    | error e =>
      have hbuilt : p.buildConcurrently v.table v members stops order = .error e := by
        simp [Planner.buildConcurrently, hc, bind, Except.bind]
      rw [hbuilt]
      exact ⟨e, rfl, .inl rfl, rfl⟩
    | ok c =>
      obtain ⟨i, hi, reason, hstop⟩ := hfail.resolve_left (by simp [hc])
      have hmem := horder.mem_iff.mpr (List.mem_range.mpr hi)
      obtain ⟨j, hj, reason', hstop', hbuilt⟩ :=
        Planner.buildConcurrently_of_failure v.table hstop hmem hc
      have hlt := List.mem_range.mp (horder.mem_iff.mp hj)
      rw [hbuilt]
      exact ⟨_, rfl, .inr ⟨j, hlt, reason', hstop', rfl⟩, rfl⟩

/-- Three workers, of which the last finishes first and the second fails in one of the runs. -/
theorem Registry.rebuild_eq_build_unordered :
    let p := Planner.streaming 3 (fun i => ChaCha.ofSeed (8 + UInt64.ofNat i))
    let v := (ClusterView.ofTable "t").withState "t__0__0__20160101T0000Z" "A" "ONLINE"
    let stops : Nat → Option String := fun i => if i = 1 then some "panicked" else none
    [2, 0, 1].Perm (List.range 3) ∧ p.KeepsName ∧
      (empty.rebuild p "t" v [⟨"A", true⟩] (fun _ => none) [2, 0, 1]).1 =
        p.build v [⟨"A", true⟩] ∧
      ∃ e, (empty.rebuild p "t" v [⟨"A", true⟩] stops [2, 0, 1]).1 = .error e := by
  intro p v stops
  have hname : p.KeepsName := Planner.keepsName_streaming 3 _
  have horder : [2, 0, 1].Perm (List.range p.tableCount) := by decide
  have hdone := (rebuild_eq_build empty hname v [⟨"A", true⟩] (fun _ => none) horder).1
    (fun _ _ => rfl)
  obtain ⟨e, he, -⟩ := (rebuild_eq_build empty hname v [⟨"A", true⟩] stops horder).2
    (.inr ⟨1, by decide, "panicked", rfl⟩)
  exact ⟨horder, hname, hdone.1, e, he⟩

end SegmentRouting
