import SegmentRouting.Proofs.Http.Calls
import SegmentRouting.Proofs.Registry.Runs
import SegmentRouting.Proofs.Registry.Workers

/-! The broker answers as if it kept nothing but the last accepted view of each
table in a dictionary and built the routing tables anew for every look at them.
Generations and the marks that drops leave behind never show in an answer. -/

namespace SegmentRouting.Http

open Json

/-- The answers to requests that are handled one after the other. -/
def answers {σ : Type} (handle : σ → Request → Response × σ) : σ → List Request → List Response
  | _, [] => []
  | s, q :: qs => (handle s q).1 :: answers handle (handle s q).2 qs

/-- The view and the members that were accepted last for each table. -/
abbrev Catalog := Dict (ClusterView × List Member)

namespace Catalog

def namesBody (names : List String) : Value := .array (names.map .string)

/-- The segments are counted in the first table. -/
def builtBody (s : TableSet) : Value :=
  .object [("table_name", .string s.table), ("table_count", .number s.tables.length),
    ("routed_segments", .number ((s.tables.head?.map (fun t =>
      (t.assignments.toList.flatMap (fun e => e.2.toList)).length)).getD 0)),
    ("unassignable_segments", namesBody s.unassignable)]

def tablesBody (s : TableSet) : Value :=
  .object [("table_name", .string s.table),
    ("tables", .array (s.tables.map (fun t =>
      .object (t.assignments.toList.map (fun e => (e.1, namesBody e.2.toList)))))),
    ("unassignable_segments", namesBody s.unassignable)]

def unknownBody (table : String) : Value :=
  .object [("error", .string ("No routing tables for table '" ++ table ++ "'"))]

def respond (build : ClusterView → List Member → TableSet) (k : Catalog) :
    Call → Response × Catalog
  | .health => (⟨200, .text "OK"⟩, k)
  | .list => (⟨200, .json (.object [("tables", namesBody k.keys)])⟩, k)
  | .accept table change =>
    (⟨200, .json (builtBody (build (change.view table) change.members))⟩,
      k.insert table (change.view table, change.members))
  | .look table =>
    match k.get? table with
    | some (v, members) => (⟨200, .json (tablesBody (build v members))⟩, k)
    | none => (⟨404, .json (unknownBody table)⟩, k)
  | .forget table =>
    match k.get? table with
    | some _ => (⟨204, .empty⟩, k.erase table)
    | none => (⟨404, .json (unknownBody table)⟩, k)
  | .refused status => (⟨status, .empty⟩, k)

def handle (build : ClusterView → List Member → TableSet) (k : Catalog) (q : Request) :
    Response × Catalog :=
  (q.trim (k.respond build q.call).1, (k.respond build q.call).2)

end Catalog

theorem json_summary (s : TableSet) : s.summary.json = Catalog.builtBody s := by
  have hsize : ∀ t : RoutingTable,
      t.size = (t.assignments.toList.flatMap (fun e => e.2.toList)).length :=
    fun _ => List.length_flatMap.symm
  simp only [TableSet.summary, BuildSummary.json, Catalog.builtBody, hsize]
  rfl

theorem json_report (s : TableSet) : s.report.json = Catalog.tablesBody s := s.json_report.trans rfl

variable {p : Planner} {r : Registry}

/-- The registry has for each table what is built from its entry in the catalog.
Nothing recorded is newer than the latest generation, so that no change comes too late. -/
structure Mirrors (build : ClusterView → List Member → TableSet) (r : Registry) (k : Catalog) :
    Prop where
  current : ∀ table, r.current? table = (k.get? table).map (fun e => build e.1 e.2)
  le_latest : ∀ table rec, r.recorded.get? table = some rec → rec.generation ≤ r.latest

theorem current?_insert (latest : Nat) (table t : String) (rec : Recorded) :
    (⟨latest, r.recorded.insert table rec⟩ : Registry).current? t =
      if t = table then rec.tables else r.current? t := by
  by_cases h : t = table <;> simp [Registry.current?, Dict.get?_insert, h]

namespace Mirrors

variable {build : ClusterView → List Member → TableSet} {k : Catalog}

theorem empty : Mirrors build .empty .empty where
  current _ := rfl
  le_latest table rec hr := by simp [Registry.empty, Dict.get?_empty] at hr

/-- Recording something with the next generation keeps the bound on all generations. -/
theorem insert (h : Mirrors build r k) {k' : Catalog} {table : String} {tables : Option TableSet}
    (hcurrent : ∀ t, (if t = table then tables else r.current? t) =
      (k'.get? t).map (fun e => build e.1 e.2)) :
    Mirrors build ⟨r.latest + 1, r.recorded.insert table ⟨r.latest + 1, tables⟩⟩ k' where
  current t := by rw [current?_insert, hcurrent]
  le_latest t rec hr := by
    rw [Dict.get?_insert] at hr
    by_cases ht : t = table
    · simp only [ht, if_true, Option.some.injEq] at hr
      simp [← hr]
    · simp only [ht, if_false] at hr
      exact Nat.le_succ_of_le (h.le_latest t rec hr)

theorem routed_eq (h : Mirrors build r k) : r.routed = k.keys := by
  have hr : Ascending id r.routed := List.pairwise_map.mpr (r.recorded.ascending.filter _)
  have hk : Ascending id k.keys := List.pairwise_map.mpr k.ascending
  apply hr.eq_of_mem_iff hk
  intro table
  rw [Registry.mem_routed, Dict.mem_keys_iff, h.current table, Option.isSome_map]

theorem getTables_eq (h : Mirrors build r k) (table : String) :
    getTables r table = (k.respond build (.look table)).1 := by
  have hc := h.current table
  unfold getTables Registry.lookUp Catalog.respond
  cases hk : k.get? table with
  | none =>
    simp only [hc, hk, Option.map_none]
    rfl
  | some e => simp only [hc, hk, Option.map_some, json_report]

theorem enter_next (h : Mirrors build r k) (table : String) (set : TableSet) :
    (⟨r.latest + 1, r.recorded⟩ : Registry).enter ⟨table, r.latest + 1⟩ set =
      ⟨r.latest + 1, r.recorded.insert table ⟨r.latest + 1, some set⟩⟩ := by
  have hnew : (⟨r.latest + 1, r.recorded⟩ : Registry).isSuperseded
      ⟨table, r.latest + 1⟩ = false := by
    apply Bool.eq_false_iff.mpr
    intro hs
    obtain ⟨rec, hr, hlt⟩ := Registry.isSuperseded_iff.mp hs
    have hle := h.le_latest table rec hr
    simp only at hlt
    omega
  simp [Registry.enter, hnew]

theorem deleteTable_eq (h : Mirrors build r k) (table : String) :
    (deleteTable r table).1 = (k.respond build (.forget table)).1 ∧
      Mirrors build (deleteTable r table).2 (k.respond build (.forget table)).2 := by
  have hc := h.current table
  unfold deleteTable Registry.drop Catalog.respond
  cases hk : k.get? table with
  | none =>
    simp only [hc, hk, Option.map_none]
    exact ⟨rfl, h⟩
  | some e =>
    simp only [hc, hk, Option.map_some]
    refine ⟨trivial, h.insert ?_⟩
    intro t
    rw [Dict.get?_erase, h.current t]
    by_cases ht : t = table <;> simp [ht]

theorem acceptView_eq (h : Mirrors build r k) (hname : p.KeepsName)
    (hbuild : ∀ v members, p.build v members = .ok (build v members))
    (table : String) (change : ChangeRequest) :
    (acceptView p r table change).1 = (k.respond build (.accept table change)).1 ∧
      Mirrors build (acceptView p r table change).2 (k.respond build (.accept table change)).2 := by
  have hset : p.buildConcurrently table (change.view table) change.members (fun _ => none)
      (List.range p.tableCount) = .ok (build (change.view table) change.members) :=
    (Planner.buildConcurrently_eq_build (v := change.view table) hname (fun _ _ => rfl)
      (.refl _)).trans (hbuild _ _)
  have hrebuild := Registry.rebuild_own r p (change.view table) change.members (fun _ => none)
    (List.range p.tableCount)
  simp only [ChangeRequest.view] at hset hrebuild
  simp only [acceptView, ChangeRequest.view, hrebuild, hset, Registry.finish, h.enter_next,
    Catalog.respond, json_summary]
  refine ⟨trivial, h.insert ?_⟩
  intro t
  rw [Dict.get?_insert, h.current t]
  by_cases ht : t = table <;> simp [ht]

theorem perform_eq (h : Mirrors build r k) (hname : p.KeepsName)
    (hbuild : ∀ v members, p.build v members = .ok (build v members)) (c : Call) :
    (perform p r c).1 = (k.respond build c).1 ∧
      Mirrors build (perform p r c).2 (k.respond build c).2 := by
  cases c with
  | health => exact ⟨rfl, h⟩
  | list =>
    refine ⟨?_, h⟩
    simp only [perform, Catalog.respond, h.routed_eq]
    rfl
  | accept table change => exact h.acceptView_eq hname hbuild table change
  | look table =>
    refine ⟨h.getTables_eq table, ?_⟩
    simp only [perform, Catalog.respond]
    split <;> exact h
  | forget table => exact h.deleteTable_eq table
  | refused status => exact ⟨rfl, h⟩

theorem answers_eq (h : Mirrors build r k) (hname : p.KeepsName)
    (hbuild : ∀ v members, p.build v members = .ok (build v members)) (qs : List Request) :
    answers (handle p) r qs = answers (Catalog.handle build) k qs := by
  induction qs generalizing r k with
  | nil => rfl
  | cons q qs ih =>
    obtain ⟨hanswer, hnext⟩ := h.perform_eq hname hbuild q.call
    simp only [answers, handle_eq_perform, Catalog.handle, hanswer]
    rw [ih hnext]

end Mirrors

theorem answers_append {σ : Type} (handle : σ → Request → Response × σ) (s : σ)
    (qs qs' : List Request) :
    answers handle s (qs ++ qs') = answers handle s qs ++
      answers handle (qs.foldl (fun s q => (handle s q).2) s) qs' := by
  induction qs generalizing s with
  | nil => rfl
  | cons q qs ih => simp only [List.cons_append, answers, List.foldl_cons, ih]

theorem length_answers {σ : Type} (handle : σ → Request → Response × σ) (s : σ)
    (qs : List Request) : (answers handle s qs).length = qs.length := by
  induction qs generalizing s with
  | nil => rfl
  | cons q qs ih => simp [answers, ih]

end SegmentRouting.Http
