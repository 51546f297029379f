import SegmentRouting.Proofs.Http.LastViews

/-! A view that is sent to the broker as JSON text and the routing tables that are
fetched from it as JSON text: what arrives is what a build of that view gives. -/

namespace SegmentRouting.Http

open Json

variable {raw raw' name : String} {change : ChangeRequest}

section Answers

variable {build : ClusterView → List Member → TableSet} {k : Catalog}

theorem handle_changeRequest (h : Spells raw name) :
    Catalog.handle build k (changeRequest raw change) =
      (⟨200, .json (build (change.view name) change.members).summary.json⟩,
        k.insert name (change.view name, change.members)) := by
  have htrim : ∀ answer, (changeRequest raw change).trim answer = answer := by
    simp [Request.trim, changeRequest]
  rw [Catalog.handle, call_changeRequest h, htrim, json_summary]
  rfl

theorem handle_tablesRequest {v : ClusterView} {members : List Member} (h : Spells raw name)
    (hname : name ≠ "") (hk : k.get? name = some (v, members)) :
    Catalog.handle build k (tablesRequest raw) =
      (⟨200, .json (build v members).report.json⟩, k) := by
  have htrim : ∀ answer, (tablesRequest raw).trim answer = answer := by
    simp [Request.trim, tablesRequest]
  rw [Catalog.handle, call_tablesRequest h hname, htrim]
  simp [Catalog.respond, hk, json_report]

theorem answers_change_tables {p : Planner} (hkeeps : p.KeepsName)
    (hbuild : ∀ v members, p.build v members = .ok (build v members)) (h : Spells raw name)
    (h' : Spells raw' name) (hname : name ≠ "") (qs : List Request) :
    (answers (handle p) .empty (qs ++ [changeRequest raw change, tablesRequest raw'])).drop
      qs.length = [⟨200, .json (build (change.view name) change.members).summary.json⟩,
        ⟨200, .json (build (change.view name) change.members).report.json⟩] := by
  rw [Mirrors.empty.answers_eq hkeeps hbuild, answers_append,
    List.drop_left' (length_answers _ _ _)]
  have hget : ∀ k : Catalog, (k.insert name (change.view name, change.members)).get? name =
      some (change.view name, change.members) := fun k => by rw [Dict.get?_insert, if_pos rfl]
  simp only [answers, handle_changeRequest h, handle_tablesRequest h' hname (hget _)]

end Answers

/-- Whatever requests came before. The name may be spelled in any two ways, of which there
is at least one. -/
theorem tables_by_wire_eq_build (count : Nat) (seed : UInt64) (entropy : Nat → ChaCha)
    (v : ClusterView) (members : List Member) (hname : v.table ≠ "") :
    (∃ raw, Spells raw v.table) ∧
    ∀ raw raw' qs, Spells raw v.table → Spells raw' v.table →
      ∃ set value,
        (Settings.planner ⟨count, some seed⟩ entropy).build v members = .ok set ∧
        (answers (handle (Settings.planner ⟨count, some seed⟩ entropy)) .empty
          (qs ++ [changeRequest raw ⟨v.segments, members⟩, tablesRequest raw'])).drop qs.length =
            [⟨200, .json set.summary.json⟩, ⟨200, .json value⟩] ∧
        readWhole TableSet.reader value.text = .ok set ∧
        ∃ report, readWhole TablesReport.reader value.text = .ok report ∧ report.json = value := by
  refine ⟨⟨_, spells_percentEncode v.table⟩, ?_⟩
  intro raw raw' qs h h'
  refine ⟨_, _, rfl, answers_change_tables (Planner.keepsName_streaming _ _) (fun _ _ => rfl)
    h h' hname qs, ?_, ?_⟩
  · rw [TableSet.json_report]
    exact (TableSet.readsAs _).readWhole
  · exact ⟨_, (TablesReport.readsAs _).readWhole, rfl⟩

/-- A name with a slash and a quote, spelled in two ways. -/
theorem tables_by_wire_eq_build_slash :
    let p := Settings.planner ⟨2, some 8⟩ (fun _ => ChaCha.ofSeed 0)
    let v := (ClusterView.ofTable "a/b\"").withState "s__0__0__1" "I" "ONLINE"
    let members : List Member := [⟨"I", true⟩]
    v.table ≠ "" ∧ Spells "a%2Fb%22" v.table ∧ Spells "%61%2fb%22" v.table ∧
      ∃ set value, p.build v members = .ok set ∧
        answers (handle p) .empty
          [changeRequest "a%2Fb%22" ⟨v.segments, members⟩, tablesRequest "%61%2fb%22"] =
            [⟨200, .json set.summary.json⟩, ⟨200, .json value⟩] ∧
        readWhole TableSet.reader value.text = .ok set := by
  intro p v members
  have hname : v.table ≠ "" := by decide
  have hcapital : Spells "a%2Fb%22" v.table := ⟨isPiece_of_all rfl, by decide +kernel⟩
  have hsmall : Spells "%61%2fb%22" v.table := ⟨isPiece_of_all rfl, by decide +kernel⟩
  obtain ⟨-, hwire⟩ := tables_by_wire_eq_build 2 8 (fun _ => ChaCha.ofSeed 0) v members hname
  obtain ⟨set, value, hset, hanswers, hread, -⟩ := hwire _ _ [] hcapital hsmall
  exact ⟨hname, hcapital, hsmall, set, value, hset, hanswers, hread⟩

end SegmentRouting.Http
