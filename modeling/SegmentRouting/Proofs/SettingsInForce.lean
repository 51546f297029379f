import Mathlib.Data.List.Induction
import SegmentRouting.Proofs.AcceptedOptions
import SegmentRouting.Proofs.ClosedForm
import SegmentRouting.Proofs.SingleHolder

/-! Calls to a builder one after the other, each of them new options or a build. The settings
in force are those of the last options that were accepted, and every build gives as many
tables as they say, empty ones where no instance may serve anything. -/

namespace SegmentRouting

namespace ClusterView

/-- No streaming segment of the view has an instance that may answer for it. -/
def Unserved (v : ClusterView) (members : List Member) : Prop :=
  ∀ s ∈ v.streamSegments, ∀ i, ¬ v.MayServe members s i

variable {v : ClusterView} {members : List Member}

theorem isEmpty_iff_unserved {t : RoutingTable} (h : (v.coverage members).RoutesOnce t) :
    t.isEmpty = true ↔ v.Unserved members := by
  rw [h.filled.isEmpty_iff]
  constructor
  · intro hnone s hs i hi
    have hne : (v.candidatesOf members s).eligible.isEmpty = false :=
      Names.isEmpty_eq_false_iff.mpr ⟨i, (mem_candidatesOf_iff_mayServe hs).mpr hi⟩
    obtain ⟨j, hj⟩ := h.holds_iff.mpr ⟨_, eligible?_coverage hs members, hne⟩
    exact hnone j s.name hj
  · intro hnone i segment hi
    obtain ⟨eligible, he, hne⟩ := h.holds_iff.mp ⟨i, hi⟩
    obtain ⟨s, hs, rfl⟩ := streams_iff.mp (streams_iff_eligible?.mpr ⟨eligible, he⟩)
    obtain rfl := Option.some.inj ((eligible?_coverage hs members).symm.trans he)
    obtain ⟨j, hj⟩ := Names.isEmpty_eq_false_iff.mp hne
    exact hnone s hs j ((mem_candidatesOf_iff_mayServe hs).mp hj)

theorem unserved_of_isEmpty (h : v.isEmpty = true) : v.Unserved members := by
  intro s hs
  have hname := (mem_streamSegments.mp hs).1
  rw [isEmpty, Dict.isEmpty, List.isEmpty_iff] at h
  rw [names, Dict.keys, h] at hname
  exact absurd hname List.not_mem_nil

theorem unserved_of_disabled (h : ∀ m ∈ members, m.enabled = false) : v.Unserved members := by
  rintro s - i ⟨⟨m, hm, henabled, -⟩, -⟩
  rw [h m hm] at henabled
  contradiction

end ClusterView

namespace Settings

/-- What the options say by themselves, whatever was in force before. -/
def Gives (o : Options) (s : Settings) : Prop :=
  GivesCount (o.get? countKey) s.tableCount ∧ GivesSeed (o.get? seedKey) s.seed

def Acceptable (o : Options) : Prop := ∃ s, Gives o s

theorem ofOptions_eq_ok_iff_gives {o : Options} {s : Settings} :
    ofOptions o = .ok s ↔ Gives o s := by
  rw [ofOptions_eq_ok_iff, (reads_count o).1, (reads_seed o).1, Gives]

/-- The tables of an unseeded build are drawn from the sources at hand at that call. -/
inductive Call where
  | configure (o : Options)
  | build (v : ClusterView) (members : List Member) (entropy : Nat → ChaCha)

inductive Reply where
  | configured (result : Except RoutingError Unit)
  | built (result : Except RoutingError TableSet)

/-- The reply to a call, and the settings in force after it. -/
def serve (s : Settings) : Call → Reply × Settings
  | .configure o => (.configured (s.reconfigure o).1, (s.reconfigure o).2)
  | .build v members entropy => (.built ((s.planner entropy).build v members), s)

/-- The settings in force after the calls to a new builder. -/
def afterCalls (calls : List Call) : Settings :=
  calls.foldl (fun s call => (s.serve call).2) default

theorem afterCalls_snoc (calls : List Call) (call : Call) :
    afterCalls (calls ++ [call]) = ((afterCalls calls).serve call).2 := by
  rw [afterCalls, List.foldl_append]
  rfl

theorem configure_cases (s : Settings) (o : Options) :
    (∃ s', Gives o s' ∧ s.serve (.configure o) = (.configured (.ok ()), s')) ∨
      ¬ Acceptable o ∧ ∃ e, s.serve (.configure o) = (.configured (.error e), s) := by
  cases ho : ofOptions o with
  | ok s' => exact .inl ⟨s', ofOptions_eq_ok_iff_gives.mp ho, by simp [serve, reconfigure, ho]⟩
  | error e =>
    refine .inr ⟨?_, e, by simp [serve, reconfigure, ho]⟩
    rintro ⟨s', hs'⟩
    rw [ofOptions_eq_ok_iff_gives.mpr hs'] at ho
    contradiction

/-- The settings are those of the last acceptable options, or the default without any. -/
def IsLatest (calls : List Call) (s : Settings) : Prop :=
  (∃ earlier o later, calls = earlier ++ .configure o :: later ∧ Gives o s ∧
    ∀ o', .configure o' ∈ later → ¬ Acceptable o') ∨
  s = ⟨10, none⟩ ∧ ∀ o, .configure o ∈ calls → ¬ Acceptable o

variable {calls : List Call} {call : Call} {s : Settings}

theorem IsLatest.snoc_idle (h : IsLatest calls s)
    (hidle : ∀ o, .configure o = call → ¬ Acceptable o) : IsLatest (calls ++ [call]) s := by
  have hlast : ∀ {l : List Call}, (∀ o, .configure o ∈ l → ¬ Acceptable o) →
      ∀ o, .configure o ∈ l ++ [call] → ¬ Acceptable o := by
    intro l hl o ho
    rcases List.mem_append.mp ho with ho | ho
    · exact hl o ho
    · exact hidle o (List.mem_singleton.mp ho)
  rcases h with ⟨earlier, o, later, rfl, ho, hlater⟩ | ⟨hs, hnone⟩
  · exact .inl ⟨earlier, o, later ++ [call], by simp, ho, hlast hlater⟩
  · exact .inr ⟨hs, hlast hnone⟩

theorem IsLatest.serve (h : IsLatest calls s) (call : Call) :
    IsLatest (calls ++ [call]) (s.serve call).2 := by
  cases call with
  | configure o =>
    rcases s.configure_cases o with ⟨s', hs', he⟩ | ⟨hno, e, he⟩
    · rw [he]
      exact .inl ⟨calls, o, [], rfl, hs', fun _ ho => absurd ho List.not_mem_nil⟩
    · rw [he]
      apply h.snoc_idle
      rintro _ ⟨⟩
      exact hno
  | build v members entropy =>
    apply h.snoc_idle
    intro o ho
    contradiction

theorem isLatest_afterCalls (calls : List Call) : IsLatest calls (afterCalls calls) := by
  induction calls using List.reverseRecOn with
  | nil => exact .inr ⟨rfl, fun _ ho => absurd ho List.not_mem_nil⟩
  | append_singleton calls call ih =>
    rw [afterCalls_snoc]
    exact ih.serve call

theorem IsLatest.tableCount_bounds (h : IsLatest calls s) :
    1 ≤ s.tableCount ∧ s.tableCount ≤ 1024 := by
  rcases h with ⟨-, o, -, -, ⟨hcount, -⟩, -⟩ | ⟨rfl, -⟩
  · cases hraw : o.get? countKey with
    | none =>
      rw [hraw, GivesCount] at hcount
      omega
    | some raw =>
      rw [hraw, GivesCount] at hcount
      exact hcount.2
  · decide

theorem configured_ok_iff (s : Settings) (o : Options) :
    (s.serve (.configure o)).1 = .configured (.ok ()) ↔ Acceptable o := by
  rcases s.configure_cases o with ⟨s', hs', he⟩ | ⟨hno, e, he⟩
  · rw [he]
    exact iff_of_true rfl ⟨s', hs'⟩
  · rw [he]
    exact iff_of_false (by simp) hno

theorem serve_build (s : Settings) (v : ClusterView) (members : List Member)
    (entropy : Nat → ChaCha) :
    ∃ set, s.serve (.build v members entropy) = (.built (.ok set), s) ∧
      set.tables.length = s.tableCount ∧
      ∀ t ∈ set.tables, t.isEmpty = true ↔ v.Unserved members := by
  have hbuild := Planner.build_streaming s.tableCount (s.sourceAt entropy) v members
  refine ⟨_, congrArg (fun result => (Reply.built result, s)) hbuild, by simp, ?_⟩
  intro t ht
  exact ClusterView.isEmpty_iff_unserved (Planner.routesOnce_of_mem hbuild ht)

/-- What holds after any calls to a new builder, and of the next call. -/
theorem settings_after_calls (calls : List Call) :
    IsLatest calls (afterCalls calls) ∧
      1 ≤ (afterCalls calls).tableCount ∧ (afterCalls calls).tableCount ≤ 1024 ∧
      (∀ o, ((afterCalls calls).serve (.configure o)).1 = .configured (.ok ()) ↔ Acceptable o) ∧
      ∀ v members entropy, ∃ set,
        (afterCalls calls).serve (.build v members entropy) =
          (.built (.ok set), afterCalls calls) ∧
        set.tables.length = (afterCalls calls).tableCount ∧
        (∀ t ∈ set.tables, t.isEmpty = true ↔ v.Unserved members) ∧
        (v.isEmpty = true ∨ (∀ m ∈ members, m.enabled = false) →
          ∀ t ∈ set.tables, t.isEmpty = true) := by
  have hlatest := isLatest_afterCalls calls
  have hbounds := hlatest.tableCount_bounds
  refine ⟨hlatest, hbounds.1, hbounds.2, configured_ok_iff _, ?_⟩
  intro v members entropy
  obtain ⟨set, hserve, hlen, hempty⟩ := (afterCalls calls).serve_build v members entropy
  refine ⟨set, hserve, hlen, hempty, ?_⟩
  intro hcase t ht
  rw [hempty t ht]
  rcases hcase with hview | hdisabled
  · exact ClusterView.unserved_of_isEmpty hview
  · exact ClusterView.unserved_of_disabled hdisabled

end Settings

end SegmentRouting
