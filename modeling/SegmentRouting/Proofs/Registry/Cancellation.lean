import SegmentRouting.Proofs.Registry.Precedence

/-! Which rebuilds a drop cancels. A drop that forgets routing tables cancels
all that have begun. One that finds none takes no generation, and then a rebuild
that has begun is cancelled only if it was superseded already. -/

namespace SegmentRouting

variable {h h' : List Event} {s s' : Service} {e : Event} {table : String} {k : Ticket}

theorem Step.pending_source (st : Step s e s') (hk : k ∈ s'.pending) :
    k ∈ s.pending ∨ e = .started k := by
  cases st with
  | start hs =>
    rcases List.mem_cons.mp hk with rfl | hk
    · exact .inr rfl
    · exact .inl hk
  | finish _ built => exact .inl (List.mem_of_mem_erase hk)
  | _ => exact .inl hk

theorem Step.pending_of_finished {built : Except RoutingError TableSet}
    (st : Step s (.finished k built) s') : k ∈ s.pending := by
  cases st with
  | finish hk => exact hk

namespace Run

theorem pending_source (run : Run s h' s') (hk : k ∈ s'.pending) :
    k ∈ s.pending ∨ .started k ∈ h' := by
  induction run with
  | nil => exact .inl hk
  | snoc run st ih =>
    rcases st.pending_source hk with hk | rfl
    · exact (ih hk).imp_right (List.mem_append_left _)
    · exact .inr (List.mem_append_right _ (List.mem_singleton.mpr rfl))

theorem source_of_finished {built : Except RoutingError TableSet} (run : Run s h' s')
    (hf : .finished k built ∈ h') : k ∈ s.pending ∨ .started k ∈ h' := by
  induction run with
  | nil => simp at hf
  | snoc run st ih =>
    rcases List.mem_append.mp hf with hf | hf
    · exact (ih hf).imp_right (List.mem_append_left _)
    · obtain rfl := List.mem_singleton.mp hf
      exact (run.pending_source st.pending_of_finished).imp_right (List.mem_append_left _)

theorem superseded_mono (run : Run .initial h s) (run' : Run s h' s')
    (hs : s.registry.isSuperseded k = true) : s'.registry.isSuperseded k = true := by
  obtain ⟨rec, hr, hlt⟩ := Registry.isSuperseded_iff.mp hs
  obtain ⟨cur, hcur, hle⟩ := run.recorded_mono run' hr
  exact Registry.isSuperseded_iff.mpr ⟨cur, hcur, Nat.lt_of_lt_of_le hlt hle⟩

end Run

namespace Service

/-- No routing tables are recorded, and none of the pending rebuilds can record any. -/
def Cleared (s : Service) (table : String) : Prop :=
  s.registry.current? table = none ∧
    ∀ k ∈ s.pending, k.table = table → s.registry.isSuperseded k = true

/-- Routing tables come back only by a rebuild that begins later. -/
theorem Cleared.install_of_lookUp (hc : s.Cleared table) (run : Run .initial h s)
    (run' : Run s h' s') {set : TableSet} (hl : s'.registry.lookUp table = .ok set) :
    ∃ k, .started k ∈ h' ∧ .finished k (.ok set) ∈ h' ∧ k.table = table := by
  obtain ⟨g, hg, hf⟩ := (run.append run').install_of_lookUp hl
  have hlater : ∀ rec, s.registry.recorded.get? table = some rec → rec.generation ≤ g := by
    intro rec hr
    obtain ⟨cur, hcur, hle⟩ := run.recorded_mono run' hr
    obtain rfl := Option.some.inj (hcur.symm.trans hg)
    exact hle
  rcases List.mem_append.mp hf with hf | hf
  · obtain ⟨rec, hr, hle⟩ := run.exists_recorded (mem_records_some.mpr hf)
    rcases hle with rfl | hlt
    · have hcur := Registry.current?_eq_some_iff.mpr ⟨g, hr⟩
      rw [hc.1] at hcur
      contradiction
    · have hle := hlater rec hr
      simp only at hlt
      omega
  · rcases run'.source_of_finished hf with hk | hk
    · obtain ⟨rec, hr, hlt⟩ := Registry.isSuperseded_iff.mp (hc.2 _ hk rfl)
      have hle := hlater rec hr
      simp only at hlt
      omega
    · exact ⟨_, hk, hf, rfl⟩

/-- The state after a drop of the table, whatever the drop answers. -/
def afterDrop (s : Service) (table : String) : Service :=
  ⟨(s.registry.drop table).2, s.pending⟩

theorem step_afterDrop (s : Service) (table : String) : ∃ e, Step s e (s.afterDrop table) := by
  cases hd : s.registry.drop table with
  | mk answer r =>
    have he : s.afterDrop table = ⟨r, s.pending⟩ := by rw [afterDrop, hd]
    rw [he]
    cases answer with
    | true => exact ⟨_, .drop hd⟩
    | false => exact ⟨_, .dropNothing hd⟩

theorem cleared_afterDrop (hn : Numbered h s)
    (hcond : (s.registry.drop table).1 = true ∨
      ∀ k ∈ s.pending, k.table = table → s.registry.isSuperseded k = true) :
    (s.afterDrop table).Cleared table := by
  cases hd : s.registry.drop table with
  | mk answer r =>
    have he : s.afterDrop table = ⟨r, s.pending⟩ := by rw [afterDrop, hd]
    rw [he]
    cases answer with
    | true =>
      obtain ⟨-, rfl⟩ := Registry.drop_eq_true hd
      refine ⟨by simp [Registry.current?, Dict.get?_insert], ?_⟩
      rintro k hk rfl
      refine Registry.isSuperseded_iff.mpr ⟨_, by simp [Dict.get?_insert]; rfl, ?_⟩
      exact Nat.lt_succ_of_le (hn.pending_le k hk)
    | false =>
      obtain ⟨hcur, rfl⟩ := Registry.drop_eq_false hd
      rw [hd] at hcond
      exact ⟨hcur, hcond.resolve_left (by simp)⟩

/-- After a drop of the table none of the rebuilds begun before it is ever
installed, and the table is unknown until one begun after it has been. -/
def DropCancels (s : Service) (table : String) : Prop :=
  ∀ h' s', Run (s.afterDrop table) h' s' →
    (∀ k ∈ s.pending, k ∈ s'.pending → k.table = table →
      ∀ set, s'.registry.enter k set = s'.registry) ∧
    (s'.registry.lookUp table = .error (.unknownTable table) ∨
      ∃ k set, s'.registry.lookUp table = .ok set ∧
        .started k ∈ h' ∧ .finished k (.ok set) ∈ h' ∧ k.table = table)

end Service

theorem Registry.enter_of_superseded {r : Registry} (hs : r.isSuperseded k = true)
    (set : TableSet) : r.enter k set = r := by simp [enter, hs]

theorem Registry.enter_ne_self {r : Registry} (hcur : r.current? k.table = none)
    (hs : r.isSuperseded k = false) (set : TableSet) : r.enter k set ≠ r := by
  intro hsame
  have hget := Registry.get?_enter hs set
  have hset : (r.enter k set).current? k.table = some set :=
    Registry.current?_eq_some_iff.mpr ⟨_, hget⟩
  rw [hsame, hcur] at hset
  contradiction

theorem Service.Cleared.dropCancels (hc : (s.afterDrop table).Cleared table)
    (run : Run .initial h s) : s.DropCancels table := by
  intro h' s' run'
  obtain ⟨e, st⟩ := s.step_afterDrop table
  have hdropped := run.snoc st
  refine ⟨?_, ?_⟩
  · intro k hk hk' ht set
    have hs := hdropped.superseded_mono run' (hc.2 k hk ht)
    exact Registry.enter_of_superseded hs set
  · cases hcur : s'.registry.current? table with
    | none => exact .inl (Registry.lookUp_eq_error_iff.mpr hcur)
    | some set =>
      have hl := Registry.lookUp_eq_ok_iff.mpr (Registry.current?_eq_some_iff.mp hcur)
      obtain ⟨k, hk, hf, ht⟩ := hc.install_of_lookUp hdropped run' hl
      exact .inr ⟨k, set, hl, hk, hf, ht⟩

/-- In every state that calls can lead to. -/
theorem Run.dropCancels_iff (run : Run .initial h s) (table : String) :
    s.DropCancels table ↔ (s.registry.drop table).1 = true ∨
      ∀ k ∈ s.pending, k.table = table → s.registry.isSuperseded k = true := by
  constructor
  · intro hc
    cases hd : s.registry.drop table with
    | mk answer r =>
      cases answer with
      | true => exact .inl rfl
      | false =>
        right
        rintro k hk rfl
        obtain ⟨hcur, rfl⟩ := Registry.drop_eq_false hd
        by_contra hs
        have hsame := (hc [] _ .nil).1 k hk hk rfl ⟨"", [], []⟩
        simp only [Service.afterDrop, hd] at hsame
        exact Registry.enter_ne_self hcur (Bool.eq_false_iff.mpr hs) _ hsame
  · intro hcond
    exact (Service.cleared_afterDrop run.consistent.toNumbered hcond).dropCancels run

theorem Run.dropCancels_iff_second_rebuild : ∃ s, Run .initial
    [.started ⟨"t", 1⟩, .finished ⟨"t", 1⟩ (.ok ⟨"t", [], []⟩), .started ⟨"t", 2⟩] s ∧
    ⟨"t", 2⟩ ∈ s.pending ∧ s.DropCancels "t" := by
  have hfirst : Run .initial [.started ⟨"t", 1⟩] ⟨⟨1, .empty⟩, [⟨"t", 1⟩]⟩ :=
    Run.nil.snoc (.begin .initial "t")
  have hinstall := hfirst.snoc (.finish List.mem_cons_self (.ok ⟨"t", [], []⟩))
  have hsecond := hinstall.snoc (.begin _ "t")
  exact ⟨_, hsecond, List.mem_cons_self, (dropCancels_iff hsecond "t").mpr (.inl rfl)⟩

/-- A drop during the very first rebuild cancels nothing. -/
theorem Run.not_dropCancels_first_rebuild : ∃ s s',
    Run .initial [.started ⟨"t", 1⟩] s ∧ ¬ s.DropCancels "t" ∧
    Run s [.nothingDropped "t", .finished ⟨"t", 1⟩ (.ok ⟨"t", [], []⟩)] s' ∧
    s'.registry.lookUp "t" = .ok ⟨"t", [], []⟩ := by
  have hfirst : Run .initial [.started ⟨"t", 1⟩] ⟨⟨1, .empty⟩, [⟨"t", 1⟩]⟩ :=
    Run.nil.snoc (.begin .initial "t")
  have hdrop := (Run.nil (s := ⟨⟨1, .empty⟩, [⟨"t", 1⟩]⟩)).snoc
    (.dropNothing (show Registry.drop _ "t" = (false, _) from rfl))
  refine ⟨_, _, hfirst, ?_, hdrop.snoc (.finish List.mem_cons_self _), by decide +kernel⟩
  intro hc
  have hsame := (hc [] _ .nil).1 ⟨"t", 1⟩ List.mem_cons_self List.mem_cons_self rfl ⟨"t", [], []⟩
  revert hsame
  decide +kernel

end SegmentRouting
