import SegmentRouting.Proofs.Registry.Runs

/-! What is recorded for a table is always the newest by generation of all that
has been said about it, in whatever order rebuilds and drops have come to an
end. Generations tell all events apart, so there is one such event. -/

namespace SegmentRouting

variable {h : List Event} {s s' : Service} {e : Event} {table : String} {rec : Recorded}

/-- Every generation is given out once, and none beyond the latest. -/
structure Numbered (h : List Event) (s : Service) : Prop where
  pending_le : ∀ k ∈ s.pending, k.generation ≤ s.registry.latest
  pending_nodup : (s.pending.map (·.generation)).Nodup
  record_le : ∀ table, ∀ rec ∈ records table h, rec.generation ≤ s.registry.latest
  pending_ne : ∀ k ∈ s.pending, ∀ table, ∀ rec ∈ records table h, rec.generation ≠ k.generation

theorem ne_generation_of_mem_erase {k k' : Ticket} {l : List Ticket}
    (hnd : (l.map (·.generation)).Nodup) (hk : k ∈ l) (hk' : k' ∈ l.erase k) :
    k.generation ≠ k'.generation := by
  intro hg
  obtain rfl := List.inj_on_of_nodup_map hnd hk (List.mem_of_mem_erase hk') hg
  exact (List.Nodup.of_map _ hnd).not_mem_erase hk'

namespace Numbered

/-- New pending rebuilds have new generations, and what an event says has one
that is pending no more. -/
theorem extend (hn : Numbered h s) {r : Registry} {pending : List Ticket}
    (hle : s.registry.latest ≤ r.latest)
    (hpend : ∀ k ∈ pending, k ∈ s.pending ∨
      s.registry.latest < k.generation ∧ k.generation ≤ r.latest)
    (hnd : (pending.map (·.generation)).Nodup)
    (hrec : ∀ table rec, e.record? table = some rec →
      rec.generation ≤ r.latest ∧ ∀ k ∈ pending, rec.generation ≠ k.generation) :
    Numbered (h ++ [e]) ⟨r, pending⟩ where
  pending_le := by
    intro k hk
    rcases hpend k hk with hk | hk
    · exact Nat.le_trans (hn.pending_le k hk) hle
    · exact hk.2
  pending_nodup := hnd
  record_le := by
    intro table rec hr
    rcases mem_records_snoc.mp hr with hr | hr
    · exact Nat.le_trans (hn.record_le table rec hr) hle
    · exact (hrec table rec hr).1
  pending_ne := by
    intro k hk table rec hr
    rcases mem_records_snoc.mp hr with hr | hr
    · rcases hpend k hk with hk | hk
      · exact hn.pending_ne k hk table rec hr
      · have hle' := hn.record_le table rec hr
        omega
    · exact (hrec table rec hr).2 k hk

theorem step (hn : Numbered h s) (st : Step s e s') : Numbered (h ++ [e]) s' := by
  have hsame : (∀ table, e.record? table = none) → Numbered (h ++ [e]) s := by
    intro he
    apply hn.extend (Nat.le_refl _) (fun k hk => .inl hk) hn.pending_nodup
    intro table rec hr
    rw [he] at hr
    contradiction
  cases st with
  | start hs =>
    obtain ⟨-, rfl, rfl⟩ := Registry.start_eq_ok hs
    apply hn.extend (Nat.le_succ _)
    · intro k hk
      rcases List.mem_cons.mp hk with rfl | hk
      · exact .inr ⟨Nat.lt_succ_self _, Nat.le_refl _⟩
      · exact .inl hk
    · rw [List.map_cons, List.nodup_cons]
      refine ⟨?_, hn.pending_nodup⟩
      intro hm
      obtain ⟨k, hk, hg⟩ := List.mem_map.mp hm
      exact Nat.not_succ_le_self _ (hg ▸ hn.pending_le k hk)
    · intro table rec hr
      simp [Event.record?] at hr
  | refuse hs => exact hsame fun _ => rfl
  | @finish ticket hk built =>
    have hlatest : (s.registry.finish ticket built).latest = s.registry.latest := by
      cases built with
      | error e => rfl
      | ok set => exact Registry.latest_enter _ _ _
    apply hn.extend (Nat.le_of_eq hlatest.symm) (fun k hk => .inl (List.mem_of_mem_erase hk))
      (hn.pending_nodup.sublist (List.erase_sublist.map _))
    intro table rec hr
    have hg := Event.generation_of_record?_finished hr
    rw [hg, hlatest]
    exact ⟨hn.pending_le ticket hk, fun k hk' => ne_generation_of_mem_erase hn.pending_nodup hk hk'⟩
  | drop hd =>
    obtain ⟨-, rfl⟩ := Registry.drop_eq_true hd
    apply hn.extend (Nat.le_succ _) (fun k hk => .inl hk) hn.pending_nodup
    intro t rec hr
    have hg := Event.generation_of_record?_dropped hr
    refine ⟨Nat.le_of_eq hg, ?_⟩
    intro k hk heq
    have hle := hn.pending_le k hk
    rw [← heq, hg] at hle
    exact Nat.not_succ_le_self _ hle
  | dropNothing hd =>
    obtain ⟨-, rfl⟩ := Registry.drop_eq_false hd
    exact hsame fun _ => rfl
  | lookUp => exact hsame fun _ => rfl
  | list => exact hsame fun _ => rfl

theorem fresh (hn : Numbered h s) (st : Step s e s') (he : e.record? table = some rec) :
    ∀ rec' ∈ records table h, rec'.generation ≠ rec.generation := by
  intro rec' hr
  cases st with
  | finish hk built =>
    rw [Event.generation_of_record?_finished he]
    exact hn.pending_ne _ hk table rec' hr
  | drop hd =>
    obtain ⟨-, rfl⟩ := Registry.drop_eq_true hd
    rw [Event.generation_of_record?_dropped he]
    exact Nat.ne_of_lt (Nat.lt_succ_of_le (hn.record_le table rec' hr))
  | _ => simp [Event.record?] at he

end Numbered

/-- A step keeps what is recorded for a table, or puts in its place what its
event says of the table, or the event is superseded by what stays recorded. -/
theorem Step.effect (st : Step s e s') (table : String)
    (hle : ∀ cur, s.registry.recorded.get? table = some cur →
      cur.generation ≤ s.registry.latest) :
    (e.record? table = none ∧
      s'.registry.recorded.get? table = s.registry.recorded.get? table) ∨
    ∃ rec, e.record? table = some rec ∧
      ((s'.registry.recorded.get? table = some rec ∧
        ∀ cur, s.registry.recorded.get? table = some cur → cur.generation ≤ rec.generation) ∨
      ∃ cur, s.registry.recorded.get? table = some cur ∧
        s'.registry.recorded.get? table = some cur ∧ rec.generation < cur.generation) := by
  cases st with
  | start hs =>
    obtain ⟨-, rfl, rfl⟩ := Registry.start_eq_ok hs
    exact .inl ⟨rfl, rfl⟩
  | refuse hs => exact .inl ⟨rfl, rfl⟩
  | @finish ticket hk built =>
    cases built with
    | error e => exact .inl ⟨rfl, rfl⟩
    | ok set =>
      by_cases ht : ticket.table = table
      · subst ht
        exact .inr ⟨_, by simp [Event.record?], s.registry.enter_cases ticket set⟩
      · exact .inl ⟨by simp [Event.record?, ht], Registry.get?_enter_of_ne (Ne.symm ht) set⟩
  | @drop t _ hd =>
    obtain ⟨-, rfl⟩ := Registry.drop_eq_true hd
    by_cases ht : t = table
    · subst ht
      refine .inr ⟨⟨s.registry.latest + 1, none⟩, by simp [Event.record?], .inl ⟨?_, ?_⟩⟩
      · simp [Dict.get?_insert]
      · intro cur hcur
        exact Nat.le_succ_of_le (hle cur hcur)
    · exact .inl ⟨by simp [Event.record?, ht], by simp [Dict.get?_insert, Ne.symm ht]⟩
  | dropNothing hd =>
    obtain ⟨-, rfl⟩ := Registry.drop_eq_false hd
    exact .inl ⟨rfl, rfl⟩
  | lookUp => exact .inl ⟨rfl, rfl⟩
  | list => exact .inl ⟨rfl, rfl⟩

/-- Everything else in the list has a smaller generation. -/
def IsNewest (rec : Recorded) (l : List Recorded) : Prop :=
  rec ∈ l ∧ ∀ rec' ∈ l, rec' = rec ∨ rec'.generation < rec.generation

theorem IsNewest.snoc_old {cur : Recorded} {l : List Recorded} (hn : IsNewest cur l)
    (hlt : rec.generation < cur.generation) : IsNewest cur (l ++ [rec]) := by
  refine ⟨List.mem_append_left _ hn.1, ?_⟩
  intro rec' hr
  rcases List.mem_append.mp hr with hr | hr
  · exact hn.2 rec' hr
  · obtain rfl := List.mem_singleton.mp hr
    exact .inr hlt

theorem isNewest_snoc {l : List Recorded} (hlt : ∀ rec' ∈ l, rec'.generation < rec.generation) :
    IsNewest rec (l ++ [rec]) := by
  refine ⟨List.mem_append_right _ (List.mem_singleton.mpr rfl), ?_⟩
  intro rec' hr
  rcases List.mem_append.mp hr with hr | hr
  · exact .inr (hlt rec' hr)
  · exact .inl (List.mem_singleton.mp hr)

def Tracks (l : List Recorded) : Option Recorded → Prop
  | none => l = []
  | some rec => IsNewest rec l

structure Consistent (h : List Event) (s : Service) : Prop extends Numbered h s where
  tracks : ∀ table, Tracks (records table h) (s.registry.recorded.get? table)

namespace Consistent

theorem newest (hc : Consistent h s) (hr : s.registry.recorded.get? table = some rec) :
    IsNewest rec (records table h) := by
  have ht := hc.tracks table
  rwa [hr] at ht

theorem le_latest (hc : Consistent h s) (hr : s.registry.recorded.get? table = some rec) :
    rec.generation ≤ s.registry.latest := hc.record_le table rec (hc.newest hr).1

theorem initial : Consistent [] .initial where
  pending_le := by simp [Service.initial]
  pending_nodup := .nil
  record_le := by simp [records]
  pending_ne := by simp [records]
  tracks := fun _ => rfl

theorem step (hc : Consistent h s) (st : Step s e s') : Consistent (h ++ [e]) s' := by
  refine ⟨hc.toNumbered.step st, ?_⟩
  intro table
  have ht := hc.tracks table
  rcases st.effect table (fun cur hcur => hc.le_latest hcur) with ⟨he, hsame⟩ | ⟨rec, he, hrec⟩
  · rw [hsame]
    simpa [records, he] using ht
  · rw [records_append, show records table [e] = [rec] by simp [records, he]]
    rcases hrec with ⟨hnew, hle⟩ | ⟨cur, hcur, hnew, hlt⟩
    · rw [hnew]
      apply isNewest_snoc
      intro rec' hr
      have hne := hc.fresh st he rec' hr
      cases hcur : s.registry.recorded.get? table with
      | none =>
        rw [hcur] at ht
        rw [show records table h = [] from ht] at hr
        contradiction
      | some cur =>
        have hcle := hle cur hcur
        rcases (hc.newest hcur).2 rec' hr with rfl | hlt <;> omega
    · rw [hnew]
      exact (hc.newest hcur).snoc_old hlt

end Consistent

/-- Only a table that has been recorded can be dropped. -/
theorem Step.source_of_record? (st : Step s e s') (he : e.record? table = some rec) :
    (∃ k set, e = .finished k (.ok set) ∧ k.table = table) ∨
      ∃ cur, s.registry.recorded.get? table = some cur := by
  cases st with
  | @finish ticket hk built =>
    cases built with
    | error e => simp [Event.record?] at he
    | ok set =>
      simp only [Event.record?, Option.ite_none_right_eq_some] at he
      exact .inl ⟨ticket, set, rfl, he.1⟩
  | drop hd =>
    simp only [Event.record?, Option.ite_none_right_eq_some] at he
    obtain ⟨rfl, -⟩ := he
    exact .inr (Registry.drop_eq_true hd).1
  | _ => simp [Event.record?] at he

namespace Run

theorem consistent (run : Run .initial h s) : Consistent h s := by
  induction run with
  | nil => exact .initial
  | snoc _ st ih => exact ih.step st

theorem exists_install (run : Run .initial h s)
    (hr : s.registry.recorded.get? table = some rec) :
    ∃ k set, .finished k (.ok set) ∈ h ∧ k.table = table := by
  induction run generalizing rec with
  | nil => simp [Service.initial, Registry.empty, Dict.get?_empty] at hr
  | @snoc s₁ s₂ h₁ e run st ih =>
    have hbefore : ∀ cur, s₁.registry.recorded.get? table = some cur →
        ∃ k set, .finished k (.ok set) ∈ h₁ ++ [e] ∧ k.table = table := by
      intro cur hcur
      obtain ⟨k, set, hk, ht⟩ := ih hcur
      exact ⟨k, set, List.mem_append_left _ hk, ht⟩
    rcases st.effect table (fun cur hcur => run.consistent.le_latest hcur) with
      ⟨-, hsame⟩ | ⟨rec', he, -⟩
    · exact hbefore rec (hsame ▸ hr)
    · rcases st.source_of_record? he with ⟨k, set, rfl, ht⟩ | ⟨cur, hcur⟩
      · exact ⟨k, set, List.mem_append_right _ (List.mem_singleton.mpr rfl), ht⟩
      · exact hbefore cur hcur

theorem exists_recorded (run : Run .initial h s) (hr : rec ∈ records table h) :
    ∃ cur, s.registry.recorded.get? table = some cur ∧
      (cur = rec ∨ rec.generation < cur.generation) := by
  cases hcur : s.registry.recorded.get? table with
  | none =>
    have ht := run.consistent.tracks table
    rw [hcur] at ht
    rw [show records table h = [] from ht] at hr
    contradiction
  | some cur =>
    exact ⟨cur, rfl, ((run.consistent.newest hcur).2 rec hr).imp_left Eq.symm⟩

theorem recorded_mono {h' : List Event} (run : Run .initial h s) (run' : Run s h' s')
    (hr : s.registry.recorded.get? table = some rec) :
    ∃ cur, s'.registry.recorded.get? table = some cur ∧ rec.generation ≤ cur.generation := by
  have hmem : rec ∈ records table (h ++ h') := by
    rw [records_append]
    exact List.mem_append_left _ (run.consistent.newest hr).1
  obtain ⟨cur, hcur, hle⟩ := (run.append run').exists_recorded hmem
  refine ⟨cur, hcur, ?_⟩
  rcases hle with rfl | hlt
  · exact Nat.le_refl _
  · exact Nat.le_of_lt hlt

theorem install_of_lookUp (run : Run .initial h s) {set : TableSet}
    (hl : s.registry.lookUp table = .ok set) :
    ∃ g, s.registry.recorded.get? table = some ⟨g, some set⟩ ∧
      .finished ⟨table, g⟩ (.ok set) ∈ h := by
  obtain ⟨g, hg⟩ := Registry.lookUp_eq_ok_iff.mp hl
  exact ⟨g, hg, mem_records_some.mp (run.consistent.newest hg).1⟩

/-- `records table h` are the completed installs of the table, kept or not, and
the drops of it that forgot something, each with its generation. -/
theorem newest_is_recorded (run : Run .initial h s) (table : String) :
    ((∃ rec, s.registry.recorded.get? table = some rec) ↔
      ∃ k set, .finished k (.ok set) ∈ h ∧ k.table = table) ∧
    (∀ rec, s.registry.recorded.get? table = some rec →
      IsNewest rec (records table h) ∧ rec.generation ≤ s.registry.latest) ∧
    (∀ e s', Step s e s' → ∀ rec, s.registry.recorded.get? table = some rec →
      ∃ rec', s'.registry.recorded.get? table = some rec' ∧
        rec.generation ≤ rec'.generation) ∧
    ∀ h' s', Run s h' s' → ∀ rec, s.registry.recorded.get? table = some rec →
      ∀ set, s'.registry.lookUp table = .ok set →
        ∃ k, .finished k (.ok set) ∈ h ++ h' ∧ k.table = table ∧
          rec.generation ≤ k.generation := by
  refine ⟨⟨?_, ?_⟩, ?_, ?_, ?_⟩
  · rintro ⟨rec, hr⟩
    exact run.exists_install hr
  · rintro ⟨k, set, hk, rfl⟩
    obtain ⟨cur, hcur, -⟩ := run.exists_recorded (mem_records_some.mpr hk)
    exact ⟨cur, hcur⟩
  · intro rec hr
    exact ⟨run.consistent.newest hr, run.consistent.le_latest hr⟩
  · intro e s' st rec hr
    exact run.recorded_mono (Run.nil.snoc st) hr
  · intro h' s' run' rec hr set hl
    obtain ⟨g, hg, hk⟩ := (run.append run').install_of_lookUp hl
    obtain ⟨cur, hcur, hle⟩ := run.recorded_mono run' hr
    obtain rfl := Option.some.inj (hcur.symm.trans hg)
    exact ⟨_, hk, rfl, hle⟩

/-- The second rebuild ends first; a drop comes before the end of the first. -/
def race : List Event :=
  [.started ⟨"t", 1⟩, .started ⟨"t", 2⟩, .finished ⟨"t", 2⟩ (.ok ⟨"t", [], []⟩),
    .dropped ⟨"t", 3⟩, .finished ⟨"t", 1⟩ (.ok ⟨"t", [], []⟩)]

theorem run_race : ∃ s, Run .initial race s ∧
    s.registry.recorded.get? "t" = some ⟨3, none⟩ := by
  have hfirst : Run .initial [.started ⟨"t", 1⟩] ⟨⟨1, .empty⟩, [⟨"t", 1⟩]⟩ :=
    Run.nil.snoc (.begin .initial "t")
  have hsecond : Run .initial [.started ⟨"t", 1⟩, .started ⟨"t", 2⟩]
      ⟨⟨2, .empty⟩, [⟨"t", 2⟩, ⟨"t", 1⟩]⟩ := hfirst.snoc (.begin _ "t")
  have hinstall := hsecond.snoc (.finish List.mem_cons_self (.ok ⟨"t", [], []⟩))
  have hdrop := hinstall.snoc (.drop (show Registry.drop _ "t" = (true, _) from rfl))
  exact ⟨_, hdrop.snoc (.finish (show ⟨"t", 1⟩ ∈ _ from List.mem_cons_self) _),
    by decide +kernel⟩

theorem newest_is_recorded_race :
    ∃ s, Run .initial race s ∧ IsNewest ⟨3, none⟩ (records "t" race) := by
  obtain ⟨s, run, hr⟩ := run_race
  exact ⟨s, run, ((newest_is_recorded run "t").2.1 _ hr).1⟩

end Run

end SegmentRouting
