import Mathlib.Data.List.Forall2
import SegmentRouting.Proofs.Registry.Cancellation

/-! A table is told the same whatever happens to other tables. A run is cut
down to the looks at the registry and to what has an effect on one table: its
rebuilds that do not fail and its drops that forget something. Generations come
out otherwise when what is left is done again, but in the same order, and every
look at the table has the same answer. -/

namespace SegmentRouting

def Event.isFailureOf (k : Ticket) : Event → Bool
  | .finished k' (.error _) => k' == k
  | _ => false

/-- The rebuild fails in the run. -/
def fails (h : List Event) (k : Ticket) : Bool := h.any (·.isFailureOf k)

def Ticket.stays (table : String) (doomed : Ticket → Bool) (k : Ticket) : Bool :=
  k.table == table && !doomed k

/-- The events that are left for a table when the rebuilds that are doomed are cut out. -/
def Event.stays (table : String) (doomed : Ticket → Bool) : Event → Bool
  | .started k => k.stays table doomed
  | .refused _ _ => false
  | .finished k _ => k.stays table doomed
  | .dropped k => k.table == table
  | .nothingDropped _ => false
  | .lookedUp _ _ => true
  | .listed _ => true

def Ticket.renumber (number : Nat → Nat) (k : Ticket) : Ticket := ⟨k.table, number k.generation⟩

/-- The same call once more, whatever its answer. A rebuild goes by the number it has now,
and ends in the same. -/
inductive Event.Again (number : Nat → Nat) : Event → Event → Prop where
  | start (k : Ticket) : Again number (.started k) (.started (k.renumber number))
  | finish (k : Ticket) (built : Except RoutingError TableSet) :
      Again number (.finished k built) (.finished (k.renumber number) built)
  | drop {k k' : Ticket} (h : k'.table = k.table) : Again number (.dropped k) (.dropped k')
  | dropNothing (k : Ticket) : Again number (.dropped k) (.nothingDropped k.table)
  | lookUp (table : String) (a a' : Except RoutingError TableSet) :
      Again number (.lookedUp table a) (.lookedUp table a')
  | list (a a' : List String) : Again number (.listed a) (.listed a')

/-- What a call lets its caller know about a table. -/
inductive Answer where
  | tables (answer : Except RoutingError TableSet)
  | dropped (any : Bool)
  | listed (among : Bool)

def Event.answer? (table : String) : Event → Option Answer
  | .lookedUp t a => if t = table then some (.tables a) else none
  | .dropped k => if k.table = table then some (.dropped true) else none
  | .nothingDropped t => if t = table then some (.dropped false) else none
  | .listed names => some (.listed (decide (table ∈ names)))
  | _ => none

/-- The second list of events is what is left of the first for a table, done again. -/
def Reduces (table : String) (h h' : List Event) : Prop :=
  ∃ number, List.Forall₂ (Event.Again number) (h.filter (·.stays table (fails h))) h'

variable {h h' : List Event} {s s' s₁ s₁' : Service} {e e' : Event} {table : String}
  {k : Ticket} {doomed : Ticket → Bool} {number number' : Nat → Nat}

theorem Ticket.stays_iff : k.stays table doomed = true ↔ k.table = table ∧ doomed k = false := by
  simp [stays]

theorem fails_iff : fails h k = true ↔ ∃ e, .finished k (.error e) ∈ h := by
  rw [fails, List.any_eq_true]
  constructor
  · rintro ⟨x, hx, hk⟩
    cases x with
    | finished k' built =>
      cases built with
      | error e =>
        obtain rfl : k' = k := by simpa [Event.isFailureOf] using hk
        exact ⟨e, hx⟩
      | ok set => simp [Event.isFailureOf] at hk
    | _ => simp [Event.isFailureOf] at hk
  · rintro ⟨e, he⟩
    exact ⟨_, he, by simp [Event.isFailureOf]⟩

theorem Run.eq_of_nil (run : Run s [] s') : s' = s := by
  generalize hl : ([] : List Event) = l at run
  cases run with
  | nil => rfl
  | snoc run step => simp at hl

theorem Run.exists_of_snoc (run : Run s (h ++ [e]) s') : ∃ s₁, Run s h s₁ ∧ Step s₁ e s' := by
  generalize hl : h ++ [e] = l at run
  cases run with
  | nil => simp at hl
  | snoc run step =>
    obtain ⟨rfl, he⟩ := List.append_inj' hl rfl
    obtain rfl : e = _ := by simpa using he
    exact ⟨_, run, step⟩

theorem Step.latest_mono (step : Step s e s') : s.registry.latest ≤ s'.registry.latest := by
  cases step with
  | start hs =>
    obtain ⟨-, -, rfl⟩ := Registry.start_eq_ok hs
    exact Nat.le_succ _
  | @finish ticket _ built =>
    cases built with
    | error e => exact Nat.le_refl _
    | ok set => exact Nat.le_of_eq (Registry.latest_enter _ _ _).symm
  | drop hd =>
    obtain ⟨-, rfl⟩ := Registry.drop_eq_true hd
    exact Nat.le_succ _
  | dropNothing hd =>
    obtain ⟨-, rfl⟩ := Registry.drop_eq_false hd
    exact Nat.le_refl _
  | _ => exact Nat.le_refl _

theorem Step.lt_of_started (step : Step s (.started k) s') :
    s.registry.latest < k.generation := by
  cases step with
  | start hs =>
    obtain ⟨-, rfl, -⟩ := Registry.start_eq_ok hs
    exact Nat.lt_succ_self _

/-- The rebuild that begins or ends. -/
def Event.ticket? : Event → Option Ticket
  | .started k => some k
  | .finished k _ => some k
  | _ => none

theorem Run.ticket_le (run : Run .initial h s) (he : e ∈ h) (hk : e.ticket? = some k) :
    k.generation ≤ s.registry.latest := by
  induction run with
  | nil => simp at he
  | snoc run step ih =>
    rcases List.mem_append.mp he with he | he
    · exact Nat.le_trans (ih he) step.latest_mono
    · obtain rfl := List.mem_singleton.mp he
      cases step with
      | start hs =>
        obtain ⟨-, rfl, rfl⟩ := Registry.start_eq_ok hs
        obtain rfl := Option.some.inj hk
        exact Nat.le_refl _
      | finish hmem built =>
        obtain rfl := Option.some.inj hk
        have hle := run.consistent.pending_le _ hmem
        exact Nat.le_trans hle (Step.finish hmem built).latest_mono
      | _ => simp [Event.ticket?] at hk

/-- A rebuild that has ended is never pending again. -/
theorem Run.not_mem_pending (run : Run .initial h s) {built : Except RoutingError TableSet}
    (hf : .finished k built ∈ h) : k ∉ s.pending := by
  induction run with
  | nil => simp at hf
  | snoc run step ih =>
    rcases List.mem_append.mp hf with hold | hlast
    · intro hk
      have hle := run.ticket_le hold rfl
      rcases step.pending_source hk with hk | rfl
      · exact ih hold hk
      · have hlt := step.lt_of_started
        omega
    · obtain rfl := List.mem_singleton.mp hlast
      cases step with
      | finish hk built =>
        exact (List.Nodup.of_map _ run.consistent.pending_nodup).not_mem_erase

theorem Run.finished_unique (run : Run .initial h s) {built built' : Except RoutingError TableSet}
    (hf : .finished k built ∈ h) (hf' : .finished k built' ∈ h) : built = built' := by
  induction run with
  | nil => simp at hf
  | snoc run step ih =>
    rcases List.mem_append.mp hf with hold | hlast
    · rcases List.mem_append.mp hf' with hold' | hlast'
      · exact ih hold hold'
      · obtain rfl := List.mem_singleton.mp hlast'
        exact absurd step.pending_of_finished (run.not_mem_pending hold)
    · obtain rfl := List.mem_singleton.mp hlast
      rcases List.mem_append.mp hf' with hold' | hlast'
      · exact absurd step.pending_of_finished (run.not_mem_pending hold')
      · simpa using (List.mem_singleton.mp hlast').symm

namespace Registry

variable {r r' : Registry}

theorem current?_congr (h : r'.recorded.get? table = r.recorded.get? table) :
    r'.current? table = r.current? table := by
  rw [current?, current?, h]

theorem isSuperseded_congr (h : r'.recorded.get? k.table = r.recorded.get? k.table) :
    r'.isSuperseded k = r.isSuperseded k := by
  rw [isSuperseded, isSuperseded, h]

theorem isSuperseded_of_get? {rec : Recorded} (h : r.recorded.get? k.table = some rec) :
    r.isSuperseded k = decide (k.generation < rec.generation) := by
  rw [isSuperseded, h]

theorem isSuperseded_eq_false (h : ∀ rec, r.recorded.get? k.table = some rec →
    rec.generation ≤ k.generation) : r.isSuperseded k = false := by
  apply Bool.eq_false_iff.mpr
  intro hs
  obtain ⟨rec, hr, hlt⟩ := isSuperseded_iff.mp hs
  have hle := h rec hr
  omega

theorem lookUp_congr (h : r'.current? table = r.current? table) :
    r'.lookUp table = r.lookUp table := by
  rw [lookUp, lookUp, h]

/-- A drop answers whether there are routing tables to forget. -/
theorem drop_fst (r : Registry) (table : String) :
    (r.drop table).1 = (r.current? table).isSome := by
  rw [drop]
  split <;> rename_i he <;> rw [he] <;> rfl

theorem current?_of_drop (hd : r.drop table = (true, r')) : r'.current? table = none := by
  obtain ⟨-, rfl⟩ := drop_eq_true hd
  simp [current?, Dict.get?_insert]

/-- A drop is newer than what has begun before it. -/
theorem isSuperseded_of_drop (hd : r.drop table = (true, r')) (ht : k.table = table)
    (hle : k.generation ≤ r.latest) : r'.isSuperseded k = true := by
  obtain ⟨-, rfl⟩ := drop_eq_true hd
  have hget : (r.recorded.insert table ⟨r.latest + 1, none⟩).get? k.table =
      some ⟨r.latest + 1, none⟩ := by
    simp [Dict.get?_insert, ht]
  exact isSuperseded_iff.mpr ⟨_, hget, Nat.lt_succ_of_le hle⟩

end Registry

/-- The two services have the same to say of the table. What is pending for it
in the first is pending in the second under another number, in the same order
and superseded in both or in neither. -/
structure Aligned (table : String) (doomed : Ticket → Bool) (number : Nat → Nat)
    (s s' : Service) : Prop where
  pending : ∀ k ∈ s.pending, k.stays table doomed = true → k.renumber number ∈ s'.pending
  mono : ∀ j ∈ s.pending, ∀ k ∈ s.pending, j.stays table doomed = true →
    k.stays table doomed = true → j.generation < k.generation →
      number j.generation < number k.generation
  current : s'.registry.current? table = s.registry.current? table
  superseded : ∀ k ∈ s.pending, k.stays table doomed = true →
    s'.registry.isSuperseded (k.renumber number) = s.registry.isSuperseded k

namespace Aligned

theorem initial : Aligned table doomed number .initial .initial where
  pending := by simp [Service.initial]
  mono := by simp [Service.initial]
  current := rfl
  superseded := by simp [Service.initial]

/-- What is recorded for other tables, and what is pending for them or doomed, does not matter. -/
theorem of_same (ha : Aligned table doomed number s s')
    (hpend : ∀ k ∈ s₁.pending, k.stays table doomed = true → k ∈ s.pending)
    (hrec : s₁.registry.recorded.get? table = s.registry.recorded.get? table) :
    Aligned table doomed number s₁ s' where
  pending := fun k hk hs => ha.pending k (hpend k hk hs) hs
  mono := fun j hj k hk hjs hks => ha.mono j (hpend j hj hjs) k (hpend k hk hks) hjs hks
  current := by rw [ha.current, Registry.current?_congr hrec]
  superseded := by
    intro k hk hs
    have ht := (Ticket.stays_iff.mp hs).1
    have hsame := Registry.isSuperseded_congr (k := k) (ht.symm ▸ hrec)
    rw [ha.superseded k (hpend k hk hs) hs, hsame]

/-- A step that is cut out. -/
theorem skip (ha : Aligned table doomed number s s') (step : Step s e s₁)
    (he : e.stays table doomed = false)
    (hends : ∀ k set, e = .finished k (.ok set) → doomed k = false) :
    Aligned table doomed number s₁ s' := by
  cases step with
  | start hs =>
    obtain ⟨-, rfl, rfl⟩ := Registry.start_eq_ok hs
    refine ha.of_same ?_ rfl
    intro k hk hstays
    rcases List.mem_cons.mp hk with rfl | hk
    · rw [Event.stays, hstays] at he
      contradiction
    · exact hk
  | refuse hs => exact ha
  | @finish k hk built =>
    refine ha.of_same (fun j hj _ => List.mem_of_mem_erase hj) ?_
    cases built with
    | error e => rfl
    | ok set =>
      have hne : table ≠ k.table := by
        rintro rfl
        have hstays : k.stays k.table doomed = true := Ticket.stays_iff.mpr ⟨rfl, hends k set rfl⟩
        rw [Event.stays, hstays] at he
        contradiction
      exact Registry.get?_enter_of_ne hne set
  | @drop t r hd =>
    obtain ⟨-, rfl⟩ := Registry.drop_eq_true hd
    refine ha.of_same (fun j hj _ => hj) ?_
    have hne : table ≠ t := by
      rintro rfl
      simp [Event.stays] at he
    simp [Dict.get?_insert, hne]
  | dropNothing hd =>
    obtain ⟨-, rfl⟩ := Registry.drop_eq_false hd
    exact ha
  | lookUp => simp [Event.stays] at he
  | list => simp [Event.stays] at he

theorem lt_iff (ha : Aligned table doomed number s s') {j : Ticket} (hj : j ∈ s.pending)
    (hk : k ∈ s.pending) (hjs : j.stays table doomed = true) (hks : k.stays table doomed = true) :
    number j.generation < number k.generation ↔ j.generation < k.generation := by
  constructor
  · intro hlt
    by_contra hge
    by_cases heq : j.generation = k.generation
    · rw [heq] at hlt
      omega
    · have hgt := ha.mono k hk j hj hks hjs (by omega)
      omega
  · exact ha.mono j hj k hk hjs hks

theorem renumber_ne (ha : Aligned table doomed number s s') {j : Ticket} (hj : j ∈ s.pending)
    (hk : k ∈ s.pending) (hjs : j.stays table doomed = true) (hks : k.stays table doomed = true)
    (hne : k.generation ≠ j.generation) : j.renumber number ≠ k.renumber number := by
  intro heq
  have hnum : number j.generation = number k.generation := congrArg Ticket.generation heq
  have hjk := ha.lt_iff hj hk hjs hks
  have hkj := ha.lt_iff hk hj hks hjs
  omega

variable {r r' : Registry}

theorem start (ha : Aligned table doomed number s s') (hc : Consistent h s)
    (hc' : Consistent h' s') {t t' : String} {v v' : ClusterView}
    (hs : s.registry.start t v = .ok (k, r))
    (hs' : s'.registry.start t' v' = .ok (k.renumber number, r')) :
    Aligned table doomed number ⟨r, k :: s.pending⟩ ⟨r', k.renumber number :: s'.pending⟩ := by
  obtain ⟨-, rfl, rfl⟩ := Registry.start_eq_ok hs
  obtain ⟨-, hnew, rfl⟩ := Registry.start_eq_ok hs'
  have hnum : number (s.registry.latest + 1) = s'.registry.latest + 1 :=
    congrArg Ticket.generation hnew
  have hold : ∀ j ∈ s.pending, j.stays table doomed = true →
      j.generation ≤ s.registry.latest ∧ number j.generation ≤ s'.registry.latest := by
    intro j hj hjs
    exact ⟨hc.pending_le j hj, hc'.pending_le _ (ha.pending j hj hjs)⟩
  refine ⟨?_, ?_, ha.current, ?_⟩
  · intro j hj hjs
    rcases List.mem_cons.mp hj with rfl | hj
    · exact List.mem_cons_self
    · exact List.mem_cons_of_mem _ (ha.pending j hj hjs)
  · intro j hj i hi hjs his hlt
    rcases List.mem_cons.mp hj with rfl | hj
    · rcases List.mem_cons.mp hi with rfl | hi
      · omega
      · have hle := hold i hi his
        simp only at hlt
        omega
    · rcases List.mem_cons.mp hi with rfl | hi
      · have hle := hold j hj hjs
        simp only [hnum]
        omega
      · exact ha.mono j hj i hi hjs his hlt
  · intro j hj hjs
    rcases List.mem_cons.mp hj with rfl | hj
    · rw [Registry.isSuperseded_eq_false, Registry.isSuperseded_eq_false]
      · intro rec hr
        exact Nat.le_succ_of_le (hc.le_latest hr)
      · intro rec hr
        have hle := hc'.le_latest hr
        simp only [Ticket.renumber, hnum]
        omega
    · exact ha.superseded j hj hjs

theorem finish (ha : Aligned table doomed number s s') (hc : Consistent h s)
    (hk : k ∈ s.pending) (hks : k.stays table doomed = true) (set : TableSet) :
    Aligned table doomed number ⟨s.registry.finish k (.ok set), s.pending.erase k⟩
      ⟨s'.registry.finish (k.renumber number) (.ok set),
        s'.pending.erase (k.renumber number)⟩ := by
  obtain ⟨rfl, -⟩ := Ticket.stays_iff.mp hks
  have hsup := ha.superseded k hk hks
  refine ⟨?_, ?_, ?_, ?_⟩
  · intro j hj hjs
    have hne := ne_generation_of_mem_erase hc.pending_nodup hk hj
    have hj := List.mem_of_mem_erase hj
    exact (List.mem_erase_of_ne (ha.renumber_ne hj hk hjs hks hne)).mpr (ha.pending j hj hjs)
  · intro j hj i hi
    exact ha.mono j (List.mem_of_mem_erase hj) i (List.mem_of_mem_erase hi)
  · cases hs : s.registry.isSuperseded k with
    | true =>
      rw [hs] at hsup
      simpa [Registry.finish, Registry.enter, hs, hsup] using ha.current
    | false =>
      rw [hs] at hsup
      have hget := Registry.get?_enter hs set
      have hget' := Registry.get?_enter hsup set
      have hcur := Registry.current?_eq_some_iff.mpr ⟨_, hget⟩
      have hcur' := Registry.current?_eq_some_iff.mpr ⟨_, hget'⟩
      exact hcur'.trans hcur.symm
  · intro j hj hjs
    have hj := List.mem_of_mem_erase hj
    have ht := (Ticket.stays_iff.mp hjs).1
    cases hs : s.registry.isSuperseded k with
    | true =>
      rw [hs] at hsup
      simpa [Registry.finish, Registry.enter, hs, hsup] using ha.superseded j hj hjs
    | false =>
      rw [hs] at hsup
      have hget := Registry.get?_enter hs set
      have hget' := Registry.get?_enter hsup set
      rw [← ht] at hget
      rw [show (k.renumber number).table = (j.renumber number).table from ht.symm] at hget'
      simp only [Registry.finish]
      rw [Registry.isSuperseded_of_get? hget, Registry.isSuperseded_of_get? hget']
      exact decide_eq_decide.mpr (ha.lt_iff hj hk hjs hks)

theorem drop (ha : Aligned table doomed number s s') (hc : Consistent h s)
    (hc' : Consistent h' s') (hd : s.registry.drop table = (true, r))
    (hd' : s'.registry.drop table = (true, r')) :
    Aligned table doomed number ⟨r, s.pending⟩ ⟨r', s'.pending⟩ := by
  refine ⟨ha.pending, ha.mono, ?_, ?_⟩
  · rw [Registry.current?_of_drop hd, Registry.current?_of_drop hd']
  · intro j hj hjs
    have ht := (Ticket.stays_iff.mp hjs).1
    have hsup := Registry.isSuperseded_of_drop hd ht (hc.pending_le j hj)
    have hsup' := Registry.isSuperseded_of_drop (k := j.renumber number) hd' ht
      (hc'.pending_le _ (ha.pending j hj hjs))
    rw [hsup, hsup']

/-- A step that is done again has the same answer. -/
theorem again (ha : Aligned table doomed number s s') (hc : Consistent h s)
    (hc' : Consistent h' s') (step : Step s e s₁) (step' : Step s' e' s₁')
    (hagain : Event.Again number e e') (he : e.stays table doomed = true)
    (hends : ∀ k built, e = .finished k built → (doomed k = true ↔ ∃ x, built = .error x)) :
    Aligned table doomed number s₁ s₁' ∧ e.answer? table = e'.answer? table := by
  have hdrop : ∀ t, t = table → (s'.registry.drop t).1 = (s.registry.drop t).1 := by
    rintro t rfl
    rw [Registry.drop_fst, Registry.drop_fst, ha.current]
  cases hagain with
  | start k =>
    cases step with
    | start hs =>
      cases step' with
      | start hs' => exact ⟨ha.start hc hc' hs hs', rfl⟩
  | finish k built =>
    cases step with
    | finish hk =>
      cases step' with
      | finish hk' =>
        cases built with
        | error x =>
          have hdoomed := (hends k _ rfl).mpr ⟨x, rfl⟩
          have hnot := (Ticket.stays_iff.mp he).2
          rw [hdoomed] at hnot
          contradiction
        | ok set => exact ⟨ha.finish hc hk he set, rfl⟩
  | drop ht =>
    cases step with
    | @drop t r hd =>
      cases step' with
      | @drop t' r' hd' =>
        obtain rfl : t' = t := ht
        obtain rfl : t' = table := by simpa [Event.stays] using he
        exact ⟨ha.drop hc hc' hd hd', rfl⟩
  | dropNothing k =>
    cases step with
    | @drop t r hd =>
      cases step' with
      | dropNothing hd' =>
        have hsame := hdrop t (by simpa [Event.stays] using he)
        rw [hd, hd'] at hsame
        contradiction
  | lookUp t =>
    cases step with
    | lookUp =>
      cases step' with
      | lookUp =>
        refine ⟨ha, ?_⟩
        by_cases ht : t = table
        · subst ht
          simp [Event.answer?, Registry.lookUp_congr ha.current]
        · simp [Event.answer?, ht]
  | list =>
    cases step with
    | list =>
      cases step' with
      | list => exact ⟨ha, by simp [Event.answer?, Registry.mem_routed, ha.current]⟩

/-- Whatever stays can be done again; only a rebuild that begins gets a new number. -/
theorem exists_again (ha : Aligned table doomed number s s') (step : Step s e s₁)
    (he : e.stays table doomed = true) :
    ∃ e' s₁' number', Step s' e' s₁' ∧ Event.Again number' e e' ∧
      ∀ g ≤ s.registry.latest, number' g = number g := by
  cases step with
  | @start t v ticket r hs =>
    obtain ⟨-, rfl, rfl⟩ := Registry.start_eq_ok hs
    obtain ⟨number', hnew, hold⟩ : ∃ number' : Nat → Nat,
        number' (s.registry.latest + 1) = s'.registry.latest + 1 ∧
          ∀ g ≤ s.registry.latest, number' g = number g :=
      ⟨Function.update number _ _, Function.update_self _ _ _,
        fun g hg => Function.update_of_ne (by omega) _ _⟩
    have hagain := @Event.Again.start number' ⟨t, s.registry.latest + 1⟩
    simp only [Ticket.renumber, hnew] at hagain
    exact ⟨_, _, number', .begin s' t, hagain, hold⟩
  | refuse hs => simp [Event.stays] at he
  | @finish k hk built =>
    exact ⟨_, _, number, .finish (ha.pending k hk he) built, .finish k built, fun _ _ => rfl⟩
  | @drop t r hd =>
    obtain rfl : t = table := by simpa [Event.stays] using he
    have hany : (s'.registry.drop t).1 = true := by
      rw [Registry.drop_fst, ha.current, ← Registry.drop_fst, hd]
    exact ⟨_, _, number, .drop (Prod.ext hany rfl), .drop rfl, fun _ _ => rfl⟩
  | dropNothing hd => simp [Event.stays] at he
  | lookUp t => exact ⟨_, _, number, .lookUp t, .lookUp t _ _, fun _ _ => rfl⟩
  | list => exact ⟨_, _, number, .list, .list _ _, fun _ _ => rfl⟩

end Aligned

theorem forall₂_snoc {α β : Type} {R : α → β → Prop} {l : List α} {a : α} {m : List β}
    (hr : List.Forall₂ R (l ++ [a]) m) :
    ∃ m' b, m = m' ++ [b] ∧ List.Forall₂ R l m' ∧ R a b := by
  have hrev := List.forall₂_reverse_iff.mpr hr
  rw [List.reverse_append, List.reverse_singleton, List.singleton_append,
    List.forall₂_cons_left_iff] at hrev
  obtain ⟨b, m', hab, htail, hm⟩ := hrev
  refine ⟨m'.reverse, b, ?_, ?_, hab⟩
  · rw [← List.reverse_reverse m, hm, List.reverse_cons]
  · simpa using List.forall₂_reverse_iff.mpr htail

/-- Which rebuilds of the list are doomed. -/
def EndsAs (doomed : Ticket → Bool) (h : List Event) : Prop :=
  ∀ k built, .finished k built ∈ h → (doomed k = true ↔ ∃ x, built = .error x)

theorem EndsAs.of_append (hends : EndsAs doomed (h ++ h')) : EndsAs doomed h :=
  fun k built hf => hends k built (List.mem_append_left _ hf)

theorem Run.endsAs_fails (run : Run .initial h s) : EndsAs (fails h) h := by
  intro k built hf
  rw [fails_iff]
  constructor
  · rintro ⟨x, hx⟩
    exact ⟨x, run.finished_unique hf hx⟩
  · rintro ⟨x, rfl⟩
    exact ⟨x, hf⟩

theorem Run.aligned (run : Run .initial h s) (hends : EndsAs doomed h)
    (run' : Run .initial h' s')
    (hagain : List.Forall₂ (Event.Again number) (h.filter (·.stays table doomed)) h') :
    Aligned table doomed number s s' ∧
      (h.filter (·.stays table doomed)).map (·.answer? table) = h'.map (·.answer? table) := by
  induction run generalizing h' s' with
  | nil =>
    obtain rfl := List.forall₂_nil_left_iff.mp hagain
    obtain rfl := run'.eq_of_nil
    exact ⟨.initial, rfl⟩
  | @snoc s₁ s₂ h₁ e run step ih =>
    have hlast := fun k built (hk : e = .finished k built) =>
      hends k built (List.mem_append_right _ (List.mem_singleton.mpr hk.symm))
    cases he : e.stays table doomed with
    | true =>
      rw [List.filter_append, List.filter_singleton, he] at hagain ⊢
      obtain ⟨h₁', e', rfl, hbefore, hae⟩ := forall₂_snoc hagain
      obtain ⟨s₁', run₁', step'⟩ := run'.exists_of_snoc
      obtain ⟨ha, hanswers⟩ := ih hends.of_append run₁' hbefore
      obtain ⟨ha', hanswer⟩ := ha.again run.consistent run₁'.consistent step step' hae he hlast
      exact ⟨ha', by simp [hanswers, hanswer]⟩
    | false =>
      rw [List.filter_append, List.filter_singleton, he] at hagain ⊢
      simp only [cond_false, List.append_nil] at hagain ⊢
      obtain ⟨ha, hanswers⟩ := ih hends.of_append run' hagain
      refine ⟨ha.skip step he ?_, hanswers⟩
      intro k set hk
      simpa using hlast k _ hk

theorem Event.Again.congr (hagain : Event.Again number e e')
    (hsame : ∀ k, e.ticket? = some k → number' k.generation = number k.generation) :
    Event.Again number' e e' := by
  cases hagain with
  | start k =>
    have hk : k.renumber number = k.renumber number' := by
      rw [Ticket.renumber, Ticket.renumber, hsame k rfl]
    exact hk ▸ .start k
  | finish k built =>
    have hk : k.renumber number = k.renumber number' := by
      rw [Ticket.renumber, Ticket.renumber, hsame k rfl]
    exact hk ▸ .finish k built
  | drop ht => exact .drop ht
  | dropNothing k => exact .dropNothing k
  | lookUp t a a' => exact .lookUp t a a'
  | list a a' => exact .list a a'

/-- What is left of a run can be done again from the beginning. -/
theorem Run.exists_again (run : Run .initial h s) (hends : EndsAs doomed h) (table : String) :
    ∃ h' s' number, Run .initial h' s' ∧
      List.Forall₂ (Event.Again number) (h.filter (·.stays table doomed)) h' := by
  induction run with
  | nil => exact ⟨[], .initial, id, .nil, .nil⟩
  | @snoc s₁ s₂ h₁ e run step ih =>
    obtain ⟨h', s', number, run', hagain⟩ := ih hends.of_append
    rw [List.filter_append, List.filter_singleton]
    cases he : e.stays table doomed with
    | true =>
      obtain ⟨ha, -⟩ := run.aligned hends.of_append run' hagain
      obtain ⟨e', s₁', number', step', hae, hsame⟩ := ha.exists_again step he
      refine ⟨h' ++ [e'], s₁', number', run'.snoc step', ?_⟩
      have hle : ∀ x ∈ h₁.filter (·.stays table doomed), ∀ k, x.ticket? = some k →
          number' k.generation = number k.generation := by
        intro x hx k hk
        exact hsame _ (run.ticket_le (List.mem_of_mem_filter hx) hk)
      have hbefore := (List.forall₂_and_left _ _).mpr ⟨hle, hagain⟩
      exact List.rel_append (hbefore.imp fun x y hxy => hxy.2.congr hxy.1) (.cons hae .nil)
    | false => exact ⟨h', s', number, run', by simpa using hagain⟩

/-- The run without what happens to other tables, without the rebuilds of this one that
fail and without the drops of it that find nothing exists, and tells the same of the table. -/
theorem Run.isolated (run : Run .initial h s) (table : String) :
    (∃ h' s', Run .initial h' s' ∧ Reduces table h h') ∧
    ∀ h' s', Run .initial h' s' → Reduces table h h' →
      (h.filter (·.stays table (fails h))).map (·.answer? table) =
        h'.map (·.answer? table) := by
  constructor
  · obtain ⟨h', s', number, run', hagain⟩ := run.exists_again run.endsAs_fails table
    exact ⟨h', s', run', number, hagain⟩
  · rintro h' s' run' ⟨number, hagain⟩
    exact (run.aligned run.endsAs_fails run' hagain).2

/-- Between a rebuild of `u`, a rebuild of `t` that fails and a drop that finds nothing,
one rebuild of `t` that gives tables and a drop that forgets them. -/
def Run.mixed : List Event :=
  [.nothingDropped "t", .started ⟨"u", 1⟩, .started ⟨"t", 2⟩, .started ⟨"t", 3⟩,
    .finished ⟨"u", 1⟩ (.ok ⟨"u", [], []⟩), .finished ⟨"t", 3⟩ (.ok ⟨"t", [], ["s"]⟩),
    .finished ⟨"t", 2⟩ (.error (.buildFailed "panicked")),
    .lookedUp "t" (.ok ⟨"t", [], ["s"]⟩), .dropped ⟨"t", 4⟩, .listed ["u"]]

theorem Run.run_mixed : ∃ s, Run .initial mixed s := by
  have hnothing := (Run.nil (s := .initial)).snoc
    (.dropNothing (show Registry.drop _ "t" = (false, _) from rfl))
  have hstarted := ((hnothing.snoc (.begin _ "u")).snoc (.begin _ "t")).snoc (.begin _ "t")
  have hother := hstarted.snoc (.finish (show ⟨"u", 1⟩ ∈ _ from by decide) (.ok ⟨"u", [], []⟩))
  have hbuilt := hother.snoc (.finish (show ⟨"t", 3⟩ ∈ _ from by decide) (.ok ⟨"t", [], ["s"]⟩))
  have hfailed := hbuilt.snoc
    (.finish (show ⟨"t", 2⟩ ∈ _ from by decide) (.error (.buildFailed "panicked")))
  have hdropped := (hfailed.snoc (.lookUp "t")).snoc
    (.drop (show Registry.drop _ "t" = (true, _) from rfl))
  exact ⟨_, hdropped.snoc .list⟩

theorem Run.isolated_mixed : ∃ s h' s', Run .initial mixed s ∧ Run .initial h' s' ∧
    Reduces "t" mixed h' ∧ h'.map (·.answer? "t") =
      [none, none, some (.tables (.ok ⟨"t", [], ["s"]⟩)), some (.dropped true),
        some (.listed false)] := by
  obtain ⟨s, run⟩ := run_mixed
  obtain ⟨⟨h', s', run', hreduces⟩, hall⟩ := isolated run "t"
  exact ⟨s, h', s', run, run', hreduces, (hall h' s' run' hreduces).symm⟩

end SegmentRouting
