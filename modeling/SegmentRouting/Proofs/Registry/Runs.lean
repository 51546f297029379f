import Mathlib.Data.List.Nodup
import SegmentRouting.Registry.Rebuild

/-! Runs of the calls on a registry, interleaved in any order. A rebuild is two
steps, with any steps of other calls between them, and it may end in any set or
in a failure; a drop is one step. The run keeps the list of what has happened.
Generations are unbounded here; no more are given out than there are steps. -/

namespace SegmentRouting

/-- The registry with the rebuilds that have begun and have not ended. -/
structure Service where
  registry : Registry
  pending : List Ticket

namespace Service

def initial : Service := ⟨.empty, []⟩

end Service

inductive Event where
  | started (ticket : Ticket)
  | refused (table : String) (e : RoutingError)
  | finished (ticket : Ticket) (built : Except RoutingError TableSet)
  /-- A drop that forgot routing tables, with the generation it took. -/
  | dropped (ticket : Ticket)
  | nothingDropped (table : String)
  | lookedUp (table : String) (answer : Except RoutingError TableSet)
  | listed (answer : List String)

inductive Step (s : Service) : Event → Service → Prop where
  | start {table : String} {v : ClusterView} {ticket : Ticket} {r : Registry}
      (h : s.registry.start table v = .ok (ticket, r)) :
      Step s (.started ticket) ⟨r, ticket :: s.pending⟩
  | refuse {table : String} {v : ClusterView} {e : RoutingError}
      (h : s.registry.start table v = .error e) : Step s (.refused table e) s
  | finish {ticket : Ticket} (h : ticket ∈ s.pending) (built : Except RoutingError TableSet) :
      Step s (.finished ticket built) ⟨s.registry.finish ticket built, s.pending.erase ticket⟩
  | drop {table : String} {r : Registry} (h : s.registry.drop table = (true, r)) :
      Step s (.dropped ⟨table, r.latest⟩) ⟨r, s.pending⟩
  | dropNothing {table : String} {r : Registry} (h : s.registry.drop table = (false, r)) :
      Step s (.nothingDropped table) ⟨r, s.pending⟩
  | lookUp (table : String) : Step s (.lookedUp table (s.registry.lookUp table)) s
  | list : Step s (.listed s.registry.routed) s

inductive Run (s : Service) : List Event → Service → Prop where
  | nil : Run s [] s
  | snoc {s' s'' : Service} {h : List Event} {e : Event} (run : Run s h s')
      (step : Step s' e s'') : Run s (h ++ [e]) s''

/-- A rebuild may begin at any time. -/
theorem Step.begin (s : Service) (table : String) :
    Step s (.started ⟨table, s.registry.latest + 1⟩)
      ⟨⟨s.registry.latest + 1, s.registry.recorded⟩,
        ⟨table, s.registry.latest + 1⟩ :: s.pending⟩ :=
  .start (v := .ofTable table) (if_pos rfl)

theorem Run.append {s s' s'' : Service} {h h' : List Event} (run : Run s h s')
    (run' : Run s' h' s'') : Run s (h ++ h') s'' := by
  induction run' with
  | nil => simpa using run
  | snoc _ step ih =>
    rw [← List.append_assoc]
    exact ih.snoc step

/-- A rebuild that nothing comes between. -/
theorem Run.rebuild (s : Service) (p : Planner) (table : String) (v : ClusterView)
    (members : List Member) (stops : Nat → Option String) (order : List Nat) :
    ∃ h, Run s h ⟨(s.registry.rebuild p table v members stops order).2, s.pending⟩ := by
  unfold Registry.rebuild
  split
  · rename_i e hs
    exact ⟨_, Run.nil.snoc (.refuse hs)⟩
  · rename_i ticket r hs
    have hend := (Run.nil.snoc (.start hs)).snoc (.finish List.mem_cons_self
      (p.buildConcurrently table v members stops order))
    simp only [List.erase_cons_head] at hend
    exact ⟨_, hend⟩

/-- What an event has to say about the routing tables of a table. -/
def Event.record? (table : String) : Event → Option Recorded
  | .finished ticket (.ok set) =>
    if ticket.table = table then some ⟨ticket.generation, some set⟩ else none
  | .dropped ticket => if ticket.table = table then some ⟨ticket.generation, none⟩ else none
  | _ => none

theorem Event.generation_of_record?_finished {table : String} {ticket : Ticket}
    {built : Except RoutingError TableSet} {rec : Recorded}
    (h : (Event.finished ticket built).record? table = some rec) :
    rec.generation = ticket.generation := by
  cases built with
  | error e => simp [record?] at h
  | ok set =>
    simp only [record?, Option.ite_none_right_eq_some, Option.some.injEq] at h
    rw [← h.2]

theorem Event.generation_of_record?_dropped {table : String} {ticket : Ticket} {rec : Recorded}
    (h : (Event.dropped ticket).record? table = some rec) :
    rec.generation = ticket.generation := by
  simp only [record?, Option.ite_none_right_eq_some, Option.some.injEq] at h
  rw [← h.2]

def records (table : String) (h : List Event) : List Recorded := h.filterMap (·.record? table)

theorem mem_records_snoc {table : String} {h : List Event} {e : Event} {rec : Recorded} :
    rec ∈ records table (h ++ [e]) ↔ rec ∈ records table h ∨ e.record? table = some rec := by
  simp [records]

theorem records_append (table : String) (h h' : List Event) :
    records table (h ++ h') = records table h ++ records table h' := List.filterMap_append

theorem mem_records_some {table : String} {h : List Event} {g : Nat} {set : TableSet} :
    (⟨g, some set⟩ : Recorded) ∈ records table h ↔ .finished ⟨table, g⟩ (.ok set) ∈ h := by
  rw [records, List.mem_filterMap]
  constructor
  · rintro ⟨e, he, hr⟩
    cases e with
    | finished ticket built =>
      obtain ⟨t, g'⟩ := ticket
      cases built with
      | error e => simp [Event.record?] at hr
      | ok set' =>
        simp only [Event.record?, Option.ite_none_right_eq_some, Option.some.injEq,
          Recorded.mk.injEq] at hr
        obtain ⟨rfl, rfl, rfl⟩ := hr
        exact he
    | _ => simp [Event.record?] at hr
  · intro he
    exact ⟨_, he, by simp [Event.record?]⟩

namespace Registry

variable {r r' : Registry} {table : String} {ticket : Ticket}

theorem start_eq_ok {v : ClusterView} (h : r.start table v = .ok (ticket, r')) :
    v.table = table ∧ ticket = ⟨table, r.latest + 1⟩ ∧ r' = ⟨r.latest + 1, r.recorded⟩ := by
  unfold start at h
  split at h
  · rename_i ht
    simp only [Except.ok.injEq, Prod.mk.injEq] at h
    exact ⟨ht, h.1.symm, h.2.symm⟩
  · contradiction

theorem isSuperseded_iff : r.isSuperseded ticket = true ↔
    ∃ rec, r.recorded.get? ticket.table = some rec ∧ ticket.generation < rec.generation := by
  unfold isSuperseded
  split <;> rename_i he <;> simp [he]

theorem get?_enter (h : r.isSuperseded ticket = false) (set : TableSet) :
    (r.enter ticket set).recorded.get? ticket.table = some ⟨ticket.generation, some set⟩ := by
  simp [enter, h, Dict.get?_insert]

theorem get?_enter_of_ne {t : String} (ht : t ≠ ticket.table) (set : TableSet) :
    (r.enter ticket set).recorded.get? t = r.recorded.get? t := by
  unfold enter
  split
  · rfl
  · simp [Dict.get?_insert, ht]

/-- Of what is recorded for a table and what a rebuild enters, the newer stays. -/
theorem enter_cases (r : Registry) (ticket : Ticket) (set : TableSet) :
    ((r.enter ticket set).recorded.get? ticket.table = some ⟨ticket.generation, some set⟩ ∧
      ∀ cur, r.recorded.get? ticket.table = some cur → cur.generation ≤ ticket.generation) ∨
    ∃ cur, r.recorded.get? ticket.table = some cur ∧
      (r.enter ticket set).recorded.get? ticket.table = some cur ∧
      ticket.generation < cur.generation := by
  cases hs : r.isSuperseded ticket with
  | true =>
    obtain ⟨cur, hcur, hlt⟩ := isSuperseded_iff.mp hs
    refine .inr ⟨cur, hcur, ?_, hlt⟩
    simpa [enter, hs] using hcur
  | false =>
    refine .inl ⟨get?_enter hs set, ?_⟩
    intro cur hcur
    have hnot : ¬ ticket.generation < cur.generation := by
      intro hlt
      have htrue := isSuperseded_iff.mpr ⟨cur, hcur, hlt⟩
      rw [hs] at htrue
      contradiction
    omega

theorem latest_enter (r : Registry) (ticket : Ticket) (set : TableSet) :
    (r.enter ticket set).latest = r.latest := by
  unfold enter
  split <;> rfl

theorem current?_eq_some_iff {set : TableSet} :
    r.current? table = some set ↔ ∃ g, r.recorded.get? table = some ⟨g, some set⟩ := by
  rw [current?, Option.bind_eq_some_iff]
  constructor
  · rintro ⟨⟨g, tables⟩, hg, ht⟩
    obtain rfl : tables = some set := ht
    exact ⟨g, hg⟩
  · rintro ⟨g, hg⟩
    exact ⟨_, hg, rfl⟩

theorem lookUp_eq_ok_iff {set : TableSet} :
    r.lookUp table = .ok set ↔ ∃ g, r.recorded.get? table = some ⟨g, some set⟩ := by
  rw [← current?_eq_some_iff, lookUp]
  split <;> rename_i he <;> simp [he]

theorem lookUp_eq_error_iff :
    r.lookUp table = .error (.unknownTable table) ↔ r.current? table = none := by
  rw [lookUp]
  split <;> rename_i he <;> simp [he]

theorem mem_routed : table ∈ r.routed ↔ (r.current? table).isSome = true := by
  rw [routed, List.mem_map, Option.isSome_iff_exists]
  constructor
  · rintro ⟨⟨t, g, tables⟩, hm, rfl⟩
    obtain ⟨he, hs⟩ := List.mem_filter.mp hm
    obtain ⟨set, rfl⟩ := Option.isSome_iff_exists.mp hs
    exact ⟨set, current?_eq_some_iff.mpr ⟨g, Dict.get?_eq_some_iff.mpr he⟩⟩
  · rintro ⟨set, hset⟩
    obtain ⟨g, hg⟩ := current?_eq_some_iff.mp hset
    exact ⟨(table, ⟨g, some set⟩), List.mem_filter.mpr ⟨Dict.get?_eq_some_iff.mp hg, rfl⟩, rfl⟩

theorem drop_eq_true (h : r.drop table = (true, r')) :
    (∃ rec, r.recorded.get? table = some rec) ∧
      r' = ⟨r.latest + 1, r.recorded.insert table ⟨r.latest + 1, none⟩⟩ := by
  unfold drop at h
  split at h
  · simp at h
  · rename_i he
    obtain ⟨g, hg⟩ := current?_eq_some_iff.mp he
    exact ⟨⟨_, hg⟩, (Prod.mk.inj h).2.symm⟩

theorem drop_eq_false (h : r.drop table = (false, r')) : r.current? table = none ∧ r' = r := by
  unfold drop at h
  split at h
  · rename_i he
    exact ⟨he, (Prod.mk.inj h).2.symm⟩
  · simp at h

end Registry

theorem Step.latest_le {s s' : Service} {e : Event} (step : Step s e s') :
    s'.registry.latest ≤ s.registry.latest + 1 := by
  cases step with
  | start h =>
    obtain ⟨-, -, rfl⟩ := Registry.start_eq_ok h
    exact Nat.le_refl _
  | @finish ticket _ built =>
    cases built with
    | error e => exact Nat.le_succ _
    | ok set =>
      simp only [Registry.finish, Registry.latest_enter]
      exact Nat.le_succ _
  | drop h =>
    obtain ⟨-, rfl⟩ := Registry.drop_eq_true h
    exact Nat.le_refl _
  | dropNothing h =>
    obtain ⟨-, rfl⟩ := Registry.drop_eq_false h
    exact Nat.le_succ _
  | _ => exact Nat.le_succ _

theorem Run.latest_le {s s' : Service} {h : List Event} (run : Run s h s') :
    s'.registry.latest ≤ s.registry.latest + h.length := by
  induction run with
  | nil => exact Nat.le_refl _
  | snoc _ step ih =>
    have hle := step.latest_le
    rw [List.length_append, List.length_singleton]
    omega

end SegmentRouting
