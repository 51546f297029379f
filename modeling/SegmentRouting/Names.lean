import SegmentRouting.Ascending

/-! Finite sets of names, kept in code point order without repetition, so
that sets with the same members are equal. -/

namespace SegmentRouting

structure Names where
  toList : List String
  ascending : Ascending id toList
deriving DecidableEq

namespace Names

def empty : Names := ⟨[], .nil⟩

def insert (s : Names) (x : String) : Names := ⟨place id x s.toList, s.ascending.place⟩

def ofList (l : List String) : Names := l.foldl insert empty

def contains (s : Names) (x : String) : Bool := s.toList.contains x

def size (s : Names) : Nat := s.toList.length

def isEmpty (s : Names) : Bool := s.toList.isEmpty

instance : Membership String Names := ⟨fun s x => x ∈ s.toList⟩

theorem mem_toList {s : Names} {x : String} : x ∈ s.toList ↔ x ∈ s := Iff.rfl

theorem contains_iff {s : Names} {x : String} : s.contains x = true ↔ x ∈ s :=
  List.contains_iff_mem

theorem not_mem_empty (x : String) : ¬x ∈ empty := List.not_mem_nil

theorem isEmpty_eq_false_iff {s : Names} : s.isEmpty = false ↔ ∃ x, x ∈ s :=
  List.isEmpty_eq_false_iff_exists_mem

theorem mem_insert {s : Names} {x a : String} : a ∈ s.insert x ↔ a = x ∨ a ∈ s := by
  refine (mem_place s.ascending).trans ⟨fun h => h.imp_right (·.1), fun h => ?_⟩
  by_cases ha : a = x
  · exact .inl ha
  · exact .inr ⟨h.resolve_left ha, ha⟩

theorem mem_foldl_insert {l : List String} {s : Names} {a : String} :
    a ∈ l.foldl insert s ↔ a ∈ l ∨ a ∈ s := by
  induction l generalizing s with
  | nil => simp
  | cons x xs ih =>
    rw [List.foldl_cons, ih, mem_insert, List.mem_cons, or_left_comm, or_assoc]

theorem mem_ofList {l : List String} {a : String} : a ∈ ofList l ↔ a ∈ l :=
  mem_foldl_insert.trans (or_iff_left (not_mem_empty a))

theorem eq_of_mem_iff {s t : Names} (h : ∀ a, a ∈ s ↔ a ∈ t) : s = t := by
  cases s
  cases t
  congr 1
  exact Ascending.eq_of_mem_iff (by assumption) (by assumption) h

theorem ofList_toList (s : Names) : ofList s.toList = s :=
  eq_of_mem_iff fun _ => mem_ofList

theorem nodup_toList (s : Names) : s.toList.Nodup := by
  simpa using s.ascending.nodup_keys

end Names

end SegmentRouting
