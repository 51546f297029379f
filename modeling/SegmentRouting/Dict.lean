import SegmentRouting.Names

/-! Dictionaries from names to values, kept in code point order of the names
with one entry for each, so that dictionaries with the same entries are equal. -/

namespace SegmentRouting

structure Dict (α : Type) where
  toList : List (String × α)
  ascending : Ascending Prod.fst toList
deriving DecidableEq

theorem lookup_cons_if {α : Type} (a k : String) (v : α) (l : List (String × α)) :
    ((k, v) :: l).lookup a = if a = k then some v else l.lookup a := by
  by_cases h : a = k
  · simp [h]
  · have hb : (a == k) = false := by simp [h]
    simp only [List.lookup_cons, hb, if_neg h]

theorem lookup_place {α : Type} (k a : String) (v : α) (l : List (String × α)) :
    (place Prod.fst (k, v) l).lookup a = if a = k then some v else l.lookup a := by
  induction l with
  | nil => exact lookup_cons_if a k v []
  | cons f rest ih =>
    obtain ⟨k', v'⟩ := f
    rw [place]
    split
    · exact lookup_cons_if a k v _
    · split
      · rename_i hk
        have hk : k = k' := hk
        subst hk
        simp only [lookup_cons_if]
        split <;> rfl
      · rename_i hne
        simp only [lookup_cons_if, ih]
        by_cases h : a = k'
        · have hak : ¬a = k := fun hak => hne (hak.symm.trans h)
          simp only [if_pos h, if_neg hak]
        · simp only [if_neg h]

namespace Dict

variable {α β : Type}

def empty : Dict α := ⟨[], .nil⟩

def insert (d : Dict α) (k : String) (v : α) : Dict α :=
  ⟨place Prod.fst (k, v) d.toList, d.ascending.place⟩

/-- The entries in turn; of several for one name the last stays. -/
def ofList (l : List (String × α)) : Dict α := l.foldl (fun d e => d.insert e.1 e.2) empty

def get? (d : Dict α) (k : String) : Option α := d.toList.lookup k

def erase (d : Dict α) (k : String) : Dict α :=
  ⟨d.toList.filter (fun e => e.1 != k), d.ascending.filter _⟩

def update (d : Dict α) (k : String) (f : Option α → α) : Dict α := d.insert k (f (d.get? k))

def keys (d : Dict α) : List String := d.toList.map (·.1)

def size (d : Dict α) : Nat := d.toList.length

def isEmpty (d : Dict α) : Bool := d.toList.isEmpty

def map (f : String → α → β) (d : Dict α) : Dict β :=
  ⟨d.toList.map (fun e => (e.1, f e.1 e.2)), List.pairwise_map.mpr d.ascending⟩

def ofNames (s : Names) (f : String → α) : Dict α :=
  ⟨s.toList.map (fun k => (k, f k)), List.pairwise_map.mpr s.ascending⟩

theorem get?_empty (k : String) : (empty : Dict α).get? k = none := rfl

theorem get?_insert (d : Dict α) (k a : String) (v : α) :
    (d.insert k v).get? a = if a = k then some v else d.get? a :=
  lookup_place k a v d.toList

theorem get?_update (d : Dict α) (k a : String) (f : Option α → α) :
    (d.update k f).get? a = if a = k then some (f (d.get? k)) else d.get? a :=
  get?_insert d k a _

theorem nodup_keys (d : Dict α) : d.keys.Nodup := d.ascending.nodup_keys

theorem get?_foldl_insert {l : List (String × α)} (h : (l.map (·.1)).Nodup) (d : Dict α)
    (k : String) :
    (l.foldl (fun d e => d.insert e.1 e.2) d).get? k = (l.lookup k).or (d.get? k) := by
  induction l generalizing d with
  | nil => rfl
  | cons e l ih =>
    have he := List.nodup_cons.mp h
    rw [List.foldl_cons, ih he.2, get?_insert, lookup_cons_if]
    by_cases hk : k = e.1
    · have hnone : l.lookup k = none := by
        apply List.lookup_eq_none_iff.mpr
        intro e' he'
        rw [bne_iff_ne, hk]
        exact fun heq => he.1 (List.mem_map.mpr ⟨e', he', heq.symm⟩)
      rw [hnone, Option.none_or, if_pos hk, if_pos hk, Option.some_or]
    · simp [hk]

theorem lookup_eq_some_iff {l : List (String × α)} (h : Ascending Prod.fst l) {k : String}
    {v : α} : l.lookup k = some v ↔ (k, v) ∈ l := by
  induction l with
  | nil => simp
  | cons e rest ih =>
    obtain ⟨k', v'⟩ := e
    have he := List.pairwise_cons.mp h
    rw [lookup_cons_if, List.mem_cons]
    by_cases hk : k = k'
    · subst hk
      simp only [if_pos, Option.some.injEq, Prod.mk.injEq, true_and]
      refine ⟨fun hv => .inl hv.symm, fun hv => hv.elim Eq.symm fun hm => ?_⟩
      exact absurd (he.1 _ hm) (String.lt_irrefl k)
    · rw [if_neg hk, ih he.2]
      exact (or_iff_right fun heq => hk (Prod.mk.inj heq).1).symm

theorem get?_eq_some_iff {d : Dict α} {k : String} {v : α} :
    d.get? k = some v ↔ (k, v) ∈ d.toList :=
  lookup_eq_some_iff d.ascending

theorem get?_erase (d : Dict α) (k a : String) :
    (d.erase k).get? a = if a = k then none else d.get? a := by
  apply Option.ext
  intro x
  rw [get?_eq_some_iff, erase, List.mem_filter, ← get?_eq_some_iff]
  by_cases h : a = k <;> simp [h]

theorem mem_keys_iff {d : Dict α} {k : String} : k ∈ d.keys ↔ (d.get? k).isSome = true := by
  rw [Option.isSome_iff_exists, keys, List.mem_map]
  simp [get?_eq_some_iff]

theorem mem_toList_ofNames {s : Names} {f : String → α} {e : String × α} :
    e ∈ (ofNames s f).toList ↔ e.1 ∈ s ∧ e.2 = f e.1 := by
  obtain ⟨k, v⟩ := e
  simp only [ofNames, List.mem_map, Names.mem_toList, Prod.mk.injEq]
  constructor
  · rintro ⟨a, ha, rfl, rfl⟩
    exact ⟨ha, rfl⟩
  · rintro ⟨hk, rfl⟩
    exact ⟨k, hk, rfl, rfl⟩

theorem get?_ofNames {s : Names} {f : String → α} {k : String} {v : α} :
    (ofNames s f).get? k = some v ↔ k ∈ s ∧ v = f k :=
  get?_eq_some_iff.trans mem_toList_ofNames

theorem eq_of_get?_eq {d e : Dict α} (h : ∀ k, d.get? k = e.get? k) : d = e := by
  have hm : ∀ x, x ∈ d.toList ↔ x ∈ e.toList := fun x => by
    rw [← get?_eq_some_iff, ← get?_eq_some_iff, h]
  cases d
  cases e
  congr 1
  exact Ascending.eq_of_mem_iff (by assumption) (by assumption) hm

theorem ofList_toList (d : Dict α) : ofList d.toList = d := by
  apply eq_of_get?_eq
  intro k
  rw [ofList, get?_foldl_insert d.nodup_keys, get?_empty, Option.or_none]
  rfl

end Dict

end SegmentRouting
