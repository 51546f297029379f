import SegmentRouting.Proofs.Text
import SegmentRouting.StreamSegment

/-! The grammar of the names of streaming segments. The separator overlaps
itself, so a field that another one follows must not end in an underscore: the
separator would be found one character earlier. With that every text has one
reading, and so has the sequence number in it. -/

namespace SegmentRouting

/-- Fields with a separator after each but the last. -/
inductive Separated : List (List Char) → List Char → Prop where
  | last {field : List Char} (hsep : ¬ ['_', '_'] <:+: field) : Separated [field] field
  | field {field rest : List Char} {fields : List (List Char)} (hsep : ¬ ['_', '_'] <:+: field)
      (hend : ¬ ['_'] <:+ field) (separated : Separated fields rest) :
      Separated (field :: fields) (field ++ '_' :: '_' :: rest)

section Separator

variable {c : Char} {s field rest : List Char} {fields : List (List Char)}

theorem separator_prefix_iff : ['_', '_'] <+: c :: s ↔ c = '_' ∧ ∃ t, s = '_' :: t := by
  constructor
  · rintro ⟨t, ht⟩
    obtain ⟨hc, hs⟩ := List.cons.inj ht
    exact ⟨hc.symm, t, hs.symm⟩
  · rintro ⟨rfl, t, rfl⟩
    exact ⟨t, rfl⟩

theorem no_separator_cons_iff :
    ¬ ['_', '_'] <:+: c :: s ↔ ¬ ['_', '_'] <+: c :: s ∧ ¬ ['_', '_'] <:+: s :=
  List.infix_cons_iff.not.trans not_or

theorem splitFields_cons (hstart : ¬ ['_', '_'] <+: c :: s)
    (hs : splitFields s = field :: fields) : splitFields (c :: s) = (c :: field) :: fields := by
  rw [splitFields, hs]
  intro t hc ht
  exact hstart (separator_prefix_iff.mpr ⟨hc, t, ht⟩)

theorem splitFields_of_no_separator (hsep : ¬ ['_', '_'] <:+: s) : splitFields s = [s] := by
  induction s with
  | nil => rfl
  | cons c s ih =>
    obtain ⟨hstart, hrest⟩ := no_separator_cons_iff.mp hsep
    exact splitFields_cons hstart (ih hrest)

theorem splitFields_append (hsep : ¬ ['_', '_'] <:+: field) (hend : ¬ ['_'] <:+ field) :
    splitFields (field ++ '_' :: '_' :: rest) = field :: splitFields rest := by
  induction field with
  | nil => rfl
  | cons c field ih =>
    obtain ⟨hstart, hrest⟩ := no_separator_cons_iff.mp hsep
    have hend' : ¬ ['_'] <:+ field := fun h => hend (h.trans (List.suffix_cons c field))
    refine splitFields_cons ?_ (ih hrest hend')
    intro h
    obtain ⟨rfl, t, ht⟩ := separator_prefix_iff.mp h
    cases field with
    | nil => exact hend List.suffix_rfl
    | cons d field =>
      obtain ⟨rfl, -⟩ := List.cons.inj ht
      exact hstart (separator_prefix_iff.mpr ⟨rfl, field, rfl⟩)

theorem Separated.splitFields_eq (h : Separated fields s) : splitFields s = fields := by
  induction h with
  | last hsep => exact splitFields_of_no_separator hsep
  | field hsep hend _ ih => rw [splitFields_append hsep hend, ih]

theorem Separated.cons (hstart : ¬ ['_', '_'] <+: c :: s) (h : Separated (field :: fields) s) :
    Separated ((c :: field) :: fields) (c :: s) := by
  cases h with
  | last hsep => exact .last (no_separator_cons_iff.mpr ⟨hstart, hsep⟩)
  | @field _ rest _ hsep hend separated =>
    have hfront : ¬ ['_', '_'] <+: c :: field :=
      fun h => hstart (h.trans (List.prefix_append (c :: field) ('_' :: '_' :: rest)))
    refine .field (no_separator_cons_iff.mpr ⟨hfront, hsep⟩) ?_ separated
    intro h
    rcases List.suffix_cons_iff.mp h with h | h
    · obtain ⟨rfl, rfl⟩ := List.cons.inj h
      exact hstart ⟨'_' :: rest, rfl⟩
    · exact hend h

theorem separated_splitFields (s : List Char) : Separated (splitFields s) s := by
  fun_induction splitFields s with
  | case1 => exact .last (by decide)
  | case2 rest ih => exact .field (by decide) (by decide) ih
  | case3 c rest hne hnil ih =>
    rw [hnil] at ih
    cases ih
  | case4 c rest hne field fields hrest ih =>
    rw [hrest] at ih
    apply ih.cons
    intro h
    obtain ⟨hc, t, ht⟩ := separator_prefix_iff.mp h
    exact hne t hc ht

theorem splitFields_eq_iff : splitFields s = fields ↔ Separated fields s :=
  ⟨fun h => h ▸ separated_splitFields s, Separated.splitFields_eq⟩

example : splitFields "a___b".toList = ["a".toList, "_b".toList] := by decide

end Separator

/-- The name is put together from the four fields, and falls apart into them. -/
structure HasFields (name table partition sequence created : String) : Prop where
  name_eq : name = table ++ "__" ++ partition ++ "__" ++ sequence ++ "__" ++ created
  no_separator : ∀ field ∈ [table, partition, sequence, created], ¬ "__".toList <:+: field.toList
  no_half : ∀ field ∈ [table, partition, sequence], ¬ "_".toList <:+ field.toList

theorem hasFields_iff {name table partition sequence created : String} :
    HasFields name table partition sequence created ↔ splitFields name.toList =
      [table.toList, partition.toList, sequence.toList, created.toList] := by
  rw [splitFields_eq_iff]
  constructor
  · intro h
    have hname : name.toList = table.toList ++ '_' :: '_' :: (partition.toList ++
        '_' :: '_' :: (sequence.toList ++ '_' :: '_' :: created.toList)) := by
      simp [h.name_eq, String.toList_append]
    have hsep := h.no_separator
    have hend := h.no_half
    simp only [List.forall_mem_cons] at hsep hend
    rw [hname]
    exact .field hsep.1 hend.1 (.field hsep.2.1 hend.2.1
      (.field hsep.2.2.1 hend.2.2.1 (.last hsep.2.2.2.1)))
  · intro h
    generalize htext : name.toList = text at h
    obtain _ | ⟨htable, htable', h⟩ := h
    obtain _ | ⟨hpartition, hpartition', h⟩ := h
    obtain _ | ⟨hsequence, hsequence', h⟩ := h
    obtain ⟨hcreated⟩ | ⟨-, -, h⟩ := h
    · refine ⟨?_, ?_, ?_⟩
      · apply String.toList_injective
        simp [htext, String.toList_append]
      · simpa using ⟨htable, hpartition, hsequence, hcreated⟩
      · simpa using ⟨htable', hpartition', hsequence'⟩
    · cases h

theorem HasFields.unique {name table partition sequence created table' partition' sequence'
    created' : String} (h : HasFields name table partition sequence created)
    (h' : HasFields name table' partition' sequence' created') :
    table = table' ∧ partition = partition' ∧ sequence = sequence' ∧ created = created' := by
  have hfields := (hasFields_iff.mp h).symm.trans (hasFields_iff.mp h')
  simpa [String.toList_inj] using hfields

namespace StreamSegment

theorem ofName?_eq_some_iff {name : String} {s : StreamSegment} :
    ofName? name = some s ↔
      s.name = name ∧ ∃ created, HasFields name s.table s.partition s.sequence created := by
  simp only [hasFields_iff]
  unfold ofName?
  split
  · rename_i table partition sequence created hfields
    rw [hfields, Option.some.injEq]
    constructor
    · rintro rfl
      exact ⟨rfl, String.ofList created, by simp⟩
    · rintro ⟨rfl, text, h⟩
      simp only [List.cons.injEq, and_true] at h
      obtain ⟨rfl, rfl, rfl, rfl⟩ := h
      simp
  · rename_i hfields
    simp only [reduceCtorEq, false_iff]
    rintro ⟨-, created, h⟩
    exact hfields _ _ _ _ h

/-- The sequence field is a numeral within 32 bits. -/
def HasNumber (s : StreamSegment) (n : Nat) : Prop :=
  Denotes s.sequence.toList n ∧ n < UInt32.size

variable {s : StreamSegment} {n : Nat}

theorem sequenceNumber_eq_ok_iff : s.sequenceNumber = .ok n ↔ s.HasNumber n := by
  rw [HasNumber, ← readNatural_eq_ok_iff (by decide), sequenceNumber]
  cases readNatural UInt32.size s.sequence.toList <;> simp [Except.mapError]

theorem sequenceNumber_eq_error_iff {fault : SequenceFault} :
    s.sequenceNumber = .error fault ↔
      fault = ⟨s.name, s.sequence⟩ ∧ ∀ n, ¬ s.HasNumber n := by
  simp only [← sequenceNumber_eq_ok_iff]
  unfold sequenceNumber
  cases readNatural UInt32.size s.sequence.toList <;> simp [Except.mapError, eq_comm]

/-- A name is read as a segment exactly if it has the four fields, which then are its only ones. -/
theorem ofName?_reads_fields (name : String) :
    (∀ table partition sequence,
      (∃ s, ofName? name = some s ∧ s.table = table ∧ s.partition = partition ∧
        s.sequence = sequence) ↔ ∃ created, HasFields name table partition sequence created) ∧
    (∀ table partition sequence created table' partition' sequence' created',
      HasFields name table partition sequence created →
      HasFields name table' partition' sequence' created' →
      table = table' ∧ partition = partition' ∧ sequence = sequence' ∧ created = created') ∧
    ∀ s, ofName? name = some s →
      s.name = name ∧ (∀ n, s.sequenceNumber = .ok n ↔ s.HasNumber n) ∧
      ((∀ n, ¬ s.HasNumber n) → s.sequenceNumber = .error ⟨name, s.sequence⟩) := by
  refine ⟨?_, ?_, ?_⟩
  · intro table partition sequence
    constructor
    · rintro ⟨s, hs, rfl, rfl, rfl⟩
      exact (ofName?_eq_some_iff.mp hs).2
    · intro h
      exact ⟨⟨name, table, partition, sequence⟩, ofName?_eq_some_iff.mpr ⟨rfl, h⟩, rfl, rfl, rfl⟩
  · intro _ _ _ _ _ _ _ _ h h'
    exact h.unique h'
  · intro s hs
    obtain rfl := name_of_ofName? hs
    exact ⟨rfl, fun n => sequenceNumber_eq_ok_iff,
      fun h => sequenceNumber_eq_error_iff.mpr ⟨rfl, h⟩⟩

end StreamSegment

end SegmentRouting
