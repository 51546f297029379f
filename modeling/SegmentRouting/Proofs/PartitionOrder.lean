import SegmentRouting.Proofs.StreamingEntries

/-! The order of the segments of a partition. It is decided by the names of the
partition alone: by sequence number and name while all of the numbers can be
read, and by name otherwise. The last segment is the greatest in this order. -/

namespace SegmentRouting

theorem rankLE_iff {a b : Nat × String} :
    rankLE a b = true ↔ a.1 < b.1 ∨ a.1 = b.1 ∧ a.2 ≤ b.2 := by
  simp [rankLE]

theorem rankLE_trans (a b c : Nat × String) (hab : rankLE a b = true) (hbc : rankLE b c = true) :
    rankLE a c = true := by
  rw [rankLE_iff] at hab hbc ⊢
  rcases hab with hab | ⟨hab, hname⟩
  · left
    omega
  · rcases hbc with hbc | ⟨hbc, hname'⟩
    · left
      omega
    · right
      exact ⟨hab.trans hbc, String.le_trans hname hname'⟩

theorem rankLE_total (a b : Nat × String) : (rankLE a b || rankLE b a) = true := by
  rw [Bool.or_eq_true, rankLE_iff, rankLE_iff]
  have hname := String.le_total a.2 b.2
  by_cases hlt : a.1 < b.1
  · simp [hlt]
  · by_cases hgt : b.1 < a.1
    · simp [hgt]
    · have heq : a.1 = b.1 := by omega
      simp [heq, hname]

theorem PartitionLog.pairwise_ofSegments (l : List StreamSegment) :
    (ofSegments l).segments.Pairwise (fun a b =>
      rankLE (a.rank (ofSegments l).degraded) (b.rank (ofSegments l).degraded) = true) := by
  apply List.pairwise_mergeSort
  · intro a b c hab hbc
    exact rankLE_trans _ _ _ hab hbc
  · intro a b
    exact rankLE_total _ _

namespace ClusterView

/-- The sequence numbers of all streaming segments of the partition can be read. -/
def IsNumbered (v : ClusterView) (p : Partition) : Prop :=
  ∀ s ∈ v.streamSegments, s.partition = p → ∃ n, s.sequenceNumber = .ok n

/-- The strict order of the segments of one partition. -/
def Precedes (v : ClusterView) (s s' : StreamSegment) : Prop :=
  (v.IsNumbered s.partition ∧ ∃ m n, s.sequenceNumber = .ok m ∧ s'.sequenceNumber = .ok n ∧
    (m < n ∨ m = n ∧ s.name < s'.name)) ∨
  (¬ v.IsNumbered s.partition ∧ s.name < s'.name)

variable {v : ClusterView} {s s' : StreamSegment} {p : Partition}

theorem Precedes.asymm (hp : s.partition = s'.partition) (h : v.Precedes s s') :
    ¬ v.Precedes s' s := by
  rcases h with ⟨hn, m, n, hm, hm', hlt⟩ | ⟨hn, hlt⟩
  · rintro (⟨-, n', m', hn', hn'', hlt'⟩ | ⟨hnot, -⟩)
    · obtain rfl : m' = m := Except.ok.inj (hn''.symm.trans hm)
      obtain rfl : n' = n := Except.ok.inj (hn'.symm.trans hm')
      rcases hlt with hlt | ⟨rfl, hlt⟩
      · omega
      · rcases hlt' with hlt' | ⟨-, hlt'⟩
        · omega
        · exact String.lt_asymm hlt hlt'
    · exact hnot (hp ▸ hn)
  · rintro (⟨hnum, -⟩ | ⟨-, hlt'⟩)
    · exact hn (hp ▸ hnum)
    · exact String.lt_asymm hlt hlt'

theorem isNumbered_iff :
    v.IsNumbered p ↔
      (v.streamSegments.filter (fun s => s.partition == p)).all (·.isNumbered) = true := by
  have hread : ∀ s : StreamSegment, s.isNumbered = true ↔ ∃ n, s.sequenceNumber = .ok n := by
    intro s
    cases he : s.sequenceNumber <;> simp [StreamSegment.isNumbered, he, Except.toOption]
  simp [IsNumbered, hread, imp_iff_not_or]

theorem degraded_logOf : (v.logOf p).degraded = true ↔ ¬ v.IsNumbered p := by
  rw [isNumbered_iff]
  simp [logOf, PartitionLog.ofSegments]

theorem precedes_of_rankLE (hs : s ∈ v.streamSegments) (hs' : s' ∈ v.streamSegments)
    (hp : s.partition = p) (hp' : s'.partition = p) (hne : s ≠ s')
    (h : rankLE (s.rank (v.logOf p).degraded) (s'.rank (v.logOf p).degraded) = true) :
    v.Precedes s s' := by
  subst hp
  have hname : s.name ≠ s'.name := fun heq => hne (eq_of_name_eq hs hs' heq)
  have hlt : s.name ≤ s'.name → s.name < s'.name := by
    intro hle
    exact String.not_le.mp fun hge => hname (String.le_antisymm hle hge)
  rw [rankLE_iff] at h
  by_cases hnum : v.IsNumbered s.partition
  · have hdeg : (v.logOf s.partition).degraded = false :=
      Bool.eq_false_iff.mpr fun hd => degraded_logOf.mp hd hnum
    obtain ⟨m, hm⟩ := hnum s hs rfl
    obtain ⟨n, hn⟩ := hnum s' hs' hp'
    simp only [StreamSegment.rank, hdeg, hm, hn, Except.toOption] at h
    exact .inl ⟨hnum, m, n, hm, hn, h.imp_right (And.imp_right hlt)⟩
  · have hdeg := degraded_logOf.mpr hnum
    simp only [StreamSegment.rank, hdeg, if_true, Nat.lt_irrefl, false_or, true_and] at h
    exact .inr ⟨hnum, hlt h⟩

theorem pairwise_logOf (v : ClusterView) (p : Partition) :
    (v.logOf p).segments.Pairwise v.Precedes := by
  have hsorted := PartitionLog.pairwise_ofSegments
    (v.streamSegments.filter (fun s => s.partition == p))
  apply (hsorted.and (v.nodup_logOf p)).imp_of_mem
  intro a b ha hb hab
  have ha' := mem_logOf.mp ha
  have hb' := mem_logOf.mp hb
  exact precedes_of_rankLE ha'.1 hb'.1 ha'.2 hb'.2 hab.2 hab.1

/-- No segment of its partition comes after it. -/
def IsGreatest (v : ClusterView) (s : StreamSegment) : Prop :=
  ∀ s' ∈ v.streamSegments, s'.partition = s.partition → s' ≠ s → v.Precedes s' s

theorem last?_logOf_iff (hs : s ∈ v.streamSegments) :
    (v.logOf s.partition).last? = some s ↔ v.IsGreatest s := by
  have hmem : s ∈ (v.logOf s.partition).segments := mem_logOf.mpr ⟨hs, rfl⟩
  have hgreatest : ∀ last, (v.logOf s.partition).last? = some last →
      ∀ s' ∈ (v.logOf s.partition).segments, s' ≠ last → v.Precedes s' last := by
    intro last hlast s' hs' hne
    obtain ⟨before, hbefore⟩ := List.getLast?_eq_some_iff.mp hlast
    have hpair := v.pairwise_logOf s.partition
    rw [hbefore] at hpair hs'
    have hin : s' ∈ before := by simpa [hne] using hs'
    exact (List.pairwise_append.mp hpair).2.2 s' hin last List.mem_cons_self
  constructor
  · intro hlast s' hs' hp hne
    exact hgreatest s hlast s' (mem_logOf.mpr ⟨hs', hp⟩) hne
  · intro h
    obtain ⟨last, hlast⟩ : ∃ last, (v.logOf s.partition).last? = some last :=
      ⟨_, List.getLast?_eq_some_getLast (List.ne_nil_of_mem hmem)⟩
    have hl := mem_logOf.mp (List.mem_of_getLast? hlast)
    by_cases heq : last = s
    · rw [hlast, heq]
    · have hbefore := hgreatest last hlast s hmem (Ne.symm heq)
      exact absurd (h last hl.1 hl.2 heq) (hbefore.asymm hl.2.symm)

end ClusterView

end SegmentRouting
