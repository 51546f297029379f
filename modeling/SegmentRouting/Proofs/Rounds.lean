import Mathlib.Data.List.Infix
import Mathlib.Data.List.Induction
import Mathlib.Data.List.Nodup
import Mathlib.Data.List.Perm.Subperm
import SegmentRouting.Proofs.WeightedPick

/-! Lists cut into rounds. Where no round of `k` repeats one of `k` instances, each of
them stands once in every full round, so that their counts differ by at most one,
and only by who stands in the round that is still open. -/

namespace SegmentRouting

variable {α β : Type} {k m : Nat} {l : List α} {x : α}

/-- The `m`-th of the consecutive stretches of `k`. The last may be shorter. -/
def block (k m : Nat) (l : List α) : List α := (l.drop (m * k)).take k

theorem block_map (f : α → β) (k m : Nat) (l : List α) :
    block k m (l.map f) = (block k m l).map f := by
  rw [block, block, List.map_take, List.map_drop]

/-- What stands after the last full round. -/
def openRound (k : Nat) (l : List α) : List α := l.drop (l.length / k * k)

theorem length_openRound (k : Nat) (l : List α) : (openRound k l).length = l.length % k := by
  rw [openRound, List.length_drop, Nat.mod_eq_sub_div_mul]

theorem block_eq_openRound (hk : 0 < k) (l : List α) :
    block k (l.length / k) l = openRound k l := by
  have hlen := length_openRound k l
  have hlt := Nat.mod_lt l.length hk
  exact List.take_of_length_le (by rw [← openRound]; omega)

theorem block_snoc (hk : 0 < k) (l : List α) (x : α) :
    block k (l.length / k) (l ++ [x]) = openRound k l ++ [x] := by
  have hlen := length_openRound k l
  have hlt := Nat.mod_lt l.length hk
  rw [block, List.drop_append_of_le_length (Nat.div_mul_le_self _ _), ← openRound]
  apply List.take_of_length_le
  simp only [List.length_append, List.length_singleton]
  omega

theorem block_snoc_of_ne (hk : 0 < k) (hm : m ≠ l.length / k) :
    block k m (l ++ [x]) = block k m l := by
  have hdiv := Nat.div_add_mod' l.length k
  have hlt := Nat.mod_lt l.length hk
  rcases Nat.lt_or_gt_of_ne hm with hm | hm
  · have hle : (m + 1) * k ≤ l.length / k * k := Nat.mul_le_mul_right k hm
    rw [Nat.succ_mul] at hle
    rw [block, block, List.drop_append_of_le_length (by omega)]
    apply List.take_append_of_le_length
    rw [List.length_drop]
    omega
  · have hle : (l.length / k + 1) * k ≤ m * k := Nat.mul_le_mul_right k hm
    rw [Nat.succ_mul] at hle
    have hlen : (l ++ [x]).length ≤ m * k := by
      rw [List.length_append, List.length_singleton]
      omega
    rw [block, block, List.drop_of_length_le hlen, List.drop_of_length_le (by omega)]

theorem openRound_snoc_of_lt (h : l.length % k + 1 < k) (x : α) :
    (l ++ [x]).length / k = l.length / k ∧ openRound k (l ++ [x]) = openRound k l ++ [x] := by
  have hdiv := Nat.div_add_mod' l.length k
  have hq : (l ++ [x]).length / k = l.length / k := by
    rw [List.length_append, List.length_singleton]
    apply Nat.div_eq_of_lt_le
    · omega
    · rw [Nat.succ_mul]
      omega
  refine ⟨hq, ?_⟩
  rw [openRound, hq, List.drop_append_of_le_length (Nat.div_mul_le_self _ _), openRound]

theorem openRound_snoc_of_eq (h : l.length % k + 1 = k) (x : α) :
    (l ++ [x]).length / k = l.length / k + 1 ∧ openRound k (l ++ [x]) = [] := by
  have hdiv := Nat.div_add_mod' l.length k
  have hlen : (l ++ [x]).length = (l.length / k + 1) * k := by
    rw [List.length_append, List.length_singleton, Nat.succ_mul]
    omega
  have hq : (l ++ [x]).length / k = l.length / k + 1 := by
    rw [hlen, Nat.mul_div_cancel _ (by omega)]
  refine ⟨hq, ?_⟩
  rw [openRound, hq, ← hlen, List.drop_length]

/-- No round repeats anything. -/
def InRounds (k : Nat) (l : List α) : Prop := ∀ m, (block k m l).Nodup

theorem inRounds_nil (k : Nat) : InRounds k ([] : List α) := by
  intro m
  simp [block]

theorem InRounds.of_prefix {l' : List α} (h : InRounds k l') (hl : l <+: l') : InRounds k l := by
  intro m
  have hblock : block k m l <+: block k m l' := (hl.drop (m * k)).take k
  exact (h m).sublist hblock.sublist

/-- The next one joins the open round. -/
theorem inRounds_snoc (hk : 0 < k) :
    InRounds k (l ++ [x]) ↔ InRounds k l ∧ x ∉ openRound k l := by
  constructor
  · intro h
    have hround := h (l.length / k)
    rw [block_snoc hk, List.nodup_append] at hround
    refine ⟨h.of_prefix (List.prefix_append _ _), fun hx => ?_⟩
    exact hround.2.2 x hx x (List.mem_singleton_self x) rfl
  · rintro ⟨h, hx⟩ m
    by_cases hm : m = l.length / k
    · have hround := h m
      rw [hm, block_eq_openRound hk] at hround
      rw [hm, block_snoc hk]
      exact hround.append (List.nodup_singleton x) (List.disjoint_singleton.mpr hx)
    · rw [block_snoc_of_ne hk hm]
      exact h m

theorem InRounds.nodup_openRound (hk : 0 < k) (h : InRounds k l) : (openRound k l).Nodup :=
  block_eq_openRound hk l ▸ h _

section Instances

variable {E l : List Instance} {i : Instance}

theorem count_eq_one_of_full (hE : E.Nodup) (hl : l.Nodup) (hsub : l ⊆ E)
    (hlen : E.length ≤ l.length) (hi : i ∈ E) : l.count i = 1 := by
  have hperm : l.Perm E := (hl.subperm hsub).perm_of_length_le hlen
  rw [hperm.count_eq, List.count_eq_one_of_mem hE hi]

/-- Each full round has each of the instances once. -/
theorem InRounds.count_eq (hE : E.Nodup) (h : InRounds E.length l) (hsub : l ⊆ E) (hi : i ∈ E) :
    l.count i = l.length / E.length + (openRound E.length l).count i := by
  have hk : 0 < E.length := List.length_pos_of_mem hi
  induction l using List.reverseRecOn with
  | nil => simp [openRound]
  | append_singleton l x ih =>
    obtain ⟨hrounds, hx⟩ := (inRounds_snoc hk).mp h
    have hl : l ⊆ E := fun a ha => hsub (List.mem_append_left _ ha)
    have hprev := ih hrounds hl
    have hlt := Nat.mod_lt l.length hk
    by_cases hfull : l.length % E.length + 1 = E.length
    · have hround : (openRound E.length l ++ [x]).count i = 1 := by
        apply count_eq_one_of_full hE
        · exact (hrounds.nodup_openRound hk).append (List.nodup_singleton x)
            (List.disjoint_singleton.mpr hx)
        · intro a ha
          apply hsub
          rcases List.mem_append.mp ha with ha | ha
          · exact List.mem_append_left _ (List.mem_of_mem_drop ha)
          · exact List.mem_append_right _ ha
        · rw [List.length_append, length_openRound, List.length_singleton]
          omega
        · exact hi
      obtain ⟨hq, hopen⟩ := openRound_snoc_of_eq hfull x
      rw [hq, hopen, List.count_nil, List.count_append]
      rw [List.count_append] at hround
      omega
    · obtain ⟨hq, hopen⟩ := openRound_snoc_of_lt (by omega : l.length % E.length + 1 < E.length) x
      rw [hq, hopen, List.count_append, List.count_append, hprev, Nat.add_assoc]

/-- Floor and ceiling of the even share. -/
theorem InRounds.count_floor_or_ceil (hE : E.Nodup) (h : InRounds E.length l) (hsub : l ⊆ E)
    (hi : i ∈ E) : l.count i = l.length / E.length ∨
      l.count i = (l.length + E.length - 1) / E.length := by
  have hk : 0 < E.length := List.length_pos_of_mem hi
  rw [h.count_eq hE hsub hi]
  by_cases hopen : i ∈ openRound E.length l
  · right
    have hlen := length_openRound E.length l
    have hpos := List.length_pos_of_mem hopen
    have hdiv := Nat.div_add_mod' l.length E.length
    have hlt := Nat.mod_lt l.length hk
    rw [List.count_eq_one_of_mem (h.nodup_openRound hk) hopen]
    symm
    apply Nat.div_eq_of_lt_le
    · rw [Nat.succ_mul]
      omega
    · rw [Nat.succ_mul, Nat.succ_mul]
      omega
  · left
    rw [List.count_eq_zero.mpr hopen, Nat.add_zero]

/-- Whoever is not in the open round is lighter than those in it, or all are level. -/
theorem InRounds.lighterOrLevel_iff (hE : E.Nodup) (h : InRounds E.length l) (hsub : l ⊆ E)
    (hi : i ∈ E) : LighterOrLevel (fun j => l.count j) E i ↔ i ∉ openRound E.length l := by
  have hk : 0 < E.length := List.length_pos_of_mem hi
  have hnodup := h.nodup_openRound hk
  have hcount : ∀ j ∈ E, l.count j = l.length / E.length + (openRound E.length l).count j :=
    fun j hj => h.count_eq hE hsub hj
  have hown := hcount i hi
  simp only [LighterOrLevel]
  constructor
  · intro hrule hopen
    rw [List.count_eq_one_of_mem hnodup hopen] at hown
    rcases hrule with ⟨j, hj, hlt⟩ | hlevel
    · have hother := hcount j hj
      have hone := List.nodup_iff_count_le_one.mp hnodup j
      omega
    · have hall : E ⊆ openRound E.length l := by
        intro j hj
        have hother := hcount j hj
        have hsame := hlevel j hj
        exact List.count_pos_iff.mp (by omega)
      have hle := (hE.subperm hall).length_le
      have hlt := Nat.mod_lt l.length hk
      rw [length_openRound] at hle
      omega
  · intro hopen
    rw [List.count_eq_zero.mpr hopen] at hown
    by_cases hempty : openRound E.length l = []
    · right
      intro j hj
      have hother := hcount j hj
      rw [hempty, List.count_nil] at hother
      omega
    · left
      obtain ⟨j, hj⟩ := List.exists_mem_of_ne_nil _ hempty
      have hmem : j ∈ E := hsub (List.mem_of_mem_drop hj)
      have hother := hcount j hmem
      rw [List.count_eq_one_of_mem hnodup hj] at hother
      exact ⟨j, hmem, by omega⟩

end Instances

end SegmentRouting
