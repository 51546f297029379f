import Mathlib.Algebra.Order.BigOperators.Group.List
import Mathlib.Algebra.Order.Group.Nat
import SegmentRouting.Proofs.WordShares

/-! Which candidates a pick can be led to. Each position that has a weight, or each of all
that have none, has its share of the words, so that a candidate which some other one
outweighs, or any of those that are level, can be picked by choosing the word. -/

namespace SegmentRouting

theorem exists_word_drawPosition {weights : List Nat} {k w : Nat} (hk : weights[k]? = some w)
    (hw : 0 < w ∨ total weights = 0) (hlen : weights.length < UInt64.size)
    (htotal : total weights < UInt64.size) :
    ∃ v, ∀ rest drawn, drawPosition weights (⟨v :: rest, drawn⟩ : WordList) =
      (k, ⟨rest, drawn + 1⟩) := by
  have hcount : {v | stop? weights v = some k}.ncard ≠ 0 := by
    rw [ncard_stop? hlen htotal hk]
    by_cases hzero : total weights = 0
    · rw [if_pos hzero]
      exact Nat.ne_of_gt (Nat.two_pow_pos _)
    · rw [if_neg hzero]
      exact Nat.ne_of_gt (Nat.mul_pos (hw.resolve_right hzero) (Nat.two_pow_pos _))
  obtain ⟨v, hv⟩ := Set.nonempty_of_ncard_ne_zero hcount
  exact ⟨v, fun rest drawn => drawPosition_of_stop? (g := (⟨v :: rest, drawn⟩ : WordList)) hv⟩

theorem total_weightsOf_le {loads : List Nat} {m : Nat} (h : ∀ n ∈ loads, n ≤ m) :
    total (weightsOf loads) ≤ m * loads.length := by
  have hall : ∀ w ∈ weightsOf loads, w ≤ m := by
    intro w hw
    obtain ⟨n, -, rfl⟩ := List.mem_map.mp hw
    have hmax := maximum_le h
    omega
  simpa [weightsOf, Nat.mul_comm] using List.sum_le_card_nsmul _ m hall

/-- A lighter candidate has a weight, and where all are level there is no weight at all. -/
theorem weight_of_lighter_or_level {eligible : List Instance} {counts : Instance → Nat}
    {i : Instance} (h : LighterOrLevel counts eligible i) :
    0 < maximum (eligible.map counts) - counts i ∨ total (weightsOf (eligible.map counts)) = 0 := by
  rcases h with ⟨j, hj, hlt⟩ | hlevel
  · left
    have hmax : counts j ≤ maximum (eligible.map counts) := le_maximum (List.mem_map_of_mem hj)
    omega
  · right
    have hmax : maximum (eligible.map counts) ≤ counts i := by
      apply maximum_le
      intro n hn
      obtain ⟨j, hj, rfl⟩ := List.mem_map.mp hn
      exact Nat.le_of_eq (hlevel j hj)
    apply List.sum_eq_zero_iff_forall_eq_nat.mpr
    intro w hw
    obtain ⟨n, hn, rfl⟩ := List.mem_map.mp hw
    obtain ⟨j, hj, rfl⟩ := List.mem_map.mp hn
    have hj' := hlevel j hj
    omega

/-- A single candidate needs no word, and otherwise one will do. -/
theorem exists_words_pick {eligible : List Instance} {counts : Instance → Nat} {m : Nat}
    {i : Instance} (hi : i ∈ eligible) (hrule : LighterOrLevel counts eligible i)
    (hm : ∀ j, counts j ≤ m) (hbound : (m + 1) * eligible.length < UInt64.size) :
    ∃ words, ∀ load : Load, (∀ j, load.of j = counts j) → ∀ rest drawn,
      pick eligible load (⟨words ++ rest, drawn⟩ : WordList) =
        (some i, ⟨rest, drawn + words.length⟩) := by
  by_cases htwo : 2 ≤ eligible.length
  · have hcounts : ∀ n ∈ eligible.map counts, n ≤ m := by
      intro n hn
      obtain ⟨j, -, rfl⟩ := List.mem_map.mp hn
      exact hm j
    have htotal := total_weightsOf_le hcounts
    rw [List.length_map] at htotal
    rw [Nat.succ_mul] at hbound
    obtain ⟨k, hk⟩ := List.mem_iff_getElem?.mp hi
    have hweight : (weightsOf (eligible.map counts))[k]? =
        some (maximum (eligible.map counts) - counts i) := by simp [weightsOf, hk]
    obtain ⟨v, hv⟩ := exists_word_drawPosition hweight (weight_of_lighter_or_level hrule)
      (by simp [weightsOf]; omega) (by omega)
    refine ⟨[v], ?_⟩
    intro load hload rest drawn
    rw [pick_eq_of_two_le htwo, funext hload, List.singleton_append, hv]
    simp [hk]
  · refine ⟨[], ?_⟩
    intro load hload rest drawn
    have hpos := List.length_pos_of_mem hi
    obtain ⟨a, rfl⟩ := List.length_eq_one_iff.mp (by omega : eligible.length = 1)
    simp [pick, List.mem_singleton.mp hi]

end SegmentRouting
