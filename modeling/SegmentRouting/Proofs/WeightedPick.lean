import SegmentRouting.Assignment

/-! The walk over the weights always stops at a position with a weight, so
that a pick gives one of the candidates whenever there are any, and never the
most loaded one unless they are all level. -/

namespace SegmentRouting

theorem locate?_of_lt_total {weights : List Nat} {r : Nat} (h : r < total weights) :
    ∃ k w, locate? weights r = some k ∧ weights[k]? = some w ∧ 0 < w := by
  induction weights generalizing r with
  | nil => simp [total] at h
  | cons w ws ih =>
    by_cases hr : r < w
    · exact ⟨0, w, by simp [locate?, hr], rfl, by omega⟩
    · have hrest : r - w < total ws := by
        simp only [total, List.sum_cons] at h ⊢
        omega
      obtain ⟨k, w', hk, hw, hpos⟩ := ih hrest
      exact ⟨k + 1, w', by simp [locate?, hr, hk], by simpa using hw, hpos⟩

variable {G : Type} [Generator G]

theorem drawPosition_lt {weights : List Nat} (h : weights ≠ []) (g : G) :
    (drawPosition weights g).1 < weights.length := by
  unfold drawPosition
  split
  · exact below_lt (List.length_pos_iff.mpr h) g
  · rename_i hne
    obtain ⟨k, w, hk, hw, -⟩ := locate?_of_lt_total (below_lt (Nat.pos_of_ne_zero hne) g)
    simp only [hk, Option.getD_some]
    exact (List.getElem?_eq_some_iff.mp hw).1

theorem pick_eq_of_two_le {eligible : List Instance} (h : 2 ≤ eligible.length) (load : Load)
    (g : G) : pick eligible load g =
      (eligible[(drawPosition (weightsOf (eligible.map load.of)) g).1]?,
        (drawPosition (weightsOf (eligible.map load.of)) g).2) := by
  cases eligible with
  | nil => simp at h
  | cons a rest =>
    cases rest with
    | nil => simp at h
    | cons b rest => rfl

theorem pick_of_two_le {eligible : List Instance} (h : 2 ≤ eligible.length) (load : Load) (g : G) :
    (pick eligible load g).1 =
      eligible[(drawPosition (weightsOf (eligible.map load.of)) g).1]? :=
  congrArg Prod.fst (pick_eq_of_two_le h load g)

theorem pick_spec (eligible : List Instance) (load : Load) (g : G) (h : eligible ≠ []) :
    ∃ i ∈ eligible, (pick eligible load g).1 = some i := by
  by_cases hlen : 2 ≤ eligible.length
  · have hne : weightsOf (eligible.map load.of) ≠ [] := by simpa [weightsOf] using h
    have hlt := drawPosition_lt hne g
    simp only [weightsOf, List.length_map] at hlt
    refine ⟨_, List.getElem_mem hlt, ?_⟩
    rw [pick_of_two_le hlen]
    exact List.getElem?_eq_getElem hlt
  · have hpos := List.length_pos_iff.mpr h
    obtain ⟨a, rfl⟩ := List.length_eq_one_iff.mp (by omega : eligible.length = 1)
    exact ⟨a, List.mem_singleton.mpr rfl, rfl⟩

theorem drawPosition_weight {weights : List Nat} (h : total weights ≠ 0) (g : G) :
    ∃ w, weights[(drawPosition weights g).1]? = some w ∧ 0 < w := by
  obtain ⟨k, w, hk, hw, hpos⟩ := locate?_of_lt_total (below_lt (Nat.pos_of_ne_zero h) g)
  exact ⟨w, by simpa [drawPosition, h, hk] using hw, hpos⟩

/-- Another candidate has more, or all have the same. -/
def LighterOrLevel (load : Instance → Nat) (eligible : List Instance) (i : Instance) : Prop :=
  (∃ j ∈ eligible, load i < load j) ∨ ∀ j ∈ eligible, load j = load i

/-- Only those are taken, and words can be found for each of them (`exists_words_pick`). -/
theorem lighter_or_level_of_pick {eligible : List Instance} {load : Load} {g : G} {i : Instance}
    (h : (pick eligible load g).1 = some i) : LighterOrLevel load.of eligible i := by
  by_cases hlen : 2 ≤ eligible.length
  · rw [pick_of_two_le hlen] at h
    have hi : i ∈ eligible := List.mem_of_getElem? h
    by_cases hzero : total (weightsOf (eligible.map load.of)) = 0
    · right
      have hmost : ∀ j ∈ eligible, load.of j = maximum (eligible.map load.of) := by
        intro j hj
        have hmem : load.of j ∈ eligible.map load.of := List.mem_map_of_mem hj
        have hw := List.sum_eq_zero_iff_forall_eq_nat.mp hzero _ (List.mem_map_of_mem hmem)
        have hle := le_maximum hmem
        omega
      intro j hj
      rw [hmost j hj, hmost i hi]
    · left
      obtain ⟨w, hw, hpos⟩ := drawPosition_weight hzero g
      have hown : w = maximum (eligible.map load.of) - load.of i := by
        rw [weightsOf, List.getElem?_map, List.getElem?_map, ← weightsOf, h] at hw
        exact (Option.some.inj hw).symm
      have hmost : 0 < maximum (eligible.map load.of) := by omega
      obtain ⟨j, hj, hmax⟩ := List.mem_map.mp (maximum_mem hmost)
      exact ⟨j, hj, by omega⟩
  · right
    match eligible, h with
    | [], h => simp [pick] at h
    | [a], h =>
      have hi : a = i := by simpa [pick] using h
      simp [hi]
    | _ :: _ :: _, _ => simp at hlen

end SegmentRouting
