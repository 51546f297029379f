/-! Lists in strictly ascending order of a key, which is a name. Each key stands
once, and the members alone decide the list. -/

namespace SegmentRouting

variable {α : Type} {key : α → String}

abbrev Ascending (key : α → String) (l : List α) : Prop :=
  l.Pairwise (fun a b => key a < key b)

/-- Put `x` at its place, instead of what has the same key. -/
def place (key : α → String) (x : α) : List α → List α
  | [] => [x]
  | y :: ys =>
    if key x < key y then x :: y :: ys
    else if key x = key y then x :: ys
    else y :: place key x ys

theorem name_lt_of_not_lt {x y : String} (h : ¬x < y) (hne : ¬x = y) : y < x :=
  String.not_le.mp fun hle => hne (String.le_antisymm hle (String.not_lt.mp h))

theorem mem_or_eq_of_mem_place {x a : α} {l : List α} (h : a ∈ place key x l) :
    a = x ∨ a ∈ l := by
  induction l with
  | nil => exact .inl (List.mem_singleton.mp h)
  | cons y ys ih =>
    rw [place] at h
    split at h
    · exact List.mem_cons.mp h
    · split at h
      · exact (List.mem_cons.mp h).imp_right (List.mem_cons_of_mem y)
      · rcases List.mem_cons.mp h with rfl | h
        · exact .inr List.mem_cons_self
        · exact (ih h).imp_right (List.mem_cons_of_mem y)

theorem Ascending.place {x : α} {l : List α} (h : Ascending key l) :
    Ascending key (place key x l) := by
  induction l with
  | nil => exact List.pairwise_singleton _ x
  | cons y ys ih =>
    have hy := List.pairwise_cons.mp h
    rw [SegmentRouting.place]
    split
    · rename_i hxy
      refine List.pairwise_cons.mpr ⟨fun a ha => ?_, h⟩
      rcases List.mem_cons.mp ha with rfl | ha
      · exact hxy
      · exact String.lt_trans hxy (hy.1 a ha)
    · split
      · rename_i heq
        exact List.pairwise_cons.mpr ⟨fun a ha => heq ▸ hy.1 a ha, hy.2⟩
      · rename_i hxy hne
        refine List.pairwise_cons.mpr ⟨fun a ha => ?_, ih hy.2⟩
        rcases mem_or_eq_of_mem_place ha with rfl | ha
        · exact name_lt_of_not_lt hxy hne
        · exact hy.1 a ha

theorem mem_place {x a : α} {l : List α} (h : Ascending key l) :
    a ∈ place key x l ↔ a = x ∨ a ∈ l ∧ key a ≠ key x := by
  induction l with
  | nil => simp [place]
  | cons y ys ih =>
    have hy := List.pairwise_cons.mp h
    have hne : ∀ {b}, key x < key b → key b ≠ key x :=
      fun hlt heq => String.lt_irrefl _ (heq ▸ hlt)
    rw [place]
    split
    · rename_i hxy
      have hall : ∀ b ∈ y :: ys, key b ≠ key x := by
        intro b hb
        rcases List.mem_cons.mp hb with rfl | hb
        · exact hne hxy
        · exact hne (String.lt_trans hxy (hy.1 b hb))
      rw [List.mem_cons]
      exact or_congr_right ⟨fun ha => ⟨ha, hall a ha⟩, fun ha => ha.1⟩
    · split
      · rename_i heq
        rw [List.mem_cons, List.mem_cons]
        refine or_congr_right ⟨fun ha => ⟨.inr ha, hne (heq ▸ hy.1 a ha)⟩, ?_⟩
        rintro ⟨rfl | ha, hk⟩
        · exact absurd heq.symm hk
        · exact ha
      · rename_i hxy hne'
        rw [List.mem_cons, List.mem_cons, ih hy.2]
        constructor
        · rintro (rfl | rfl | ha)
          · exact .inr ⟨.inl rfl, fun heq => hne' heq.symm⟩
          · exact .inl rfl
          · exact .inr ⟨.inr ha.1, ha.2⟩
        · rintro (rfl | ⟨rfl | ha, hk⟩)
          · exact .inr (.inl rfl)
          · exact .inl rfl
          · exact .inr (.inr ⟨ha, hk⟩)

theorem Ascending.eq_of_mem_iff {l m : List α} (hl : Ascending key l) (hm : Ascending key m)
    (h : ∀ a, a ∈ l ↔ a ∈ m) : l = m := by
  have hne : ∀ {a b : α}, key a < key b → a ≠ b := fun hab heq => String.lt_irrefl _ (heq ▸ hab)
  have hperm : l.Perm m := (List.perm_ext_iff_of_nodup (hl.imp hne) (hm.imp hne)).mpr h
  exact hperm.eq_of_pairwise (fun a b _ _ hab hba => absurd hba (String.lt_asymm hab)) hl hm

theorem Ascending.nodup_keys {l : List α} (h : Ascending key l) : (l.map key).Nodup :=
  List.pairwise_map.mpr (h.imp fun {a b} (hab : key a < key b) (heq : key a = key b) =>
    String.lt_irrefl _ (heq ▸ hab))

end SegmentRouting
