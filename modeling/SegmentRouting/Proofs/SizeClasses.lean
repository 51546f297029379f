import SegmentRouting.Proofs.PeakLoad

/-! What a table depends on. The order of placement keeps entries of one size as they
stand, gaps change nothing, and segments with a single candidate can be placed in any
order, since no word is drawn for them. What is left are the sequences of the entries
that have two candidates, three and so on. -/

namespace SegmentRouting

section Keys

variable {α : Type} {key : α → Nat} {l m : List α}

theorem filter_le_append_filter_lt (h : l.Pairwise (fun a b => key a ≤ key b)) (k : Nat) :
    l.filter (fun a => decide (key a ≤ k)) ++ l.filter (fun a => decide (k < key a)) = l := by
  induction l with
  | nil => rfl
  | cons a l ih =>
    have ha := List.pairwise_cons.mp h
    by_cases hak : key a ≤ k
    · simp [hak, Nat.not_lt.mpr hak, ih ha.2]
    · have hall : ∀ b ∈ a :: l, k < key b := by
        intro b hb
        rcases List.mem_cons.mp hb with rfl | hb
        · omega
        · have hab := ha.1 b hb
          omega
      have hlow : (a :: l).filter (fun b => decide (key b ≤ k)) = [] :=
        List.filter_eq_nil_iff.mpr fun b hb => by simpa using hall b hb
      have hhigh : (a :: l).filter (fun b => decide (k < key b)) = a :: l :=
        List.filter_eq_self.mpr fun b hb => by simpa using hall b hb
      rw [hlow, hhigh, List.nil_append]

theorem mem_iff_of_filter_key_eq
    (h : ∀ k, l.filter (fun a => decide (key a = k)) = m.filter (fun a => decide (key a = k)))
    (a : α) : a ∈ l ↔ a ∈ m := by
  have ha : a ∈ l.filter (fun b => decide (key b = key a)) ↔
      a ∈ m.filter (fun b => decide (key b = key a)) := by rw [h]
  simpa using ha

/-- A list in order of a key is decided by its parts with equal keys. -/
theorem eq_of_filter_key_eq (hl : l.Pairwise (fun a b => key a ≤ key b))
    (hm : m.Pairwise (fun a b => key a ≤ key b))
    (h : ∀ k, l.filter (fun a => decide (key a = k)) = m.filter (fun a => decide (key a = k))) :
    l = m := by
  induction l generalizing m with
  | nil =>
    cases m with
    | nil => rfl
    | cons b m => simpa using (mem_iff_of_filter_key_eq h b).mpr List.mem_cons_self
  | cons a l ih =>
    cases m with
    | nil => simpa using (mem_iff_of_filter_key_eq h a).mp List.mem_cons_self
    | cons b m =>
      have hl' := List.pairwise_cons.mp hl
      have hm' := List.pairwise_cons.mp hm
      have hkey : key a = key b := by
        apply Nat.le_antisymm
        · rcases List.mem_cons.mp ((mem_iff_of_filter_key_eq h b).mpr List.mem_cons_self)
            with hba | hb
          · rw [hba]
          · exact hl'.1 b hb
        · rcases List.mem_cons.mp ((mem_iff_of_filter_key_eq h a).mp List.mem_cons_self)
            with hab | ha
          · rw [hab]
          · exact hm'.1 a ha
      have hhead := h (key b)
      simp only [List.filter_cons, hkey, decide_true, if_true] at hhead
      obtain ⟨rfl, -⟩ := List.cons.inj hhead
      refine congrArg (a :: ·) (ih hl'.2 hm'.2 fun k => ?_)
      have hk := h k
      by_cases hak : key a = k
      · simpa [hak] using hk
      · simpa [hak] using hk

end Keys

theorem Names.insert_comm (s : Names) (x y : String) :
    (s.insert x).insert y = (s.insert y).insert x := by
  apply Names.eq_of_mem_iff
  intro a
  simp only [Names.mem_insert]
  exact or_left_comm

theorem Dict.update_comm {α : Type} {f g : Option α → α}
    (h : ∀ old, g (some (f old)) = f (some (g old))) (d : Dict α) (i j : String) :
    (d.update i f).update j g = (d.update j g).update i f := by
  apply Dict.eq_of_get?_eq
  intro k
  simp only [Dict.get?_update]
  by_cases hij : i = j
  · by_cases hk : k = i
    · simp [← hij, hk, h]
    · simp [← hij, hk]
  · by_cases hk : k = i
    · simp [hk, hij]
    · simp [hk, Ne.symm hij]

theorem RoutingTable.add_comm (t : RoutingTable) (i j : Instance) (segment segment' : Segment) :
    (t.add i segment).add j segment' = (t.add j segment').add i segment := by
  exact congrArg RoutingTable.mk (Dict.update_comm
    (f := fun held : Option Names => (held.getD .empty).insert segment)
    (g := fun held : Option Names => (held.getD .empty).insert segment')
    (fun _ => Names.insert_comm _ _ _) t.assignments i j)

variable {G : Type} [Generator G]

namespace Progress

theorem place_of_gap (p : Progress G) {e : Candidates} (h : e.eligible.size = 0) :
    p.place e = p := by
  have hnone : e.eligible.toList = [] := List.eq_nil_of_length_eq_zero h
  simp [place, hnone, pick]

theorem place_of_single (p : Progress G) {e : Candidates} {i : Instance}
    (h : e.eligible.toList = [i]) :
    p.place e = ⟨p.table.add i e.segment, p.load.update i (fun n => n.getD 0 + 1), p.source⟩ := by
  simp [place, h, pick]

theorem place_comm_of_single (p : Progress G) {e e' : Candidates} (h : e.eligible.size = 1)
    (h' : e'.eligible.size = 1) : (p.place e).place e' = (p.place e').place e := by
  obtain ⟨i, hi⟩ := List.length_eq_one_iff.mp h
  obtain ⟨j, hj⟩ := List.length_eq_one_iff.mp h'
  simp only [place_of_single _ hi, place_of_single _ hj]
  rw [RoutingTable.add_comm, Dict.update_comm (fun _ => rfl)]

theorem foldl_place_of_le_one {cs : List Candidates} (h : ∀ e ∈ cs, e.eligible.size ≤ 1)
    (p : Progress G) : cs.foldl place p =
      (cs.filter (fun e => decide (e.eligible.size = 1))).foldl place p := by
  induction cs generalizing p with
  | nil => rfl
  | cons e cs ih =>
    have hrest := ih fun e' he' => h e' (List.mem_cons_of_mem e he')
    by_cases hone : e.eligible.size = 1
    · rw [List.filter_cons_of_pos (by simpa using hone), List.foldl_cons, List.foldl_cons, hrest]
    · have hgap : e.eligible.size = 0 := by
        have hle := h e List.mem_cons_self
        omega
      rw [List.filter_cons_of_neg (by simpa using hone), List.foldl_cons, place_of_gap p hgap,
        hrest]

end Progress

namespace Coverage

variable {c c' : Coverage}

/-- The entries that words are drawn for, in the order in which they are placed. -/
def drawn (c : Coverage) : List Candidates :=
  c.placementOrder.filter (fun e => decide (1 < e.eligible.size))

/-- Single candidates go first, and then words are drawn. -/
theorem foldl_place_placementOrder (c : Coverage) (p : Progress G) :
    c.placementOrder.foldl Progress.place p =
      c.drawn.foldl Progress.place ((c.ofSize 1).foldl Progress.place p) := by
  have hsmall : ∀ e ∈ c.placementOrder.filter (fun e => decide (e.eligible.size ≤ 1)),
      e.eligible.size ≤ 1 := fun e he => by simpa using (List.mem_filter.mp he).2
  have hone : (c.placementOrder.filter (fun e => decide (e.eligible.size ≤ 1))).filter
      (fun e => decide (e.eligible.size = 1)) = c.ofSize 1 := by
    rw [← filter_placementOrder, List.filter_filter]
    apply List.filter_congr
    intro e _
    simp +contextual
  have hsplit := filter_le_append_filter_lt c.pairwise_placementOrder 1
  rw [← hsplit, List.foldl_append, Progress.foldl_place_of_le_one hsmall, hone, drawn]

theorem filter_drawn (c : Coverage) (k : Nat) :
    c.drawn.filter (fun e => decide (e.eligible.size = k)) = if 2 ≤ k then c.ofSize k else [] := by
  rw [drawn, List.filter_filter]
  by_cases hk : 2 ≤ k
  · rw [if_pos hk, ← filter_placementOrder]
    apply List.filter_congr
    intro e _
    by_cases he : e.eligible.size = k
    · simp [he]
      omega
    · simp [he]
  · rw [if_neg hk, List.filter_eq_nil_iff]
    intro e _
    simp
    omega

theorem drawn_eq (hmany : ∀ k, 2 ≤ k → c.ofSize k = c'.ofSize k) : c.drawn = c'.drawn := by
  have hsorted : ∀ d : Coverage,
      d.drawn.Pairwise (fun e e' => e.eligible.size ≤ e'.eligible.size) :=
    fun d => d.pairwise_placementOrder.sublist List.filter_sublist
  apply eq_of_filter_key_eq (hsorted c) (hsorted c')
  intro k
  rw [filter_drawn, filter_drawn]
  by_cases hk : 2 ≤ k
  · rw [if_pos hk, if_pos hk, hmany k hk]
  · rw [if_neg hk, if_neg hk]

theorem assign_congr (hone : (c.ofSize 1).Perm (c'.ofSize 1))
    (hmany : ∀ k, 2 ≤ k → c.ofSize k = c'.ofSize k) (g : G) : c.assign g = c'.assign g := by
  have hpinned : (c.ofSize 1).foldl Progress.place ⟨.empty, .empty, g⟩ =
      (c'.ofSize 1).foldl Progress.place ⟨.empty, .empty, g⟩ := by
    apply hone.foldl_eq'
    intro e he e' he' p
    exact p.place_comm_of_single (by simpa using (List.mem_filter.mp he).2)
      (by simpa using (List.mem_filter.mp he').2)
  simp only [assign, foldl_place_placementOrder, hpinned, drawn_eq hmany]

theorem ofSize_of_routable (h : c'.routable = c.routable) {k : Nat} (hk : 0 < k) :
    c'.ofSize k = c.ofSize k := by
  have hsize : ∀ d : Coverage,
      d.ofSize k = d.routable.filter (fun e => decide (e.eligible.size = k)) := by
    intro d
    rw [ofSize, routable, List.filter_filter]
    apply List.filter_congr
    intro e _
    by_cases he : e.eligible.size = k
    · have hne : e.eligible.toList ≠ [] := by
        intro hnil
        simp [Names.size, hnil] at he
        omega
      simp [he, Names.isEmpty, hne]
    · simp [he]
  rw [hsize, hsize, h]

/-- Both the table and the source that is left are the same. Of entries with different
numbers of candidates the order among each other does not matter, and gaps do not at all. -/
theorem assign_eq_of_sizes (hone : (c.ofSize 1).Perm (c'.ofSize 1))
    (hmany : ∀ k, 2 ≤ k → c.ofSize k = c'.ofSize k) :
    ∀ (G : Type) [Generator G] (g : G), c.assign g = c'.assign g ∧
      ∀ d : Coverage, d.routable = c.routable → d.assign g = c.assign g := by
  intro G _ g
  refine ⟨assign_congr hone hmany g, ?_⟩
  intro d hd
  apply assign_congr
  · rw [ofSize_of_routable hd (by omega)]
  · intro k hk
    exact ofSize_of_routable hd (by omega)

/-- The pinned segments in another order, other gaps at other places, and the pair before
the wide set. -/
theorem assign_eq_of_sizes_rearranged :
    let c : Coverage := ⟨"t", [⟨"gap", .empty⟩, ⟨"wide", .ofList ["A", "B", "C"]⟩,
      ⟨"pinned", .ofList ["A"]⟩, ⟨"pair", .ofList ["A", "B"]⟩, ⟨"also pinned", .ofList ["B"]⟩]⟩
    let c' : Coverage := ⟨"t", [⟨"pair", .ofList ["A", "B"]⟩, ⟨"also pinned", .ofList ["B"]⟩,
      ⟨"other gap", .empty⟩, ⟨"pinned", .ofList ["A"]⟩, ⟨"wide", .ofList ["A", "B", "C"]⟩]⟩
    (c.ofSize 1).Perm (c'.ofSize 1) ∧ (∀ k, 2 ≤ k → c.ofSize k = c'.ofSize k) ∧
      c.assign (ChaCha.ofSeed 7) = c'.assign (ChaCha.ofSeed 7) := by
  intro c c'
  have hone : (c.ofSize 1).Perm (c'.ofSize 1) := by decide +kernel
  have hlarge : ∀ d ∈ [c, c'], ∀ k, d.ofSize (k + 4) = [] := by
    have hsize : ∀ d ∈ [c, c'], ∀ e ∈ d.entries, e.eligible.size ≤ 3 := by decide +kernel
    intro d hd k
    apply List.filter_eq_nil_iff.mpr
    intro e he
    have hle := hsize d hd e he
    simp
    omega
  have hmany : ∀ k, 2 ≤ k → c.ofSize k = c'.ofSize k := by
    intro k hk
    match k with
    | 0 | 1 => omega
    | 2 | 3 => decide +kernel
    | k + 4 => rw [hlarge c (by simp), hlarge c' (by simp)]
  exact ⟨hone, hmany, (assign_eq_of_sizes hone hmany ChaCha (ChaCha.ofSeed 7)).1⟩

end Coverage

end SegmentRouting
