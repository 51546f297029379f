import SegmentRouting.Proofs.ChosenDraws
import SegmentRouting.Proofs.PeakLoad
import SegmentRouting.Proofs.Rounds
import SegmentRouting.Proofs.Variance

/-! Tables of segments that all have the same candidates. They are dealt in rounds:
nobody gets a second segment of a round before everybody has had one. All such deals
can be drawn, and nothing else. -/

namespace SegmentRouting

variable {E : Names} {cs : List Candidates}

namespace Progress

section Draws

variable {G : Type} [Generator G] {p : Progress G}

theorem instances_deals_subset (hE : ∀ e ∈ cs, e.eligible = E) (p : Progress G) :
    (p.deals cs).map (·.1) ⊆ E.toList := by
  intro i hi
  obtain ⟨d, hd, rfl⟩ := List.mem_map.mp hi
  obtain ⟨e, he, -, hmem⟩ := mem_deals hd
  exact hE e he ▸ hmem

/-- Whatever is drawn, the next instance is one that is not in the open round. -/
theorem inRounds_deals (hE : ∀ e ∈ cs, e.eligible = E) (hk : 0 < E.size)
    (hp : ∀ i, p.load.of i = 0) : InRounds E.size ((p.deals cs).map (·.1)) := by
  induction cs using List.reverseRecOn with
  | nil => exact inRounds_nil _
  | append_singleton cs c ih =>
    have hcs : ∀ e ∈ cs, e.eligible = E := fun e he => hE e (List.mem_append_left _ he)
    have hc : c.eligible = E := hE c (by simp)
    have hrounds := ih hcs
    rcases (cs.foldl place p).choice_cases c with ⟨hempty, -⟩ | ⟨-, i, hi, hchoice⟩
    · rw [hc, Names.isEmpty, List.isEmpty_iff] at hempty
      simp [Names.size, hempty] at hk
    · rw [hc] at hi
      have hrule := lighter_or_level_of_pick hchoice
      rw [hc, funext (load_foldl_eq_count hp cs)] at hrule
      have hopen := (hrounds.lighterOrLevel_iff E.nodup_toList (instances_deals_subset hcs p)
        hi).mp hrule
      rw [deals_append, List.map_append]
      simp only [deals, hchoice, List.map_cons, List.map_nil]
      exact (inRounds_snoc hk).mpr ⟨hrounds, hopen⟩

end Draws

theorem source_place {G : Type} [Generator G] (p : Progress G) (c : Candidates) :
    (p.place c).source = (pick c.eligible.toList p.load p.source).2 := by
  unfold place
  split <;> rename_i he <;> simp only [he]

/-- Words for a deal in rounds, after `xs` has been dealt. -/
theorem exists_words_deals {f : Segment → Instance} {xs : List Instance}
    (hE : ∀ e ∈ cs, e.eligible = E) (hf : ∀ e ∈ cs, f e.segment ∈ E) (hxs : xs ⊆ E.toList)
    (hrounds : InRounds E.size (xs ++ cs.map (fun e => f e.segment)))
    (hsize : (xs.length + cs.length) * E.size < UInt64.size) :
    ∃ words, ∀ p : Progress WordList, (∀ j, p.load.of j = xs.count j) → p.source.rest = words →
      p.deals cs = cs.map (fun e => (f e.segment, e.segment)) := by
  induction cs generalizing xs with
  | nil => exact ⟨[], fun _ _ _ => rfl⟩
  | cons c cs ih =>
    have hc : c.eligible = E := hE c List.mem_cons_self
    have hi : f c.segment ∈ E.toList := hf c List.mem_cons_self
    have hnext : InRounds E.size (xs ++ [f c.segment]) :=
      hrounds.of_prefix ((List.prefix_append_right_inj xs).mpr (by simp))
    obtain ⟨hbefore, hopen⟩ := (inRounds_snoc (List.length_pos_of_mem hi)).mp hnext
    have hrule := (hbefore.lighterOrLevel_iff E.nodup_toList hxs hi).mpr hopen
    have hbound : (xs.length + 1) * E.size < UInt64.size := by
      have hle : (xs.length + 1) * E.size ≤ (xs.length + (c :: cs).length) * E.size :=
        Nat.mul_le_mul_right _ (by simp)
      omega
    obtain ⟨now, hnow⟩ := exists_words_pick hi hrule (fun j => List.count_le_length) hbound
    have hxs' : xs ++ [f c.segment] ⊆ E.toList :=
      List.append_subset.mpr ⟨hxs, by simpa using hi⟩
    obtain ⟨later, hlater⟩ := ih (fun e he => hE e (List.mem_cons_of_mem c he))
      (fun e he => hf e (List.mem_cons_of_mem c he)) hxs' (by simpa using hrounds)
      (by simpa [Nat.add_assoc, Nat.add_comm, Nat.add_left_comm] using hsize)
    refine ⟨now ++ later, ?_⟩
    intro p hload hwords
    have hpick := hnow p.load hload later p.source.drawn
    rw [← hwords, ← hc] at hpick
    have hchoice : p.choice c = some (f c.segment) := congrArg Prod.fst hpick
    have hrest : (p.place c).deals cs = cs.map (fun e => (f e.segment, e.segment)) := by
      apply hlater
      · intro j
        rw [load_place, hload, hchoice, List.count_append, List.count_singleton]
        simp
      · rw [source_place, hpick]
    rw [deals, hchoice, List.map_cons, hrest]

end Progress

namespace Coverage

variable {c : Coverage}

/-- Every entry has the same candidates. -/
def Uniform (c : Coverage) (E : Names) : Prop := ∀ e ∈ c.entries, e.eligible = E

theorem placementOrder_of_uniform (hE : c.Uniform E) : c.placementOrder = c.entries := by
  apply List.mergeSort_of_pairwise
  apply List.pairwise_of_forall_mem_list
  intro a ha b hb
  simp [Candidates.sizeLE, hE a ha, hE b hb]

theorem routable_of_uniform (hE : c.Uniform E) (hk : 0 < E.size) : c.routable = c.entries := by
  apply List.filter_eq_self.mpr
  intro e he
  rw [hE e he]
  simpa [Names.isEmpty, Names.size, List.length_pos_iff] using hk

theorem total_counts {l : List Instance} (hl : l ⊆ E.toList) :
    total (E.toList.map (fun i => l.count i)) = l.length := by
  rw [total_map_count E.nodup_toList, List.countP_eq_length]
  intro i hi
  simpa using hl hi

section Draws

variable {G : Type} [Generator G]

/-- The instances in the order in which the table deals its segments to them. -/
def dealt (c : Coverage) (g : G) : List Instance := (c.deals g).map (·.1)

theorem dealt_subset (hE : c.Uniform E) (g : G) : c.dealt g ⊆ E.toList :=
  Progress.instances_deals_subset (placementOrder_of_uniform hE ▸ hE) _

theorem inRounds_dealt (hE : c.Uniform E) (hk : 0 < E.size) (g : G) :
    InRounds E.size (c.dealt g) :=
  Progress.inRounds_deals (placementOrder_of_uniform hE ▸ hE) hk (fun _ => rfl)

theorem segments_deals_of_uniform (hE : c.Uniform E) (hk : 0 < E.size) (g : G) :
    (c.deals g).map (·.2) = c.entries.map (·.segment) := by
  rw [deals, Progress.segments_deals, placementOrder_of_uniform hE]
  exact congrArg (List.map (·.segment)) (routable_of_uniform hE hk)

theorem length_dealt (hE : c.Uniform E) (hk : 0 < E.size) (g : G) :
    (c.dealt g).length = c.entries.length := by
  have hlen := congrArg List.length (segments_deals_of_uniform hE hk g)
  simpa [dealt] using hlen

theorem map_holder?_entries (hc : c.Distinct) (hE : c.Uniform E) (hk : 0 < E.size) (g : G) :
    c.entries.map (fun e => (c.assign g).1.holder? e.segment) = (c.dealt g).map some := by
  have hdeal : ∀ d ∈ c.deals g, (c.assign g).1.holder? d.2 = some d.1 := by
    intro d hd
    have hholds : (c.assign g).1.Holds d.1 d.2 := holds_assign.mpr hd
    apply RoutingTable.holder?_of_unique
    intro j
    constructor
    · exact unique_holder_assign hc hholds
    · rintro rfl
      exact hholds
  have hsegments := congrArg (List.map (c.assign g).1.holder?) (segments_deals_of_uniform hE hk g)
  rw [List.map_map, List.map_map] at hsegments
  rw [dealt, List.map_map]
  exact hsegments.symm.trans (List.map_congr_left hdeal)

theorem variance_assign_le {f : Segment → Instance} (hc : c.Distinct) (hE : c.Uniform E)
    (hk : 0 < E.size) (hf : c.Serves f) (g : G) :
    variance (E.toList.map (c.assign g).1.loadOf) ≤ variance (E.toList.map (c.loadUnder f)) := by
  have hrounds := inRounds_dealt hE hk g
  have hload : (c.assign g).1.loadOf = fun i => (c.dealt g).count i :=
    funext (loadOf_assign hc g)
  have hsub : c.routable.map (fun e => f e.segment) ⊆ E.toList := by
    intro i hi
    obtain ⟨e, he, rfl⟩ := List.mem_map.mp hi
    exact hE e (List.mem_of_mem_filter he) ▸ hf e he
  have htotal : total (E.toList.map (c.loadUnder f)) = c.entries.length := by
    have hcounts := total_counts hsub
    rw [List.length_map, routable_of_uniform hE hk] at hcounts
    rw [← hcounts, ← routable_of_uniform hE hk]
    rfl
  rw [hload]
  apply variance_le_of_level (q := (c.dealt g).length / E.size)
  · simp
  · rw [htotal, total_counts (dealt_subset hE g), length_dealt hE hk]
  · intro n hn
    obtain ⟨i, hi, rfl⟩ := List.mem_map.mp hn
    have hcount := hrounds.count_eq E.nodup_toList (dealt_subset hE g) hi
    have hone := List.nodup_iff_count_le_one.mp (hrounds.nodup_openRound hk) i
    change _ = (c.dealt g).length / E.size + (openRound E.size (c.dealt g)).count i at hcount
    omega

end Draws

/-- Consecutive blocks of as many entries as there are candidates go to different
instances, and each choice of different instances is drawn by some source. -/
theorem assign_in_rounds (hc : c.Distinct) (hE : c.Uniform E) (hk : 0 < E.size)
    (hsize : c.entries.length * E.size < UInt64.size) :
    (∀ (G : Type) [Generator G] (g : G),
      let t := (c.assign g).1
      (∀ e ∈ c.entries, ∃ i ∈ E, t.holder? e.segment = some i ∧
        ∀ j, t.Holds j e.segment ↔ j = i) ∧
      (∀ m, ((block E.size m c.entries).map (fun e => t.holder? e.segment)).Nodup) ∧
      (∀ i ∈ E, t.loadOf i = c.entries.length / E.size ∨
        t.loadOf i = (c.entries.length + E.size - 1) / E.size) ∧
      ∀ f, c.Serves f →
        variance (E.toList.map t.loadOf) ≤ variance (E.toList.map (c.loadUnder f))) ∧
    ∀ f : Segment → Instance, (∀ e ∈ c.entries, f e.segment ∈ E) →
      (∀ m, ((block E.size m c.entries).map (fun e => f e.segment)).Nodup) →
      ∃ g : WordList, (c.assign g).1 =
        RoutingTable.ofPairs (c.entries.map (fun e => (f e.segment, e.segment))) := by
  constructor
  · intro G _ g t
    have hrounds := inRounds_dealt hE hk g
    refine ⟨?_, ?_, ?_, fun f hf => variance_assign_le hc hE hk hf g⟩
    · intro e he
      obtain ⟨i, hi, hholder⟩ := holder?_of_routable hc g ((routable_of_uniform hE hk).symm ▸ he)
      exact ⟨i, hE e he ▸ hi, hholder⟩
    · intro m
      rw [← block_map, map_holder?_entries hc hE hk, block_map]
      exact (hrounds m).map (Option.some_injective _)
    · intro i hi
      have hcount := hrounds.count_floor_or_ceil E.nodup_toList (dealt_subset hE g) hi
      rw [length_dealt hE hk] at hcount
      rw [loadOf_assign hc]
      exact hcount
  · intro f hf hblocks
    have hrounds : InRounds E.size ([] ++ c.entries.map (fun e => f e.segment)) := by
      intro m
      rw [List.nil_append, block_map]
      exact hblocks m
    obtain ⟨words, hwords⟩ := Progress.exists_words_deals hE hf (List.nil_subset _) hrounds
      (by simpa using hsize)
    refine ⟨⟨words, 0⟩, ?_⟩
    rw [assign_eq_ofPairs, deals, placementOrder_of_uniform hE]
    exact congrArg RoutingTable.ofPairs (hwords _ (fun _ => rfl) rfl)

/-- Three segments on two instances: whatever is drawn, one instance holds two of them and
the other one, and the first round can go either way. -/
theorem assign_in_rounds_pair :
    let c : Coverage := ⟨"t", [⟨"s1", .ofList ["A", "B"]⟩, ⟨"s2", .ofList ["A", "B"]⟩,
      ⟨"s3", .ofList ["A", "B"]⟩]⟩
    c.Distinct ∧ c.Uniform (.ofList ["A", "B"]) ∧
      (∀ (G : Type) [Generator G] (g : G), (c.assign g).1.loadOf "A" = 1 ∨
        (c.assign g).1.loadOf "A" = 2) ∧
      ∃ g : WordList, (c.assign g).1 =
        RoutingTable.ofPairs [("B", "s1"), ("A", "s2"), ("B", "s3")] := by
  intro c
  have hc : c.Distinct := by
    unfold Distinct
    decide
  have hE : c.Uniform (.ofList ["A", "B"]) := by simp [Uniform, c]
  have hpair : (Names.ofList ["A", "B"]).size = 2 := by decide +kernel
  obtain ⟨hall, hsome⟩ := assign_in_rounds hc hE (by omega) (by rw [hpair]; decide)
  refine ⟨hc, hE, ?_, ?_⟩
  · intro G _ g
    have hload := (hall G g).2.2.1 "A" (Names.mem_ofList.mpr (by simp))
    simpa [hpair, c] using hload
  · apply hsome (fun s => if s = "s2" then "A" else "B")
    · intro e he
      rw [Names.mem_ofList]
      split <;> simp
    · intro m
      rw [hpair]
      match m with
      | 0 => decide
      | 1 => decide
      | m + 2 => simp [block, c, Nat.add_mul]

end Coverage

end SegmentRouting
