import Mathlib.Data.Set.Card
import Mathlib.Order.Interval.Finset.Nat
import SegmentRouting.Proofs.WeightedPick

/-! How many of the words that can come next lead a pick to each candidate. Equally many
words are scaled to each number below a bound, and the others are rejected, so that the
words which stop at a position are in exact proportion to its weight. -/

namespace SegmentRouting

section Words

variable {n r a m w : Nat}

theorem zone_eq_mul (n : Nat) : zone n = 2 ^ leadingZeros n * n := by
  rw [zone, Nat.shiftLeft_eq, Nat.mul_comm]

theorem zone_le_size (hn : n < UInt64.size) : zone n ≤ UInt64.size := by
  by_cases hzero : n = 0
  · simp [zone, hzero]
  · have hlog : n.log2 < 64 := (Nat.log2_lt hzero).mpr hn
    have hn' : n ≤ 2 ^ (n.log2 + 1) := Nat.le_of_lt Nat.lt_log2_self
    calc
      zone n ≤ 2 ^ leadingZeros n * 2 ^ (n.log2 + 1) := by
        rw [zone_eq_mul]
        exact Nat.mul_le_mul_left _ hn'
      _ = 2 ^ 64 := by
        rw [← Nat.pow_add, leadingZeros]
        congr 1
        omega

/-- The product of a kept word lies in the zone that begins at a multiple of the word size. -/
theorem keeps_and_scaled_iff (hn : n < UInt64.size) (v : UInt64) :
    keeps n v = true ∧ scaled n v = r ↔
      r * UInt64.size ≤ v.toNat * n ∧ v.toNat * n < r * UInt64.size + zone n := by
  have hsize : 0 < UInt64.size := by decide
  have hzone := zone_le_size hn
  have hdiv := Nat.div_add_mod' (v.toNat * n) UInt64.size
  have hlt := Nat.mod_lt (v.toNat * n) hsize
  rw [keeps, decide_eq_true_eq, scaled]
  constructor
  · rintro ⟨hkeeps, rfl⟩
    omega
  · rintro ⟨hlow, hhigh⟩
    have hr : v.toNat * n / UInt64.size = r := by
      apply Nat.div_eq_of_lt_le hlow
      rw [Nat.succ_mul]
      omega
    rw [hr] at hdiv
    exact ⟨by omega, hr⟩

instance finite_words : Finite UInt64 :=
  Finite.of_injective (fun v => (⟨v.toNat, v.toNat_lt⟩ : Fin (2 ^ 64)))
    fun _ _ h => UInt64.toNat_inj.mp (Fin.mk.inj h)

theorem ncard_words_between (h : a + m ≤ UInt64.size) :
    {v : UInt64 | a ≤ v.toNat ∧ v.toNat < a + m}.ncard = m := by
  have himage : UInt64.toNat '' {v : UInt64 | a ≤ v.toNat ∧ v.toNat < a + m} =
      (Finset.Ico a (a + m) : Finset Nat) := by
    ext k
    simp only [Set.mem_image, Set.mem_ofPred_eq, Finset.coe_Ico, Set.mem_Ico]
    constructor
    · rintro ⟨v, hv, rfl⟩
      exact hv
    · intro hk
      have hv : (UInt64.ofNat k).toNat = k := UInt64.toNat_ofNat_of_lt (by omega)
      exact ⟨UInt64.ofNat k, by rwa [hv], hv⟩
  rw [← Set.ncard_image_of_injective _ (fun _ _ h => UInt64.toNat_inj.mp h), himage,
    Set.ncard_coe_finset, Nat.card_Ico, Nat.add_sub_cancel_left]

/-- As many multiples of `n` lie in a zone as `n` goes into it, wherever the zone begins. -/
theorem ncard_scaled_eq (hr : r < n) (hn : n < UInt64.size) :
    {v : UInt64 | keeps n v = true ∧ scaled n v = r}.ncard = 2 ^ leadingZeros n := by
  have hle_iff : ∀ b k, (b + (n - 1)) / n ≤ k ↔ b ≤ k * n := by
    intro b k
    rw [Nat.div_le_iff_le_mul_add_pred (by omega), Nat.mul_comm n k]
    omega
  have hend : (r * UInt64.size + zone n + (n - 1)) / n =
      (r * UInt64.size + (n - 1)) / n + 2 ^ leadingZeros n := by
    rw [zone_eq_mul, Nat.add_right_comm, Nat.add_mul_div_right _ _ (by omega)]
  have hwords : {v : UInt64 | keeps n v = true ∧ scaled n v = r} =
      {v : UInt64 | (r * UInt64.size + (n - 1)) / n ≤ v.toNat ∧
        v.toNat < (r * UInt64.size + (n - 1)) / n + 2 ^ leadingZeros n} := by
    ext v
    rw [Set.mem_ofPred_eq, Set.mem_ofPred_eq, keeps_and_scaled_iff hn, ← hend, ← Nat.not_le,
      ← Nat.not_le, hle_iff, hle_iff]
  rw [hwords]
  apply ncard_words_between
  rw [← hend, hle_iff]
  have hstep : (r + 1) * UInt64.size ≤ n * UInt64.size := Nat.mul_le_mul_right _ hr
  have hzone := zone_le_size hn
  rw [Nat.succ_mul] at hstep
  rw [Nat.mul_comm UInt64.size n]
  omega

theorem ncard_scaled_between (h : a + w ≤ n) (hn : n < UInt64.size) :
    {v : UInt64 | keeps n v = true ∧ a ≤ scaled n v ∧ scaled n v < a + w}.ncard =
      w * 2 ^ leadingZeros n := by
  induction w with
  | zero =>
    have hnone : {v : UInt64 | keeps n v = true ∧ a ≤ scaled n v ∧ scaled n v < a + 0} = ∅ := by
      ext v
      simp only [Set.mem_ofPred_eq, Set.mem_empty_iff_false, iff_false]
      rintro ⟨-, hlow, hhigh⟩
      omega
    rw [hnone, Set.ncard_empty, Nat.zero_mul]
  | succ w ih =>
    have hsplit : {v : UInt64 | keeps n v = true ∧ a ≤ scaled n v ∧ scaled n v < a + (w + 1)} =
        {v : UInt64 | keeps n v = true ∧ a ≤ scaled n v ∧ scaled n v < a + w} ∪
          {v : UInt64 | keeps n v = true ∧ scaled n v = a + w} := by
      ext v
      rw [Set.mem_union, Set.mem_ofPred_eq, Set.mem_ofPred_eq, Set.mem_ofPred_eq, ← and_or_left]
      apply and_congr_right
      intro _
      omega
    have hapart : Disjoint {v : UInt64 | keeps n v = true ∧ a ≤ scaled n v ∧ scaled n v < a + w}
        {v : UInt64 | keeps n v = true ∧ scaled n v = a + w} := by
      rw [Set.disjoint_left]
      rintro v ⟨-, -, hlt⟩ ⟨-, heq⟩
      omega
    rw [hsplit, Set.ncard_union_eq hapart, ih (by omega), ncard_scaled_eq (by omega) hn,
      Nat.succ_mul]

end Words

theorem total_take_add_le {weights : List Nat} {i w : Nat} (h : weights[i]? = some w) :
    total (weights.take i) + w ≤ total weights := by
  induction weights generalizing i with
  | nil => simp at h
  | cons w' ws ih =>
    cases i with
    | zero =>
      obtain rfl : w' = w := by simpa using h
      simp [total]
    | succ i =>
      have hrest := ih (by simpa using h)
      simp only [List.take_succ_cons, total, List.sum_cons] at hrest ⊢
      omega

/-- Each position has the numbers from the weights before it up to its own. -/
theorem locate?_eq_some_iff {weights : List Nat} {r i : Nat} :
    locate? weights r = some i ↔ ∃ w, weights[i]? = some w ∧
      total (weights.take i) ≤ r ∧ r < total (weights.take i) + w := by
  induction weights generalizing r i with
  | nil => simp [locate?]
  | cons w ws ih =>
    by_cases hr : r < w
    · cases i with
      | zero => simp [locate?, hr, total]
      | succ i =>
        simp only [locate?, hr, if_true, List.take_succ_cons, total, List.sum_cons]
        constructor
        · intro h
          simp at h
        · rintro ⟨w', -, hlow, -⟩
          omega
    · cases i with
      | zero => simp [locate?, hr, total]
      | succ i =>
        simp only [locate?, hr, if_false, Option.map_eq_some_iff, Nat.succ.injEq, exists_eq_right,
          ih, List.getElem?_cons_succ, List.take_succ_cons, total, List.sum_cons]
        apply exists_congr
        intro w'
        apply and_congr_right
        intro _
        omega

/-- The bound of the number that decides a draw. -/
def drawBound (weights : List Nat) : Nat :=
  if total weights = 0 then weights.length else total weights

/-- Where a word that comes next makes a draw stop. A word that is rejected stops it nowhere. -/
def stop? (weights : List Nat) (v : UInt64) : Option Nat :=
  if keeps (drawBound weights) v = true then
    if total weights = 0 then some (scaled (drawBound weights) v)
    else locate? weights (scaled (drawBound weights) v)
  else none

theorem stop?_eq_some_iff {weights : List Nat} {v : UInt64} {i : Nat} :
    stop? weights v = some i ↔ keeps (drawBound weights) v = true ∧
      if total weights = 0 then scaled (drawBound weights) v = i
      else locate? weights (scaled (drawBound weights) v) = some i := by
  unfold stop?
  by_cases hkeeps : keeps (drawBound weights) v = true
  · by_cases hzero : total weights = 0
    · simp [hkeeps, hzero]
    · simp [hkeeps, hzero]
  · simp [hkeeps]

section Weights

variable {weights : List Nat} {v : UInt64} {i w : Nat}

theorem drawBound_pos (h : weights ≠ []) : 0 < drawBound weights := by
  have hlen := List.length_pos_iff.mpr h
  unfold drawBound
  split <;> omega

theorem not_keeps_of_stop? (hw : weights ≠ []) (h : stop? weights v = none) :
    keeps (drawBound weights) v = false := by
  rw [Bool.eq_false_iff]
  intro hkeeps
  have hlt := scaled_lt (drawBound_pos hw) v
  by_cases hzero : total weights = 0
  · simp [stop?, hkeeps, hzero] at h
  · rw [drawBound, if_neg hzero] at hkeeps hlt
    obtain ⟨k, -, hk, -⟩ := locate?_of_lt_total hlt
    simp [stop?, drawBound, hkeeps, hzero, hk] at h

theorem stop?_lt (hw : weights ≠ []) (h : stop? weights v = some i) : i < weights.length := by
  have hrule := (stop?_eq_some_iff.mp h).2
  by_cases hzero : total weights = 0
  · rw [if_pos hzero] at hrule
    have hlt := scaled_lt (drawBound_pos hw) v
    rwa [hrule, drawBound, if_pos hzero] at hlt
  · rw [if_neg hzero] at hrule
    obtain ⟨w, hw, -⟩ := locate?_eq_some_iff.mp hrule
    exact (List.getElem?_eq_some_iff.mp hw).1

theorem ncard_stop? (hlen : weights.length < UInt64.size) (htotal : total weights < UInt64.size)
    (h : weights[i]? = some w) :
    {v | stop? weights v = some i}.ncard =
      if total weights = 0 then 2 ^ leadingZeros weights.length
      else w * 2 ^ leadingZeros (total weights) := by
  simp only [stop?_eq_some_iff]
  by_cases hzero : total weights = 0
  · simp only [drawBound, hzero, if_true]
    exact ncard_scaled_eq (List.getElem?_eq_some_iff.mp h).1 hlen
  · simp only [drawBound, hzero, if_false, locate?_eq_some_iff, h, Option.some.injEq,
      exists_eq_left']
    exact ncard_scaled_between (total_take_add_le h) htotal

end Weights

section Sources

variable {G : Type} [Generator G]

/-- The words that a source draws one after the other, counted from zero. -/
def nthWord : Nat → G → UInt64
  | 0, g => (Generator.next g).1
  | t + 1, g => nthWord t (Generator.next g).2

/-- A sample below the bound returns: a word is kept before the rejections run out. -/
def Settles (n : Nat) (g : G) : Prop := ∃ t < maxRejections, keeps n (nthWord t g) = true

theorem belowWithin_of_keeps {n : Nat} {g : G} (h : keeps n (Generator.next g).1 = true)
    (attempts : Nat) :
    belowWithin n attempts g = (scaled n (Generator.next g).1, (Generator.next g).2) := by
  cases attempts with
  | zero => rfl
  | succ attempts => simp [belowWithin, h]

/-- A bound on the rejections that is not reached makes no difference. -/
theorem belowWithin_congr {n t k l : Nat} {g : G} (h : keeps n (nthWord t g) = true)
    (hk : t ≤ k) (hl : t ≤ l) : belowWithin n k g = belowWithin n l g := by
  induction t generalizing k l g with
  | zero => rw [belowWithin_of_keeps h, belowWithin_of_keeps h]
  | succ t ih =>
    by_cases hfirst : keeps n (Generator.next g).1 = true
    · rw [belowWithin_of_keeps hfirst, belowWithin_of_keeps hfirst]
    · cases k with
      | zero => omega
      | succ k =>
        cases l with
        | zero => omega
        | succ l =>
          simp only [belowWithin, hfirst]
          exact ih h (by omega) (by omega)

theorem below_of_keeps {n : Nat} {g : G} (h : keeps n (Generator.next g).1 = true) :
    below n g = (scaled n (Generator.next g).1, (Generator.next g).2) :=
  belowWithin_of_keeps h _

theorem below_of_rejected {n : Nat} {g : G} (h : keeps n (Generator.next g).1 = false)
    (hsettles : Settles n (Generator.next g).2) : below n g = below n (Generator.next g).2 := by
  obtain ⟨t, ht, hkeeps⟩ := hsettles
  unfold below
  generalize maxRejections = rejections at ht ⊢
  cases rejections with
  | zero => omega
  | succ rejections =>
    rw [← belowWithin_congr hkeeps (by omega : t ≤ rejections) (by omega)]
    simp [belowWithin, h]

/-- The number that is drawn decides the position. -/
theorem drawPosition_eq (weights : List Nat) (g : G) :
    drawPosition weights g =
      (if total weights = 0 then (below (drawBound weights) g).1
        else (locate? weights (below (drawBound weights) g).1).getD (lastPositive weights),
      (below (drawBound weights) g).2) := by
  unfold drawPosition drawBound
  split <;> rfl

theorem drawPosition_of_stop? {weights : List Nat} {g : G} {i : Nat}
    (h : stop? weights (Generator.next g).1 = some i) :
    drawPosition weights g = (i, (Generator.next g).2) := by
  obtain ⟨hkeeps, hrule⟩ := stop?_eq_some_iff.mp h
  rw [drawPosition_eq, below_of_keeps hkeeps]
  by_cases hzero : total weights = 0
  · rw [if_pos hzero] at hrule
    simp [hzero, hrule]
  · rw [if_neg hzero] at hrule
    simp [hzero, hrule]

theorem drawPosition_of_rejected {weights : List Nat} {g : G} (hw : weights ≠ [])
    (h : stop? weights (Generator.next g).1 = none)
    (hsettles : Settles (drawBound weights) (Generator.next g).2) :
    drawPosition weights g = drawPosition weights (Generator.next g).2 := by
  rw [drawPosition_eq, drawPosition_eq, below_of_rejected (not_keeps_of_stop? hw h) hsettles]

/-- Any source that draws the word next makes the draw stop at the position, with no other
word drawn. -/
def StopsAt (weights : List Nat) (i : Nat) (v : UInt64) : Prop :=
  ∀ (G : Type) [Generator G] (g : G), (Generator.next g).1 = v →
    drawPosition weights g = (i, (Generator.next g).2)

theorem keeps_zero {n : Nat} (hn : 0 < n) : keeps n 0 = true := by
  have hzone : 0 < zone n := by
    rw [zone_eq_mul]
    exact Nat.mul_pos (Nat.two_pow_pos _) hn
  simpa [keeps] using hzone

/-- After a rejected word a list of words goes on to another one, so that the draw tells
the two apart. -/
theorem stopsAt_iff {weights : List Nat} (hw : weights ≠ []) {i : Nat} {v : UInt64} :
    StopsAt weights i v ↔ stop? weights v = some i := by
  constructor
  · intro h
    have hdraw := h WordList ⟨[v], 0⟩ rfl
    cases hstop : stop? weights v with
    | some j =>
      rw [drawPosition_of_stop? (g := (⟨[v], 0⟩ : WordList)) hstop] at hdraw
      rw [(Prod.mk.inj hdraw).1]
    | none =>
      have hzero := keeps_zero (drawBound_pos hw)
      have hsettles : Settles (drawBound weights) (⟨[], 1⟩ : WordList) := ⟨0, by decide, hzero⟩
      rw [drawPosition_of_rejected (g := (⟨[v], 0⟩ : WordList)) hw hstop hsettles] at hdraw
      cases hnext : stop? weights 0 with
      | none => simp [not_keeps_of_stop? hw hnext] at hzero
      | some j =>
        have hafter := drawPosition_of_stop? (g := (⟨[], 1⟩ : WordList)) hnext
        have hboth := congrArg (fun d => d.2.drawn) (hafter.symm.trans hdraw)
        simp [Generator.next] at hboth
  · intro h G _ g hv
    exact drawPosition_of_stop? (hv ▸ h)

/-- Among all words exactly these shares stop at each position, and so take the candidate
there; the others are rejected, and the pick starts over with what is drawn after them.
No word takes one of the most loaded while the loads differ. The number of candidates and
the sum of their weights, which bound what is drawn, are words themselves. -/
theorem pick_shares_words {eligible : List Instance} {load : Load} (htwo : 2 ≤ eligible.length)
    (hlen : eligible.length < UInt64.size)
    (htotal : total (weightsOf (eligible.map load.of)) < UInt64.size) :
    let most := maximum (eligible.map load.of)
    let weights := weightsOf (eligible.map load.of)
    (∀ i a, eligible[i]? = some a → {v | StopsAt weights i v}.ncard =
      if total weights = 0 then 2 ^ leadingZeros eligible.length
      else (most - load.of a) * 2 ^ leadingZeros (total weights)) ∧
    (∀ i v, StopsAt weights i v → ∃ a, eligible[i]? = some a ∧
      ∀ (G : Type) [Generator G] (g : G), (Generator.next g).1 = v →
        pick eligible load g = (some a, (Generator.next g).2)) ∧
    (∀ v, (∀ i, ¬ StopsAt weights i v) →
      ∀ (G : Type) [Generator G] (g : G), (Generator.next g).1 = v →
        Settles (drawBound weights) (Generator.next g).2 →
        pick eligible load g = pick eligible load (Generator.next g).2) ∧
    ∀ (G : Type) [Generator G] (g : G) (a : Instance), (pick eligible load g).1 = some a →
      (∃ j ∈ eligible, ∃ k ∈ eligible, load.of j ≠ load.of k) → load.of a < most := by
  intro most weights
  have hweights : weights.length = eligible.length := by simp [weights, weightsOf]
  have hw : weights ≠ [] := by
    intro hnil
    simp [hnil] at hweights
    omega
  refine ⟨?_, ?_, ?_, ?_⟩
  · intro i a ha
    simp only [stopsAt_iff hw]
    have hi : weights[i]? = some (most - load.of a) := by simp [weights, weightsOf, most, ha]
    rw [ncard_stop? (hweights ▸ hlen) htotal hi, hweights]
  · intro i v h
    have hi := stop?_lt hw ((stopsAt_iff hw).mp h)
    rw [hweights] at hi
    refine ⟨eligible[i], List.getElem?_eq_getElem hi, ?_⟩
    intro G _ g hv
    rw [pick_eq_of_two_le htwo, h G g hv, List.getElem?_eq_getElem hi]
  · intro v hnone G _ g hv hsettles
    have hstop : stop? weights (Generator.next g).1 = none := by
      rw [hv, Option.eq_none_iff_forall_ne_some]
      intro i hi
      exact hnone i ((stopsAt_iff hw).mpr hi)
    rw [pick_eq_of_two_le htwo, pick_eq_of_two_le htwo, drawPosition_of_rejected hw hstop hsettles]
  · intro G _ g a hpick hdiffer
    rcases lighter_or_level_of_pick hpick with ⟨j, hj, hlt⟩ | hlevel
    · exact Nat.lt_of_lt_of_le hlt (le_maximum (List.mem_map_of_mem hj))
    · obtain ⟨j, hj, k, hk, hne⟩ := hdiffer
      exact absurd ((hlevel j hj).trans (hlevel k hk).symm) hne

/-- Loads of one, two and three: of the words that are kept two thirds, one third and none. -/
theorem pick_shares_words_thirds :
    let load : Load := .ofList [("R1", 1), ("R2", 2), ("R3", 3)]
    let weights := weightsOf (["R1", "R2", "R3"].map load.of)
    weights = [2, 1, 0] ∧ {v | StopsAt weights 0 v}.ncard = 2 * 2 ^ 62 ∧
      {v | StopsAt weights 1 v}.ncard = 1 * 2 ^ 62 ∧ {v | StopsAt weights 2 v}.ncard = 0 := by
  intro load weights
  have hweights : weights = [2, 1, 0] := by decide +kernel
  have htotal : total weights = 3 := by rw [hweights]; rfl
  have hmost : maximum (["R1", "R2", "R3"].map load.of) = 3 := by decide +kernel
  have hloads : load.of "R1" = 1 ∧ load.of "R2" = 2 ∧ load.of "R3" = 3 := by decide +kernel
  have hzeros : leadingZeros 3 = 62 := by decide +kernel
  obtain ⟨hshares, -⟩ := @pick_shares_words ["R1", "R2", "R3"] load (by decide)
    (by decide) (by change total weights < _; rw [htotal]; decide)
  change ∀ i a, _ → {v | StopsAt weights i v}.ncard = if total weights = 0 then _ else
    (_ - load.of a) * 2 ^ leadingZeros (total weights) at hshares
  rw [htotal, hmost, hzeros] at hshares
  refine ⟨hweights, ?_, ?_, ?_⟩
  · rw [hshares 0 "R1" rfl, hloads.1, if_neg (by decide)]
  · rw [hshares 1 "R2" rfl, hloads.2.1, if_neg (by decide)]
  · rw [hshares 2 "R3" rfl, hloads.2.2, if_neg (by decide), Nat.sub_self, Nat.zero_mul]

end Sources

end SegmentRouting
