import SegmentRouting.Proofs.ChosenDraws
import SegmentRouting.Proofs.LoadTally

/-! Tables built with numbers of 64 bits. Here it is a fault to leave their range, to draw
from an empty range, or to miss a position. As long as the number of segments times the most
candidates of any fits, no step is at fault, and each does what it does with unbounded numbers. -/

namespace SegmentRouting

inductive WordFault where
  | overflow
  | underflow
  | emptyRange
  | noPosition
  | pastWeights
deriving DecidableEq, Repr

namespace Checked

def add (a b : Nat) : Except WordFault Nat :=
  if a + b < UInt64.size then .ok (a + b) else .error .overflow

def sub (a b : Nat) : Except WordFault Nat :=
  if b ≤ a then .ok (a - b) else .error .underflow

/-- Each partial sum has to fit. -/
def sum : Nat → List Nat → Except WordFault Nat
  | acc, [] => .ok acc
  | acc, n :: ns => do
    let acc ← add acc n
    sum acc ns

def weights (loads : List Nat) : Except WordFault (List Nat) := loads.mapM (sub (maximum loads))

/-- No position stands in for one that the walk does not find. -/
def walk : List Nat → Nat → Except WordFault Nat
  | [], _ => .error .pastWeights
  | w :: ws, r =>
    if w = 0 then (walk ws r).map (· + 1)
    else if r < w then .ok 0
    else do
      let r ← sub r w
      (walk ws r).map (· + 1)

variable {G : Type} [Generator G]

def draw (n : Nat) (g : G) : Except WordFault (Nat × G) :=
  if n = 0 then .error .emptyRange else .ok (below n g)

def drawPosition (weights : List Nat) (g : G) : Except WordFault (Nat × G) := do
  let sum ← sum 0 weights
  if sum = 0 then draw weights.length g
  else
    let (r, g) ← draw sum g
    let k ← walk weights r
    return (k, g)

def pick (eligible : List Instance) (load : Load) (g : G) :
    Except WordFault (Option Instance × G) :=
  match eligible with
  | [] => .ok (none, g)
  | [only] => .ok (some only, g)
  | _ => do
    let weights ← weights (eligible.map load.of)
    let (position, g) ← drawPosition weights g
    match eligible[position]? with
    | some i => .ok (some i, g)
    | none => .error .noPosition

def place (p : Progress G) (c : Candidates) : Except WordFault (Progress G) := do
  match ← pick c.eligible.toList p.load p.source with
  | (none, source) => return ⟨p.table, p.load, source⟩
  | (some i, source) =>
    let n ← add (p.load.of i) 1
    return ⟨p.table.add i c.segment, p.load.insert i n, source⟩

def assign (c : Coverage) (g : G) : Except WordFault (RoutingTable × G) := do
  let done ← c.placementOrder.foldlM place ⟨.empty, .empty, g⟩
  return (done.table, done.source)

theorem sum_eq {acc : Nat} {ns : List Nat} (h : acc + total ns < UInt64.size) :
    sum acc ns = .ok (acc + total ns) := by
  induction ns generalizing acc with
  | nil => rfl
  | cons n ns ih =>
    rw [total, List.sum_cons, ← Nat.add_assoc] at h ⊢
    have hn : acc + n < UInt64.size := by omega
    simp only [sum, add, if_pos hn, bind, Except.bind]
    exact ih h

example : sum 0 [1 <<< 63, 1 <<< 63] = .error .overflow := by decide

theorem mapM_sub {most : Nat} {ns : List Nat} (h : ∀ n ∈ ns, n ≤ most) :
    ns.mapM (sub most) = .ok (ns.map (most - ·)) := by
  induction ns with
  | nil => rfl
  | cons n ns ih =>
    have hn := h n List.mem_cons_self
    have hrest := ih fun m hm => h m (List.mem_cons_of_mem n hm)
    rw [List.mapM_cons, sub, if_pos hn, hrest]
    rfl

theorem weights_eq (loads : List Nat) : weights loads = .ok (weightsOf loads) :=
  mapM_sub fun _ hn => le_maximum hn

theorem walk_eq {ws : List Nat} {r k : Nat} (h : locate? ws r = some k) : walk ws r = .ok k := by
  induction ws generalizing r k with
  | nil => contradiction
  | cons w ws ih =>
    rw [locate?] at h
    rw [walk]
    by_cases hr : r < w
    · rw [if_pos hr] at h
      rw [if_neg (Nat.ne_of_gt (Nat.zero_lt_of_lt hr)), if_pos hr, Option.some.inj h]
    · rw [if_neg hr] at h
      obtain ⟨k, hk, rfl⟩ := Option.map_eq_some_iff.mp h
      by_cases hw : w = 0
      · subst hw
        rw [if_pos rfl]
        exact congrArg (Except.map (· + 1)) (ih hk)
      · rw [if_neg hw, if_neg hr, sub, if_pos (Nat.le_of_not_lt hr)]
        exact congrArg (Except.map (· + 1)) (ih hk)

theorem draw_eq {n : Nat} (h : 0 < n) (g : G) : draw n g = .ok (below n g) :=
  if_neg (Nat.ne_of_gt h)

theorem drawPosition_eq {weights : List Nat} (hne : weights ≠ [])
    (htotal : total weights < UInt64.size) (g : G) :
    drawPosition weights g = .ok (SegmentRouting.drawPosition weights g) := by
  have hsum : sum 0 weights = .ok (0 + total weights) := sum_eq (by omega)
  rw [Nat.zero_add] at hsum
  by_cases hzero : total weights = 0
  · simp only [drawPosition, SegmentRouting.drawPosition, hsum, hzero, if_pos, bind, Except.bind]
    exact draw_eq (List.length_pos_iff.mpr hne) g
  · have hpos := Nat.pos_of_ne_zero hzero
    obtain ⟨k, w, hk, -, -⟩ := locate?_of_lt_total (below_lt hpos g)
    simp only [drawPosition, SegmentRouting.drawPosition, hsum, if_neg hzero, draw_eq hpos,
      walk_eq hk, hk, Option.getD_some, bind, Except.bind]
    rfl

theorem pick_eq {eligible : List Instance} {load : Load} {m : Nat} (hm : ∀ i, load.of i ≤ m)
    (hbound : m * eligible.length < UInt64.size) (g : G) :
    pick eligible load g = .ok (SegmentRouting.pick eligible load g) := by
  match eligible with
  | [] => rfl
  | [only] => rfl
  | a :: b :: rest =>
    have hloads : ∀ n ∈ (a :: b :: rest).map load.of, n ≤ m := by
      intro n hn
      obtain ⟨i, -, rfl⟩ := List.mem_map.mp hn
      exact hm i
    have htotal := total_weightsOf_le hloads
    rw [List.length_map] at htotal
    have hne : weightsOf ((a :: b :: rest).map load.of) ≠ [] := by simp [weightsOf]
    have hlt := SegmentRouting.drawPosition_lt hne g
    have hposition := drawPosition_eq hne (by omega) g
    rw [weightsOf, List.length_map, List.length_map, ← weightsOf] at hlt
    rw [pick_eq_of_two_le (by simp), List.getElem?_eq_getElem hlt]
    simp only [pick, weights_eq, hposition, List.getElem?_eq_getElem hlt, bind, Except.bind]

theorem place_eq {p : Progress G} {c : Candidates} {n : Nat} (hload : ∀ i, p.load.of i < n)
    (hbound : n * c.eligible.size < UInt64.size) : place p c = .ok (p.place c) := by
  have hm : ∀ i, p.load.of i ≤ n := fun i => Nat.le_of_lt (hload i)
  rw [place, Progress.place, pick_eq hm hbound]
  cases hpick : SegmentRouting.pick c.eligible.toList p.load p.source with
  | mk choice source =>
    cases choice with
    | none => rfl
    | some i =>
      have hi : 0 < c.eligible.size := by
        rcases p.choice_cases c with ⟨-, hnone⟩ | ⟨hne, -⟩
        · rw [Progress.choice, hpick] at hnone
          contradiction
        · exact List.length_pos_iff.mpr (List.isEmpty_eq_false_iff.mp hne)
      have hle : n ≤ n * c.eligible.size := Nat.le_mul_of_pos_right n hi
      have hown := hload i
      have hfits : p.load.of i + 1 < UInt64.size := by omega
      simp only [add, if_pos hfits, bind, Except.bind]
      rfl

theorem foldlM_place {cs : List Candidates} {p : Progress G} {n k : Nat}
    (hload : ∀ i, p.load.of i + cs.length ≤ n) (hk : ∀ e ∈ cs, e.eligible.size ≤ k)
    (hbound : n * k < UInt64.size) : cs.foldlM place p = .ok (cs.foldl Progress.place p) := by
  induction cs generalizing p with
  | nil => rfl
  | cons c cs ih =>
    have hc : n * c.eligible.size ≤ n * k := Nat.mul_le_mul_left n (hk c List.mem_cons_self)
    have hnow : place p c = .ok (p.place c) := by
      apply place_eq (n := n) _ (by omega)
      intro i
      have hi := hload i
      rw [List.length_cons] at hi
      omega
    have hnext : ∀ i, (p.place c).load.of i + cs.length ≤ n := by
      intro i
      have hi := hload i
      rw [List.length_cons] at hi
      rw [Progress.load_place]
      split <;> omega
    rw [List.foldlM_cons, hnow]
    exact ih hnext fun e he => hk e (List.mem_cons_of_mem c he)

end Checked

namespace Coverage

variable {c : Coverage} {G : Type} [Generator G]

/-- After each placement the checked table stands where the unchecked one does. The same
segment may have several entries. -/
theorem assign_without_fault {k : Nat} (hk : ∀ e ∈ c.entries, e.eligible.size ≤ k)
    (hbound : c.entries.length * k < UInt64.size) (g : G) :
    (∀ placed rest, c.placementOrder = placed ++ rest →
      placed.foldlM Checked.place ⟨.empty, .empty, g⟩ =
          .ok (placed.foldl Progress.place ⟨.empty, .empty, g⟩) ∧
        ∀ i, (placed.foldl Progress.place ⟨.empty, .empty, g⟩).load.of i ≤ c.entries.length) ∧
      Checked.assign c g = .ok (c.assign g) := by
  have hlen := c.perm_placementOrder.length_eq
  have hsize : ∀ e ∈ c.placementOrder, e.eligible.size ≤ k := by
    intro e he
    exact hk e (c.perm_placementOrder.mem_iff.mp he)
  have hzero : ∀ i, (⟨.empty, .empty, g⟩ : Progress G).load.of i = 0 := fun _ => rfl
  have hrun : ∀ placed rest, c.placementOrder = placed ++ rest →
      placed.foldlM Checked.place ⟨.empty, .empty, g⟩ =
        .ok (placed.foldl Progress.place ⟨.empty, .empty, g⟩) := by
    intro placed rest h
    rw [h, List.length_append] at hlen
    apply Checked.foldlM_place (n := c.entries.length) _ _ hbound
    · intro i
      rw [hzero]
      omega
    · intro e he
      exact hsize e (by simp [h, he])
  refine ⟨?_, ?_⟩
  · intro placed rest h
    refine ⟨hrun placed rest h, ?_⟩
    intro i
    rw [h, List.length_append] at hlen
    have hcount := Progress.load_foldl_le hzero placed i
    omega
  · rw [Checked.assign, hrun c.placementOrder [] (List.append_nil _).symm]
    rfl

/-- Two entries for one segment, one without candidates, and a pinned segment. -/
theorem assign_without_fault_repeated_name :
    let c : Coverage := ⟨"t", [⟨"s", .ofList ["A", "B"]⟩, ⟨"s", .ofList ["A", "B"]⟩,
      ⟨"gap", .empty⟩, ⟨"pinned", .ofList ["A"]⟩]⟩
    let g : WordList := ⟨[3, 5], 0⟩
    (∀ e ∈ c.entries, e.eligible.size ≤ 2) ∧ c.entries.length * 2 < UInt64.size ∧
      Checked.assign c g = .ok (c.assign g) ∧
      (c.assign g).1 = RoutingTable.ofPairs [("A", "pinned"), ("B", "s"), ("A", "s")] := by
  intro c g
  have hk : ∀ e ∈ c.entries, e.eligible.size ≤ 2 := by decide +kernel
  have hbound : c.entries.length * 2 < UInt64.size := by decide
  refine ⟨hk, hbound, (assign_without_fault hk hbound g).2, ?_⟩
  rw [assign, placementOrder_eq_insertionSort]
  decide +kernel

end Coverage

end SegmentRouting
