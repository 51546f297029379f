import Mathlib.Data.List.Sort
import SegmentRouting.Assignment

/-! The order in which the entries of a coverage are placed. Stable sorts agree on it, so
that it can be computed by insertion, and entries with equally many candidates stand as
they stood. -/

namespace SegmentRouting

section Sorting

variable {α : Type} {le : α → α → Bool}

theorem mergeSort_eq_insertionSort
    (htrans : ∀ a b c, le a b = true → le b c = true → le a c = true)
    (htotal : ∀ a b, (le a b || le b a) = true) (l : List α) :
    l.mergeSort le = l.insertionSort (fun a b => le a b = true) := by
  induction l with
  | nil => simp
  | cons a l ih =>
    obtain ⟨front, back, hcons, htail, hfront⟩ := List.mergeSort_cons htrans htotal a l
    have hsorted := List.pairwise_mergeSort htrans htotal (a :: l)
    rw [hcons] at hsorted
    have hback := (List.pairwise_cons.mp (List.pairwise_append.mp hsorted).2.1).1
    have hskip : ∀ b ∈ front, decide ¬ le a b = true := by
      intro b hb
      simpa using hfront b hb
    rw [List.insertionSort_cons, ← ih, htail, hcons, List.orderedInsert_eq_take_drop,
      List.takeWhile_append_of_pos hskip, List.dropWhile_append_of_pos hskip]
    cases back with
    | nil => simp
    | cons b back => simp [hback b]

/-- Those that are equally placed, as `p` picks them out, stand as they stood. -/
theorem filter_mergeSort {p : α → Bool}
    (htrans : ∀ a b c, le a b = true → le b c = true → le a c = true)
    (htotal : ∀ a b, (le a b || le b a) = true)
    (hp : ∀ a b, p a = true → p b = true → le a b = true) (l : List α) :
    (l.mergeSort le).filter p = l.filter p := by
  have hsorted : (l.filter p).Pairwise (fun a b => le a b = true) := by
    apply List.pairwise_of_forall_mem_list
    intro a ha b hb
    exact hp a b (List.mem_filter.mp ha).2 (List.mem_filter.mp hb).2
  have hsub := (List.sublist_mergeSort htrans htotal hsorted List.filter_sublist).filter p
  simp only [List.filter_filter, Bool.and_self] at hsub
  exact (hsub.eq_of_length ((List.mergeSort_perm l le).filter p).length_eq.symm).symm

end Sorting

namespace Candidates

theorem sizeLE_trans (a b d : Candidates) (hab : a.sizeLE b = true) (hbd : b.sizeLE d = true) :
    a.sizeLE d = true := by
  rw [sizeLE, decide_eq_true_iff] at hab hbd ⊢
  exact Nat.le_trans hab hbd

theorem sizeLE_total (a b : Candidates) : (a.sizeLE b || b.sizeLE a) = true := by
  rw [Bool.or_eq_true, sizeLE, sizeLE, decide_eq_true_iff, decide_eq_true_iff]
  exact Nat.le_total _ _

end Candidates

namespace Coverage

theorem placementOrder_eq_insertionSort (c : Coverage) :
    c.placementOrder = c.entries.insertionSort (fun a b => a.sizeLE b = true) :=
  mergeSort_eq_insertionSort Candidates.sizeLE_trans Candidates.sizeLE_total c.entries

theorem perm_placementOrder (c : Coverage) : c.placementOrder.Perm c.entries :=
  List.mergeSort_perm _ _

theorem pairwise_placementOrder (c : Coverage) :
    c.placementOrder.Pairwise (fun e e' => e.eligible.size ≤ e'.eligible.size) :=
  (List.pairwise_mergeSort Candidates.sizeLE_trans Candidates.sizeLE_total c.entries).imp
    of_decide_eq_true

/-- The entries with a number of candidates, in their order. -/
def ofSize (c : Coverage) (k : Nat) : List Candidates :=
  c.entries.filter (fun e => decide (e.eligible.size = k))

theorem filter_placementOrder (c : Coverage) (k : Nat) :
    c.placementOrder.filter (fun e => decide (e.eligible.size = k)) = c.ofSize k := by
  apply filter_mergeSort Candidates.sizeLE_trans Candidates.sizeLE_total
  intro a b ha hb
  simp only [Candidates.sizeLE, decide_eq_true_eq] at ha hb ⊢
  omega

end Coverage

end SegmentRouting
