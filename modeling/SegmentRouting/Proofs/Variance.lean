import Mathlib.Algebra.BigOperators.Group.List.Basic
import Mathlib.Algebra.Order.BigOperators.Group.List
import Mathlib.Algebra.Order.Ring.Rat
import Mathlib.Tactic.Linarith
import Mathlib.Tactic.Ring
import SegmentRouting.RoutingTable

/-! The variance of counts. Counts that differ by at most one have the least
variance of all with the same number and total. -/

namespace SegmentRouting

def mean (ns : List Nat) : ℚ := total ns / ns.length

def variance (ns : List Nat) : ℚ :=
  (ns.map (fun (n : Nat) => ((n : ℚ) - mean ns) ^ 2)).sum / ns.length

/-- All but the first sum depends on the number and the total alone. -/
theorem sum_sq_sub (ns : List Nat) (q μ : ℚ) :
    (ns.map (fun (n : Nat) => ((n : ℚ) - μ) ^ 2)).sum =
      (ns.map (fun (n : Nat) => ((n : ℚ) - q) * (n - (q + 1)))).sum +
        (2 * q + 1 - 2 * μ) * total ns + ns.length * (μ ^ 2 - q * (q + 1)) := by
  induction ns with
  | nil => simp [total]
  | cons n ns ih =>
    simp only [List.map_cons, List.sum_cons, total, List.length_cons, ih]
    push_cast
    ring

theorem mul_pred_nonneg (n q : Nat) : 0 ≤ ((n : ℚ) - q) * (n - (q + 1)) := by
  by_cases h : n ≤ q
  · have hle : (n : ℚ) ≤ q := by exact_mod_cast h
    exact mul_nonneg_of_nonpos_of_nonpos (by linarith) (by linarith)
  · have hle : (q : ℚ) + 1 ≤ n := by exact_mod_cast (by omega : q + 1 ≤ n)
    exact mul_nonneg (by linarith) (by linarith)

theorem variance_le_of_level {ms ns : List Nat} {q : Nat} (hlen : ms.length = ns.length)
    (htotal : total ms = total ns) (hms : ∀ m ∈ ms, m = q ∨ m = q + 1) :
    variance ms ≤ variance ns := by
  have hmean : mean ms = mean ns := by rw [mean, mean, hlen, htotal]
  have hzero : (ms.map (fun (m : Nat) => ((m : ℚ) - q) * (m - (q + 1)))).sum = 0 := by
    apply List.sum_eq_zero
    intro x hx
    obtain ⟨m, hm, rfl⟩ := List.mem_map.mp hx
    rcases hms m hm with rfl | rfl
    · ring
    · push_cast
      ring
  have hnonneg : 0 ≤ (ns.map (fun (n : Nat) => ((n : ℚ) - q) * (n - (q + 1)))).sum := by
    apply List.sum_nonneg
    intro x hx
    obtain ⟨n, -, rfl⟩ := List.mem_map.mp hx
    exact mul_pred_nonneg n q
  rw [variance, variance, sum_sq_sub ms q, sum_sq_sub ns q, hmean, hlen, htotal, hzero]
  apply div_le_div_of_nonneg_right
  · linarith
  · exact Nat.cast_nonneg _

end SegmentRouting
