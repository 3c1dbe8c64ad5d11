import Mathlib.Data.List.Basic
import Mathlib.Tactic.Ring

/-!
# Data/Stride — a loop that goes on by a fixed step

The positions `start, start + d, start + 2d, …` below a bound, and where the loop stops.  A loop
that goes on from where another stopped makes up one loop with it: `visit_append`.

Only a step that is not zero ends; every lemma has that as a hypothesis.  `visit_induction` is the
induction over a loop, from the position it is at to the next.
-/

namespace Stride

/-- `for (i = start; i < n; i += d)`: the positions visited, and where it stops. -/
def visit (d n i : ℕ) : List ℕ × ℕ :=
  if _h : i < n ∧ 0 < d then
    let r := visit d n (i + d)
    (i :: r.1, r.2)
  else ([], i)
termination_by n - i

variable {d n m i j o : ℕ}

/-- Below the bound there is a position more. -/
theorem visit_of_lt (hd : 0 < d) (hi : i < n) :
    visit d n i = (i :: (visit d n (i + d)).1, (visit d n (i + d)).2) := by
  rw [visit, dif_pos ⟨hi, hd⟩]

/-- At the bound the loop stops where it is. -/
theorem visit_of_le (hi : n ≤ i) : visit d n i = ([], i) := by
  rw [visit, dif_neg]
  omega

/-- Induction along the loop. -/
theorem visit_induction {P : ℕ → Prop} (hd : 0 < d) (stop : ∀ i, n ≤ i → P i)
    (next : ∀ i, i < n → P (i + d) → P i) (i : ℕ) : P i := by
  by_cases hi : n ≤ i
  · exact stop i hi
  · exact next i (not_le.1 hi) (visit_induction hd stop next (i + d))
termination_by n - i

/-- **The positions visited** are those in the range that are a multiple of the step from its
start. -/
theorem mem_visit (hd : 0 < d) : ∀ i, j ∈ (visit d n i).1 ↔ i ≤ j ∧ j < n ∧ d ∣ j - i := by
  refine visit_induction (n := n) hd (fun i hi => ?_) fun i hi ih => ?_
  · rw [visit_of_le hi]
    refine iff_of_false List.not_mem_nil fun h => ?_
    omega
  · rw [visit_of_lt hd hi, List.mem_cons, ih]
    constructor
    · rintro (rfl | ⟨hle, hlt, hdvd⟩)
      · exact ⟨le_rfl, hi, by rw [Nat.sub_self]; exact dvd_zero d⟩
      · refine ⟨by omega, hlt, ?_⟩
        have hsum : j - i = (j - (i + d)) + d := by omega
        rw [hsum]
        exact Nat.dvd_add hdvd (Nat.dvd_refl d)
    · rintro ⟨hle, hlt, k, hk⟩
      rcases k with _ | k
      · left
        omega
      · right
        have hmul : d * (k + 1) = d * k + d := Nat.mul_succ d k
        exact ⟨by omega, hlt, k, by omega⟩

/-- **A loop is cut in two** where its first part stops. -/
theorem visit_append (hd : 0 < d) (hnm : n ≤ m) : ∀ i, visit d m i =
    ((visit d n i).1 ++ (visit d m (visit d n i).2).1, (visit d m (visit d n i).2).2) := by
  refine visit_induction (n := n) hd (fun i hi => ?_) fun i hi ih => ?_
  · rw [visit_of_le hi]
    rfl
  · rw [visit_of_lt hd hi, visit_of_lt hd (hi.trans_le hnm), ih]
    rfl

/-- The loop stops at the first position on its way that is not in the range. -/
theorem visit_stop (hd : 0 < d) : ∀ i, i < n + d →
    n ≤ (visit d n i).2 ∧ (visit d n i).2 < n + d ∧ i ≤ (visit d n i).2 ∧
      d ∣ (visit d n i).2 - i := by
  refine visit_induction (n := n) hd (fun i hi h => ?_) fun i hi ih h => ?_
  · rw [visit_of_le hi]
    exact ⟨hi, h, le_rfl, by rw [Nat.sub_self]; exact dvd_zero d⟩
  · obtain ⟨h1, h2, h3, h4⟩ := ih (by omega)
    rw [visit_of_lt hd hi]
    refine ⟨h1, h2, by omega, ?_⟩
    have hsum : (visit d n (i + d)).2 - i = ((visit d n (i + d)).2 - (i + d)) + d := by omega
    rw [hsum]
    exact Nat.dvd_add h4 (Nat.dvd_refl d)

/-- The loop elsewhere. -/
theorem visit_shift (hd : 0 < d) (o : ℕ) : ∀ i, visit d (o + n) (o + i) =
    ((visit d n i).1.map (o + ·), o + (visit d n i).2) := by
  refine visit_induction (n := n) hd (fun i hi => ?_) fun i hi ih => ?_
  · rw [visit_of_le hi, visit_of_le (by omega)]
    rfl
  · rw [visit_of_lt hd hi, visit_of_lt hd (by omega : o + i < o + n), Nat.add_assoc, ih]
    rfl

end Stride
