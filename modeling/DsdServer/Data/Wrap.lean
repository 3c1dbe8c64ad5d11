import Mathlib.Data.Int.ModEq

/-!
# Data/Wrap — counters that wrap

A counter of `N` values that is counted up past its last starts over: it loses a whole turn.  So of
a sum it shows what is left over from whole turns, whatever the order in which the parts were added,
and all of the sum as long as that is one of its values.  `Turns N a b` says that `b` is `a` and
some turns; with `N = 0` there is nothing to lose, and it says that they are the same.
-/

/-- **`b` is `a`, and whole turns** of a counter of `N` values. -/
def Turns (N a b : ℕ) : Prop := ∃ t, b = a + t * N

namespace Turns

variable {N a b c d : ℕ}

theorem refl (N a : ℕ) : Turns N a a := ⟨0, by rw [Nat.zero_mul, Nat.add_zero]⟩

/-- What the counter shows of a number. -/
theorem mod (N a : ℕ) : Turns N (a % N) a := ⟨a / N, (Nat.mod_add_div' a N).symm⟩

theorem trans (h : Turns N a b) (h' : Turns N b c) : Turns N a c := by
  obtain ⟨t, rfl⟩ := h
  obtain ⟨u, rfl⟩ := h'
  exact ⟨t + u, by rw [Nat.add_mul, Nat.add_assoc]⟩

/-- **Turns add up.** -/
theorem add (h : Turns N a b) (h' : Turns N c d) : Turns N (a + c) (b + d) := by
  obtain ⟨t, rfl⟩ := h
  obtain ⟨u, rfl⟩ := h'
  exact ⟨t + u, by rw [Nat.add_mul, Nat.add_add_add_comm]⟩

/-- What is added to both does not matter. -/
theorem add_right (h : Turns N a b) (c : ℕ) : Turns N (a + c) (b + c) := h.add (refl N c)

/-- Two numbers that whole turns set apart are one to the counter. -/
theorem modEq (h : Turns N a b) : a ≡ b [MOD N] := by
  obtain ⟨t, rfl⟩ := h
  rw [Nat.ModEq, Nat.add_mul_mod_self_right]

/-- **Nothing is lost of a number that the counter has.** -/
theorem eq_of_lt (h : Turns N a b) (hb : b < N) : a = b := by
  obtain ⟨t, rfl⟩ := h
  rcases t with _ | t
  · rw [Nat.zero_mul, Nat.add_zero]
  · have : N ≤ (t + 1) * N := Nat.le_mul_of_pos_left N (Nat.succ_pos t)
    omega

end Turns
