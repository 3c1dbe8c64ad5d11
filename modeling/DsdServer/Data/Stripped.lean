import Mathlib.Data.List.DropRight
import Mathlib.Data.List.Infix

/-!
# Data/Stripped — words taken off the end of a list

Words of a set are taken off the end of a list until none is left there.  If none of them is a
proper suffix of another, what is left does not depend on which is taken when.
-/

/-- Words of `P` go from the end of `s`, and `t` is left. -/
def Strips {α : Type*} (P : List (List α)) (s t : List α) : Prop :=
  ∃ ps : List (List α), (∀ p ∈ ps, p ∈ P) ∧ s = t ++ ps.flatten

/-- …and then none is at its end. -/
structure Stripped {α : Type*} (P : List (List α)) (s t : List α) : Prop where
  strips : Strips P s t
  done : ∀ p ∈ P, ¬p <:+ t

/-- No word of `P` ends in another. -/
def SuffixFree {α : Type*} (P : List (List α)) : Prop := ∀ p ∈ P, ∀ q ∈ P, p <:+ q → p = q

section

variable {α : Type*} {P : List (List α)} {s t u : List α}

theorem Strips.refl (s : List α) : Strips P s s :=
  ⟨[], List.forall_mem_nil _, (List.append_nil s).symm⟩

/-- Taking off words can be interrupted. -/
theorem Strips.trans (h : Strips P s t) (h' : Strips P t u) : Strips P s u := by
  obtain ⟨ps, hps, rfl⟩ := h
  obtain ⟨qs, hqs, rfl⟩ := h'
  refine ⟨qs ++ ps, List.forall_mem_append.2 ⟨hqs, hps⟩, ?_⟩
  rw [List.flatten_append, List.append_assoc]

theorem Strips.word {p : List α} (hp : p ∈ P) (t : List α) : Strips P (t ++ p) t :=
  ⟨[p], List.forall_mem_singleton.2 hp, congrArg (t ++ ·) (List.append_nil p).symm⟩

theorem Strips.length_le (h : Strips P s t) : t.length ≤ s.length := by
  obtain ⟨ps, -, rfl⟩ := h
  rw [List.length_append]
  exact Nat.le_add_right _ _

/-- What nothing is taken off stays as it is. -/
theorem Strips.eq_of_length (h : Strips P s t) (hl : t.length = s.length) : t = s := by
  obtain ⟨ps, -, rfl⟩ := h
  rw [List.length_append] at hl
  rw [List.eq_nil_of_length_eq_zero (by omega : ps.flatten.length = 0), List.append_nil]

/-- **What is left does not depend on what is taken when.** -/
theorem Stripped.unique (hP : SuffixFree P) (h : Stripped P s t) (h' : Stripped P s u) : t = u := by
  obtain ⟨⟨ps, hps, rfl⟩, ht⟩ := h
  obtain ⟨⟨qs, hqs, hs⟩, hu⟩ := h'
  -- from the end, where the words of both must agree
  induction ps using List.reverseRecOn generalizing qs with
  | nil =>
    rw [List.flatten_nil, List.append_nil] at hs
    rcases List.eq_nil_or_concat qs with rfl | ⟨qs, q, rfl⟩
    · rwa [List.flatten_nil, List.append_nil] at hs
    · rw [List.concat_eq_append, List.flatten_concat, ← List.append_assoc] at hs
      exact absurd ⟨_, hs.symm⟩ (ht q (hqs q (by simp)))
  | append_singleton ps p ih =>
    rw [List.flatten_concat, ← List.append_assoc] at hs
    have hp := hps p (by simp)
    rcases List.eq_nil_or_concat qs with rfl | ⟨qs, q, rfl⟩
    · rw [List.flatten_nil, List.append_nil] at hs
      exact absurd ⟨_, hs⟩ (hu p hp)
    · rw [List.concat_eq_append] at hqs hs
      rw [List.flatten_concat, ← List.append_assoc] at hs
      have hq := hqs q (by simp)
      have hpq : p = q := by
        rcases List.suffix_or_suffix_of_suffix ⟨_, hs⟩ (List.suffix_append (u ++ qs.flatten) q) with
          h | h
        · exact hP p hp q hq h
        · exact (hP q hq p hp h).symm
      subst hpq
      exact ih (fun x hx => hps x (List.mem_append_left _ hx)) qs
        (fun x hx => hqs x (List.mem_append_left _ hx))
        (List.append_cancel_right hs)

end
