import Mathlib.Algebra.BigOperators.Group.List.Basic
import Mathlib.Algebra.BigOperators.Ring.List
import DsdServer.Data.Weight

/-!
# Data/Total — what the values of a map add up to, and the last entries of a list

A total in any commutative monoid: what changing one entry does to it.  A queue that keeps its
newest entries holds the last of all that were put in.
-/

namespace SortedMap

variable {K V A : Type*} [LinearOrder K] [AddCommMonoid A] (w : V → A)

/-- **What the values add up to.** -/
def total (m : SortedMap K V) : A := (m.entries.map fun e => w e.2).sum

/-- A present key's share, and the others'. -/
theorem total_of_find? {m : SortedMap K V} {k : K} {v : V} (h : m.find? k = some v) :
    m.total w = w v + (m.erase k).total w := by
  have hk : k ∉ m.erase k := fun hk => (mem_erase.1 hk).1 rfl
  have hp := (entries_insert_perm hk v).map fun e => w e.2
  rw [insert_erase h] at hp
  exact hp.sum_eq

/-- What is put under a key counts instead of what was there. -/
theorem total_insert (m : SortedMap K V) (k : K) (v : V) :
    (m.insert k v).total w = w v + (m.erase k).total w := by
  rw [total_of_find? w (find?_insert_self m k v), erase_insert]

/-- Values of the same weight add up to the same. -/
theorem total_congr {w w' : V → A} {m : SortedMap K V}
    (h : ∀ k v, m.find? k = some v → w v = w' v) :
    m.total w = m.total w' :=
  congrArg List.sum (List.map_congr_left fun e he => h e.1 e.2 (find?_eq_some_iff.2 he))

/-- A change that leaves every weight leaves the total. -/
theorem total_modify {g : V → V} (hg : ∀ v, w (g v) = w v) (m : SortedMap K V) (k : K) :
    (m.modify k g).total w = m.total w := by
  rw [total, total, modify, mapVal, List.map_map]
  refine congrArg List.sum (List.map_congr_left fun e _ => ?_)
  rw [Function.comp_apply]
  split_ifs
  · exact hg e.2
  · rfl

/-- To change an entry that is there is to put a new one. -/
theorem modify_eq_insert {m : SortedMap K V} {k : K} {v : V} (h : m.find? k = some v) (g : V → V) :
    m.modify k g = m.insert k (g v) := by
  refine ext_find? fun k' => ?_
  rw [find?_modify, find?_insert]
  split_ifs with hk
  · rw [hk, h]
    rfl
  · rfl

/-- Weights that are added add up apart. -/
theorem total_add (w w' : V → A) (m : SortedMap K V) :
    (m.total fun v => w v + w' v) = m.total w + m.total w' :=
  List.sum_map_add

/-- A common factor is taken out of the sum. -/
theorem total_mul_right {R : Type*} [NonUnitalNonAssocSemiring R] (w : V → R) (m : SortedMap K V)
    (r : R) :
    (m.total fun v => w v * r) = m.total w * r := List.sum_map_mul_right ..

end SortedMap

namespace Recent

variable {α : Type*}

/-- Entries go from the front while there are more than `n`. -/
def trim (n : ℕ) : List α → List α
  | [] => []
  | a :: l => if n < l.length + 1 then trim n l else a :: l

/-- The queue drops from its front until it is short enough. -/
theorem trim_eq_rtake (n : ℕ) : ∀ l : List α, trim n l = l.rtake n
  | [] => by rw [trim, List.rtake_nil]
  | a :: l => by
    rw [trim, trim_eq_rtake n l, List.rtake, List.rtake, List.length_cons]
    split_ifs with h
    · rw [Nat.succ_sub (Nat.lt_succ_iff.1 h), List.drop_succ_cons]
    · rw [Nat.sub_eq_zero_of_le (not_lt.1 h), List.drop_zero]

/-- **A queue of `n` that has the last of what came has the last of it with one more.** -/
theorem trim_rtake_append (n : ℕ) (l : List α) (a : α) :
    trim n (l.rtake n ++ [a]) = (l ++ [a]).rtake n := by
  rw [trim_eq_rtake]
  cases n with
  | zero => rw [List.rtake_zero, List.rtake_zero]
  | succ n =>
    rw [List.rtake_concat_succ, List.rtake_concat_succ]
    congr 1
    rw [List.rtake, List.rtake, List.rtake, List.drop_drop, List.length_drop]
    congr 1
    omega

end Recent
