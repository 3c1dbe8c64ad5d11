import Mathlib.Algebra.BigOperators.Group.List.Basic
import Mathlib.Algebra.Order.BigOperators.Group.List
import DsdServer.Data.SortedMap

/-!
# Data/Weight — the weight of a sorted map

The sum of a natural number read off each value, and what insertion, removal and change in place do
to it.
-/

namespace SortedMap

variable {K V W : Type*} [LinearOrder K]

/-- A key that is not there leaves nothing to remove. -/
theorem erase_of_not_mem {m : SortedMap K V} {k : K} (h : k ∉ m) : m.erase k = m := by
  refine ext_find? fun k' => ?_
  rw [find?_erase]
  split_ifs with hk
  · rw [hk, find?_eq_none_iff.2 h]
  · rfl

/-- What is put in and taken out again makes no difference to the others. -/
theorem erase_insert (m : SortedMap K V) (k : K) (v : V) : (m.insert k v).erase k = m.erase k := by
  refine ext_find? fun k' => ?_
  rw [find?_erase, find?_erase]
  split_ifs with hk
  · rfl
  · exact find?_insert_ne m v hk

/-- A value taken out and put back is where it was. -/
theorem insert_erase {m : SortedMap K V} {k : K} {v : V} (h : m.find? k = some v) :
    (m.erase k).insert k v = m := by
  refine ext_find? fun k' => ?_
  rw [find?_insert]
  split_ifs with hk
  · rw [hk, h]
  · exact find?_erase_ne m hk

/-- **The weight of a map**: the values' weights, summed. -/
def weight (w : V → ℕ) (m : SortedMap K V) : ℕ := (m.entries.map fun e => w e.2).sum

variable (w : V → ℕ)

@[simp] theorem weight_empty : (∅ : SortedMap K V).weight w = 0 := rfl

/-- A present key's weight, and the others'. -/
theorem weight_of_find? {m : SortedMap K V} {k : K} {v : V} (h : m.find? k = some v) :
    m.weight w = w v + (m.erase k).weight w := by
  have hk : k ∉ m.erase k := fun hk => (mem_erase.1 hk).1 rfl
  have hp := (entries_insert_perm hk v).map fun e => w e.2
  rw [insert_erase h] at hp
  exact hp.sum_eq

/-- What is put under a key weighs instead of what was there. -/
theorem weight_insert (m : SortedMap K V) (k : K) (v : V) :
    (m.insert k v).weight w = w v + (m.erase k).weight w := by
  rw [weight_of_find? w (find?_insert_self m k v), erase_insert]

/-- A key's weight, and the others': a key that is not there weighs nothing. -/
theorem weight_eq_getD {d : V} (hd : w d = 0) (m : SortedMap K V) (k : K) :
    m.weight w = w (m.getD k d) + (m.erase k).weight w := by
  rcases h : m.find? k with _ | v
  · have hk := find?_eq_none_iff.1 h
    rw [getD_of_not_mem hk, hd, zero_add, erase_of_not_mem hk]
  · rw [getD_of_find? h, weight_of_find? w h]

theorem weight_erase_le (m : SortedMap K V) (k : K) : (m.erase k).weight w ≤ m.weight w := by
  rcases h : m.find? k with _ | v
  · rw [erase_of_not_mem (find?_eq_none_iff.1 h)]
  · exact weight_of_find? w h ▸ Nat.le_add_left _ _

/-- An entry adds its own weight at most. -/
theorem weight_insert_le (m : SortedMap K V) (k : K) (v : V) :
    (m.insert k v).weight w ≤ m.weight w + w v := by
  rw [weight_insert, Nat.add_comm]
  exact Nat.add_le_add_right (weight_erase_le w m k) _

/-- **A value that grows by `n` lets its map grow by `n`.** -/
theorem weight_insert_le_of_getD {d : V} (hd : w d = 0) {m : SortedMap K V} {k : K} {v : V} {n : ℕ}
    (h : w v ≤ w (m.getD k d) + n) : (m.insert k v).weight w ≤ m.weight w + n := by
  rw [weight_insert, weight_eq_getD w hd m k]
  omega

/-- A change that makes no value heavier makes the map none. -/
theorem weight_modify_le {f : V → V} (hf : ∀ v, w (f v) ≤ w v) (m : SortedMap K V) (k : K) :
    (m.modify k f).weight w ≤ m.weight w := by
  rw [weight, weight, modify, mapVal, List.map_map]
  refine List.sum_le_sum fun e _ => ?_
  rw [Function.comp_apply]
  split_ifs
  · exact hf e.2
  · exact le_refl _

/-! ## Sizes, as weights

The number of entries is the weight that counts each as one, and so has the lemmas of a weight.  A
bound on it is what the limits of the tables are about. -/

variable {m : SortedMap K V} {k : K}

/-- A size is a weight, with every entry weighing one. -/
theorem size_eq_weight (m : SortedMap K V) : m.size = m.weight fun _ => 1 := by
  rw [size, weight, List.map_const', List.sum_replicate, smul_eq_mul, mul_one]

/-- An entry is one more than all others. -/
theorem size_insert (m : SortedMap K V) (k : K) (v : V) :
    (m.insert k v).size = (m.erase k).size + 1 := by
  rw [size_eq_weight, size_eq_weight, weight_insert, Nat.add_comm]

theorem size_erase_le (m : SortedMap K V) (k : K) : (m.erase k).size ≤ m.size := size_filter_le ..

/-- A key that is there stands for one entry. -/
theorem size_of_mem (h : k ∈ m) : m.size = (m.erase k).size + 1 := by
  obtain ⟨v, hv⟩ := mem_iff_find?.1 h
  rw [size_eq_weight, size_eq_weight, weight_of_find? _ hv, Nat.add_comm]

/-- An entry makes the map larger by one at most. -/
theorem size_insert_le (m : SortedMap K V) (k : K) (v : V) : (m.insert k v).size ≤ m.size + 1 := by
  rw [size_insert]
  exact Nat.succ_le_succ (size_erase_le m k)

/-- An entry under a key that is there makes it no larger. -/
theorem size_insert_of_mem (h : k ∈ m) (v : V) : (m.insert k v).size = m.size := by
  rw [size_insert, ← size_of_mem h]

/-- Part of a map that lacks one of its keys is smaller. -/
theorem size_lt_of_sub {m' : SortedMap K V} (h : ∀ x v, m'.find? x = some v → m.find? x = some v)
    (hk' : k ∉ m') (hk : k ∈ m) : m'.size < m.size := by
  have hsub : k :: m'.keys ⊆ m.keys := List.cons_subset.2 ⟨hk, fun x hx => by
    obtain ⟨v, hv⟩ := mem_iff_find?.1 (show x ∈ m' from hx)
    exact mem_of_find? (h x v hv)⟩
  have hnd : (k :: m'.keys).Nodup := List.nodup_cons.2 ⟨hk', m'.nodup_keys⟩
  have hlen := (hnd.subperm hsub).length_le
  rw [List.length_cons] at hlen
  simpa [keys, size] using hlen

end SortedMap

/-- A set that takes another member only while it has room. -/
theorem SortedSet.size_foldl_add_le {K : Type*} [LinearOrder K] {n : ℕ} (l : List K) :
    ∀ {s : SortedSet K},
    SortedMap.size s ≤ n →
      SortedMap.size
        (l.foldl (fun s k => if SortedMap.size s < n then SortedSet.add s k else s) s) ≤ n := by
  induction l with
  | nil => exact id
  | cons k l ih =>
    intro s h
    refine ih ?_
    dsimp only
    split_ifs with hlt
    · exact (SortedMap.size_insert_le s k ()).trans hlt
    · exact h
