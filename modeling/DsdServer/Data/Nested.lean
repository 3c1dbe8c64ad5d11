import DsdServer.Data.Weight

/-!
# Data/Nested — maps of maps

A nested map is changed through its inner maps: one is made when the first entry is put in it, and
dropped with its last.  So none is ever empty, and a map whose inner maps are not is rebuilt by
putting its entries back one by one.
-/

namespace SortedMap

variable {K V : Type*} [LinearOrder K]

/-! ## Properties of the entries

`Each` says of every entry what a predicate of key and value says, and `Full` in addition that there
is one.  A map of full maps is what writing out and reading back need: an inner map without entries
leaves no trace in the text. -/

/-- Every entry has the property. -/
def Each (P : K → V → Prop) (m : SortedMap K V) : Prop := ∀ k v, m.find? k = some v → P k v

/-- **A map with entries**, all of which have the property. -/
structure Full (P : K → V → Prop) (m : SortedMap K V) : Prop where
  entry : m ≠ ∅
  each : m.Each P

variable {P : K → V → Prop} {m : SortedMap K V} {k : K} {v : V}

theorem each_empty : Each P (∅ : SortedMap K V) := fun k v h => by
  rw [find?_empty] at h
  cases h

/-- A property of the entries is kept by an entry that has it. -/
theorem Each.insert (h : m.Each P) (hv : P k v) : (m.insert k v).Each P := by
  intro k' v' h'
  rw [find?_insert] at h'
  split_ifs at h' with hk
  · cases h'
    exact hk ▸ hv
  · exact h k' v' h'

theorem Each.erase (h : m.Each P) (k : K) : (m.erase k).Each P := by
  intro k' v' h'
  rw [find?_erase] at h'
  split_ifs at h'
  exact h k' v' h'

/-- A map into which something was put is not empty. -/
theorem insert_ne_empty (m : SortedMap K V) (k : K) (v : V) : m.insert k v ≠ ∅ := fun he => by
  have h := find?_insert_self m k v
  rw [he, find?_empty] at h
  cases h

/-- What something was put in is full, as far as its entries have the property. -/
theorem Each.full_insert (h : m.Each P) (hv : P k v) : (m.insert k v).Full P :=
  ⟨insert_ne_empty m k v, h.insert hv⟩

theorem isEmpty_eq_true_iff : m.isEmpty = true ↔ m = ∅ := by
  rw [isEmpty_iff]
  exact ⟨fun h => ext_find? fun k => (h k).trans (find?_empty k).symm, fun h k => by
    rw [h, find?_empty]⟩

theorem entries_ne_nil (h : m ≠ ∅) : m.entries ≠ [] := fun he => by
  refine h (isEmpty_eq_true_iff.1 ?_)
  rw [isEmpty, he]
  rfl

/-- A map with entries has one. -/
theorem Full.exists_entry (h : m.Full P) : ∃ k v, m.find? k = some v ∧ P k v := by
  obtain ⟨⟨k, v⟩, he⟩ := List.exists_mem_of_ne_nil _ (entries_ne_nil h.entry)
  have hv := find?_eq_some_iff.2 he
  exact ⟨k, v, hv, h.each k v hv⟩

/-- The inner map of a key, empty if there is none. -/
theorem Each.getD_full {W : Type*} {m : SortedMap K (SortedMap K W)} {Q : K → K → W → Prop}
    (h : m.Each fun k => Full (Q k)) (k : K) : (m.getD k ∅).Each (Q k) := by
  rw [getD]
  rcases hf : m.find? k with _ | n
  · exact each_empty
  · exact (h k n hf).each

/-- An inner map is left out when it is empty. -/
def replace {W : Type*} (m : SortedMap K (SortedMap K W)) (k : K) (n : SortedMap K W) :
    SortedMap K (SortedMap K W) :=
  if n.isEmpty then m.erase k else m.insert k n

/-- Replacing an inner map keeps the others. -/
theorem Each.replace {W : Type*} {m : SortedMap K (SortedMap K W)} {Q : K → K → W → Prop}
    (h : m.Each fun k => Full (Q k)) {k : K} {n : SortedMap K W} (hn : n.Each (Q k)) :
    (m.replace k n).Each fun k => Full (Q k) := by
  rw [SortedMap.replace]
  by_cases he : n.isEmpty = true
  · rw [if_pos he]
    exact h.erase k
  · rw [if_neg he]
    exact h.insert ⟨fun h₀ => he (isEmpty_eq_true_iff.2 h₀), hn⟩

/-- An inner map that is empty is as good as none. -/
theorem getD_replace {W : Type*} (m : SortedMap K (SortedMap K W)) (k k' : K) (n : SortedMap K W) :
    (m.replace k n).getD k' ∅ = if k' = k then n else m.getD k' ∅ := by
  rw [SortedMap.replace]
  by_cases he : n.isEmpty = true
  · rw [if_pos he, getD, find?_erase, isEmpty_eq_true_iff.1 he]
    split_ifs <;> rfl
  · rw [if_neg he, getD_insert]

/-! ## Change of an inner value

Reading a nested map back puts one entry after another where it belongs, making the inner map with
its first.  The lemmas go from one inner map to all of them: entries put into one map, into one
inner map of it, and at last into all. -/

/-- Change the value of a key, taking a value for one that is not there. -/
def update (m : SortedMap K V) (k : K) (d : V) (f : V → V) : SortedMap K V :=
  m.insert k (f (m.getD k d))

/-- The later value under a key stands. -/
theorem insert_insert (m : SortedMap K V) (k : K) (v w : V) :
    (m.insert k v).insert k w = m.insert k w := by
  refine ext_find? fun k' => ?_
  rw [find?_insert, find?_insert, find?_insert]
  split_ifs <;> rfl

/-- Two changes of one inner value are one. -/
theorem update_update (m : SortedMap K V) (k : K) (d : V) (f g : V → V) :
    (m.update k d f).update k d g = m.update k d fun v => g (f v) := by
  rw [update, update, update, insert_insert, getD_insert, if_pos rfl]

/-- **Changes of one key are one change.** -/
theorem foldl_update {α : Type*} (k : K) (d : V) (g : V → α → V) {l : List α} (hl : l ≠ []) :
    ∀ m : SortedMap K V, l.foldl (fun m a => m.update k d fun v => g v a) m =
      m.update k d fun v => l.foldl g v := by
  induction l with
  | nil => exact absurd rfl hl
  | cons a l ih =>
    intro m
    rw [List.foldl_cons]
    by_cases hl' : l = []
    · rw [hl']
      rfl
    · rw [ih hl', update_update]
      rfl

/-- All entries of one map put into another. -/
theorem find?_insertAll (g m : SortedMap K V) (k : K) :
    (g.entries.foldl (fun m e => m.insert e.1 e.2) m).find? k = (g.find? k).or (m.find? k) := by
  have h : ∀ (l : List (K × V)) (m : SortedMap K V), (l.map Prod.fst).Nodup →
      (l.foldl (fun (m : SortedMap K V) e => m.insert e.1 e.2) m).find? k =
        (l.lookup k).or (m.find? k) := fun l => by
    induction l with
    | nil => exact fun _ _ => rfl
    | cons e l ih =>
      intro m hnd
      rw [List.map_cons, List.nodup_cons] at hnd
      rw [List.foldl_cons, ih _ hnd.2, lookup_cons_eq_ite, find?_insert]
      split_ifs with hk
      · have hnone : l.lookup k = none := by
          rw [List.lookup_eq_none_iff]
          intro q hq
          have hne : k ≠ q.1 := fun he => hnd.1 (hk ▸ he ▸ List.mem_map_of_mem hq)
          simpa using hne
        rw [hnone]
        rfl
      · rfl
  exact h g.entries m g.nodup_keys

/-- A map's image is built from its entries, by steps that put each one's image in. -/
theorem foldl_rebuild_map {W : Type*} {step : SortedMap K W → K × V → SortedMap K W}
    {m : SortedMap K V} {f : K → V → W}
    (hstep : ∀ r k v, m.find? k = some v → k ∉ r → step r (k, v) = r.insert k (f k v)) :
    m.entries.foldl step ∅ = m.mapVal f := by
  have h : ∀ (l : List (K × V)) (r : SortedMap K W), (l.map Prod.fst).Nodup →
      (∀ e ∈ l, e ∈ m.entries) →
      (∀ e ∈ l, e.1 ∉ r) →
      l.foldl step r = l.foldl (fun r e => r.insert e.1 (f e.1 e.2)) r := fun l => by
    induction l with
    | nil => exact fun _ _ _ _ => rfl
    | cons e l ih =>
      intro r hnd hm hr
      rw [List.map_cons, List.nodup_cons] at hnd
      have hin : m.find? e.1 = some e.2 := find?_eq_some_iff.2 (hm e List.mem_cons_self)
      rw [List.foldl_cons, List.foldl_cons, ← hstep r e.1 e.2 hin (hr e List.mem_cons_self)]
      refine ih _ hnd.2 (fun e' he => hm e' (List.mem_cons_of_mem _ he)) fun e' he hme => ?_
      rw [hstep r e.1 e.2 hin (hr e List.mem_cons_self), mem_insert] at hme
      rcases hme with h₁ | h₁
      · exact hnd.1 (h₁ ▸ List.mem_map_of_mem he)
      · exact hr e' (List.mem_cons_of_mem _ he) h₁
  rw [h m.entries ∅ m.nodup_keys (fun _ he => he) fun e _ => not_mem_empty e.1]
  have hmap : (m.mapVal f).entries.foldl (fun (r : SortedMap K W) e => r.insert e.1 e.2) ∅ =
      m.entries.foldl (fun r e => r.insert e.1 (f e.1 e.2)) ∅ := List.foldl_map ..
  rw [← hmap]
  refine ext_find? fun k => ?_
  rw [find?_insertAll, find?_empty, Option.or_none]

/-- **A map is rebuilt from its entries** by steps that put each in, where its key is not there
yet. -/
theorem foldl_rebuild {step : SortedMap K V → K × V → SortedMap K V} {m : SortedMap K V}
    (hstep : ∀ r k v, m.find? k = some v → k ∉ r → step r (k, v) = r.insert k v) :
    m.entries.foldl step ∅ = m := by
  rw [foldl_rebuild_map hstep]
  exact ext_find? fun k => by rw [find?_mapVal, Option.map_id']

/-- **A nested map is rebuilt** by changes of its inner maps, none of which is empty. -/
theorem foldl_nested {W α : Type*} {m : SortedMap K (SortedMap K W)} {l : SortedMap K W → List α}
    {g : K → SortedMap K W → α → SortedMap K W}
    (hne : ∀ k n, m.find? k = some n → l n ≠ [])
    (hg : ∀ k n, m.find? k = some n → (l n).foldl (g k) ∅ = n) :
    m.entries.foldl (fun r e => (l e.2).foldl (fun r a => r.update e.1 ∅ fun n => g e.1 n a) r) ∅ =
      m := by
  refine foldl_rebuild fun r k n hn hk => ?_
  rw [foldl_update k ∅ (g k) (hne k n hn), update, getD_of_not_mem hk, hg k n hn]

end SortedMap

/-- A set is rebuilt from its members. -/
theorem SortedSet.addAll_keys {K : Type*} [LinearOrder K] (s : SortedSet K) :
    s.keys.foldl add ∅ = s := by
  rw [SortedMap.keys, List.foldl_map]
  exact SortedMap.foldl_rebuild fun _ _ _ _ _ => rfl
