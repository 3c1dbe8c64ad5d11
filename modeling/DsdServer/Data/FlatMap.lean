import DsdServer.Data.SortedMap

/-!
# Data/FlatMap — maps to a root in one step

A map `key → key` says which keys stand for which: the **root** of a key is its value, or the key
itself.  One lookup is enough when the map is **flat** — no value is a key of it.  Redirecting a key
to a root keeps it flat when the entries that led to the key are led along (`redirect`).

Releasing (`release`) undoes a redirection: a key that is redirected becomes its own root again, and
a root lets go of all keys that lead to it.
-/

namespace DsdServer

namespace FlatMap

variable {K : Type*} [LinearOrder K] {m m' : SortedMap K K} {a b k r v x y : K}

/-- What a key stands for. -/
def root (m : SortedMap K K) (k : K) : K := m.getD k k

/-- **No value is itself a key**: a root is found in one step. -/
def Flat (m : SortedMap K K) : Prop := ∀ k v, m.find? k = some v → v ∉ m

/-- Lead a key, and whatever led to it, to a root. -/
def redirect (m : SortedMap K K) (k r : K) : SortedMap K K :=
  (m.insert k r).mapVal fun _ v => if v = k then r else v

theorem root_of_find? (h : m.find? k = some v) : root m k = v := SortedMap.getD_of_find? h k

/-- A key that is not redirected is its own root. -/
theorem root_of_not_mem (h : k ∉ m) : root m k = k := SortedMap.getD_of_not_mem h k

theorem flat_empty : Flat (∅ : SortedMap K K) := fun _ _ h => by simp at h

/-- A root is not led anywhere. -/
theorem Flat.root_not_mem (h : Flat m) (k : K) : root m k ∉ m := by
  rcases hk : m.find? k with _ | v
  · have hm := SortedMap.find?_eq_none_iff.1 hk
    rwa [root_of_not_mem hm]
  · rw [root_of_find? hk]
    exact h k v hk

/-- Part of a flat map is flat. -/
theorem Flat.sub (h : Flat m) (hs : ∀ k v, m'.find? k = some v → m.find? k = some v) : Flat m' :=
  fun k v hv hm => by
    obtain ⟨w, hw⟩ := SortedMap.mem_iff_find?.1 hm
    exact h k v (hs k v hv) (SortedMap.mem_of_find? (hs v w hw))

theorem Flat.filter (h : Flat m) (p : K → K → Bool) : Flat (m.filter p) := h.sub fun k v hv => by
  rw [SortedMap.find?_filter, Option.filter_eq_some_iff] at hv
  exact hv.1

/-- Redirecting a key leads along the entries that led to it. -/
theorem find?_redirect (hr : r ≠ k) (x : K) : (redirect m k r).find? x =
    if x = k then some r else (m.find? x).map fun v => if v = k then r else v := by
  rw [redirect, SortedMap.find?_mapVal, SortedMap.find?_insert]
  split_ifs with hx
  · rw [Option.map_some, if_neg hr]
  · rfl

/-- The keys are those of before and the one that is redirected. -/
theorem mem_redirect : x ∈ redirect m k r ↔ x = k ∨ x ∈ m := by
  rw [redirect, SortedMap.mem_mapVal, SortedMap.mem_insert]

/-- **Redirecting a key to another root keeps the map flat.** -/
theorem Flat.redirect (h : Flat m) (hr : r ∉ m) (hk : r ≠ k) : Flat (redirect m k r) := by
  intro x v hv
  rw [find?_redirect hk] at hv
  rw [mem_redirect, not_or]
  split_ifs at hv
  · cases hv
    exact ⟨hk, hr⟩
  · obtain ⟨w, hw, rfl⟩ := Option.map_eq_some_iff.1 hv
    split_ifs with hwk
    · exact ⟨hk, hr⟩
    · exact ⟨hwk, h x w hw⟩

/-- What led to the key is led along; everything else keeps its root. -/
theorem root_redirect (hr : r ≠ k) (x : K) : root (redirect m k r) x =
    if x = k then r else if root m x = k then r else root m x := by
  rw [root, SortedMap.getD, find?_redirect hr]
  split_ifs with hx h
  · rfl
  · rcases hm : m.find? x with _ | v
    · rw [root_of_not_mem (SortedMap.find?_eq_none_iff.1 hm)] at h
      exact absurd h hx
    · rw [root_of_find? hm] at h
      simp [h]
  · rcases hm : m.find? x with _ | v
    · exact (root_of_not_mem (SortedMap.find?_eq_none_iff.1 hm)).symm
    · rw [root_of_find? hm] at h ⊢
      simp [h]

/-- **A key that led nowhere takes only its own with it**: keys that stood for the same still do. -/
theorem root_redirect_congr (hk : k ∉ m) (hr : r ≠ k) (h : root m x = root m y) :
    root (redirect m k r) x = root (redirect m k r) y := by
  have hroot : ∀ x, root (redirect m k r) x = if root m x = k then r else root m x := fun x => by
    rw [root_redirect hr]
    split_ifs with hx hxk
    · rfl
    · rw [hx, root_of_not_mem hk] at hxk
      exact absurd rfl hxk
    · rfl
    · rfl
  rw [hroot, hroot, h]

/-- Every value of a redirected map is the root, or was a value before. -/
theorem value_redirect (hr : r ≠ k) (h : (redirect m k r).find? x = some v) :
    v = r ∨ ∃ y, m.find? y = some v := by
  rw [find?_redirect hr] at h
  split_ifs at h
  · exact Or.inl (Option.some.inj h).symm
  · obtain ⟨w, hw, rfl⟩ := Option.map_eq_some_iff.1 h
    split_ifs
    · exact Or.inl rfl
    · exact Or.inr ⟨x, hw⟩

/-- Let a key go: it leads nowhere any more, or, when it led nowhere, nothing leads to it. -/
def release (m : SortedMap K K) (k : K) : SortedMap K K :=
  if k ∈ m then m.erase k else m.filter fun _ v => v ≠ k

theorem find?_of_release (h : (release m k).find? x = some v) : m.find? x = some v := by
  rw [release] at h
  split_ifs at h
  · rw [SortedMap.erase, SortedMap.find?_filter, Option.filter_eq_some_iff] at h
    exact h.1
  · rw [SortedMap.find?_filter, Option.filter_eq_some_iff] at h
    exact h.1

/-- A map stays flat when a key is released. -/
theorem Flat.release (h : Flat m) (k : K) : Flat (release m k) := h.sub fun _ _ => find?_of_release

/-- **A key that is let go leads nowhere, and nothing leads to it.** -/
theorem Flat.not_mem_release (h : Flat m) (k : K) :
    k ∉ FlatMap.release m k ∧ ∀ x, (FlatMap.release m k).find? x ≠ some k := by
  rw [FlatMap.release]
  split_ifs with hk
  · refine ⟨fun hm => (SortedMap.mem_erase.1 hm).1 rfl, fun x hx => ?_⟩
    rw [SortedMap.erase, SortedMap.find?_filter, Option.filter_eq_some_iff] at hx
    exact h x k hx.1 hk
  · refine ⟨fun hm => ?_, fun x hx => ?_⟩
    · obtain ⟨v, hv⟩ := SortedMap.mem_iff_find?.1 hm
      rw [SortedMap.find?_filter, Option.filter_eq_some_iff] at hv
      exact hk (SortedMap.mem_of_find? hv.1)
    · rw [SortedMap.find?_filter, Option.filter_eq_some_iff] at hx
      exact of_decide_eq_true hx.2 rfl

end FlatMap

end DsdServer
