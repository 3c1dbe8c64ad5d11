import DsdServer.Data.Weight

/-!
# Data/Inserted — a list of entries, inserted one after another

The last value under a key stays with `insertEach`, the first with `insertNew`.  Keys of their own
make no difference between them, and nothing is lost: `size_insertNew` — **as many entries as there
are in the list just when no key comes twice**.

Both are folds over the list, so each fact is an induction on it with the map left general.
-/

namespace SortedMap

variable {K V α : Type*} [LinearOrder K]

section

variable (key : α → K) (val : α → V)

/-- The entries put in one after another, later ones over earlier ones. -/
def insertEach (m : SortedMap K V) (l : List α) : SortedMap K V :=
  l.foldl (fun m a => m.insert (key a) (val a)) m

/-- The entries put in one after another, unless their key is there. -/
def insertNew (m : SortedMap K V) (l : List α) : SortedMap K V :=
  l.foldl (fun m a => if key a ∈ m then m else m.insert (key a) (val a)) m

end

variable {key : α → K} {val : α → V} {l : List α}

theorem insertEach_append (m : SortedMap K V) (l l' : List α) :
    m.insertEach key val (l ++ l') = (m.insertEach key val l).insertEach key val l' :=
      List.foldl_append ..

/-- A key that is not in the list keeps its value. -/
theorem find?_insertEach_of_not_mem {k : K} : ∀ {m : SortedMap K V}, k ∉ l.map key →
    (m.insertEach key val l).find? k = m.find? k := by
  induction l with
  | nil => exact fun _ => rfl
  | cons a l ih =>
    intro m h
    rw [List.map_cons, List.mem_cons, not_or] at h
    rw [insertEach, List.foldl_cons, ← insertEach, ih h.2, find?_insert_ne _ _ h.1]

/-- Of keys of their own each has its value. -/
theorem find?_insertEach_of_mem {a : α} : ∀ {m : SortedMap K V}, (l.map key).Nodup → a ∈ l →
    (m.insertEach key val l).find? (key a) = some (val a) := by
  induction l with
  | nil => exact fun _ h => absurd h List.not_mem_nil
  | cons b l ih =>
    intro m hl h
    rw [List.map_cons, List.nodup_cons] at hl
    rw [insertEach, List.foldl_cons, ← insertEach]
    rcases List.mem_cons.1 h with rfl | h
    · rw [find?_insertEach_of_not_mem hl.1, find?_insert_self]
    · exact ih hl.2 h

/-- What is under a key was there, or was inserted. -/
theorem find?_of_insertEach {k : K} {v : V} :
    ∀ {m : SortedMap K V}, (m.insertEach key val l).find? k = some v →
    m.find? k = some v ∨ ∃ a ∈ l, key a = k ∧ val a = v := by
  induction l with
  | nil => exact Or.inl
  | cons b l ih =>
    intro m h
    rcases ih h with h | ⟨a, ha, h⟩
    · rw [find?_insert] at h
      split_ifs at h with hk
      · exact Or.inr ⟨b, List.mem_cons_self, hk.symm, Option.some.inj h⟩
      · exact Or.inl h
    · exact Or.inr ⟨a, List.mem_cons_of_mem b ha, h⟩

/-- Keys that are new to the map stay so when another one goes in. -/
theorem fresh_insert {b : α} {m : SortedMap K V} (hb : key b ∉ l.map key)
    (hm : ∀ a ∈ b :: l, key a ∉ m) (v : V) :
    ∀ a ∈ l, key a ∉ m.insert (key b) v := fun a ha => by
  rw [mem_insert, not_or]
  exact ⟨fun he => hb (he ▸ List.mem_map_of_mem ha), hm a (List.mem_cons_of_mem b ha)⟩

/-- The keys are those of the map and of the list. -/
theorem mem_insertEach {k : K} :
    ∀ {m : SortedMap K V}, k ∈ m.insertEach key val l ↔ k ∈ m ∨ k ∈ l.map key := by
  induction l with
  | nil => simp [insertEach]
  | cons b l ih =>
    intro m
    rw [insertEach, List.foldl_cons, ← insertEach, ih, List.map_cons, List.mem_cons, mem_insert,
      or_assoc, or_left_comm]

/-- A key has the value that is inserted under it, when there is one only. -/
theorem find?_insertEach_of_unique {k : K} {v : V} (hex : ∃ a ∈ l, key a = k)
    (hv : ∀ a ∈ l, key a = k → val a = v) :
    ((∅ : SortedMap K V).insertEach key val l).find? k = some v := by
  obtain ⟨a, ha, hk⟩ := hex
  obtain ⟨v', hv'⟩ := mem_iff_find?.1
    (mem_insertEach.2 (Or.inr (List.mem_map.2 ⟨a, ha, hk⟩)) : k ∈
      (∅ : SortedMap K V).insertEach key val l)
  rcases find?_of_insertEach hv' with h | ⟨b, hb, hk', h⟩
  · rw [find?_empty] at h
    cases h
  · rw [hv', ← h, hv b hb hk']

/-- **What keys of their own weigh adds up.** -/
theorem weight_insertEach {w : V → ℕ} :
    ∀ {m : SortedMap K V}, (l.map key).Nodup → (∀ a ∈ l, key a ∉ m) →
    (m.insertEach key val l).weight w = m.weight w + (l.map fun a => w (val a)).sum := by
  induction l with
  | nil => exact fun _ _ => rfl
  | cons b l ih =>
    intro m hl hm
    rw [List.map_cons, List.nodup_cons] at hl
    rw [insertEach, List.foldl_cons, ← insertEach, ih hl.2 (fresh_insert hl.1 hm _), weight_insert,
      erase_of_not_mem (hm b List.mem_cons_self), List.map_cons, List.sum_cons]
    omega

/-- The keys are those of the map and of the list, whichever value stays. -/
theorem mem_insertNew {k : K} :
    ∀ {m : SortedMap K V}, k ∈ m.insertNew key val l ↔ k ∈ m ∨ k ∈ l.map key := by
  induction l with
  | nil => simp [insertNew]
  | cons b l ih =>
    intro m
    rw [insertNew, List.foldl_cons, ← insertNew, ih, List.map_cons, List.mem_cons]
    split_ifs with hb
    · constructor
      · exact Or.imp_right Or.inr
      · rintro (h | rfl | h)
        · exact Or.inl h
        · exact Or.inl hb
        · exact Or.inr h
    · rw [mem_insert, or_assoc, or_left_comm]

/-- With keys of their own the first is the last. -/
theorem insertNew_eq : ∀ {m : SortedMap K V}, (l.map key).Nodup → (∀ a ∈ l, key a ∉ m) →
    m.insertNew key val l = m.insertEach key val l := by
  induction l with
  | nil => exact fun _ _ => rfl
  | cons b l ih =>
    intro m hl hm
    rw [List.map_cons, List.nodup_cons] at hl
    rw [insertNew, List.foldl_cons, if_neg (hm b List.mem_cons_self), ← insertNew,
      ih hl.2 (fresh_insert hl.1 hm _)]
    rfl

/-- **As many entries as in the list just when no key comes twice.** -/
theorem size_insertNew :
    ((∅ : SortedMap K V).insertNew key val l).size = l.length ↔ (l.map key).Nodup := by
  constructor
  · intro h
    have hperm : ((∅ : SortedMap K V).insertNew key val l).keys.Perm (l.map key).dedup := by
      refine (List.perm_ext_iff_of_nodup (nodup_keys _) (List.nodup_dedup _)).2 fun k => ?_
      rw [List.mem_dedup]
      exact mem_insertNew.trans (or_iff_right (not_mem_empty k))
    have hlength : (l.map key).dedup.length = (l.map key).length := by
      rw [← hperm.length_eq, keys, List.length_map, List.length_map]
      exact h
    rw [← (List.dedup_sublist _).eq_of_length hlength]
    exact List.nodup_dedup _
  · intro h
    rw [insertNew_eq h fun a _ => not_mem_empty _, size_eq_weight, weight_insertEach h fun a _ =>
      not_mem_empty _, weight_empty]
    simp

end SortedMap
