import Mathlib

/-!
# Data/SortedMap — finite maps as key-sorted lists

An ordered associative container: the entries in strictly increasing key order.  The order is part
of the value, so iterating is reading `entries`, and two maps with the same lookups are *equal*
(`ext_find?`) — no quotient, and every operation evaluates in the kernel.

Where the source uses a hash table whose order it never reads, the sorted list stands for it as
well: what a lookup gives is the same.
-/

/-- **A finite map**: entries in strictly increasing key order. -/
structure SortedMap (K V : Type*) [LinearOrder K] where
  entries : List (K × V)
  sorted : (entries.map Prod.fst).Pairwise (· < ·)

namespace SortedMap

variable {K V W : Type*} [LinearOrder K]

instance [DecidableEq V] : DecidableEq (SortedMap K V) := fun m m' =>
  decidable_of_iff (m.entries = m'.entries) ⟨fun h => by
    cases m; cases m'; simp_all, fun h => h ▸ rfl⟩

/-! ## Lookup

A map is read by key.  `find?_eq_some_iff` makes the order of the entries a matter of the data
structure alone: two maps in which the same is found are one map (`ext_find?`), so an equation of
maps is proved key by key. -/

/-- The value stored under a key. -/
def find? (m : SortedMap K V) (k : K) : Option V := m.entries.lookup k

/-- The keys, in their order. -/
def keys (m : SortedMap K V) : List K := m.entries.map Prod.fst

/-- A key is a member when there is an entry for it. -/
instance : Membership K (SortedMap K V) := ⟨fun m k => k ∈ m.keys⟩

instance (m : SortedMap K V) (k : K) : Decidable (k ∈ m) := inferInstanceAs (Decidable (k ∈ m.keys))

/-- Is there an entry for the key? -/
def contains (m : SortedMap K V) (k : K) : Bool := (m.find? k).isSome

/-- The number of entries. -/
def size (m : SortedMap K V) : ℕ := m.entries.length

def isEmpty (m : SortedMap K V) : Bool := m.entries.isEmpty

/-- The value under a key, or a default. -/
def getD (m : SortedMap K V) (k : K) (v : V) : V := (m.find? k).getD v

theorem nodup_keys (m : SortedMap K V) : m.keys.Nodup :=
  m.sorted.imp fun h => ne_of_lt h

/-- Looking up in a list asks its head first. -/
theorem lookup_cons_eq_ite (k : K) (e : K × V) (l : List (K × V)) :
    (e :: l).lookup k = if k = e.1 then some e.2 else l.lookup k := by
  obtain ⟨k', v⟩ := e
  rw [List.lookup_cons]
  by_cases h : k = k'
  · simp [h]
  · rw [beq_eq_false_iff_ne.2 h, if_neg h]

/-- In a list sorted by key, looking up finds exactly the entries. -/
theorem lookup_eq_some_iff {l : List (K × V)} (h : (l.map Prod.fst).Pairwise (· < ·)) {k : K}
    {v : V} : l.lookup k = some v ↔ (k, v) ∈ l := by
  induction l with
  | nil => simp
  | cons e l ih =>
    obtain ⟨k', v'⟩ := e
    rw [List.map_cons, List.pairwise_cons] at h
    rw [lookup_cons_eq_ite, List.mem_cons]
    split_ifs with hk
    · obtain rfl : k = k' := hk
      have hno : (k, v) ∉ l := fun hm => lt_irrefl k (h.1 k (List.mem_map_of_mem hm))
      simp [hno, eq_comm]
    · rw [ih h.2, Prod.mk.injEq]
      exact ⟨Or.inr, fun hm => hm.resolve_left fun he => hk he.1⟩

/-- **What is found are the entries.** -/
theorem find?_eq_some_iff {m : SortedMap K V} {k : K} {v : V} :
    m.find? k = some v ↔ (k, v) ∈ m.entries := lookup_eq_some_iff m.sorted

/-- A key is there when something is found under it. -/
theorem mem_iff_find? {m : SortedMap K V} {k : K} : k ∈ m ↔ ∃ v, m.find? k = some v := by
  constructor
  · intro h
    obtain ⟨⟨k', v⟩, hm, rfl⟩ := List.mem_map.1 h
    exact ⟨v, find?_eq_some_iff.2 hm⟩
  · rintro ⟨v, hv⟩
    exact List.mem_map.2 ⟨(k, v), find?_eq_some_iff.1 hv, rfl⟩

/-- Nothing is found under the keys that are not there. -/
theorem find?_eq_none_iff {m : SortedMap K V} {k : K} : m.find? k = none ↔ k ∉ m := by
  rw [mem_iff_find?, not_exists]
  exact Option.eq_none_iff_forall_ne_some

/-- A key under which something is found is there. -/
theorem mem_of_find? {m : SortedMap K V} {k : K} {v : V} (h : m.find? k = some v) : k ∈ m :=
  mem_iff_find?.2 ⟨v, h⟩

theorem contains_iff {m : SortedMap K V} {k : K} : m.contains k = true ↔ k ∈ m := by
  rw [contains, Option.isSome_iff_exists, mem_iff_find?]

/-- **Equal lookups, equal maps** — both sides list the same entries in the one sorted order. -/
theorem ext_find? {m m' : SortedMap K V} (h : ∀ k, m.find? k = m'.find? k) : m = m' := by
  have hmem : ∀ e, e ∈ m.entries ↔ e ∈ m'.entries := fun ⟨k, v⟩ => by
    rw [← find?_eq_some_iff, ← find?_eq_some_iff, h k]
  have hperm : m.entries.Perm m'.entries :=
    (List.perm_ext_iff_of_nodup (List.Nodup.of_map _ m.nodup_keys)
      (List.Nodup.of_map _ m'.nodup_keys)).2 hmem
  have hsorted : ∀ n : SortedMap K V, n.entries.Pairwise fun a b => a.1 < b.1 := fun n =>
    List.pairwise_map.1 n.sorted
  have heq : m.entries = m'.entries :=
    hperm.eq_of_pairwise (fun a b _ _ hab hba => absurd hab (not_lt.2 hba.le)) (hsorted m)
      (hsorted m')
  cases m
  cases m'
  simp_all

/-- A map is empty when nothing is found in it. -/
theorem isEmpty_iff {m : SortedMap K V} : m.isEmpty = true ↔ ∀ k, m.find? k = none := by
  rw [isEmpty, List.isEmpty_iff]
  constructor
  · intro h k
    rw [find?, h]
    rfl
  · intro h
    rw [List.eq_nil_iff_forall_not_mem]
    intro ⟨k, v⟩ hm
    have := (find?_eq_some_iff.2 hm).symm.trans (h k)
    cases this

/-! ## The empty map, insertion, removal

An entry goes to the place its key belongs to, and replaces the one that is there.  What each
operation means is one equation about `find?`, with a simp lemma for the key it works on and a rule
for the others; nothing below unfolds the lists again. -/

/-- The map with no entries. -/
def empty : SortedMap K V := ⟨[], List.Pairwise.nil⟩

instance : EmptyCollection (SortedMap K V) := ⟨empty⟩
instance : Inhabited (SortedMap K V) := ⟨∅⟩

@[simp] theorem find?_empty (k : K) : (∅ : SortedMap K V).find? k = none := rfl

@[simp] theorem entries_empty : (∅ : SortedMap K V).entries = [] := rfl

/-- Sorted insertion, overwriting an entry with the same key. -/
def insertList (k : K) (v : V) : List (K × V) → List (K × V)
  | [] => [(k, v)]
  | e :: l =>
    if k < e.1 then (k, v) :: e :: l
    else if k = e.1 then (k, v) :: l
    else e :: insertList k v l

/-- Putting in brings in no key but the one put in. -/
theorem mem_keys_insertList {k k' : K} {v : V} : ∀ {l : List (K × V)},
    k' ∈ (insertList k v l).map Prod.fst → k' = k ∨ k' ∈ l.map Prod.fst
  | [], h => by simpa [insertList] using h
  | e :: l, h => by
    have ih := @mem_keys_insertList k k' v l
    rw [insertList] at h
    split_ifs at h with h1 h2
    · simpa using h
    · rw [List.map_cons, List.mem_cons] at h ⊢
      tauto
    · rw [List.map_cons, List.mem_cons] at h ⊢
      tauto

/-- A sorted list stays sorted: the entry goes where its key belongs. -/
theorem sorted_insertList (k : K) (v : V) : ∀ {l : List (K × V)},
    (l.map Prod.fst).Pairwise (· < ·) → ((insertList k v l).map Prod.fst).Pairwise (· < ·)
  | [], _ => by simp [insertList]
  | e :: l, h => by
    obtain ⟨he, hl⟩ := List.pairwise_cons.1 h
    rw [insertList]
    split_ifs with h1 h2
    · rw [List.map_cons, List.pairwise_cons]
      refine ⟨fun a ha => ?_, h⟩
      rcases List.mem_cons.1 ha with rfl | ha
      · exact h1
      · exact h1.trans (he a ha)
    · subst h2
      exact h
    · rw [List.map_cons, List.pairwise_cons]
      refine ⟨fun a ha => ?_, sorted_insertList k v hl⟩
      rcases mem_keys_insertList ha with rfl | ha
      · exact lt_of_le_of_ne (not_lt.1 h1) (Ne.symm h2)
      · exact he a ha

/-- Store a value under a key, whether or not the key is there. -/
def insert (m : SortedMap K V) (k : K) (v : V) : SortedMap K V :=
  ⟨insertList k v m.entries, sorted_insertList k v m.sorted⟩

/-- Looking up after putting in, by induction on the list. -/
theorem lookup_insertList (k k' : K) (v : V) : ∀ l : List (K × V),
    (insertList k v l).lookup k' = if k' = k then some v else l.lookup k'
  | [] => by rw [insertList, lookup_cons_eq_ite]
  | e :: l => by
    have ih := lookup_insertList k k' v l
    rw [insertList]
    by_cases h1 : k < e.1
    · rw [if_pos h1, lookup_cons_eq_ite]
    rw [if_neg h1]
    by_cases h2 : k = e.1
    · rw [if_pos h2, lookup_cons_eq_ite, lookup_cons_eq_ite, ← h2]
      split_ifs <;> rfl
    · rw [if_neg h2, lookup_cons_eq_ite, lookup_cons_eq_ite, ih]
      by_cases h3 : k' = k
      · rw [if_neg fun h => h2 (h3.symm.trans h), if_pos h3]
        simp [h3]
      · simp [h3]

/-- **Putting in changes what is found under one key.** -/
theorem find?_insert (m : SortedMap K V) (k k' : K) (v : V) :
    (m.insert k v).find? k' = if k' = k then some v else m.find? k' :=
  lookup_insertList k k' v m.entries

@[simp] theorem find?_insert_self (m : SortedMap K V) (k : K) (v : V) :
    (m.insert k v).find? k = some v := by rw [find?_insert, if_pos rfl]

/-- Under any other key the same is found. -/
theorem find?_insert_ne (m : SortedMap K V) {k k' : K} (v : V) (h : k' ≠ k) :
    (m.insert k v).find? k' = m.find? k' := by rw [find?_insert, if_neg h]

/-- Keep the entries a test accepts. -/
def filter (m : SortedMap K V) (p : K → V → Bool) : SortedMap K V :=
  ⟨m.entries.filter fun e => p e.1 e.2, m.sorted.sublist (List.filter_sublist.map _)⟩

/-- What is found in a part is what is found in the whole, if it is kept. -/
theorem find?_filter (m : SortedMap K V) (p : K → V → Bool) (k : K) :
    (m.filter p).find? k = (m.find? k).filter (p k) := by
  refine Option.ext fun v => ?_
  rw [Option.filter_eq_some_iff, find?_eq_some_iff, find?_eq_some_iff]
  simp [filter]

/-- Remove the entry of a key. -/
def erase (m : SortedMap K V) (k : K) : SortedMap K V := m.filter fun k' _ => k' ≠ k

/-- **Taking out empties one key.** -/
theorem find?_erase (m : SortedMap K V) (k k' : K) :
    (m.erase k).find? k' = if k' = k then none else m.find? k' := by
  rw [erase, find?_filter]
  split_ifs with h <;> cases m.find? k' <;> simp [Option.filter, h]

@[simp] theorem find?_erase_self (m : SortedMap K V) (k : K) : (m.erase k).find? k = none := by
  rw [find?_erase, if_pos rfl]

/-- Under any other key the same is found. -/
theorem find?_erase_ne (m : SortedMap K V) {k k' : K} (h : k' ≠ k) :
    (m.erase k).find? k' = m.find? k' := by rw [find?_erase, if_neg h]

/-! ## Changing values in place

The keys stay, and so does the order; a change of one value is the change of all that leaves the
others.  Looking up with a default (`getD`) gets its rules beside those of `find?`. -/

/-- Apply a function to every value. -/
def mapVal (m : SortedMap K V) (f : K → V → W) : SortedMap K W :=
  ⟨m.entries.map fun e => (e.1, f e.1 e.2), by rw [List.map_map]; exact m.sorted⟩

/-- What is found after a change of all values is what was found, changed. -/
theorem find?_mapVal (m : SortedMap K V) (f : K → V → W) (k : K) :
    (m.mapVal f).find? k = (m.find? k).map (f k) := by
  refine Option.ext fun w => ?_
  rw [find?_eq_some_iff, Option.map_eq_some_iff]
  constructor
  · intro h
    obtain ⟨⟨k', v⟩, hm, he⟩ := List.mem_map.1 h
    obtain ⟨rfl, rfl⟩ := Prod.mk.inj he
    exact ⟨v, find?_eq_some_iff.2 hm, rfl⟩
  · rintro ⟨v, hv, rfl⟩
    exact List.mem_map.2 ⟨(k, v), find?_eq_some_iff.1 hv, rfl⟩

/-- Apply a function to the value of one key, if it is there. -/
def modify (m : SortedMap K V) (k : K) (f : V → V) : SortedMap K V :=
  m.mapVal fun k' v => if k' = k then f v else v

/-- **A change in place is seen under its key alone.** -/
theorem find?_modify (m : SortedMap K V) (k k' : K) (f : V → V) :
    (m.modify k f).find? k' = if k' = k then (m.find? k').map f else m.find? k' := by
  rw [modify, find?_mapVal]
  split_ifs with h <;> simp [h]

@[simp] theorem find?_modify_self (m : SortedMap K V) (k : K) (f : V → V) :
    (m.modify k f).find? k = (m.find? k).map f := by rw [find?_modify, if_pos rfl]

/-- Under any other key the same is found. -/
theorem find?_modify_ne (m : SortedMap K V) {k k' : K} (f : V → V) (h : k' ≠ k) :
    (m.modify k f).find? k' = m.find? k' := by rw [find?_modify, if_neg h]

/-- Looking up with a default, after putting in. -/
theorem getD_insert (m : SortedMap K V) (k k' : K) (v d : V) :
    (m.insert k v).getD k' d = if k' = k then v else m.getD k' d := by
  rw [getD, find?_insert]
  split_ifs <;> rfl

/-- Looking up with a default, after a change elsewhere. -/
theorem getD_modify_ne (m : SortedMap K V) {k k' : K} (f : V → V) (d : V) (h : k' ≠ k) :
    (m.modify k f).getD k' d = m.getD k' d := by rw [getD, find?_modify_ne m f h, getD]

/-- A default is not used where something is found. -/
theorem getD_of_find? {m : SortedMap K V} {k : K} {v : V} (h : m.find? k = some v) (d : V) :
    m.getD k d = v := by rw [getD, h, Option.getD_some]

/-- A default stands for a key that is not there. -/
theorem getD_of_not_mem {m : SortedMap K V} {k : K} (h : k ∉ m) (d : V) : m.getD k d = d := by
  rw [getD, find?_eq_none_iff.2 h, Option.getD_none]

/-- There is nothing to change under a key that is not there. -/
theorem modify_of_not_mem {m : SortedMap K V} {k : K} (h : k ∉ m) (f : V → V) :
    m.modify k f = m := by
  refine ext_find? fun k' => ?_
  rw [find?_modify]
  split_ifs with hk
  · rw [hk, find?_eq_none_iff.2 h]
    rfl
  · rfl

theorem mem_insert {m : SortedMap K V} {k k' : K} {v : V} :
    k' ∈ m.insert k v ↔ k' = k ∨ k' ∈ m := by
  rw [mem_iff_find?, mem_iff_find?, find?_insert]
  split_ifs with h <;> simp [h]

theorem mem_erase {m : SortedMap K V} {k k' : K} : k' ∈ m.erase k ↔ k' ≠ k ∧ k' ∈ m := by
  rw [mem_iff_find?, mem_iff_find?, find?_erase]
  split_ifs with h <;> simp [h]

/-- A change of the values keeps the keys. -/
@[simp] theorem mem_mapVal {m : SortedMap K V} {f : K → V → W} {k : K} :
    k ∈ m.mapVal f ↔ k ∈ m := by
  rw [mem_iff_find?, mem_iff_find?, find?_mapVal]
  simp

@[simp] theorem mem_modify {m : SortedMap K V} {k k' : K} {f : V → V} :
    k' ∈ m.modify k f ↔ k' ∈ m := mem_mapVal

@[simp] theorem not_mem_empty (k : K) : k ∉ (∅ : SortedMap K V) := List.not_mem_nil

/-! ## Size

The size bounds a container, whose limit decides what is evicted.  Inserting under a new key adds
one entry somewhere in the list, which `entries_insert_perm` says up to order. -/

/-- A new key adds its entry to the others. -/
theorem entries_insert_perm {m : SortedMap K V} {k : K} (h : k ∉ m) (v : V) :
    (m.insert k v).entries.Perm ((k, v) :: m.entries) := by
  refine (List.perm_ext_iff_of_nodup (m.insert k v).nodup_keys.of_map
    (List.nodup_cons.2 ⟨fun he => h (mem_of_find? (find?_eq_some_iff.2 he)),
      m.nodup_keys.of_map⟩)).2 ?_
  rintro ⟨k', v'⟩
  rw [← find?_eq_some_iff, find?_insert, List.mem_cons, Prod.mk.injEq, ← find?_eq_some_iff]
  split_ifs with hk
  · rw [hk, find?_eq_none_iff.2 h]
    simp [eq_comm]
  · simp [hk]

/-- A change of the values keeps the size. -/
@[simp] theorem size_mapVal (m : SortedMap K V) (f : K → V → W) : (m.mapVal f).size = m.size :=
  List.length_map _

/-- A part is no larger than the whole. -/
theorem size_filter_le (m : SortedMap K V) (p : K → V → Bool) : (m.filter p).size ≤ m.size :=
  List.length_filter_le ..

/-! ## A property of every value

Invariants of a table are mostly of this kind: each of its entries has some form.  One rule for each
operation says that the property is kept. -/

section All

/-- Every value has the property. -/
def All (Q : V → Prop) (m : SortedMap K V) : Prop := ∀ k v, m.find? k = some v → Q v

variable {Q : V → Prop} {m : SortedMap K V}

theorem all_empty : All Q (∅ : SortedMap K V) := fun k v h => by simp at h

/-- A value that has the property may be put in. -/
theorem All.insert (h : m.All Q) (k : K) {v : V} (hv : Q v) : (m.insert k v).All Q := by
  intro k' v' h'
  rw [find?_insert] at h'
  split_ifs at h' with hk
  · exact Option.some.inj h' ▸ hv
  · exact h k' v' h'

/-- A change of all values carries a property over. -/
theorem All.mapVal (h : m.All Q) {W : Type*} {R : W → Prop} {f : K → V → W}
    (hf : ∀ k v, Q v → R (f k v)) : (m.mapVal f).All R := by
  intro k w h'
  rw [find?_mapVal, Option.map_eq_some_iff] at h'
  obtain ⟨v, hv, rfl⟩ := h'
  exact hf k v (h k v hv)

/-- A change that keeps the property keeps it of all. -/
theorem All.modify (h : m.All Q) (k : K) {g : V → V} (hg : ∀ v, Q v → Q (g v)) :
    (m.modify k g).All Q :=
  h.mapVal fun k' v hv => by
    split_ifs
    · exact hg v hv
    · exact hv

theorem All.filter (h : m.All Q) (p : K → V → Bool) : (m.filter p).All Q := by
  intro k v h'
  rw [find?_filter, Option.filter_eq_some_iff] at h'
  exact h k v h'.1

theorem All.erase (h : m.All Q) (k : K) : (m.erase k).All Q := h.filter _

/-- What is found has the property, if the default has it. -/
theorem All.getD (h : m.All Q) (k : K) {d : V} (hd : Q d) : Q (m.getD k d) := by
  rw [SortedMap.getD]
  rcases hf : m.find? k with _ | v
  · exact hd
  · exact h k v hf

theorem All.imp (h : m.All Q) {R : V → Prop} (hqr : ∀ v, Q v → R v) : m.All R :=
  fun k v hv => hqr v (h k v hv)

end All

/-! ## Counting maps

A map to `ℕ` read as a table of counts: an absent key counts zero. -/

section Counts

/-- The count under a key. -/
def count (m : SortedMap K ℕ) (k : K) : ℕ := m.getD k 0

/-- A count is what is found, or zero. -/
theorem count_eq (m : SortedMap K ℕ) (k : K) : m.count k = (m.find? k).getD 0 := rfl

@[simp] theorem count_empty (k : K) : (∅ : SortedMap K ℕ).count k = 0 := rfl

/-- A count that is set, and the others as before. -/
theorem count_insert (m : SortedMap K ℕ) (k k' : K) (n : ℕ) :
    (m.insert k n).count k' = if k' = k then n else m.count k' := by
  rw [count_eq, find?_insert]
  split_ifs <;> rfl

theorem count_erase (m : SortedMap K ℕ) (k k' : K) :
    (m.erase k).count k' = if k' = k then 0 else m.count k' := by
  rw [count_eq, find?_erase]
  split_ifs <;> rfl

/-- The entries under a key sum to its count. -/
theorem sum_entries_eq_count (m : SortedMap K ℕ) (k : K) [∀ a : K, Decidable (a = k)] :
    (m.entries.map fun e => if e.1 = k then e.2 else 0).sum = m.count k := by
  have h : ∀ l : List (K × ℕ), (l.map Prod.fst).Nodup →
      (l.map fun e => if e.1 = k then e.2 else 0).sum = (l.lookup k).getD 0 := fun l => by
    induction l with
    | nil => intro; rfl
    | cons e l ih =>
      intro hnd
      obtain ⟨he, hl⟩ := List.nodup_cons.1 hnd
      rw [List.map_cons, List.sum_cons, lookup_cons_eq_ite]
      by_cases hk : e.1 = k
      · have hz : (l.map fun e => if e.1 = k then e.2 else 0).sum = 0 := by
          rw [List.sum_eq_zero_iff]
          intro n hn
          obtain ⟨p, hp, rfl⟩ := List.mem_map.1 hn
          refine if_neg fun hpk => he ?_
          rw [hk, ← hpk]
          exact List.mem_map_of_mem hp
        rw [if_pos hk, if_pos hk.symm, hz]
        rfl
      · rw [if_neg hk, if_neg (Ne.symm hk), Nat.zero_add, ih hl]
  exact h m.entries m.nodup_keys

end Counts

end SortedMap

/-! ## Ordered sets

A set is a map without values, so membership and its rules are those of the keys. -/

/-- **A finite set**, its members in increasing order: a map to nothing. -/
abbrev SortedSet (K : Type*) [LinearOrder K] := SortedMap K Unit

namespace SortedSet

variable {K : Type*} [LinearOrder K]

/-- Add a member. -/
def add (s : SortedSet K) (k : K) : SortedSet K := SortedMap.insert s k ()

/-- Add the members of a list, in order. -/
def addAll (s : SortedSet K) (l : List K) : SortedSet K := l.foldl add s

@[simp] theorem mem_add {s : SortedSet K} {k k' : K} : k' ∈ s.add k ↔ k' = k ∨ k' ∈ s :=
  SortedMap.mem_insert

@[simp] theorem mem_addAll {l : List K} : ∀ {s : SortedSet K} {k : K},
    k ∈ s.addAll l ↔ k ∈ l ∨ k ∈ s := by
  induction l with
  | nil => simp [addAll]
  | cons a l ih =>
    intro s k
    rw [addAll, List.foldl_cons, ← addAll, ih, mem_add, List.mem_cons]
    tauto

end SortedSet
