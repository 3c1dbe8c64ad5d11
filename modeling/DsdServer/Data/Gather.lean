import DsdServer.Data.Weight
import DsdServer.Data.Wrap

/-!
# Data/Gather — the entries of a map under other keys

Each entry goes under the key `f` gives it: alone there it starts a value, and otherwise it joins
the one that is there.  What joining adds up, gathering conserves, with whole turns lost where the
adding is done in counters that wrap; a key that is its own comes first when the entries that stay
are gathered before those that move.

The condition under which values may be joined is a predicate of two of them (`Joins`): where adding
is done in counters that wrap, it says which sums fit, and where it is a union, nothing at all.
-/

namespace SortedMap

variable {K V : Type*} [LinearOrder K]

section Gather

variable (f : K → K) (start : K → V → V) (join : V → V → V)

/-- Gather one entry. -/
def gather (m : SortedMap K V) (e : K × V) : SortedMap K V :=
  m.insert (f e.1) ((m.find? (f e.1)).elim (start (f e.1) e.2) fun v => join v e.2)

/-- Gather the entries that stay under their keys, and then the others. -/
def gathered (m : SortedMap K V) : SortedMap K V :=
  (m.entries.filter fun e => f e.1 ≠ e.1).foldl (gather f start join)
    ((m.entries.filter fun e => f e.1 = e.1).foldl (gather f start join) ∅)

/-- **Every join that gathering makes** is of two values that go together. -/
def Joins (P : V → V → Prop) : SortedMap K V → List (K × V) → Prop
  | _, [] => True
  | m, e :: l => (∀ v ∈ m.find? (f e.1), P v e.2) ∧ Joins P (gather f start join m e) l

/-- Every join that gathering a map makes is of two values that go together. -/
def GatherJoins (P : V → V → Prop) (m : SortedMap K V) : Prop :=
  Joins f start join P ∅
    ((m.entries.filter fun e => f e.1 = e.1) ++ m.entries.filter fun e => f e.1 ≠ e.1)

instance decidableJoins (P : V → V → Prop) [DecidableRel P] :
    ∀ m l, Decidable (Joins f start join P m l)
  | _, [] => isTrue trivial
  | m, e :: l => by
    have := decidableJoins P (gather f start join m e) l
    exact inferInstanceAs (Decidable (_ ∧ _))

instance (P : V → V → Prop) [DecidableRel P] (m : SortedMap K V) :
    Decidable (GatherJoins f start join P m) := decidableJoins f start join P ∅ _

end Gather

variable {f : K → K} {start : K → V → V} {join : V → V → V}

/-- Gathering has the keys that were there and those the entries are given. -/
theorem mem_foldl_gather {l : List (K × V)} : ∀ {m : SortedMap K V} {k : K},
    k ∈ l.foldl (gather f start join) m ↔ k ∈ m ∨ ∃ e ∈ l, f e.1 = k := by
  induction l with
  | nil => simp
  | cons e l ih =>
    intro m k
    rw [List.foldl_cons, ih, gather, mem_insert, List.exists_mem_cons_iff, eq_comm, or_assoc,
      or_left_comm]

/-- **The keys gathered are those that the entries go under.** -/
theorem mem_gathered {m : SortedMap K V} {k : K} :
    k ∈ m.gathered f start join ↔ ∃ j ∈ m, f j = k := by
  rw [gathered, mem_foldl_gather, mem_foldl_gather]
  constructor
  · rintro ((h | ⟨e, he, rfl⟩) | ⟨e, he, rfl⟩)
    · exact absurd h (not_mem_empty k)
    · exact ⟨e.1, List.mem_map_of_mem (List.mem_filter.1 he).1, rfl⟩
    · exact ⟨e.1, List.mem_map_of_mem (List.mem_filter.1 he).1, rfl⟩
  · rintro ⟨j, hj, rfl⟩
    obtain ⟨e, he, rfl⟩ := List.mem_map.1 hj
    by_cases hf : f e.1 = e.1
    · exact Or.inl (Or.inr ⟨e, List.mem_filter.2 ⟨he, decide_eq_true hf⟩, rfl⟩)
    · exact Or.inr ⟨e, List.mem_filter.2 ⟨he, decide_eq_true hf⟩, rfl⟩

/-- **What joining adds up is conserved**, but for whole turns. -/
theorem turns_weight_foldl_gather {w : V → ℕ} {N : ℕ} {P : V → V → Prop}
    (hs : ∀ k v, w (start k v) = w v) (hj : ∀ v v', P v v' → Turns N (w (join v v')) (w v + w v'))
    {l : List (K × V)} :
    ∀ {m : SortedMap K V}, Joins f start join P m l →
      Turns N ((l.foldl (gather f start join) m).weight w)
        (m.weight w + (l.map fun e => w e.2).sum) := by
  induction l with
  | nil => exact fun _ => Turns.refl N _
  | cons e l ih =>
    intro m h
    have hstep : Turns N ((gather f start join m e).weight w) (m.weight w + w e.2) := by
      rw [gather, weight_insert]
      obtain ⟨o, ho⟩ : ∃ o, m.find? (f e.1) = o := ⟨_, rfl⟩
      rw [ho]
      rcases o with _ | v
      · rw [Option.elim_none, hs, erase_of_not_mem (find?_eq_none_iff.1 ho), Nat.add_comm]
        exact Turns.refl N _
      · rw [Option.elim_some, weight_of_find? w ho, Nat.add_right_comm]
        exact (hj v e.2 (h.1 v ho)).add_right _
    rw [List.foldl_cons, List.map_cons, List.sum_cons, ← Nat.add_assoc]
    exact (ih h.2).trans (hstep.add_right _)

/-- **What joining adds up, gathering conserves**, but for whole turns of the counter. -/
theorem turns_weight_gathered {w : V → ℕ} {N : ℕ} {P : V → V → Prop} {m : SortedMap K V}
    (h : GatherJoins f start join P m) (hs : ∀ k v, w (start k v) = w v)
    (hj : ∀ v v', P v v' → Turns N (w (join v v')) (w v + w v')) :
    Turns N ((m.gathered f start join).weight w) (m.weight w) := by
  have hp : ((m.entries.filter fun e => f e.1 = e.1) ++ m.entries.filter fun e => f e.1 ≠ e.1).Perm
      m.entries := by
    simpa using List.filter_append_perm (fun e => decide (f e.1 = e.1)) m.entries
  have hsum := turns_weight_foldl_gather hs hj h
  rw [weight_empty, Nat.zero_add, (hp.map _).sum_eq] at hsum
  rw [gathered, ← List.foldl_append]
  exact hsum

/-- What joining keeps is kept under a key. -/
theorem find?_foldl_gather {Q : K → V → Prop} (hj : ∀ k v v', Q k v → Q k (join v v'))
    {l : List (K × V)} : ∀ {m : SortedMap K V} {k : K} {v : V}, m.find? k = some v → Q k v →
      ∃ v', (l.foldl (gather f start join) m).find? k = some v' ∧ Q k v' := by
  induction l with
  | nil => exact fun h hv => ⟨_, h, hv⟩
  | cons e l ih =>
    intro m k v h hv
    by_cases hk : k = f e.1
    · have hg : (gather f start join m e).find? k = some (join v e.2) := by
        rw [gather, find?_insert, if_pos hk, ← hk, h, Option.elim_some]
      exact ih hg (hj k v e.2 hv)
    · exact ih ((find?_insert_ne m _ hk).trans h) hv

/-- What starting gives and joining keeps is had by every value gathered. -/
theorem all_foldl_gather {Q : K → V → Prop} (hs : ∀ k v, Q k (start k v))
    (hj : ∀ k v v', Q k v → Q k (join v v')) {l : List (K × V)} : ∀ {m : SortedMap K V},
      (∀ k v, m.find? k = some v → Q k v) →
        ∀ k v, (l.foldl (gather f start join) m).find? k = some v → Q k v := by
  induction l with
  | nil => exact fun h => h
  | cons e l ih =>
    intro m h
    refine ih fun k v hv => ?_
    rw [gather, find?_insert] at hv
    split_ifs at hv with hk
    · rw [← Option.some.inj hv, hk]
      obtain ⟨o, ho⟩ : ∃ o, m.find? (f e.1) = o := ⟨_, rfl⟩
      rw [ho]
      rcases o with _ | v
      · exact hs _ _
      · exact hj _ _ _ (h _ v ho)
    · exact h k v hv

/-- What holds of every start and is kept by joining holds of every value gathered. -/
theorem all_gathered {Q : K → V → Prop} (hs : ∀ k v, Q k (start k v))
    (hj : ∀ k v v', Q k v → Q k (join v v')) {m : SortedMap K V} :
    ∀ k v, (m.gathered f start join).find? k = some v → Q k v := by
  refine all_foldl_gather hs hj (all_foldl_gather hs hj fun k v h => ?_)
  rw [find?_empty] at h
  exact absurd h (Option.some_ne_none v).symm

/-- **Entries that stay, under different keys, each start a value.** -/
theorem find?_foldl_gather_fixed {l : List (K × V)} : ∀ {m : SortedMap K V},
    (∀ e ∈ l, f e.1 = e.1 ∧ e.1 ∉ m) → (l.map Prod.fst).Nodup → ∀ k,
      (l.foldl (gather f start join) m).find? k = ((l.lookup k).map (start k)).or (m.find? k) := by
  induction l with
  | nil => exact fun _ _ _ => rfl
  | cons e l ih =>
    intro m h hnd k
    obtain ⟨he, hnd⟩ := List.nodup_cons.1 hnd
    obtain ⟨hf, hm⟩ := h e List.mem_cons_self
    have hg : gather f start join m e = m.insert e.1 (start e.1 e.2) := by
      rw [gather, hf, find?_eq_none_iff.2 hm, Option.elim_none]
    have hl : ∀ e' ∈ l, f e'.1 = e'.1 ∧ e'.1 ∉ gather f start join m e := by
      intro e' he'
      obtain ⟨hf', hm'⟩ := h e' (List.mem_cons_of_mem e he')
      refine ⟨hf', fun hin => ?_⟩
      rw [hg, mem_insert] at hin
      rcases hin with hin | hin
      · exact he (hin ▸ List.mem_map_of_mem he')
      · exact hm' hin
    rw [List.foldl_cons, ih hl hnd, hg, find?_insert, lookup_cons_eq_ite]
    by_cases hk : k = e.1
    · have hnone : l.lookup k = none := by
        rw [List.lookup_eq_none_iff]
        intro p hp
        have hne : k ≠ p.1 := fun h => he (hk ▸ h ▸ List.mem_map_of_mem hp)
        simpa using hne
      rw [hnone, if_pos hk, if_pos hk, hk]
      rfl
    · rw [if_neg hk, if_neg hk]

/-- **A key that stays keeps what its own value starts.** -/
theorem find?_gathered {Q : K → V → Prop} (hj : ∀ k v v', Q k v → Q k (join v v'))
    {m : SortedMap K V} {k : K} {v : V} (hv : m.find? k = some v) (hk : f k = k)
    (hq : Q k (start k v)) :
    ∃ v', (m.gathered f start join).find? k = some v' ∧ Q k v' := by
  have hsub : ((m.entries.filter fun e => f e.1 = e.1).map Prod.fst).Sublist m.keys :=
    List.Sublist.map _ List.filter_sublist
  have hnd := hsub.nodup m.nodup_keys
  have hsorted : ((m.entries.filter fun e => f e.1 = e.1).map Prod.fst).Pairwise (· < ·) :=
    m.sorted.sublist hsub
  have hmem : (k, v) ∈ m.entries.filter fun e => f e.1 = e.1 :=
    List.mem_filter.2 ⟨find?_eq_some_iff.1 hv, decide_eq_true hk⟩
  refine find?_foldl_gather (v := start k v) hj ?_ hq
  rw [find?_foldl_gather_fixed
    (fun e he => ⟨of_decide_eq_true (List.mem_filter.1 he).2, not_mem_empty _⟩) hnd,
    (lookup_eq_some_iff hsorted).2 hmem]
  rfl

/-- **A map whose entries all stay, each as it would start, is gathered as it is.** -/
theorem gathered_eq_self {m : SortedMap K V}
    (h : ∀ k v, m.find? k = some v → f k = k ∧ start k v = v) :
    m.gathered f start join = m := by
  have hfix : ∀ e ∈ m.entries, f e.1 = e.1 ∧ start e.1 e.2 = e.2 := fun e he =>
    h e.1 e.2 (find?_eq_some_iff.2 he)
  have hstay : (m.entries.filter fun e => f e.1 = e.1) = m.entries :=
    List.filter_eq_self.2 fun e he => decide_eq_true (hfix e he).1
  have hmove : (m.entries.filter fun e => f e.1 ≠ e.1) = [] :=
    List.filter_eq_nil_iff.2 fun e he => by simp [(hfix e he).1]
  refine ext_find? fun k => ?_
  rw [gathered, hstay, hmove, List.foldl_nil,
    find?_foldl_gather_fixed (fun e he => ⟨(hfix e he).1, not_mem_empty _⟩) m.nodup_keys,
    find?_empty, Option.or_none]
  change (m.find? k).map (start k) = m.find? k
  obtain ⟨o, ho⟩ : ∃ o, m.find? k = o := ⟨_, rfl⟩
  rw [ho]
  rcases o with _ | v
  · rfl
  · exact congrArg some (h k v ho).2

end SortedMap
