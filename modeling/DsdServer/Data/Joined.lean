import DsdServer.Data.Weight
import DsdServer.Data.Wrap

/-!
# Data/Joined — a map put into another

The entries of a map go into another one after the other, each with what is there already.  As a
map's keys are its own, what comes of a key is decided by the two entries of that key alone
(`find?_joinInto`).
-/

namespace SortedMap

variable {K V W : Type*} [LinearOrder K]

/-- **The entries of `n`, put into `m`**: `g` makes the new entry of what is there and what
comes. -/
def joinInto (g : K → Option V → W → V) (m : SortedMap K V) (n : SortedMap K W) : SortedMap K V :=
  n.entries.foldl (fun m e => m.insert e.1 (g e.1 (m.find? e.1) e.2)) m

/-- By induction on the entries: each key is met once, so the value it is joined with is that of the
map before. -/
theorem find?_foldl_joinInto (g : K → Option V → W → V) (k : K) :
    ∀ (l : List (K × W)) (m : SortedMap K V),
    (l.map Prod.fst).Nodup →
      (l.foldl (fun m e => m.insert e.1 (g e.1 (m.find? e.1) e.2)) m).find? k =
        match l.lookup k with
        | none => m.find? k
        | some w => some (g k (m.find? k) w) := by
  intro l
  induction l with
  | nil => exact fun _ _ => rfl
  | cons e l ih =>
    intro m hnd
    rw [List.map_cons, List.nodup_cons] at hnd
    rw [List.foldl_cons, ih _ hnd.2, lookup_cons_eq_ite, find?_insert]
    split_ifs with hk
    · have hnone : l.lookup k = none := by
        rw [List.lookup_eq_none_iff]
        intro p hp
        have hne : k ≠ p.1 := fun he => hnd.1 (hk ▸ he ▸ List.mem_map_of_mem hp)
        simpa using hne
      rw [hnone, hk]
    · rfl

/-- **What is under a key** is decided by what both maps have there. -/
theorem find?_joinInto (g : K → Option V → W → V) (m : SortedMap K V) (n : SortedMap K W) (k : K) :
    (m.joinInto g n).find? k = match n.find? k with
      | none => m.find? k
      | some w => some (g k (m.find? k) w) := find?_foldl_joinInto g k n.entries m n.nodup_keys

/-- What adds up entry by entry, but for whole turns, adds up so over the maps. -/
theorem turns_value_joinInto {ι : Type*} {N : ℕ} {val : V → ι → ℕ} (valW : W → ι → ℕ)
    {g : K → Option V → W → V} {d : V} {d' : W} {m : SortedMap K V} {n : SortedMap K W} {k : K}
    {i : ι} (hd' : valW d' i = 0)
    (hg : ∀ w, n.find? k = some w →
      Turns N (val (g k (m.find? k) w) i) (val ((m.find? k).getD d) i + valW w i)) :
    Turns N (val ((m.joinInto g n).getD k d) i) (val (m.getD k d) i + valW (n.getD k d') i) := by
  rw [getD, getD, getD, find?_joinInto]
  rcases hn : n.find? k with _ | w
  · dsimp only
    rw [Option.getD_none, hd', Nat.add_zero]
    exact Turns.refl ..
  · exact hg w hn

end SortedMap
