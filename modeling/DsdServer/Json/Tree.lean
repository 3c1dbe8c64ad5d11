import DsdServer.Data.Nested
import DsdServer.Json.RoundTrip

/-!
# Json/Tree — a map as an object

The text of a map is that of an object of its entries; the reader goes through them one by one.
-/

open Bytes

namespace DsdServer

open mjson assocjson

variable {W : Type}

/-- A map's values, by their keys. -/
def objectOf (g : W → Bytes) (m : SortedMap Bytes W) : Bytes :=
  braces (commas (m.entries.map fun e => member e.1 (g e.2)))

/-- A map's values, by their keys. -/
def tree (f : W → V) (m : SortedMap Bytes W) : V := .obj (m.entries.map fun e => (e.1, f e.2))

/-- **A map is written as an object** of its entries. -/
theorem render_tree {f : W → V} {g : W → Bytes} (h : ∀ w, render (f w) = g w)
    (m : SortedMap Bytes W) : render (tree f m) = objectOf g m := by
  rw [tree, render_obj, objectOf, List.map_map]
  refine congrArg (fun l => braces (commas l)) (List.map_congr_left fun e _ => ?_)
  rw [Function.comp_apply, memberOf, h]

theorem fitsMembers_iff {d : ℕ} {o : List (Bytes × V)} :
    FitsMembers d o ↔ ∀ kv ∈ o, Fits d kv.2 := by
  induction o with
  | nil => exact iff_of_true (by rw [FitsMembers]; trivial) fun _ h => absurd h List.not_mem_nil
  | cons kv o ih => rw [FitsMembers, ih, List.forall_mem_cons]

/-- A map is taken by the reader when its values are. -/
theorem fits_tree {f : W → V} {P : Bytes → W → Prop} {m : SortedMap Bytes W} {d : ℕ}
    (hd : d ≤ 64) (hm : m.Each P) (h : ∀ k w, P k w → Fits (d + 1) (f w)) : Fits d (tree f m) := by
  rw [tree, Fits, fitsMembers_iff]
  refine ⟨hd, fun kv hkv => ?_⟩
  obtain ⟨e, he, rfl⟩ := List.mem_map.1 hkv
  exact h e.1 e.2 (hm e.1 e.2 (SortedMap.find?_eq_some_iff.2 he))

/-- The entries of a tree are read one by one. -/
theorem foldl_members_tree {α : Type} (f : W → V) (m : SortedMap Bytes W) (g : α → Bytes × V → α)
    (a : α) :
    (tree f m).members.foldl g a = m.entries.foldl (fun a e => g a (e.1, f e.2)) a :=
  List.foldl_map ..

/-- An integer that a double holds is converted to itself. -/
theorem toI64_intCast {i : ℤ} (hi : |i| < 2 ^ 53) : (Double.finite i).toI64 = i := by
  rw [abs_lt] at hi
  rw [Double.toI64, Double.trunc_intCast, if_pos]
  omega

end DsdServer
