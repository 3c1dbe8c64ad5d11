import Mathlib.Order.Minimal
import Mathlib.Data.List.Nodup
import Mathlib.Data.List.Induction

/-!
# Data/Maximal — collecting the maximal members of a list

A member below one that is already there is dropped, and a new one replaces those below it.
Whatever the order of the list, its maximal members remain, each once (`mem_foldl_keepMaximal`).

The invariant of the scan is `KeepsMaximal`: what is collected comes from the list, lies below
nothing else collected, and has every member of the list below it.  A finite order is all it takes;
no member is compared with itself.
-/

namespace DsdServer

variable {α : Type*} [PartialOrder α]

/-- **Take one more member.** -/
def keepMaximal [DecidableLE α] (xs : List α) (x : α) : List α :=
  if ∃ y ∈ xs, x ≤ y then xs else xs.filter (fun y => ¬y ≤ x) ++ [x]

/-- What is kept of a list: members of it, none below another, and each member below one of them. -/
structure KeepsMaximal (l xs : List α) : Prop where
  sub : ∀ y ∈ xs, y ∈ l
  above : ∀ z ∈ l, ∃ y ∈ xs, z ≤ y
  antichain : ∀ y ∈ xs, ∀ z ∈ xs, y ≤ z → y = z
  nodup : xs.Nodup

namespace KeepsMaximal

variable {l xs : List α}

/-- Nothing is collected of an empty list. -/
theorem nil : KeepsMaximal ([] : List α) [] :=
  ⟨fun _ h => h, fun _ h => absurd h List.not_mem_nil, fun _ h => absurd h List.not_mem_nil,
    List.nodup_nil⟩

/-- One more member keeps what is collected right. -/
theorem snoc [DecidableLE α] (h : KeepsMaximal l xs) (x : α) :
    KeepsMaximal (l ++ [x]) (keepMaximal xs x) := by
  rw [keepMaximal]
  split_ifs with hx
  · refine ⟨fun y hy => List.mem_append_left _ (h.sub y hy), fun z hz => ?_, h.antichain, h.nodup⟩
    rcases List.mem_append.1 hz with hz | hz
    · exact h.above z hz
    · exact List.mem_singleton.1 hz ▸ hx
  · have hmem : ∀ {y}, y ∈ xs.filter (fun y => ¬y ≤ x) ↔ y ∈ xs ∧ ¬y ≤ x := fun {y} => by
      rw [List.mem_filter, decide_eq_true_eq]
    refine ⟨fun y hy => ?_, fun z hz => ?_, fun y hy z hz hyz => ?_, ?_⟩
    · rcases List.mem_append.1 hy with hy | hy
      · exact List.mem_append_left _ (h.sub y (hmem.1 hy).1)
      · exact List.mem_append_right _ hy
    · rcases List.mem_append.1 hz with hz | hz
      · obtain ⟨y, hy, hzy⟩ := h.above z hz
        by_cases hyx : y ≤ x
        · exact ⟨x, List.mem_append_right _ (List.mem_singleton_self x), hzy.trans hyx⟩
        · exact ⟨y, List.mem_append_left _ (hmem.2 ⟨hy, hyx⟩), hzy⟩
      · exact ⟨x, List.mem_append_right _ (List.mem_singleton_self x), (List.mem_singleton.1 hz).le⟩
    · rcases List.mem_append.1 hy with hy | hy <;> rcases List.mem_append.1 hz with hz | hz
      · exact h.antichain y (hmem.1 hy).1 z (hmem.1 hz).1 hyz
      · exact absurd (List.mem_singleton.1 hz ▸ hyz) (hmem.1 hy).2
      · exact absurd ⟨z, (hmem.1 hz).1, List.mem_singleton.1 hy ▸ hyz⟩ hx
      · rw [List.mem_singleton.1 hy, List.mem_singleton.1 hz]
    · refine List.nodup_append.2 ⟨h.nodup.filter _, List.nodup_singleton x, fun y hy z hz hyz => ?_⟩
      exact (hmem.1 hy).2 ((List.mem_singleton.1 hz) ▸ hyz.le)

/-- **The scan collects the maximal members.** -/
theorem foldl [DecidableLE α] (l : List α) : KeepsMaximal l (l.foldl keepMaximal []) := by
  induction l using List.reverseRecOn with
  | nil => exact nil
  | append_singleton l x ih =>
    rw [List.foldl_append]
    exact ih.snoc x

/-- What is collected are the maximal members and no others. -/
theorem mem_iff (h : KeepsMaximal l xs) {y : α} : y ∈ xs ↔ Maximal (· ∈ l) y := by
  constructor
  · refine fun hy => ⟨h.sub y hy, fun z hz hyz => ?_⟩
    obtain ⟨w, hw, hzw⟩ := h.above z hz
    exact (h.antichain y hy w hw (hyz.trans hzw)) ▸ hzw
  · rintro ⟨hy, hmax⟩
    obtain ⟨w, hw, hyw⟩ := h.above y hy
    exact hyw.antisymm (hmax (h.sub w hw) hyw) ▸ hw

end KeepsMaximal

/-- **The maximal members remain**, whatever the order. -/
theorem mem_foldl_keepMaximal [DecidableLE α] {l : List α} {y : α} :
    y ∈ l.foldl keepMaximal [] ↔ Maximal (· ∈ l) y := (KeepsMaximal.foldl l).mem_iff

/-- Each once. -/
theorem nodup_foldl_keepMaximal [DecidableLE α] (l : List α) : (l.foldl keepMaximal []).Nodup :=
  (KeepsMaximal.foldl l).nodup

end DsdServer
