import Mathlib.Data.List.Infix

/-!
# Data/Runs — the longest run of a list

A run of `f` in a list is a stretch of consecutive elements on each of which `f` has a value, and is
read as those values.  One scan finds a longest one, the first among equals.

The scan keeps the run it is in and the best one so far.  That what it gives is a run is an
invariant of the two (`scan_isRun`), and that no run is longer follows from where the run begins: at
its first element the scan starts anew, and after that goes along with it.
-/

namespace Runs

variable {α β : Type*}

/-- The values of `f` on a stretch of the list. -/
def IsRun (f : α → Option β) (l : List α) (r : List β) : Prop :=
  ∃ seg, seg <:+: l ∧ seg.map f = r.map some

/-- The longer of two runs; the one found first when they are of a length. -/
def longer (best cur : List β) : List β := if cur.length > best.length then cur else best

/-- The scan, with the best run so far and the one it is in. -/
def scan (f : α → Option β) : List α → List β → List β → List β
  | [], best, cur => longer best cur
  | x :: l, best, cur =>
    match f x with
    | some y => scan f l best (cur ++ [y])
    | none => scan f l (longer best cur) []

/-- **A longest run of the list.** -/
def longest (f : α → Option β) (l : List α) : List β := scan f l [] []

variable {f : α → Option β} {l l' : List α} {r best cur : List β} {x : α}

/-- The longer of two is as long as the longer. -/
theorem length_longer (best cur : List β) :
    (longer best cur).length = max best.length cur.length := by
  rw [longer]
  split_ifs <;> omega

theorem IsRun.nil (f : α → Option β) (l : List α) : IsRun f l [] := ⟨[], List.nil_infix, rfl⟩

/-- A run of a stretch is a run of the whole. -/
theorem IsRun.mono (h : IsRun f l r) (hl : l <:+: l') : IsRun f l' r := by
  obtain ⟨seg, hseg, hr⟩ := h
  exact ⟨seg, hseg.trans hl, hr⟩

/-- What has been found is a run of what has been read, and the current run ends it. -/
theorem scan_isRun (l : List α) : ∀ (pre : List α) {best cur : List β}, IsRun f pre best →
    (∃ seg, seg <:+ pre ∧ seg.map f = cur.map some) → IsRun f (pre ++ l) (scan f l best cur) := by
  induction l with
  | nil =>
    rintro pre best cur hbest ⟨seg, hseg, hcur⟩
    rw [List.append_nil, scan, longer]
    split_ifs
    · exact ⟨seg, hseg.isInfix, hcur⟩
    · exact hbest
  | cons x l ih =>
    rintro pre best cur hbest ⟨seg, hseg, hcur⟩
    have happ : pre ++ x :: l = (pre ++ [x]) ++ l := by
      rw [List.append_assoc, List.singleton_append]
    have hpre : pre <:+: pre ++ [x] := List.infix_append_left
    rw [happ, scan]
    cases hx : f x with
    | some y =>
      refine ih _ (hbest.mono hpre) ⟨seg ++ [x], ?_, ?_⟩
      · obtain ⟨t, rfl⟩ := hseg
        exact ⟨t, (List.append_assoc _ _ _).symm⟩
      · rw [List.map_append, List.map_append, hcur, List.map_singleton, List.map_singleton, hx]
    | none =>
      refine ih _ (IsRun.mono ?_ hpre) ⟨[], List.nil_suffix, rfl⟩
      rw [longer]
      split_ifs
      · exact ⟨seg, hseg.isInfix, hcur⟩
      · exact hbest

/-- **What the scan finds is a run.** -/
theorem longest_isRun (f : α → Option β) (l : List α) : IsRun f l (longest f l) :=
  scan_isRun l [] (IsRun.nil f []) ⟨[], List.nil_suffix, rfl⟩

/-- The scan gives up nothing that it has found. -/
theorem le_scan_best (l : List α) :
    ∀ best cur : List β, best.length ≤ (scan f l best cur).length := by
  induction l with
  | nil => exact fun best cur => (le_max_left _ _).trans (length_longer best cur).ge
  | cons x l ih =>
    intro best cur
    rw [scan]
    split
    · exact ih _ _
    · exact (le_max_left _ _).trans ((length_longer best cur).ge.trans (ih _ _))

/-- A run at the front goes on from the current one. -/
theorem le_scan_cur (l : List α) : ∀ (best cur : List β) {r : List β} {seg : List α}, seg <+: l →
    seg.map f = r.map some → cur.length + r.length ≤ (scan f l best cur).length := by
  induction l with
  | nil =>
    intro best cur r seg hseg hr
    obtain rfl := List.prefix_nil.1 hseg
    obtain rfl := List.map_eq_nil_iff.1 hr.symm
    exact (le_max_right _ _).trans (length_longer best cur).ge
  | cons x l ih =>
    intro best cur r seg hseg hr
    rcases seg with _ | ⟨z, seg⟩
    · obtain rfl := List.map_eq_nil_iff.1 hr.symm
      rw [scan]
      split
      · refine le_trans ?_ (ih _ _ List.nil_prefix (r := []) rfl)
        rw [List.length_append]
        omega
      · exact (le_max_right _ _).trans ((length_longer best cur).ge.trans (le_scan_best l _ _))
    · obtain ⟨rfl, htail⟩ := List.cons_prefix_cons.1 hseg
      rcases r with _ | ⟨y, r⟩
      · exact absurd hr (List.cons_ne_nil _ _)
      · rw [List.map_cons, List.map_cons, List.cons.injEq] at hr
        rw [scan, hr.1]
        refine le_trans ?_ (ih _ _ htail hr.2)
        rw [List.length_append, List.length_cons, List.length_singleton]
        omega

/-- **No run is longer than what the scan finds.** -/
theorem le_scan (l : List α) :
    ∀ {best cur : List β}, IsRun f l r → r.length ≤ (scan f l best cur).length := by
  induction l with
  | nil =>
    rintro best cur ⟨seg, hseg, hr⟩
    have h := le_scan_cur [] best cur (List.infix_nil.1 hseg ▸ List.prefix_rfl) hr
    omega
  | cons x l ih =>
    rintro best cur ⟨seg, hseg, hr⟩
    rcases List.infix_cons_iff.1 hseg with hpre | hin
    · have h := le_scan_cur (x :: l) best cur hpre hr
      omega
    · rw [scan]
      split
      · exact ih ⟨seg, hin, hr⟩
      · exact ih ⟨seg, hin, hr⟩

/-- **No run is longer than the one the scan finds.** -/
theorem length_le_longest (h : IsRun f l r) : r.length ≤ (longest f l).length := le_scan l h

/-- How long a longest run is, as a statement about runs. -/
theorem le_longest_iff {n : ℕ} : n ≤ (longest f l).length ↔ ∃ r, IsRun f l r ∧ n ≤ r.length :=
  ⟨fun h => ⟨_, longest_isRun f l, h⟩, fun ⟨_, hr, hn⟩ => hn.trans (length_le_longest hr)⟩

end Runs
