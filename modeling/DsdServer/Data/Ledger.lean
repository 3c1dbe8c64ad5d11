import Mathlib

/-!
# Data/Ledger — counters that sum what records post

A list of records, each posting to some accounts, and a table of counters kept beside it.  The books
*balance* when every counter is the number of postings to it.  Records carry unique keys and change
in place; a counter update is described by the postings it adds and takes back (`Moves`), so that
the balance after an edit is one equation between the postings of the old record and the new.
-/

/-! ## Records under unique keys

A list of records is kept in the order they were made.  A record is found from the end, where the
latest are, and changed where it stands; as no two have one key, the list splits around it, and what
a change does is read off the split. -/

namespace KeyedList

variable {α K : Type*} [DecidableEq K] (key : α → K)

/-- The latest record under a key. -/
def findLast (l : List α) (k : K) : Option α := l.reverse.find? fun a => key a = k

/-- Change the record under a key in place. -/
def modify (l : List α) (k : K) (g : α → α) : List α := l.map fun a => if key a = k then g a else a

variable {key}

/-- What is found has the key, and is in the list. -/
theorem findLast_some {l : List α} {k : K} {a : α} (h : findLast key l k = some a) :
    a ∈ l ∧ key a = k :=
  ⟨List.mem_reverse.1 (List.mem_of_find?_eq_some h), by simpa using List.find?_some h⟩

/-- Keys being unique, a record is found by its key. -/
theorem findLast_of_mem {l : List α} (hnd : (l.map key).Nodup) {a : α} (ha : a ∈ l) :
    findLast key l (key a) = some a := by
  have hinj := List.inj_on_of_nodup_map hnd
  rcases hf : findLast key l (key a) with _ | b
  · rw [findLast, List.find?_eq_none] at hf
    exact absurd (by simp) (hf a (List.mem_reverse.2 ha))
  · obtain ⟨hb, hk⟩ := findLast_some hf
    rw [hinj hb ha hk]

omit [DecidableEq K] in
/-- The records around a key's. -/
theorem exists_split {l : List α} (hnd : (l.map key).Nodup) {a : α} (ha : a ∈ l) :
    ∃ p q, l = p ++ a :: q ∧ (∀ b ∈ p, key b ≠ key a) ∧ ∀ b ∈ q, key b ≠ key a := by
  obtain ⟨p, q, rfl⟩ := List.append_of_mem ha
  rw [List.map_append, List.map_cons, List.nodup_append, List.nodup_cons] at hnd
  refine ⟨p, q, rfl, fun b hb => ?_, fun b hb hk => hnd.2.1.1 (hk ▸ List.mem_map_of_mem hb)⟩
  exact hnd.2.2 _ (List.mem_map_of_mem hb) _ List.mem_cons_self

/-- Two stretches of a list are changed apart. -/
theorem modify_append (p q : List α) (k : K) (g : α → α) :
    modify key (p ++ q) k g = modify key p k g ++ modify key q k g := List.map_append

/-- Without a record of the key nothing changes. -/
theorem modify_eq_self {l : List α} {k : K} (h : ∀ b ∈ l, key b ≠ k) (g : α → α) :
    modify key l k g = l := by
  refine (List.map_congr_left fun b hb => ?_).trans (List.map_id l)
  rw [if_neg (h b hb)]
  rfl

/-- What a change in place does to the list around the record. -/
theorem modify_split {p q : List α} {a : α} (hp : ∀ b ∈ p, key b ≠ key a)
    (hq : ∀ b ∈ q, key b ≠ key a) (g : α → α) :
    modify key (p ++ a :: q) (key a) g = p ++ g a :: q := by
  rw [modify_append, modify_eq_self hp, modify, List.map_cons, if_pos rfl]
  exact congrArg _ (congrArg _ (modify_eq_self hq g))

/-- The first record of a key is taken out, and the others stay in place. -/
theorem eraseP_split {p q : List α} {a : α} (hp : ∀ b ∈ p, key b ≠ key a) :
    (p ++ a :: q).eraseP (fun b => key b = key a) = p ++ q := by
  rw [List.eraseP_append_right _ fun b hb => by
    simpa using hp b hb, List.eraseP_cons_of_pos (by simp)]

/-- A change that leaves the keys leaves the list of them. -/
theorem map_key_modify {l : List α} {k : K} {g : α → α} (hg : ∀ a, key (g a) = key a) :
    (modify key l k g).map key = l.map key := by
  rw [modify, List.map_map]
  refine List.map_congr_left fun a _ => ?_
  rw [Function.comp_apply]
  split_ifs
  · exact hg a
  · rfl

/-- What is found after a change is what was found before, changed. -/
theorem findLast_modify {l : List α} {k k' : K} {g : α → α} (hg : ∀ a, key (g a) = key a) :
    findLast key (modify key l k g) k' =
      (findLast key l k').map fun a => if key a = k then g a else a := by
  rw [findLast, modify, ← List.map_reverse, List.find?_map]
  refine congrArg (fun p => (l.reverse.find? p).map _) (funext fun a => ?_)
  rw [Function.comp_apply]
  split_ifs
  · rw [hg]
  · rfl

theorem mem_modify {l : List α} {k : K} {g : α → α} {b : α} :
    b ∈ modify key l k g ↔ ∃ a ∈ l, (if key a = k then g a else a) = b := List.mem_map

end KeyedList

/-! ## Postings

Each record posts to a list of accounts, an account as often as it stands in the list.  The number
of postings to an account is a sum over the records, so replacing, adding or removing one changes it
by the postings of that one record. -/

namespace Ledger

variable {α κ : Type*} [DecidableEq κ]

/-- The number of times a list of records posts to an account. -/
def posted (post : α → List κ) (l : List α) (c : κ) : ℕ := (l.map fun a => (post a).count c).sum

@[simp] theorem posted_nil (post : α → List κ) (c : κ) : posted post [] c = 0 := rfl

theorem posted_cons (post : α → List κ) (a : α) (l : List α) (c : κ) :
    posted post (a :: l) c = (post a).count c + posted post l c := by simp [posted]

/-- Postings add up over stretches of the list. -/
theorem posted_append (post : α → List κ) (l l' : List α) (c : κ) :
    posted post (l ++ l') c = posted post l c + posted post l' c := by simp [posted]

/-- Every record's own postings are among all. -/
theorem count_le_posted {post : α → List κ} {l : List α} {a : α} (ha : a ∈ l) (c : κ) :
    (post a).count c ≤ posted post l c :=
  List.single_le_sum (by simp) _ (List.mem_map_of_mem (f := fun a => (post a).count c) ha)

/-- What no record posts to has no postings. -/
theorem posted_eq_zero {post : α → List κ} {l : List α} {c : κ} (h : ∀ a ∈ l, c ∉ post a) :
    posted post l c = 0 := by
  rw [posted, List.sum_eq_zero_iff]
  simpa [List.count_eq_zero] using h

/-- Records that post to an account at most once are counted. -/
theorem posted_eq_countP {post : α → List κ} {l : List α} {c : κ} {p : α → Bool}
    (h : ∀ a ∈ l, (post a).count c = if p a then 1 else 0) : posted post l c = l.countP p := by
  induction l with
  | nil => rfl
  | cons a l ih =>
    rw [posted_cons, h a List.mem_cons_self, ih fun b hb => h b (List.mem_cons_of_mem _ hb),
      List.countP_cons, Nat.add_comm]

/-- **The books balance**: every counter is the number of postings to its account. -/
def Balanced (v : κ → ℕ) (post : α → List κ) (l : List α) : Prop := ∀ c, v c = posted post l c

/-- **The counters move** by the postings `d`, and back by the postings `e`. -/
def Moves (v v' : κ → ℕ) (d e : List κ) : Prop := ∀ c, v' c + e.count c = v c + d.count c

theorem Moves.refl (v : κ → ℕ) : Moves v v [] [] := fun _ => rfl

/-- Movements after each other add up. -/
theorem Moves.trans {v₁ v₂ v₃ : κ → ℕ} {d d' e e' : List κ} (h : Moves v₁ v₂ d e)
    (h' : Moves v₂ v₃ d' e') : Moves v₁ v₃ (d ++ d') (e ++ e') := fun c => by
  have h1 := h c
  have h2 := h' c
  rw [List.count_append, List.count_append]
  omega

/-- The order of the postings makes no difference. -/
theorem Moves.perm {v v' : κ → ℕ} {d d' e : List κ} (h : Moves v v' d e) (hd : d.Perm d') :
    Moves v v' d' e := fun c => by
  rw [← hd.count_eq]
  exact h c

variable {post : α → List κ} {v v' : κ → ℕ} {l p q : List α} {a a' : α} {d e : List κ}

/-- A record changes as the counters move by the difference of its postings. -/
theorem Balanced.replace (hb : Balanced v post (p ++ a :: q)) (hm : Moves v v' d e)
    (hd : ∀ c, (post a).count c + d.count c = (post a').count c + e.count c) :
    Balanced v' post (p ++ a' :: q) := fun c => by
  have h1 := hb c
  have h2 := hm c
  have h3 := hd c
  rw [posted_append, posted_cons] at h1 ⊢
  omega

/-- A record that posts nothing comes. -/
theorem Balanced.append (hb : Balanced v post l) (ha : post a = []) :
    Balanced v post (l ++ [a]) := fun c => by
  rw [posted_append, posted_cons, ha, hb c]
  simp

/-- A record that posts nothing goes. -/
theorem Balanced.remove (hb : Balanced v post (p ++ a :: q)) (ha : post a = []) :
    Balanced v post (p ++ q) := fun c => by
  have h1 := hb c
  rw [posted_append, posted_cons, ha] at h1
  rw [posted_append, h1]
  simp

/-- Records change without posting differently. -/
theorem Balanced.map (hb : Balanced v post l) {g : α → α} (hg : ∀ a ∈ l, post (g a) = post a) :
    Balanced v post (l.map g) := fun c => by
  rw [hb c, posted, posted, List.map_map]
  exact congrArg List.sum (List.map_congr_left fun a ha => by rw [Function.comp_apply, hg a ha])

end Ledger
