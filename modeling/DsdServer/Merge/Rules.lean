import DsdServer.Data.FlatMap
import DsdServer.Merge.Export

/-!
# Merge/Rules — the merge rules are flat

A protocol's rules are a flat map from network keys to the key they are shown under, whatever the
order they are added, undone and joined in.
-/

open Bytes

namespace DsdServer

open FlatMap

variable {m m' n : NetMerges} {fam frm dst key k v x y : Bytes}

/-- A protocol's rules. -/
def rulesOf (m : NetMerges) (fam : Bytes) : SortedMap Bytes Bytes := m.getD fam ∅

/-- **The rules of every protocol are flat.** -/
def RulesFlat (m : NetMerges) : Prop := ∀ fam, Flat (rulesOf m fam)

/-- A key has to do with a rule: it is the source or the target of one. -/
def Mentions (m : NetMerges) (fam key : Bytes) : Prop :=
  key ∈ rulesOf m fam ∨ ∃ k, (rulesOf m fam).find? k = some key

/-- The key a network is shown under is its root. -/
theorem mergeRoot_eq (m : NetMerges) (fam key : Bytes) :
    mergeRoot m fam key = root (rulesOf m fam) key := by
  rw [mergeRoot, rulesOf, SortedMap.getD]
  cases m.find? fam <;> rfl

theorem rulesFlat_empty : RulesFlat ∅ := fun _ => flat_empty

/-- The rules of a family after a change of one. -/
theorem rulesOf_insert (m : NetMerges) (f g : Bytes) (F : SortedMap Bytes Bytes) :
    rulesOf (m.insert f F) g = if g = f then F else rulesOf m g := by
  rw [rulesOf, SortedMap.getD_insert]
  split_ifs <;> rfl

/-! ## Adding a rule

A rule is added between roots: the key it is to be shown under is looked up first, and what was
shown under the other key is led on as well.  It is refused when the two are one already, or the
family has too many. -/

/-- **What adding a rule does**: the key is redirected to the root of its target. -/
theorem mergesAdd_eq_some (h : mergesAdd m fam frm dst = some m') :
    ∃ r, r = root (rulesOf m fam) dst ∧ r ≠ frm ∧ (fam ≠ [] ∧ frm ≠ [] ∧ dst ≠ []) ∧
      (frm ∉ rulesOf m fam → (rulesOf m fam).size < kMaxMergesPerFamily) ∧
      m' = m.insert fam (redirect (rulesOf m fam) frm r) := by
  rw [mergesAdd] at h
  dsimp only at h
  split_ifs at h with h1 h2 h3
  simp only [not_or] at h1 h2
  have hr : mergeRoot m fam dst ≠ frm := h2.1
  refine ⟨_, rfl, by rwa [← mergeRoot_eq], h1, fun hf => not_le.1 (not_and.1 h3 hf),
    (Option.some.inj h).symm.trans (congrArg (m.insert fam) (SortedMap.ext_find? fun x => ?_))⟩
  rw [← mergeRoot_eq, find?_redirect hr, SortedMap.find?_mapVal, SortedMap.find?_insert]
  split_ifs with hx
  · rw [Option.map_some, if_neg hr]
  · exact Option.map_congr fun v _ => by split_ifs <;> rfl

/-- **Adding a rule keeps the rules flat.** -/
theorem RulesFlat.add (hm : RulesFlat m) (h : mergesAdd m fam frm dst = some m') :
    RulesFlat m' := by
  obtain ⟨r, rfl, hr, -, -, rfl⟩ := mergesAdd_eq_some h
  intro g
  rw [rulesOf_insert]
  split_ifs
  · exact (hm fam).redirect ((hm fam).root_not_mem dst) hr
  · exact hm g

/-- The same, when the rule may be refused. -/
theorem RulesFlat.add' (hm : RulesFlat m) (fam frm dst : Bytes) :
    RulesFlat (mergesAdd' m fam frm dst) := by
  rw [mergesAdd']
  rcases h : mergesAdd m fam frm dst with _ | m'
  · exact hm
  · exact hm.add h

/-- **The two ends of a new rule have one root.** -/
theorem mergeRoot_add (h : mergesAdd m fam frm dst = some m') :
    mergeRoot m' fam frm = mergeRoot m' fam dst := by
  obtain ⟨r, rfl, hr, -, -, rfl⟩ := mergesAdd_eq_some h
  rw [mergeRoot_eq, mergeRoot_eq, rulesOf_insert, if_pos rfl, root_redirect hr, root_redirect hr,
    if_pos rfl]
  split_ifs <;> rfl

/-- A rule for a key that has none keeps what is shown as one. -/
theorem mergeRoot_add'_congr (hf : frm ∉ rulesOf m fam) (g : Bytes)
    (h : mergeRoot m g x = mergeRoot m g y) :
    mergeRoot (mergesAdd' m fam frm dst) g x = mergeRoot (mergesAdd' m fam frm dst) g y := by
  rw [mergesAdd']
  rcases ha : mergesAdd m fam frm dst with _ | m'
  · exact h
  · obtain ⟨r, -, hr, -, -, rfl⟩ := mergesAdd_eq_some ha
    simp only [Option.getD_some, mergeRoot_eq, rulesOf_insert] at h ⊢
    split_ifs with hg
    · exact root_redirect_congr hf hr (hg ▸ h)
    · exact h

/-- A rule mentions its two ends, and what the rules mentioned before. -/
theorem Mentions.of_add' (h : Mentions (mergesAdd' m fam frm dst) key k) :
    Mentions m key k ∨ key = fam ∧ (k = frm ∨ k = dst) := by
  rw [mergesAdd'] at h
  rcases ha : mergesAdd m fam frm dst with _ | m'
  · rw [ha] at h
    exact Or.inl h
  · obtain ⟨r, hr, hne, -, -, rfl⟩ := mergesAdd_eq_some ha
    rw [ha, Option.getD_some, Mentions, rulesOf_insert] at h
    split_ifs at h with hg
    · subst hg
      have hroot : r = dst ∨ Mentions m key r := by
        rcases hd : (rulesOf m key).find? dst with _ | w
        · exact Or.inl (hr.trans (root_of_not_mem (SortedMap.find?_eq_none_iff.1 hd)))
        · rw [root_of_find? hd] at hr
          exact Or.inr (Or.inr ⟨dst, hr ▸ hd⟩)
      rcases h with h | ⟨z, hz⟩
      · rcases mem_redirect.1 h with rfl | h
        · exact Or.inr ⟨rfl, Or.inl rfl⟩
        · exact Or.inl (Or.inl h)
      · rcases value_redirect hne hz with rfl | hz
        · rcases hroot with rfl | hroot
          · exact Or.inr ⟨rfl, Or.inr rfl⟩
          · exact Or.inl hroot
        · exact Or.inl (Or.inr hz)
    · exact Or.inl h

/-! ## Undoing one

Undoing takes the rule of a key out; of a key that others lead to, it takes out all their rules. -/

/-- The rules of a family after one is undone. -/
theorem rulesOf_remove (m : NetMerges) (fam key z : Bytes) :
    rulesOf (mergesRemove m fam key).1 z =
      if z = fam then release (rulesOf m fam) key else rulesOf m z := by
  rw [mergesRemove]
  rcases hF : m.find? fam with _ | F
  · have hnone : rulesOf m fam = ∅ := by rw [rulesOf, SortedMap.getD, hF]; rfl
    split_ifs with hz
    · subst hz
      exact hnone.trans (by rw [hnone]; rfl)
    · rfl
  · have hsome : rulesOf m fam = F := SortedMap.getD_of_find? hF ∅
    have hrel : (if key ∈ F then F.erase key else F.filter fun _ v => v ≠ key) = release F key := by
      rw [release]
      split_ifs
      · rfl
      · exact congrArg F.filter (funext fun _ => funext fun v => decide_eq_decide.2 Iff.rfl)
    rw [hsome]
    dsimp only
    rw [hrel]
    split_ifs with he hz hz
    · subst hz
      rw [rulesOf, SortedMap.getD, SortedMap.find?_erase_self]
      exact SortedMap.ext_find? fun k => (SortedMap.isEmpty_iff.1 he k).symm
    · rw [rulesOf, SortedMap.getD, SortedMap.find?_erase_ne _ hz]
      rfl
    · rw [rulesOf_insert, if_pos hz]
    · rw [rulesOf_insert, if_neg hz]

/-- **Undoing a rule keeps the rules flat.** -/
theorem RulesFlat.remove (hm : RulesFlat m) (fam key : Bytes) :
    RulesFlat (mergesRemove m fam key).1 := fun z => by
  rw [rulesOf_remove]
  split_ifs
  · exact (hm fam).release key
  · exact hm z

/-- **A key whose merge is undone has to do with no rule any more.** -/
theorem not_mentions_remove (hm : RulesFlat m) (fam key : Bytes) :
    ¬Mentions (mergesRemove m fam key).1 fam key := by
  obtain ⟨hk, hv⟩ := (hm fam).not_mem_release key
  rw [Mentions, rulesOf_remove, if_pos rfl, not_or, not_exists]
  exact ⟨hk, hv⟩

/-! ## Joining rules

Rules of several servers are joined by adding the second set to the first, rule by rule; where the
two disagree, the first has its say. -/

/-- The rules of another dataset, one by one. -/
def unionSteps (n : NetMerges) : List (Bytes × Bytes × Bytes) :=
  n.entries.flatMap fun f => f.2.entries.map fun kv => (f.1, kv.1, kv.2)

/-- A rule of another dataset. -/
def unionStep (m : NetMerges) (r : Bytes × Bytes × Bytes) : NetMerges :=
  if r.2.1 ∈ rulesOf m r.1 then m else mergesAdd' m r.1 r.2.1 r.2.2

/-- A union is its single rules, added one after another. -/
theorem mergesUnion_eq (m n : NetMerges) : mergesUnion m n = (unionSteps n).foldl unionStep m := by
  rw [mergesUnion, unionSteps]
  generalize n.entries = l
  induction l generalizing m with
  | nil => rfl
  | cons f l ih =>
    rw [List.foldl_cons, List.flatMap_cons, List.foldl_append, List.foldl_map, ih]
    rfl

/-- **What every step of joining keeps, joining keeps.** -/
theorem mergesUnion_induction {P : NetMerges → Prop} (h0 : P m)
    (hstep : ∀ m fam k v, (rulesOf n fam).find? k = some v → k ∉ rulesOf m fam → P m →
      P (mergesAdd' m fam k v)) : P (mergesUnion m n) := by
  have hmem : ∀ r ∈ unionSteps n, (rulesOf n r.1).find? r.2.1 = some r.2.2 := fun r hr => by
    obtain ⟨f, hf, hr⟩ := List.mem_flatMap.1 hr
    obtain ⟨kv, hkv, rfl⟩ := List.mem_map.1 hr
    rw [rulesOf, SortedMap.getD_of_find? (SortedMap.find?_eq_some_iff.2 hf)]
    exact SortedMap.find?_eq_some_iff.2 hkv
  rw [mergesUnion_eq]
  generalize unionSteps n = l at hmem
  induction l generalizing m with
  | nil => exact h0
  | cons r l ih =>
    refine ih ?_ fun r hr => hmem r (List.mem_cons_of_mem _ hr)
    rw [unionStep]
    split_ifs with hr
    · exact h0
    · exact hstep m r.1 r.2.1 r.2.2 (hmem r List.mem_cons_self) hr h0

/-- **Joining rules keeps them flat.** -/
theorem RulesFlat.union (hm : RulesFlat m) (n : NetMerges) : RulesFlat (mergesUnion m n) :=
  mergesUnion_induction hm fun _ f k v _ _ hm => hm.add' f k v

/-- Joining other rules keeps what is shown as one. -/
theorem mergeRoot_union_congr (n : NetMerges) (h : mergeRoot m fam x = mergeRoot m fam y) :
    mergeRoot (mergesUnion m n) fam x = mergeRoot (mergesUnion m n) fam y :=
  mergesUnion_induction (P := fun m => mergeRoot m fam x = mergeRoot m fam y) h
    fun _ _ _ _ _ hk h => mergeRoot_add'_congr hk fam h

/-- Joined rules have to do with no key that neither's have. -/
theorem not_mentions_union (hm : ¬Mentions m fam key) (hn : ¬Mentions n fam key) :
    ¬Mentions (mergesUnion m n) fam key :=
  mergesUnion_induction (P := fun m => ¬Mentions m fam key) hm fun m f k v hv _ hm h => by
    rcases h.of_add' with h | ⟨rfl, rfl | rfl⟩
    · exact hm h
    · exact hn (Or.inl (SortedMap.mem_of_find? hv))
    · exact hn (Or.inr ⟨k, hv⟩)

end DsdServer
