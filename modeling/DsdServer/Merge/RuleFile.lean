import DsdServer.Data.Weight
import DsdServer.Json.Tree
import DsdServer.Merge.Rules

/-!
# Merge/RuleFile — the rules in a file

The rules of a server go to a file as one line, and are read from it one by one, each added to those
before.  Rules that were only ever added and undone come back as they were
(`loadMerges_mergesText`).

The rules are read by adding, so a file that was written by hand may have rules that contradict each
other: each is added to what the earlier ones made.  For a file that a server wrote this cannot
happen, since its rules are flat.
-/

open Bytes

namespace DsdServer

open FlatMap mjson assocjson

/-! ## Writing and reading

The file is one line of JSON.  It is read like the rules of an import, so a rule that does not fit
is left out and the rest is kept. -/

/-- **The text of the merges file.** -/
def mergesText (m : NetMerges) : Bytes := braces (lit "\"merges\":" ++ mergesJson m) ++ lit "\n"

/-- A rule of the file. -/
def readMerge (fam : Bytes) (m : NetMerges) (kv : Bytes × V) : NetMerges :=
  match kv.2 with
  | .str dst => mergesAdd' m fam kv.1 dst
  | _ => m

/-- The rules of the file, protocol by protocol. -/
def readMerges (mg : V) : NetMerges :=
  mg.members.foldl (fun m fk => fk.2.members.foldl (readMerge fk.1) m) ∅

/-- **The rules a merges file holds**, when it is one. -/
def loadMerges (text : Bytes) : Option NetMerges :=
  match parse text with
  | .error _ => none
  | .ok root =>
    if !root.isObj then none
    else
      match root.get "merges" with
      | none => none
      | some mg => if !mg.isObj then none else some (readMerges mg)

variable {m m' r : NetMerges} {fam frm dst k v : Bytes}

/-! ## The rules a server holds

What a server holds is flat, has no family without rules, and is within the limit for each family.
All ways to change the rules keep that. -/

/-- **Rules as a server holds them**: flat, of no empty names, not too many, and no protocol without
any. -/
structure HeldRules (m : NetMerges) : Prop where
  flat : RulesFlat m
  full : m.Each fun fam => SortedMap.Full fun k v => fam ≠ [] ∧ k ≠ [] ∧ v ≠ []
  bounded : ∀ fam, (rulesOf m fam).size ≤ kMaxMergesPerFamily

namespace HeldRules

theorem empty : HeldRules ∅ := ⟨rulesFlat_empty, SortedMap.each_empty, fun _ => Nat.zero_le _⟩

/-- The names of a rule are not empty. -/
theorem named (hm : HeldRules m) (h : (rulesOf m fam).find? k = some v) :
    fam ≠ [] ∧ k ≠ [] ∧ v ≠ [] :=
  hm.full.getD_full (Q := fun fam k v => fam ≠ [] ∧ k ≠ [] ∧ v ≠ []) fam k v h

theorem add (hm : HeldRules m) (h : mergesAdd m fam frm dst = some m') : HeldRules m' := by
  have hflat := hm.flat.add h
  obtain ⟨r, rfl, hr, ⟨hfam, hfrm, hdst⟩, hroom, rfl⟩ := mergesAdd_eq_some h
  -- the root is the target itself, or what it was led to already
  have hroot : root (rulesOf m fam) dst ≠ [] := by
    rcases hd : (rulesOf m fam).find? dst with _ | w
    · rwa [root_of_not_mem (SortedMap.find?_eq_none_iff.1 hd)]
    · rw [root_of_find? hd]
      exact (hm.named hd).2.2
  refine ⟨hflat, hm.full.insert ⟨fun he => ?_, fun k v hv => ⟨hfam, ?_, ?_⟩⟩, fun g => ?_⟩
  · have hmem : frm ∈ redirect (rulesOf m fam) frm (root (rulesOf m fam) dst) :=
      mem_redirect.2 (Or.inl rfl)
    rw [he] at hmem
    exact SortedMap.not_mem_empty frm hmem
  · rcases mem_redirect.1 (SortedMap.mem_of_find? hv) with rfl | hk
    · exact hfrm
    · obtain ⟨w, hw⟩ := SortedMap.mem_iff_find?.1 hk
      exact (hm.named hw).2.1
  · rcases value_redirect hr hv with rfl | ⟨y, hy⟩
    · exact hroot
    · exact (hm.named hy).2.2
  · rw [rulesOf_insert]
    split_ifs
    · rw [redirect, SortedMap.size_mapVal]
      by_cases hmem : frm ∈ rulesOf m fam
      · rw [SortedMap.size_insert_of_mem hmem]
        exact hm.bounded fam
      · exact (SortedMap.size_insert_le ..).trans (hroom hmem)
    · exact hm.bounded g

theorem add' (hm : HeldRules m) (fam frm dst : Bytes) : HeldRules (mergesAdd' m fam frm dst) := by
  rw [mergesAdd']
  rcases h : mergesAdd m fam frm dst with _ | m'
  · exact hm
  · exact hm.add h

theorem remove (hm : HeldRules m) (fam key : Bytes) : HeldRules (mergesRemove m fam key).1 := by
  refine ⟨hm.flat.remove fam key, ?_, fun g => ?_⟩
  · rw [mergesRemove]
    rcases hF : m.find? fam with _ | F
    · exact hm.full
    · dsimp only
      have hsub : ∀ x w,
          (if key ∈ F then F.erase key else F.filter fun _ v => v ≠ key).find? x = some w →
          F.find? x = some w := fun x w hw => by
        split_ifs at hw
        · rw [SortedMap.erase, SortedMap.find?_filter, Option.filter_eq_some_iff] at hw
          exact hw.1
        · rw [SortedMap.find?_filter, Option.filter_eq_some_iff] at hw
          exact hw.1
      exact hm.full.replace (Q := fun fam k v => fam ≠ [] ∧ k ≠ [] ∧ v ≠ [])
        fun x w hw => (hm.full fam F hF).each x w (hsub x w hw)
  · have hle : (release (rulesOf m fam) key).size ≤ (rulesOf m fam).size := by
      rw [release]
      split_ifs
      · exact SortedMap.size_erase_le ..
      · exact SortedMap.size_filter_le ..
    rw [rulesOf_remove]
    split_ifs with hg
    · exact hle.trans (hm.bounded fam)
    · exact hm.bounded g

theorem read (mg : V) : HeldRules (readMerges mg) := by
  refine List.foldlRecOn _ _ empty fun m hm fk _ => List.foldlRecOn _ _ hm fun m hm kv _ => ?_
  rw [readMerge]
  split
  · exact hm.add' ..
  · exact hm

end HeldRules

/-- **What is loaded is as a server holds it.** -/
theorem heldRules_of_load {text : Bytes} (h : loadMerges text = some m) : HeldRules m := by
  rw [loadMerges] at h
  split at h
  · cases h
  · split_ifs at h
    split at h
    · cases h
    · split_ifs at h
      cases h
      exact .read _

/-! ## One rule after another

Flat rules can be added in any order: none leads to the key of another, so adding one never changes
those before. -/

/-- Every rule is one of those. -/
def RulesIn (r m : NetMerges) : Prop :=
  ∀ fam k v, (rulesOf r fam).find? k = some v → (rulesOf m fam).find? k = some v

/-- **A rule of flat rules, added to part of them**, is there afterwards as it is, and so is all
that was. -/
theorem add'_of_held (hm : HeldRules m) (hr : RulesIn r m) (h : (rulesOf m fam).find? k = some v) :
    RulesIn (mergesAdd' r fam k v) m ∧ RulesIn r (mergesAdd' r fam k v) ∧
      (rulesOf (mergesAdd' r fam k v) fam).find? k = some v := by
  have hvm : v ∉ rulesOf m fam := hm.flat fam k v h
  have hkm : k ∈ rulesOf m fam := SortedMap.mem_of_find? h
  have hvr : v ∉ rulesOf r fam := fun hv => by
    obtain ⟨w, hw⟩ := SortedMap.mem_iff_find?.1 hv
    exact hvm (SortedMap.mem_of_find? (hr fam v w hw))
  have hne : v ≠ k := fun he => hvm (he ▸ hkm)
  have hroot : mergeRoot r fam v = v := by rw [mergeRoot_eq, root_of_not_mem hvr]
  obtain ⟨hfam, hk, hv⟩ := hm.named h
  rcases hF : (rulesOf r fam).find? k with _ | w
  · have hkr : k ∉ rulesOf r fam := SortedMap.find?_eq_none_iff.1 hF
    have hsize : (rulesOf r fam).size < kMaxMergesPerFamily :=
      (SortedMap.size_lt_of_sub (hr fam) hkr hkm).trans_le (hm.bounded fam)
    have hsome : mergesAdd r fam k v ≠ none := by
      rw [mergesAdd, if_neg (by simp [hfam, hk, hv])]
      dsimp only
      rw [hroot, mergeRoot_eq, root_of_not_mem hkr, if_neg (by simp [hne, hne.symm]),
        if_neg fun hc => absurd hsize (not_lt.2 hc.2)]
      exact Option.some_ne_none _
    obtain ⟨r', hadd⟩ := Option.ne_none_iff_exists'.1 hsome
    obtain ⟨x, hx, -, -, -, rfl⟩ := mergesAdd_eq_some hadd
    rw [root_of_not_mem hvr] at hx
    subst hx
    -- no rule led to the key, so the others stay as they are
    have hfind : ∀ y, (redirect (rulesOf r fam) k x).find? y =
        if y = k then some x else (rulesOf r fam).find? y := fun y => by
      rw [find?_redirect hne]
      split_ifs
      · rfl
      · rcases hy : (rulesOf r fam).find? y with _ | w
        · rfl
        · rw [Option.map_some, if_neg fun he : w = k => hm.flat fam y w (hr fam y w hy) (he ▸ hkm)]
    rw [mergesAdd', hadd, Option.getD_some]
    refine ⟨fun g y w hw => ?_, fun g y w hw => ?_, ?_⟩
    · rw [rulesOf_insert] at hw
      split_ifs at hw with hg
      · rw [hfind] at hw
        split_ifs at hw with hy
        · rw [hg, hy, h, ← hw]
        · exact hg ▸ hr fam y w hw
      · exact hr g y w hw
    · rw [rulesOf_insert]
      split_ifs with hg
      · rw [hfind, if_neg fun he : y = k => hkr (he ▸ hg ▸ SortedMap.mem_of_find? hw)]
        exact hg ▸ hw
      · exact hw
    · rw [rulesOf_insert, if_pos rfl, hfind, if_pos rfl]
  · -- the rule is there already
    obtain rfl : w = v := Option.some.inj ((hr fam k w hF).symm.trans h)
    have hnone : mergesAdd r fam k w = none := by
      rw [mergesAdd, if_neg (by simp [hfam, hk, hv])]
      dsimp only
      rw [hroot, mergeRoot_eq, root_of_find? hF, if_pos (Or.inr rfl)]
    rw [mergesAdd', hnone]
    exact ⟨hr, fun _ _ _ h => h, hF⟩

/-- **Every rule of the file is there in the end.** -/
theorem foldl_add'_of_held (hm : HeldRules m) :
    ∀ (l : List (Bytes × Bytes × Bytes)) {r : NetMerges},
    (∀ e ∈ l, (rulesOf m e.1).find? e.2.1 = some e.2.2) → RulesIn r m →
      RulesIn (l.foldl (fun r e => mergesAdd' r e.1 e.2.1 e.2.2) r) m ∧
      RulesIn r (l.foldl (fun r e => mergesAdd' r e.1 e.2.1 e.2.2) r) ∧
      ∀ e ∈ l, (rulesOf (l.foldl (fun r e => mergesAdd' r e.1 e.2.1 e.2.2) r) e.1).find? e.2.1 =
        some e.2.2 := by
  intro l
  induction l with
  | nil => exact fun _ hr => ⟨hr, fun _ _ _ h => h, fun _ h => absurd h List.not_mem_nil⟩
  | cons e l ih =>
    intro r hl hr
    obtain ⟨hin, hkeep, hnew⟩ := add'_of_held hm hr (hl e List.mem_cons_self)
    obtain ⟨hin', hkeep', hnew'⟩ := ih (fun x hx => hl x (List.mem_cons_of_mem e hx)) hin
    exact ⟨hin', fun g y w hw => hkeep' g y w (hkeep g y w hw),
      List.forall_mem_cons.2 ⟨hkeep' _ _ _ hnew, hnew'⟩⟩

/-! ## The round trip

Writing and reading adds the rules again one by one to an empty set, which gives the same set. -/

/-- The single rules of a set of rules. -/
theorem unionSteps_iff {e : Bytes × Bytes × Bytes} :
    e ∈ unionSteps m ↔ (rulesOf m e.1).find? e.2.1 = some e.2.2 := by
  rw [unionSteps, List.mem_flatMap]
  constructor
  · rintro ⟨f, hf, he⟩
    obtain ⟨kv, hkv, rfl⟩ := List.mem_map.1 he
    rw [rulesOf, SortedMap.getD_of_find? (SortedMap.find?_eq_some_iff.2 hf)]
    exact SortedMap.find?_eq_some_iff.2 hkv
  · intro h
    rcases hF : m.find? e.1 with _ | F
    · rw [rulesOf, SortedMap.getD, hF] at h
      cases h
    · rw [rulesOf, SortedMap.getD_of_find? hF] at h
      exact ⟨(e.1, F), SortedMap.find?_eq_some_iff.1 hF,
        List.mem_map.2 ⟨(e.2.1, e.2.2), SortedMap.find?_eq_some_iff.1 h, rfl⟩⟩

/-- Rules are told by what they lead to. -/
theorem HeldRules.ext (hm : HeldRules m) (hr : HeldRules r)
    (h : ∀ fam, rulesOf m fam = rulesOf r fam) : m = r := by
  have hfind : ∀ {n : NetMerges}, HeldRules n → ∀ fam,
      n.find? fam = if (rulesOf n fam).isEmpty then none else some (rulesOf n fam) :=
        fun {n} hn fam => by
    rcases hF : n.find? fam with _ | F
    · rw [rulesOf, SortedMap.getD, hF]
      rfl
    · rw [rulesOf, SortedMap.getD_of_find? hF, if_neg]
      exact fun he => (hn.full fam F hF).entry (SortedMap.isEmpty_eq_true_iff.1 he)
  refine SortedMap.ext_find? fun fam => ?_
  rw [hfind hm, hfind hr, h]

/-- **Rules that were held are read back.** -/
theorem HeldRules.read_tree (hm : HeldRules m) : readMerges (tree (tree V.str) m) = m := by
  have hsteps : readMerges (tree (tree V.str) m) =
      (unionSteps m).foldl (fun r e => mergesAdd' r e.1 e.2.1 e.2.2) ∅ := by
    rw [readMerges, foldl_members_tree, unionSteps, List.foldl_flatMap]
    refine List.foldl_ext _ _ _ fun r e _ => ?_
    rw [foldl_members_tree, List.foldl_map]
    rfl
  have hheld := HeldRules.read (tree (tree V.str) m)
  rw [hsteps] at hheld ⊢
  obtain ⟨hin, -, hall⟩ :=
    foldl_add'_of_held hm (unionSteps m) (r := ∅) (fun e he => unionSteps_iff.1 he)
    fun _ _ _ h => by cases h
  refine hheld.ext hm fun fam => SortedMap.ext_find? fun k => Option.ext fun v =>
    ⟨hin fam k v, fun h => ?_⟩
  exact hall (fam, k, v) (unionSteps_iff.2 h)

/-- The rules are written as one value. -/
theorem HeldRules.mergesJson_eq (hm : HeldRules m) :
    render (tree (tree V.str) m) = mergesJson m := by
  have hstr : ∀ s, render (.str s) = q s := fun s => by rw [render]
  have hfull : m.entries.filter (fun f => !f.2.isEmpty) = m.entries :=
    List.filter_eq_self.2 fun f hf => by
    have hF := (hm.full f.1 f.2 (SortedMap.find?_eq_some_iff.2 hf)).entry
    rw [Bool.not_eq_true']
    exact Bool.not_eq_true _ ▸ fun he => hF (SortedMap.isEmpty_eq_true_iff.1 he)
  rw [render_tree (render_tree hstr), mergesJson, hfull]
  rfl

theorem HeldRules.mergesText_eq (hm : HeldRules m) :
    mergesText m = render (.obj [(lit "merges", tree (tree V.str) m)]) ++ [10] := by
  have hkey : lit "\"merges\":" = q (lit "merges") ++ lit ":" := by decide
  rw [mergesText, render_obj, hkey, ← hm.mergesJson_eq]
  simp only [List.map_cons, List.map_nil, memberOf, member, commas, List.flatMap_nil,
    List.append_nil]
  rfl

/-- **The file restores the rules it was written from**, whatever bytes their keys hold. -/
theorem loadMerges_mergesText (hm : HeldRules m) : loadMerges (mergesText m) = some m := by
  have hfits : Fits 0 (.obj [(lit "merges", tree (tree V.str) m)]) := by
    rw [Fits, fitsMembers_iff, List.forall_mem_singleton]
    refine ⟨by
      decide, fits_tree (by decide) hm.full fun _ _ hF =>
        fits_tree (by decide) hF.each fun _ _ _ => ?_⟩
    rw [Fits]
    decide
  have hget : (V.obj [(lit "merges", tree (tree V.str) m)]).get "merges" =
      some (tree (tree V.str) m) := rfl
  have hobj : (tree (tree V.str) m).isObj = true := rfl
  rw [loadMerges, hm.mergesText_eq, parse_render hfits (Or.inr rfl)]
  dsimp only
  rw [hget]
  dsimp only
  rw [hobj, hm.read_tree]
  rfl

end DsdServer
