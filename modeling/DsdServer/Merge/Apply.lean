import DsdServer.Data.Gather
import DsdServer.Data.Nested
import DsdServer.Merge.Fold
import DsdServer.Merge.Rules

/-!
# Merge/Apply — the merge rules applied to the data

A format that cannot show the rules gets the data with them applied: each group of networks becomes
one, under its target's key, and every reference to a network of the group becomes one to the
target.  `applyMerges_conserves` — **what the networks count is conserved**, in the arithmetic of
their counters and in full while it fits them, and applying the rules once more changes nothing.
-/

open Bytes

namespace DsdServer

open FlatMap

/-! ## Applying

Networks of one group become one entry under the key of their target; radios, talkgroups and calls
only have their references led on. -/

/-- A network with another of its group: it keeps its label. -/
def DsNetwork.absorb (n m : DsNetwork) : DsNetwork :=
  { n with
    confidence := if confRank n.confidence < confRank m.confidence then
    m.confidence else n.confidence
    ids := m.ids.entries.foldl (fun s i => if i.1 ∈ s then s else s.insert i.1 i.2) n.ids
    sites := n.sites.addAll m.sites.keys
    freqs := n.freqs.addAll m.freqs.keys
    sessions := add64 n.sessions m.sessions
    calls := add64 n.calls m.calls
    keys := addKeys n.keys m.keys
    first := earlier n.first m.first
    last := max n.last m.last }

/-- A network under another key. -/
def DsNetwork.keyed (r : Bytes) (m : DsNetwork) : DsNetwork := { m with key := r }

/-- The networks named, each by its root. -/
def fixNetworks (R : SortedMap Bytes Bytes) (s : SortedSet Bytes) : SortedSet Bytes :=
  SortedSet.addAll ∅ (s.keys.map (root R))

/-- **A protocol's data with its rules applied**: targets first, theirs are the labels. -/
def DsFamily.applied (R : SortedMap Bytes Bytes) (F : DsFamily) : DsFamily where
  networks := F.networks.gathered (root R) DsNetwork.keyed DsNetwork.absorb
  tgs := F.tgs.mapVal fun _ t => { t with networks := fixNetworks R t.networks }
  radios := F.radios.mapVal fun _ r => { r with networks := fixNetworks R r.networks }
  calls := F.calls.map fun c => { c with net := root R c.net }

/-- **Apply the merge rules to the data itself.** -/
def applyMerges (d : Dataset) : Dataset :=
  { d with
    fams := d.fams.mapVal fun fam F =>
      match d.merges.find? fam with
      | none => F
      | some R => if R.isEmpty then F else F.applied R
    merges := ∅ }

/-! ## Key tallies

The tally of keys has a limit, and a key that is new to a full one is not counted.  Whether the keys
of two networks fit together is a condition on both, told before they are joined. -/

/-- **Keys that a tally has room for**, one after another. -/
def KeysFit : SortedMap Bytes ℕ → List (Bytes × ℕ) → Prop
  | _, [] => True
  | m, x :: l => (x.1 ∈ m ∨ m.size < kMaxKeys) ∧ KeysFit (keyAdd64 m x.1 x.2) l

instance decidableKeysFit : ∀ m l, Decidable (KeysFit m l)
  | _, [] => isTrue trivial
  | m, x :: l => by
    have := decidableKeysFit (keyAdd64 m x.1 x.2) l
    exact inferInstanceAs (Decidable (_ ∧ _))

/-- A key that there is room for is counted. -/
theorem turns_count_keyAdd64 {m : SortedMap Bytes ℕ} {x : Bytes × ℕ}
    (h : x.1 ∈ m ∨ m.size < kMaxKeys) (k : Bytes) :
    Turns (2 ^ 64) ((keyAdd64 m x.1 x.2).count k) (m.count k + if x.1 = k then x.2 else 0) := by
  rw [keyAdd64]
  obtain ⟨o, ho⟩ : ∃ o, m.find? x.1 = o := ⟨_, rfl⟩
  rw [ho]
  rcases o with _ | v
  · have hroom : m.size < kMaxKeys := h.resolve_left (SortedMap.find?_eq_none_iff.1 ho)
    dsimp only
    rw [if_pos hroom, SortedMap.count_insert]
    by_cases hk : k = x.1
    · rw [if_pos hk, if_pos hk.symm, hk, SortedMap.count_eq, ho, Option.getD_none, Nat.zero_add]
      exact Turns.refl ..
    · rw [if_neg hk, if_neg (Ne.symm hk), Nat.add_zero]
      exact Turns.refl ..
  · dsimp only
    rw [SortedMap.count_insert]
    by_cases hk : k = x.1
    · rw [if_pos hk, if_pos hk.symm, hk, SortedMap.count_eq, ho, Option.getD_some]
      exact turns_add64 v x.2
    · rw [if_neg hk, if_neg (Ne.symm hk), Nat.add_zero]
      exact Turns.refl ..

/-- **Tallies add up** while there is room. -/
theorem turns_count_addKeys {m n : SortedMap Bytes ℕ} (h : KeysFit m n.entries) (k : Bytes) :
    Turns (2 ^ 64) ((addKeys m n).count k) (m.count k + n.count k) := by
  have hfold : ∀ (l : List (Bytes × ℕ)) (m : SortedMap Bytes ℕ), KeysFit m l →
      Turns (2 ^ 64) ((l.foldl (fun m x => keyAdd64 m x.1 x.2) m).count k)
        (m.count k + (l.map fun e => if e.1 = k then e.2 else 0).sum) := by
    intro l
    induction l with
    | nil => exact fun _ _ => Turns.refl ..
    | cons x l ih =>
      intro m h
      rw [List.foldl_cons, List.map_cons, List.sum_cons, ← Nat.add_assoc]
      exact (ih _ h.2).trans ((turns_count_keyAdd64 h.1 k).add_right _)
  rw [addKeys, ← SortedMap.sum_entries_eq_count n]
  exact hfold n.entries m h

/-- The keys of a network fit into the tally of another. -/
def DsNetwork.Fits (n m : DsNetwork) : Prop := KeysFit n.keys m.keys.entries

instance : DecidableRel DsNetwork.Fits := fun n m => decidableKeysFit n.keys m.keys.entries

/-- **No tally is full** when a key is added to it, whatever networks the rules bring together. -/
def DsFamily.NoLimit (R : SortedMap Bytes Bytes) (F : DsFamily) : Prop :=
  SortedMap.GatherJoins (root R) DsNetwork.keyed DsNetwork.absorb DsNetwork.Fits F.networks

instance (R : SortedMap Bytes Bytes) (F : DsFamily) : Decidable (F.NoLimit R) :=
  inferInstanceAs (Decidable (SortedMap.GatherJoins _ _ _ _ _))

/-! ## What applying does

Joining two networks adds their counters in 64 bits.  The sum over the networks is therefore kept up
to whole turns, and kept in full when it is less than one turn. -/

/-- **A sum of counters is conserved**: in their own arithmetic, and in full if it fits a
counter. -/
def SumKept (before after : ℕ) : Prop :=
  after ≡ before [MOD 2 ^ 64] ∧ (before < 2 ^ 64 → after = before)

/-- A sum that agrees up to whole turns is kept as the counters keep it. -/
theorem sumKept_of_turns {before after : ℕ} (h : Turns (2 ^ 64) after before) :
    SumKept before after :=
  ⟨h.modEq, h.eq_of_lt⟩

/-- **A protocol's data with its rules applied**, compared with the data before. -/
structure DsFamily.Applied (R : SortedMap Bytes Bytes) (F F' : DsFamily) : Prop where
  calls : SumKept (F.networks.weight DsNetwork.calls) (F'.networks.weight DsNetwork.calls)
  sessions : SumKept (F.networks.weight DsNetwork.sessions) (F'.networks.weight DsNetwork.sessions)
  tallies : ∀ key, SumKept (F.networks.weight fun n => n.keys.count key)
    (F'.networks.weight fun n => n.keys.count key)
  networks : ∀ k, k ∈ F'.networks ↔ ∃ j ∈ F.networks, root R j = k
  labels : ∀ k n, F.networks.find? k = some n → root R k = k →
    ∃ n', F'.networks.find? k = some n' ∧ n'.label = n.label
  talkgroups : ∀ id, (F'.tgs.find? id).map (fun t => { t with networks := ∅ }) =
    (F.tgs.find? id).map fun t => { t with networks := ∅ }
  ofTalkgroup : ∀ id t t', F.tgs.find? id = some t → F'.tgs.find? id = some t' →
    ∀ k, k ∈ t'.networks ↔ ∃ j ∈ t.networks, root R j = k
  radios : ∀ id, (F'.radios.find? id).map (fun r => { r with networks := ∅ }) =
    (F.radios.find? id).map fun r => { r with networks := ∅ }
  ofRadio : ∀ id r r', F.radios.find? id = some r → F'.radios.find? id = some r' →
    ∀ k, k ∈ r'.networks ↔ ∃ j ∈ r.networks, root R j = k
  callList : F'.calls = F.calls.map fun c => { c with net := root R c.net }
  resolves : ∀ j ∈ F.networks, root R j ∈ F'.networks

section Family

variable {R : SortedMap Bytes Bytes} {F : DsFamily}

/-- The references after applying: each leads to the root of one from before. -/
theorem mem_fixNetworks {s : SortedSet Bytes} {k : Bytes} :
    k ∈ fixNetworks R s ↔ ∃ j ∈ s, root R j = k := by
  rw [fixNetworks, SortedSet.mem_addAll, List.mem_map]
  constructor
  · rintro (⟨j, hj, rfl⟩ | hk)
    · exact ⟨j, hj, rfl⟩
    · exact absurd hk (SortedMap.not_mem_empty k)
  · rintro ⟨j, hj, rfl⟩
    exact Or.inl ⟨j, hj, rfl⟩

/-- **Applying rules conserves the data.** -/
theorem DsFamily.NoLimit.applied (h : F.NoLimit R) : F.Applied R (F.applied R) where
  calls := sumKept_of_turns <| SortedMap.turns_weight_gathered h (fun _ _ => rfl) fun _ _ _ =>
    turns_add64 ..
  sessions := sumKept_of_turns <| SortedMap.turns_weight_gathered h (fun _ _ => rfl) fun _ _ _ =>
    turns_add64 ..
  tallies key := sumKept_of_turns <|
    SortedMap.turns_weight_gathered h (fun _ _ => rfl) fun _ _ hf => turns_count_addKeys hf key
  networks _ := SortedMap.mem_gathered
  labels _ n hn hk := by
    refine SortedMap.find?_gathered (Q := fun _ n' => n'.label = n.label) ?_ hn hk ?_
    · exact fun _ _ _ h => h
    · rfl
  talkgroups id := by
    rw [DsFamily.applied, SortedMap.find?_mapVal, Option.map_map]
    rfl
  ofTalkgroup id t t' ht ht' k := by
    rw [DsFamily.applied, SortedMap.find?_mapVal, ht] at ht'
    rw [← Option.some.inj ht', mem_fixNetworks]
  radios id := by
    rw [DsFamily.applied, SortedMap.find?_mapVal, Option.map_map]
    rfl
  ofRadio id r r' hr hr' k := by
    rw [DsFamily.applied, SortedMap.find?_mapVal, hr] at hr'
    rw [← Option.some.inj hr', mem_fixNetworks]
  callList := rfl
  resolves j hj := SortedMap.mem_gathered.2 ⟨j, hj, rfl⟩

/-- Without rules the data is as it was. -/
theorem DsFamily.Applied.refl (F : DsFamily) : F.Applied ∅ F where
  calls := sumKept_of_turns (Turns.refl ..)
  sessions := sumKept_of_turns (Turns.refl ..)
  tallies _ := sumKept_of_turns (Turns.refl ..)
  networks k := ⟨fun h => ⟨k, h, rfl⟩, fun ⟨_, hj, hk⟩ => hk ▸ hj⟩
  labels _ n hn _ := ⟨n, hn, rfl⟩
  talkgroups _ := rfl
  ofTalkgroup _ t t' ht ht' k := by
    rw [← Option.some.inj (ht.symm.trans ht')]
    exact ⟨fun h => ⟨k, h, rfl⟩, fun ⟨_, hj, hk⟩ => hk ▸ hj⟩
  radios _ := rfl
  ofRadio _ r r' hr hr' k := by
    rw [← Option.some.inj (hr.symm.trans hr')]
    exact ⟨fun h => ⟨k, h, rfl⟩, fun ⟨_, hj, hk⟩ => hk ▸ hj⟩
  callList := (List.map_id F.calls).symm
  resolves _ hj := hj

/-- A root is its own root, as rules are flat. -/
theorem root_root (hR : Flat R) (k : Bytes) : root R (root R k) = root R k :=
  root_of_not_mem (hR.root_not_mem k)

/-- **References that were led on are not led further.** -/
theorem fixNetworks_fixNetworks (hR : Flat R) (s : SortedSet Bytes) :
    fixNetworks R (fixNetworks R s) = fixNetworks R s := by
  have hmem : ∀ k, k ∈ fixNetworks R (fixNetworks R s) ↔ k ∈ fixNetworks R s := by
    intro k
    rw [mem_fixNetworks]
    constructor
    · rintro ⟨j, hj, rfl⟩
      obtain ⟨i, hi, rfl⟩ := mem_fixNetworks.1 hj
      rw [root_root hR]
      exact mem_fixNetworks.2 ⟨i, hi, rfl⟩
    · intro hk
      obtain ⟨i, hi, rfl⟩ := mem_fixNetworks.1 hk
      exact ⟨_, hk, root_root hR i⟩
  refine SortedMap.ext_find? fun k => ?_
  by_cases hk : k ∈ fixNetworks R s
  · obtain ⟨u, hu⟩ := SortedMap.mem_iff_find?.1 hk
    obtain ⟨u', hu'⟩ := SortedMap.mem_iff_find?.1 ((hmem k).2 hk)
    rw [hu, hu']
  · rw [SortedMap.find?_eq_none_iff.2 hk, SortedMap.find?_eq_none_iff.2 fun h => hk ((hmem k).1 h)]

/-- **Applied twice is applied once.** -/
theorem DsFamily.applied_applied (hR : Flat R) (F : DsFamily) :
    (F.applied R).applied R = F.applied R := by
  have hnets : (F.applied R).networks.gathered (root R) DsNetwork.keyed DsNetwork.absorb =
      (F.applied R).networks := by
    refine SortedMap.gathered_eq_self fun k n hn => ⟨?_, ?_⟩
    · obtain ⟨j, -, rfl⟩ := SortedMap.mem_gathered.1 (SortedMap.mem_of_find? hn)
      exact root_root hR j
    · have hkey : n.key = k := by
        refine SortedMap.all_gathered (Q := fun k n => n.key = k) ?_ ?_ k n hn
        · exact fun _ _ => rfl
        · exact fun _ _ _ h => h
      rw [DsNetwork.keyed, ← hkey]
  have htgs :
      (F.applied R).tgs.mapVal (fun _ t => { t with networks := fixNetworks R t.networks }) =
      (F.applied R).tgs := by
    refine SortedMap.ext_find? fun id => ?_
    rw [SortedMap.find?_mapVal, DsFamily.applied, SortedMap.find?_mapVal, Option.map_map]
    refine Option.map_congr fun t _ => ?_
    rw [Function.comp_apply, fixNetworks_fixNetworks hR]
  have hradios : (F.applied R).radios.mapVal
      (fun _ r => { r with networks := fixNetworks R r.networks }) =
      (F.applied R).radios := by
    refine SortedMap.ext_find? fun id => ?_
    rw [SortedMap.find?_mapVal, DsFamily.applied, SortedMap.find?_mapVal, Option.map_map]
    refine Option.map_congr fun r _ => ?_
    rw [Function.comp_apply, fixNetworks_fixNetworks hR]
  have hcalls : (F.applied R).calls.map (fun c => { c with net := root R c.net }) =
      (F.applied R).calls := by
    rw [DsFamily.applied, List.map_map]
    refine List.map_congr_left fun c _ => ?_
    rw [Function.comp_apply, root_root hR]
  rw [DsFamily.applied, hnets, htgs, hradios, hcalls]

end Family

/-! ## The whole dataset

Protocols do not mix, so what holds of each family holds of the dataset. -/

/-- Applying works on each family by its own rules. -/
theorem find?_applyMerges (d : Dataset) (fam : Bytes) : (applyMerges d).fams.find? fam =
    (d.fams.find? fam).map fun F =>
      if rulesOf d.merges fam = ∅ then F else F.applied (rulesOf d.merges fam) := by
  rw [applyMerges, SortedMap.find?_mapVal]
  refine Option.map_congr fun F _ => ?_
  rw [rulesOf, SortedMap.getD]
  obtain ⟨o, ho⟩ : ∃ o, d.merges.find? fam = o := ⟨_, rfl⟩
  rw [ho]
  rcases o with _ | R
  · exact (if_pos rfl).symm
  · dsimp only
    rw [Option.getD_some]
    exact if_congr SortedMap.isEmpty_eq_true_iff rfl rfl

/-- **Applying the merge rules conserves the data**: what the networks of a protocol count and the
key tallies, up to their limit, stay in sum; the networks are the roots of the former ones, a target
keeps its label, and every reference is to the root of the network it was to.  Applied again, the
rules change nothing.  A sum stays as the counters add it up, modulo `2 ^ 64`, and so in full if it
is below that. -/
theorem applyMerges_conserves (d : Dataset) (hflat : RulesFlat d.merges)
    (hlimit : ∀ fam F, d.fams.find? fam = some F → F.NoLimit (rulesOf d.merges fam)) :
    (∀ fam, fam ∈ (applyMerges d).fams ↔ fam ∈ d.fams) ∧
      (∀ fam F F', d.fams.find? fam = some F → (applyMerges d).fams.find? fam = some F' →
        F.Applied (rulesOf d.merges fam) F') ∧
      applyMerges { applyMerges d with merges := d.merges } = applyMerges d := by
  refine ⟨fun fam => SortedMap.mem_mapVal, fun fam F F' hF hF' => ?_, ?_⟩
  · rw [find?_applyMerges, hF] at hF'
    rw [← Option.some.inj hF']
    split_ifs with hR
    · exact hR ▸ DsFamily.Applied.refl F
    · exact (hlimit fam F hF).applied
  · have hfams : (applyMerges { applyMerges d with merges := d.merges }).fams =
        (applyMerges d).fams := by
      refine SortedMap.ext_find? fun fam => ?_
      rw [find?_applyMerges, find?_applyMerges, Option.map_map]
      refine Option.map_congr fun F _ => ?_
      rw [Function.comp_apply]
      split_ifs
      · rfl
      · exact F.applied_applied (hflat fam)
    have hsplit : ∀ x y : Dataset, x.fams = y.fams → x = { y with fams := x.fams } → x = y := by
      intro x y hf hx
      rw [hx, hf]
    exact hsplit _ _ hfams rfl

/-- Two networks that each count half of what a counter can hold, of which one goes under the
other. -/
def halves : Dataset :=
  { fams := SortedMap.insert ∅ (lit "dmr")
      { networks :=
          (SortedMap.insert ∅ (lit "a") { calls := 2 ^ 63 }).insert (lit "b") { calls := 2 ^ 63 } }
    merges := mergesAdd' ∅ (lit "dmr") (lit "a") (lit "b") }

/-- **A sum that no counter holds is lost**: nothing is left of `2 ^ 64` calls. -/
theorem applyMerges_wraps :
    RulesFlat halves.merges ∧
      (∀ fam F, halves.fams.find? fam = some F → F.NoLimit (rulesOf halves.merges fam)) ∧
      ∃ F F', halves.fams.find? (lit "dmr") = some F ∧
        (applyMerges halves).fams.find? (lit "dmr") = some F' ∧
        F.networks.weight DsNetwork.calls = 2 ^ 64 ∧ F'.networks.weight DsNetwork.calls = 0 := by
  refine ⟨rulesFlat_empty.add' _ _ _, fun fam F hF => ?_, _, _, rfl, rfl, by decide +kernel,
    by decide +kernel⟩
  have hall : ∀ e ∈ halves.fams.entries, e.2.NoLimit (rulesOf halves.merges e.1) := by
    decide +kernel
  exact hall (fam, F) (SortedMap.find?_eq_some_iff.1 hF)

/-- Two networks that go under a third, which is not there, and one that another goes under. -/
def regrouped : Dataset :=
  { fams := SortedMap.insert ∅ (lit "dmr")
      { networks :=
          ((SortedMap.insert ∅ (lit "a")
            { label := lit "A", calls := 2, keys := SortedMap.insert ∅ (lit ":1") 2 }).insert
              (lit "b")
              { label := lit "B", calls := 3, keys := SortedMap.insert ∅ (lit ":1") 3 }).insert
                (lit "c") { label := lit "C", calls := 5 }
        calls := [{ net := lit "a" }] }
    merges :=
      mergesAdd' (mergesAdd' ∅ (lit "dmr") (lit "a") (lit "z")) (lit "dmr") (lit "b") (lit "c") }

theorem applyMerges_conserves_regrouped :
    (∀ fam F F', regrouped.fams.find? fam = some F →
      (applyMerges regrouped).fams.find? fam = some F' →
        F'.networks.weight DsNetwork.calls = F.networks.weight DsNetwork.calls) ∧
    applyMerges { applyMerges regrouped with merges := regrouped.merges } =
      applyMerges regrouped := by
  have hflat : RulesFlat regrouped.merges := (rulesFlat_empty.add' _ _ _).add' _ _ _
  have hall : ∀ e ∈ regrouped.fams.entries, e.2.NoLimit (rulesOf regrouped.merges e.1) ∧
      e.2.networks.weight DsNetwork.calls < 2 ^ 64 := by
    decide +kernel
  have hfam : ∀ fam F, regrouped.fams.find? fam = some F →
      F.NoLimit (rulesOf regrouped.merges fam) ∧
        F.networks.weight DsNetwork.calls < 2 ^ 64 := fun fam F hF =>
    hall (fam, F) (SortedMap.find?_eq_some_iff.1 hF)
  obtain ⟨-, happlied, htwice⟩ :=
    applyMerges_conserves regrouped hflat fun fam F hF => (hfam fam F hF).1
  exact ⟨fun fam F F' hF hF' => (happlied fam F F' hF hF').calls.2 (hfam fam F hF).2, htwice⟩

end DsdServer
