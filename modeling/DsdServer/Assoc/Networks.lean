import DsdServer.Assoc.Invariants

/-!
# Assoc/Networks — renaming and dropping networks

A network that turns out to be another is folded into it (`Family.mergeNetwork`), and one a stream
leaves behind for nothing is dropped (`Family.dropNetwork`).  Both rewrite every reference to the
key they remove, and neither changes what the counters sum to.

A folded network gives its counts to the other and every reference its new key; sums over all
networks stay the same.  Whether a network may be dropped is for the callers to say; what is shown
here is that no reference to it is left.
-/

open Bytes Ledger

namespace DsdServer

/-! ## Renaming a network

The name of a network is a key in the table and a mention in calls, talkgroups and radios.  All are
renamed at once, so references that were rooted stay so. -/

/-- The key a network is known under once `frm` is `dst`. -/
def renamed (frm dst n : Bytes) : Bytes := if n = frm then dst else n

/-- A record once `frm` is `dst`. -/
def Call.rename (k : Call) (frm dst : Bytes) : Call :=
  if k.net = frm then { k with net := dst } else k

/-- The account of a network once `frm` is `dst`. -/
def Counter.rename (frm dst : Bytes) : Counter → Counter
  | .net n c => .net (renamed frm dst n) c
  | .tg t c => .tg t c
  | .radio r c => .radio r c

variable {frm dst : Bytes} {F : Family} {L : Limits}

/-- Renaming a network changes the network of a record. -/
theorem Call.rename_eq (k : Call) (frm dst : Bytes) :
    k.rename frm dst = { k with net := renamed frm dst k.net } := by
  rw [Call.rename, renamed]
  split_ifs <;> rfl

/-- A renamed record posts to the renamed accounts. -/
theorem Call.postings_rename (k : Call) (frm dst : Bytes) :
    (k.rename frm dst).postings = k.postings.map (Counter.rename frm dst) := by
  rw [Call.rename_eq]
  simp only [Call.postings, Call.basePostings, Call.sourcePostings, Call.linkPostings,
    Call.targetPostings, Call.keyPostings, Call.endPostings]
  split_ifs <;> simp [Counter.rename]

/-- The names in a set after renaming. -/
theorem mem_relabel {s : SortedSet Bytes} {n : Bytes} (h : n ∈ relabel frm dst s) :
    ∃ n' ∈ s, n = renamed frm dst n' := by
  rw [relabel] at h
  split_ifs at h with hf
  · rcases SortedSet.mem_add.1 h with rfl | h
    · exact ⟨frm, hf, (if_pos rfl).symm⟩
    · obtain ⟨hne, h⟩ := SortedMap.mem_erase.1 h
      exact ⟨n, h, (if_neg hne).symm⟩
  · exact ⟨n, h, (if_neg fun e => hf (by rwa [e] at h)).symm⟩

namespace Family

/-- What merging two networks comes to. -/
theorem mergeNetwork_eq {a z : Network} (ha : F.networks.find? frm = some a)
    (hz : F.networks.find? dst = some z) :
    F.mergeNetwork L frm dst =
      { networks := (F.networks.insert dst (z.absorb L a)).erase frm
        tgs := F.tgs.mapVal fun _ t => { t with networks := relabel frm dst t.networks }
        radios := F.radios.mapVal fun _ r => { r with networks := relabel frm dst r.networks }
        calls := F.calls.map fun k => k.rename frm dst } := by
  rw [mergeNetwork, ha, hz]
  rfl

/-- **Folding a network rewrites every reference to it.** -/
theorem Rooted.mergeNetwork (h : F.Rooted) (hne : frm ≠ dst) :
    (F.mergeNetwork L frm dst).Rooted := by
  rcases ha : F.networks.find? frm with _ | a
  · rwa [Family.mergeNetwork, ha]
  rcases hz : F.networks.find? dst with _ | z
  · rwa [Family.mergeNetwork, ha, hz]
  have hmem : ∀ n ∈ F.networks,
      renamed frm dst n ∈ (F.networks.insert dst (z.absorb L a)).erase frm := fun n hn => by
    rw [renamed, SortedMap.mem_erase, SortedMap.mem_insert]
    split_ifs with he
    · exact ⟨Ne.symm hne, Or.inl rfl⟩
    · exact ⟨he, Or.inr hn⟩
  have hset : ∀ s : SortedSet Bytes, SetWithin (· ∈ F.networks) s →
      SetWithin (· ∈ (F.networks.insert dst (z.absorb L a)).erase frm) (relabel frm dst s) :=
    fun s hs n hn => by
      obtain ⟨n', hn', rfl⟩ := mem_relabel hn
      exact hmem n' (hs n' hn')
  rw [mergeNetwork_eq ha hz]
  refine ⟨fun k hk => ?_, h.tgs.mapVal fun _ t ht => hset _ ht,
    h.radios.mapVal fun _ r hr => hset _ hr⟩
  obtain ⟨o, ho, rfl⟩ := List.mem_map.1 hk
  rw [Call.rename_eq]
  exact hmem _ (h.calls o ho)

variable (F L frm dst) in
/-- Merging leaves the records, or renames their network. -/
theorem calls_mergeNetwork :
    (F.mergeNetwork L frm dst).calls = F.calls ∨
      (F.mergeNetwork L frm dst).calls = F.calls.map fun k => k.rename frm dst := by
  rw [mergeNetwork]
  split
  · exact Or.inr rfl
  · exact Or.inl rfl

variable (F L frm dst) in
theorem callIds_mergeNetwork : (F.mergeNetwork L frm dst).callIds = F.callIds := by
  rcases calls_mergeNetwork frm dst F L with h | h
  · exact callIds_congr h
  · rw [callIds, h, List.map_map]
    refine List.map_congr_left fun k _ => ?_
    rw [Function.comp_apply, Call.rename_eq]

/-- Merging keeps the records in order. -/
theorem Kept.mergeNetwork (h : F.Kept) : (F.mergeNetwork L frm dst).Kept where
  ids := by
    have := callIds_mergeNetwork frm dst F L
    rw [callIds, callIds] at this
    rw [this]
    exact h.ids
  coherent k hk := by
    rcases calls_mergeNetwork frm dst F L with hc | hc
    · exact h.coherent k (hc ▸ hk)
    · rw [hc] at hk
      obtain ⟨o, ho, rfl⟩ := List.mem_map.1 hk
      rw [Call.rename_eq]
      exact ⟨(h.coherent o ho).target, (h.coherent o ho).source, (h.coherent o ho).noted⟩
  radios := by
    rw [Family.mergeNetwork]
    split
    · exact fun hm => h.radios (SortedMap.mem_mapVal.1 hm)
    · exact h.radios

/-! ### The counters of a folded network

The counts of the two networks are added, and so are the postings of the calls: those recorded on
the one now post to the other. -/

/-- Keys added one by one add their counts. -/
theorem count_foldl_keyAdd (key : Bytes) (l : List (Bytes × ℕ)) (m : SortedMap Bytes ℕ) :
    (l.foldl (fun m kv => keyAdd .unlimited m kv.1 kv.2) m).count key =
      m.count key + (l.map fun kv => if kv.1 = key then kv.2 else 0).sum := by
  induction l generalizing m with
  | nil => rfl
  | cons e l ih =>
    rw [List.foldl_cons, ih, count_keyAdd, List.map_cons, List.sum_cons]
    omega

/-- A network with another folded in counts what both did. -/
theorem value_absorb (z a : Network) (c : NetCounter) :
    (z.absorb .unlimited a).value c = z.value c + a.value c := by
  match c with
  | .calls => rfl
  | .key key =>
    refine (count_foldl_keyAdd key a.keys.entries z.keys).trans ?_
    rw [SortedMap.sum_entries_eq_count]
    rfl

/-- Counts once the accounts of `frm` are moved to `dst`. -/
def moved (frm dst : Bytes) (v : Counter → ℕ) : Counter → ℕ
  | .net n c => if n = frm then 0 else if n = dst then v (.net dst c) +
    v (.net frm c) else v (.net n c)
  | c => v c

/-- The counters once `frm` is folded into `dst`. -/
theorem value_mergeNetwork {a z : Network} (ha : F.networks.find? frm = some a)
    (hz : F.networks.find? dst = some z) (c : Counter) :
    (F.mergeNetwork .unlimited frm dst).value c = moved frm dst F.value c := by
  have hset : ∀ {V : Type} (m : SortedMap Bytes V) (g : V → V) (d : V) (k : Bytes), g d = d →
      (m.mapVal fun _ v => g v).getD k d = g (m.getD k d) := fun m g d k hd => by
    rw [SortedMap.getD, SortedMap.find?_mapVal, SortedMap.getD]
    rcases m.find? k with _ | v
    · exact hd.symm
    · rfl
  have hnil : relabel frm dst ∅ = ∅ := if_neg (SortedMap.not_mem_empty _)
  rw [mergeNetwork_eq ha hz]
  cases c with
  | net n c =>
    simp only [moved, value, SortedMap.getD, SortedMap.find?_erase, SortedMap.find?_insert, ha, hz]
    split_ifs with h1 h2
    · cases c <;> rfl
    · exact value_absorb z a c
    · rfl
  | tg t c =>
    change ((F.tgs.mapVal fun _ t => { t with networks := relabel frm dst t.networks }).getD t
      {}).value c = _
    rw [hset F.tgs (fun t => { t with networks := relabel frm dst t.networks }) {} t
      (by rw [hnil])]
    cases c <;> rfl
  | radio r c =>
    change ((F.radios.mapVal fun _ r => { r with networks := relabel frm dst r.networks }).getD r
      {}).value c = _
    rw [hset F.radios (fun r => { r with networks := relabel frm dst r.networks }) {} r
      (by rw [hnil])]
    cases c <;> rfl

/-- Postings under renamed accounts. -/
theorem count_map_rename (hne : frm ≠ dst) (l : List Counter) (c : Counter) :
    (l.map (Counter.rename frm dst)).count c = moved frm dst (fun c => l.count c) c := by
  induction l with
  | nil => cases c <;> simp [moved]
  | cons a l ih =>
    rw [List.map_cons, List.count_cons, ih]
    cases a with
    | net n d =>
      cases c with
      | net n' c =>
        simp only [moved, Counter.rename, renamed, List.count_cons, beq_iff_eq, Counter.net.injEq]
        by_cases h1 : n = frm <;> by_cases h2 : n' = frm <;> by_cases h3 : n' = dst <;>
          by_cases h4 : n = dst <;> simp_all <;> grind
      | tg t c => simp [moved, Counter.rename]
      | radio r c => simp [moved, Counter.rename]
    | tg t d => cases c <;> simp [moved, Counter.rename, List.count_cons]
    | radio r d => cases c <;> simp [moved, Counter.rename, List.count_cons]

/-- **Folding a network keeps the balance.** -/
theorem Balanced.mergeNetwork (hb : F.Balanced) (hne : frm ≠ dst) :
    (F.mergeNetwork .unlimited frm dst).Balanced := by
  rcases ha : F.networks.find? frm with _ | a
  · rwa [Family.mergeNetwork, ha]
  rcases hz : F.networks.find? dst with _ | z
  · rwa [Family.mergeNetwork, ha, hz]
  intro c
  have hcalls : (F.mergeNetwork .unlimited frm dst).calls = F.calls.map fun k =>
      k.rename frm dst := by
    rw [mergeNetwork_eq ha hz]
  have hpost : ∀ l : List Call, posted Call.postings (l.map fun k => k.rename frm dst) c =
      moved frm dst (posted Call.postings l) c := fun l => by
    induction l with
    | nil => cases c <;> simp [moved]
    | cons k l ih =>
      rw [List.map_cons, posted_cons, ih, Call.postings_rename, count_map_rename hne]
      cases c with
      | net n c =>
        simp only [moved, posted_cons]
        split_ifs <;> omega
      | tg t c => simp only [moved, posted_cons]
      | radio r c => simp only [moved, posted_cons]
  rw [value_mergeNetwork ha hz, hcalls, hpost]
  exact congrArg (moved frm dst · c) (funext hb)

/-! ## Dropping a network

A network is dropped when it has counted nothing and no call names it.  The mentions in talkgroups
and radios are taken out with it. -/

variable {n : Bytes}

theorem setWithin_erase {P : Bytes → Prop} {s : SortedSet Bytes} (h : SetWithin P s) :
    SetWithin (fun m => m ≠ n ∧ P m) (SortedMap.erase s n) := fun _ hm =>
  ⟨(SortedMap.mem_erase.1 hm).1, h _ (SortedMap.mem_erase.1 hm).2⟩

/-- **Dropping a network no call refers to leaves no reference to it.** -/
theorem Rooted.dropNetwork (h : F.Rooted) (hc : ∀ k ∈ F.calls, k.net ≠ n) :
    (F.dropNetwork n).Rooted := by
  have hmem : ∀ m, m ≠ n ∧ m ∈ F.networks → m ∈ F.networks.erase n := fun m hm =>
    SortedMap.mem_erase.2 hm
  refine ⟨fun k hk => hmem _ ⟨hc k hk, h.calls k hk⟩, ?_, ?_⟩
  · refine SortedMap.All.filter (SortedMap.All.mapVal h.tgs fun _ t ht => ?_) _
    exact fun m hm => hmem m (setWithin_erase ht m hm)
  · refine SortedMap.All.filter (SortedMap.All.mapVal h.radios fun _ r hr => ?_) _
    exact fun m hm => hmem m (setWithin_erase hr m hm)

/-- Dropping a network keeps the records in order. -/
theorem Kept.dropNetwork (h : F.Kept) : (F.dropNetwork n).Kept := by
  refine h.congr rfl fun hm => h.radios ?_
  obtain ⟨R, hR⟩ := SortedMap.mem_iff_find?.1 hm
  have hR : ((F.radios.mapVal fun _ r => { r with networks := r.networks.erase n }).filter
    fun _ r => !(r.networks.isEmpty && r.calls = 0 && r.tgs.isEmpty && r.peers.isEmpty)).find? [] =
      some R := hR
  rw [SortedMap.find?_filter, Option.filter_eq_some_iff] at hR
  exact SortedMap.mem_mapVal.1 (SortedMap.mem_of_find? hR.1)

theorem count_of_isEmpty {m : SortedMap Bytes ℕ} (h : m.isEmpty = true) (k : Bytes) :
    m.count k = 0 := by
  rw [SortedMap.count_eq, SortedMap.isEmpty_iff.1 h]
  rfl

/-- A table whose entries are rewritten, and dropped when they count nothing, counts the same. -/
theorem getD_prune {V ι : Type*} (val : V → ι → ℕ) (d : V) (hd : ∀ i, val d i = 0) {g : V → V}
    (hg : ∀ v, val (g v) = val v) (p : V → Bool) {m : SortedMap Bytes V} {k : Bytes} (i : ι)
    (hp : ∀ v, m.find? k = some v → p (g v) = false → val v i = 0) :
    val (((m.mapVal fun _ v => g v).filter fun _ v => p v).getD k d) i = val (m.getD k d) i := by
  rw [SortedMap.getD, SortedMap.find?_filter, SortedMap.find?_mapVal, SortedMap.getD]
  rcases hf : m.find? k with _ | v
  · rfl
  · rcases hpv : p (g v) with _ | _
    · rw [Option.map_some, Option.filter_some_neg (by simpa using hpv)]
      exact (hd i).trans (hp v hf hpv).symm
    · rw [Option.map_some, Option.filter_some_pos hpv]
      exact congrFun (hg v) i

/-- **Dropping a network without calls changes no counter.** -/
theorem Balanced.value_dropNetwork (hb : F.Balanced) (hz : F.value (.net n .calls) = 0) :
    (F.dropNetwork n).value = F.value := by
  funext c
  cases c with
  | net m c =>
    change ((F.networks.erase n).getD m {}).value c = _
    rw [SortedMap.getD, SortedMap.find?_erase]
    split_ifs with h
    · rw [h, hb.net_eq_zero hz c]
      cases c <;> rfl
    · rfl
  | tg t c =>
    refine getD_prune Talkgroup.value {} (fun c => value_default (.tg t c))
      (g := fun t => { t with networks := t.networks.erase n }) (fun v => by
        funext c; cases c <;> rfl)
      _ c fun T hT hp => ?_
    simp only [Bool.not_eq_false', Bool.and_eq_true, decide_eq_true_eq] at hp
    have : F.value (.tg t .calls) = 0 := by
      rw [value, SortedMap.getD_of_find? hT]
      exact hp.1.2
    have hc := hb.tg_eq_zero this c
    rwa [value, SortedMap.getD_of_find? hT] at hc
  | radio r c =>
    refine getD_prune Radio.value {} (fun c => value_default (.radio r c))
      (g := fun r => { r with networks := r.networks.erase n }) (fun v => by
        funext c; cases c <;> rfl)
      _ c fun R hR hp => ?_
    simp only [Bool.not_eq_false', Bool.and_eq_true, decide_eq_true_eq] at hp
    cases c with
    | peer p => exact count_of_isEmpty hp.2 p
    | calls => exact hp.1.1.2
    | tg t => exact count_of_isEmpty hp.1.2 t
    | key key =>
      have : F.value (.radio r .calls) = 0 := by
        rw [value, SortedMap.getD_of_find? hR]
        exact hp.1.1.2
      have hc := hb.radio_eq_zero this (c := .key key) fun _ => RadioCounter.noConfusion
      rwa [value, SortedMap.getD_of_find? hR] at hc

/-- Dropping networks nothing is recorded on. -/
theorem drop_networks (dead : List Bytes) (hk : F.Kept)
    (hc : ∀ n ∈ dead, ∀ k ∈ F.calls, k.net ≠ n) :
    (dead.foldl dropNetwork F).Kept ∧ (dead.foldl dropNetwork F).calls = F.calls ∧
      (F.Rooted → (dead.foldl dropNetwork F).Rooted) ∧
      (F.Balanced → (∀ n ∈ dead, F.value (.net n .calls) = 0) →
        (dead.foldl dropNetwork F).Balanced) := by
  induction dead generalizing F with
  | nil => exact ⟨hk, rfl, fun h => h, fun h _ => h⟩
  | cons n dead ih =>
    obtain ⟨h1, h2, h3, h4⟩ := ih (hk.dropNetwork (n := n)) fun m hm =>
      hc m (List.mem_cons_of_mem _ hm)
    refine ⟨h1, h2, fun h => h3 (h.dropNetwork (hc n List.mem_cons_self)), fun hb hz => h4 ?_ ?_⟩
    · exact hb.congr (hb.value_dropNetwork (hz n List.mem_cons_self)) rfl
    · intro m hm
      rw [hb.value_dropNetwork (hz n List.mem_cons_self)]
      exact hz m (List.mem_cons_of_mem _ hm)

end Family

end DsdServer
