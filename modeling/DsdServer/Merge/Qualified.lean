import DsdServer.Data.Inserted
import DsdServer.Merge.Import

/-!
# Merge/Qualified — what an import keeps of a file's networks

An import gives the networks that are local to their run, or to their receiver, keys of their own,
and what refers to a network refers to it under its new key.  A file may already hold that key:
`import_conserves_iff` says when **no network is lost to another**.

The condition is one on the keys of the file alone: no two of its networks come to one key when
those that are local are given theirs.  It is necessary too, since of two networks under one key
only one is kept.
-/

open Bytes

namespace DsdServer

open mjson

/-! ## What a file lists

The file is a list of records, and what is read from it a table.  Two records with one id become one
entry, so the list is what a statement about loss has to start from. -/

/-- What a file says about a protocol, in one place or several. -/
def partsOf (root : V) (fam : Bytes) : List V :=
  (((root.get "families").getD .null).members.filter fun fk => fk.1 = fam ∧ fk.2.isObj).map Prod.snd

/-- The records of a protocol that have an id. -/
def recordsOf (root : V) (fam : Bytes) (table id : String) : List V :=
  (partsOf root fam).flatMap fun F => ((F.get table).getD .null).elements.filter fun e =>
    e.strOf id ≠ []

/-- The networks a file lists of a protocol. -/
def listedNetworks (root : V) (fam : Bytes) : List V := recordsOf root fam "networks" "key"

/-- The calls a file lists of a protocol. -/
def listedCalls (root : V) (fam : Bytes) : List V :=
  (partsOf root fam).flatMap fun F => ((F.get "calls").getD .null).elements

/-- The key a listed network gets; a file without a run of its own is left as it is. -/
def requalifiedAs (o : Origin) (cm : ChannelMerge) (e : V) : Option Bytes :=
  if o.instanceId = [] then none else qualified cm o (readNetwork e)

/-- **Where a file's network is after the import.** -/
def newKey (o : Origin) (cm : ChannelMerge) (nets : List V) (k : Bytes) : Bytes :=
  ((nets.find? fun e => e.strOf "key" = k).bind (requalifiedAs o cm)).getD k

/-- The networks that a record of a file names, under the keys they have after the import. -/
def ImageOf (o : Origin) (cm : ChannelMerge) (nets : List V) (s s' : SortedSet Bytes) : Prop :=
  ∀ k, k ∈ s' ↔ ∃ j ∈ s, newKey o cm nets j = k

/-- **A protocol's networks are conserved**: there are as many as the file lists, with as many calls
and sessions, and what refers to a network still does. -/
structure Conserved (root : V) (o : Origin) (cm : ChannelMerge) (fam : Bytes) (F : DsFamily) :
    Prop where
  count : F.networks.size = (listedNetworks root fam).length
  calls : F.networks.weight DsNetwork.calls =
    ((listedNetworks root fam).map fun e => e.u "calls").sum
  sessions : F.networks.weight DsNetwork.sessions =
    ((listedNetworks root fam).map fun e => e.u "sessions").sum
  ofCalls : F.calls.map DsCall.net =
    (listedCalls root fam).map fun e => newKey o cm (listedNetworks root fam) (e.strOf "net")
  ofTalkgroups : ∀ i t, F.tgs.find? i = some t → ∃ e ∈ recordsOf root fam "talkgroups" "id",
    e.strOf "id" = i ∧
    ImageOf o cm (listedNetworks root fam) (strset (e.get "networks")) t.networks
  ofRadios : ∀ i r, F.radios.find? i = some r → ∃ e ∈ recordsOf root fam "radios" "id",
    e.strOf "id" = i ∧
    ImageOf o cm (listedNetworks root fam) (strset (e.get "networks")) r.networks

/-- **No network gets the key of another one of the file.** -/
def NoneTaken (root : V) (o : Origin) (cm : ChannelMerge) : Prop :=
  ∀ fam, ∀ e ∈ listedNetworks root fam, ∀ e' ∈ listedNetworks root fam,
    requalifiedAs o cm e ≠ some (e'.strOf "key")

/-! ## The file's data

The reader's tables are taken apart again into the lists they were read from. -/

/-- A table is its records, put in one after another. -/
theorem readTable_eq {D : Type} {read : V → D} {idOf : D → Bytes} {id : String}
    (hid : ∀ e, idOf (read e) = e.strOf id) (m : SortedMap Bytes D) (a : Option V) :
    readTable read idOf m a =
      m.insertEach (fun e => e.strOf id) read
        ((a.getD .null).elements.filter fun e => e.strOf id ≠ []) := by
  rw [readTable, SortedMap.insertEach, List.foldl_filter]
  refine List.foldl_ext _ _ _ fun m e _ => ?_
  rw [hid]
  by_cases h : e.strOf id = []
  · simp [h]
  · simp [h]

/-- A protocol's data is what its parts say, one after another. -/
theorem getD_readFamilies (fam : Bytes) (l : List (Bytes × V)) : ∀ m : SortedMap Bytes DsFamily,
    (l.foldl (fun m fk => if fk.2.isObj then m.insert fk.1 (readFamily (m.getD fk.1 {}) fk.2)
      else m) m).getD fam {} =
      ((l.filter fun fk => fk.1 = fam ∧ fk.2.isObj).map Prod.snd).foldl readFamily
        (m.getD fam {}) := by
  induction l with
  | nil => exact fun _ => rfl
  | cons fk l ih =>
    intro m
    rw [List.foldl_cons, ih]
    by_cases hobj : fk.2.isObj = true
    · by_cases hfam : fk.1 = fam
      · simp [hobj, hfam, SortedMap.getD, SortedMap.find?_insert_self]
      · simp [hobj, hfam, SortedMap.getD, SortedMap.find?_insert_ne _ _ (Ne.symm hfam)]
    · simp [hobj]

/-- The tables of the parts, one after another. -/
theorem foldl_readFamily (l : List V) : ∀ F : DsFamily,
    (l.foldl readFamily F).networks = F.networks.insertEach (fun e => e.strOf "key") readNetwork
        (l.flatMap fun F => ((F.get "networks").getD .null).elements.filter fun e =>
          e.strOf "key" ≠ []) ∧
      (l.foldl readFamily F).tgs = F.tgs.insertEach (fun e => e.strOf "id") readTalkgroup
        (l.flatMap fun F => ((F.get "talkgroups").getD .null).elements.filter fun e =>
          e.strOf "id" ≠ []) ∧
      (l.foldl readFamily F).radios = F.radios.insertEach (fun e => e.strOf "id") readRadio
        (l.flatMap fun F => ((F.get "radios").getD .null).elements.filter fun e =>
          e.strOf "id" ≠ []) ∧
      (l.foldl readFamily F).calls =
        F.calls ++ (l.flatMap fun F => ((F.get "calls").getD .null).elements).map readCall := by
  induction l with
  | nil => exact fun F => ⟨rfl, rfl, rfl, (List.append_nil _).symm⟩
  | cons part l ih =>
    intro F
    obtain ⟨hnets, htgs, hradios, hcalls⟩ := ih (readFamily F part)
    rw [List.foldl_cons, hnets, htgs, hradios, hcalls, readFamily, readTable_eq (fun _ => rfl),
      readTable_eq (fun _ => rfl), readTable_eq (fun _ => rfl)]
    refine ⟨?_, ?_, ?_, ?_⟩
    · rw [List.flatMap_cons, SortedMap.insertEach_append]
    · rw [List.flatMap_cons, SortedMap.insertEach_append]
    · rw [List.flatMap_cons, SortedMap.insertEach_append]
    · rw [List.flatMap_cons, List.map_append, List.append_assoc]

/-- **The file's data of a protocol**, from what it lists. -/
theorem fileFamilies_spec {root : V} {fam : Bytes} {F : DsFamily}
    (hF : (fileFamilies root).find? fam = some F) :
    F.networks = SortedMap.insertEach (fun e => e.strOf "key") readNetwork ∅
      (listedNetworks root fam) ∧
      F.tgs = SortedMap.insertEach (fun e => e.strOf "id") readTalkgroup ∅
        (recordsOf root fam "talkgroups" "id") ∧
      F.radios = SortedMap.insertEach (fun e => e.strOf "id") readRadio ∅
        (recordsOf root fam "radios" "id") ∧
      F.calls = (listedCalls root fam).map readCall := by
  have hparts : F = (partsOf root fam).foldl readFamily {} := by
    rw [← SortedMap.getD_of_find? hF {}]
    exact getD_readFamilies fam _ ∅
  rw [hparts]
  exact foldl_readFamily (partsOf root fam) {}

/-- A protocol without data lists no networks. -/
theorem listedNetworks_of_not_mem {root : V} {fam : Bytes} (h : fam ∉ fileFamilies root) :
    listedNetworks root fam = [] := by
  have hparts : ({} : DsFamily) = (partsOf root fam).foldl readFamily {} :=
    (SortedMap.getD_of_not_mem h {}).symm.trans (getD_readFamilies fam _ ∅)
  have hnets := (foldl_readFamily (partsOf root fam) {}).1
  rw [← hparts] at hnets
  refine List.eq_nil_iff_forall_not_mem.2 fun e he => ?_
  have hmem : e.strOf "key" ∈ (∅ : SortedMap Bytes DsNetwork) := by
    rw [show (∅ : SortedMap Bytes DsNetwork) = _ from hnets]
    exact SortedMap.mem_insertEach.2 (Or.inr (List.mem_map_of_mem he))
  exact SortedMap.not_mem_empty _ hmem

/-! ## New keys

The key of a local network gets the server it is from at its end.  A file may hold such a key
already, and then two networks have one key. -/

section Keys

variable {cm : ChannelMerge} {o : Origin} {n n' : DsNetwork} {k : Bytes}

/-- A new key is the old one, of no run, with the run or the receiver after it. -/
theorem qualified_eq (h : qualified cm o n = some k) :
    ch '~' ∉ n.key ∧ ∃ s, k = n.key ++ ch '~' :: s := by
  rw [qualified] at h
  split_ifs at h with hkey
  · exact ⟨hkey, o.who, (Option.some.inj h).symm.trans (by rw [List.append_assoc]; rfl)⟩
  · exact ⟨hkey, o.tag, (Option.some.inj h).symm.trans (by rw [List.append_assoc]; rfl)⟩

/-- A key that was qualified is not qualified again. -/
theorem qualified_of_mem (h : ch '~' ∈ n.key) : qualified cm o n = none := if_pos h

/-- **New keys tell the networks apart as the old ones did.** -/
theorem qualified_inj (h : qualified cm o n = some k) (h' : qualified cm o n' = some k) :
    n.key = n'.key := by
  obtain ⟨hkey, s, rfl⟩ := qualified_eq h
  obtain ⟨hkey', s', he⟩ := qualified_eq h'
  have hcut := congrArg (cut (ch '~')) he
  rw [cut_of_not_mem hkey, cut_of_not_mem hkey'] at hcut
  exact (Prod.mk.inj (Option.some.inj hcut)).1

/-- The key of a network after the import. -/
theorem requalify_key (cm : ChannelMerge) (o : Origin) (n : DsNetwork) :
    (requalify cm o n).key = (qualified cm o n).getD n.key := by
  rw [requalify]
  split
  · next k hk => rw [hk]; rfl
  · next hk => rw [hk]; rfl

/-- An import counts the calls of a network as the file does. -/
theorem requalify_calls (cm : ChannelMerge) (o : Origin) (n : DsNetwork) :
    (requalify cm o n).calls = n.calls := by
  rw [requalify]
  split <;> rfl

/-- An import leaves who fed a network. -/
theorem requalify_sessions (cm : ChannelMerge) (o : Origin) (n : DsNetwork) :
    (requalify cm o n).sessions = n.sessions := by
  rw [requalify]
  split <;> rfl

end Keys

section Family

variable {cm : ChannelMerge} {o : Origin} {l : List V} {nets : SortedMap Bytes DsNetwork}

/-- The networks are those of a list of records with keys of their own. -/
structure Lists (nets : SortedMap Bytes DsNetwork) (l : List V) : Prop where
  nodup : (l.map fun e => e.strOf "key").Nodup
  eq : nets = SortedMap.insertEach (fun e => e.strOf "key") readNetwork ∅ l

namespace Lists

/-- A network that is listed is found under its key. -/
theorem find?_of_mem (h : Lists nets l) {e : V} (he : e ∈ l) :
    nets.find? (e.strOf "key") = some (readNetwork e) := by
  rw [h.eq]
  exact SortedMap.find?_insertEach_of_mem h.nodup he

/-- A network that is found was listed. -/
theorem exists_of_find? (h : Lists nets l) {k : Bytes} {n : DsNetwork}
    (hn : nets.find? k = some n) :
    ∃ e ∈ l, e.strOf "key" = k ∧ readNetwork e = n := by
  rw [h.eq] at hn
  rcases SortedMap.find?_of_insertEach hn with hn | hn
  · cases hn
  · exact hn

/-- What networks weigh together is the sum over the list. -/
theorem weight_eq (h : Lists nets l) (w : DsNetwork → ℕ) :
    nets.weight w = (l.map fun e => w (readNetwork e)).sum := by
  rw [h.eq, SortedMap.weight_insertEach h.nodup fun _ _ => SortedMap.not_mem_empty _,
    SortedMap.weight_empty, Nat.zero_add]

/-- There are as many networks as are listed, when their keys differ. -/
theorem size_eq (h : Lists nets l) : nets.size = l.length := by
  rw [SortedMap.size_eq_weight, h.weight_eq]
  simp

/-- **No two networks get one key just when none gets the key of another.** -/
theorem nodup_iff (h : Lists nets l) : (nets.entries.map fun e => (requalify cm o e.2).key).Nodup ↔
    ∀ e ∈ l, ∀ e' ∈ l, qualified cm o (readNetwork e) ≠ some (e'.strOf "key") := by
  rw [List.nodup_map_iff_inj_on (List.Nodup.of_map _ nets.nodup_keys)]
  constructor
  · intro hinj e he e' he' hq
    obtain ⟨hkey, s, hs⟩ := qualified_eq hq
    have htilde : ch '~' ∈ e'.strOf "key" := by
      rw [hs]
      exact List.mem_append_right _ List.mem_cons_self
    have hsame := hinj _ (SortedMap.find?_eq_some_iff.1 (h.find?_of_mem he)) _
      (SortedMap.find?_eq_some_iff.1 (h.find?_of_mem he')) (by
        rw [requalify_key, requalify_key, hq, qualified_of_mem htilde]
        rfl)
    rw [← (Prod.mk.inj hsame).1] at htilde
    exact hkey htilde
  · rintro hnone ⟨k, n⟩ hn ⟨k', n'⟩ hn' heq
    obtain ⟨e, he, rfl, rfl⟩ := h.exists_of_find? (SortedMap.find?_eq_some_iff.2 hn)
    obtain ⟨e', he', rfl, rfl⟩ := h.exists_of_find? (SortedMap.find?_eq_some_iff.2 hn')
    have hkeys : e.strOf "key" = e'.strOf "key" := by
      rw [requalify_key, requalify_key] at heq
      rcases hq : qualified cm o (readNetwork e) with _ | q
      · rcases hq' : qualified cm o (readNetwork e') with _ | q'
        · rw [hq, hq'] at heq
          exact heq
        · rw [hq, hq'] at heq
          exact absurd (hq'.trans (congrArg some heq.symm)) (hnone e' he' e he)
      · rcases hq' : qualified cm o (readNetwork e') with _ | q'
        · rw [hq, hq'] at heq
          exact absurd (hq.trans (congrArg some heq)) (hnone e he e' he')
        · rw [hq, hq'] at heq
          exact qualified_inj hq (hq'.trans (congrArg some heq.symm))
    have hval := (h.find?_of_mem he).symm.trans (hkeys ▸ h.find?_of_mem he')
    rw [hkeys, Option.some.inj hval]

/-- **New keys that differ lose nothing.** -/
theorem weight_renameNetworks (h : (nets.entries.map fun e => (requalify cm o e.2).key).Nodup)
    {w : DsNetwork → ℕ} (hw : ∀ n, w (requalify cm o n) = w n) :
    (renameNetworks cm o nets).weight w = nets.weight w := by
  change (SortedMap.insertNew (fun e => (requalify cm o e.2).key) (fun e => requalify cm o e.2) ∅
    nets.entries).weight w = _
  rw [SortedMap.insertNew_eq h fun _ _ => SortedMap.not_mem_empty _,
    SortedMap.weight_insertEach h fun _ _ => SortedMap.not_mem_empty _, SortedMap.weight_empty,
    Nat.zero_add]
  simp only [hw]
  rfl

/-- Records of one key are read the same. -/
theorem read_eq (h : Lists nets l) {e e' : V} (he : e ∈ l) (he' : e' ∈ l)
    (hk : e.strOf "key" = e'.strOf "key") :
    readNetwork e = readNetwork e' := by
  have hfind := h.find?_of_mem he
  rw [hk, h.find?_of_mem he'] at hfind
  exact (Option.some.inj hfind).symm

theorem find?_remapOf (h : Lists nets l) {k q : Bytes} : (remapOf cm o nets).find? k = some q ↔
    ∃ e ∈ l, e.strOf "key" = k ∧ qualified cm o (readNetwork e) = some q := by
  have hremap : remapOf cm o nets = SortedMap.insertEach Prod.fst Prod.snd ∅
      (nets.entries.filterMap fun e => (qualified cm o e.2).map fun key => (e.2.key, key)) := by
    rw [SortedMap.insertEach, List.foldl_filterMap, remapOf]
    refine List.foldl_ext _ _ _ fun m e _ => ?_
    cases qualified cm o e.2 <;> rfl
  have hmem : ∀ a,
      a ∈ (nets.entries.filterMap fun e => (qualified cm o e.2).map fun key => (e.2.key, key)) ↔
      ∃ e ∈ l, e.strOf "key" = a.1 ∧ qualified cm o (readNetwork e) = some a.2 := by
    intro a
    rw [List.mem_filterMap]
    constructor
    · rintro ⟨kn, hkn, ha⟩
      obtain ⟨q, hq, rfl⟩ := Option.map_eq_some_iff.1 ha
      obtain ⟨e, he, -, hread⟩ := h.exists_of_find? (SortedMap.find?_eq_some_iff.2 hkn)
      rw [← hread] at hq ⊢
      exact ⟨e, he, rfl, hq⟩
    · rintro ⟨e, he, hk, hq⟩
      refine ⟨(e.strOf "key", readNetwork e), SortedMap.find?_eq_some_iff.1 (h.find?_of_mem he), ?_⟩
      rw [Option.map_eq_some_iff]
      exact ⟨a.2, hq, Prod.ext hk rfl⟩
  rw [hremap]
  constructor
  · intro hfind
    rcases SortedMap.find?_of_insertEach hfind with hfind | ⟨a, ha, rfl, rfl⟩
    · cases hfind
    · exact (hmem a).1 ha
  · rintro ⟨e, he, rfl, hq⟩
    refine SortedMap.find?_insertEach_of_unique ⟨(e.strOf "key", q), (hmem _).2 ⟨e, he, rfl, hq⟩,
      rfl⟩ fun a ha hk => ?_
    obtain ⟨e', he', hk', hq'⟩ := (hmem a).1 ha
    rw [h.read_eq he' he (hk'.trans hk), hq] at hq'
    exact (Option.some.inj hq').symm

/-- **The image of a key is where its network is after the import.** -/
theorem image_remapOf (h : Lists nets l) (ho : o.instanceId ≠ []) (k : Bytes) :
    image (remapOf cm o nets) k = newKey o cm l k := by
  have has : requalifiedAs o cm = fun e => qualified cm o (readNetwork e) :=
    funext fun e => if_neg ho
  have hfind : (remapOf cm o nets).find? k =
      (l.find? fun e => e.strOf "key" = k).bind fun e => qualified cm o (readNetwork e) := by
    refine Option.ext fun q => ?_
    rw [h.find?_remapOf, Option.bind_eq_some_iff]
    constructor
    · rintro ⟨e, he, hk, hq⟩
      obtain ⟨e', he'⟩ := Option.isSome_iff_exists.1
        ((List.find?_isSome (p := fun e : V => e.strOf "key" = k)).2 ⟨e, he, decide_eq_true hk⟩)
      have hk' : e'.strOf "key" = k := by simpa using List.find?_some he'
      refine ⟨e', he', ?_⟩
      rw [h.read_eq (List.mem_of_find?_eq_some he') he (hk'.trans hk.symm)]
      exact hq
    · rintro ⟨e, he, hq⟩
      exact ⟨e, List.mem_of_find?_eq_some he, by simpa using List.find?_some he, hq⟩
  rw [image, SortedMap.getD, hfind, newKey, has]

theorem imageOf_imageSet (h : Lists nets l) (ho : o.instanceId ≠ []) (s : SortedSet Bytes) :
    ImageOf o cm l s (imageSet (remapOf cm o nets) s) := by
  intro k
  have hall : imageSet (remapOf cm o nets) s = SortedSet.addAll ∅
      (s.keys.map (image (remapOf cm o nets))) := by
    rw [SortedSet.addAll, List.foldl_map]
    rfl
  rw [hall, SortedSet.mem_addAll, List.mem_map, or_iff_left (SortedMap.not_mem_empty k)]
  simp only [h.image_remapOf ho]
  rfl

end Lists

end Family

/-! ## The import

What is conserved is the number of networks, what they count, and every reference.  All of it
follows from the new keys being different. -/

/-- A file without a run gives no new keys. -/
theorem newKey_of_none {o : Origin} (ho : o.instanceId = []) (cm : ChannelMerge) (l : List V)
    (k : Bytes) :
    newKey o cm l k = k := by
  have has : requalifiedAs o cm = fun _ => none := funext fun e => if_pos ho
  rw [newKey, has, Option.bind_fun_none]
  rfl

section Import

variable {root : V} {fam : Bytes} {F : DsFamily} {o : Origin} {cm : ChannelMerge}

/-- A file without a run of its own is kept as it is. -/
theorem conserved_raw (hkeys : ((listedNetworks root fam).map fun e => e.strOf "key").Nodup)
    (hF : (fileFamilies root).find? fam = some F) (ho : o.instanceId = []) :
    Conserved root o cm fam F := by
  obtain ⟨hnets, htgs, hradios, hcalls⟩ := fileFamilies_spec hF
  have hl : Lists F.networks (listedNetworks root fam) := ⟨hkeys, hnets⟩
  refine ⟨hl.size_eq, hl.weight_eq _, hl.weight_eq _, ?_, fun i t ht => ?_, fun i r hr => ?_⟩
  · rw [hcalls, List.map_map]
    exact List.map_congr_left fun e _ => (newKey_of_none ho cm _ _).symm
  · rw [htgs] at ht
    rcases SortedMap.find?_of_insertEach ht with ht | ⟨e, he, hi, rfl⟩
    · cases ht
    · refine ⟨e, he, hi, fun k => ?_⟩
      simp only [newKey_of_none ho]
      exact ⟨fun hk => ⟨k, hk, rfl⟩, fun ⟨j, hj, hjk⟩ => hjk ▸ hj⟩
  · rw [hradios] at hr
    rcases SortedMap.find?_of_insertEach hr with hr | ⟨e, he, hi, rfl⟩
    · cases hr
    · refine ⟨e, he, hi, fun k => ?_⟩
      simp only [newKey_of_none ho]
      exact ⟨fun hk => ⟨k, hk, rfl⟩, fun ⟨j, hj, hjk⟩ => hjk ▸ hj⟩

/-- **A protocol's networks are conserved just when none gets the key of another.** -/
theorem conserved_qualifyFamily
    (hkeys : ((listedNetworks root fam).map fun e => e.strOf "key").Nodup)
    (hF : (fileFamilies root).find? fam = some F) (ho : o.instanceId ≠ []) :
    Conserved root o cm fam (qualifyFamily cm o F) ↔ ∀ e ∈ listedNetworks root fam,
      ∀ e' ∈ listedNetworks root fam, qualified cm o (readNetwork e) ≠ some (e'.strOf "key") := by
  obtain ⟨hnets, htgs, hradios, hcalls⟩ := fileFamilies_spec hF
  have hl : Lists F.networks (listedNetworks root fam) := ⟨hkeys, hnets⟩
  rw [← hl.nodup_iff]
  constructor
  · intro h
    exact SortedMap.size_insertNew.1 (h.count.trans hl.size_eq.symm)
  · intro h
    refine ⟨(SortedMap.size_insertNew.2 h).trans hl.size_eq, ?_, ?_, ?_, fun i t ht => ?_,
      fun i r hr => ?_⟩
    · exact (Lists.weight_renameNetworks h (requalify_calls cm o)).trans (hl.weight_eq _)
    · exact (Lists.weight_renameNetworks h (requalify_sessions cm o)).trans (hl.weight_eq _)
    · rw [qualifyFamily, hcalls]
      simp only [List.map_map]
      exact List.map_congr_left fun e _ => hl.image_remapOf ho _
    · rw [qualifyFamily, SortedMap.find?_mapVal, Option.map_eq_some_iff] at ht
      obtain ⟨t, ht, rfl⟩ := ht
      rw [htgs] at ht
      rcases SortedMap.find?_of_insertEach ht with ht | ⟨e, he, hi, rfl⟩
      · cases ht
      · exact ⟨e, he, hi, hl.imageOf_imageSet ho _⟩
    · rw [qualifyFamily, SortedMap.find?_mapVal, Option.map_eq_some_iff] at hr
      obtain ⟨r, hr, rfl⟩ := hr
      rw [hradios] at hr
      rcases SortedMap.find?_of_insertEach hr with hr | ⟨e, he, hi, rfl⟩
      · cases hr
      · exact ⟨e, he, hi, hl.imageOf_imageSet ho _⟩

end Import

/-- **An import conserves the networks of a file, with all that refers to them, just when no network
gets the key of another one of the file.** -/
theorem import_conserves_iff {root : V} {label : Bytes} {cm : ChannelMerge} {d : Dataset}
    (hd : datasetFromExport root label cm = .ok d)
    (hkeys : ∀ fam, ((listedNetworks root fam).map fun e => e.strOf "key").Nodup) :
    (∀ fam F, d.fams.find? fam = some F → Conserved root (fileOrigin root label) cm fam F) ↔
      NoneTaken root (fileOrigin root label) cm := by
  have hfams : d.fams = if (fileOrigin root label).instanceId = [] then fileFamilies root
      else (fileFamilies root).mapVal fun _ F => qualifyFamily cm (fileOrigin root label) F := by
    rw [datasetFromExport] at hd
    split at hd
    · cases hd
    · rw [← Except.ok.inj hd]
  rw [hfams]
  by_cases ho : (fileOrigin root label).instanceId = []
  · rw [if_pos ho]
    refine iff_of_true (fun fam F hF => conserved_raw (hkeys fam) hF ho) fun fam e _ e' _ => ?_
    rw [requalifiedAs, if_pos ho]
    exact (Option.some_ne_none _).symm
  · rw [if_neg ho]
    have has : ∀ e, requalifiedAs (fileOrigin root label) cm e = qualified cm
        (fileOrigin root label) (readNetwork e) :=
      fun e => if_neg ho
    simp only [NoneTaken, has]
    constructor
    · intro h fam e he e' he'
      by_cases hmem : fam ∈ fileFamilies root
      · obtain ⟨F, hF⟩ := SortedMap.mem_iff_find?.1 hmem
        refine (conserved_qualifyFamily (hkeys fam) hF ho).1 (h fam _ ?_) e he e' he'
        rw [SortedMap.find?_mapVal, hF]
        rfl
      · rw [listedNetworks_of_not_mem hmem] at he
        exact absurd he List.not_mem_nil
    · intro h fam F' hF'
      rw [SortedMap.find?_mapVal, Option.map_eq_some_iff] at hF'
      obtain ⟨F, hF, rfl⟩ := hF'
      exact (conserved_qualifyFamily (hkeys fam) hF ho).2 (h fam)

/-! ## A file with both

A file may hold a network that is local to its run, and beside it one that an earlier import gave
the very key the first one gets. -/

/-- The export of one protocol's networks, by the run `run1`. -/
def dmrExport (keys : List String) : V :=
  .obj [(lit "instance", .str (lit "run1")),
    (lit "families", .obj [(lit "dmr", .obj [(lit "networks", .arr
    (keys.map fun k =>
      .obj [(lit "key", .str (lit k)), (lit "confidence", .str (lit "weak"))]))])])]

/-- The example lists networks of one protocol. -/
theorem listedNetworks_dmrExport {keys : List String} {fam : Bytes} (h : lit "dmr" ≠ fam) :
    listedNetworks (dmrExport keys) fam = [] := by
  have hparts : partsOf (dmrExport keys) fam = [] := by
    change ((List.filter _ [(lit "dmr", _)]).map Prod.snd : List V) = []
    rw [List.filter_cons_of_neg (by simp [h])]
    rfl
  rw [listedNetworks, recordsOf, hparts]
  rfl

/-- Two networks that are local to the run. -/
def twoLocal : V := dmrExport ["cc:1@s1", "cc:2@s1"]

/-- A network that is local to the run, and one an earlier import gave the key that it gets. -/
def localAndImported : V := dmrExport ["cc:1@s1", "cc:1@s1~run1"]

theorem nodup_dmrExport {keys : List String}
    (h : ((listedNetworks (dmrExport keys) (lit "dmr")).map fun e => e.strOf "key").Nodup)
    (fam : Bytes) :
    ((listedNetworks (dmrExport keys) fam).map fun e => e.strOf "key").Nodup := by
  by_cases hfam : lit "dmr" = fam
  · rwa [← hfam]
  · rw [listedNetworks_dmrExport hfam]
    exact List.nodup_nil

theorem import_conserves_iff_twoLocal : ∃ d, datasetFromExport twoLocal [] {} = .ok d ∧
    ∀ fam F, d.fams.find? fam = some F → Conserved twoLocal (fileOrigin twoLocal []) {} fam F := by
  have hrefused : refused twoLocal = none := by decide +kernel
  have hnone : ∀ e ∈ listedNetworks twoLocal (lit "dmr"),
      ∀ e' ∈ listedNetworks twoLocal (lit "dmr"),
      requalifiedAs (fileOrigin twoLocal []) {} e ≠ some (e'.strOf "key") := by
    decide +kernel
  refine ⟨_, by rw [datasetFromExport, hrefused], (@import_conserves_iff twoLocal [] {} _
    (by rw [datasetFromExport, hrefused]) (nodup_dmrExport (by decide +kernel))).2 fun fam e he
      e' he' => ?_⟩
  by_cases hfam : lit "dmr" = fam
  · rw [← hfam] at he he'
    exact hnone e he e' he'
  · rw [twoLocal, listedNetworks_dmrExport hfam] at he
    exact absurd he List.not_mem_nil

/-- One of the two is dropped. -/
theorem import_drops_network :
    (∀ fam, ((listedNetworks localAndImported fam).map fun e => e.strOf "key").Nodup) ∧
    ∃ d F, datasetFromExport localAndImported [] {} = .ok d ∧ d.fams.find? (lit "dmr") = some F ∧
      ¬ Conserved localAndImported (fileOrigin localAndImported []) {} (lit "dmr") F := by
  have hrefused : refused localAndImported = none := by decide +kernel
  refine ⟨nodup_dmrExport (by decide +kernel), _, _, by rw [datasetFromExport, hrefused], rfl,
    fun h => ?_⟩
  exact absurd h.count (by decide +kernel)

end DsdServer
