import DsdServer.Merge.ExportShape

/-!
# Merge/ExportRound — an export is read back

A dataset in the shape the model gives it goes to a file and comes back as it was, field by field,
whatever bytes its strings hold (`export_import`): its calls are closed then, as history.

The file is the text of a tree, and the reader takes the tree apart by the names of its members.  So
for each kind of record there is a lemma that says that what was put in comes out, and the protocols
and the dataset are put together from these.  What JSON itself may lose is left to the module on its
round trip.
-/

open Bytes

namespace DsdServer

open mjson assocjson

/-! ## Records

For every kind of record: its numbers fit the reader, each member is found under its name, and
reading gives the record back.  A member that was left out is read as empty, which is what it
was. -/

namespace DsNetwork.Shaped

variable {key : Bytes} {n : DsNetwork}

/-- The reader of JSON takes a network. -/
theorem fits (h : n.Shaped key) {d : ℕ} (hd : d ≤ 60) : mjson.Fits d (networkTree n) := by
  refine fits_obj (by omega) ?_
  simp only [List.forall_mem_append, List.forall_mem_cons, entry]
  refine ⟨⟨fits_str (by omega) _, fits_str (by omega) _, fits_str (by omega) _,
    fits_ids (by omega) _,
    fits_texts (by omega) _, fits_array (by omega) fun f hf => fits_int (by omega) (h.freqs f hf).2,
    fits_nat (by omega) h.sessions, fits_nat (by omega) h.calls, fits_int (by omega) h.first,
    fits_int (by omega) h.last, fun _ he => absurd he List.not_mem_nil⟩, forall_whenever ?_⟩
  exact List.forall_mem_singleton.2 (fits_counts (by omega) h.keys)

/-- The keys of a network are a member only when there are any. -/
theorem get_keys (n : DsNetwork) : (networkTree n).get "keys" =
    if n.keys.isEmpty = false then some (tree natTree n.keys) else none := by
  rw [networkTree, get_append, get_whenever]
  split_ifs <;> rfl

/-- **A network is read back.** -/
theorem read (h : n.Shaped key) : readNetwork (networkTree n) = n := by
  have hkeys := get_keys n
  have hsessions := u_of (v := networkTree n) (k := "sessions") rfl h.sessions
  have hcalls := u_of (v := networkTree n) (k := "calls") rfl h.calls
  have hfirst := i64_of (v := networkTree n) (k := "first") rfl h.first
  have hlast := i64_of (v := networkTree n) (k := "last") rfl h.last
  have hids : strmap ((networkTree n).get "ids") = n.ids := strmap_tree n.ids
  have hsites : strset ((networkTree n).get "sites") = n.sites := strset_texts n.sites
  have hfreqs : freqset ((networkTree n).get "freqs") = n.freqs := freqset_nums h.freqs
  rw [readNetwork, hkeys, countmap_whenever h.keys, hsessions, hcalls, hfirst, hlast, hids,
    hsites, hfreqs]
  rfl

end DsNetwork.Shaped

namespace DsTalkgroup.Shaped

variable {id : Bytes} {t : DsTalkgroup}

/-- The reader of JSON takes a talkgroup. -/
theorem fits (h : t.Shaped id) {d : ℕ} (hd : d ≤ 60) : mjson.Fits d (talkgroupTree t) := by
  refine fits_obj (by omega) ?_
  simp only [List.forall_mem_append, List.forall_mem_cons, entry]
  refine ⟨⟨fits_str (by omega) _, fits_texts (by omega) _, fits_counts (by omega) h.radios,
    fits_nat (by omega) h.calls, fits_nat (by omega) h.emerg, fits_nat (by omega) h.enc,
    fits_int (by omega) h.first, fits_int (by omega) h.last,
    fun _ he => absurd he List.not_mem_nil⟩, forall_whenever ?_⟩
  exact List.forall_mem_singleton.2 (fits_counts (by omega) h.keys)

/-- The keys of a talkgroup are a member only when there are any. -/
theorem get_keys (t : DsTalkgroup) : (talkgroupTree t).get "keys" =
    if t.keys.isEmpty = false then some (tree natTree t.keys) else none := by
  rw [talkgroupTree, get_append, get_whenever]
  split_ifs <;> rfl

/-- **A talkgroup is read back.** -/
theorem read (h : t.Shaped id) : readTalkgroup (talkgroupTree t) = t := by
  have hkeys := get_keys t
  have hcalls := u_of (v := talkgroupTree t) (k := "calls") rfl h.calls
  have hemerg := u_of (v := talkgroupTree t) (k := "emerg") rfl h.emerg
  have henc := u_of (v := talkgroupTree t) (k := "enc") rfl h.enc
  have hfirst := i64_of (v := talkgroupTree t) (k := "first") rfl h.first
  have hlast := i64_of (v := talkgroupTree t) (k := "last") rfl h.last
  have hradios : countmap ((talkgroupTree t).get "radios") = t.radios := countmap_tree h.radios
  have hnetworks : strset ((talkgroupTree t).get "networks") = t.networks := strset_texts t.networks
  rw [readTalkgroup, hkeys, countmap_whenever h.keys, hcalls, hemerg, henc, hfirst, hlast,
    hradios, hnetworks]
  rfl

end DsTalkgroup.Shaped

namespace DsRadio.Shaped

variable {id : Bytes} {r : DsRadio}

theorem fits (h : r.Shaped id) {d : ℕ} (hd : d ≤ 60) : mjson.Fits d (radioTree r) := by
  refine fits_obj (by omega) ?_
  simp only [List.forall_mem_append, List.forall_mem_cons, entry]
  refine ⟨⟨⟨⟨fits_str (by omega) _, fits_texts (by omega) _, fits_counts (by omega) h.tgs,
    fits_counts (by omega) h.peers, fits_texts (by omega) _, fits_nat (by omega) h.calls,
    fits_int (by omega) h.first, fits_int (by omega) h.last,
    fun _ he => absurd he List.not_mem_nil⟩,
    forall_whenever ?_⟩, forall_whenever ?_⟩, forall_whenever ?_⟩
  · exact List.forall_mem_singleton.2 (fits_counts (by omega) h.keys)
  · exact List.forall_mem_cons.2 ⟨fits_str (by omega) _,
      List.forall_mem_singleton.2 (fits_int (by omega) h.posT)⟩
  · refine List.forall_mem_singleton.2 (fits_array (by omega) fun f hf => ?_)
    rw [fixTree, mjson.Fits, fitsAll_iff]
    exact ⟨by omega, List.forall_mem_cons.2 ⟨fits_int (by omega) (h.times f hf),
      List.forall_mem_singleton.2 (fits_str (by omega) _)⟩⟩

/-- The keys of a radio are a member only when there are any. -/
theorem get_keys (r : DsRadio) : (radioTree r).get "keys" =
    if r.keys.isEmpty = false then some (tree natTree r.keys) else none := by
  rw [radioTree, get_append, get_append, get_append, get_whenever, get_whenever, get_whenever]
  split_ifs <;> rfl

/-- A position is a member only when it is known. -/
theorem get_pos (r : DsRadio) :
    (radioTree r).get "pos" = if r.pos ≠ [] then some (.str r.pos) else none := by
  rw [radioTree, get_append, get_append, get_append, get_whenever, get_whenever, get_whenever]
  split_ifs <;> rfl

theorem get_posT (r : DsRadio) : (radioTree r).get "pos_t" =
    if r.pos ≠ [] then some (intTree r.posT) else none := by
  rw [radioTree, get_append, get_append, get_append, get_whenever, get_whenever, get_whenever]
  split_ifs <;> rfl

/-- A track is a member only when it has a fix. -/
theorem get_track (r : DsRadio) : (radioTree r).get "track" =
    if r.track ≠ [] then some (.arr (r.track.map fixTree)) else none := by
  rw [radioTree, get_append, get_append, get_append, get_whenever, get_whenever, get_whenever]
  split_ifs <;> rfl

/-- **A radio is read back.** -/
theorem read (h : r.Shaped id) : readRadio (radioTree r) = r := by
  have hkeys := get_keys r
  have hpos := str_given (get_pos r) not_not.1
  have hposT := i64_given (get_posT r) h.posT fun hc => h.still (not_not.1 hc)
  have hcalls := u_of (v := radioTree r) (k := "calls") rfl h.calls
  have hfirst := i64_of (v := radioTree r) (k := "first") rfl h.first
  have hlast := i64_of (v := radioTree r) (k := "last") rfl h.last
  have haliases : strlist ((radioTree r).get "aliases") = r.aliases := strlist_texts r.aliases
  have htgs : countmap ((radioTree r).get "tgs") = r.tgs := countmap_tree h.tgs
  have hpeers : countmap ((radioTree r).get "peers") = r.peers := countmap_tree h.peers
  have hnetworks : strset ((radioTree r).get "networks") = r.networks := strset_texts r.networks
  have htrack : readTrack ((radioTree r).get "track") = r.track := by
    rw [get_track]
    split_ifs with hc
    · exact readTrack_fixes h.track h.moves h.times
    · exact (not_not.1 hc).symm
  rw [readRadio, hkeys, countmap_whenever h.keys, hpos, hposT, hcalls, hfirst, hlast, haliases,
    htgs, hpeers, hnetworks, htrack]
  rfl

end DsRadio.Shaped

namespace DsCall.Shaped

variable {k : DsCall}

theorem fits (h : k.Shaped) {d : ℕ} (hd : d ≤ 60) : mjson.Fits d (callTree k) := by
  refine fits_obj (by omega) ?_
  simp only [callFields, List.forall_mem_append, List.forall_mem_cons, entry]
  refine ⟨⟨⟨⟨⟨fits_nat (by omega) h.id, fits_nat (by omega) h.session, fits_str (by omega) _,
    fits_str (by omega) _,
    fits_int (by omega) h.freq, fits_str (by omega) _, fits_str (by omega) _, fits_str (by omega) _,
    fits_str (by omega) _, fits_str (by omega) _, fits_bool (by omega) _, fits_bool (by omega) _,
    fits_bool (by omega) _, fits_bool (by omega) _, fits_bool (by omega) _, fits_bool (by omega) _,
    fits_nat (by omega) h.streams.2, fits_int (by omega) h.start, fits_int (by omega) h.last,
    fun _ he => absurd he List.not_mem_nil⟩, forall_whenever ?_⟩, forall_whenever ?_⟩,
      forall_whenever ?_⟩,
    forall_whenever ?_⟩
  · exact List.forall_mem_cons.2 ⟨fits_str (by omega) _,
      List.forall_mem_singleton.2 (fits_nat (by omega) h.audioMs)⟩
  · exact List.forall_mem_singleton.2 (fits_str (by omega) _)
  · exact List.forall_mem_singleton.2 (fits_str (by omega) _)
  · exact List.forall_mem_cons.2 ⟨fits_str (by omega) _,
      List.forall_mem_singleton.2 (fits_str (by omega) _)⟩

/-- A member of a call that is left out when it says nothing. -/
theorem get_call (k : DsCall) (m : String) : (callTree k).get m =
    (((((V.obj (callFields k)).get m).or
      (if k.audio ≠ [] then
        (V.obj [entry "audio" (.str k.audio), entry "audio_ms" (natTree k.audioMs)]).get m
        else none)).or
      (if k.svc ≠ [] then (V.obj [entry "svc" (.str k.svc)]).get m else none)).or
      (if k.pos ≠ [] then (V.obj [entry "pos" (.str k.pos)]).get m else none)).or
      (if k.kid ≠ [] then (V.obj [entry "alg" (.str k.alg), entry "kid" (.str k.kid)]).get m
        else none) := by
  rw [callTree, get_append, get_append, get_append, get_append, get_whenever, get_whenever,
    get_whenever, get_whenever]

/-- **A call is read back**, as history. -/
theorem read (h : k.Shaped) : readCall (callTree k) = { k with isOpen := false } := by
  have haudio : (callTree k).strOf "audio" = k.audio := str_given (c := k.audio ≠ []) (by
    rw [get_call]
    split_ifs <;> rfl) not_not.1
  have haudioMs : (callTree k).u "audio_ms" = k.audioMs := u_given (c := k.audio ≠ []) (by
    rw [get_call]
    split_ifs <;> rfl) h.audioMs fun hc => h.silent (not_not.1 hc)
  have hsvc : (callTree k).strOf "svc" = k.svc := str_given (c := k.svc ≠ []) (by
    rw [get_call]
    split_ifs <;> rfl) not_not.1
  have hpos : (callTree k).strOf "pos" = k.pos := str_given (c := k.pos ≠ []) (by
    rw [get_call]
    split_ifs <;> rfl) not_not.1
  have halg : (callTree k).strOf "alg" = k.alg := str_given (c := k.kid ≠ []) (by
    rw [get_call]
    split_ifs <;> rfl) fun hc => h.clear (not_not.1 hc)
  have hkid : (callTree k).strOf "kid" = k.kid := str_given (c := k.kid ≠ []) (by
    rw [get_call]
    split_ifs <;> rfl) not_not.1
  have hid := u_of (v := callTree k) (k := "id") rfl h.id
  have hsession := u_of (v := callTree k) (k := "session") rfl h.session
  have hstreams := u_of (v := callTree k) (k := "streams") rfl h.streams.2
  have hstart := i64_of (v := callTree k) (k := "start") rfl h.start
  have hlast := i64_of (v := callTree k) (k := "last") rfl h.last
  have hfreq := i64_of (v := callTree k) (k := "freq") rfl h.freq
  have hnone : ∀ m ∈ ["q", "qs", "qr", "qe", "qn"], (callTree k).get m = none := by
    intro m hm
    simp only [List.mem_cons, List.not_mem_nil, or_false] at hm
    rcases hm with rfl | rfl | rfl | rfl | rfl <;> rw [get_call] <;> split_ifs <;> rfl
  have hq : (callTree k).strOf "q" = [] := by rw [V.strOf, hnone "q" (by simp)]
  have hqs : (callTree k).numOf "qs" = .finite 0 := by rw [V.numOf, hnone "qs" (by simp)]
  have hqr : (callTree k).numOf "qr" = .finite 0 := by rw [V.numOf, hnone "qr" (by simp)]
  have hqe : (callTree k).numOf "qe" = .finite 0 := by rw [V.numOf, hnone "qe" (by simp)]
  have hqn : (callTree k).u "qn" = 0 := by
    rw [V.u, V.numOf, hnone "qn" (by simp)]
    rfl
  rw [readCall, haudio, haudioMs, hsvc, hpos, halg, hkid, hid, hsession, hstreams, hstart, hlast,
    hfreq, hq, hqs, hqr, hqe, hqn, Nat.max_eq_right h.streams.1]
  exact congrArg (fun ql => ({ k with isOpen := false, quality := ql } : DsCall)) h.ungraded.symm

end DsCall.Shaped

/-! ## Protocols

Tables are arrays of records, in which the key of an entry is the id of its record.  Reading puts
them under their ids again. -/

/-- **A table is read back**, when its records are and have ids. -/
theorem readTable_tree {D : Type} {read : V → D} {f : D → V} {id : D → Bytes}
    {m : SortedMap Bytes D} (h : ∀ k x, m.find? k = some x → read (f x) = x ∧ id x = k ∧ k ≠ []) :
    readTable read id ∅ (some (.arr (m.entries.map fun e => f e.2))) = m := by
  rw [readTable, Option.getD_some, V.elements, List.foldl_map]
  refine SortedMap.foldl_rebuild fun r k x hx _ => ?_
  obtain ⟨hread, hid, hk⟩ := h k x hx
  dsimp only
  rw [hread, hid, if_neg hk]

namespace DsFamily.Shaped

variable {F : DsFamily}

/-- The reader of JSON takes a family. -/
theorem fits (h : F.Shaped) {d : ℕ} (hd : d ≤ 50) : mjson.Fits d (familyTree F) := by
  have hentry : ∀ {D : Type} {P : Bytes → D → Prop} {m : SortedMap Bytes D}, m.Each P →
      ∀ e ∈ m.entries, P e.1 e.2 :=
    fun hm e he => hm e.1 e.2 (SortedMap.find?_eq_some_iff.2 he)
  refine fits_obj (by omega) ?_
  simp only [List.forall_mem_cons, entry]
  exact ⟨fits_array (by omega) fun e he => (hentry h.networks e he).fits (by omega),
    fits_array (by omega) fun e he => (hentry h.tgs e he).fits (by omega),
    fits_array (by omega) fun e he => (hentry h.radios e he).fits (by omega),
    fits_array (by omega) fun k hk => (h.calls k hk).fits (by omega),
    fun _ he => absurd he List.not_mem_nil⟩

/-- **A protocol is read back**, its calls as history. -/
theorem read (h : F.Shaped) : readFamily {} (familyTree F) = F.closed := by
  have hnetworks : readTable readNetwork DsNetwork.key ∅ ((familyTree F).get "networks") =
      F.networks :=
    readTable_tree fun k n hn => ⟨(h.networks k n hn).read, (h.networks k n hn).key,
      (h.networks k n hn).named⟩
  have htgs : readTable readTalkgroup DsTalkgroup.id ∅ ((familyTree F).get "talkgroups") = F.tgs :=
    readTable_tree fun k t ht => ⟨(h.tgs k t ht).read, (h.tgs k t ht).id, (h.tgs k t ht).named⟩
  have hradios : readTable readRadio DsRadio.id ∅ ((familyTree F).get "radios") = F.radios :=
    readTable_tree fun k r hr => ⟨(h.radios k r hr).read, (h.radios k r hr).id,
      (h.radios k r hr).named⟩
  have hcalls : (((familyTree F).get "calls").getD .null).elements.map readCall =
      F.calls.map fun k => { k with isOpen := false } := by
    change (F.calls.map callTree).map readCall = _
    rw [List.map_map]
    exact List.map_congr_left fun k hk => (h.calls k hk).read
  rw [readFamily, hnetworks, htgs, hradios, hcalls]
  rfl

end DsFamily.Shaped

/-- **The families are read back**, with their calls closed. -/
theorem readFamilies_tree {fams : SortedMap Bytes DsFamily}
    (h : fams.Each fun _ => DsFamily.Shaped) :
    readFamilies (tree familyTree fams).members = fams.mapVal fun _ F => F.closed := by
  rw [readFamilies, foldl_members_tree]
  refine SortedMap.foldl_rebuild_map fun r f F hF hf => ?_
  have hobj : (familyTree F).isObj = true := rfl
  rw [if_pos hobj, SortedMap.getD_of_not_mem hf, (h f F hF).read]

theorem DsSource.Shaped.read {s : DsSource} (h : s.Shaped) : readSource (sourceTree s) = s := by
  have hsince := i64_of (v := sourceTree s) (k := "since") rfl h.since
  have hthrough := i64_of (v := sourceTree s) (k := "through") rfl h.through
  rw [readSource, hsince, hthrough]
  rfl

/-- The reader of JSON takes a source. -/
theorem DsSource.Shaped.fits {s : DsSource} (h : s.Shaped) {d : ℕ} (hd : d ≤ 50) :
    mjson.Fits d (sourceTree s) := by
  refine fits_obj (by omega) ?_
  simp only [List.forall_mem_cons, entry]
  exact ⟨fits_str (by omega) _, fits_str (by omega) _, fits_int (by omega) h.since,
    fits_int (by omega) h.through, fun _ he => absurd he List.not_mem_nil⟩

/-! ## Keys that need no qualification

A file may come from another server, whose channels and sessions mean nothing here.  An export that
was qualified once is not qualified again, so its keys stay. -/

section

variable {cm : ChannelMerge} {o : Origin} {F : DsFamily}

/-- A network that is not local gets no key of its own. -/
theorem Unlocal.qualified {n : DsNetwork} (h : Unlocal cm n) (o : Origin) :
    qualified cm o n = none := by
  rw [DsdServer.qualified]
  rcases h with h | h | ⟨h, hp⟩
  · exact if_pos h
  · have hne : n.confidence ≠ lit "channel" := by rw [h]; decide
    rw [if_neg hne, if_neg (not_not.2 h), ite_self]
  · have hapart : cm.apart o = false := by rw [ChannelMerge.apart, hp, Bool.false_and]
    rw [if_pos h, hapart, if_neg Bool.false_ne_true, ite_self]

/-- Where no network is local no key changes. -/
theorem remapOf_unlocal {nets : SortedMap Bytes DsNetwork} (h : nets.Each fun _ => Unlocal cm) :
    remapOf cm o nets = ∅ := by
  refine List.foldlRecOn (motive := fun m => m = ∅) nets.entries _ rfl fun m hm e he => ?_
  rw [(h e.1 e.2 (SortedMap.find?_eq_some_iff.2 he)).qualified o]
  exact hm

/-- Where no network is local the table stays. -/
theorem renameNetworks_unlocal {nets : SortedMap Bytes DsNetwork}
    (h : nets.Each fun _ => Unlocal cm) (hkey : nets.Each fun k n => n.key = k) :
    renameNetworks cm o nets = nets := by
  refine SortedMap.foldl_rebuild fun r k n hn hk => ?_
  have hsame : requalify cm o n = n := by rw [requalify, (h k n hn).qualified o]
  dsimp only
  rw [hsame, hkey k n hn, if_neg hk]

/-- Where no key changes each is its own. -/
theorem image_empty (k : Bytes) : image ∅ k = k := rfl

/-- Where no key changes sets of them stay. -/
theorem imageSet_empty (s : SortedSet Bytes) : imageSet ∅ s = s := SortedSet.addAll_keys s

/-- **Keys that need no qualification stay.** -/
theorem qualifyFamily_unlocal (h : F.networks.Each fun _ => Unlocal cm)
    (hkey : F.networks.Each fun k n => n.key = k) : qualifyFamily cm o F = F := by
  have hid : ∀ {D : Type} (m : SortedMap Bytes D), (m.mapVal fun _ x => x) = m := fun m =>
    SortedMap.ext_find? fun k => by rw [SortedMap.find?_mapVal, Option.map_id']
  rw [qualifyFamily, remapOf_unlocal h, renameNetworks_unlocal h hkey]
  simp only [imageSet_empty, image_empty]
  rw [hid, hid, List.map_id']

end

/-! ## The rules

The rules of the file are read one by one, under the keys the import gives.  As keys stay, the rules
are those that were written. -/

namespace Dataset.Shaped

variable {d : Dataset} {cm : ChannelMerge}

/-- All the rules are about networks it holds. -/
theorem mergesHeld_eq (h : d.Shaped) : mergesHeld d = d.merges := by
  rw [mergesHeld]
  refine Eq.trans (List.foldl_ext _
    (fun r f => f.2.entries.foldl (fun r kv => r.update f.1 ∅ fun n => n.insert kv.1 kv.2) r)
    _ fun r f hf => ?_)
    (SortedMap.foldl_nested (l := fun n => n.entries) (g := fun _ n kv => n.insert kv.1 kv.2)
      (fun f F hF => SortedMap.entries_ne_nil (h.rules.full f F hF).entry)
      fun f F _ => SortedMap.foldl_rebuild fun r k v _ _ => rfl)
  have hfind := SortedMap.find?_eq_some_iff.2 hf
  have hrules : ∀ kv ∈ f.2.entries, ∃ F, d.fams.find? f.1 = some F ∧ kv.1 ∈ F.networks ∧
      kv.2 ∈ F.networks :=
    fun kv hkv => h.held f.1 kv.1 kv.2 (by
      rw [rulesOf, SortedMap.getD_of_find? hfind]
      exact SortedMap.find?_eq_some_iff.2 hkv)
  obtain ⟨kv, hkv⟩ :=
    List.exists_mem_of_ne_nil _ (SortedMap.entries_ne_nil (h.rules.full f.1 f.2 hfind).entry)
  obtain ⟨F, hF, -⟩ := hrules kv hkv
  rw [hF]
  refine List.foldl_ext _ _ _ fun r kv hkv => ?_
  obtain ⟨F', hF', hk, -⟩ := hrules kv hkv
  obtain rfl := Option.some.inj (hF.symm.trans hF')
  exact if_pos (Or.inl hk)

/-- A rule between held networks is read as it is. -/
theorem readRules_eq {o : Origin} {nets : SortedMap Bytes DsNetwork} {fam : Bytes}
    {R : SortedMap Bytes Bytes} (hR : R.Full fun k v => fam ≠ [] ∧ k ≠ [] ∧ v ≠ [])
    (hk : ∀ k v, R.find? k = some v → k ∈ nets ∧ v ∈ nets) (m : NetMerges) :
    readRules cm o ∅ nets fam m (tree V.str R).members =
      (tree V.str R).members.foldl (readMerge fam) m := by
  rw [readRules, foldl_members_tree, foldl_members_tree]
  refine List.foldl_ext _ _ _ fun r e he => ?_
  have hfind := SortedMap.find?_eq_some_iff.2 he
  obtain ⟨hkn, hvn⟩ := hk e.1 e.2 hfind
  obtain ⟨-, hke, hve⟩ := hR.each e.1 e.2 hfind
  have hkey : ∀ x ∈ nets, ruleKey cm o ∅ nets x = x := fun x hx => by
    rw [ruleKey, SortedMap.find?_empty]
    exact if_pos (Or.inl hx)
  dsimp only
  rw [hkey e.1 hkn, hkey e.2 hvn, if_neg (by simp [hke, hve, hkn]), readMerge]

/-! ## The file

What is left is to put the pieces together: the members of the file, its sources, its families and
its rules. -/

variable (now : ℤ) (instanceId name label : Bytes)

/-- **The reader of JSON takes the whole export.** -/
theorem fits (h : d.Shaped) (hnow : Exact now) :
    mjson.Fits 0 (exportTree d now instanceId name) := by
  rw [exportTree, h.mergesHeld_eq]
  refine fits_obj (by omega) ?_
  simp only [exportFields, List.forall_mem_append, List.forall_mem_cons, entry]
  refine ⟨⟨⟨fits_str (by omega) _, fits_nat (by omega) (by norm_num), fits_str (by omega) _,
    fits_str (by omega) _,
    fits_str (by omega) _, fits_int (by omega) hnow, fits_int (by omega) hnow,
    fits_array (by omega) fun s hs => (h.sources s hs).fits (by omega),
    fun _ he => absurd he List.not_mem_nil⟩,
    forall_whenever ?_⟩, fits_tree (by omega) h.fams fun _ F hF => hF.fits (by omega),
    fun _ he => absurd he List.not_mem_nil⟩
  exact List.forall_mem_singleton.2 (fits_tree (by omega) h.rules.full fun _ R hR =>
    fits_tree (by omega) hR.each fun _ s _ => fits_str (by omega) s)

theorem get_export (h : d.Shaped) (m : String) : (exportTree d now instanceId name).get m =
    (((V.obj (exportFields d now instanceId name)).get m).or
      (if d.merges.isEmpty = false then (V.obj [entry "merges" (tree (tree V.str) d.merges)]).get m
        else none)).or
      ((V.obj [entry "families" (tree familyTree d.fams)]).get m) := by
  rw [exportTree, h.mergesHeld_eq, get_append, get_append, get_whenever]

/-- **The text is parsed** as the value it was written from. -/
theorem parse_export (h : d.Shaped) (hnow : Exact now) :
    parse (exportJson d now instanceId name) = .ok (exportTree d now instanceId name) := by
  have hheld : HeldRules (mergesHeld d) := h.mergesHeld_eq ▸ h.rules
  rw [← exportJson_eq hheld (fun f F hF k hk => ((h.fams f F hF).calls k hk).ungraded),
    ← List.append_nil (render _)]
  exact parse_render (h.fits now instanceId name hnow) (Or.inl rfl)

theorem get_families (h : d.Shaped) :
    (exportTree d now instanceId name).get "families" = some (tree familyTree d.fams) := by
  rw [h.get_export]
  split_ifs <;> rfl

/-- The file is one the reader accepts. -/
theorem not_refused (h : d.Shaped) : refused (exportTree d now instanceId name) = none := by
  have hop : (exportTree d now instanceId name).get "op" = none := by
    rw [h.get_export]
    split_ifs <;> rfl
  have hformat : (exportTree d now instanceId name).strOf "format" = lit "dsd-net-export" := rfl
  have hobj : (exportTree d now instanceId name).isObj = true := rfl
  rw [refused, hop, h.get_families, hformat, hobj]
  rfl

/-- Where the file says it comes from. -/
theorem fileOrigin_eq (h : d.Shaped) :
    fileOrigin (exportTree d now instanceId name) label = ⟨instanceId, name, d.sources⟩ := by
  have hsources : ((((exportTree d now instanceId name).get "sources").getD .null).elements.map
      readSource).filter
      (fun s => s.instanceId ≠ []) = d.sources := by
    have hread : (d.sources.map sourceTree).map readSource = d.sources := by
      rw [List.map_map]
      exact (List.map_congr_left (g := fun s => s) fun s hs => (h.sources s hs).read).trans
        (List.map_id' _)
    change ((d.sources.map sourceTree).map readSource).filter _ = _
    rw [hread]
    exact List.filter_eq_self.2 fun s hs => decide_eq_true (h.sources s hs).named
  rw [fileOrigin, readOrigin]
  dsimp only
  rw [hsources, if_pos h.sourced]
  rfl

theorem fileFamilies_eq (h : d.Shaped) :
    fileFamilies (exportTree d now instanceId name) = d.fams.mapVal fun _ F => F.closed := by
  rw [fileFamilies, h.get_families]
  exact readFamilies_tree h.fams

/-- The rules of the export, when there are any. -/
theorem get_merges (h : d.Shaped) : (exportTree d now instanceId name).get "merges" =
    if d.merges.isEmpty = false then some (tree (tree V.str) d.merges) else none := by
  rw [h.get_export]
  split_ifs <;> rfl

/-- **An export is read back**: a dataset in the model's shape, whose network keys need no
qualification, comes back from its text as it was — protocols, sources and rules — with its calls
closed. -/
theorem export_import (h : d.Shaped)
    (hlocal : ∀ f F, d.fams.find? f = some F → F.networks.Each fun _ => Unlocal cm)
    (hnow : Exact now) :
    ∃ root x, parse (exportJson d now instanceId name) = .ok root ∧
      datasetFromExport root label cm = .ok x ∧
      x.fams = (d.fams.mapVal fun _ F => F.closed) ∧ x.sources = d.sources ∧
        x.merges = d.merges := by
  obtain ⟨root, hroot⟩ : ∃ root, exportTree d now instanceId name = root := ⟨_, rfl⟩
  have hparse := h.parse_export now instanceId name hnow
  have hrefused := h.not_refused now instanceId name
  have horigin := h.fileOrigin_eq now instanceId name label
  have hraw := h.fileFamilies_eq now instanceId name
  have hmerges := h.get_merges now instanceId name
  rw [hroot] at hparse hrefused horigin hraw hmerges
  refine ⟨root, ?_⟩
  rcases hx : datasetFromExport root label cm with e | x
  · rw [datasetFromExport, hrefused] at hx
    cases hx
  refine ⟨x, hparse, rfl, ?_⟩
  rw [datasetFromExport, hrefused] at hx
  dsimp only at hx
  rw [horigin, hraw] at hx
  -- no key is qualified
  have hkey : ∀ f F, (d.fams.mapVal fun _ F => F.closed).find? f = some F →
      F.networks.Each (fun _ => Unlocal cm) ∧ F.networks.Each fun k n => n.key = k :=
        fun f F hF => by
    obtain ⟨F', hF', rfl⟩ := Option.map_eq_some_iff.1 ((SortedMap.find?_mapVal ..).symm.trans hF)
    exact ⟨hlocal f F' hF', fun k n hn => ((h.fams f F' hF').networks k n hn).key⟩
  have hsame : (if instanceId = [] then d.fams.mapVal fun _ F => F.closed
      else (d.fams.mapVal fun _ F => F.closed).mapVal fun _ F => qualifyFamily cm ⟨instanceId, name,
        d.sources⟩ F) =
      d.fams.mapVal fun _ F => F.closed := by
    split_ifs
    · rfl
    · refine SortedMap.ext_find? fun f => ?_
      rw [SortedMap.find?_mapVal]
      rcases hF : (d.fams.mapVal fun _ F => F.closed).find? f with _ | F
      · rfl
      · rw [Option.map_some, qualifyFamily_unlocal (hkey f F hF).1 (hkey f F hF).2]
  have hremap : ∀ f, (if instanceId = [] then ∅
      else (((d.fams.mapVal fun _ F => F.closed).find? f).map fun F =>
        remapOf cm ⟨instanceId, name, d.sources⟩ F.networks).getD ∅) = ∅ := fun f => by
    split_ifs
    · rfl
    · rcases hF : (d.fams.mapVal fun _ F => F.closed).find? f with _ | F
      · rfl
      · rw [Option.map_some, Option.getD_some, remapOf_unlocal (hkey f F hF).1]
  simp only [hsame, hremap, hmerges] at hx
  obtain rfl := Except.ok.inj hx
  refine ⟨rfl, rfl, ?_⟩
  change ((if d.merges.isEmpty = false then some (tree (tree V.str) d.merges) else none).getD
    V.null).members.foldl
    _ ∅ = d.merges
  split_ifs with he
  · rw [Option.getD_some, foldl_members_tree]
    refine Eq.trans ?_ h.rules.read_tree
    rw [readMerges, foldl_members_tree]
    refine List.foldl_ext _ _ _ fun r e he => ?_
    have hfind := SortedMap.find?_eq_some_iff.2 he
    have hR := h.rules.full e.1 e.2 hfind
    have hheld : ∀ k v, e.2.find? k = some v →
        ∃ F, d.fams.find? e.1 = some F ∧ k ∈ F.networks ∧ v ∈ F.networks :=
          fun k v hv => h.held e.1 k v (by
      rw [rulesOf, SortedMap.getD_of_find? hfind]
      exact hv)
    obtain ⟨k, v, hv, -⟩ := hR.exists_entry
    obtain ⟨F, hF, -⟩ := hheld k v hv
    have hclosed : (d.fams.mapVal fun _ F => F.closed).find? e.1 = some F.closed := by
      rw [SortedMap.find?_mapVal, hF]
      rfl
    dsimp only
    rw [hclosed]
    refine readRules_eq hR (fun k v hv => ?_) r
    obtain ⟨F', hF', hk, hv⟩ := hheld k v hv
    obtain rfl := Option.some.inj (hF.symm.trans hF')
    exact ⟨hk, hv⟩
  · rw [Bool.not_eq_false] at he
    exact (SortedMap.isEmpty_eq_true_iff.1 he).symm

end Dataset.Shaped

/-! ## A dataset of each kind of record

The dataset below has every kind of record in it and bytes that are no text in its strings, so the
hypotheses of the theorem can be met. -/

/-- A key with a quote, a line's end and a byte that is no text. -/
def oddKey : Bytes := [34, 10, 255]

/-- A network with a key of odd bytes. -/
def oddNetwork (key : Bytes) : DsNetwork :=
  { key := key, label := oddKey, confidence := lit "strong",
    ids := (∅ : SortedMap Bytes Bytes).insert oddKey oddKey
    sites := SortedSet.add ∅ oddKey, freqs := SortedSet.add ∅ 436625000, sessions := 1, calls :=
      1, first := 1
    last := 2, keys := (∅ : SortedMap Bytes ℕ).insert oddKey 1 }

/-- A radio with a track, and an alias of odd bytes. -/
def oddRadio : DsRadio :=
  { id := oddKey, aliases := [oddKey, []], tgs := (∅ : SortedMap Bytes ℕ).insert oddKey 1
    networks := SortedSet.add ∅ oddKey, calls := 1, first := 1, last := 2, pos := oddKey, posT := -5
    track := [(1, lit "1,2"), (2, oddKey)] }

/-- A family with a record of each kind. -/
def oddFamily : DsFamily :=
  { networks := ((∅ : SortedMap Bytes DsNetwork).insert oddKey (oddNetwork oddKey)).insert (lit "b")
      (oddNetwork (lit "b"))
    tgs := (∅ : SortedMap Bytes DsTalkgroup).insert oddKey { id := oddKey, calls := 1, emerg := 1 }
    radios := (∅ : SortedMap Bytes DsRadio).insert oddKey oddRadio
    calls := [{ id := 1, net := oddKey, src := oddKey, tgt := oddKey, isOpen := true, start := 1
                last := 2, audio := oddKey, audioMs := 7, kid := lit "1", alg := lit "rc4" }] }

/-- A dataset with a rule between its networks. -/
def oddDataset : Dataset :=
  { sources := [{ instanceId := oddKey, name := oddKey, since := 1, through := 9 }]
    fams := (∅ : SortedMap Bytes DsFamily).insert (lit "dmr") oddFamily
    merges := mergesAdd' ∅ (lit "dmr") (lit "b") oddKey }

theorem oddNetwork_shaped {key : Bytes} (hk : key ≠ []) : (oddNetwork key).Shaped key where
  key := rfl
  named := hk
  freqs f hf := by
    rcases SortedSet.mem_add.1 hf with rfl | hf
    · decide
    · exact absurd hf (SortedMap.not_mem_empty f)
  sessions := (by decide : 1 < 2 ^ 53)
  calls := (by decide : 1 < 2 ^ 53)
  first := (by decide : Exact 1)
  last := (by decide : Exact 2)
  keys := SortedMap.each_empty.insert (by decide)

/-- The dataset has the shape the model gives. -/
theorem oddDataset_shaped : oddDataset.Shaped where
  fams := SortedMap.each_empty.insert
    { networks := (SortedMap.each_empty.insert (oddNetwork_shaped (by decide))).insert
        (oddNetwork_shaped (by decide))
      tgs := SortedMap.each_empty.insert
        ⟨rfl, by decide, SortedMap.each_empty, by decide, by decide, by decide, by decide,
          by decide, SortedMap.each_empty⟩
      radios := SortedMap.each_empty.insert
        ⟨rfl, by decide, SortedMap.each_empty.insert (by decide), SortedMap.each_empty,
          SortedMap.each_empty, by decide, by decide, by decide, by decide, by decide, by decide,
          by decide, by decide⟩
      calls := List.forall_mem_singleton.2
        ⟨by decide, by decide, by decide, by decide, by decide, by decide, by decide, by decide,
          by decide, rfl⟩ }
  sourced := by decide
  sources := List.forall_mem_singleton.2 ⟨by decide, by decide, by decide⟩
  rules := HeldRules.empty.add' (lit "dmr") (lit "b") oddKey
  held fam k v h := by
    have hmention : ∀ x, Mentions oddDataset.merges fam x →
        fam = lit "dmr" ∧ (x = lit "b" ∨ x = oddKey) := fun x hx => by
      rcases hx.of_add' with (h | ⟨y, h⟩) | h
      · exact absurd h (SortedMap.not_mem_empty x)
      · cases h
      · exact h
    obtain ⟨rfl, hk⟩ := hmention k (Or.inl (SortedMap.mem_of_find? h))
    obtain ⟨-, hv⟩ := hmention v (Or.inr ⟨k, h⟩)
    have hb : lit "b" ∈ oddFamily.networks := by decide
    have hodd : oddKey ∈ oddFamily.networks := by decide
    refine ⟨oddFamily, by decide, ?_, ?_⟩
    · rcases hk with rfl | rfl
      · exact hb
      · exact hodd
    · rcases hv with rfl | rfl
      · exact hb
      · exact hodd

theorem export_import_oddDataset :
    ∃ root x, parse (exportJson oddDataset 9 oddKey oddKey) = .ok root ∧
    datasetFromExport root oddKey {} = .ok x ∧
      x.fams = (oddDataset.fams.mapVal fun _ F => F.closed) ∧
      x.sources = oddDataset.sources ∧ x.merges = oddDataset.merges := by
  refine oddDataset_shaped.export_import 9 oddKey oddKey oddKey
    (fun f F hF k n hn => ?_) (by decide)
  have hodd : ∀ key, Unlocal {} (oddNetwork key) := fun _ => Or.inr (Or.inl rfl)
  have hblank : (∅ : SortedMap Bytes DsNetwork).Each fun _ => Unlocal {} := SortedMap.each_empty
  have hnets : oddFamily.networks.Each fun _ => Unlocal {} :=
    (hblank.insert (hodd oddKey)).insert (hodd (lit "b"))
  have hfam : oddDataset.fams.Each fun _ F => F.networks.Each fun _ => Unlocal {} :=
    SortedMap.each_empty.insert hnets
  exact hfam f F hF k n hn

end DsdServer
