import DsdServer.Assoc.Consistency
import DsdServer.Data.Weight

/-!
# Assoc/Bounds — how much a model keeps

The tables of a family, and what its entities list, have limits.  Entries come from many places, and
each keeps to them: `entities_bounded` says that no run of a model exceeds one.

Some limits are those of a table, and some those of a list within an entry.  They are different
tests in the source, at different places, and the lemmas follow the places: first what is done to
one entry, and then what is done to the table of all.
-/

open Bytes

namespace DsdServer

/-! ## Entries on demand

A table that is full loses its oldest entry before a new one comes in, and a table of counts that is
full takes no key that is new.  So each stays within its limit, whatever is put in. -/

section

variable {V : Type*} {n : ℕ} {m : SortedMap Bytes V}

/-- Evicting takes one entry out of a map that has any. -/
theorem size_evictOldest (lastMs : V → ℤ) (h : m.size ≠ 0) :
    (evictOldest lastMs m).size + 1 = m.size := by
  rw [evictOldest]
  split
  · next he => exact absurd (show m.size = 0 by rw [SortedMap.size, he, List.length_nil]) h
  · next e l he =>
    refine (SortedMap.size_of_mem ?_).symm
    -- the oldest is one of the entries
    have hmem : ∀ (l : List (Bytes × V)) (v : Bytes × V),
        l.foldl (fun v e => if lastMs e.2 < lastMs v.2 then e else v) v ∈ v :: l := fun l => by
      induction l with
      | nil => exact fun v => List.mem_cons_self
      | cons e l ih =>
        intro v
        rw [List.foldl_cons]
        split_ifs
        · exact List.mem_cons_of_mem v (ih e)
        · rcases List.mem_cons.1 (ih v) with h | h
          · rw [h]
            exact List.mem_cons_self
          · exact List.mem_cons_of_mem v (List.mem_cons_of_mem e h)
    have hm := hmem l e
    rw [← he] at hm
    exact SortedMap.mem_of_find? (SortedMap.find?_eq_some_iff.2 hm)

/-- **A full table makes room first.** -/
theorem size_ensure_le (h : m.size ≤ n) (hn : 0 < n) (lastMs : V → ℤ) (i : Bytes) (fresh : V) :
    (ensure (some n) lastMs m i fresh).size ≤ n := by
  rw [ensure]
  split_ifs with hc hr
  · exact h
  · have hfull : n ≤ m.size := of_decide_eq_true hr
    have hev := size_evictOldest lastMs (m := m) (by omega)
    exact (SortedMap.size_insert_le ..).trans (by omega)
  · have hroom : ¬ n ≤ m.size := fun hle => hr (decide_eq_true hle)
    exact (SortedMap.size_insert_le ..).trans (by omega)

end

section

variable {L : Limits} {n : ℕ} {m : SortedMap Bytes ℕ}

/-- An edge is new only while there is room. -/
theorem size_bump_le (hL : L.edges = some n) (h : m.size ≤ n) (k : Bytes) (d : ℤ) :
    (bump L m k d).size ≤ n := by
  rw [bump]
  split
  · split_ifs with hd
    · have hroom : ¬ n ≤ m.size := fun hle => hd.2 (by rw [hL]; exact decide_eq_true hle)
      exact (SortedMap.size_insert_le ..).trans (by omega)
    · exact h
  · next v hv =>
    split_ifs
    · exact (SortedMap.size_erase_le m k).trans h
    · rw [SortedMap.size_insert_of_mem (SortedMap.mem_of_find? hv)]
      exact h

/-- A count that goes down brings nothing new. -/
theorem size_bump_neg_le (L : Limits) (m : SortedMap Bytes ℕ) (k : Bytes) :
    (bump L m k (-1)).size ≤ m.size := by
  rw [bump]
  split
  · rw [if_neg (by omega)]
  · next v hv =>
    split_ifs
    · exact SortedMap.size_erase_le m k
    · rw [SortedMap.size_insert_of_mem (SortedMap.mem_of_find? hv)]

/-- A key is new only while there is room. -/
theorem size_keyAdd_le (hL : L.keys = some n) (h : m.size ≤ n) (k : Bytes) (c : ℕ) :
    (keyAdd L m k c).size ≤ n := by
  rw [keyAdd]
  split
  · next v hv =>
    rw [SortedMap.size_insert_of_mem (SortedMap.mem_of_find? hv)]
    exact h
  · split_ifs with hr
    · exact h
    · have hroom : ¬ n ≤ m.size := fun hle => hr (by rw [hL]; exact decide_eq_true hle)
      exact (SortedMap.size_insert_le ..).trans (by omega)

/-- Adding a list of counts keeps to the limit. -/
theorem size_foldl_keyAdd_le (hL : L.keys = some n) (l : List (Bytes × ℕ)) :
    ∀ {m : SortedMap Bytes ℕ},
    m.size ≤ n → (l.foldl (fun m kv => keyAdd L m kv.1 kv.2) m).size ≤ n := by
  induction l with
  | nil => exact id
  | cons kv l ih => exact fun h => ih (size_keyAdd_le hL h kv.1 kv.2)

end

/-- A track keeps to its limit, the oldest position going first. -/
theorem length_trackAdd_le {tr : List (ℤ × Bytes)} (h : tr.length ≤ kMaxTrack) (t : ℤ)
    (pos : Bytes) :
    (trackAdd tr t pos).length ≤ kMaxTrack := by
  rw [trackAdd]
  split
  · next e he =>
    have hne : tr ≠ [] := fun hnil => by
      rw [hnil] at he
      cases he
    split_ifs
    · rw [List.length_append, List.length_dropLast, List.length_singleton]
      have := List.length_pos_of_ne_nil hne
      omega
    · rw [List.length_drop, List.length_append, List.length_singleton]
      omega
  · exact (by decide : 1 ≤ kMaxTrack)

/-! ## Entities within the limits

The limits of a family are those of its tables, and for every entry the limits of what that entry
lists. -/

/-- The lists of a network are within their limits. -/
structure Network.Bounded (n : Network) : Prop where
  freqs : SortedMap.size n.freqs ≤ kMaxFreqs
  keys : n.keys.size ≤ kMaxKeys

/-- The tables of a talkgroup are within their limits. -/
structure Talkgroup.Bounded (t : Talkgroup) : Prop where
  radios : t.radios.size ≤ kMaxEdgesPerNode
  keys : t.keys.size ≤ kMaxKeys

/-- The tables of a radio are within their limits. -/
structure Radio.Bounded (r : Radio) : Prop where
  tgs : r.tgs.size ≤ kMaxEdgesPerNode
  peers : r.peers.size ≤ kMaxEdgesPerNode
  keys : r.keys.size ≤ kMaxKeys
  aliases : r.aliases.length ≤ kMaxAliases
  track : r.track.length ≤ kMaxTrack

/-- **A family within the limits**: its tables, and what its entities list. -/
structure Family.Bounded (F : Family) : Prop where
  networks : F.networks.size ≤ kMaxNetworks
  tgs : F.tgs.size ≤ kMaxTalkgroups
  radios : F.radios.size ≤ kMaxRadios
  network : F.networks.All Network.Bounded
  tg : F.tgs.All Talkgroup.Bounded
  radio : F.radios.All Radio.Bounded

namespace Family

variable {F : Family} {m id : ℕ} {k : Call} {now : ℤ}

/-- An empty family is within all limits. -/
theorem bounded_blank : Bounded {} where
  networks := Nat.zero_le _
  tgs := Nat.zero_le _
  radios := Nat.zero_le _
  network := SortedMap.all_empty
  tg := SortedMap.all_empty
  radio := SortedMap.all_empty

namespace Bounded

/-- Only the calls are other ones. -/
theorem onCalls (h : F.Bounded) (l : List Call) : Bounded { F with calls := l } :=
  ⟨h.networks, h.tgs, h.radios, h.network, h.tg, h.radio⟩

theorem modifyCall (h : F.Bounded) (id : ℕ) (g : Call → Call) : (F.modifyCall id g).Bounded :=
  h.onCalls _

/-- A network may be changed within its limits. -/
theorem onNetwork (h : F.Bounded) (i : Bytes) {g : Network → Network}
    (hg : ∀ n : Network, n.Bounded → (g n).Bounded) :
    (F.onNetwork i g).Bounded :=
  ⟨(SortedMap.size_mapVal ..).trans_le h.networks, h.tgs, h.radios, h.network.modify i hg,
    h.tg, h.radio⟩

/-- A talkgroup may be changed within its limits. -/
theorem onTg (h : F.Bounded) (i : Bytes) {g : Talkgroup → Talkgroup}
    (hg : ∀ t : Talkgroup, t.Bounded → (g t).Bounded) :
    (F.onTg i g).Bounded :=
  ⟨h.networks, (SortedMap.size_mapVal ..).trans_le h.tgs, h.radios, h.network,
    h.tg.modify i hg, h.radio⟩

/-- A radio may be changed within its limits. -/
theorem onRadio (h : F.Bounded) (i : Bytes) {g : Radio → Radio}
    (hg : ∀ r : Radio, r.Bounded → (g r).Bounded) :
    (F.onRadio i g).Bounded :=
  ⟨h.networks, h.tgs, (SortedMap.size_mapVal ..).trans_le h.radios, h.network, h.tg,
    h.radio.modify i hg⟩

/-- A network comes in, and the oldest goes if the table is full. -/
theorem ensureNetwork (h : F.Bounded) (i : Bytes) : (F.ensureNetwork (.standard m) i now).Bounded :=
  ⟨size_ensure_le h.networks (by decide) .., h.tgs, h.radios,
    all_ensure h.network i ⟨Nat.zero_le _, Nat.zero_le _⟩, h.tg, h.radio⟩

/-- A talkgroup comes in, and the oldest goes if the table is full. -/
theorem ensureTg (h : F.Bounded) (i : Bytes) : (F.ensureTg (.standard m) i now).Bounded :=
  ⟨h.networks, size_ensure_le h.tgs (by decide) .., h.radios, h.network,
    all_ensure h.tg i ⟨Nat.zero_le _, Nat.zero_le _⟩, h.radio⟩

/-- A radio comes in, and the oldest goes if the table is full. -/
theorem ensureRadio (h : F.Bounded) (i : Bytes) : (F.ensureRadio (.standard m) i now).Bounded :=
  ⟨h.networks, h.tgs, size_ensure_le h.radios (by decide) .., h.network, h.tg,
    all_ensure h.radio i ⟨Nat.zero_le _, Nat.zero_le _, Nat.zero_le _, Nat.zero_le _,
      Nat.zero_le _⟩⟩

/-! ### What is known of calls

These are all the places that put something into an entity on behalf of a call.  Edits are made of
them, so a stretch of call handling needs no further argument. -/

/-- A radio is heard, with an alias it may have. -/
theorem touchRadio (h : F.Bounded) (i net aka : Bytes) :
    (F.touchRadio (.standard m) i net aka now).Bounded := by
  refine (h.ensureRadio i).onRadio i fun r hr => ⟨hr.tgs, hr.peers, hr.keys, ?_, hr.track⟩
  rw [Radio.touch]
  dsimp only
  split_ifs with hroom
  · rw [List.length_append, List.length_singleton]
    exact hroom.2.2
  · exact hr.aliases

theorem fix (h : F.Bounded) (i pos : Bytes) : (F.onRadio i fun r => r.fix pos now).Bounded :=
  h.onRadio i fun _ hr => ⟨hr.tgs, hr.peers, hr.keys, hr.aliases,
    length_trackAdd_le hr.track now pos⟩

theorem noteKey (h : F.Bounded) (k : Call) : (F.noteKey (.standard m) k).Bounded := by
  have h₁ := h.onNetwork k.net (g := fun n => n.noteKey (.standard m) (encKey k.alg k.kid))
    fun _ hn => ⟨hn.freqs, size_keyAdd_le rfl hn.keys _ 1⟩
  have h₂ := h₁.onTg k.tgt (g := fun t => t.noteKey (.standard m) (encKey k.alg k.kid))
    fun _ ht => ⟨ht.radios, size_keyAdd_le rfl ht.keys _ 1⟩
  have hr : ∀ r : Radio, r.Bounded → (r.noteKey (.standard m) (encKey k.alg k.kid)).Bounded :=
    fun _ hr => ⟨hr.tgs, hr.peers, size_keyAdd_le rfl hr.keys _ 1, hr.aliases, hr.track⟩
  rw [Family.noteKey]
  split_ifs
  · exact h₁.onRadio k.src hr
  · exact h₂.onRadio k.src hr

/-- The key of a call is counted, for the network and both ends. -/
theorem noteEncCounts (h : F.Bounded) (id : ℕ) : (F.noteEncCounts (.standard m) id).Bounded := by
  rw [Family.noteEncCounts]
  split
  · exact h
  · split_ifs
    · exact (h.modifyCall id _).noteKey _
    · exact h

theorem countSource (h : F.Bounded) (k : Call) : (F.countSource (.standard m) k now).Bounded := by
  rw [Family.countSource]
  split_ifs
  · exact h
  · exact (h.ensureRadio k.src).onRadio k.src fun _ hr =>
      ⟨hr.tgs, hr.peers, hr.keys, hr.aliases, hr.track⟩

/-- The radios of a private call count each other. -/
theorem linkPeers (h : F.Bounded) (k : Call) : (F.linkPeers (.standard m) k now).Bounded := by
  have h₁ := h.onRadio k.src (g := fun r => r.bumpPeer (.standard m) k.tgt)
    fun _ hr => ⟨hr.tgs, size_bump_le rfl hr.peers _ 1, hr.keys, hr.aliases, hr.track⟩
  exact (h₁.ensureRadio k.tgt).onRadio k.tgt
    fun _ hr => ⟨hr.tgs, size_bump_le rfl hr.peers _ 1, hr.keys, hr.aliases, hr.track⟩

theorem bumpTg (h : F.Bounded) (i tg : Bytes) (d : ℤ) :
    (F.onRadio i fun r => r.bumpTg (.standard m) tg d).Bounded :=
  h.onRadio i fun _ hr => ⟨size_bump_le rfl hr.tgs tg d, hr.peers, hr.keys, hr.aliases, hr.track⟩

theorem countTarget (h : F.Bounded) (k : Call) : (F.countTarget (.standard m) k now).Bounded := by
  have ht : ∀ t : Talkgroup, t.Bounded → (t.countCall (.standard m) k now).Bounded := fun t ht => by
    refine ⟨?_, ht.keys⟩
    rw [Talkgroup.countCall]
    dsimp only
    split_ifs
    · exact ht.radios
    · exact size_bump_le rfl ht.radios k.src 1
  rw [Family.countTarget]
  split_ifs
  · exact (h.ensureTg k.tgt).onTg k.tgt ht
  · exact ((h.bumpTg k.src k.tgt 1).ensureTg k.tgt).onTg k.tgt ht

theorem countEnds (h : F.Bounded) (k : Call) : (F.countEnds (.standard m) k now).Bounded := by
  rw [Family.countEnds]
  split_ifs
  · exact h.countSource k
  · exact (h.countSource k).linkPeers k
  · exact (h.countSource k).countTarget k

/-- **Counting a call keeps the limits.** -/
theorem countCall (h : F.Bounded) (id : ℕ) : (F.countCall (.standard m) id now).Bounded := by
  rw [Family.countCall]
  split
  · exact h
  · next k _ =>
    have h₁ : ((F.modifyCall id Call.markCounted).countEnds (.standard m) k now).Bounded :=
      (h.modifyCall id Call.markCounted).countEnds k
    exact (h₁.onNetwork k.net (g := Network.countCall) fun _ hn =>
      ⟨hn.freqs, hn.keys⟩).noteEncCounts id

theorem uncountTarget (h : F.Bounded) (k : Call) : (F.uncountTarget (.standard m) k).Bounded := by
  have h₁ := (h.bumpTg (m := m) k.src k.tgt (-1)).onTg k.tgt
    (g := fun t => t.uncountCall (.standard m) k) fun t ht => by
    refine ⟨(size_bump_neg_le ..).trans ht.radios, ?_⟩
    rw [Talkgroup.uncountCall]
    dsimp only
    split_ifs
    · exact (size_bump_neg_le ..).trans ht.keys
    · exact ht.keys
  rw [Family.uncountTarget]
  split
  · split_ifs
    · exact ⟨h₁.networks, (SortedMap.size_erase_le ..).trans h₁.tgs, h₁.radios, h₁.network,
        h₁.tg.erase k.tgt, h₁.radio⟩
    · exact h₁
  · exact h₁

theorem setPrivate (h : F.Bounded) (id : ℕ) : (F.setPrivate (.standard m) id now).Bounded := by
  rw [Family.setPrivate]
  split
  · exact h
  · next k _ =>
    dsimp only
    split_ifs
    · exact h
    · exact ((h.modifyCall id _).uncountTarget k).linkPeers k
    · exact h.modifyCall id _

theorem closeCall {w : FamilyState} (h : w.fam.Bounded) (id : ℕ) :
    (w.closeCall (.standard m) id).fam.Bounded := by
  by_cases ho : ∃ k, w.fam.findCall id = some k ∧ k.isOpen
  · obtain ⟨k, hk, ho⟩ := ho
    obtain ⟨g, -, hfam⟩ := w.fam_closeCall (.standard m) id hk ho
    have h₁ : ((w.fam.modifyCall id g).countUnsourced (.standard m) id).Bounded := by
      rw [Family.countUnsourced]
      split
      · exact h.modifyCall id g
      · split_ifs
        · exact (h.modifyCall id g).countCall id
        · exact h.modifyCall id g
    rw [hfam, Family.tallyClosed]
    split
    · exact h₁
    · split_ifs
      · exact h₁
      · exact h₁.onTg _ fun _ ht => ⟨ht.radios, ht.keys⟩
  · rw [w.closeCall_of_closed (.standard m) id fun k hk => Bool.eq_false_iff.2 fun h' =>
      ho ⟨k, hk, h'⟩]
    exact h

end Bounded

end Family

/-- **Every edit keeps to the limits.** -/
theorem Edit.bounded {m : ℕ} {net : Bytes} {x y : FamilyState × ℕ} (e : Edit (.standard m) net x y)
    (h : x.1.fam.Bounded) : y.1.fam.Bounded := by
  cases e with
  | amend hk hg hs => exact h.modifyCall _ _
  | touch hi aka now => exact h.touchRadio _ _ aka
  | fix i pos now => exact h.fix i pos
  | key id => exact h.noteEncCounts id
  | priv hk ho now => exact h.setPrivate _
  | count hk ho hc hs ht now => exact h.countCall _
  | close id => exact h.closeCall id
  | drop id hd => exact h.onCalls _
  | @join w n dup twin hd ht hne ho hc he =>
    change (w.adopt (.standard m) dup twin).fam.Bounded
    rw [fam_adopt]
    exact ((h.modifyCall twin.id _).onCalls _).noteEncCounts twin.id
  | push hid hn hc hkn ho hs hkp => exact h.onCalls _
  | quality q => exact h

/-- **Handling calls keeps the limits**, edit by edit. -/
theorem Family.Bounded.edits {m : ℕ} {net : Bytes} {x y : FamilyState × ℕ}
    (he : Relation.ReflTransGen (Edit (.standard m) net) x y) (h : x.1.fam.Bounded) :
    y.1.fam.Bounded := by
  induction he with
  | refl => exact h
  | tail _ e ih => exact e.bounded ih

/-! ## Networks

Networks take in what streams have heard: channels, sites and neighbours.  Merging two of them joins
their lists, where the limits have to be kept again. -/

/-- Folding another network in keeps to the limits of the one that stays. -/
theorem Network.Bounded.absorb {m : ℕ} {z : Network} (h : z.Bounded) (a : Network) :
    (z.absorb (.standard m) a).Bounded :=
  ⟨SortedSet.size_foldl_add_le _ h.freqs, size_foldl_keyAdd_le rfl _ h.keys⟩

/-- A network takes in what a stream has heard of it. -/
theorem Network.Bounded.hear {n : Network} (h : n.Bounded) (c : Ctx) (sid : ℕ) (now : ℤ) :
    (n.hear c sid now).Bounded := by
  refine ⟨?_, h.keys⟩
  rw [Network.hear]
  dsimp only
  split_ifs with hroom
  · exact (SortedMap.size_insert_le ..).trans hroom.2
  · exact h.freqs

namespace Family

variable {F : Family} {m : ℕ} {now : ℤ}

namespace Bounded

/-- The network of a stream is found or made. -/
theorem place (h : F.Bounded) (id : NetId) (c : Ctx) : (F.place (.standard m) id c now).Bounded :=
  (h.ensureNetwork id.key).onNetwork id.key fun _ hn => ⟨hn.freqs, hn.keys⟩

/-- A stream is heard on a network that is there. -/
theorem hear (h : F.Bounded) {c : Ctx} (hc : c.net ∈ F.networks) (sid : ℕ) : Bounded { F with
    networks := F.networks.insert c.net ((F.networks.getD c.net {}).hear c sid now) } where
  networks := (SortedMap.size_insert_of_mem hc _).trans_le h.networks
  tgs := h.tgs
  radios := h.radios
  network := h.network.insert _ ((h.network.getD _ ⟨Nat.zero_le _, Nat.zero_le _⟩).hear c sid now)
  tg := h.tg
  radio := h.radio

theorem mergeNetwork (h : F.Bounded) (frm dst : Bytes) :
    (F.mergeNetwork (.standard m) frm dst).Bounded := by
  rw [Family.mergeNetwork]
  split
  · next a z _ hz =>
    have hinsert :=
      (SortedMap.size_insert_of_mem (SortedMap.mem_of_find? hz)
        (z.absorb (.standard m) a)).trans_le h.networks
    exact ⟨(SortedMap.size_erase_le ..).trans hinsert, (SortedMap.size_mapVal ..).trans_le h.tgs,
      (SortedMap.size_mapVal ..).trans_le h.radios,
      (h.network.insert dst ((h.network _ _ hz).absorb a)).erase frm,
      h.tg.mapVal fun _ _ ht => ⟨ht.radios, ht.keys⟩,
      h.radio.mapVal fun _ _ hr => ⟨hr.tgs, hr.peers, hr.keys, hr.aliases, hr.track⟩⟩
  · exact h

theorem dropNetwork (h : F.Bounded) (n : Bytes) : (F.dropNetwork n).Bounded where
  networks := (SortedMap.size_erase_le ..).trans h.networks
  tgs := (SortedMap.size_filter_le ..).trans ((SortedMap.size_mapVal ..).trans_le h.tgs)
  radios := (SortedMap.size_filter_le ..).trans ((SortedMap.size_mapVal ..).trans_le h.radios)
  network := h.network.erase n
  tg := (h.tg.mapVal fun _ _ ht => ⟨ht.radios, ht.keys⟩).filter _
  radio := (h.radio.mapVal fun _ _ hr => ⟨hr.tgs, hr.peers, hr.keys, hr.aliases, hr.track⟩).filter _

/-- Storing audio is not about entities. -/
theorem settled (h : F.Bounded) {F' : Family} (hs : F.Settled F') : F'.Bounded := by
  induction hs with
  | refl => exact h
  | tail _ e ih =>
    obtain ⟨g, id, -, rfl⟩ := e
    exact ih.modifyCall id g

end Bounded

/-- The network that stays is still in the table. -/
theorem mem_networks_mergeNetwork {L : Limits} {frm dst : Bytes} (h : dst ∈ F.networks)
    (hne : frm ≠ dst) :
    dst ∈ (F.mergeNetwork L frm dst).networks := by
  rw [Family.mergeNetwork]
  split
  · exact SortedMap.mem_erase.2 ⟨hne.symm, SortedMap.mem_insert.2 (Or.inl rfl)⟩
  · exact h

end Family

/-! ## Runs

From one step to a run is an induction on the inputs; the invariant of the model is carried along,
as an event is only within the limits where the network of its stream is in the table. -/

namespace AssocModel

variable {s s' : AssocModel} {m sid : ℕ} {now : ℤ}

/-- **Every family is within the limits.** -/
def Bounded (s : AssocModel) : Prop := ∀ f, (s.family f).Bounded

namespace Bounded

/-- The limits are about the families. -/
theorem congr (h : s.Bounded) (hf : s'.fams = s.fams) : s'.Bounded := fun f => by
  rw [family, hf]
  exact h f

/-- One family changes. -/
theorem insert (h : s.Bounded) {f : Bytes} {F : Family} (hs : s'.fams = s.fams.insert f F)
    (hF : F.Bounded) :
    s'.Bounded := fun g => by
  rw [family, hs, family_insert]
  split_ifs
  · exact hF
  · exact h g

theorem blank (hf : s.fams = ∅) : s.Bounded := fun _ => by
  rw [family, hf]
  exact Family.bounded_blank

theorem dropNetworks (h : s.Bounded) (f : Bytes) (dead : List Bytes) :
    (s.dropNetworks f dead).Bounded := by
  have hF : ∀ (dead : List Bytes) (F : Family), F.Bounded →
      (dead.foldl Family.dropNetwork F).Bounded := fun dead => by
    induction dead with
    | nil => exact fun _ => id
    | cons n dead ih => exact fun F hF => ih _ (hF.dropNetwork n)
  intro g
  change Family.Bounded
    ((if (dead.foldl Family.dropNetwork (s.family f)).isBlank then s.fams.erase f
    else s.fams.insert f (dead.foldl Family.dropNetwork (s.family f))).getD g {})
  split_ifs
  · rw [SortedMap.getD, SortedMap.find?_erase]
    split_ifs
    · exact Family.bounded_blank
    · exact h g
  · rw [family_insert]
    split_ifs
    · exact hF dead _ (h f)
    · exact h g

theorem closeSessionCalls (h : s.Bounded) (sid : ℕ) :
    (s.closeSessionCalls (.standard m) sid).Bounded := by
  rw [AssocModel.closeSessionCalls]
  split
  · exact h
  · next c _ =>
    split_ifs
    · exact h.insert rfl
        ((h c.family).edits
          (edits_closeSessionCalls (.standard m) (s.desk c.family) s.nextCall sid))
    · exact h

/-- The networks of a stream are pruned. -/
theorem pruneSession (h : s.Bounded) (sid : ℕ) (retune : Bool) :
    (s.pruneSession sid retune).Bounded := by
  rw [AssocModel.pruneSession]
  split
  · exact h
  · next c _ =>
    dsimp only
    split_ifs
    · exact h
    · have h₁ : (s.setCtx sid (c.leave (s.deadNetworks sid c.family retune))).Bounded := h.congr rfl
      have h₂ := h₁.dropNetworks c.family (s.deadNetworks sid c.family retune)
      exact h₂.congr rfl
    · exact h

/-- A stream ends its calls, and leaves what it does not need. -/
theorem wrapUp (h : s.Bounded) (sid : ℕ) (line : Bytes) (retune : Bool) :
    (((s.record line).closeSessionCalls (.standard m) sid).pruneSession sid retune).Bounded := by
  have h₁ : (s.record line).Bounded := h.congr rfl
  exact (h₁.closeSessionCalls sid).pruneSession sid retune

theorem endStream (h : s.Bounded) (sid : ℕ) (now : ℤ) :
    (s.endStream (.standard m) sid now).Bounded := by
  have h₁ : (s.record (assoclog.endLine now sid)).Bounded := h.congr rfl
  have h₂ := h₁.closeSessionCalls (m := m) sid
  set s₂ := (s.record (assoclog.endLine now sid)).closeSessionCalls (.standard m) sid
  have h₃ : Bounded { s₂ with sess := s₂.sess.modify sid Ctx.stop } := h₂.congr rfl
  exact (h₃.pruneSession sid false).congr rfl

theorem noteNeighbour (h : s.Bounded) (sid : ℕ) (site : Bytes) :
    (s.noteNeighbour sid site).Bounded := by
  rw [AssocModel.noteNeighbour]
  split_ifs
  · exact h
  · exact h.insert rfl ((h _).onNetwork _ fun _ hn => ⟨hn.freqs, hn.keys⟩)

/-- **Resolving a stream's network** keeps to the limits, and leaves the network in the table. -/
theorem resolveNetwork (h : s.Bounded) (sid : ℕ) (now : ℤ) :
    (s.resolveNetwork (.standard m) sid now).Bounded ∧
      ((s.resolveNetwork (.standard m) sid now).ctx sid).net ∈
        ((s.resolveNetwork (.standard m) sid now).family (s.ctx sid).family).networks := by
  set c := s.ctx sid
  set id := networkId c sid (s.family c.family)
  set F := (s.family c.family).place (.standard m) id c now
  have hF : F.Bounded := (h c.family).place id c
  have hmem : id.key ∈ F.networks := SortedMap.mem_modify.2 (Family.mem_ensure ..)
  have hset : (s.setFamily c.family F).Bounded := h.insert rfl hF
  have hplaced : (s.setFamily c.family F).family c.family = F := by
    rw [family, setFamily, family_insert, if_pos rfl]
  set s₁ := if F.foldsAway c sid id.key then (s.setFamily c.family F).mergeNetwork
    (.standard m) c.family c.net id.key
    else s.setFamily c.family F
  have h₁ : s₁.Bounded ∧ id.key ∈ (s₁.family c.family).networks := by
    by_cases hm : F.foldsAway c sid id.key = true
    · obtain ⟨pn, hpn, hp⟩ := (Option.any_eq_true _ _).1 hm
      simp only [Bool.and_eq_true, decide_eq_true_eq] at hp
      have hs₁ : s₁ = (s.setFamily c.family F).mergeNetwork (.standard m) c.family c.net id.key :=
        if_pos hm
      rw [hs₁, AssocModel.mergeNetwork, hplaced]
      dsimp only
      rw [if_pos ⟨SortedMap.mem_of_find? hpn, hmem⟩]
      refine ⟨hset.insert rfl (hF.mergeNetwork _ _), ?_⟩
      change id.key ∈ (((s.setFamily c.family F).fams.insert c.family _).getD c.family {}).networks
      rw [family_insert, if_pos rfl]
      exact Family.mem_networks_mergeNetwork hmem hp.1.2
    · have hs₁ : s₁ = s.setFamily c.family F := if_neg hm
      rw [hs₁, hplaced]
      exact ⟨hset, hmem⟩
  have he : s.resolveNetwork (.standard m) sid now = s₁.setCtx sid (c.settle id.key) := rfl
  rw [he, ctx_setCtx]
  exact ⟨h₁.1.congr rfl, h₁.2⟩

/-- **A stream is heard on a network of the table**: it is looked up before, and resolved when it is
not there. -/
theorem identify (h : s.Bounded) (sid : ℕ) (r : Reading) (now : ℤ) :
    (s.identify (.standard m) sid r now).Bounded := by
  set f := (s.ctx sid).family
  set s₁ := (s.setFamily f (s.family f)).bumpVersion
  have h₁ : s₁.Bounded := h.insert (f := f) rfl (h f)
  set a := absorbIdentity (s₁.ctx sid) r
  set s₂ := (s₁.setCtx sid a.ctx).noteNeighbour sid a.neighbour
  have h₂ : s₂.Bounded := noteNeighbour (s := s₁.setCtx sid a.ctx) (h₁.congr rfl) sid a.neighbour
  have hctx : s₂.ctx sid = a.ctx := by rw [ctx_noteNeighbour, ctx_setCtx]
  have hf₂ : (s₂.ctx sid).family = f := by
    rw [hctx]
    exact absorbIdentity_family _ r
  obtain ⟨s₃, hs₃⟩ : ∃ s₃, s₃ = if a.changed ∨ a.ctx.net = [] ∨ a.ctx.net ∉ (s₂.family f).networks
    then s₂.resolveNetwork (.standard m) sid now else s₂ := ⟨_, rfl⟩
  have h₃ : s₃.Bounded ∧ (s₃.ctx sid).net ∈ (s₃.family f).networks := by
    rw [hs₃]
    split_ifs with hresolve
    · have h := h₂.resolveNetwork (m := m) sid now
      rw [hf₂] at h
      exact h
    · rw [not_or, not_or, not_not] at hresolve
      rw [hctx]
      exact ⟨h₂, hresolve.2.2⟩
  have he : s.identify (.standard m) sid r now = s₃.setFamily f { s₃.family f with
      networks := (s₃.family f).networks.insert (s₃.ctx sid).net
        (((s₃.family f).networks.getD (s₃.ctx sid).net {}).hear (s₃.ctx sid) sid now) } := by
    rw [hs₃]
    rfl
  rw [he]
  exact h₃.1.insert rfl ((h₃.1 f).hear h₃.2 sid)

/-- **An event keeps the limits.** -/
theorem ingest (h : s.Bounded) (hi : s.Inv (.standard m)) (sid : ℕ) (ev : DsdEvent) (now : ℤ) :
    (s.ingest (.standard m) sid ev now).Bounded := by
  have h₁ : (s.record (assoclog.eventLine now sid ev)).Bounded := h.congr rfl
  have hi₁ : (s.record (assoclog.eventLine now sid ev)).Inv (.standard m) := hi.congr rfl rfl
  rw [AssocModel.ingest]
  dsimp only
  split
  · exact h₁
  · next c _ =>
    set s₂ := (s.record (assoclog.eventLine now sid ev)).setCtx sid (c.gate (.ofEvent ev) now).1
    have h₂ : s₂.Bounded := h₁.congr rfl
    have hi₂ : s₂.Inv (.standard m) := hi₁.congr rfl rfl
    split_ifs
    · have h₃ := h₂.identify (m := m) sid (.ofEvent ev) now
      have hi₃ := (hi₂.identify sid (.ofEvent ev) now).1
      set s₃ := s₂.identify (.standard m) sid (.ofEvent ev) now
      have hspot : Spot (s₃.stream sid).spot := (hi₃.fam _).spot
      have hworks := ((s₃.stream sid).works_expire (.standard m) now).trans
        (StreamState.works_handle (.standard m) s₃.qualityOn _ sid (.ofEvent ev) now)
      exact h₃.insert rfl (Family.Bounded.edits (hworks.edits hspot) (h₃ _))
    · exact h₂

theorem settled (h : s.Bounded) (hs : Settled s s') : s'.Bounded :=
  fun f => (h f).settled (hs.fam f)

/-- **Every input keeps to the limits.** -/
theorem step (h : s.Bounded) (hi : s.Inv s.limits) (op : Op) : (s.step op).Bounded := by
  cases op with
  | begin sid label now family freq => exact (h.wrapUp sid _ false).congr rfl
  | retune sid freq now =>
    rw [AssocModel.step, stepWith, retuneStream]
    split
    · exact h
    · split_ifs
      · exact h
      · exact (h.wrapUp sid _ true).congr rfl
  | event sid ev now => exact h.ingest hi sid ev now
  | audio sid slot pcm keyed creatable now =>
    exact h.settled (s.settled_audio sid slot pcm keyed creatable now)
  | finish sid now => exact h.endStream sid now
  | remove sid now => exact (h.wrapUp sid _ false).congr rfl
  | clear now => exact blank rfl
  | startAudio listing cap maxAge now =>
    exact h.settled (s.settled_startAudio listing cap maxAge now)
  | stopAudio => exact h.congr rfl

/-- Every run keeps the limits, input by input. -/
theorem run (ops : List Op) :
    ∀ {s : AssocModel}, s.Bounded → s.Inv s.limits → (s.run ops).Bounded := by
  induction ops with
  | nil => exact fun h _ => h
  | cons op ops ih => exact fun h hi => ih (h.step hi op) ((hi.step op).standard _)

end Bounded

/-- **No run of a model exceeds a limit**, from one that knows nothing and in any family. -/
theorem entities_bounded (hf : s.fams = ∅) (ops : List Op) (f : Bytes) :
    ((s.run ops).family f).Bounded :=
  (Bounded.blank hf).run ops (.blank hf _) f

/-- The family of the sample run has a radio, and one radio only. -/
theorem entities_bounded_sampleRun :
    ((run {} sampleRun).family (lit "dmr")).Bounded ∧
      ((run {} sampleRun).family (lit "dmr")).radios.size = 1 :=
  ⟨entities_bounded rfl sampleRun (lit "dmr"), by decide +kernel⟩

end AssocModel

end DsdServer
