import DsdServer.Assoc.Streams

/-!
# Assoc/Unseen — a stream a family has never heard of

A stream is `Unseen` in a family when it feeds none of its networks and none of its calls is its
own.  Whatever the events of the other streams do to the family, it stays unseen.

The lemmas follow the operations of a family one for one.  Radios and talkgroups do not name
streams, so all that happens to them is covered by one lemma (`congr`); what remains are the
networks with their streams, and the calls.
-/

open Bytes

namespace DsdServer

/-- **A family has never heard of a stream**; and all its networks have names. -/
structure Family.Unseen (sid : ℕ) (F : Family) : Prop where
  networks : ∀ n N, F.networks.find? n = some N → n ≠ [] ∧ sid ∉ N.sessions
  calls : ∀ k ∈ F.calls, k.session ≠ sid

namespace Family.Unseen

variable {L : Limits} {F : Family} {sid : ℕ}

/-- An empty family has heard of no stream. -/
theorem blank (sid : ℕ) : Family.Unseen sid {} :=
  ⟨fun _ _ h => (nomatch h), fun _ h => absurd h List.not_mem_nil⟩

/-- No network of the family is without a name. -/
theorem nil_notMem (h : F.Unseen sid) : [] ∉ F.networks := fun hm => by
  obtain ⟨N, hN⟩ := SortedMap.mem_iff_find?.1 hm
  exact (h.networks [] N hN).1 rfl

/-- Records and networks from before. -/
theorem mono (h : F.Unseen sid) {F' : Family}
    (hn : ∀ n N, F'.networks.find? n = some N → F.networks.find? n = some N)
    (hc : F'.calls ⊆ F.calls) : F'.Unseen sid :=
  ⟨fun n N hN => h.networks n N (hn n N hN), fun k hk => h.calls k (hc hk)⟩

/-- Radios and talkgroups do not matter. -/
theorem congr (h : F.Unseen sid) {F' : Family} (hn : F'.networks = F.networks)
    (hc : F'.calls = F.calls) : F'.Unseen sid :=
  h.mono (fun _ _ hN => hn ▸ hN) (hc ▸ List.Subset.refl _)

/-- A named network that another stream feeds. -/
theorem insert (h : F.Unseen sid) {n : Bytes} {N : Network} (hn : n ≠ []) (hN : sid ∉ N.sessions) :
    Family.Unseen sid { F with networks := F.networks.insert n N } := by
  refine ⟨fun m M hM => ?_, h.calls⟩
  rw [SortedMap.find?_insert] at hM
  split_ifs at hM with hm
  · obtain rfl := Option.some.inj hM
    exact ⟨hm ▸ hn, hN⟩
  · exact h.networks m M hM

theorem erase (h : F.Unseen sid) (n : Bytes) :
    Family.Unseen sid { F with networks := F.networks.erase n } := by
  refine h.mono (fun m M hM => ?_) (List.Subset.refl _)
  change (F.networks.erase n).find? m = some M at hM
  rw [SortedMap.find?_erase] at hM
  split_ifs at hM
  exact hM

/-- A network is changed without the stream coming in. -/
theorem onNetwork (h : F.Unseen sid) (key : Bytes) {g : Network → Network}
    (hg : ∀ n, sid ∉ n.sessions → sid ∉ (g n).sessions) : (F.onNetwork key g).Unseen sid := by
  refine ⟨fun m M hM => ?_, h.calls⟩
  change (F.networks.modify key g).find? m = some M at hM
  rw [SortedMap.find?_modify] at hM
  split_ifs at hM with hm
  · obtain ⟨N, hN, rfl⟩ := Option.map_eq_some_iff.1 hM
    obtain ⟨hk, hs⟩ := h.networks m N hN
    exact ⟨hk, hg N hs⟩
  · exact h.networks m M hM

theorem onRadio (h : F.Unseen sid) (i : Bytes) (g : Radio → Radio) : (F.onRadio i g).Unseen sid :=
  h.congr rfl rfl

theorem onTg (h : F.Unseen sid) (i : Bytes) (g : Talkgroup → Talkgroup) : (F.onTg i g).Unseen sid :=
  h.congr rfl rfl

theorem ensureRadio (h : F.Unseen sid) (i : Bytes) (now : ℤ) : (F.ensureRadio L i now).Unseen sid :=
  h.congr rfl rfl

theorem ensureTg (h : F.Unseen sid) (i : Bytes) (now : ℤ) : (F.ensureTg L i now).Unseen sid :=
  h.congr rfl rfl

/-- A network on demand; the oldest may go for it. -/
theorem ensureNetwork (h : F.Unseen sid) {key : Bytes} (hk : key ≠ []) (now : ℤ) :
    (F.ensureNetwork L key now).Unseen sid := by
  rw [Family.ensureNetwork, ensure]
  split_ifs
  · exact h
  · refine Unseen.insert
      (F := { F with networks := evictOldest Network.lastMs F.networks }) ?_ hk ?_
    · rw [evictOldest]
      split
      · exact h
      · exact h.erase _
    · exact SortedMap.not_mem_empty sid
  · exact h.insert hk (SortedMap.not_mem_empty sid)

/-- A record changes, and stays its session's. -/
theorem modifyCall (h : F.Unseen sid) (i : ℕ) {g : Call → Call}
    (hg : ∀ k, (g k).session = k.session) :
    (F.modifyCall i g).Unseen sid := by
  refine ⟨h.networks, fun k hk => ?_⟩
  obtain ⟨k', hk', rfl⟩ := List.mem_map.1 hk
  split_ifs
  · exact (hg k').symm ▸ h.calls k' hk'
  · exact h.calls k' hk'

theorem forget (h : F.Unseen sid) (i : ℕ) : (F.forget i).Unseen sid :=
  h.mono (fun _ _ hN => hN) (List.eraseP_sublist.subset)

/-- A call of another stream is opened. -/
theorem push (h : F.Unseen sid) {k : Call} (hk : k.session ≠ sid) :
    Family.Unseen sid { F with calls := F.calls ++ [k] } := by
  refine ⟨h.networks, fun k' hk' => ?_⟩
  rcases List.mem_append.1 hk' with hk' | hk'
  · exact h.calls k' hk'
  · exact List.mem_singleton.1 hk' ▸ hk

theorem touchRadio (h : F.Unseen sid) (i net aka : Bytes) (now : ℤ) :
    (F.touchRadio L i net aka now).Unseen sid := (h.ensureRadio i now).onRadio i _

theorem noteService (h : F.Unseen sid) (i : ℕ) (x : SortedMap Bytes Bytes) (now : ℤ) :
    (F.noteService i x now).Unseen sid := by
  have h₁ : (F.noteSvc i x).Unseen sid := by
    rw [Family.noteSvc]
    split
    · refine h.modifyCall i fun k => ?_
      rw [Call.serve]
      split_ifs <;> rfl
    · exact h
  rw [Family.noteService, Family.notePos]
  split
  · exact h₁
  · dsimp only
    split_ifs
    · exact h₁
    · exact (h₁.modifyCall i (g := fun k => k.place (x.getD (lit "gps") [])) fun _ =>
        rfl).onRadio _ _

theorem noteKey (h : F.Unseen sid) (k : Call) : (F.noteKey L k).Unseen sid := by
  have h₁ := h.onNetwork k.net (g := fun n => n.noteKey L (encKey k.alg k.kid)) fun _ hn => hn
  rw [Family.noteKey]
  split_ifs
  · exact h₁.onRadio _ _
  · exact (h₁.onTg _ _).onRadio _ _

theorem noteEncCounts (h : F.Unseen sid) (i : ℕ) : (F.noteEncCounts L i).Unseen sid := by
  rw [Family.noteEncCounts]
  split
  · exact h
  · split_ifs
    · exact (h.modifyCall i (g := Call.markNoted) fun _ => rfl).noteKey _
    · exact h

theorem noteEncrypted (h : F.Unseen sid) (i : ℕ) (x : SortedMap Bytes Bytes) :
    (F.noteEncrypted L i x).Unseen sid := by
  refine (h.modifyCall i fun k => ?_).noteEncCounts i
  rw [Call.encrypt]
  dsimp only
  split
  · rfl
  · split_ifs
    · rfl
    · split <;> rfl

theorem linkPeers (h : F.Unseen sid) (k : Call) (now : ℤ) : (F.linkPeers L k now).Unseen sid :=
  ((h.onRadio _ _).ensureRadio _ now).onRadio _ _

theorem countEnds (h : F.Unseen sid) (k : Call) (now : ℤ) : (F.countEnds L k now).Unseen sid := by
  have h₁ : (F.countSource L k now).Unseen sid := by
    rw [Family.countSource]
    split_ifs
    · exact h
    · exact (h.ensureRadio _ now).onRadio _ _
  rw [Family.countEnds]
  split_ifs
  · exact h₁
  · exact h₁.linkPeers k now
  · rw [Family.countTarget]
    split_ifs
    · exact (h₁.ensureTg _ now).onTg _ _
    · exact ((h₁.onRadio _ _).ensureTg _ now).onTg _ _

theorem countCall (h : F.Unseen sid) (i : ℕ) (now : ℤ) : (F.countCall L i now).Unseen sid := by
  rw [Family.countCall]
  split
  · exact h
  · next k _ =>
    have h₁ := (h.modifyCall i (g := Call.markCounted) fun _ => rfl).countEnds (L := L) k now
    exact (h₁.onNetwork k.net (g := Network.countCall) fun _ hn => hn).noteEncCounts i

theorem setPrivate (h : F.Unseen sid) (i : ℕ) (now : ℤ) : (F.setPrivate L i now).Unseen sid := by
  rw [Family.setPrivate]
  split
  · exact h
  · next k _ =>
    split_ifs
    · exact h
    · refine Unseen.linkPeers ?_ k now
      rw [Family.uncountTarget]
      have h₁ := ((h.modifyCall i (g := Call.markPrivate) fun _ => rfl).onRadio k.src
        fun r => r.bumpTg L k.tgt (-1)).onTg k.tgt fun t => t.uncountCall L k
      split
      · split_ifs
        · exact h₁.congr rfl rfl
        · exact h₁
      · exact h₁
    · exact h.modifyCall i (g := Call.markPrivate) fun _ => rfl

theorem countUnsourced (h : F.Unseen sid) (i : ℕ) : (F.countUnsourced L i).Unseen sid := by
  rw [Family.countUnsourced]
  split
  · exact h
  · split_ifs
    · exact h.countCall i _
    · exact h

theorem tallyClosed (h : F.Unseen sid) (i : ℕ) : (F.tallyClosed i).Unseen sid := by
  rw [Family.tallyClosed]
  split
  · exact h
  · split_ifs
    · exact h
    · exact h.onTg _ _

/-! ## Networks

Merging two networks joins their streams, so a stream that feeds neither feeds what comes of them.
The key under which a network is placed is made of its identity, and is never empty. -/

/-- Two networks are merged, and with them the streams that feed them. -/
theorem mergeNetwork (h : F.Unseen sid) (frm dst : Bytes) :
    (F.mergeNetwork L frm dst).Unseen sid := by
  rw [Family.mergeNetwork]
  split
  · next a z ha hz =>
    have hs : sid ∉ (z.absorb L a).sessions := fun hm => by
      rcases SortedSet.mem_addAll.1 hm with hm | hm
      · exact (h.networks frm a ha).2 hm
      · exact (h.networks dst z hz).2 hm
    have h₁ := (h.insert (h.networks dst z hz).1 hs).erase frm
    refine ⟨h₁.networks, fun k hk => ?_⟩
    obtain ⟨k', hk', rfl⟩ := List.mem_map.1 hk
    split_ifs <;> exact h.calls k' hk'
  · exact h

/-- A network is dropped, and named by no record any more. -/
theorem dropNetwork (h : F.Unseen sid) (key : Bytes) : (F.dropNetwork key).Unseen sid :=
  (h.erase key).congr rfl rfl

theorem dropAll (h : F.Unseen sid) (dead : List Bytes) :
    (dead.foldl Family.dropNetwork F).Unseen sid := by
  induction dead generalizing F with
  | nil => exact h
  | cons n dead ih => exact ih (h.dropNetwork n)

/-- A stream finds its network or makes it, feeding it only later. -/
theorem place (h : F.Unseen sid) {id : NetId} (hk : id.key ≠ []) (c : Ctx) (now : ℤ) :
    (F.place L id c now).Unseen sid := (h.ensureNetwork hk now).onNetwork _ fun _ hn => hn

end Family.Unseen

/-- **A stream's network has a name.** -/
theorem networkId_ne_nil (c : Ctx) (sid : ℕ) {F : Family} (h : [] ∉ F.networks) :
    (networkId c sid F).key ≠ [] := by
  have hmem : ∀ n ∈ (if c.family = lit "p25" then
      strongWith F (derive c.family c.ids).weakKey (derive c.family c.ids).weakVal else []),
      n ∈ F.networks := fun n hn => by
    split_ifs at hn
    · obtain ⟨e, he, rfl⟩ := List.mem_map.1 hn
      exact List.mem_map_of_mem (List.mem_of_mem_filter he)
    · exact absurd hn List.not_mem_nil
  rw [networkId]
  dsimp only
  generalize (if c.family = lit "p25" then
    strongWith F (derive c.family c.ids).weakKey (derive c.family c.ids).weakVal else []) =
      M at hmem ⊢
  split_ifs with h₁ h₂ h₃ h₄
  · exact List.append_ne_nil_of_left_ne_nil (by decide) _
  · exact List.append_ne_nil_of_left_ne_nil (by decide) _
  · split
    · exact fun hnil => h (hnil ▸ hmem _ (List.mem_singleton_self _))
    · exact List.append_ne_nil_of_left_ne_nil (List.append_ne_nil_of_left_ne_nil h₁ _) _
  · split
    · exact fun hnil => h (hnil ▸ hmem _ (List.mem_singleton_self _))
    · exact List.append_ne_nil_of_left_ne_nil (List.append_ne_nil_of_left_ne_nil h₁ _) _
  · exact h₁

end DsdServer
