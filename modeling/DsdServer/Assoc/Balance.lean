import DsdServer.Assoc.References

/-!
# Assoc/Balance — the counters of a family are what its calls post

With no limit in force, each operation on a call moves the counters by exactly the difference of
what the call's record posts before and after (`Family.Balanced`).

Posting is stated for all counters at once, by the account a posting goes to: a network, a
talkgroup, a radio, or a key of one of these.  The difference that an operation makes to a record is
then a difference of postings, and where a record is dropped the whole of it is taken back.
-/

open Bytes Ledger

namespace DsdServer

namespace Call

variable (k : Call)

/-- What noting a call's key posts. -/
def notedPostings : List Counter := if k.unnoted then k.keyPostings else []

variable {k}

/-- A call whose key is noted posts for the key as well. -/
theorem count_noted_postings (c : Counter) :
    k.noted.postings.count c = k.postings.count c + k.notedPostings.count c := by
  rw [noted, notedPostings]
  split_ifs with h
  · have h' : (k.counted = true ∧ k.kid ≠ []) ∧ k.keyNoted = false := by
      simpa [unnoted] using h
    have hm : k.markNoted.postings =
        (k.basePostings ++ k.keyPostings) ++ if k.priv || k.isOpen then [] else k.endPostings :=
      if_pos h'.1.1
    rw [hm, postings, if_pos h'.1.1, h'.2]
    simp only [List.count_append, Bool.false_eq_true, if_false, List.count_nil]
    omega
  · rfl

/-- What marking a call as counted posts, its key aside. -/
theorem postings_markCounted (hn : k.keyNoted = false) :
    k.markCounted.postings =
      k.basePostings ++ if k.priv || k.isOpen then [] else k.endPostings := by
  change k.basePostings ++ (if k.keyNoted then _ else []) ++ _ = _
  rw [hn]
  exact congrArg (· ++ _) (List.append_nil _)

/-- A call that was not counted posts nothing. -/
theorem postings_of_uncounted (h : k.counted = false) : k.postings = [] := by
  rw [postings, h]
  rfl

/-- What a call posts before it ends is among what it posts. -/
theorem mem_postings_of_base (hc : k.counted) {c : Counter} (h : c ∈ k.basePostings) :
    c ∈ k.postings := by
  rw [postings, if_pos hc]
  exact List.mem_append_left _ (List.mem_append_left _ h)

/-- What the tally of an ended call posts. -/
def tallyPostings (k : Call) : List Counter := if !k.counted || k.priv then [] else k.endPostings

/-- The record of an ended call. -/
def ended (k : Call) (q : Summary) (s : Recording) (keep : Bool) : Call :=
  { k with isOpen := false, qual := q, sound := s, keep := keep }

/-- What an open call posts once it has ended. -/
theorem count_ended_postings (ho : k.isOpen) (q : Summary) (s : Recording) (keep : Bool)
    (c : Counter) :
    (k.ended q s keep).postings.count c = k.postings.count c + k.tallyPostings.count c := by
  have hk : (k.ended q s keep).postings = if k.counted then
      k.basePostings ++ (if k.keyNoted then k.keyPostings else []) ++
        (if k.priv || false then [] else k.endPostings) else [] := rfl
  rw [hk, postings, tallyPostings, ho]
  rcases k.counted with _ | _ <;> rcases k.priv with _ | _ <;> simp [Nat.add_assoc]

/-! Which accounts a call posts to. -/

theorem counted_of_mem_postings {c : Counter} (h : c ∈ k.postings) : k.counted := by
  by_contra hc
  rw [postings_of_uncounted (Bool.eq_false_iff.2 hc)] at h
  exact absurd h List.not_mem_nil

/-- The accounts that a call may post to. -/
def PostsTo (k : Call) : Counter → Prop
  | .tg t _ => k.priv = false ∧ t = k.tgt
  | .net n _ => n = k.net
  | .radio r c => k.src ≠ [] ∧ (r = k.src ∨ ∃ p, c = .peer p)

theorem postsTo_of_mem_base {c : Counter} (h : c ∈ k.basePostings) : k.PostsTo c := by
  rw [basePostings, List.mem_cons, List.mem_append, sourcePostings] at h
  rcases h with rfl | h | h
  · rfl
  · split_ifs at h with hs
    · exact absurd h List.not_mem_nil
    · obtain rfl := List.mem_singleton.1 h
      exact ⟨hs, Or.inl rfl⟩
  · rcases hp : k.priv with _ | _
    · rw [hp, if_neg Bool.false_ne_true, targetPostings, List.mem_cons] at h
      rcases h with rfl | h
      · exact ⟨hp, rfl⟩
      · split_ifs at h with hs
        · exact absurd h List.not_mem_nil
        · rw [List.mem_cons, List.mem_singleton] at h
          rcases h with rfl | rfl
          · exact ⟨hp, rfl⟩
          · exact ⟨hs, Or.inl rfl⟩
    · rw [hp, if_pos rfl, linkPostings] at h
      split_ifs at h with hs
      · exact absurd h List.not_mem_nil
      · rw [List.mem_cons, List.mem_singleton] at h
        rcases h with rfl | rfl
        · exact ⟨hs, Or.inl rfl⟩
        · exact ⟨hs, Or.inr ⟨_, rfl⟩⟩

theorem postsTo_of_mem_key {c : Counter} (h : c ∈ k.keyPostings) : k.PostsTo c := by
  rw [keyPostings, List.mem_cons, List.mem_append] at h
  rcases h with rfl | h | h
  · rfl
  · split_ifs at h with hp
    · exact absurd h List.not_mem_nil
    · obtain rfl := List.mem_singleton.1 h
      exact ⟨Bool.eq_false_iff.2 hp, rfl⟩
  · split_ifs at h with hs
    · exact absurd h List.not_mem_nil
    · obtain rfl := List.mem_singleton.1 h
      exact ⟨hs, Or.inl rfl⟩

/-- The accounts of a call that has closed. -/
theorem postsTo_of_mem_end (hp : k.priv = false) {c : Counter} (h : c ∈ k.endPostings) :
    k.PostsTo c := by
  rw [endPostings, List.mem_append] at h
  rcases h with h | h
  · split_ifs at h
    · obtain rfl := List.mem_singleton.1 h
      exact ⟨hp, rfl⟩
    · exact absurd h List.not_mem_nil
  · split_ifs at h
    · obtain rfl := List.mem_singleton.1 h
      exact ⟨hp, rfl⟩
    · exact absurd h List.not_mem_nil

/-- **A call posts to accounts of its own**, once it is counted. -/
theorem postsTo_of_mem {c : Counter} (h : c ∈ k.postings) : k.PostsTo c := by
  rw [postings, if_pos (counted_of_mem_postings h), List.mem_append, List.mem_append] at h
  rcases h with (h | h) | h
  · exact postsTo_of_mem_base h
  · split_ifs at h
    · exact postsTo_of_mem_key h
    · exact absurd h List.not_mem_nil
  · split_ifs at h with hp
    · exact absurd h List.not_mem_nil
    · exact postsTo_of_mem_end (Bool.eq_false_iff.2 fun he => hp (by rw [he, Bool.true_or])) h

/-- A talkgroup counts the calls to it that are not private. -/
theorem of_tg_mem_postings {t : Bytes} {c : TgCounter} (h : .tg t c ∈ k.postings) :
    k.counted ∧ k.priv = false ∧ t = k.tgt :=
  ⟨counted_of_mem_postings h, postsTo_of_mem h⟩

theorem of_net_mem_postings {n : Bytes} {c : NetCounter} (h : .net n c ∈ k.postings) :
    k.counted ∧ n = k.net :=
  ⟨counted_of_mem_postings h, postsTo_of_mem h⟩

/-- A radio counts the calls it made, and its peers. -/
theorem of_radio_mem_postings {r : Bytes} {c : RadioCounter} (h : .radio r c ∈ k.postings) :
    k.counted ∧ k.src ≠ [] ∧ (r = k.src ∨ ∃ p, c = .peer p) :=
  ⟨counted_of_mem_postings h, postsTo_of_mem h⟩

/-- A counted call is counted by its network. -/
theorem net_calls_mem_postings (hc : k.counted) : .net k.net .calls ∈ k.postings :=
  mem_postings_of_base hc List.mem_cons_self

/-- A counted call is counted by its talkgroup, unless it is private. -/
theorem tg_calls_mem_postings (hc : k.counted) (hp : k.priv = false) :
    .tg k.tgt .calls ∈ k.postings :=
  mem_postings_of_base hc (by simp [basePostings, targetPostings, hp])

/-- A counted call is counted by its source. -/
theorem radio_calls_mem_postings (hc : k.counted) (hs : k.src ≠ []) :
    .radio k.src .calls ∈ k.postings :=
  mem_postings_of_base hc (by simp [basePostings, sourcePostings, hs])

end Call

namespace Family

variable {F : Family} {id : ℕ} {k : Call} {now : ℤ}

/-- A network that counts something is in the table. -/
theorem mem_networks_of_pos {n : Bytes} {c : NetCounter} (h : 0 < F.value (.net n c)) :
    n ∈ F.networks := by
  by_contra hn
  rw [value, SortedMap.getD_of_not_mem hn] at h
  cases c <;> exact absurd h (lt_irrefl 0)

/-- A balanced family counts what a call posts. -/
theorem Balanced.pos (hb : F.Balanced) (hk : k ∈ F.calls) {c : Counter} (hc : c ∈ k.postings) :
    0 < F.value c := by
  rw [hb c]
  exact lt_of_lt_of_le (List.count_pos_iff.2 hc) (count_le_posted hk c)

/-! ## Noting a key

A key is counted once for each call, by the network and by the ends of the call, and only after the
call itself. -/

/-- **Noting a key moves what it posts**, when the entities of the call are there. -/
theorem moves_noteEncCounts (hk : F.findCall id = some k) (hno : [] ∉ F.radios)
    (hpos : k.counted → ∀ c ∈ k.basePostings, 0 < F.value c) :
    Moves F.value (F.noteEncCounts .unlimited id).value k.notedPostings [] := by
  rw [Call.notedPostings]
  split_ifs with hu
  · have hu' : (k.counted = true ∧ k.kid ≠ []) ∧ k.keyNoted = false := by
      simpa [Call.unnoted] using hu
    have hpos := hpos hu'.1.1
    have hnet := mem_networks_of_pos (hpos _ List.mem_cons_self)
    have htg : k.priv = false → k.tgt ∈ F.tgs := fun hp =>
      mem_tgs_of_pos (c := .calls) (hpos _ (by simp [Call.basePostings, Call.targetPostings, hp]))
    have hrad : k.src ≠ [] → k.src ∈ F.radios := fun hs =>
      mem_radios_of_pos (c := .calls)
        (hpos _ (by simp [Call.basePostings, Call.sourcePostings, hs]))
    simp only [noteEncCounts, hk, if_pos hu]
    exact moves_noteKey (F := F.modifyCall id Call.markNoted) hnet htg hrad hno
  · simp only [noteEncCounts, hk, if_neg hu]
    exact Moves.refl _

/-- A record changes as the counters move. -/
theorem Balanced.replace {F' : Family} {k' : Call} {p q : List Call} {d e : List Counter}
    (hb : F.Balanced) (ha : F.Around id k p q) (ha' : F'.Around id k' p q)
    (hm : Moves F.value F'.value d e)
    (hd : ∀ c, k.postings.count c + d.count c = k'.postings.count c + e.count c) : F'.Balanced := by
  rw [Balanced, ha.calls] at hb
  rw [Balanced, ha'.calls]
  exact Ledger.Balanced.replace hb hm hd

/-- **Noting the key of a call keeps the balance.** -/
theorem Balanced.noteEncCounts (hb : F.Balanced) (h : F.Kept) (id : ℕ) :
    (F.noteEncCounts .unlimited id).Balanced := by
  rcases hk : F.findCall id with _ | k
  · rw [Family.noteEncCounts, hk]
    exact hb
  obtain ⟨p, q, ha⟩ := h.around hk
  have hm := moves_noteEncCounts hk h.radios fun hc c hcm =>
    hb.pos ha.mem (Call.mem_postings_of_base hc hcm)
  exact hb.replace ha ha.noteEncCounts hm fun c => by
    rw [Call.count_noted_postings, List.count_nil, Nat.add_zero]

/-! ## Counting a call

Counting goes through the source, the link between the two radios, and the target.  The movements
add up to what the record posts once it is marked as counted. -/

/-- **Counting a call moves what it posts**, its flags at the end aside. -/
theorem moves_countCall (hk : F.findCall id = some k) (hn : k.net ∈ F.networks)
    (ht : k.tgt ≠ []) (hno : [] ∉ F.radios) :
    Moves F.value (F.countCall .unlimited id now).value
      (k.basePostings ++ k.markCounted.notedPostings) [] := by
  set G := (F.modifyCall id Call.markCounted).countEnds .unlimited k now
  have h₁ : Moves F.value G.value
      (k.sourcePostings ++ if k.priv then k.linkPostings else k.targetPostings) [] :=
    moves_countEnds (F.modifyCall id Call.markCounted) k now
  have hnet : k.net ∈ G.networks := by
    simp only [G, countEnds, countSource, linkPeers, countTarget]
    split_ifs <;> exact hn
  obtain ⟨N, hN⟩ := SortedMap.mem_iff_find?.1 hnet
  have h₂ := h₁.trans (moves_onNetwork (g := Network.countCall) hN N.moves_countCall)
  have hbase : Moves F.value (G.onNetwork k.net Network.countCall).value k.basePostings [] :=
    Moves.perm h₂ (List.perm_append_singleton (Counter.net k.net .calls) _)
  have hfind : (G.onNetwork k.net Network.countCall).findCall id = some k.markCounted := by
    rw [findCall_congr ((calls_onNetwork ..).trans (calls_countEnds ..))]
    exact findCall_modifyCall_self (fun _ => rfl) hk
  have hpos : ∀ c ∈ k.basePostings, 0 < (G.onNetwork k.net Network.countCall).value c := by
    intro c hc
    have := hbase c
    have := List.count_pos_iff.2 hc
    simp only [List.count_nil] at *
    omega
  have h₃ := moves_noteEncCounts hfind (nil_notMem_countEnds ht hno) fun _ => hpos
  simp only [countCall, hk]
  exact hbase.trans h₃

/-- An open call is counted. -/
theorem Balanced.countCall (hb : F.Balanced) (h : F.Kept) (hk : F.findCall id = some k)
    (hn : k.net ∈ F.networks) (hc : k.counted = false) (ht : k.tgt ≠ []) (ho : k.isOpen) :
    (F.countCall .unlimited id now).Balanced := by
  obtain ⟨p, q, ha⟩ := h.around hk
  have hkn : k.keyNoted = false := Bool.eq_false_iff.2 fun hkn => by
    simpa [hc] using ((h.coherent k ha.mem).noted hkn).1
  refine hb.replace ha ha.countCall (moves_countCall hk hn ht h.radios) fun c => ?_
  rw [Call.count_noted_postings, Call.postings_markCounted hkn, Call.postings_of_uncounted hc, ho,
    Bool.or_true, if_pos rfl, List.append_nil, List.count_append, List.count_nil]
  omega

/-! ## Entities that are dropped

An entity that has counted nothing can go without any account changing.  That is all pruning drops.
-/

/-- The balance is between counters and calls. -/
theorem Balanced.congr {F' : Family} (hb : F.Balanced) (hv : F'.value = F.value)
    (hc : F'.calls = F.calls) : F'.Balanced := by
  rw [Balanced, hv, hc]
  exact hb

/-- A counter no call posts to is zero. -/
theorem Balanced.eq_zero (hb : F.Balanced) {c : Counter} (h : ∀ k ∈ F.calls, c ∉ k.postings) :
    F.value c = 0 := (hb c).trans (posted_eq_zero h)

/-- A talkgroup without calls counts nothing. -/
theorem Balanced.tg_eq_zero (hb : F.Balanced) {t : Bytes} (h : F.value (.tg t .calls) = 0)
    (c : TgCounter) : F.value (.tg t c) = 0 :=
  hb.eq_zero fun k hk hm => by
    obtain ⟨hc, hp, rfl⟩ := Call.of_tg_mem_postings hm
    exact (hb.pos hk (Call.tg_calls_mem_postings hc hp)).ne' h

/-- A network without calls counts nothing. -/
theorem Balanced.net_eq_zero (hb : F.Balanced) {n : Bytes} (h : F.value (.net n .calls) = 0)
    (c : NetCounter) : F.value (.net n c) = 0 :=
  hb.eq_zero fun k hk hm => by
    obtain ⟨hc, rfl⟩ := Call.of_net_mem_postings hm
    exact (hb.pos hk (Call.net_calls_mem_postings hc)).ne' h

/-- A radio without calls counts nothing but the private calls to it. -/
theorem Balanced.radio_eq_zero (hb : F.Balanced) {r : Bytes} (h : F.value (.radio r .calls) = 0)
    {c : RadioCounter} (hc : ∀ p, c ≠ .peer p) : F.value (.radio r c) = 0 :=
  hb.eq_zero fun k hk hm => by
    obtain ⟨hcnt, hs, rfl | ⟨p, rfl⟩⟩ := Call.of_radio_mem_postings hm
    · exact (hb.pos hk (Call.radio_calls_mem_postings hcnt hs)).ne' h
    · exact hc p rfl

/-- A blank family has counted nothing. -/
theorem value_default (c : Counter) : ({} : Family).value c = 0 := by
  rcases c with ⟨n, c⟩ | ⟨t, c⟩ | ⟨r, c⟩ <;> cases c <;> rfl

/-- An empty talkgroup goes. -/
theorem Balanced.eraseTg (hb : F.Balanced) {t : Bytes} (h : F.value (.tg t .calls) = 0) :
    Balanced { F with tgs := F.tgs.erase t } := by
  refine hb.congr (funext fun c => ?_) rfl
  match c with
  | .tg t' c =>
    by_cases ht : t' = t
    · subst ht
      rw [hb.tg_eq_zero h c, value, SortedMap.getD_of_not_mem fun hm =>
        (SortedMap.mem_erase.1 hm).1 rfl]
      exact value_default (.tg t' c)
    · rw [value, value, SortedMap.getD, SortedMap.find?_erase_ne _ ht]
      rfl
  | .net _ _ | .radio _ _ => rfl

/-! ## A call found to be private

A call may have been counted for a talkgroup before it turned out that its target is a radio.  Then
the count is taken back, and made again for the radio. -/

/-- What a counted group call with a source posts before and after. -/
theorem count_private_postings (hc : k.counted) (hp : k.priv = false) (ho : k.isOpen)
    (hs : k.src ≠ []) (c : Counter) :
    k.postings.count c + [Counter.radio k.src (.peer k.tgt), .radio k.tgt (.peer k.src)].count c =
      k.markPrivate.postings.count c +
        (k.targetPostings ++ if k.keyNoted then [Counter.tg k.tgt (.key (encKey k.alg k.kid))]
          else []).count c := by
  have hm : k.markPrivate.postings = k.markPrivate.basePostings ++
      (if k.keyNoted then k.markPrivate.keyPostings else []) ++ [] := if_pos hc
  have hb : k.markPrivate.basePostings =
      .net k.net .calls :: (k.sourcePostings ++ k.linkPostings) := rfl
  have hk : k.markPrivate.keyPostings = .net k.net (.key (encKey k.alg k.kid)) :: ([] ++
      if k.src = [] then [] else [.radio k.src (.key (encKey k.alg k.kid))]) := rfl
  rw [hm, hb, hk, Call.postings, if_pos hc, Call.basePostings, Call.keyPostings, Call.linkPostings,
    hp, ho, if_neg hs, if_neg hs]
  rcases k.keyNoted with _ | _ <;>
    simp only [Bool.false_eq_true, Bool.or_true, if_true, if_false, List.count_append,
      List.count_cons, List.count_nil, List.nil_append, List.append_nil] <;>
    omega

/-- **A call that turns out to be private keeps the balance**: what the talkgroup had counted goes
to the radio. -/
theorem Balanced.setPrivate (hb : F.Balanced) (h : F.Kept) (hk : F.findCall id = some k)
    (ho : k.isOpen) : (F.setPrivate .unlimited id now).Balanced := by
  obtain ⟨p, q, ha⟩ := h.around hk
  have ha' : (F.modifyCall id Call.markPrivate).Around id k.markPrivate p q :=
    ha.modifyCall (g := Call.markPrivate) rfl
  simp only [Family.setPrivate, hk]
  split_ifs with hp hc
  · exact hb
  · have hp : k.priv = false := Bool.eq_false_iff.2 hp
    have hs : k.src ≠ [] := (h.coherent k ha.mem).source hc ho
    set F₁ := F.modifyCall id Call.markPrivate
    set G := (F₁.onRadio k.src fun r => r.bumpTg .unlimited k.tgt (-1)).onTg k.tgt fun t =>
      t.uncountCall .unlimited k
    have hpos : ∀ c ∈ k.postings, 0 < F₁.value c := fun c hm => hb.pos ha.mem hm
    have htgt : ∀ c ∈ k.targetPostings, 0 < F₁.value c := fun c hm =>
      hpos c (Call.mem_postings_of_base hc (by simp [Call.basePostings, hp, hm]))
    have hm : Moves F₁.value G.value [] _ := moves_uncount hs
      (htgt _ List.mem_cons_self) (htgt _ (by simp [Call.targetPostings, hs]))
      (htgt _ (by simp [Call.targetPostings, hs]))
      fun hn => hpos _ (by simp [Call.postings, Call.keyPostings, hc, hp, hn])
    have hsrc : k.src ∈ G.radios := SortedMap.mem_modify.2
      (mem_radios_of_pos (c := .calls) (hpos _ (Call.radio_calls_mem_postings hc hs)))
    have hbal : (G.linkPeers .unlimited k now).Balanced :=
      hb.replace ha (ha'.congr rfl) (hm.trans (moves_linkPeers hsrc)) fun c => by
        have := count_private_postings hc hp ho hs c
        simpa using this
    rw [uncountTarget]
    split
    · next T hT =>
      split_ifs with he
      · refine hbal.eraseTg (t := k.tgt) ?_
        change (G.tgs.getD k.tgt {}).calls = 0
        rw [SortedMap.getD_of_find? hT]
        exact he.1
      · exact hbal
    · exact hbal
  · refine hb.replace ha ha' (Moves.refl _) fun c => ?_
    rw [Call.postings_of_uncounted (Bool.eq_false_iff.2 hc),
      Call.postings_of_uncounted (k := k.markPrivate) (Bool.eq_false_iff.2 hc)]

/-! ## Amending a record

An amended record posts what it posted before, by definition. -/

/-- Amending a record keeps the balance, as it posts what it did. -/
theorem Balanced.amend (hb : F.Balanced) (h : F.Kept) (hk : F.findCall id = some k) {net : Bytes}
    {g : Call → Call} (hg : Call.Amends net k (g k)) : (F.modifyCall id g).Balanced := by
  obtain ⟨p, q, ha⟩ := h.around hk
  refine hb.replace ha (ha.modifyCall hg.id) (Moves.refl _) fun c => ?_
  rw [hg.postings (h.coherent k ha.mem)]

/-! ## Ending a call

A call that was never counted for want of a source is counted when it ends; and what it was, an
emergency or encrypted, is counted then as well. -/

/-- The marks of a closed call are counted when it closes. -/
theorem moves_tallyClosed (hk : F.findCall id = some k)
    (ht : k.counted → k.priv = false → k.tgt ∈ F.tgs) :
    Moves F.value (F.tallyClosed id).value k.tallyPostings [] := by
  simp only [tallyClosed, hk, Call.tallyPostings]
  split_ifs with h
  · exact Moves.refl _
  · have h' : k.counted = true ∧ k.priv = false := by simpa using h
    obtain ⟨T, hT⟩ := SortedMap.mem_iff_find?.1 (ht h'.1 h'.2)
    have hm := moves_onTg (g := fun t => t.tally k) hT (T.moves_tally k)
    rw [Call.endPostings]
    split_ifs at hm ⊢ <;> exact hm

theorem tallyPostings_noted (k : Call) : k.noted.tallyPostings = k.tallyPostings := by
  rw [Call.noted]
  split_ifs <;> rfl

/-- The talkgroup of a group call is there once the call is counted. -/
theorem tgt_mem_countCall (hk : F.findCall id = some k) (hn : k.net ∈ F.networks)
    (ht : k.tgt ≠ []) (hno : [] ∉ F.radios) (hp : k.priv = false) :
    k.tgt ∈ (F.countCall .unlimited id now).tgs := by
  refine mem_tgs_of_pos (c := .calls) ?_
  have hbase : Counter.tg k.tgt .calls ∈ k.basePostings := by
    simp [Call.basePostings, Call.targetPostings, hp]
  have hcount : Moves F.value (F.countCall .unlimited id now).value _ [] :=
    moves_countCall hk hn ht hno
  have hm := hcount (.tg k.tgt .calls)
  have := List.count_pos_iff.2 hbase
  simp only [List.count_nil, List.count_append] at *
  omega

/-- A call that was not counted is, as it ends, and its flags are tallied. -/
theorem Balanced.closeUnsourced {e : Call} {p r : List Call} {F₁ : Family} (hb : F.Balanced)
    (h : [] ∉ F₁.radios) (hv : F₁.value = F.value) (ha : F.Around id k p r)
    (ha' : F₁.Around id e p r) (hn : e.net ∈ F₁.networks) (ht : e.tgt ≠ [])
    (hkc : k.counted = false) (hkn : e.keyNoted = false) (ho : e.isOpen = false) :
    ((F₁.countCall .unlimited id now).tallyClosed id).Balanced := by
  have hac : (F₁.countCall .unlimited id now).Around id e.markCounted.noted p r := ha'.countCall
  have hmc : Moves F₁.value (F₁.countCall .unlimited id now).value _ [] :=
    moves_countCall ha'.findCall hn ht h
  have hmt := moves_tallyClosed hac.findCall fun _ hp => by
    have hpe : e.markCounted.noted.priv = e.priv ∧ e.markCounted.noted.tgt = e.tgt := by
      rw [Call.noted]
      split_ifs <;> exact ⟨rfl, rfl⟩
    rw [hpe.1] at hp
    rw [hpe.2]
    exact tgt_mem_countCall ha'.findCall hn ht h hp
  rw [hv] at hmc
  refine hb.replace ha (hac.congr (calls_tallyClosed ..)) (hmc.trans hmt) fun c => ?_
  have htl : e.markCounted.tallyPostings = if e.priv || e.isOpen then [] else e.endPostings := by
    rw [ho, Bool.or_false]
    rfl
  rw [Call.postings_of_uncounted hkc, Call.count_noted_postings, Call.postings_markCounted hkn,
    tallyPostings_noted, htl]
  simp only [List.count_nil, List.count_append]
  omega

/-- **A call ends**: its record is closed, it is counted if its talker was never decoded, and its
flags are tallied. -/
theorem Balanced.close (hb : F.Balanced) (h : F.Kept) (hk : F.findCall id = some k)
    (hn : k.net ∈ F.networks) (ho : k.isOpen) {g : Call → Call} {q : Summary} {s : Recording}
    {keep : Bool} (hg : g k = k.ended q s keep) :
    (((F.modifyCall id g).countUnsourced .unlimited id).tallyClosed id).Balanced := by
  obtain ⟨p, r, ha⟩ := h.around hk
  have ha' : (F.modifyCall id g).Around id (k.ended q s keep) p r := by
    rw [← hg]
    exact ha.modifyCall (by rw [hg]; rfl)
  set F₁ := F.modifyCall id g
  by_cases hu : k.counted = false ∧ k.src = [] ∧ k.tgt ≠ [] ∧ k.voice ∧ k.data = false
  · obtain ⟨hc, hs, ht, hv, hd⟩ := hu
    have hcount : F₁.countUnsourced .unlimited id = F₁.countCall .unlimited id k.lastMs := by
      simp only [countUnsourced, ha'.findCall]
      exact if_pos (by simp [Call.ended, hc, hs, ht, hv, hd])
    have hkn : k.keyNoted = false := Bool.eq_false_iff.2 fun hkn =>
      Bool.false_ne_true (hc.symm.trans ((h.coherent k ha.mem).noted hkn).1)
    rw [hcount]
    have hradios : [] ∉ F₁.radios := h.radios
    exact hb.closeUnsourced hradios rfl ha ha' hn ht hc hkn rfl
  · have hcount : F₁.countUnsourced .unlimited id = F₁ := by
      simp only [countUnsourced, ha'.findCall]
      refine if_neg fun h => hu ?_
      simp only [Bool.and_eq_true, decide_eq_true_eq, Bool.not_eq_true'] at h
      obtain ⟨⟨⟨⟨hc, hs⟩, ht⟩, hv⟩, hd⟩ := h
      exact ⟨hc, hs, ht, hv, hd⟩
    have hmt := moves_tallyClosed ha'.findCall fun hc hp =>
      mem_tgs_of_pos (F := F₁) (c := .calls)
        (hb.pos ha.mem (Call.tg_calls_mem_postings (k := k) hc hp))
    rw [hcount]
    exact hb.replace ha (ha'.congr (calls_tallyClosed ..)) hmt fun c => by
      rw [Call.count_ended_postings ho, List.count_nil, Nat.add_zero]
      rfl

end Family

end DsdServer
