import DsdServer.Assoc.Counters

/-!
# Assoc/Records — call records and what an operation leaves of them

Which records a family may hold (`Call.Coherent`, `Family.Kept`), which changes of a record no
counter notices (`Call.Amends`), and the frame of each operation: the calls and the network table it
leaves alone.

A frame lemma says what an operation does not touch, and there is one for each operation and each
table, since the invariants of the later modules are about different tables.  The records are kept
in a list, newest last, and found by their ids, which are apart.
-/

open Bytes

namespace DsdServer

namespace Call

/-- **A record's own consistency**: a counted call has a target, and a source while it is open; a
noted key is a counted call's. -/
structure Coherent (k : Call) : Prop where
  target : k.counted → k.tgt ≠ []
  source : k.counted → k.isOpen → k.src ≠ []
  noted : k.keyNoted → k.counted ∧ k.kid ≠ []

/-- **A change of a record that no counter notices**: ends and key are filled in but not changed,
the network of a call only until it is counted (`net` is the one its stream is on), and a closed
call keeps all of it. -/
structure Amends (net : Bytes) (k k' : Call) : Prop where
  id : k'.id = k.id
  priv : k'.priv = k.priv
  counted : k'.counted = k.counted
  isOpen : k'.isOpen = k.isOpen
  keyNoted : k'.keyNoted = k.keyNoted
  net : k'.net = k.net ∨ k.counted = false ∧ k'.net = net
  src : k.src ≠ [] → k'.src = k.src
  tgt : k.tgt ≠ [] → k'.tgt = k.tgt
  key : k.kid ≠ [] → k'.kid = k.kid ∧ k'.alg = k.alg
  closed : k.isOpen = false →
    k'.src = k.src ∧ k'.tgt = k.tgt ∧ k'.emergency = k.emergency ∧ k'.encrypted = k.encrypted

variable {k k' : Call} {net : Bytes}

theorem Amends.refl (net : Bytes) (k : Call) : Amends net k k :=
  ⟨rfl, rfl, rfl, rfl, rfl, Or.inl rfl, fun _ => rfl, fun _ => rfl, fun _ => ⟨rfl, rfl⟩,
    fun _ => ⟨rfl, rfl, rfl, rfl⟩⟩

/-- A coherent record keeps its source once it is counted. -/
theorem Amends.src_of_counted (h : Amends net k k') (hk : k.Coherent) (hc : k.counted) :
    k'.src = k.src := by
  rcases ho : k.isOpen with _ | _
  · exact (h.closed ho).1
  · exact h.src (hk.source hc ho)

/-- A record stays coherent when it is amended. -/
theorem Amends.coherent (h : Amends net k k') (hk : k.Coherent) : k'.Coherent where
  target hc := by
    rw [h.counted] at hc
    rw [h.tgt (hk.target hc)]
    exact hk.target hc
  source hc ho := by
    rw [h.counted] at hc
    rw [h.isOpen] at ho
    rw [h.src (hk.source hc ho)]
    exact hk.source hc ho
  noted hn := by
    rw [h.keyNoted] at hn
    rw [h.counted, (h.key (hk.noted hn).2).1]
    exact hk.noted hn

/-- **No counter notices.** -/
theorem Amends.postings (h : Amends net k k') (hk : k.Coherent) : k'.postings = k.postings := by
  rcases hc : k.counted with _ | _
  · rw [Call.postings, Call.postings, h.counted, hc]
    rfl
  have hnet : k'.net = k.net := h.net.resolve_right fun hn => by simp [hc] at hn
  have hsrc := h.src_of_counted hk hc
  have htgt := h.tgt (hk.target hc)
  have hbase : k'.basePostings = k.basePostings := by
    simp only [basePostings, sourcePostings, linkPostings, targetPostings, hnet, hsrc, htgt, h.priv]
  have hkey : k.keyNoted → k'.keyPostings = k.keyPostings := fun hn => by
    obtain ⟨hkid, halg⟩ := h.key (hk.noted hn).2
    simp only [keyPostings, hnet, hsrc, htgt, h.priv, hkid, halg]
  have hend : k.isOpen = false → k'.endPostings = k.endPostings := fun ho => by
    obtain ⟨-, -, hem, hen⟩ := h.closed ho
    simp only [endPostings, htgt, hem, hen]
  rw [Call.postings, Call.postings, h.counted, h.keyNoted, h.priv, h.isOpen, hbase]
  congr 2
  · split_ifs with hn
    · rw [hkey hn]
    · rfl
  · split_ifs with ho
    · rfl
    · exact hend (Bool.eq_false_iff.2 fun h => ho (by rw [h, Bool.or_true]))

/-- The record once its key is noted. -/
def noted (k : Call) : Call := if k.unnoted then k.markNoted else k

/-- A key that is not yet noted belongs to a call that is counted and has one. -/
theorem of_unnoted (h : k.unnoted) : (k.counted = true ∧ k.kid ≠ []) ∧ k.keyNoted = false := by
  simpa [unnoted] using h

theorem Coherent.noted' (h : k.Coherent) : k.noted.Coherent := by
  rw [Call.noted]
  split_ifs with hu
  · exact ⟨h.target, h.source, fun _ => (of_unnoted hu).1⟩
  · exact h

end Call

/-! ## The records of a family

Ids are unique, so a record is found by its id and the list splits around it (`Around`).  A change
of the record, or its removal, is then read off the two parts that stay. -/

namespace Family

/-- **The records of a family**: unique ids, each record coherent, no radio without an id. -/
structure Kept (F : Family) : Prop where
  ids : (F.calls.map Call.id).Nodup
  coherent : ∀ k ∈ F.calls, k.Coherent
  radios : [] ∉ F.radios

variable {F F' : Family} {id : ℕ} {k k' : Call} {p q : List Call}

/-- What is found has the id, and is in the list. -/
theorem findCall_some (h : F.findCall id = some k) : k ∈ F.calls ∧ k.id = id :=
  KeyedList.findLast_some (show KeyedList.findLast Call.id F.calls id = some k from h)

/-- A record is found by its id, as no two have the same. -/
theorem Kept.findCall_of_mem (h : F.Kept) (hk : k ∈ F.calls) : F.findCall k.id = some k :=
  KeyedList.findLast_of_mem h.ids hk

/-- **The record of a call and the records around it.** -/
structure Around (F : Family) (id : ℕ) (k : Call) (p q : List Call) : Prop where
  calls : F.calls = p ++ k :: q
  id_eq : k.id = id
  before : ∀ b ∈ p, b.id ≠ id
  after : ∀ b ∈ q, b.id ≠ id

/-- **A record that is found splits the list around it.** -/
theorem Kept.around (h : F.Kept) (hk : F.findCall id = some k) : ∃ p q, F.Around id k p q := by
  obtain ⟨hm, rfl⟩ := findCall_some hk
  obtain ⟨p, q, hF, hp, hq⟩ := KeyedList.exists_split h.ids hm
  exact ⟨p, q, hF, rfl, hp, hq⟩

/-- The record between is in the list. -/
theorem Around.mem (h : F.Around id k p q) : k ∈ F.calls := by
  rw [h.calls]
  exact List.mem_append_right _ List.mem_cons_self

theorem Around.congr (h : F.Around id k p q) (hF : F'.calls = F.calls) : F'.Around id k p q :=
  ⟨hF.trans h.calls, h.id_eq, h.before, h.after⟩

/-- The record changes in place. -/
theorem Around.modifyCall (h : F.Around id k p q) {g : Call → Call} (hg : (g k).id = k.id) :
    (F.modifyCall id g).Around id (g k) p q := by
  obtain ⟨hF, rfl, hp, hq⟩ := h
  refine ⟨?_, hg, hp, hq⟩
  rw [Family.modifyCall, hF]
  exact KeyedList.modify_split hp hq g

/-- The record between is the one that is found. -/
theorem Around.findCall (h : F.Around id k p q) : F.findCall id = some k := by
  obtain ⟨hF, rfl, hp, hq⟩ := h
  rw [Family.findCall, hF, List.reverse_append, List.reverse_cons, List.append_assoc,
    List.find?_append, List.find?_eq_none.2 fun b hb => by simpa using hq b (List.mem_reverse.1 hb)]
  simp

/-- The record is dropped. -/
theorem Around.forget (h : F.Around id k p q) : (F.forget id).calls = p ++ q := by
  obtain ⟨hF, rfl, hp, hq⟩ := h
  rw [Family.forget, hF]
  exact KeyedList.eraseP_split hp

/-- Without the record nothing is changed. -/
theorem modifyCall_of_none (h : F.findCall id = none) (g : Call → Call) :
    F.modifyCall id g = F := by
  have hno : ∀ b ∈ F.calls, b.id ≠ id := fun b hb hid => by
    rw [findCall, List.find?_eq_none] at h
    exact h b (List.mem_reverse.2 hb) (by simpa using hid)
  have := KeyedList.modify_eq_self hno g
  rw [KeyedList.modify] at this
  rw [modifyCall, this]

/-- What is found after a change of one record. -/
theorem findCall_modifyCall {g : Call → Call} (hg : ∀ k, (g k).id = k.id) (id' : ℕ) :
    (F.modifyCall id g).findCall id' = (F.findCall id').map fun k => if k.id = id then g k else k :=
  KeyedList.findLast_modify hg

/-- The changed record is found under its id. -/
theorem findCall_modifyCall_self {g : Call → Call} (hg : ∀ k, (g k).id = k.id)
    (hk : F.findCall id = some k) : (F.modifyCall id g).findCall id = some (g k) := by
  rw [findCall_modifyCall hg, hk, Option.map_some, if_pos (findCall_some hk).2]

/-- What is found depends on the list of records. -/
theorem findCall_congr (h : F'.calls = F.calls) (id : ℕ) : F'.findCall id = F.findCall id := by
  rw [findCall, findCall, h]

/-- One record changes, keeping its id. -/
theorem Kept.replace (h : F.Kept) (ha : F.Around id k p q) (ha' : F'.Around id k' p q)
    (hk : k'.Coherent) (hr : [] ∉ F'.radios) : F'.Kept where
  ids := by
    have := h.ids
    rw [ha.calls] at this
    rw [ha'.calls, List.map_append, List.map_cons, ha'.id_eq, ← ha.id_eq]
    rwa [List.map_append, List.map_cons] at this
  coherent o ho := by
    rw [ha'.calls, List.mem_append, List.mem_cons] at ho
    rcases ho with ho | rfl | ho
    · exact h.coherent o (by rw [ha.calls]; exact List.mem_append_left _ ho)
    · exact hk
    · exact h.coherent o
        (by rw [ha.calls]; exact List.mem_append_right _ (List.mem_cons_of_mem _ ho))
  radios := hr

/-- The records are as they were. -/
theorem Kept.congr (h : F.Kept) (hF : F'.calls = F.calls) (hr : [] ∉ F'.radios) : F'.Kept :=
  ⟨by rw [hF]; exact h.ids, by rw [hF]; exact h.coherent, hr⟩

/-- Some records are gone. -/
theorem Kept.sublist (h : F.Kept) (hF : F'.calls.Sublist F.calls) (hr : [] ∉ F'.radios) : F'.Kept :=
  ⟨h.ids.sublist (hF.map _), fun k hk => h.coherent k (hF.subset hk), hr⟩

/-- Forgetting a call takes records away. -/
theorem calls_forget_sublist (F : Family) (id : ℕ) : (F.forget id).calls.Sublist F.calls :=
  List.eraseP_sublist

theorem Kept.forget (h : F.Kept) (id : ℕ) : (F.forget id).Kept :=
  h.sublist (calls_forget_sublist F id) h.radios

/-- A new record comes last. -/
theorem Kept.push (h : F.Kept) (hid : ∀ o ∈ F.calls, o.id ≠ k.id) (hk : k.Coherent) :
    Kept { F with calls := F.calls ++ [k] } where
  ids := by
    rw [List.map_append, List.nodup_append]
    refine ⟨h.ids, List.nodup_singleton _, fun a ha b hb => ?_⟩
    obtain ⟨o, ho, rfl⟩ := List.mem_map.1 ha
    rw [List.map_singleton, List.mem_singleton] at hb
    rw [hb]
    exact hid o ho
  coherent o ho := by
    rcases List.mem_append.1 ho with ho | ho
    · exact h.coherent o ho
    · rw [List.mem_singleton.1 ho]
      exact hk
  radios := h.radios

/-- An amended record. -/
theorem Kept.amend (h : F.Kept) (hk : F.findCall id = some k) {net : Bytes} {g : Call → Call}
    (hg : Call.Amends net k (g k)) : (F.modifyCall id g).Kept := by
  obtain ⟨p, q, ha⟩ := h.around hk
  exact h.replace ha (ha.modifyCall hg.id) (hg.coherent (h.coherent k ha.mem)) h.radios

/-! ## Frames

The counting operations leave the records alone but for flags of their own, and the network table
but for what its entries count. -/

section Frames

variable (L : Limits) (F : Family) (now : ℤ) (s t n : Bytes)

@[simp] theorem calls_onNetwork (g : Network → Network) : (F.onNetwork n g).calls = F.calls := rfl

@[simp] theorem calls_onRadio (g : Radio → Radio) : (F.onRadio s g).calls = F.calls := rfl

@[simp] theorem calls_onTg (g : Talkgroup → Talkgroup) : (F.onTg t g).calls = F.calls := rfl

@[simp] theorem calls_touchRadio (aka : Bytes) : (F.touchRadio L s n aka now).calls = F.calls := rfl

@[simp] theorem calls_countSource (k : Call) : (F.countSource L k now).calls = F.calls := by
  rw [countSource]
  split_ifs <;> rfl

@[simp] theorem calls_linkPeers (k : Call) : (F.linkPeers L k now).calls = F.calls := rfl

@[simp] theorem calls_countTarget (k : Call) : (F.countTarget L k now).calls = F.calls := by
  rw [countTarget]
  split_ifs <;> rfl

@[simp] theorem calls_countEnds (k : Call) : (F.countEnds L k now).calls = F.calls := by
  rw [countEnds]
  split_ifs
  · exact calls_countSource L F now k
  · exact calls_countSource L F now k
  · rw [calls_countTarget, calls_countSource]

@[simp] theorem calls_uncountTarget (k : Call) : (F.uncountTarget L k).calls = F.calls := by
  rw [uncountTarget]
  split
  · split_ifs <;> rfl
  · rfl

@[simp] theorem calls_tallyClosed (id : ℕ) : (F.tallyClosed id).calls = F.calls := by
  rw [tallyClosed]
  split
  · rfl
  · split_ifs <;> rfl

@[simp] theorem calls_noteKey (k : Call) : (F.noteKey L k).calls = F.calls := by
  rw [noteKey]
  split_ifs <;> rfl

/-- A call's record once its key is noted. -/
theorem calls_noteEncCounts {id : ℕ} {k : Call} (hk : F.findCall id = some k) :
    (F.noteEncCounts L id).calls =
      if k.unnoted then (F.modifyCall id Call.markNoted).calls else F.calls := by
  simp only [noteEncCounts, hk]
  split_ifs
  · exact calls_noteKey ..
  · rfl

end Frames

/-! ## Keeping the records

Counting a call makes entries for its radios.  None of them is an entry without an id, as only
sources and targets that were given are counted. -/

/-- Ensuring an entry brings in no other. -/
theorem mem_of_mem_ensure {V : Type*} {lim : Option ℕ} {lastMs : V → ℤ} {m : SortedMap Bytes V}
    {i j : Bytes} {fresh : V} (h : j ∈ ensure lim lastMs m i fresh) : j = i ∨ j ∈ m := by
  have hev : ∀ m' : SortedMap Bytes V, j ∈ evictOldest lastMs m' → j ∈ m' := fun m' h' => by
    rw [evictOldest] at h'
    split at h'
    · exact h'
    · exact (SortedMap.mem_erase.1 h').2
  rw [ensure] at h
  split_ifs at h
  · exact Or.inr h
  · exact (SortedMap.mem_insert.1 h).imp_right (hev m)
  · exact SortedMap.mem_insert.1 h

variable {L : Limits} {now : ℤ}

/-- The radios an operation on a radio leaves: those there were, and itself. -/
theorem nil_notMem_ensureRadio {i : Bytes} (hi : i ≠ []) (h : [] ∉ F.radios) :
    [] ∉ (F.ensureRadio L i now).radios := fun hm =>
  (mem_of_mem_ensure hm).elim (fun e => hi e.symm) h

/-- A radio that is changed is there already. -/
theorem nil_notMem_onRadio {i : Bytes} {g : Radio → Radio} (h : [] ∉ F.radios) :
    [] ∉ (F.onRadio i g).radios := fun hm => h (SortedMap.mem_modify.1 hm)

/-- A call is counted for its source only if it has one. -/
theorem nil_notMem_countSource (h : [] ∉ F.radios) : [] ∉ (F.countSource L k now).radios := by
  rw [countSource]
  split_ifs with hs
  · exact h
  · exact nil_notMem_onRadio (nil_notMem_ensureRadio hs h)

/-- A private call links radios that have ids. -/
theorem nil_notMem_linkPeers (ht : k.tgt ≠ []) (h : [] ∉ F.radios) :
    [] ∉ (F.linkPeers L k now).radios :=
  nil_notMem_onRadio (nil_notMem_ensureRadio ht (nil_notMem_onRadio h))

/-- A private call is counted for a target that has an id. -/
theorem nil_notMem_countTarget (h : [] ∉ F.radios) : [] ∉ (F.countTarget L k now).radios := by
  rw [countTarget]
  split_ifs with hs
  · exact h
  · exact nil_notMem_onRadio h

/-- Counting both ends of a call brings in no radio without an id. -/
theorem nil_notMem_countEnds (ht : k.tgt ≠ []) (h : [] ∉ F.radios) :
    [] ∉ (F.countEnds L k now).radios := by
  rw [countEnds]
  split_ifs
  · exact nil_notMem_countSource h
  · exact nil_notMem_linkPeers ht (nil_notMem_countSource h)
  · exact nil_notMem_countTarget (nil_notMem_countSource h)

theorem nil_notMem_uncountTarget (h : [] ∉ F.radios) : [] ∉ (F.uncountTarget L k).radios := by
  have h' := nil_notMem_onRadio (i := k.src)
    (g := fun r => r.bumpTg L k.tgt (-1)) h
  rw [uncountTarget]
  split
  · split_ifs <;> exact h'
  · exact h'

theorem nil_notMem_noteEncCounts (h : [] ∉ F.radios) (id : ℕ) :
    [] ∉ (F.noteEncCounts L id).radios := by
  rw [noteEncCounts]
  split
  · exact h
  · split_ifs
    · rw [noteKey]
      split_ifs <;> exact nil_notMem_onRadio h
    · exact h

theorem Kept.onRadio (h : F.Kept) (i : Bytes) (g : Radio → Radio) : (F.onRadio i g).Kept :=
  h.congr rfl (nil_notMem_onRadio h.radios)

/-- A radio that has an id may come in. -/
theorem Kept.touchRadio (h : F.Kept) {i : Bytes} (hi : i ≠ []) (net aka : Bytes) :
    (F.touchRadio L i net aka now).Kept :=
  h.congr rfl (nil_notMem_onRadio (nil_notMem_ensureRadio hi h.radios))

/-- The record after its key is noted, with the others in place. -/
theorem Around.noteEncCounts (ha : F.Around id k p q) :
    (F.noteEncCounts L id).Around id k.noted p q := by
  have hc := calls_noteEncCounts L F ha.findCall
  rw [Call.noted]
  split_ifs at hc ⊢
  · exact (ha.modifyCall (g := Call.markNoted) rfl).congr hc
  · exact ha.congr hc

/-- The record after it is counted, with the others in place. -/
theorem Around.countCall (ha : F.Around id k p q) :
    (F.countCall L id now).Around id k.markCounted.noted p q := by
  simp only [Family.countCall, ha.findCall]
  refine Around.noteEncCounts ((ha.modifyCall (g := Call.markCounted) rfl).congr ?_)
  rw [calls_onNetwork, calls_countEnds]

/-- Noting the key of a call marks its record. -/
theorem Kept.noteEncCounts (h : F.Kept) (id : ℕ) : (F.noteEncCounts L id).Kept := by
  rcases hk : F.findCall id with _ | k
  · rw [Family.noteEncCounts, hk]
    exact h
  obtain ⟨p, q, ha⟩ := h.around hk
  exact h.replace ha ha.noteEncCounts (h.coherent k ha.mem).noted'
    (nil_notMem_noteEncCounts h.radios id)

/-- A counted call: its record is marked, and its key noted. -/
theorem Kept.countCall (h : F.Kept) (hk : F.findCall id = some k) (ht : k.tgt ≠ [])
    (hs : k.isOpen → k.src ≠ []) (hn : k.keyNoted = false) : (F.countCall L id now).Kept := by
  obtain ⟨p, q, ha⟩ := h.around hk
  have hcoh : k.markCounted.Coherent :=
    ⟨fun _ => ht, fun _ => hs, fun hn' => absurd (hn.symm.trans hn') Bool.false_ne_true⟩
  have hr : [] ∉ ((F.modifyCall id Call.markCounted).countEnds L k now).radios :=
    nil_notMem_countEnds ht h.radios
  refine h.replace ha ha.countCall hcoh.noted' ?_
  simp only [Family.countCall, hk]
  exact nil_notMem_noteEncCounts (F := Family.onNetwork _ _ _) hr id

/-- A call found to be private. -/
theorem Kept.setPrivate (h : F.Kept) (id : ℕ) : (F.setPrivate L id now).Kept := by
  rw [Family.setPrivate]
  rcases hk : F.findCall id with _ | k
  · exact h
  obtain ⟨p, q, ha⟩ := h.around hk
  have hcoh := h.coherent k ha.mem
  have h₁ : (F.modifyCall id Call.markPrivate).Kept :=
    h.replace ha (ha.modifyCall (g := Call.markPrivate) rfl) ⟨hcoh.target, hcoh.source,
      hcoh.noted⟩ h.radios
  dsimp only
  split_ifs with hp hc
  · exact h
  · refine h₁.congr ?_ (nil_notMem_linkPeers (hcoh.target hc) (nil_notMem_uncountTarget h₁.radios))
    rw [calls_linkPeers, calls_uncountTarget]
  · exact h₁

/-- The tallies of a closed call are not about records. -/
theorem Kept.tallyClosed (h : F.Kept) (id : ℕ) : (F.tallyClosed id).Kept := by
  refine h.congr (calls_tallyClosed F id) fun hm => h.radios ?_
  rw [Family.tallyClosed] at hm
  split at hm
  · exact hm
  · split_ifs at hm <;> exact hm

/-- A closed call may be counted without a source. -/
theorem Kept.countUnsourced (h : F.Kept) (hk : F.findCall id = some k) (ho : k.isOpen = false) :
    (F.countUnsourced L id).Kept := by
  simp only [Family.countUnsourced, hk]
  split_ifs with hc
  · simp only [Bool.and_eq_true, decide_eq_true_eq, Bool.not_eq_true'] at hc
    refine h.countCall hk hc.1.1.2 (fun ho' => by simp [ho] at ho') ?_
    rw [← Bool.not_eq_true]
    exact fun hn => by simpa [hc.1.1.1.1] using ((h.coherent k (findCall_some hk).1).noted hn).1
  · exact h

/-! ## The ids of the records

No operation but opening a call and forgetting one changes the list of ids. -/

/-- The ids of a family's calls. -/
def callIds (F : Family) : List ℕ := F.calls.map Call.id

theorem callIds_congr (h : F'.calls = F.calls) : F'.callIds = F.callIds := by
  rw [callIds, callIds, h]

/-- A change that leaves the id leaves the list of them. -/
theorem callIds_modifyCall {g : Call → Call} (hg : ∀ k, (g k).id = k.id) (i : ℕ) :
    (F.modifyCall i g).callIds = F.callIds := KeyedList.map_key_modify hg

theorem callIds_noteEncCounts (i : ℕ) : (F.noteEncCounts L i).callIds = F.callIds := by
  rw [noteEncCounts]
  split
  · rfl
  · split_ifs
    · exact (callIds_congr (calls_noteKey ..)).trans
        (callIds_modifyCall (g := Call.markNoted) (fun _ => rfl) i)
    · rfl

theorem callIds_countCall (i : ℕ) : (F.countCall L i now).callIds = F.callIds := by
  rw [countCall]
  split
  · rfl
  · next k _ =>
    refine (callIds_noteEncCounts i).trans ?_
    refine (callIds_congr ((calls_onNetwork ..).trans (calls_countEnds ..))).trans ?_
    exact callIds_modifyCall (g := Call.markCounted) (fun _ => rfl) i

theorem callIds_setPrivate (i : ℕ) : (F.setPrivate L i now).callIds = F.callIds := by
  have h : (F.modifyCall i Call.markPrivate).callIds = F.callIds :=
    callIds_modifyCall (g := Call.markPrivate) (fun _ => rfl) i
  rw [setPrivate]
  split
  · rfl
  · split_ifs
    · rfl
    · refine (callIds_congr ?_).trans h
      rw [calls_linkPeers, calls_uncountTarget]
    · exact h

theorem callIds_countUnsourced (i : ℕ) : (F.countUnsourced L i).callIds = F.callIds := by
  rw [countUnsourced]
  split
  · rfl
  · split_ifs
    · exact callIds_countCall i
    · rfl

end Family

end DsdServer
