import DsdServer.Assoc.Calls
import DsdServer.Data.Ledger

/-!
# Assoc/Counters — what a call posts, and what each update moves

Every counter of a family is an account (`Counter`), and a counted call posts to the accounts of its
network, talkgroup and radios (`Call.postings`).  Each counting operation is described by the
postings it adds or takes back when no limit is in force.

Postings are kept apart from the records they are made of, because several records can post to one
counter and a record posts to many.  What is counted is then a sum over the list of calls, and a
change of one record is a change of one term.
-/

open Bytes Ledger

namespace DsdServer

/-! ## Accounts

The counters of all entities are read as one function from accounts to numbers.  An entity that is
not in the table counts zero, so a table and its counters need not be told apart. -/

/-- What a network counts. -/
inductive NetCounter
  | calls
  | key (key : Bytes)
  deriving DecidableEq

/-- What a talkgroup counts. -/
inductive TgCounter
  | calls
  | radio (r : Bytes)
  | emergencies
  | encrypted
  | key (key : Bytes)
  deriving DecidableEq

/-- What a radio counts. -/
inductive RadioCounter
  | calls
  | tg (t : Bytes)
  | peer (p : Bytes)
  | key (key : Bytes)
  deriving DecidableEq

/-- **A counter of a family**: one of an entity's. -/
inductive Counter
  | net (n : Bytes) (c : NetCounter)
  | tg (t : Bytes) (c : TgCounter)
  | radio (r : Bytes) (c : RadioCounter)
  deriving DecidableEq

/-- The counters of a network, read by name. -/
def Network.value (n : Network) : NetCounter → ℕ
  | .calls => n.calls
  | .key key => n.keys.count key

/-- The counters of a talkgroup, read by name. -/
def Talkgroup.value (t : Talkgroup) : TgCounter → ℕ
  | .calls => t.calls
  | .radio r => t.radios.count r
  | .emergencies => t.emergencies
  | .encrypted => t.encrypted
  | .key key => t.keys.count key

/-- The counters of a radio, read by name. -/
def Radio.value (r : Radio) : RadioCounter → ℕ
  | .calls => r.calls
  | .tg t => r.tgs.count t
  | .peer p => r.peers.count p
  | .key key => r.keys.count key

/-- The value of a counter; an entity that is not there counts nothing. -/
def Family.value (F : Family) : Counter → ℕ
  | .net n c => (F.networks.getD n {}).value c
  | .tg t c => (F.tgs.getD t {}).value c
  | .radio r c => (F.radios.getD r {}).value c

/-! ## What a call posts

A call that is counted posts one to each account it is about, and nothing if it is not counted.  The
balance of a family says that every account is the sum of what the records post to it, and of
nothing else. -/

namespace Call

variable (k : Call)

/-- The source counts the call. -/
def sourcePostings : List Counter := if k.src = [] then [] else [.radio k.src .calls]

/-- The radios of a private call count each other. -/
def linkPostings : List Counter :=
  if k.src = [] then [] else [.radio k.src (.peer k.tgt), .radio k.tgt (.peer k.src)]

/-- The target counts the call, a radio or a talkgroup with its source. -/
def targetPostings : List Counter :=
  .tg k.tgt .calls ::
    if k.src = [] then [] else [.tg k.tgt (.radio k.src), .radio k.src (.tg k.tgt)]

/-- Both ends of the call count it. -/
def endPostings : List Counter :=
  (if k.emergency then [.tg k.tgt .emergencies] else []) ++
    if k.encrypted then [.tg k.tgt .encrypted] else []

/-- Network and ends count the key. -/
def keyPostings : List Counter :=
  .net k.net (.key (encKey k.alg k.kid)) ::
    ((if k.priv then [] else [.tg k.tgt (.key (encKey k.alg k.kid))]) ++
      if k.src = [] then [] else [.radio k.src (.key (encKey k.alg k.kid))])

/-- What a counted call posts before its key is noted and it ends. -/
def basePostings : List Counter :=
  .net k.net .calls :: (k.sourcePostings ++ if k.priv then k.linkPostings else k.targetPostings)

/-- **What a call posts**: nothing before it is counted; a group call's flags once it has ended. -/
def postings : List Counter :=
  if k.counted then
    k.basePostings ++ (if k.keyNoted then k.keyPostings else []) ++
      if k.priv || k.isOpen then [] else k.endPostings
  else []

end Call

namespace Family

/-- **Every counter of a family is what its calls post.** -/
def Balanced (F : Family) : Prop := Ledger.Balanced F.value Call.postings F.calls

/-! ## Counts under no limit

Where no table is ever full, adding to a key adds to that key and to no other; with a limit a key
that is new to a full table is not counted. -/

section Counts

variable (m : SortedMap Bytes ℕ) (k k' : Bytes)

/-- Adding to a key, where nothing is ever full. -/
theorem count_keyAdd (n : ℕ) :
    (keyAdd .unlimited m k n).count k' = m.count k' + if k = k' then n else 0 := by
  rw [keyAdd]
  rcases h : m.find? k with _ | v
  · rw [show Limits.unlimited.keys = none from rfl, reached_none, if_neg Bool.false_ne_true,
      SortedMap.count_insert]
    by_cases hk : k' = k
    · rw [if_pos hk, if_pos hk.symm, hk, SortedMap.count_eq, h]
      exact (Nat.zero_add n).symm
    · rw [if_neg hk, if_neg (Ne.symm hk), Nat.add_zero]
  · change (m.insert k (v + n)).count k' = _
    rw [SortedMap.count_insert]
    by_cases hk : k' = k
    · rw [if_pos hk, if_pos hk.symm, hk, SortedMap.count_eq, h, Option.getD_some]
    · rw [if_neg hk, if_neg (Ne.symm hk), Nat.add_zero]

/-- One more in a table, where nothing is ever full. -/
theorem count_bump : (bump .unlimited m k).count k' = m.count k' + if k = k' then 1 else 0 := by
  rw [bump]
  rcases h : m.find? k with _ | v
  · change (if _ then m.insert k 1 else m).count k' = _
    rw [if_pos (by simp [Limits.unlimited]), SortedMap.count_insert]
    by_cases hk : k' = k
    · rw [if_pos hk, if_pos hk.symm, hk, SortedMap.count_eq, h, Option.getD_none]
    · rw [if_neg hk, if_neg (Ne.symm hk), Nat.add_zero]
  · change (if _ then m.erase k else m.insert k (v + 1 : ℤ).toNat).count k' = _
    rw [if_neg (by omega), SortedMap.count_insert]
    by_cases hk : k' = k
    · rw [if_pos hk, if_pos hk.symm, hk, SortedMap.count_eq, h, Option.getD_some]
      omega
    · rw [if_neg hk, if_neg (Ne.symm hk), Nat.add_zero]

/-- Taking a call back from an edge that has one. -/
theorem count_bump_neg (h : 0 < m.count k) :
    (bump .unlimited m k (-1)).count k' + (if k = k' then 1 else 0) = m.count k' := by
  rw [bump]
  rcases hf : m.find? k with _ | v
  · rw [SortedMap.count_eq, hf] at h
    exact absurd h (lt_irrefl 0)
  have hv : m.count k = v := by rw [SortedMap.count_eq, hf, Option.getD_some]
  change (if _ then m.erase k else m.insert k (v + -1 : ℤ).toNat).count k' + _ = _
  by_cases hk : k' = k
  · subst hk
    rw [if_pos rfl]
    split_ifs with h1
    · rw [SortedMap.count_erase, if_pos rfl, hv]
      have : v ≤ 1 := h1.2
      omega
    · rw [SortedMap.count_insert, if_pos rfl, hv]
      omega
  · rw [if_neg (Ne.symm hk), Nat.add_zero]
    split_ifs
    · rw [SortedMap.count_erase, if_neg hk]
    · rw [SortedMap.count_insert, if_neg hk]

end Counts

/-! ## What a change of one entity moves

A movement names the accounts that gain one and those that lose one, an account as often as it
gains.  Movements inside one entity become movements of the family by naming the entity. -/

/-- A change of one entry of a table moves the counters of that entry. -/
theorem modify_moves {V ι κ : Type*} [DecidableEq ι] [DecidableEq κ] {wrap : Bytes → ι → κ}
    (hw : ∀ {k k' i i'}, wrap k i = wrap k' i' → k = k' ∧ i = i') (val : V → ι → ℕ) (d : V)
    {t : SortedMap Bytes V} {k : Bytes} {e : V} {g : V → V} (he : t.find? k = some e)
    {p m : List ι} (h : Moves (val e) (val (g e)) p m) (k' : Bytes) (i : ι) :
    val ((t.modify k g).getD k' d) i + (m.map (wrap k)).count (wrap k' i) =
      val (t.getD k' d) i + (p.map (wrap k)).count (wrap k' i) := by
  have hinj : Function.Injective (wrap k) := fun _ _ h => (hw h).2
  by_cases hk : k' = k
  · subst hk
    rw [SortedMap.getD_of_find? he, List.count_map_of_injective _ _ hinj,
      List.count_map_of_injective _ _ hinj,
      SortedMap.getD_of_find? (by rw [SortedMap.find?_modify_self, he, Option.map_some])]
    exact h i
  · have hno : ∀ l : List ι, (l.map (wrap k)).count (wrap k' i) = 0 := fun l => by
      rw [List.count_eq_zero]
      intro hm
      obtain ⟨j, -, hj⟩ := List.mem_map.1 hm
      exact hk (hw hj).1.symm
    rw [hno, hno, SortedMap.getD_modify_ne t g d hk]

variable {F : Family}

/-- A change of one network moves that network's accounts. -/
theorem moves_onNetwork {n : Bytes} {g : Network → Network} {N : Network}
    (hN : F.networks.find? n = some N) {p m : List NetCounter}
    (h : Moves N.value (g N).value p m) :
    Moves F.value (F.onNetwork n g).value (p.map (.net n)) (m.map (.net n)) := fun c => by
  match c with
  | .net k' i => exact modify_moves (fun h => by simpa using h) Network.value {} hN h k' i
  | .tg _ _ | .radio _ _ => simp [value, onNetwork, List.count_eq_zero.2]

/-- A change of one talkgroup moves that talkgroup's accounts. -/
theorem moves_onTg {t : Bytes} {g : Talkgroup → Talkgroup} {T : Talkgroup}
    (hT : F.tgs.find? t = some T) {p m : List TgCounter}
    (h : Moves T.value (g T).value p m) :
    Moves F.value (F.onTg t g).value (p.map (.tg t)) (m.map (.tg t)) := fun c => by
  match c with
  | .tg k' i => exact modify_moves (fun h => by simpa using h) Talkgroup.value {} hT h k' i
  | .net _ _ | .radio _ _ => simp [value, onTg, List.count_eq_zero.2]

/-- A change of one radio moves that radio's accounts. -/
theorem moves_onRadio {r : Bytes} {g : Radio → Radio} {R : Radio}
    (hR : F.radios.find? r = some R) {p m : List RadioCounter}
    (h : Moves R.value (g R).value p m) :
    Moves F.value (F.onRadio r g).value (p.map (.radio r)) (m.map (.radio r)) := fun c => by
  match c with
  | .radio k' i => exact modify_moves (fun h => by simpa using h) Radio.value {} hR h k' i
  | .net _ _ | .tg _ _ => simp [value, onRadio, List.count_eq_zero.2]

/-- A change of a network that leaves its counters alone. -/
theorem value_onNetwork {n : Bytes} {g : Network → Network}
    (h : ∀ N : Network, (g N).value = N.value) :
    (F.onNetwork n g).value = F.value := by
  funext c
  by_cases hn : n ∈ F.networks
  · obtain ⟨N, hN⟩ := SortedMap.mem_iff_find?.1 hn
    have := moves_onNetwork (p := []) (m := []) hN (g := g) (by rw [h]; exact Moves.refl _) c
    simpa using this
  · rw [onNetwork, SortedMap.modify_of_not_mem hn]

/-- A change of a radio that leaves its counters alone. -/
theorem value_onRadio {r : Bytes} {g : Radio → Radio} (h : ∀ R : Radio, (g R).value = R.value) :
    (F.onRadio r g).value = F.value := by
  funext c
  by_cases hr : r ∈ F.radios
  · obtain ⟨R, hR⟩ := SortedMap.mem_iff_find?.1 hr
    have := moves_onRadio (p := []) (m := []) hR (g := g) (by rw [h]; exact Moves.refl _) c
    simpa using this
  · rw [onRadio, SortedMap.modify_of_not_mem hr]

/-! ## Entities on demand

Every update first makes sure that its entity is there.  Under no limit that changes no account. -/

/-- An entry that is ensured is there. -/
theorem mem_ensure {V : Type*} (lim : Option ℕ) (lastMs : V → ℤ) (m : SortedMap Bytes V)
    (id : Bytes) (fresh : V) : id ∈ ensure lim lastMs m id fresh := by
  rw [ensure]
  split_ifs with h
  · exact SortedMap.contains_iff.1 h
  all_goals exact SortedMap.mem_insert.2 (Or.inl rfl)

/-- Without a limit an entry comes in beside the others. -/
theorem ensure_none {V : Type*} (lastMs : V → ℤ) (m : SortedMap Bytes V) (id : Bytes) (fresh : V) :
    ensure none lastMs m id fresh = if id ∈ m then m else m.insert id fresh := by
  rw [ensure, reached_none]
  simp only [SortedMap.contains_iff, Bool.false_eq_true, if_false]

/-- The keys after an entry is ensured. -/
theorem mem_ensure_none {V : Type*} {lastMs : V → ℤ} {m : SortedMap Bytes V} {id k : Bytes}
    {fresh : V} : k ∈ ensure none lastMs m id fresh ↔ k = id ∨ k ∈ m := by
  rw [ensure_none]
  split_ifs with h
  · exact ⟨Or.inr, fun h' => h'.elim (fun e => e ▸ h) fun h' => h'⟩
  · exact SortedMap.mem_insert

/-- A new entry with the default's counters changes no counter. -/
theorem getD_ensure_none {V β : Type*} (val : V → β) (d : V) (lastMs : V → ℤ)
    (m : SortedMap Bytes V) (id : Bytes) {fresh : V} (hf : val fresh = val d) (k : Bytes) :
    val ((ensure none lastMs m id fresh).getD k d) = val (m.getD k d) := by
  rw [ensure_none]
  split_ifs with h
  · rfl
  · rw [SortedMap.getD_insert]
    split_ifs with hk
    · rw [hk, SortedMap.getD_of_not_mem h, hf]
    · rfl

theorem value_ensureRadio (F : Family) (id : Bytes) (now : ℤ) :
    (F.ensureRadio .unlimited id now).value = F.value := by
  funext c
  match c with
  | .radio r c =>
    exact congrFun (getD_ensure_none Radio.value {} Radio.lastMs F.radios id
      (by funext c; cases c <;> rfl) r) c
  | .net _ _ | .tg _ _ => rfl

/-- A new talkgroup has counted nothing. -/
theorem value_ensureTg (F : Family) (id : Bytes) (now : ℤ) :
    (F.ensureTg .unlimited id now).value = F.value := by
  funext c
  match c with
  | .tg t c =>
    exact congrFun (getD_ensure_none Talkgroup.value {} Talkgroup.lastMs F.tgs id
      (by funext c; cases c <;> rfl) t) c
  | .net _ _ | .radio _ _ => rfl

/-- A new network has counted nothing. -/
theorem value_ensureNetwork (F : Family) (key : Bytes) (now : ℤ) :
    (F.ensureNetwork .unlimited key now).value = F.value := by
  funext c
  match c with
  | .net n c =>
    exact congrFun (getD_ensure_none Network.value {} Network.lastMs F.networks key
      (by funext c; cases c <;> rfl) n) c
  | .tg _ _ | .radio _ _ => rfl

theorem value_touchRadio (F : Family) (id net aka : Bytes) (now : ℤ) :
    (F.touchRadio .unlimited id net aka now).value = F.value :=
  (value_onRadio fun _ => by funext c; cases c <;> rfl).trans (value_ensureRadio F id now)

end Family

/-! ## What the updates of one entity move

Each update of a record of an entity is one movement, read off its definition. -/

section Entities

variable (N : Network) (T : Talkgroup) (R : Radio) (k : Call) (key i net : Bytes) (now : ℤ)

theorem Network.moves_countCall : Moves N.value N.countCall.value [.calls] [] := fun c => by
  cases c <;> simp [Network.value, Network.countCall]

theorem Network.moves_noteKey : Moves N.value (N.noteKey .unlimited key).value [.key key] [] :=
  fun c => by
    cases c <;> simp [Network.value, Network.noteKey, Family.count_keyAdd, List.count_singleton]

theorem Talkgroup.moves_noteKey : Moves T.value (T.noteKey .unlimited key).value [.key key] [] :=
  fun c => by
    cases c <;> simp [Talkgroup.value, Talkgroup.noteKey, Family.count_keyAdd, List.count_singleton]

theorem Radio.moves_noteKey : Moves R.value (R.noteKey .unlimited key).value [.key key] [] :=
  fun c => by
    cases c <;> simp [Radio.value, Radio.noteKey, Family.count_keyAdd, List.count_singleton]

theorem Radio.moves_countCall : Moves R.value (R.countCall net now).value [.calls] [] := fun c => by
  cases c <;> simp [Radio.value, Radio.countCall]

theorem Radio.moves_bumpPeer : Moves R.value (R.bumpPeer .unlimited i).value [.peer i] [] :=
  fun c => by
    cases c <;> simp [Radio.value, Radio.bumpPeer, Family.count_bump, List.count_singleton]

/-- A radio that reaches another counts it. -/
theorem Radio.moves_reach : Moves R.value (R.reach .unlimited i net now).value [.peer i] [] :=
  fun c => by
    cases c <;> simp [Radio.value, Radio.reach, Family.count_bump, List.count_singleton]

theorem Radio.moves_bumpTg : Moves R.value (R.bumpTg .unlimited i).value [.tg i] [] := fun c => by
  cases c <;> simp [Radio.value, Radio.bumpTg, Family.count_bump, List.count_singleton]

/-- A count that is not zero can be taken back. -/
theorem Radio.moves_bumpTg_neg {R : Radio} {i : Bytes} (h : 0 < R.value (.tg i)) :
    Moves R.value (R.bumpTg .unlimited i (-1)).value [] [.tg i] := fun c => by
  match c with
  | .tg t =>
    simpa [Radio.value, Radio.bumpTg, List.count_singleton] using
      Family.count_bump_neg R.tgs i t h
  | .calls | .peer _ | .key _ => simp [Radio.value, Radio.bumpTg]

/-- A talkgroup counts the call, and its source if there is one. -/
theorem Talkgroup.moves_countCall : Moves T.value (T.countCall .unlimited k now).value
    (.calls :: if k.src = [] then [] else [.radio k.src]) [] := fun c => by
  rw [Talkgroup.countCall]
  split_ifs <;> cases c <;> simp [Talkgroup.value, Family.count_bump, List.count_cons]

/-- **A call is taken back from a talkgroup**, as far as it was counted there. -/
theorem Talkgroup.moves_uncountCall {T : Talkgroup} {k : Call} (hc : 0 < T.value .calls)
    (hr : 0 < T.value (.radio k.src))
    (hk : k.keyNoted → 0 < T.value (.key (encKey k.alg k.kid))) :
    Moves T.value (T.uncountCall .unlimited k).value []
      (.calls :: .radio k.src :: if k.keyNoted then [.key (encKey k.alg k.kid)] else []) :=
        fun c => by
  have hradio := fun r => Family.count_bump_neg T.radios k.src r hr
  have hcalls := Nat.sub_add_cancel hc
  rw [Talkgroup.uncountCall]
  rcases hn : k.keyNoted with _ | _
  · match c with
    | .calls => simpa [Talkgroup.value] using hcalls
    | .radio r => simpa [Talkgroup.value, List.count_cons] using hradio r
    | .emergencies | .encrypted | .key _ => simp [Talkgroup.value]
  · match c with
    | .calls => simpa [Talkgroup.value] using hcalls
    | .radio r => simpa [Talkgroup.value, List.count_cons] using hradio r
    | .key key =>
      simpa [Talkgroup.value, List.count_cons] using Family.count_bump_neg T.keys _ key (hk hn)
    | .emergencies | .encrypted => simp [Talkgroup.value]

/-- The marks of a call that has closed. -/
theorem Talkgroup.moves_tally : Moves T.value (T.tally k).value
    ((if k.emergency then [.emergencies] else []) ++ if k.encrypted then [.encrypted] else []) [] :=
  fun c => by
    rw [Talkgroup.tally]
    split_ifs <;> cases c <;> simp [Talkgroup.value]

end Entities

/-! ## What the counting operations move

The operations of a family are the updates of its entities one after another, and their movements
are put together the same way. -/

namespace Family

variable {F : Family} {k : Call} {now : ℤ}

/-- Counting the source posts what the call says of it. -/
theorem moves_countSource (F : Family) (k : Call) (now : ℤ) :
    Moves F.value (F.countSource .unlimited k now).value k.sourcePostings [] := by
  rw [countSource, Call.sourcePostings]
  split_ifs with hs
  · exact Moves.refl _
  obtain ⟨R, hR⟩ := SortedMap.mem_iff_find?.1 (mem_ensure none Radio.lastMs F.radios k.src
    ({ id := k.src, firstMs := now, lastMs := now } : Radio))
  rw [← value_ensureRadio F k.src now]
  exact moves_onRadio (p := [.calls]) (m := []) hR (R.moves_countCall k.net now)

/-- Linking the two radios of a private call. -/
theorem moves_linkPeers (hs : k.src ∈ F.radios) :
    Moves F.value (F.linkPeers .unlimited k now).value
      [.radio k.src (.peer k.tgt), .radio k.tgt (.peer k.src)] [] := by
  obtain ⟨R, hR⟩ := SortedMap.mem_iff_find?.1 hs
  set F₁ := F.onRadio k.src fun r => r.bumpPeer .unlimited k.tgt
  have h₁ : Moves F.value F₁.value [.radio k.src (.peer k.tgt)] [] :=
    moves_onRadio (p := [.peer k.tgt]) (m := []) hR (R.moves_bumpPeer k.tgt)
  obtain ⟨R', hR'⟩ := SortedMap.mem_iff_find?.1 (mem_ensure none Radio.lastMs F₁.radios k.tgt
    ({ id := k.tgt, firstMs := now, lastMs := now } : Radio))
  rw [← value_ensureRadio F₁ k.tgt now] at h₁
  exact h₁.trans (moves_onRadio (p := [.peer k.src]) (m := []) hR' (R'.moves_reach k.src k.net now))

/-- Counting the target posts what the call says of it. -/
theorem moves_countTarget (hs : k.src ≠ [] → k.src ∈ F.radios) :
    Moves F.value (F.countTarget .unlimited k now).value k.targetPostings [] := by
  rw [countTarget]
  set F₁ := if k.src = [] then F else F.onRadio k.src fun r => r.bumpTg .unlimited k.tgt
  have h₁ : Moves F.value F₁.value (if k.src = [] then [] else [.radio k.src (.tg k.tgt)]) [] := by
    simp only [F₁]
    split_ifs with he
    · exact Moves.refl _
    · obtain ⟨R, hR⟩ := SortedMap.mem_iff_find?.1 (hs he)
      exact moves_onRadio (p := [.tg k.tgt]) (m := []) hR (R.moves_bumpTg k.tgt)
  obtain ⟨T, hT⟩ := SortedMap.mem_iff_find?.1 (mem_ensure none Talkgroup.lastMs F₁.tgs k.tgt
    ({ id := k.tgt, firstMs := now, lastMs := now } : Talkgroup))
  rw [← value_ensureTg F₁ k.tgt now] at h₁
  have h₂ :=
    h₁.trans (moves_onTg (g := fun t => t.countCall .unlimited k now) hT (T.moves_countCall k now))
  intro c
  have := h₂ c
  rw [Call.targetPostings]
  split_ifs at this ⊢ <;>
    simp only [List.map, List.append_nil, List.nil_append, List.cons_append, List.count_cons,
      List.count_nil] at this ⊢ <;>
    omega

/-- Both ends of a call. -/
theorem moves_countEnds (F : Family) (k : Call) (now : ℤ) :
    Moves F.value (F.countEnds .unlimited k now).value
      (k.sourcePostings ++ if k.priv then k.linkPostings else k.targetPostings) [] := by
  have h₁ := moves_countSource F k now
  have hs : k.src ≠ [] → k.src ∈ (F.countSource .unlimited k now).radios := fun he => by
    rw [countSource, if_neg he]
    exact SortedMap.mem_modify.2 (mem_ensure none Radio.lastMs F.radios k.src _)
  rw [countEnds, Call.linkPostings]
  split_ifs with hp he
  · exact h₁.trans (Moves.refl _)
  · exact h₁.trans (moves_linkPeers (hs he))
  · exact h₁.trans (moves_countTarget hs)

/-- A key noted on the entities of a call. -/
theorem moves_noteKey (hn : k.net ∈ F.networks) (ht : k.priv = false → k.tgt ∈ F.tgs)
    (hs : k.src ≠ [] → k.src ∈ F.radios) (hno : [] ∉ F.radios) :
    Moves F.value (F.noteKey .unlimited k).value k.keyPostings [] := by
  set key := encKey k.alg k.kid
  set F₁ := F.onNetwork k.net fun n => n.noteKey .unlimited key
  set F₂ := if k.priv then F₁ else F₁.onTg k.tgt fun t => t.noteKey .unlimited key
  obtain ⟨N, hN⟩ := SortedMap.mem_iff_find?.1 hn
  have h₁ : Moves F.value F₁.value [.net k.net (.key key)] [] :=
    moves_onNetwork (p := [.key key]) (m := []) hN (N.moves_noteKey key)
  have h₂ : Moves F₁.value F₂.value (if k.priv then [] else [.tg k.tgt (.key key)]) [] := by
    rcases hp : k.priv with _ | _
    · obtain ⟨T, hT⟩ := SortedMap.mem_iff_find?.1 (ht hp)
      simp only [F₂, hp, Bool.false_eq_true, if_false]
      exact moves_onTg (F := F₁) (p := [.key key]) (m := []) hT (T.moves_noteKey key)
    · simp only [F₂, hp, if_true]
      exact Moves.refl _
  have hR₂ : F₂.radios = F.radios := by
    simp only [F₂]
    split_ifs <;> rfl
  have h₃ : Moves F₂.value (F₂.onRadio k.src fun r => r.noteKey .unlimited key).value
      (if k.src = [] then [] else [.radio k.src (.key key)]) [] := by
    split_ifs with he
    · rw [onRadio, SortedMap.modify_of_not_mem (by rw [he, hR₂]; exact hno)]
      exact Moves.refl _
    · obtain ⟨R, hR⟩ := SortedMap.mem_iff_find?.1 (hs he)
      exact moves_onRadio (F := F₂) (p := [.key key]) (m := []) (hR₂ ▸ hR) (R.moves_noteKey key)
  exact (h₁.trans (h₂.trans h₃) : Moves _ _ ([_] ++ (_ ++ _)) ([] ++ ([] ++ [])))

/-- A counter that is not zero is an entity's that is there. -/
theorem mem_radios_of_pos {r : Bytes} {c : RadioCounter} (h : 0 < F.value (.radio r c)) :
    r ∈ F.radios := by
  by_contra hr
  rw [value, SortedMap.getD_of_not_mem hr] at h
  cases c <;> exact absurd h (lt_irrefl 0)

/-- A talkgroup that counts something is in the table. -/
theorem mem_tgs_of_pos {t : Bytes} {c : TgCounter} (h : 0 < F.value (.tg t c)) : t ∈ F.tgs := by
  by_contra ht
  rw [value, SortedMap.getD_of_not_mem ht] at h
  cases c <;> exact absurd h (lt_irrefl 0)

/-- A counted group call taken back, before its talkgroup is looked at. -/
theorem moves_uncount (hs : k.src ≠ []) (hc : 0 < F.value (.tg k.tgt .calls))
    (hr : 0 < F.value (.tg k.tgt (.radio k.src))) (ht : 0 < F.value (.radio k.src (.tg k.tgt)))
    (hk : k.keyNoted → 0 < F.value (.tg k.tgt (.key (encKey k.alg k.kid)))) :
    Moves F.value ((F.onRadio k.src fun r => r.bumpTg .unlimited k.tgt (-1)).onTg k.tgt fun t =>
        t.uncountCall .unlimited k).value []
      (k.targetPostings ++ if k.keyNoted then [.tg k.tgt (.key (encKey k.alg k.kid))] else []) := by
  obtain ⟨R, hR⟩ := SortedMap.mem_iff_find?.1 (mem_radios_of_pos ht)
  obtain ⟨T, hT⟩ := SortedMap.mem_iff_find?.1 (mem_tgs_of_pos hc)
  simp only [value, SortedMap.getD_of_find? hT, SortedMap.getD_of_find? hR] at hc hr ht hk
  set F₁ := F.onRadio k.src fun r => r.bumpTg .unlimited k.tgt (-1)
  have h₁ : Moves F.value F₁.value [] [.radio k.src (.tg k.tgt)] :=
    moves_onRadio (p := []) (m := [.tg k.tgt]) hR (Radio.moves_bumpTg_neg ht)
  have h₂ := h₁.trans (moves_onTg (F := F₁) (g := fun t => t.uncountCall .unlimited k) hT
    (Talkgroup.moves_uncountCall hc hr hk))
  intro c
  have := h₂ c
  rw [Call.targetPostings, if_neg hs]
  rcases hn : k.keyNoted with _ | _ <;>
    simp only [hn, Bool.false_eq_true, if_true, if_false, List.map, List.append_nil,
      List.nil_append, List.cons_append, List.count_cons, List.count_nil] at this ⊢ <;>
    omega

end Family

end DsdServer
