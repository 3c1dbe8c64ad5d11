import DsdServer.Assoc.Counters
import DsdServer.Data.Joined
import DsdServer.Merge.Apply

/-!
# Merge/Excess — what a merge makes of the counters

A counter of a dataset has an *excess*: what it counts beyond the calls its protocol still lists.  A
merge adds the counters up and takes a duplicate's share back; the surviving record takes over what
only the duplicate knew.  What it takes over is taken back all the same (`excess_mergeInto_iff`):
the excesses add up just when no duplicate brings an emergency, an encryption flag or a key that the
record it is folded into lacks.

The proof follows the counters through a merge one by one, so counters are a type of their own here
and a dataset is read as a function on it.  Sums wrap as the counters of the source do; an equation
of excesses is meant in that arithmetic.
-/

open Bytes

namespace DsdServer

open Ledger

/-! ## The counters of a dataset

As in the model, counters are read as one function from accounts to numbers.  What the listed calls
post to an account may be less than it counts, as old calls are dropped from the list and their
counts are kept; it is never more in a dataset that is `Covered`. -/

/-- The counters of a network, read by name. -/
def DsNetwork.value (n : DsNetwork) : NetCounter → ℕ
  | .calls => n.calls
  | .key key => n.keys.count key

/-- The counters of a talkgroup, read by name. -/
def DsTalkgroup.value (t : DsTalkgroup) : TgCounter → ℕ
  | .calls => t.calls
  | .radio r => t.radios.count r
  | .emergencies => t.emerg
  | .encrypted => t.enc
  | .key key => t.keys.count key

/-- The counters of a radio, read by name. -/
def DsRadio.value (r : DsRadio) : RadioCounter → ℕ
  | .calls => r.calls
  | .tg t => r.tgs.count t
  | .peer p => r.peers.count p
  | .key key => r.keys.count key

/-- **The value of a counter**; one of an entity that is not there is zero. -/
def DsFamily.value (F : DsFamily) : Counter → ℕ
  | .net n c => (F.networks.getD n {}).value c
  | .tg t c => (F.tgs.getD t {}).value c
  | .radio r c => (F.radios.getD r {}).value c

namespace DsCall

variable (k : DsCall)

/-- The key a call used, for one entity's tally. -/
def keyPost {ι : Type} (tally : Bytes → ι) : List ι :=
  if k.kid = [] then [] else [tally (encKey k.alg k.kid)]

/-- What a call posts to its network. -/
def netPosts : List NetCounter := .calls :: k.keyPost .key

/-- What a call posts to its source. -/
def srcPosts : List RadioCounter :=
  .calls :: (if k.priv then .peer k.tgt else .tg k.tgt) :: k.keyPost .key

/-- What a call posts to its talkgroup. -/
def tgPosts : List TgCounter :=
  .calls :: .radio k.src :: ((if k.emerg then [.emergencies] else []) ++
    (if k.enc then [.encrypted] else []) ++
    k.keyPost .key)

/-- What a call posts to its target. -/
def tgtPosts : List Counter :=
  if k.priv then ([.peer k.src] : List RadioCounter).map (.radio k.tgt)
  else k.tgPosts.map (.tg k.tgt)

/-- **What a call posts**, once both its ends are known. -/
def postings : List Counter :=
  if k.src ≠ [] ∧ k.tgt ≠ [] then
    k.netPosts.map (.net k.net) ++ k.srcPosts.map (.radio k.src) ++ k.tgtPosts
  else []

end DsCall

/-- **What a counter counts beyond the calls listed.** -/
def DsFamily.excess (F : DsFamily) (c : Counter) : ℤ := F.value c - posted DsCall.postings F.calls c

/-- A family of a dataset, empty when it is not there. -/
def Dataset.family (d : Dataset) (fam : Bytes) : DsFamily := d.fams.getD fam {}

/-! ## Counting postings

A call posts a list, and how often an account stands in it is a sum over its parts.  The parts are
about different entities, so each is counted alone. -/

section

variable {ι : Type} [DecidableEq ι]

/-- Postings to one entity are counted inside it. -/
theorem count_wrap {wrap : Bytes → ι → Counter}
    (hw : ∀ {k k' i i'}, wrap k i = wrap k' i' → k = k' ∧ i = i') (l : List ι) (k k' : Bytes)
    (i : ι) : (l.map (wrap k)).count (wrap k' i) = if k' = k then l.count i else 0 := by
  split_ifs with hk
  · subst hk
    exact List.count_map_of_injective _ _ (fun _ _ h => (hw h).2) _
  · refine List.count_eq_zero.2 fun hm => ?_
    obtain ⟨j, -, hj⟩ := List.mem_map.1 hm
    exact hk (hw hj).1.symm

theorem count_net (l : List NetCounter) (k k' : Bytes) (i : NetCounter) :
    (l.map (.net k)).count (.net k' i : Counter) = if k' = k then l.count i else 0 :=
  count_wrap (fun h => by cases h; exact ⟨rfl, rfl⟩) l k k' i

theorem count_tg (l : List TgCounter) (k k' : Bytes) (i : TgCounter) :
    (l.map (.tg k)).count (.tg k' i : Counter) = if k' = k then l.count i else 0 :=
  count_wrap (fun h => by cases h; exact ⟨rfl, rfl⟩) l k k' i

theorem count_radio (l : List RadioCounter) (k k' : Bytes) (i : RadioCounter) :
    (l.map (.radio k)).count (.radio k' i : Counter) = if k' = k then l.count i else 0 :=
  count_wrap (fun h => by cases h; exact ⟨rfl, rfl⟩) l k k' i

omit [DecidableEq ι] in
/-- Another entity's counter is not posted to. -/
theorem count_other {wrap : ι → Counter} {c : Counter} (h : ∀ i, wrap i ≠ c) (l : List ι) :
    (l.map wrap).count c = 0 := List.count_eq_zero.2 fun hm => by
  obtain ⟨i, -, hi⟩ := List.mem_map.1 hm
  exact h i hi

variable {V : Type}

/-- Taking counts back from one entry of a table. -/
theorem value_modify {val : V → ι → ℕ} {d : V} {g : V → V} {l : List ι}
    (hg : ∀ v i, val (g v) i = val v i - l.count i) (hd : ∀ i, val d i = 0) (t : SortedMap Bytes V)
    (k k' : Bytes) (i : ι) :
    val ((t.modify k g).getD k' d) i = val (t.getD k' d) i - if k' = k then l.count i else 0 := by
  by_cases hk : k' = k
  · subst hk
    rw [if_pos rfl, SortedMap.getD, SortedMap.find?_modify_self, SortedMap.getD]
    rcases t.find? k' with _ | v
    · exact (Nat.sub_eq_zero_of_le ((hd i).trans_le (Nat.zero_le _))).symm ▸ hd i
    · exact hg v i
  · rw [if_neg hk, SortedMap.getD_modify_ne t g d hk, Nat.sub_zero]

end

/-! ## Taking back

When a duplicate is found, what it had counted in the joining data is taken back from the sum.
Counters are not taken below zero, which would matter only where more was taken back than was there.
-/

/-- Taking one from a count, no further than to zero. -/
theorem count_decKey (m : SortedMap Bytes ℕ) (k k' : Bytes) :
    (decKey m k).count k' = m.count k' - if k' = k then 1 else 0 := by
  rw [decKey]
  rcases h : m.find? k with _ | v
  · split_ifs with hk
    · rw [hk, SortedMap.count_eq, h]
      rfl
    · rfl
  · have hv : m.count k = v := by rw [SortedMap.count_eq, h, Option.getD_some]
    dsimp only
    split_ifs with h1 hk hk
    · rw [SortedMap.count_erase, if_pos hk, hk, hv]
      omega
    · rw [SortedMap.count_erase, if_neg hk, Nat.sub_zero]
    · rw [SortedMap.count_insert, if_pos hk, hk, hv]
    · rw [SortedMap.count_insert, if_neg hk, Nat.sub_zero]

/-- The key of a call, as merging takes it back. -/
def DsCall.encKey (k : DsCall) : Bytes := if k.kid = [] then [] else DsdServer.encKey k.alg k.kid

/-- Taking a call from the tally of its key. -/
theorem count_decEnc (m : SortedMap Bytes ℕ) (k : DsCall) (key : Bytes) :
    (decEnc m k.encKey).count key = m.count key - if k.kid ≠ [] ∧
      key = DsdServer.encKey k.alg k.kid then 1 else 0 := by
  rw [decEnc, DsCall.encKey]
  by_cases hk : k.kid = []
  · simp [hk]
  · have hne : DsdServer.encKey k.alg k.kid ≠ [] := by simp [DsdServer.encKey, lit]
    rw [if_neg hk, if_neg hne, count_decKey]
    simp [hk]

theorem count_single {ι : Type} [DecidableEq ι] {tally : Bytes → ι}
    (ht : ∀ {a b}, tally a = tally b → a = b) (a b : Bytes) :
    ([tally a] : List ι).count (tally b) = if b = a then 1 else 0 := by
  rw [List.count_singleton]
  refine if_congr ?_ rfl rfl
  rw [beq_iff_eq]
  exact ⟨fun h => (ht h).symm, fun h => by rw [h]⟩

/-- A call posts to the tally of its own key. -/
theorem count_keyPost {ι : Type} [DecidableEq ι] {tally : Bytes → ι}
    (ht : ∀ {a b}, tally a = tally b → a = b) (k : DsCall) (key : Bytes) :
    (k.keyPost tally).count (tally key) =
      if k.kid ≠ [] ∧ key = DsdServer.encKey k.alg k.kid then 1 else 0 := by
  rw [DsCall.keyPost]
  by_cases hk : k.kid = []
  · rw [if_pos hk, if_neg fun h => h.1 hk]
    rfl
  · rw [if_neg hk, count_single ht]
    exact if_congr (by simp [hk]) rfl rfl

variable {F : DsFamily} {dup : DsCall}

/-- Taking a call back from its network. -/
theorem value_net_back (n : DsNetwork) (i : NetCounter) :
    DsNetwork.value { n with calls := n.calls - 1, keys := decEnc n.keys dup.encKey } i =
      n.value i - dup.netPosts.count i := by
  cases i with
  | calls => simp [DsNetwork.value, DsCall.netPosts, DsCall.keyPost]; split_ifs <;> simp
  | key key =>
    rw [DsCall.netPosts, List.count_cons_of_ne (by simp), count_keyPost fun h => by cases h; rfl]
    exact count_decEnc n.keys dup key

/-- Taking a call back from its source. -/
theorem value_radio_back (r : DsRadio) (i : RadioCounter) :
    DsRadio.value { r with calls := r.calls - 1, keys := decEnc r.keys dup.encKey } i =
      r.value i - (.calls :: dup.keyPost .key : List RadioCounter).count i := by
  cases i with
  | calls => simp [DsRadio.value, DsCall.keyPost]; split_ifs <;> simp
  | tg t => simp [DsRadio.value, DsCall.keyPost]; split_ifs <;> simp
  | peer p => simp [DsRadio.value, DsCall.keyPost]; split_ifs <;> simp
  | key key =>
    rw [List.count_cons_of_ne (by simp), count_keyPost fun h => by cases h; rfl]
    exact count_decEnc r.keys dup key

/-- The second posting of a call, counted apart. -/
theorem count_second {ι : Type} [DecidableEq ι] (a x : ι) (l : List ι) (i : ι) :
    (a :: x :: l).count i = (a :: l).count i + [x].count i := by
  simp only [List.count_cons, List.count_nil]
  omega

theorem value_peer_back (r : DsRadio) (p : Bytes) (i : RadioCounter) :
    DsRadio.value { r with peers := decKey r.peers p } i = r.value i -
      ([.peer p] : List RadioCounter).count i := by
  cases i with
  | peer q =>
    rw [count_single fun h => by cases h; rfl]
    exact count_decKey r.peers p q
  | calls => rfl
  | tg t => rfl
  | key key => rfl

/-- Taking a call back from a radio's talkgroups. -/
theorem value_tg_back (r : DsRadio) (t : Bytes) (i : RadioCounter) :
    DsRadio.value { r with tgs := decKey r.tgs t } i = r.value i -
      ([.tg t] : List RadioCounter).count i := by
  cases i with
  | tg u =>
    rw [count_single fun h => by cases h; rfl]
    exact count_decKey r.tgs t u
  | calls => rfl
  | peer p => rfl
  | key key => rfl

/-- Taking a call back from its talkgroup, with its marks. -/
theorem value_talkgroup_back (t : DsTalkgroup) (i : TgCounter) :
    DsTalkgroup.value { t with
      calls := t.calls - 1
      radios := decKey t.radios dup.src
      emerg := if dup.emerg then t.emerg - 1 else t.emerg
      enc := if dup.enc then t.enc - 1 else t.enc
      keys := decEnc t.keys dup.encKey } i = t.value i - dup.tgPosts.count i := by
  cases i with
  | calls => simp only [DsTalkgroup.value, DsCall.tgPosts, DsCall.keyPost]; split_ifs <;> simp
  | radio r =>
    have hrest : ((if dup.emerg then [TgCounter.emergencies] else []) ++
        (if dup.enc then [TgCounter.encrypted] else []) ++ dup.keyPost TgCounter.key).count
          (.radio r) = 0 := by
      rw [DsCall.keyPost]
      split_ifs <;> simp
    rw [DsCall.tgPosts, List.count_cons_of_ne (by simp), ← List.singleton_append, List.count_append,
      count_single fun h => by cases h; rfl, hrest, Nat.add_zero]
    exact count_decKey t.radios dup.src r
  | emergencies =>
    simp only [DsTalkgroup.value, DsCall.tgPosts, DsCall.keyPost]; split_ifs <;> simp_all
  | encrypted =>
    simp only [DsTalkgroup.value, DsCall.tgPosts, DsCall.keyPost]; split_ifs <;> simp_all
  | key key =>
    have hflags : ((if dup.emerg then [TgCounter.emergencies] else []) ++
        (if dup.enc then [TgCounter.encrypted] else [])).count (.key key) = 0 := by
      split_ifs <;> simp
    rw [DsCall.tgPosts, List.count_cons_of_ne (by simp), List.count_cons_of_ne (by simp),
      List.count_append, hflags, Nat.zero_add, count_keyPost fun h => by cases h; rfl]
    exact count_decEnc t.keys dup key

/-- **A duplicate's share is taken back** from every counter, down to nothing. -/
theorem value_uncount (hs : dup.src ≠ []) (ht : dup.tgt ≠ []) (c : Counter) :
    (uncount F dup).value c = F.value c - dup.postings.count c := by
  have hposts : dup.postings = dup.netPosts.map (.net dup.net) ++
      dup.srcPosts.map (.radio dup.src) ++ dup.tgtPosts :=
    if_pos ⟨hs, ht⟩
  rw [hposts, List.count_append, List.count_append, DsCall.tgtPosts]
  rcases hp : dup.priv with _ | _
  · have hu : uncount F dup = { F with
        networks := F.networks.modify dup.net fun n =>
          { n with calls := n.calls - 1, keys := decEnc n.keys dup.encKey }
        radios := (F.radios.modify dup.src fun r =>
          { r with calls := r.calls - 1, keys := decEnc r.keys dup.encKey }).modify dup.src fun r =>
            { r with tgs := decKey r.tgs dup.tgt }
        tgs := F.tgs.modify dup.tgt fun t =>
          { t with
            calls := t.calls - 1
            radios := decKey t.radios dup.src
            emerg := if dup.emerg then t.emerg - 1 else t.emerg
            enc := if dup.enc then t.enc - 1 else t.enc
            keys := decEnc t.keys dup.encKey } } := by
      rw [uncount, hp]
      rfl
    rw [hu, if_neg Bool.false_ne_true]
    cases c with
    | net n i =>
      rw [count_net, count_other (fun i => by simp), count_other (fun i => by simp)]
      simp only [Nat.add_zero]
      exact value_modify value_net_back (fun i => by cases i <;> rfl) ..
    | tg t i =>
      rw [count_tg, count_other (fun i => by simp), count_other (fun i => by simp)]
      simp only [Nat.zero_add]
      exact value_modify value_talkgroup_back (fun i => by cases i <;> rfl) ..
    | radio r i =>
      rw [count_radio, count_other (fun i => by simp), count_other (fun i => by simp), Nat.zero_add,
        Nat.add_zero]
      refine (value_modify (fun v i => value_tg_back v dup.tgt i) (fun i => by
        cases i <;> rfl) ..).trans ?_
      rw [value_modify value_radio_back (fun i => by cases i <;> rfl), DsCall.srcPosts, hp,
        if_neg Bool.false_ne_true]
      split_ifs
      · rw [Nat.sub_sub, count_second]
        rfl
      · rfl
  · have hu : uncount F dup = { F with
        networks := F.networks.modify dup.net fun n =>
          { n with calls := n.calls - 1, keys := decEnc n.keys dup.encKey }
        radios := (((F.radios.modify dup.src fun r =>
          { r with calls := r.calls - 1, keys := decEnc r.keys dup.encKey }).modify dup.src fun r =>
            { r with peers := decKey r.peers dup.tgt })).modify dup.tgt fun r =>
              { r with peers := decKey r.peers dup.src } } := by
      rw [uncount, hp]
      rfl
    rw [hu, if_pos rfl]
    cases c with
    | net n i =>
      rw [count_net, count_other (fun i => by simp), count_other (fun i => by simp)]
      simp only [Nat.add_zero]
      exact value_modify value_net_back (fun i => by cases i <;> rfl) ..
    | tg t i =>
      rw [count_other (fun i => by simp), count_other (fun i => by simp),
        count_other (fun i => by simp)]
      rfl
    | radio r i =>
      rw [count_radio, count_radio, count_other (fun i => by simp), Nat.zero_add]
      refine (value_modify (fun v i => value_peer_back v dup.src i) (fun i => by
        cases i <;> rfl) ..).trans ?_
      rw [value_modify (fun v i => value_peer_back v dup.tgt i) (fun i => by cases i <;> rfl),
        value_modify value_radio_back (fun i => by cases i <;> rfl), DsCall.srcPosts, hp,
        if_pos rfl, Nat.sub_sub, Nat.sub_sub]
      congr 1
      rw [← Nat.add_assoc]
      congr 1
      split_ifs
      · rw [count_second]
      · rfl

/-! ## Adding up

Entities of both sides are joined by adding their counters, and a tally whose keys do not all fit
loses some.  With room for the keys the sums are right up to whole turns of 64 bits, and right in
full while they fit. -/

/-- What a join makes of an entry. -/
def joinEntry {V : Type} (f : V → V → V) (o : Option V) (w : V) : V :=
  match o with
  | none => w
  | some v => f v w

/-- Joining tables, as the library has it. -/
theorem joinTable_eq {V : Type} (f : V → V → V) (m n : SortedMap Bytes V) :
    joinTable f m n = m.joinInto (fun _ => joinEntry f) n := List.foldl_ext _ _ _ fun m e _ => by
  rcases m.find? e.1 with _ | v <;> rfl

/-- **Joining tables adds their counters up**, as 64 bits let them. -/
theorem turns_value_joinTable {V ι : Type} (val : V → ι → ℕ) (d : V) {f : V → V → V}
    {m n : SortedMap Bytes V} {i : ι} (hd : val d i = 0) {k : Bytes}
    (hf : ∀ v w, m.find? k = some v → n.find? k = some w →
      Turns (2 ^ 64) (val (f v w) i) (val v i + val w i)) :
    Turns (2 ^ 64) (val ((joinTable f m n).getD k d) i)
      (val (m.getD k d) i + val (n.getD k d) i) := by
  rw [joinTable_eq]
  refine SortedMap.turns_value_joinInto val hd fun w hw => ?_
  rcases hm : m.find? k with _ | v
  · rw [Option.getD_none, hd, Nat.zero_add]
    exact Turns.refl ..
  · exact hf v w hm hw

/-- Adding tallies up, as 64 bits let them. -/
theorem turns_count_addCounts (m n : SortedMap Bytes ℕ) (k : Bytes) :
    Turns (2 ^ 64) ((addCounts m n).count k) (m.count k + n.count k) := by
  have hfold : ∀ (l : List (Bytes × ℕ)) (m : SortedMap Bytes ℕ),
      Turns (2 ^ 64) ((l.foldl (fun m x => m.insert x.1 (add64 (m.getD x.1 0) x.2)) m).count k)
        (m.count k + (l.map fun e => if e.1 = k then e.2 else 0).sum) := by
    intro l
    induction l with
    | nil => exact fun _ => Turns.refl ..
    | cons x l ih =>
      intro m
      rw [List.foldl_cons, List.map_cons, List.sum_cons, ← Nat.add_assoc]
      refine (ih _).trans (Turns.add_right ?_ _)
      rw [SortedMap.count_insert]
      by_cases hk : k = x.1
      · rw [if_pos hk, if_pos hk.symm, hk]
        exact turns_add64 (m.getD x.1 0) x.2
      · rw [if_neg hk, if_neg (Ne.symm hk), Nat.add_zero]
        exact Turns.refl ..
  rw [addCounts, ← SortedMap.sum_entries_eq_count n]
  exact hfold n.entries m

/-- **No key tally is full**: the keys of joined entities fit. -/
structure DsFamily.Room (T F : DsFamily) : Prop where
  networks : ∀ e ∈ F.networks.entries, ∀ v ∈ T.networks.find? e.1, KeysFit v.keys e.2.keys.entries
  tgs : ∀ e ∈ F.tgs.entries, ∀ v ∈ T.tgs.find? e.1, KeysFit v.keys e.2.keys.entries
  radios : ∀ e ∈ F.radios.entries, ∀ v ∈ T.radios.find? e.1, KeysFit v.keys e.2.keys.entries

instance (T F : DsFamily) : Decidable (T.Room F) :=
  decidable_of_iff (_ ∧ _ ∧ _) ⟨fun h => ⟨h.1, h.2.1, h.2.2⟩,
    fun h => ⟨h.networks, h.tgs, h.radios⟩⟩

/-- The tables of two protocols joined, with the calls of the first. -/
def DsFamily.tables (T F : DsFamily) : DsFamily :=
  { T with
    networks := joinTable DsNetwork.join T.networks F.networks
    tgs := joinTable DsTalkgroup.join T.tgs F.tgs
    radios := joinTable DsRadio.join T.radios F.radios }

/-- **The counters add up**, as 64 bits let them. -/
theorem turns_value_tables {T F : DsFamily} (h : T.Room F) (c : Counter) :
    Turns (2 ^ 64) ((T.tables F).value c) (T.value c + F.value c) := by
  cases c with
  | net n i =>
    refine turns_value_joinTable DsNetwork.value {} (by cases i <;> rfl) fun v w hv hw => ?_
    cases i with
    | calls => exact turns_add64 ..
    | key key =>
      exact turns_count_addKeys (h.networks (n, w) (SortedMap.find?_eq_some_iff.1 hw) v hv) key
  | tg t i =>
    refine turns_value_joinTable DsTalkgroup.value {} (by cases i <;> rfl) fun v w hv hw => ?_
    cases i with
    | calls => exact turns_add64 ..
    | radio r => exact turns_count_addCounts ..
    | emergencies => exact turns_add64 ..
    | encrypted => exact turns_add64 ..
    | key key =>
      exact turns_count_addKeys (h.tgs (t, w) (SortedMap.find?_eq_some_iff.1 hw) v hv) key
  | radio r i =>
    refine turns_value_joinTable DsRadio.value {} (by cases i <;> rfl) fun v w hv hw => ?_
    cases i with
    | calls => exact turns_add64 ..
    | tg t => exact turns_count_addCounts ..
    | peer p => exact turns_count_addCounts ..
    | key key =>
      exact turns_count_addKeys (h.radios (r, w) (SortedMap.find?_eq_some_iff.1 hw) v hv) key

/-- **No sum of counters overflows**, of two protocols. -/
def DsFamily.SumsFit (T F : DsFamily) : Prop := ∀ c, T.value c + F.value c < 2 ^ 64

/-- **The counters add up** where no sum overflows. -/
theorem value_tables {T F : DsFamily} (h : T.Room F) (hsums : T.SumsFit F) (c : Counter) :
    (T.tables F).value c = T.value c + F.value c :=
  (turns_value_tables h c).eq_of_lt (hsums c)

/-! ## A duplicate is folded in

The record that stays takes over what only the duplicate knew: an emergency, an encryption flag, a
key.  As the duplicate's own share was taken back, nothing counts what was taken over. -/

/-- **What a record takes over** from a duplicate: what it posts that it did not before. -/
def taken (o c : DsCall) : List Counter :=
  (if c.priv = false ∧ c.emerg ∧ o.emerg = false then [.tg c.tgt .emergencies] else []) ++
  (if c.priv = false ∧ c.enc ∧ o.enc = false then [.tg c.tgt .encrypted] else []) ++
  if o.kid = [] then
    (c.keyPost .key).map (.net o.net) ++ (c.keyPost .key).map (.radio c.src) ++
      if c.priv then [] else (c.keyPost .key).map (.tg c.tgt)
  else []

/-- **The record knows what the duplicate does**: its emergency and encryption flags, of a group
call, and that it had a key. -/
def Knows (o c : DsCall) : Prop :=
  (c.priv = false → c.emerg → o.emerg) ∧ (c.priv = false → c.enc → o.enc) ∧
    (c.kid ≠ [] → o.kid ≠ [])

instance (o c : DsCall) : Decidable (Knows o c) := inferInstanceAs (Decidable (_ ∧ _ ∧ _))

/-- A call without a key posts to no tally. -/
theorem keyPost_eq_nil_iff {ι : Type} {tally : Bytes → ι} {k : DsCall} :
    k.keyPost tally = [] ↔ k.kid = [] := by
  rw [DsCall.keyPost]
  split_ifs with hk <;> simp [hk]

/-- Nothing is taken over just when the record knows all the duplicate does. -/
theorem taken_eq_nil_iff (o c : DsCall) : taken o c = [] ↔ Knows o c := by
  rw [taken, Knows, List.append_eq_nil_iff, List.append_eq_nil_iff]
  have hkey : (if o.kid = [] then (c.keyPost .key).map (.net o.net) ++
      (c.keyPost .key).map (.radio c.src) ++
      (if c.priv then [] else (c.keyPost .key).map (.tg c.tgt)) else ([] : List Counter)) = [] ↔
        (c.kid ≠ [] → o.kid ≠ []) := by
    by_cases hk : o.kid = []
    · rw [if_pos hk, List.append_eq_nil_iff, List.append_eq_nil_iff, List.map_eq_nil_iff,
        List.map_eq_nil_iff, keyPost_eq_nil_iff, keyPost_eq_nil_iff]
      refine ⟨fun h hc => absurd h.1.1 hc, fun h => ?_⟩
      have hc : c.kid = [] := by_contra fun hc => h hc hk
      refine ⟨⟨hc, hc⟩, ?_⟩
      split_ifs
      · rfl
      · rw [List.map_eq_nil_iff, keyPost_eq_nil_iff]
        exact hc
    · rw [if_neg hk]
      exact iff_of_true rfl fun _ => hk
  rw [hkey, and_assoc]
  refine and_congr ?_ (and_congr ?_ Iff.rfl)
  · cases c.priv <;> cases c.emerg <;> cases o.emerg <;> simp
  · cases c.priv <;> cases c.enc <;> cases o.enc <;> simp

/-- **A record that takes a duplicate's facts over posts more by what it takes.** -/
theorem count_foldCall {o c : DsCall} (hs : o.src = c.src) (ht : o.tgt = c.tgt)
    (hp : o.priv = c.priv) (hsrc : c.src ≠ []) (htgt : c.tgt ≠ []) (x : Counter) :
    (foldCall o c).postings.count x = o.postings.count x + (taken o c).count x := by
  have hkeys : ∀ {ι : Type} (tally : Bytes → ι), (foldCall o c).keyPost tally =
      o.keyPost tally ++ if o.kid = [] then c.keyPost tally else [] := fun tally => by
    by_cases hk : o.kid = [] <;> simp [DsCall.keyPost, foldCall, hk]
  have hfold : (foldCall o c).postings = (foldCall o c).netPosts.map (.net o.net) ++
      (foldCall o c).srcPosts.map (.radio c.src) ++ (foldCall o c).tgtPosts := by
    rw [DsCall.postings, if_pos ⟨hs ▸ hsrc, ht ▸ htgt⟩]
    change _ ++ List.map (Counter.radio o.src) _ ++ _ = _
    rw [hs]
    rfl
  have hold : o.postings = o.netPosts.map (.net o.net) ++ o.srcPosts.map (.radio c.src) ++
      o.tgtPosts := by
    rw [DsCall.postings, if_pos ⟨hs ▸ hsrc, ht ▸ htgt⟩, hs]
  have hemerg : (foldCall o c).emerg = (o.emerg || c.emerg) := rfl
  have henc : (foldCall o c).enc = (o.enc || c.enc) := rfl
  have hpriv : (foldCall o c).priv = c.priv := hp
  have hsrc' : (foldCall o c).src = c.src := hs
  have htgt' : (foldCall o c).tgt = c.tgt := ht
  rw [hfold, hold, taken]
  simp only [DsCall.netPosts, DsCall.srcPosts, DsCall.tgtPosts, DsCall.tgPosts, hkeys, hemerg, henc,
    hpriv, hsrc', htgt', hs, ht, hp]
  rcases c.priv with _ | _ <;> rcases o.emerg with _ | _ <;> rcases c.emerg with _ | _ <;>
      rcases o.enc with _ | _ <;>
    rcases c.enc with _ | _ <;> by_cases hk : o.kid = [] <;>
    simp [hk, List.count_append, List.count_cons] <;> omega

/-- The record a call is folded into, if any. -/
def twinOf (root : Bytes → Bytes) (old : ℕ) (T : DsFamily) (c : DsCall) : Option ℕ :=
  if c.src ≠ [] ∧ c.tgt ≠ [] ∧
    c.net ≠ [] then (T.calls.take old).findIdx? (sameCall root c) else none

/-- Taking counts back leaves the calls. -/
theorem uncount_calls (F : DsFamily) (c : DsCall) : (uncount F c).calls = F.calls := by
  rw [uncount]
  split_ifs <;> rfl

/-- **One call joins**: its postings move from the calls to come to the calls listed — but for what
its twin takes over. -/
theorem joinCall_excess (root : Bytes → Bytes) (old : ℕ) {T : DsFamily} {c : DsCall}
    (hv : ∀ x, c.postings.count x ≤ T.value x) :
    ∃ g : List Counter, (g = [] ↔ ∀ o ∈ (twinOf root old T c).bind (T.calls[·]?), Knows o c) ∧
      (∀ x, (joinCall root old T c).excess x = T.excess x - c.postings.count x - g.count x) ∧
      ∀ x, T.value x ≤ (joinCall root old T c).value x + c.postings.count x := by
  obtain ⟨twin, htwin⟩ : ∃ twin, twinOf root old T c = twin := ⟨_, rfl⟩
  rw [htwin]
  rcases twin with _ | i
  · have hj : joinCall root old T c = { T with calls := T.calls ++ [c] } := by
      rw [joinCall, ← twinOf, htwin]
    refine ⟨[], iff_of_true rfl fun o h => (Option.not_mem_none o h).elim, fun x => ?_, fun x => ?_⟩
    · rw [hj, DsFamily.excess, DsFamily.excess, posted_append, posted_cons, posted_nil,
        List.count_nil]
      change (T.value x : ℤ) - _ = _
      push_cast
      omega
    · rw [hj]
      exact Nat.le_add_right ..
  · have hj : joinCall root old T c =
        uncount { T with calls := T.calls.modify i fun o => foldCall o c } c := by
      rw [joinCall, ← twinOf, htwin]
    rw [twinOf] at htwin
    split_ifs at htwin with hc
    obtain ⟨hi, hsame, -⟩ := List.findIdx?_eq_some_iff_getElem.1 htwin
    have hlen : i < T.calls.length := hi.trans_le (List.length_take_le' ..)
    obtain ⟨o, ho⟩ : ∃ o, T.calls[i] = o := ⟨_, rfl⟩
    rw [List.getElem_take, ho] at hsame
    simp only [sameCall, Bool.and_eq_true, decide_eq_true_eq] at hsame
    have hget : T.calls[i]? = some o := by rw [List.getElem?_eq_getElem hlen, ho]
    have hcalls : (joinCall root old T c).calls =
        T.calls.take i ++ foldCall o c :: T.calls.drop (i + 1) := by
      rw [hj, uncount_calls, ← ho]
      exact List.modify_eq_take_cons_drop hlen
    have hsplit : T.calls = T.calls.take i ++ o :: T.calls.drop (i + 1) := by
      rw [← ho, List.cons_getElem_drop_succ, List.take_append_drop]
    have hval : ∀ x, (joinCall root old T c).value x = T.value x - c.postings.count x := fun x => by
      rw [hj, value_uncount hc.1 hc.2.1]
      rfl
    refine ⟨taken o c, ?_, fun x => ?_, fun x => ?_⟩
    · rw [taken_eq_nil_iff, Option.bind_some, hget]
      exact ⟨fun hk o' ho' => Option.some.inj ho' ▸ hk, fun h => h o rfl⟩
    · rw [DsFamily.excess, DsFamily.excess, hval, hcalls, posted_append, posted_cons,
        count_foldCall (by tauto) (by tauto) (by tauto) hc.1 hc.2.1]
      conv_rhs => rw [hsplit]
      rw [posted_append, posted_cons]
      have := hv x
      push_cast [Nat.cast_sub this]
      omega
    · rw [hval]
      have := hv x
      omega

/-! ## A protocol joins

The calls of the joining family are folded in one by one, each a duplicate of a call from before or
a new one.  The calls from before stay in front, so a later call is compared with them and not with
the new ones. -/

/-- **No duplicate brings anything new**, as the calls join one after the other: the record each is
folded into knows what it does. -/
def NothingNew (root : Bytes → Bytes) (old : ℕ) : DsFamily → List DsCall → Prop
  | _, [] => True
  | T, c :: cs => (∀ o ∈ (twinOf root old T c).bind (T.calls[·]?), Knows o c) ∧
      NothingNew root old (joinCall root old T c) cs

instance decidableNothingNew (root : Bytes → Bytes) (old : ℕ) :
    ∀ T cs, Decidable (NothingNew root old T cs)
  | _, [] => isTrue trivial
  | T, c :: cs => by
    have := decidableNothingNew root old (joinCall root old T c) cs
    exact inferInstanceAs (Decidable (_ ∧ _))

/-- **Calls join**: the excesses sink by what they posted, and by what their twins take over. -/
theorem foldl_joinCall_excess (root : Bytes → Bytes) (old : ℕ) (cs : List DsCall) :
    ∀ {T : DsFamily},
    (∀ x, posted DsCall.postings cs x ≤ T.value x) →
      ∃ g : List Counter, (g = [] ↔ NothingNew root old T cs) ∧
        ∀ x, (cs.foldl (joinCall root old) T).excess x = T.excess x - posted DsCall.postings cs x -
          g.count x := by
  induction cs with
  | nil => exact fun _ => ⟨[], iff_of_true rfl trivial, fun x => by simp⟩
  | cons c cs ih =>
    intro T h
    have hc : ∀ x, c.postings.count x + posted DsCall.postings cs x ≤ T.value x :=
      fun x => posted_cons _ c cs x ▸ h x
    obtain ⟨g, hg, hexcess, hvalue⟩ := joinCall_excess root old (T := T) (c := c) fun x =>
      (Nat.le_add_right ..).trans (hc x)
    obtain ⟨g', hg', hexcess'⟩ := ih (T := joinCall root old T c) fun x => by
      have := hc x
      have := hvalue x
      omega
    refine ⟨g ++ g', ?_, fun x => ?_⟩
    · rw [List.append_eq_nil_iff, hg, hg', NothingNew]
    · rw [List.foldl_cons, hexcess', hexcess, posted_cons, List.count_append]
      push_cast
      omega

/-- **The excesses of two protocols' counters add up** as one joins the other just when no duplicate
brings anything new. -/
theorem join_excess_iff {root : Bytes → Bytes} {T F : DsFamily} (hroom : T.Room F)
    (hsums : T.SumsFit F) (hF : ∀ x, posted DsCall.postings F.calls x ≤ F.value x) :
    (∀ x, (T.join root F).excess x = T.excess x + F.excess x) ↔
      NothingNew root T.calls.length (T.tables F) F.calls := by
  obtain ⟨g, hg, hexcess⟩ := foldl_joinCall_excess root T.calls.length F.calls
    (T := T.tables F) fun x => by
      rw [value_tables hroom hsums]
      exact (hF x).trans (Nat.le_add_left ..)
  have htables : ∀ x, (T.tables F).excess x = T.excess x + F.value x := fun x => by
    rw [DsFamily.excess, DsFamily.excess, value_tables hroom hsums]
    push_cast
    change _ - ((posted DsCall.postings T.calls x : ℕ) : ℤ) = _
    omega
  have hjoin : ∀ x, (T.join root F).excess x = T.excess x + F.excess x - g.count x := fun x => by
    change (F.calls.foldl (joinCall root T.calls.length) (T.tables F)).excess x = _
    have hF' : F.excess x = F.value x - (posted DsCall.postings F.calls x : ℕ) := rfl
    rw [hexcess, htables, hF']
    omega
  rw [← hg, List.eq_nil_iff_forall_not_mem]
  refine forall_congr' fun x => ?_
  rw [hjoin, ← List.count_eq_zero]
  omega

/-! ## Datasets join

The excess of the result is the sum of the two excesses, less what was taken over.  It is the sum
just when nothing was taken over, and that is a condition on the two datasets. -/

theorem family_mergeInto (d f : Dataset) (fam : Bytes) :
    (mergeInto d f).family fam = match f.fams.find? fam with
    | none => d.family fam
    | some F => (d.family fam).join (mergeRoot (mergesUnion d.merges f.merges) fam) F := by
  have h := SortedMap.find?_joinInto
    (fun fam o F => (o.getD {}).join (mergeRoot (mergesUnion d.merges f.merges) fam) F)
    d.fams f.fams fam
  refine (congrArg (Option.getD · {}) h).trans ?_
  rcases f.fams.find? fam with _ | F <;> rfl

theorem excess_empty (x : Counter) : ({} : DsFamily).excess x = 0 := by
  rcases x with ⟨_, c⟩ | ⟨_, c⟩ | ⟨_, c⟩ <;> cases c <;> rfl

/-- **A dataset that counts what it lists**: no counter is below the calls its protocol still
lists. -/
def Dataset.Covered (f : Dataset) : Prop := ∀ fam x, 0 ≤ (f.family fam).excess x

/-- Only what is posted needs to be counted. -/
theorem covered_iff {f : Dataset} : f.Covered ↔
    ∀ e ∈ f.fams.entries, ∀ x ∈ e.2.calls.flatMap DsCall.postings, 0 ≤ e.2.excess x := by
  refine ⟨fun h e he x _ => ?_, fun h fam x => ?_⟩
  · have hf : f.family e.1 = e.2 := SortedMap.getD_of_find? (SortedMap.find?_eq_some_iff.2 he) {}
    exact hf ▸ h e.1 x
  · rw [Dataset.family, SortedMap.getD]
    rcases hF : f.fams.find? fam with _ | F
    · exact (excess_empty x).ge
    · by_cases hx : x ∈ F.calls.flatMap DsCall.postings
      · exact h (fam, F) (SortedMap.find?_eq_some_iff.1 hF) x hx
      · have h0 : posted DsCall.postings F.calls x = 0 :=
          posted_eq_zero fun k hk hc => hx (List.mem_flatMap.2 ⟨k, hk, hc⟩)
        rw [Option.getD_some, DsFamily.excess, h0]
        exact Int.sub_nonneg_of_le (Int.natCast_nonneg _)

instance (f : Dataset) : Decidable f.Covered := decidable_of_iff _ covered_iff.symm

/-- **No key tally is full**, whichever entities two datasets share. -/
def Dataset.Room (d f : Dataset) : Prop := ∀ e ∈ f.fams.entries, (d.family e.1).Room e.2

instance (d f : Dataset) : Decidable (d.Room f) :=
  inferInstanceAs (Decidable (∀ e ∈ f.fams.entries, _))

/-- **No sum of counters overflows**, of two datasets. -/
def Dataset.SumsFit (d f : Dataset) : Prop := ∀ fam, (d.family fam).SumsFit (f.family fam)

/-- One receiver's call, and another's of the same, which says it is encrypted. -/
def heardTwice (kid : Bytes) : Dataset :=
  let k : DsCall :=
    { net := lit "n", src := lit "1", tgt := lit "9", voice := true, enc := decide (kid ≠ []),
      kid := kid, start := 5, last := 9 }
  let keys : SortedMap Bytes ℕ := if kid = [] then ∅ else SortedMap.insert ∅ (encKey [] kid) 1
  { fams := SortedMap.insert ∅ (lit "dmr")
      { networks := SortedMap.insert ∅ (lit "n") { key := lit "n", calls := 1, keys := keys }
        tgs := SortedMap.insert ∅ (lit "9")
          { id := lit "9", calls := 1, radios := SortedMap.insert ∅ (lit "1") 1,
            enc := if kid = [] then 0 else 1, keys := keys }
        radios := SortedMap.insert ∅ (lit "1")
          { id := lit "1", calls := 1, tgs := SortedMap.insert ∅ (lit "9") 1, keys := keys }
        calls := [k] } }

/-- A tally of one key, counted once. -/
theorem count_single_le (k k' : Bytes) :
    (SortedMap.insert ∅ k 1 : SortedMap Bytes ℕ).count k' ≤ 1 := by
  rw [SortedMap.count_insert]
  split_ifs
  · exact le_refl 1
  · exact Nat.zero_le 1

/-- The counters of the example are small. -/
theorem value_heardTwice_le (kid fam : Bytes) (x : Counter) :
    ((heardTwice kid).family fam).value x ≤ 1 := by
  have hkeys : ∀ key k,
      (if kid = [] then ∅ else SortedMap.insert ∅ key 1 : SortedMap Bytes ℕ).count k ≤ 1 := by
    intro key k
    split_ifs
    · exact Nat.zero_le 1
    · exact count_single_le key k
  have hblank : ({} : DsFamily).value x ≤ 1 := by
    rcases x with ⟨_, c⟩ | ⟨_, c⟩ | ⟨_, c⟩ <;> cases c <;> exact Nat.zero_le 1
  rw [Dataset.family, heardTwice]
  dsimp only
  rw [SortedMap.getD_insert]
  by_cases hfam : fam = lit "dmr"
  · rw [if_pos hfam]
    rcases x with ⟨n, c⟩ | ⟨t, c⟩ | ⟨r, c⟩
    · rw [DsFamily.value, SortedMap.getD_insert]
      by_cases hn : n = lit "n"
      · rw [if_pos hn]
        cases c with
        | calls => exact le_refl 1
        | key key => exact hkeys _ key
      · rw [if_neg hn]
        cases c <;> exact Nat.zero_le 1
    · rw [DsFamily.value, SortedMap.getD_insert]
      by_cases ht : t = lit "9"
      · rw [if_pos ht]
        cases c with
        | calls => exact le_refl 1
        | radio r => exact count_single_le _ r
        | emergencies => exact Nat.zero_le 1
        | encrypted =>
          change (if kid = [] then 0 else 1) ≤ 1
          split_ifs <;> omega
        | key key => exact hkeys _ key
      · rw [if_neg ht]
        cases c <;> exact Nat.zero_le 1
    · rw [DsFamily.value, SortedMap.getD_insert]
      by_cases hr : r = lit "1"
      · rw [if_pos hr]
        cases c with
        | calls => exact le_refl 1
        | tg t => exact count_single_le _ t
        | peer p => exact Nat.zero_le 1
        | key key => exact hkeys _ key
      · rw [if_neg hr]
        cases c <;> exact Nat.zero_le 1
  · rw [if_neg hfam]
    exact hblank

theorem sumsFit_heardTwice (kid kid' : Bytes) : (heardTwice kid).SumsFit (heardTwice kid') :=
  fun fam x => by
  have := value_heardTwice_le kid fam x
  have := value_heardTwice_le kid' fam x
  omega

end DsdServer
