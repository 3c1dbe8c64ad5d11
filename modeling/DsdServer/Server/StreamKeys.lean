import DsdServer.Assoc.EventLine
import DsdServer.Assoc.Identity
import DsdServer.Server.KeyList
import DsdServer.Server.Session

/-!
# Server/StreamKeys — the keys a stream is given

Keys without an id are stored for a network, and given to a decoder by the frequency that the
network's name ends in: a Basic Privacy number, a key for every short id, and one key that is forced
on every frame.

* `stream_keys` — **a stream is given the keys of its channel**, whatever has been entered, removed
  and loaded.
* `channel_key` — **a key set for a channel's network** is the one that the channel's streams are
  given, and no other channel's streams are given other keys for it.
-/

open Bytes

namespace DsdServer

/-! ## Keys by frequency

A network that has no name of its own is called by its channel, and the name ends in the frequency.
So a key can be found by the frequency alone, before anything is known of the network. -/

/-- Does the network's name end in the frequency? -/
def netOnFreq (net : Bytes) (freqHz : ℤ) : Bool := (ch '@' :: decInt freqHz).isSuffixOf net

/-- What the first network on a frequency has. -/
def firstOn {V : Type} (m : SortedMap Bytes V) (freqHz : ℤ) : Option V :=
  (m.entries.find? fun e => netOnFreq e.1 freqHz).map Prod.snd

namespace KeyStore

variable (st : KeyStore)

/-- The Basic Privacy number for a frequency; zero if there is none. -/
def bpForFreq (fam : Bytes) (freqHz : ℤ) : ℤ :=
  if freqHz ≤ 0 then 0 else (firstOn (st.bp.getD fam ∅) freqHz).getD 0

/-- The per-network key of a kind for a frequency; empty if there is none. -/
def netKeyForFreq (kind fam : Bytes) (freqHz : ℤ) : Bytes :=
  if freqHz ≤ 0 then [] else (firstOn (st.netKeysOf kind fam) freqHz).getD []

/-- The forced key for a frequency, with its kind. -/
def forcedNetKeyForFreq (fam : Bytes) (freqHz : ℤ) : Bytes × Bytes :=
  match netKeyKinds.find? fun k => k.forced ∧ st.netKeyForFreq k.id fam freqHz ≠ [] with
  | some k => (k.id, st.netKeyForFreq k.id fam freqHz)
  | none => ([], [])

end KeyStore

/-! ## A stream's

Only streams of DMR, or of no protocol in particular, are given stored keys.  Of the kinds of forced
keys, the first that has one for the frequency counts. -/

/-- The stored keys that a decoder is started with. -/
structure StreamKeys where
  bp : ℤ := 0
  ep : Bytes := []
  forced : Bytes × Bytes := ([], [])
  deriving DecidableEq

/-- May a stream have DMR's keys? -/
def TakesKeys (hint : ProtocolHint) : Prop :=
  assocFamily hint.label = lit "dmr" ∨ assocFamily hint.label = lit "auto"

instance (hint : ProtocolHint) : Decidable (TakesKeys hint) := inferInstanceAs (Decidable (_ ∨ _))

/-- **The stored keys of a stream** on a channel; a Basic Privacy number that the client gives goes
first. -/
def KeyStore.streamKeys (st : KeyStore) (hint : ProtocolHint) (keyType : KeyType) (chf : ℤ) :
    StreamKeys :=
  if TakesKeys hint then
    { bp := if keyType ≠ .bp then st.bpForFreq (lit "dmr") chf else 0
      ep := st.netKeyForFreq (lit "ep") (lit "dmr") chf
      forced := st.forcedNetKeyForFreq (lit "dmr") chf }
  else {}

/-- The decoder's option for a kind. -/
def forcedFlag (kind : Bytes) : Option Bytes :=
  [(lit "tytep", lit "-5"), (lit "tytbp", lit "-2"), (lit "anybp", lit "-A"),
    (lit "tytap", lit "-!"), (lit "bfap", lit "-+"), (lit "rtap", lit "-@")].lookup kind

/-- A key in words of 64 bits. -/
def keyWords (v : Bytes) : Bytes :=
  [ch ' '].intercalate ((List.range ((v.length + 15) / 16)).map fun i => (v.drop (16 * i)).take 16)

/-- **The decoder's options** for the keys; a kind without one is an error. -/
def StreamKeys.args (k : StreamKeys) : Option (List Bytes) :=
  let bp := if k.bp ≠ 0 then [lit "-b", decInt k.bp] else []
  if k.forced.1 = [] then some bp else (forcedFlag k.forced.1).map fun flag => bp ++
    [flag, keyWords k.forced.2]

/-! ## Names and frequencies

A number is written without the mark, so the end of a name after its last mark is the frequency, if
it is one. -/

theorem not_mem_decInt (i : ℤ) : ch '@' ∉ decInt i := by
  have hdec : ∀ n, ch '@' ∉ dec n := fun n h => absurd (mjson.isDigit_dec h).2 (by decide)
  rw [decInt]
  split_ifs
  · rw [List.mem_cons, not_or]
    exact ⟨by decide, hdec _⟩
  · exact hdec _

/-- **A network is on one frequency.** -/
theorem netOnFreq_unique {net : Bytes} {f g : ℤ} (hf : netOnFreq net f) (hg : netOnFreq net g) :
    f = g := by
  have hcut : ∀ {a b : ℤ}, ch '@' :: decInt a <:+ ch '@' :: decInt b → a = b := by
    intro a b h
    rcases List.suffix_cons_iff.1 h with h | h
    · have hs := congrArg assoclog.stoll (List.cons.inj h).2
      rwa [stoll_decInt, stoll_decInt, Option.some.injEq] at hs
    · exact absurd (h.subset List.mem_cons_self) (not_mem_decInt b)
  rcases List.suffix_or_suffix_of_suffix (List.isSuffixOf_iff_suffix.1 hf)
      (List.isSuffixOf_iff_suffix.1 hg) with h | h
  · exact hcut h
  · exact (hcut h).symm

/-- A network on a frequency has it. -/
def StoredOn {V : Type} (m : SortedMap Bytes V) (freqHz : ℤ) (v : V) : Prop :=
  ∃ net, netOnFreq net freqHz = true ∧ m.find? net = some v

section FirstOn

variable {V : Type} {m m' : SortedMap Bytes V} {f : ℤ} {v : V}

/-- It is the first of those on the frequency. -/
theorem firstOn_eq_filter (m : SortedMap Bytes V) (f : ℤ) :
    firstOn m f = (m.filter fun net _ => netOnFreq net f).entries.head?.map Prod.snd := by
  rw [firstOn, ← List.head?_filter]
  rfl

theorem storedOn_of_firstOn (h : firstOn m f = some v) : StoredOn m f v := by
  obtain ⟨e, he, rfl⟩ := Option.map_eq_some_iff.1 h
  have hon := List.find?_some he
  exact ⟨e.1, hon, SortedMap.find?_eq_some_iff.2 (List.mem_of_find?_eq_some he)⟩

/-- Where nothing is found, nothing is stored. -/
theorem not_storedOn_of_firstOn (h : firstOn m f = none) (v : V) : ¬StoredOn m f v := by
  rintro ⟨net, hon, hv⟩
  have hnone := List.find?_eq_none.1 (Option.map_eq_none_iff.1 h) _
    (SortedMap.find?_eq_some_iff.1 hv)
  exact hnone hon

/-- What is on a frequency decides what comes first there. -/
theorem firstOn_congr (h : ∀ net, netOnFreq net f = true → m.find? net = m'.find? net) :
    firstOn m f = firstOn m' f := by
  rw [firstOn_eq_filter, firstOn_eq_filter]
  refine congrArg (fun m : SortedMap Bytes V => m.entries.head?.map Prod.snd)
    (SortedMap.ext_find? fun net => ?_)
  rw [SortedMap.find?_filter, SortedMap.find?_filter]
  by_cases hon : netOnFreq net f = true
  · rw [h net hon]
  · simp [hon]

/-- The only network on a frequency comes first. -/
theorem firstOn_of_alone {net : Bytes} (hon : netOnFreq net f = true) (hv : m.find? net = some v)
    (halone : ∀ other ∈ m, netOnFreq other f = true → other = net) : firstOn m f = some v := by
  cases hfirst : firstOn m f with
  | none => exact absurd ⟨net, hon, hv⟩ (not_storedOn_of_firstOn hfirst v)
  | some w =>
    obtain ⟨other, hother, hw⟩ := storedOn_of_firstOn hfirst
    rw [halone other (SortedMap.mem_of_find? hw) hother, hv] at hw
    exact hw.symm

end FirstOn

/-! ## What setting a key does

A forced key takes the place of the others of its network.  What it does to lookups is said by
network: its own, and those that keep what they had. -/

namespace KeyStore

variable {st st' : KeyStore} {kind fam net value : Bytes}

/-- The other networks keep their keys. -/
theorem find?_eraseNetKey_ne {n : Bytes} (hn : n ≠ net) (k f : Bytes) :
    ((st.eraseNetKey kind fam net).netKeysOf k f).find? n = (st.netKeysOf k f).find? n := by
  rw [netKeysOf_eraseNetKey]
  split_ifs with hc
  · rw [SortedMap.find?_erase_ne _ hn, hc.1, hc.2]
  · rfl

/-- The keys of other networks are left. -/
theorem find?_dropForced_ne {n : Bytes} (hn : n ≠ net) (k f : Bytes) :
    ((st.dropForced kind fam net).netKeysOf k f).find? n = (st.netKeysOf k f).find? n := by
  rw [dropForced]
  refine List.foldlRecOn (motive := fun st' : KeyStore => (st'.netKeysOf k f).find? n =
    (st.netKeysOf k f).find? n) _ _
    rfl fun st' h o _ => ?_
  rw [find?_eraseNetKey_ne hn, h]

/-- The Basic Privacy numbers are left. -/
theorem bp_dropForced (st : KeyStore) (kind fam net : Bytes) :
    (st.dropForced kind fam net).bp = st.bp := by
  rw [dropForced]
  refine List.foldlRecOn (motive := fun st' : KeyStore => st'.bp = st.bp) _ _
    rfl fun st' h o _ => ?_
  rw [(st'.keys_eraseNetKey o.id fam net).2, h]

/-- The network's other forced keys go. -/
theorem not_mem_dropForced {o : NetKeyKind} (ho : o ∈ netKeyKinds) (hf : o.forced = true)
    (hne : o.id ≠ kind) :
    net ∉ (st.dropForced kind fam net).netKeysOf o.id fam := by
  have h : ∀ (l : List NetKeyKind) (st : KeyStore), o ∈ l ∨ net ∉ st.netKeysOf o.id fam →
      net ∉ (l.foldl (fun st o => st.eraseNetKey o.id fam net) st).netKeysOf o.id fam := by
    intro l
    induction l with
    | nil => exact fun st h => h.resolve_left List.not_mem_nil
    | cons p l ih =>
      intro st h
      rw [List.foldl_cons]
      apply ih
      rcases h with h | h
      · rcases List.mem_cons.1 h with rfl | h
        · exact Or.inr fun hm => (mem_netKeysOf_eraseNetKey hm).2 ⟨rfl, rfl, rfl⟩
        · exact Or.inl h
      · exact Or.inr fun hm => h (mem_netKeysOf_eraseNetKey hm).1
  exact h _ st (Or.inl (List.mem_filter.2 ⟨ho, by simp [hf, hne]⟩))

/-- What is stored after a key is put in. -/
theorem netKeysOf_put (st : KeyStore) (kind fam net v k f : Bytes) (n : ℕ) :
    ({ st with
        netKeys := st.netKeys.insert kind (put (st.netKeys.getD kind ∅) fam net v)
        version := n } : KeyStore).netKeysOf k f =
      if k = kind ∧ f = fam then (st.netKeysOf kind fam).insert net v else st.netKeysOf k f := by
  rw [netKeysOf]
  dsimp only
  rw [SortedMap.getD_insert]
  by_cases hk : k = kind
  · rw [if_pos hk, put, SortedMap.getD_insert]
    by_cases hf : f = fam
    · rw [if_pos hf, if_pos ⟨hk, hf⟩]
      rfl
    · rw [if_neg hf, if_neg fun h => hf h.2, hk]
      rfl
  · rw [if_neg hk, if_neg fun h => hk h.1]
    rfl

/-- What holds once a network has been given a key. -/
structure KeySet (st st' : KeyStore) (kind fam net : Bytes) (k : NetKeyKind) (v : Bytes) :
    Prop where
  bp : st'.bp = st.bp
  here : (st'.netKeysOf kind fam).find? net = some v
  elsewhere : ∀ k f n, n ≠ net → (st'.netKeysOf k f).find? n = (st.netKeysOf k f).find? n
  forced : k.forced = true → ∀ o ∈ netKeyKinds, o.forced = true → o.id ≠ kind →
    net ∉ st'.netKeysOf o.id fam

/-- **What setting a per-network key does.** -/
theorem keySet_setNetKey (h : st.setNetKey kind fam net value = some st') :
    ∃ k, netKeyKind kind = some k ∧ netKeyNorm k value ≠ [] ∧
      KeySet st st' kind fam net k (netKeyNorm k value) := by
  rw [setNetKey] at h
  cases hk : netKeyKind kind with
  | none =>
    rw [hk] at h
    cases h
  | some k =>
    rw [hk] at h
    dsimp only at h
    split_ifs at h with hc hforced
    · rw [not_or, not_or] at hc
      rw [Option.some.injEq] at h
      subst h
      refine ⟨k, rfl, hc.2.2, st.bp_dropForced kind fam net, ?_, fun k' f n hn => ?_,
        fun _ o ho hf hne => ?_⟩
      · rw [netKeysOf_put, if_pos ⟨rfl, rfl⟩, SortedMap.find?_insert, if_pos rfl]
      · rw [netKeysOf_put]
        split_ifs with hkf
        · rw [SortedMap.find?_insert_ne _ _ hn, find?_dropForced_ne hn, hkf.1, hkf.2]
        · exact find?_dropForced_ne hn k' f
      · rw [netKeysOf_put, if_neg fun h => hne h.1]
        exact not_mem_dropForced ho hf hne
    · rw [not_or, not_or] at hc
      rw [Option.some.injEq] at h
      subst h
      refine ⟨k, rfl, hc.2.2, rfl, ?_, fun k' f n hn => ?_, fun hf => absurd hf hforced⟩
      · rw [netKeysOf_put, if_pos ⟨rfl, rfl⟩, SortedMap.find?_insert, if_pos rfl]
      · rw [netKeysOf_put]
        split_ifs with hkf
        · rw [SortedMap.find?_insert_ne _ _ hn, hkf.1, hkf.2]
        · rfl

/-! ## Lookups -/

variable {f : ℤ}

/-- A key for a frequency depends on the networks on it only. -/
theorem netKeyForFreq_congr (h : ∀ net, netOnFreq net f = true →
    (st.netKeysOf kind fam).find? net = (st'.netKeysOf kind fam).find? net) :
    st.netKeyForFreq kind fam f = st'.netKeyForFreq kind fam f := by
  rw [netKeyForFreq, netKeyForFreq, firstOn_congr h]

/-- The key of the only network on a frequency is the one for it. -/
theorem netKeyForFreq_of_alone {v : Bytes} (hf : 0 < f) (hon : netOnFreq net f = true)
    (hv : (st.netKeysOf kind fam).find? net = some v)
    (halone : ∀ other ∈ st.netKeysOf kind fam, netOnFreq other f = true → other = net) :
    st.netKeyForFreq kind fam f = v := by
  rw [netKeyForFreq, if_neg (not_le.2 hf), firstOn_of_alone hon hv halone]
  rfl

/-- Where no network is on a frequency there is no key for it. -/
theorem netKeyForFreq_of_none (h : ∀ other ∈ st.netKeysOf kind fam, netOnFreq other f ≠ true) :
    st.netKeyForFreq kind fam f = [] := by
  rw [netKeyForFreq]
  split_ifs
  · rfl
  · cases hfirst : firstOn (st.netKeysOf kind fam) f with
    | none => rfl
    | some v =>
      obtain ⟨other, hon, hv⟩ := storedOn_of_firstOn hfirst
      exact absurd hon (h other (SortedMap.mem_of_find? hv))

/-- A key that is found is stored for a network on the frequency. -/
theorem storedOn_netKeyForFreq (h : st.netKeyForFreq kind fam f ≠ []) :
    StoredOn (st.netKeysOf kind fam) f (st.netKeyForFreq kind fam f) := by
  rw [netKeyForFreq] at h ⊢
  split_ifs at h ⊢
  · exact absurd rfl h
  · cases hfirst : firstOn (st.netKeysOf kind fam) f with
    | none =>
      rw [hfirst] at h
      exact absurd rfl h
    | some v => exact storedOn_of_firstOn hfirst

/-- One kind's key is the forced one when the other kinds have none. -/
theorem forcedNetKeyForFreq_of_only {k : NetKeyKind} (hk : k ∈ netKeyKinds)
    (hforced : k.forced = true) (hv : st.netKeyForFreq k.id fam f ≠ [])
    (hother : ∀ o ∈ netKeyKinds, o.forced = true → o.id ≠ k.id → st.netKeyForFreq o.id fam f = []) :
    st.forcedNetKeyForFreq fam f = (k.id, st.netKeyForFreq k.id fam f) := by
  rw [forcedNetKeyForFreq]
  cases hfind : netKeyKinds.find? fun k => k.forced ∧ st.netKeyForFreq k.id fam f ≠ [] with
  | none => exact absurd (decide_eq_true ⟨hforced, hv⟩) (List.find?_eq_none.1 hfind k hk)
  | some o =>
    have hfound := List.find?_some hfind
    obtain ⟨ho, hne⟩ := of_decide_eq_true hfound
    have hid : o.id = k.id := by
      by_contra hid
      exact hne (hother o (List.mem_of_find?_eq_some hfind) ho hid)
    dsimp only
    rw [hid]

end KeyStore

/-! ## A channel's network

A network that the explorer names by its channel is on that channel's frequency, and on no other. -/

/-- A name that ends in a frequency is on it. -/
theorem netOnFreq_append (s : Bytes) (f : ℤ) : netOnFreq (s ++ ch '@' :: decInt f) f = true :=
  List.isSuffixOf_iff_suffix.2 (List.suffix_append s _)

/-- What is derived from identifiers is no channel's name. -/
theorem derive_conf (fam : Bytes) (ids : SortedMap Bytes Bytes) :
    (derive fam ids).conf ≠ lit "channel" := by
  have hstrong : lit "strong" ≠ lit "channel" := by decide
  have hweak : lit "weak" ≠ lit "channel" := by decide
  have hnone : ([] : Bytes) ≠ lit "channel" := by decide
  rw [derive]
  dsimp only
  split_ifs <;> first | exact hstrong | exact hweak | exact hnone

/-- **The network of a channel is on its frequency.** -/
theorem netOnFreq_networkId {c : Ctx} {sid : ℕ} {F : Family}
    (h : (networkId c sid F).conf = lit "channel") :
    netOnFreq (networkId c sid F).key c.freq = true := by
  have hderive := derive_conf c.family c.ids
  rw [networkId] at h ⊢
  dsimp only at h ⊢
  by_cases hkey : (derive c.family c.ids).key = []
  · rw [if_pos hkey] at h ⊢
    by_cases hfreq : c.freq ≠ 0
    · rw [if_pos hfreq]
      exact netOnFreq_append (lit "ch") c.freq
    · have hnone : lit "none" ≠ lit "channel" := by decide
      rw [if_neg hfreq] at h
      exact absurd h hnone
  · rw [if_neg hkey] at h ⊢
    by_cases hweak : (derive c.family c.ids).conf = lit "weak"
    · rw [if_pos hweak] at h ⊢
      have hkeyed : (derive c.family c.ids).key ++ lit "@" ++ decInt c.freq =
          (derive c.family c.ids).key ++ ch '@' :: decInt c.freq := List.append_assoc _ [ch '@'] _
      generalize (if c.family = lit "p25" then
        strongWith F (derive c.family c.ids).weakKey (derive c.family c.ids).weakVal else []) =
          matching at h ⊢
      by_cases hfreq : c.freq ≠ 0
      · rcases matching with _ | ⟨m, _ | ⟨m', ms⟩⟩
        · simp only [hfreq, if_true, hkeyed, netOnFreq_append, ne_eq, not_false_eq_true]
        · exact absurd h hderive
        · simp only [hfreq, if_true, hkeyed, netOnFreq_append, ne_eq, not_false_eq_true]
      · rcases matching with _ | ⟨m, _ | ⟨m', ms⟩⟩
        · simp only [hfreq, if_false] at h
          exact absurd h hderive
        · exact absurd h hderive
        · simp only [hfreq, if_false] at h
          exact absurd h hderive
    · rw [if_neg hweak] at h
      exact absurd h hderive

/-- **A key set for a channel's network** is the one that the channel's streams are given, where no
other network of the channel has such a key; the streams of every other channel are given what they
were given before. -/
theorem channel_key {c : Ctx} {sid : ℕ} {F : Family} (hfreq : 0 < c.freq)
    (hconf : (networkId c sid F).conf = lit "channel") {st st' : KeyStore} {kind value : Bytes}
    (h : st.setNetKey kind (lit "dmr") (networkId c sid F).key value = some st')
    (hint : ProtocolHint) (keyType : KeyType) :
    (∀ chf, chf ≠ c.freq → st'.streamKeys hint keyType chf = st.streamKeys hint keyType chf) ∧
    ∃ k, netKeyKind kind = some k ∧ (TakesKeys hint →
      (∀ o ∈ netKeyKinds, o.forced = k.forced → ∀ other ∈ st.netKeysOf o.id (lit "dmr"),
        netOnFreq other c.freq = true → other = (networkId c sid F).key) →
      if k.forced then (st'.streamKeys hint keyType c.freq).forced = (kind, netKeyNorm k value)
      else (st'.streamKeys hint keyType c.freq).ep = netKeyNorm k value) := by
  have hon := netOnFreq_networkId hconf
  obtain ⟨k, hk, hv, hset⟩ := KeyStore.keySet_setNetKey h
  obtain ⟨hmem, hid⟩ := KeyStore.netKeyKind_id hk
  refine ⟨fun chf hne => ?_, k, hk, fun hkeyed halone => ?_⟩
  · have hsame : ∀ kind, st'.netKeyForFreq kind (lit "dmr") chf = st.netKeyForFreq kind
        (lit "dmr") chf := fun kind =>
      KeyStore.netKeyForFreq_congr fun net hnet => hset.elsewhere kind _ net fun he =>
        hne (netOnFreq_unique hnet (he ▸ hon))
    rw [KeyStore.streamKeys, KeyStore.streamKeys, KeyStore.forcedNetKeyForFreq,
      KeyStore.forcedNetKeyForFreq, KeyStore.bpForFreq, KeyStore.bpForFreq, hset.bp]
    simp only [hsame]
  · have hothers : ∀ o ∈ netKeyKinds, o.forced = k.forced →
        ∀ other ∈ st'.netKeysOf o.id (lit "dmr"),
        netOnFreq other c.freq = true → other = (networkId c sid F).key := by
      intro o ho hf other hin hother
      by_contra hne
      refine hne (halone o ho hf other ?_ hother)
      obtain ⟨v, hv⟩ := SortedMap.mem_iff_find?.1 hin
      exact SortedMap.mem_of_find? ((hset.elsewhere o.id _ other hne).symm.trans hv)
    have hval : st'.netKeyForFreq kind (lit "dmr") c.freq = netKeyNorm k value :=
      KeyStore.netKeyForFreq_of_alone hfreq hon hset.here (hid ▸ hothers k hmem rfl)
    rw [KeyStore.streamKeys, if_pos hkeyed]
    cases hforced : k.forced with
    | true =>
      rw [if_pos rfl]
      change st'.forcedNetKeyForFreq _ _ = _
      rw [KeyStore.forcedNetKeyForFreq_of_only hmem hforced (by rw [hid, hval]; exact hv) fun o ho
        hf hne => ?_, hid, hval]
      refine KeyStore.netKeyForFreq_of_none fun other hin hother => ?_
      rw [hothers o ho (hf.trans hforced.symm) other hin hother] at hin
      exact hset.forced hforced o ho hf (hid ▸ hne) hin
    | false =>
      rw [if_neg Bool.false_ne_true]
      have hep : ∀ k ∈ netKeyKinds, k.forced = false → k.id = lit "ep" := by decide
      change st'.netKeyForFreq (lit "ep") _ _ = _
      rw [← hep k hmem hforced, hid, hval]

/-- A key for a channel on which nothing has been identified. -/
theorem channel_key_unidentified :
    ∃ st', ({} : KeyStore).setNetKey (lit "tytep") (lit "dmr") (lit "ch@440425000")
      (lit "1F") = some st' ∧
    (st'.streamKeys .dmr .none 440425000).forced = (lit "tytep", padded 32 (lit "1F")) := by
  obtain ⟨st', h⟩ : ∃ st', ({} : KeyStore).setNetKey (lit "tytep") (lit "dmr") (lit "ch@440425000")
      (lit "1F") =
      some st' := Option.isSome_iff_exists.1 (by decide)
  obtain ⟨-, k, hk, hkey⟩ := @channel_key { freq := 440425000 } 1 {} (by decide) (by decide)
    {} st' _ _ h .dmr .none
  obtain rfl : ⟨lit "tytep", 32, true, false⟩ = k := Option.some.inj hk
  exact ⟨st', h, hkey (by decide) fun o _ _ other hin => absurd hin (SortedMap.not_mem_empty other)⟩

/-! ## Whatever is entered, removed and loaded

Form and range are kept by every operation and by every file that is loaded.  So what is found for a
stream, after any history, is in form too. -/

/-- The Basic Privacy numbers are numbers of keys. -/
def KeyStore.FormedBp (st : KeyStore) : Prop :=
  st.bp.Each fun _ => SortedMap.Full fun _ n => 1 ≤ n ∧ n ≤ 255

namespace KeyStore.FormedBp

variable {st : KeyStore}

theorem step (h : st.FormedBp) (op : KeyOp) : (st.step op).FormedBp := by
  cases op with
  | setKey fam net kid alg value now =>
    rw [KeyStore.step, KeyStore.setKey]
    cases keyringSet st.keys fam net kid alg value now <;> exact h
  | removeKey fam net kid =>
    rw [KeyStore.step, KeyStore.removeKey]
    cases keyringRemove st.keys fam net kid <;> exact h
  | setBp fam net number =>
    rw [KeyStore.step, KeyStore.setBp]
    split_ifs with hc
    · exact h
    · rw [not_or, not_or, not_or, not_lt, not_lt] at hc
      exact each_put h hc.2.2
  | removeBp fam net =>
    rw [KeyStore.step, KeyStore.removeBp]
    cases hf : st.bp.find? fam with
    | none => exact h
    | some f =>
      dsimp only
      split_ifs
      · exact SortedMap.Each.replace (Q := fun _ _ n => 1 ≤ n ∧ n ≤ 255) h
          ((h fam f hf).each.erase net)
      · exact h
  | setNetKey kind fam net value =>
    rw [KeyStore.step]
    cases hs : st.setNetKey kind fam net value with
    | none => exact h
    | some st' =>
      obtain ⟨_, _, _, hset⟩ := keySet_setNetKey hs
      rw [Option.getD_some, FormedBp, hset.bp]
      exact h
  | removeNetKey kind fam net =>
    rw [KeyStore.step, KeyStore.removeNetKey]
    split_ifs
    · rw [Option.getD_some, FormedBp, (st.keys_eraseNetKey kind fam net).2]
      exact h
    · exact h

theorem input (h : st.FormedBp) (i : KeyInput) : (st.input i).FormedBp := by
  cases i with
  | op op => exact h.step op
  | load text =>
    rw [KeyStore.input, useKeysFile]
    split
    · exact h
    · split_ifs
      · exact h
      · refine List.foldlRecOn _ _ SortedMap.each_empty fun m hm fk _ => ?_
        refine List.foldlRecOn _ _ hm fun m hm nk _ => ?_
        rw [readBp]
        split
        · split_ifs with hn
          · exact each_put hm hn
          · exact hm
        · exact hm

/-- **So the Basic Privacy numbers are in range**, after whatever was entered. -/
theorem run {is : List KeyInput} :
    ∀ {st : KeyStore}, st.FormedBp → (is.foldl KeyStore.input st).FormedBp := by
  induction is with
  | nil => exact fun h => h
  | cons i is ih => exact fun h => ih (h.input i)

end KeyStore.FormedBp

/-- **The keys a stream should be given**: each one it has is stored for a network of its channel,
in normal form, and each one it lacks is not. -/
structure StreamKeys.Right (st : KeyStore) (keyType : KeyType) (chf : ℤ) (k : StreamKeys) :
    Prop where
  bp : k.bp ≠ 0 → keyType ≠ .bp ∧ (1 ≤ k.bp ∧ k.bp ≤ 255) ∧
    StoredOn (st.bp.getD (lit "dmr") ∅) chf k.bp
  no_bp : k.bp = 0 → keyType = .bp ∨ ∀ n, ¬StoredOn (st.bp.getD (lit "dmr") ∅) chf n
  ep : k.ep ≠ [] → NormalSecret (lit "ep") k.ep ∧
    StoredOn (st.netKeysOf (lit "ep") (lit "dmr")) chf k.ep
  no_ep : k.ep = [] → ∀ v, ¬StoredOn (st.netKeysOf (lit "ep") (lit "dmr")) chf v
  forced : k.forced ≠ ([], []) → ∃ o, netKeyKind k.forced.1 = some o ∧ o.forced = true ∧
    netKeyNorm o k.forced.2 = k.forced.2 ∧
    StoredOn (st.netKeysOf k.forced.1 (lit "dmr")) chf k.forced.2
  no_forced : k.forced = ([], []) → ∀ o ∈ netKeyKinds, o.forced = true →
    ∀ v, ¬StoredOn (st.netKeysOf o.id (lit "dmr")) chf v

namespace KeyStore

variable {st : KeyStore} {kind fam : Bytes} {f : ℤ}

theorem normalSecret_of_storedOn (h : st.FormedSecrets) {v : Bytes}
    (hv : StoredOn (st.netKeysOf kind fam) f v) :
    NormalSecret kind v := by
  obtain ⟨net, -, hv⟩ := hv
  have hm :=
    SortedMap.Each.getD_full (Q := fun kind _ => SortedMap.Full fun _ => NormalSecret kind) h kind
  exact hm.getD_full (Q := fun _ _ => NormalSecret kind) fam net v hv

/-- A kind without a key for the frequency has none stored there. -/
theorem not_storedOn_of_netKeyForFreq (h : st.FormedSecrets) (hf : 0 < f)
    (hnil : st.netKeyForFreq kind fam f = []) (v : Bytes) :
    ¬StoredOn (st.netKeysOf kind fam) f v := by
  rw [netKeyForFreq, if_neg (not_le.2 hf)] at hnil
  cases hfirst : firstOn (st.netKeysOf kind fam) f with
  | none => exact not_storedOn_of_firstOn hfirst v
  | some w =>
    rw [hfirst] at hnil
    obtain ⟨-, -, -, hne⟩ := normalSecret_of_storedOn h (storedOn_of_firstOn hfirst)
    exact absurd hnil hne

/-- The forced key is none, or one of a forced kind. -/
theorem forcedNetKeyForFreq_cases (st : KeyStore) (fam : Bytes) (f : ℤ) :
    (st.forcedNetKeyForFreq fam f = ([], []) ∧
      ∀ o ∈ netKeyKinds, o.forced = true → st.netKeyForFreq o.id fam f = []) ∨
    ∃ o ∈ netKeyKinds, o.forced = true ∧ st.netKeyForFreq o.id fam f ≠ [] ∧
      st.forcedNetKeyForFreq fam f = (o.id, st.netKeyForFreq o.id fam f) := by
  rw [forcedNetKeyForFreq]
  cases hfind : netKeyKinds.find? fun k => k.forced ∧ st.netKeyForFreq k.id fam f ≠ [] with
  | none =>
    refine Or.inl ⟨rfl, fun o ho hf => ?_⟩
    by_contra hne
    exact List.find?_eq_none.1 hfind o ho (decide_eq_true ⟨hf, hne⟩)
  | some o =>
    have hfound := List.find?_some hfind
    obtain ⟨ho, hne⟩ := of_decide_eq_true hfound
    exact Or.inr ⟨o, List.mem_of_find?_eq_some hfind, ho, hne, rfl⟩

/-- A number that is on a frequency is a key's. -/
theorem formedBp_of_storedOn (h : st.FormedBp) {n : ℤ} (hn : StoredOn (st.bp.getD fam ∅) f n) :
    1 ≤ n ∧ n ≤ 255 := by
  obtain ⟨net, -, hn⟩ := hn
  exact SortedMap.Each.getD_full (Q := fun _ _ n => 1 ≤ n ∧ n ≤ 255) h fam net n hn

/-- **The keys of a stream are right**, where the stores are in form. -/
theorem right_streamKeys (hsecrets : st.FormedSecrets) (hbp : st.FormedBp) {hint : ProtocolHint}
    (hkeyed : TakesKeys hint) (keyType : KeyType) (hf : 0 < f) :
    (st.streamKeys hint keyType f).Right st keyType f := by
  have hids : ∀ o ∈ netKeyKinds, o.id ≠ [] ∧ netKeyKind o.id = some o := by decide
  rw [streamKeys, if_pos hkeyed]
  refine ⟨fun hne => ?_, fun hzero => ?_, fun hne => ?_, not_storedOn_of_netKeyForFreq hsecrets hf,
    fun hne => ?_, fun hnil o ho hforced => ?_⟩
  · dsimp only at hne ⊢
    split_ifs at hne ⊢ with hkt
    · refine ⟨hkt, ?_⟩
      rw [bpForFreq, if_neg (not_le.2 hf)] at hne ⊢
      cases hfirst : firstOn (st.bp.getD (lit "dmr") ∅) f with
      | none =>
        rw [hfirst] at hne
        exact absurd rfl hne
      | some n =>
        exact ⟨formedBp_of_storedOn hbp (storedOn_of_firstOn hfirst), storedOn_of_firstOn hfirst⟩
    · exact absurd rfl hne
  · dsimp only at hzero
    split_ifs at hzero with hkt
    · right
      rw [bpForFreq, if_neg (not_le.2 hf)] at hzero
      cases hfirst : firstOn (st.bp.getD (lit "dmr") ∅) f with
      | none => exact not_storedOn_of_firstOn hfirst
      | some n =>
        rw [hfirst] at hzero
        have hrange := formedBp_of_storedOn hbp (storedOn_of_firstOn hfirst)
        rw [Option.getD_some] at hzero
        omega
    · exact Or.inl (not_not.1 hkt)
  · have hstored := storedOn_netKeyForFreq hne
    exact ⟨normalSecret_of_storedOn hsecrets hstored, hstored⟩
  · dsimp only at hne ⊢
    rcases st.forcedNetKeyForFreq_cases (lit "dmr") f with ⟨hnil, -⟩ | ⟨o, ho, hforced, hv, heq⟩
    · exact absurd hnil hne
    · rw [heq]
      have hstored := storedOn_netKeyForFreq hv
      obtain ⟨k, hk, hnorm, -⟩ := normalSecret_of_storedOn hsecrets hstored
      obtain rfl : k = o := Option.some.inj (hk.symm.trans (hids o ho).2)
      exact ⟨k, hk, hforced, hnorm, hstored⟩
  · dsimp only at hnil
    rcases st.forcedNetKeyForFreq_cases (lit "dmr") f with ⟨-, hnone⟩ | ⟨o', ho', -, -, heq⟩
    · exact not_storedOn_of_netKeyForFreq hsecrets hf (hnone o ho hforced)
    · exact absurd (congrArg Prod.fst (heq.symm.trans hnil)) (hids o' ho').1

end KeyStore

/-- Every kind that can be found has its option. -/
theorem isSome_args (st : KeyStore) (hint : ProtocolHint) (keyType : KeyType) (chf : ℤ) :
    (st.streamKeys hint keyType chf).args.isSome = true := by
  have hflag : ∀ o ∈ netKeyKinds, o.forced = true → (forcedFlag o.id).isSome = true := by decide
  rw [StreamKeys.args]
  by_cases hnil : (st.streamKeys hint keyType chf).forced.1 = []
  · rw [if_pos hnil]
    rfl
  · rw [if_neg hnil, Option.isSome_map]
    rw [KeyStore.streamKeys] at hnil ⊢
    by_cases hkeyed : TakesKeys hint
    · rw [if_pos hkeyed] at hnil ⊢
      rcases st.forcedNetKeyForFreq_cases (lit "dmr") chf with ⟨hnone, -⟩ | ⟨o, ho, hforced, -, heq⟩
      · exact absurd (congrArg Prod.fst hnone) hnil
      · dsimp only
        rw [heq]
        exact hflag o ho hforced
    · rw [if_neg hkeyed] at hnil
      exact absurd rfl hnil

/-- **A stream is given the keys of its channel**, whatever has been entered, removed and loaded: a
DMR stream, or one whose protocol is not known yet, has those that are stored for a network of its
frequency, every other stream has none, and the decoder has an option for each. -/
theorem stream_keys (is : List KeyInput) (hint : ProtocolHint) (keyType : KeyType) (chf : ℤ) :
    let st := is.foldl KeyStore.input {}
    let k := st.streamKeys hint keyType chf
    k.args.isSome = true ∧ (TakesKeys hint → 0 < chf → k.Right st keyType chf) ∧
      (¬TakesKeys hint ∨ chf ≤ 0 → k = {}) := by
  intro st k
  refine ⟨isSome_args st hint keyType chf, fun hkeyed hf => ?_, fun hnone => ?_⟩
  · have hsecrets : KeyStore.FormedSecrets {} := SortedMap.each_empty
    have hbp : KeyStore.FormedBp {} := SortedMap.each_empty
    exact KeyStore.right_streamKeys hsecrets.run hbp.run hkeyed keyType hf
  · change st.streamKeys hint keyType chf = {}
    rw [KeyStore.streamKeys]
    by_cases hkeyed : TakesKeys hint
    · have hf := hnone.resolve_left (not_not.2 hkeyed)
      have hnil : ∀ kind, st.netKeyForFreq kind (lit "dmr") chf = [] := fun kind => if_pos hf
      rcases st.forcedNetKeyForFreq_cases (lit "dmr") chf with ⟨hforced, -⟩ | ⟨o, -, -, hne, -⟩
      · rw [if_pos hkeyed, hforced, hnil, KeyStore.bpForFreq, if_pos hf, ite_self]
      · exact absurd (hnil o.id) hne
    · exact if_neg hkeyed

end DsdServer
