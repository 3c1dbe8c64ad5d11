import DsdServer.Server.KeyFile

/-!
# Server/KeyForms — normal forms of keys

A normal form is fixed by the normalisation it comes from.  The keys held are in normal form, no map
of them is empty, and no network has two forced keys; every operation keeps that.

* `KeyStore.Normal.run` — **whatever is set and removed, what is held is in normal form.**

Normal forms matter in two places: the file is read by normalising again, and the list for a decoder
is looked up by numbers.  Both need that nothing is held which a normalisation would change.
-/

open Bytes

namespace DsdServer

/-! ## Normal forms are fixed

To normalise twice is to normalise once.  That is what makes the file a round trip: what was
normalised when it was entered is normalised again when it is read. -/

/-- A hexadecimal digit, in upper case. -/
def UpperHex (c : UInt8) : Prop := isXdigit c ∧ isLower c = false

instance (c : UInt8) : Decidable (UpperHex c) := inferInstanceAs (Decidable (_ ∧ _))

theorem upperHex_upper {c : UInt8} (h : isXdigit c = true) :
    UpperHex (if isLower c then c - 32 else c) := by
  revert h
  exact forall_byte (P := fun c => isXdigit c = true → UpperHex (if isLower c then c - 32 else c))
    (by decide +kernel) c

/-- A hex digit is no blank, and not the mark of a hex number. -/
theorem UpperHex.plain {c : UInt8} (h : UpperHex c) :
    mjson.isSpace c = false ∧ c ≠ ch 'x' ∧ c ≠ ch 'X' := by
  revert h
  exact forall_byte (P := fun c => UpperHex c → mjson.isSpace c = false ∧ c ≠ ch 'x' ∧ c ≠ ch 'X')
    (by decide +kernel) c

/-- Hexadecimal digits in upper case. -/
def UpperHexes (s : Bytes) : Prop := ∀ c ∈ s, UpperHex c

/-- Upper-cased hex digits are upper-case hex digits. -/
theorem upperHexes_upper {s : Bytes} (h : s.all isXdigit = true) : UpperHexes (upper s) := by
  intro c hc
  obtain ⟨d, hd, rfl⟩ := List.mem_map.1 hc
  exact upperHex_upper (List.all_eq_true.1 h d hd)

/-- Zeros in front are hex digits too. -/
theorem upperHexes_padded {s : Bytes} (h : UpperHexes s) (n : ℕ) : UpperHexes (padded n s) := by
  intro c hc
  rcases List.mem_append.1 hc with hc | hc
  · rw [List.eq_of_mem_replicate hc]
    decide
  · exact h c hc

namespace UpperHexes

variable {s : Bytes}

theorem all (h : UpperHexes s) : s.all isXdigit = true := List.all_eq_true.2 fun c hc => (h c hc).1

theorem upper_eq (h : UpperHexes s) : upper s = s := by
  refine (List.map_congr_left fun c hc => ?_).trans (List.map_id s)
  rw [(h c hc).2]
  rfl

theorem strip_eq (h : UpperHexes s) : strip s = s :=
  List.filter_eq_self.2 fun c hc => by rw [(h c hc).plain.1]; rfl

/-- There is no mark in front of them. -/
theorem unmarked_eq (h : UpperHexes s) : unmarked s = s := by
  refine if_neg ?_
  rintro ⟨-, hp | hp⟩
  · obtain ⟨t, rfl⟩ := List.isPrefixOf_iff_prefix.1 hp
    exact (h (ch 'x') (by simp)).plain.2.1 rfl
  · obtain ⟨t, rfl⟩ := List.isPrefixOf_iff_prefix.1 hp
    exact (h (ch 'X') (by simp)).plain.2.2 rfl

end UpperHexes

/-- **A normalised key id stays as it is.** -/
theorem keyNormId_fixed (s : Bytes) : keyNormId (keyNormId s) = keyNormId s := by
  by_cases h : unmarked s = [] ∨ (!(unmarked s).all isXdigit) = true
  · have hs : keyNormId s = [] := if_pos h
    rw [hs]
    rfl
  have hs : keyNormId s = padded 2 ((upper (unmarked s)).dropWhile (· = ch '0')) := if_neg h
  set d := (upper (unmarked s)).dropWhile (· = ch '0') with hd
  rw [not_or, Bool.not_eq_true, Bool.not_eq_false'] at h
  have hup : UpperHexes d := fun c hc => upperHexes_upper h.2 c (List.dropWhile_subset _ hc)
  have hpad := upperHexes_padded hup 2
  have hne : padded 2 d ≠ [] := fun he => absurd (padded_eq_nil.1 he).1 (by decide)
  -- the padding is what is dropped
  have hdrop : (padded 2 d).dropWhile (· = ch '0') = d := by
    rw [padded, List.dropWhile_append_of_pos fun c hc =>
      decide_eq_true (List.eq_of_mem_replicate hc), hd, List.dropWhile_idempotent]
  rw [hs, keyNormId]
  rw [hpad.unmarked_eq, if_neg, hpad.upper_eq, hdrop]
  rw [not_or, Bool.not_eq_true, Bool.not_eq_false']
  exact ⟨hne, hpad.all⟩

/-- **A normalised key stays as it is.** -/
theorem keyNormValue_fixed (s : Bytes) : keyNormValue (keyNormValue s) = keyNormValue s := by
  by_cases h : strip s = [] ∨ (!(strip s).all isXdigit) = true ∨ (strip s).length % 2 ≠ 0 ∨
      64 < (strip s).length
  · have hs : keyNormValue s = [] := if_pos h
    rw [hs]
    rfl
  have hs : keyNormValue s = upper (strip s) := if_neg h
  have hall : (strip s).all isXdigit = true := by
    by_contra hno
    exact h (Or.inr (Or.inl (by rw [Bool.eq_false_of_not_eq_true hno]; rfl)))
  have hup := upperHexes_upper hall
  have hlen : (upper (strip s)).length = (strip s).length := List.length_map _
  have hnil : upper (strip s) = [] ↔ strip s = [] := List.map_eq_nil_iff
  rw [hs, keyNormValue]
  rw [hup.strip_eq, if_neg, hup.upper_eq]
  rw [hlen, hnil, hup.all]
  rwa [hall] at h

/-- A key of a kind that is one: as many digits as it takes. -/
theorem hexKeyNorm_form {s : Bytes} {n : ℕ} (h : hexKeyNorm s n ≠ []) :
    UpperHexes (hexKeyNorm s n) ∧ (hexKeyNorm s n).length = n ∧
      (hexKeyNorm s n).all (· = ch '0') = false := by
  by_cases hc : strip s = [] ∨ (!(strip s).all isXdigit) = true ∨ n < (strip s).length ∨
      (strip s).all (· = ch '0') = true
  · exact absurd (if_pos hc) h
  have hs : hexKeyNorm s n = padded n (upper (strip s)) := if_neg hc
  rw [not_or, not_or, not_or, not_lt, Bool.not_eq_true, Bool.not_eq_false', Bool.not_eq_true] at hc
  obtain ⟨-, hall, hlen, hzero⟩ := hc
  have hup := upperHexes_upper hall
  rw [hs]
  refine ⟨upperHexes_padded hup n, ?_, ?_⟩
  · rw [padded, List.length_append, List.length_replicate, upper, List.length_map]
    omega
  · obtain ⟨c, hc, hne⟩ := List.all_eq_false.1 hzero
    refine List.all_eq_false.2 ⟨_, List.mem_append_right _ (List.mem_map_of_mem hc), ?_⟩
    rw [decide_eq_true_eq] at hne ⊢
    have hx := List.all_eq_true.1 hall c hc
    revert hx hne
    exact forall_byte (P := fun c => ¬c = ch '0' → isXdigit c = true →
      ¬(if isLower c then c - 32 else c) = ch '0') (by decide +kernel) c

/-- A normalised per-network key stays as it is, for its own length. -/
theorem hexKeyNorm_fixed {s : Bytes} {n : ℕ} (h : hexKeyNorm s n ≠ []) :
    hexKeyNorm (hexKeyNorm s n) n = hexKeyNorm s n := by
  obtain ⟨hup, hlen, hzero⟩ := hexKeyNorm_form h
  set t := hexKeyNorm s n
  rw [hexKeyNorm, hup.strip_eq]
  rw [if_neg, hup.upper_eq, padded, hlen, Nat.sub_self]
  · rfl
  · rw [hup.all, hzero, hlen]
    simpa using h

/-- **A normalised per-network key stays as it is**, of whatever kind. -/
theorem netKeyNorm_fixed (k : NetKeyKind) (s : Bytes) :
    netKeyNorm k (netKeyNorm k s) = netKeyNorm k s := by
  have hfixed : ∀ n, hexKeyNorm (strip s) n ≠ [] → (n = 64 → k.allow256 = true ∨ k.digits = 64) →
      (n ≠ 64 → n = k.digits) →
        netKeyNorm k (hexKeyNorm (strip s) n) = hexKeyNorm (strip s) n := by
    intro n hne h₁ h₂
    obtain ⟨hup, hlen, -⟩ := hexKeyNorm_form hne
    rw [netKeyNorm, hup.strip_eq, hlen]
    by_cases hn : n = 64
    · split_ifs with hc
      · exact hn ▸ hexKeyNorm_fixed (hn ▸ hne)
      · rcases h₁ hn with ha | hd
        · exact absurd ⟨ha, hn⟩ hc
        · rw [hd, ← hn]
          exact hexKeyNorm_fixed hne
    · rw [if_neg fun hc => hn hc.2, ← h₂ hn]
      exact hexKeyNorm_fixed hne
  by_cases he : netKeyNorm k s = []
  · rw [he, netKeyNorm]
    split_ifs <;> rfl
  by_cases hc : k.allow256 ∧ (strip s).length = 64
  · have hs : netKeyNorm k s = hexKeyNorm (strip s) 64 := if_pos hc
    rw [hs] at he ⊢
    exact hfixed 64 he (fun _ => Or.inl hc.1) (absurd rfl)
  · have hs : netKeyNorm k s = hexKeyNorm (strip s) k.digits := if_neg hc
    rw [hs] at he ⊢
    exact hfixed k.digits he Or.inr fun _ => rfl

/-! ## What is held

The normal form of the store is one condition for each of its three parts, and the one that no
network has two forced keys.  Each is a condition on entries, so the operations keep it entry by
entry. -/

/-- **A key in normal form**, under its id. -/
structure KeyEntry.Normal (id : Bytes) (e : KeyEntry) : Prop where
  id : keyNormId id = id ∧ id ≠ []
  alg : keyNormId e.alg = e.alg
  value : keyNormValue e.value = e.value ∧ e.value ≠ []
  added : |e.added| < 2 ^ 53

/-- A per-network key of a kind, in normal form. -/
def NormalSecret (kind : Bytes) (v : Bytes) : Prop :=
  ∃ k, netKeyKind kind = some k ∧ netKeyNorm k v = v ∧ v ≠ []

/-- **A network's forced key is the only one.** -/
def KeyStore.OneForced (st : KeyStore) : Prop :=
  ∀ k ∈ netKeyKinds, ∀ k' ∈ netKeyKinds, k.forced → k'.forced → ∀ fam net,
    net ∈ st.netKeysOf k.id fam → net ∈ st.netKeysOf k'.id fam → k = k'

/-- **The keys held are in normal form**: no map of them is empty, and no network has two forced
keys. -/
structure KeyStore.Normal (st : KeyStore) : Prop where
  keys : st.keys.Each fun _ => SortedMap.Full fun _ => SortedMap.Full KeyEntry.Normal
  bp : st.bp.Each fun _ => SortedMap.Full fun _ n => 1 ≤ n ∧ n ≤ 255
  netKeys : st.netKeys.Each fun kind => SortedMap.Full fun _ => SortedMap.Full fun _ =>
    NormalSecret kind
  forced : st.OneForced

/-- An operation at a time that a file keeps. -/
def KeyOp.Timely : KeyOp → Prop
  | .setKey _ _ _ _ _ now => |now| < 2 ^ 53
  | _ => True

section Put

variable {V : Type} {m : SortedMap Bytes (SortedMap Bytes V)} {P : Bytes → V → Prop}

/-- Where what is put in fits, all of the map still does. -/
theorem each_put (h : m.Each fun _ => SortedMap.Full P) {fam net : Bytes} {v : V} (hv : P net v) :
    (put m fam net v).Each fun _ => SortedMap.Full P :=
  h.insert ((SortedMap.Each.getD_full (Q := fun _ => P) h fam).full_insert hv)

end Put

namespace KeyStore

variable {st : KeyStore}

/-! ## One kind's keys

Setting a forced key removes the other forced keys of its network.  So a removal is treated by
itself, with everything that it leaves alone. -/

/-- The removal of a key that is not there changes nothing. -/
theorem eraseNetKey_eq (st : KeyStore) (kind fam net : Bytes) : st.eraseNetKey kind fam net =
    if net ∈ st.netKeysOf kind fam then
      { st with
        netKeys := st.netKeys.replace kind
          ((st.netKeys.getD kind ∅).replace fam ((st.netKeysOf kind fam).erase net)) }
    else st := by
  rw [eraseNetKey, netKeysOf]
  rcases hf : st.netKeys.find? kind with _ | m
  · have hnone : st.netKeys.getD kind ∅ = ∅ :=
      SortedMap.getD_of_not_mem (SortedMap.find?_eq_none_iff.1 hf) ∅
    rw [hnone]
    exact (if_neg (SortedMap.not_mem_empty net)).symm
  · rw [SortedMap.getD_of_find? hf]
    dsimp only
    by_cases hin : net ∈ m.getD fam ∅
    · rw [if_pos hin, if_pos (SortedMap.contains_iff.2 hin)]
      rfl
    · rw [if_neg hin, if_neg fun hc => hin (SortedMap.contains_iff.1 hc)]

/-- It leaves the ring and the Basic Privacy numbers. -/
theorem keys_eraseNetKey (st : KeyStore) (kind fam net : Bytes) :
    (st.eraseNetKey kind fam net).keys = st.keys ∧ (st.eraseNetKey kind fam net).bp = st.bp := by
  rw [eraseNetKey_eq]
  split_ifs <;> exact ⟨rfl, rfl⟩

/-- Of the per-network keys it changes one kind and family. -/
theorem netKeysOf_eraseNetKey (st : KeyStore) (kind fam net kind' fam' : Bytes) :
    (st.eraseNetKey kind fam net).netKeysOf kind' fam' =
      if kind' = kind ∧ fam' = fam then (st.netKeysOf kind fam).erase net
        else st.netKeysOf kind' fam' := by
  rw [eraseNetKey_eq]
  by_cases hin : net ∈ st.netKeysOf kind fam
  · rw [if_pos hin, netKeysOf]
    dsimp only
    rw [SortedMap.getD_replace]
    by_cases hk : kind' = kind
    · rw [if_pos hk, SortedMap.getD_replace]
      by_cases hf : fam' = fam
      · rw [if_pos hf, if_pos ⟨hk, hf⟩]
      · rw [if_neg hf, if_neg fun hc => hf hc.2, hk]
        rfl
    · rw [if_neg hk, if_neg fun hc => hk hc.1]
      rfl
  · rw [if_neg hin]
    split_ifs with hc
    · rw [SortedMap.erase_of_not_mem hin, hc.1, hc.2]
    · rfl

theorem each_eraseNetKey
    (h : st.netKeys.Each fun kind => SortedMap.Full fun _ => SortedMap.Full fun _ =>
      NormalSecret kind)
    (kind fam net : Bytes) : (st.eraseNetKey kind fam net).netKeys.Each
      fun kind => SortedMap.Full fun _ => SortedMap.Full fun _ => NormalSecret kind := by
  rw [eraseNetKey_eq]
  split_ifs
  · have hm := h.getD_full (Q := fun kind _ => SortedMap.Full fun _ => NormalSecret kind) kind
    have hf := hm.getD_full (Q := fun _ _ => NormalSecret kind) fam
    exact h.replace (Q := fun kind _ => SortedMap.Full fun _ => NormalSecret kind)
      (hm.replace (Q := fun _ _ => NormalSecret kind) (hf.erase net))
  · exact h

/-- A key is taken out, and none put in. -/
theorem mem_netKeysOf_eraseNetKey {kind fam net kind' fam' net' : Bytes}
    (h : net' ∈ (st.eraseNetKey kind fam net).netKeysOf kind' fam') :
    net' ∈ st.netKeysOf kind' fam' ∧ ¬(kind' = kind ∧ fam' = fam ∧ net' = net) := by
  rw [netKeysOf_eraseNetKey] at h
  split_ifs at h with hc
  · obtain ⟨hne, hm⟩ := SortedMap.mem_erase.1 h
    exact ⟨by rwa [hc.1, hc.2], fun he => hne he.2.2⟩
  · exact ⟨h, fun he => hc ⟨he.1, he.2.1⟩⟩

/-- A removal makes no second forced key. -/
theorem OneForced.eraseNetKey (h : st.OneForced) (kind fam net : Bytes) :
    (st.eraseNetKey kind fam net).OneForced := fun k hk k' hk' hf hf' fam' net' hn hn' =>
  h k hk k' hk' hf hf' fam' net' (mem_netKeysOf_eraseNetKey hn).1 (mem_netKeysOf_eraseNetKey hn').1

theorem Normal.eraseNetKey (h : st.Normal) (kind fam net : Bytes) :
    (st.eraseNetKey kind fam net).Normal where
  keys := (st.keys_eraseNetKey kind fam net).1 ▸ h.keys
  bp := (st.keys_eraseNetKey kind fam net).2 ▸ h.bp
  netKeys := each_eraseNetKey h.netKeys kind fam net
  forced := h.forced.eraseNetKey kind fam net

/-- **The other forced keys of a network go.** -/
theorem Normal.dropForced (h : st.Normal) (kind fam net : Bytes) :
    (st.dropForced kind fam net).Normal ∧
    ∀ k ∈ netKeyKinds, k.forced → k.id ≠ kind →
      net ∉ (st.dropForced kind fam net).netKeysOf k.id fam := by
  have hfold : ∀ (l : List NetKeyKind) (st : KeyStore), st.Normal →
      (l.foldl (fun st o => st.eraseNetKey o.id fam net) st).Normal ∧ ∀ k : NetKeyKind,
        net ∈ (l.foldl (fun st o => st.eraseNetKey o.id fam net) st).netKeysOf k.id fam →
          k ∉ l ∧ net ∈ st.netKeysOf k.id fam := fun l => by
    induction l with
    | nil => exact fun st hst => ⟨hst, fun k hk => ⟨List.not_mem_nil, hk⟩⟩
    | cons o l ih =>
      intro st hst
      obtain ⟨h₁, h₂⟩ := ih _ (hst.eraseNetKey o.id fam net)
      refine ⟨h₁, fun k hk => ?_⟩
      obtain ⟨hnot, hm⟩ := h₂ k hk
      obtain ⟨hm, hne⟩ := mem_netKeysOf_eraseNetKey hm
      rw [List.mem_cons, not_or]
      exact ⟨⟨fun he => hne ⟨by rw [he], rfl, rfl⟩, hnot⟩, hm⟩
  obtain ⟨h₁, h₂⟩ := hfold (netKeyKinds.filter fun o => o.forced && o.id ≠ kind) st h
  refine ⟨h₁, fun k hk hf hne hm => (h₂ k hm).1 ?_⟩
  rw [List.mem_filter, hf, Bool.true_and, decide_eq_true_eq]
  exact ⟨hk, hne⟩

/-! ## The operations

An operation that is refused leaves the store, which is why the lemmas speak of the store that it
gives or else of the old one. -/

/-- The empty store is in normal form. -/
theorem Normal.empty : ({} : KeyStore).Normal where
  keys := SortedMap.each_empty
  bp := SortedMap.each_empty
  netKeys := SortedMap.each_empty
  forced _ _ _ _ _ _ _ _ hn := absurd hn (SortedMap.not_mem_empty _)

theorem Normal.setKey (h : st.Normal) (fam net kid alg value : Bytes) {now : ℤ}
    (hnow : |now| < 2 ^ 53) :
    ((st.setKey fam net kid alg value now).getD st).Normal := by
  rw [KeyStore.setKey, keyringSet]
  split_ifs with h₁ h₂
  · exact h
  · exact h
  rw [not_or] at h₂
  have hf := h.keys.getD_full (Q := fun _ _ => SortedMap.Full KeyEntry.Normal) fam
  have hn := hf.getD_full (Q := fun _ => KeyEntry.Normal) net
  exact
    { h with
      keys := each_put h.keys (hn.full_insert
        ⟨⟨keyNormId_fixed kid, h₂.1⟩, keyNormId_fixed alg,
          ⟨keyNormValue_fixed value, h₂.2⟩, hnow⟩) }

theorem Normal.removeKey (h : st.Normal) (fam net kid : Bytes) :
    ((st.removeKey fam net kid).getD st).Normal := by
  rw [KeyStore.removeKey, keyringRemove]
  rcases hf : st.keys.find? fam with _ | f
  · exact h
  dsimp only
  rcases hn : f.find? net with _ | n
  · exact h
  dsimp only
  split_ifs
  · have hfull := (h.keys fam f hf).each
    have hkeys : (n.erase (keyNormId kid)).Each KeyEntry.Normal := (hfull net n hn).each.erase _
    exact
      { h with
        keys := h.keys.replace (Q := fun _ _ => SortedMap.Full KeyEntry.Normal)
          (hfull.replace (Q := fun _ => KeyEntry.Normal) hkeys) }
  · exact h

theorem Normal.setBp (h : st.Normal) (fam net : Bytes) (number : ℤ) :
    ((st.setBp fam net number).getD st).Normal := by
  rw [KeyStore.setBp]
  split_ifs with hc
  · exact h
  · rw [not_or, not_or, not_or, not_lt, not_lt] at hc
    exact { h with bp := each_put h.bp hc.2.2 }

theorem Normal.removeBp (h : st.Normal) (fam net : Bytes) :
    ((st.removeBp fam net).getD st).Normal := by
  rw [KeyStore.removeBp]
  rcases hf : st.bp.find? fam with _ | f
  · exact h
  dsimp only
  split_ifs
  · exact
      { h with
        bp := h.bp.replace (Q := fun _ _ n => 1 ≤ n ∧ n ≤ 255) ((h.bp fam f hf).each.erase net) }
  · exact h

theorem netKeyKind_id {kind : Bytes} {k : NetKeyKind} (h : netKeyKind kind = some k) :
    k ∈ netKeyKinds ∧ k.id = kind :=
  ⟨List.mem_of_find?_eq_some h, by simpa [eq_comm] using List.find?_some h⟩

/-- A network's key is put in, and no other. -/
theorem Normal.putNetKey (h : st.Normal) {kind fam net v : Bytes} {k : NetKeyKind}
    (hk : netKeyKind kind = some k) (hv : NormalSecret kind v)
    (hother : k.forced → ∀ k' ∈ netKeyKinds, k'.forced → k'.id ≠ kind →
      net ∉ st.netKeysOf k'.id fam) :
    ({ st with
        netKeys := st.netKeys.insert kind (put (st.netKeys.getD kind ∅) fam net v)
        version := st.version + 1 } : KeyStore).Normal := by
  have hm := h.netKeys.getD_full (Q := fun kind _ => SortedMap.Full fun _ => NormalSecret kind) kind
  have hf := hm.getD_full (Q := fun _ _ => NormalSecret kind) fam
  refine ⟨h.keys, h.bp, h.netKeys.insert (hm.full_insert (hf.full_insert hv)), ?_⟩
  intro k₁ hk₁ k₂ hk₂ hf₁ hf₂ fam' net' hn₁ hn₂
  obtain ⟨hkm, hkid⟩ := netKeyKind_id hk
  have hids : ∀ a ∈ netKeyKinds, ∀ b ∈ netKeyKinds, a.id = b.id → a = b := by decide
  have hmem : ∀ {kind'}, net' ∈ ({ st with
      netKeys := st.netKeys.insert kind (put (st.netKeys.getD kind ∅) fam net v)
      version := st.version + 1 } : KeyStore).netKeysOf kind' fam' →
        kind' = kind ∧ fam' = fam ∧ net' = net ∨ net' ∈ st.netKeysOf kind' fam' := by
    intro kind' hn
    rw [netKeysOf] at hn
    dsimp only at hn
    rw [SortedMap.getD_insert] at hn
    split_ifs at hn with h₁
    · rw [put, SortedMap.getD_insert] at hn
      split_ifs at hn with h₂
      · rcases SortedMap.mem_insert.1 hn with h₃ | h₃
        · exact Or.inl ⟨h₁, h₂, h₃⟩
        · exact Or.inr (by rw [netKeysOf, h₁, h₂]; exact h₃)
      · exact Or.inr (by rw [netKeysOf, h₁]; exact hn)
    · exact Or.inr hn
  rcases hmem hn₁ with ⟨h₁, hf₁', hn₁'⟩ | h₁ <;> rcases hmem hn₂ with ⟨h₂, hf₂', hn₂'⟩ | h₂
  · exact hids k₁ hk₁ k₂ hk₂ (h₁.trans h₂.symm)
  · obtain rfl := hids k₁ hk₁ k hkm (h₁.trans hkid.symm)
    rw [hf₁', hn₁'] at h₂
    by_contra hne
    exact hother hf₁ k₂ hk₂ hf₂ (fun he => hne (hids _ hk₁ _ hk₂ (h₁.trans he.symm))) h₂
  · obtain rfl := hids k₂ hk₂ k hkm (h₂.trans hkid.symm)
    rw [hf₂', hn₂'] at h₁
    by_contra hne
    exact hother hf₂ k₁ hk₁ hf₁ (fun he => hne (hids _ hk₁ _ hk₂ (he.trans h₂.symm))) h₁
  · exact h.forced k₁ hk₁ k₂ hk₂ hf₁ hf₂ fam' net' h₁ h₂

theorem Normal.setNetKey (h : st.Normal) (kind fam net value : Bytes) :
    ((st.setNetKey kind fam net value).getD st).Normal := by
  rw [KeyStore.setNetKey]
  rcases hk : netKeyKind kind with _ | k
  · exact h
  dsimp only
  split_ifs with hc hforced
  · exact h
  · rw [not_or, not_or] at hc
    obtain ⟨hdrop, hother⟩ := h.dropForced kind fam net
    exact hdrop.putNetKey hk ⟨k, hk, netKeyNorm_fixed k value, hc.2.2⟩ fun _ => hother
  · rw [not_or, not_or] at hc
    exact h.putNetKey hk ⟨k, hk, netKeyNorm_fixed k value, hc.2.2⟩ fun hf => absurd hf hforced

theorem Normal.removeNetKey (h : st.Normal) (kind fam net : Bytes) :
    ((st.removeNetKey kind fam net).getD st).Normal := by
  rw [KeyStore.removeNetKey]
  split_ifs
  · obtain ⟨h₁, h₂, h₃, h₄⟩ := h.eraseNetKey kind fam net
    exact ⟨h₁, h₂, h₃, h₄⟩
  · exact h

/-- **Every operation keeps the normal form.** -/
theorem Normal.step (h : st.Normal) {op : KeyOp} (ht : op.Timely) : (st.step op).Normal := by
  cases op with
  | setKey fam net kid alg value now => exact h.setKey fam net kid alg value ht
  | removeKey fam net kid => exact h.removeKey fam net kid
  | setBp fam net number => exact h.setBp fam net number
  | removeBp fam net => exact h.removeBp fam net
  | setNetKey kind fam net value => exact h.setNetKey kind fam net value
  | removeNetKey kind fam net => exact h.removeNetKey kind fam net

/-- **So is it after any run** of operations. -/
theorem Normal.run {ops : List KeyOp} : ∀ {st : KeyStore}, st.Normal → (∀ op ∈ ops, op.Timely) →
    (st.run ops).Normal := by
  induction ops with
  | nil => exact fun h _ => h
  | cons op ops ih =>
    intro st h ht
    exact ih (h.step (ht op List.mem_cons_self)) fun o ho => ht o (List.mem_cons_of_mem op ho)

end KeyStore

end DsdServer
