import DsdServer.Data.Nested
import DsdServer.Merge.ExportTree
import DsdServer.Merge.Import

/-!
# Merge/ExportShape — datasets as the model makes them, and their fields

What holds of a dataset that is exported (`Dataset.Shaped`), and how each kind of field is read back
from the value it is written as.

The shape is what a dataset has when it comes out of the model: tables without empty entries, lists
in order, integers that a double represents.  The readers rely on it at single fields, and the
lemmas are ordered by the kind of a field.
-/

open Bytes

namespace DsdServer

open mjson assocjson

/-! ## The shape of a dataset

The conditions are those the model keeps: keys are those of the records, counts are not zero where a
table lists them, tracks move with every fix.  To them comes that numbers are small enough for a
double, as JSON has no other. -/

/-- An integer a double holds. -/
def Exact (i : ℤ) : Prop := |i| < 2 ^ 53

instance (i : ℤ) : Decidable (Exact i) := inferInstanceAs (Decidable (_ < _))

/-- A tally: every count is positive. -/
def Tally (m : SortedMap Bytes ℕ) : Prop := m.Each fun _ n => 0 < n ∧ n < 2 ^ 53

/-- A network as the model makes them. -/
structure DsNetwork.Shaped (k : Bytes) (n : DsNetwork) : Prop where
  key : n.key = k
  named : k ≠ []
  freqs : ∀ f ∈ n.freqs, 0 < f ∧ Exact f
  sessions : n.sessions < 2 ^ 53
  calls : n.calls < 2 ^ 53
  first : Exact n.first
  last : Exact n.last
  keys : Tally n.keys

/-- A talkgroup as the model makes them. -/
structure DsTalkgroup.Shaped (k : Bytes) (t : DsTalkgroup) : Prop where
  id : t.id = k
  named : k ≠ []
  radios : Tally t.radios
  calls : t.calls < 2 ^ 53
  emerg : t.emerg < 2 ^ 53
  enc : t.enc < 2 ^ 53
  first : Exact t.first
  last : Exact t.last
  keys : Tally t.keys

/-- A radio as the model makes them. -/
structure DsRadio.Shaped (k : Bytes) (r : DsRadio) : Prop where
  id : r.id = k
  named : k ≠ []
  tgs : Tally r.tgs
  peers : Tally r.peers
  keys : Tally r.keys
  calls : r.calls < 2 ^ 53
  first : Exact r.first
  last : Exact r.last
  posT : Exact r.posT
  still : r.pos = [] → r.posT = 0
  track : r.track.length ≤ kMaxTrack
  moves : r.track.IsChain fun a b => a.2 ≠ b.2
  times : ∀ f ∈ r.track, Exact f.1

/-- A call without a voice-quality verdict. -/
structure DsCall.Shaped (k : DsCall) : Prop where
  id : k.id < 2 ^ 53
  session : k.session < 2 ^ 53
  streams : 1 ≤ k.streams ∧ k.streams < 2 ^ 53
  audioMs : k.audioMs < 2 ^ 53
  start : Exact k.start
  last : Exact k.last
  freq : Exact k.freq
  clear : k.kid = [] → k.alg = []
  silent : k.audio = [] → k.audioMs = 0
  ungraded : k.quality = {}

/-- A family as the model makes them. -/
structure DsFamily.Shaped (F : DsFamily) : Prop where
  networks : F.networks.Each DsNetwork.Shaped
  tgs : F.tgs.Each DsTalkgroup.Shaped
  radios : F.radios.Each DsRadio.Shaped
  calls : ∀ k ∈ F.calls, k.Shaped

/-- A source with a span that doubles hold. -/
structure DsSource.Shaped (s : DsSource) : Prop where
  named : s.instanceId ≠ []
  since : Exact s.since
  through : Exact s.through

/-- **A dataset as the model makes it**: its rules are between networks it holds. -/
structure Dataset.Shaped (d : Dataset) : Prop where
  fams : d.fams.Each fun _ => DsFamily.Shaped
  sourced : d.sources ≠ []
  sources : ∀ s ∈ d.sources, s.Shaped
  rules : HeldRules d.merges
  held : ∀ fam k v, (rulesOf d.merges fam).find? k = some v →
    ∃ F, d.fams.find? fam = some F ∧ k ∈ F.networks ∧ v ∈ F.networks

/-- A network whose key says which it is everywhere. -/
def Unlocal (cm : ChannelMerge) (n : DsNetwork) : Prop :=
  ch '~' ∈ n.key ∨ n.confidence = lit "strong" ∨ n.confidence = lit "channel" ∧
    cm.perReceiver = false

/-- The file's calls are history. -/
def DsFamily.closed (F : DsFamily) : DsFamily :=
  { F with calls := F.calls.map fun k => { k with isOpen := false } }

/-! ## What the reader of JSON takes

The reader refuses what is nested too deep.  An export has a fixed depth, so each part is shown to
fit where it stands. -/

/-- An object is taken when its members are, and it is not too deep. -/
theorem fits_obj {d : ℕ} {o : List (Bytes × V)} (hd : d ≤ 64) (h : ∀ kv ∈ o, Fits (d + 1) kv.2) :
    Fits d (.obj o) := by
  rw [Fits, fitsMembers_iff]
  exact ⟨hd, h⟩

theorem fitsAll_iff {d : ℕ} {l : List V} : FitsAll d l ↔ ∀ v ∈ l, Fits d v := by
  induction l with
  | nil => exact iff_of_true (by rw [FitsAll]; trivial) fun _ h => absurd h List.not_mem_nil
  | cons v l ih => rw [FitsAll, ih, List.forall_mem_cons]

/-- An array is taken when its elements are, and it is not too deep. -/
theorem fits_array {α : Type} {d : ℕ} {f : α → V} {l : List α} (hd : d ≤ 64)
    (h : ∀ a ∈ l, Fits (d + 1) (f a)) :
    Fits d (.arr (l.map f)) := by
  rw [Fits, fitsAll_iff]
  exact ⟨hd, List.forall_mem_map.2 h⟩

theorem fits_str {d : ℕ} (hd : d ≤ 64) (s : Bytes) : Fits d (.str s) := by rwa [Fits]

theorem fits_bool {d : ℕ} (hd : d ≤ 64) (x : Bool) : Fits d (.bool x) := by rwa [Fits]

/-- An integer is taken when a double holds it. -/
theorem fits_int {d : ℕ} (hd : d ≤ 64) {i : ℤ} (hi : Exact i) : Fits d (intTree i) := by
  rw [intTree, Fits]
  exact ⟨hd, i, hi, rfl⟩

/-- Doubles hold the numbers of 53 bits. -/
theorem exact_nat {n : ℕ} (hn : n < 2 ^ 53) : Exact n := by
  rw [Exact, abs_lt]
  omega

theorem fits_nat {d : ℕ} (hd : d ≤ 64) {n : ℕ} (hn : n < 2 ^ 53) : Fits d (natTree n) :=
  fits_int hd (exact_nat hn)

theorem fits_texts {d : ℕ} (hd : d < 64) (l : List Bytes) : Fits d (textsTree l) :=
  fits_array hd.le fun s _ => fits_str hd s

theorem fits_counts {d : ℕ} (hd : d < 64) {m : SortedMap Bytes ℕ} (hm : Tally m) :
    Fits d (tree natTree m) :=
  fits_tree hd.le hm fun _ _ hn => fits_nat hd hn.2

theorem fits_ids {d : ℕ} (hd : d < 64) (m : SortedMap Bytes Bytes) : Fits d (tree V.str m) :=
  fits_tree (P := fun _ _ => True) hd.le (fun _ _ _ => trivial) fun _ s _ => fits_str hd s

/-- What holds of members holds of those that are written. -/
theorem forall_whenever {c : Prop} [Decidable c] {l : List (Bytes × V)} {p : Bytes × V → Prop}
    (h : ∀ e ∈ l, p e) :
    ∀ e ∈ whenever c l, p e := by
  rw [whenever]
  split_ifs
  · exact h
  · exact fun _ he => absurd he List.not_mem_nil


/-! ## Fields

A field is read by its name and its type.  For each kind of field there is one lemma about the field
that was written, and one about the field that may be left out. -/

/-- A member is looked for in the first part, and then in the second. -/
theorem get_append (l l' : List (Bytes × V)) (k : String) :
    (V.obj (l ++ l')).get k = ((V.obj l).get k).or ((V.obj l').get k) := by
  simp only [V.get, List.find?_append, Option.map_or]

/-- An optional member is found when it was written. -/
theorem get_whenever (c : Prop) [Decidable c] (l : List (Bytes × V)) (k : String) :
    (V.obj (whenever c l)).get k = if c then (V.obj l).get k else none := by
  rw [whenever]
  split_ifs <;> rfl

section

variable {v : V} {k : String} {c : Prop} [Decidable c]

/-- A number that was written is read. -/
theorem i64_of {i : ℤ} (h : v.get k = some (intTree i)) (hi : Exact i) : v.i64 k = i := by
  rw [V.i64, V.numOf, h]
  exact toI64_intCast hi

/-- A number that is left out when it is zero is read as zero. -/
theorem i64_given {i : ℤ} (h : v.get k = if c then some (intTree i) else none) (hi : Exact i)
    (h0 : ¬c → i = 0) : v.i64 k = i := by
  split_ifs at h with hc
  · exact i64_of h hi
  · rw [V.i64, V.numOf, h, h0 hc]
    exact toI64_intCast (i := 0) (by decide)

theorem isPos_nat (n : ℕ) : (Double.finite ((n : ℤ) : ℚ)).isPos = decide (0 < n) := by
  rw [Double.isPos]
  exact decide_eq_decide.2 (by rw [Int.cast_natCast, Nat.cast_pos])

theorem toU64_nat {n : ℕ} (hn : n < 2 ^ 53) : (Double.finite ((n : ℤ) : ℚ)).toU64 = n := by
  rw [Double.toU64, Double.trunc_intCast, if_pos (by omega), Int.toNat_natCast]

theorem u_of {n : ℕ} (h : v.get k = some (natTree n)) (hn : n < 2 ^ 53) : v.u k = n := by
  have hnum : v.numOf k = .finite ((n : ℤ) : ℚ) := by
    rw [V.numOf, h]
    rfl
  rw [V.u, hnum, isPos_nat, toU64_nat hn]
  rcases Nat.eq_zero_or_pos n with rfl | hpos
  · rfl
  · exact if_pos (decide_eq_true hpos)

/-- A count that is left out when it is zero is read as zero. -/
theorem u_given {n : ℕ} (h : v.get k = if c then some (natTree n) else none) (hn : n < 2 ^ 53)
    (h0 : ¬c → n = 0) : v.u k = n := by
  split_ifs at h with hc
  · exact u_of h hn
  · rw [V.u, V.numOf, h, h0 hc]
    rfl

/-- A text that is left out when it is empty is read as empty. -/
theorem str_given {s : Bytes} (h : v.get k = if c then some (.str s) else none) (h0 : ¬c → s = []) :
    v.strOf k = s := by
  rw [V.strOf, h]
  split_ifs with hc
  · rfl
  · exact (h0 hc).symm

end

theorem strmap_tree (m : SortedMap Bytes Bytes) : strmap (some (tree V.str m)) = m := by
  rw [strmap, Option.getD_some, foldl_members_tree]
  exact SortedMap.foldl_rebuild fun _ _ _ _ _ => rfl

/-- A table of counts is read back, if none of them is zero. -/
theorem countmap_tree {m : SortedMap Bytes ℕ} (hm : Tally m) :
    countmap (some (tree natTree m)) = m := by
  rw [countmap, Option.getD_some, foldl_members_tree]
  refine SortedMap.foldl_rebuild fun r k n hn hk => ?_
  obtain ⟨hpos, hlt⟩ := hm k n hn
  change (if (Double.finite ((n : ℤ) : ℚ)).isPos = true then
    r.insert k (r.getD k 0 + (Double.finite ((n : ℤ) : ℚ)).toU64) else r) = _
  rw [isPos_nat, if_pos (decide_eq_true hpos), toU64_nat hlt, SortedMap.getD_of_not_mem hk,
    Nat.zero_add]

/-- A tally that is left out is empty. -/
theorem countmap_whenever {m : SortedMap Bytes ℕ} (hm : Tally m) :
    countmap (if m.isEmpty = false then some (tree natTree m) else none) = m := by
  split_ifs with he
  · exact countmap_tree hm
  · rw [Bool.not_eq_false] at he
    exact (SortedMap.isEmpty_eq_true_iff.1 he).symm

theorem strset_texts (s : SortedSet Bytes) : strset (some (textsTree s.keys)) = s := by
  rw [strset, Option.getD_some, textsTree, V.elements, List.foldl_map]
  exact SortedSet.addAll_keys s

/-- A set of frequencies is read back. -/
theorem freqset_nums {s : SortedSet ℤ} (h : ∀ f ∈ s, 0 < f ∧ Exact f) :
    freqset (some (numsTree s.keys)) = s := by
  rw [freqset, Option.getD_some, numsTree, V.elements, List.foldl_map]
  refine Eq.trans (List.foldl_ext _ _ _ fun r f hf => ?_) (SortedSet.addAll_keys s)
  obtain ⟨hpos, hf⟩ := h f hf
  change (if (Double.finite (f : ℚ)).isPos = true then
    SortedSet.add r (Double.finite (f : ℚ)).toI64 else r) = _
  rw [toI64_intCast hf, Double.isPos, if_pos (decide_eq_true (Int.cast_pos.2 hpos))]

theorem strlist_texts (l : List Bytes) : strlist (some (textsTree l)) = l := by
  rw [strlist, Option.getD_some, textsTree, V.elements, List.filterMap_map]
  exact List.filterMap_some

/-- Fixes that move are kept one by one. -/
theorem foldl_trackAdd : ∀ (l tr : List (ℤ × Bytes)), (tr ++ l).length ≤ kMaxTrack →
    (tr ++ l).IsChain (fun a b => a.2 ≠ b.2) →
      l.foldl (fun tr f => trackAdd tr f.1 f.2) tr = tr ++ l := by
  intro l
  induction l with
  | nil => exact fun tr _ _ => (List.append_nil tr).symm
  | cons f l ih =>
    intro tr hlen hchain
    have hadd : trackAdd tr f.1 f.2 = tr ++ [f] := by
      rw [trackAdd]
      split
      · next e he =>
        rw [if_neg ((List.isChain_append.1 hchain).2.2 e he f rfl)]
        rw [List.length_append, List.length_cons] at hlen
        rw [Nat.sub_eq_zero_of_le (by omega), List.drop_zero]
      · next he =>
        rw [List.getLast?_eq_none_iff.1 he]
        rfl
    rw [List.append_cons] at hlen hchain ⊢
    rw [List.foldl_cons, hadd, ih _ hlen hchain]

/-- **A track is read back**: it is not too long, and every fix moves. -/
theorem readTrack_fixes {tr : List (ℤ × Bytes)} (hlen : tr.length ≤ kMaxTrack)
    (hmoves : tr.IsChain fun a b => a.2 ≠ b.2) (ht : ∀ f ∈ tr, Exact f.1) :
    readTrack (some (.arr (tr.map fixTree))) = tr := by
  rw [readTrack, Option.getD_some, V.elements, List.foldl_map]
  refine Eq.trans (List.foldl_ext _ _ _ fun r f hf => ?_) (foldl_trackAdd tr [] hlen hmoves)
  change trackAdd r (Double.finite (f.1 : ℚ)).toI64 f.2 = _
  rw [toI64_intCast (ht f hf)]

end DsdServer
