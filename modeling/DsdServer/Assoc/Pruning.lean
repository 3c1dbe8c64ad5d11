import DsdServer.Assoc.Consistency
import DsdServer.Assoc.Streams

/-!
# Assoc/Pruning — what ending a stream loses

When a stream begins, ends or goes, the networks it leaves behind are dropped, all chosen before the
first of them goes; one that identified itself goes only when another carries its identity.
Carrying is transitive, so the identity of a dropped network survives unless every network that
carries it goes too, and that takes two that carry each other.

* `losesNothing_iff` — **nothing identified is lost exactly when the identity of two networks left
  behind that carry each other is on one that stays.**

What is lost is an identity and not a network, since a network without one was only a channel.  The
proof of the one direction looks for a network that carries the identity and stays, by going up from
one to the next as long as they are to be dropped; without a pair that carry each other this ends.
-/

open Bytes

namespace DsdServer

namespace Network

/-- The tokens that tell a network from another. -/
def anchors (fam : Bytes) (n : Network) : List (Bytes × Bytes) :=
  n.ids.entries.filter fun id => isAnchor fam id.1

/-- A network that identified itself: by a system id, or by a code on a channel. -/
def Identified (n : Network) : Prop :=
  n.confidence = lit "strong" ∨ n.confidence = lit "channel" ∧ n.ids.isEmpty = false

/-- A strong network carries every token that tells another one apart. -/
def Carries (fam : Bytes) (o n : Network) : Prop :=
  o.confidence = lit "strong" ∧ ∀ id ∈ n.anchors fam, o.ids.find? id.1 = some id.2

variable {fam : Bytes} {n o p : Network}

/-- The anchors of a network, as pairs of token and value. -/
theorem mem_anchors {id : Bytes × Bytes} :
    id ∈ n.anchors fam ↔ n.ids.find? id.1 = some id.2 ∧ isAnchor fam id.1 = true := by
  rw [anchors, List.mem_filter, SortedMap.find?_eq_some_iff]

theorem nodup_anchors (fam : Bytes) (n : Network) : (n.anchors fam).Nodup :=
  (List.Nodup.of_map Prod.fst n.ids.nodup_keys).filter _

/-- What carries a network has all its anchors. -/
theorem Carries.subset (h : o.Carries fam n) : n.anchors fam ⊆ o.anchors fam := fun id hid =>
  mem_anchors.2 ⟨h.2 id hid, (mem_anchors.1 hid).2⟩

/-- What is on a network that is on another is on that one. -/
theorem Carries.trans (h : o.Carries fam n) (h' : p.Carries fam o) : p.Carries fam n :=
  ⟨h'.1, fun id hid => h'.2 id (h.subset hid)⟩

/-- **What carries a network and has no more anchors is carried by it.** -/
theorem Carries.symm_of_length_le (h : o.Carries fam n) (hn : n.confidence = lit "strong")
    (hl : (o.anchors fam).length ≤ (n.anchors fam).length) : n.Carries fam o := by
  have hperm := ((nodup_anchors fam n).subperm h.subset).perm_of_length_le hl
  exact ⟨hn, fun id hid => (mem_anchors.1 (hperm.symm.subset hid)).1⟩

/-- A network is covered when another carries it, and it may be. -/
theorem covered_iff {F : Family} {key : Bytes} : covered F fam key n = true ↔
    (n.anchors fam ≠ [] ∧ (n.confidence = lit "strong" ∨ fam = lit "p25")) ∧
      ∃ k o, F.networks.find? k = some o ∧ k ≠ key ∧ o.Carries fam n := by
  rw [covered]
  simp only [Bool.and_eq_true, Bool.not_eq_true', Bool.or_eq_false_iff, List.any_eq_true,
    decide_eq_true_eq, List.all_eq_true, List.isEmpty_eq_false_iff]
  refine and_congr (and_congr Iff.rfl ?_) ?_
  · by_cases h1 : n.confidence = lit "strong" <;> by_cases h2 : fam = lit "p25" <;> simp [h1, h2]
  · constructor
    · rintro ⟨⟨k, o⟩, hm, ⟨hk, hs⟩, ha⟩
      exact ⟨k, o, SortedMap.find?_eq_some_iff.2 hm, hk, hs, ha⟩
    · rintro ⟨k, o, hm, hk, hs, ha⟩
      exact ⟨(k, o), SortedMap.find?_eq_some_iff.1 hm, ⟨hk, hs⟩, ha⟩

end Network

namespace AssocModel

variable {s t : AssocModel} {sid : ℕ} {f n : Bytes}

/-! ## What pruning drops

A network that identified itself for good is dropped only if everything it identified itself by is
on another one.  That other is looked for in the table as it is at the beginning, and may itself be
among those that are dropped. -/

/-- What is left in the table after several networks are dropped. -/
theorem find?_foldl_dropNetwork (n : Bytes) : ∀ (dead : List Bytes) (F : Family),
    (dead.foldl Family.dropNetwork F).networks.find? n =
      if n ∈ dead then none else F.networks.find? n := fun dead => by
  induction dead with
  | nil => exact fun F => by rw [if_neg List.not_mem_nil]; rfl
  | cons d dead ih =>
    intro F
    rw [List.foldl_cons, ih, Family.dropNetwork, SortedMap.find?_erase]
    by_cases hd : n = d <;> simp [hd]

/-- A family that is not there has no networks. -/
theorem find?_networks_of_not_mem (h : f ∉ s.fams) (n : Bytes) :
    (s.family f).networks.find? n = none := by
  rw [family, SortedMap.getD_of_not_mem h]
  rfl

/-- A family whose last network goes goes too; its networks are none either way. -/
theorem find?_dropNetworks (s : AssocModel) (f' : Bytes) (dead : List Bytes) (f n : Bytes) :
    ((s.dropNetworks f' dead).family f).networks.find? n =
      if f = f' ∧ n ∈ dead then none else (s.family f).networks.find? n := by
  have hfold := find?_foldl_dropNetwork n dead (s.family f')
  rw [dropNetworks, family]
  by_cases hf : f = f'
  · subst hf
    simp only [true_and]
    rw [← hfold]
    split_ifs with hb
    · rw [SortedMap.getD, SortedMap.find?_erase_self]
      simp only [Family.isBlank, Bool.and_eq_true] at hb
      exact (SortedMap.isEmpty_iff.1 hb.1.1.1 n).symm
    · rw [SortedMap.getD_insert, if_pos rfl]
  · simp only [hf, false_and, if_false]
    split_ifs
    · rw [SortedMap.getD, SortedMap.find?_erase_ne _ hf]
      rfl
    · rw [SortedMap.getD_insert, if_neg hf]
      rfl

/-- **Pruning drops the chosen networks** of the session's family, and no other. -/
theorem find?_pruneSession (s : AssocModel) (sid : ℕ) (retune : Bool) (f n : Bytes) :
    ((s.pruneSession sid retune).family f).networks.find? n =
      if (s.ctx sid).family = f ∧ sid ∈ s.sess ∧ n ∈ s.deadNetworks sid f retune then none
      else (s.family f).networks.find? n := by
  rw [pruneSession]
  split
  · next h => rw [if_neg fun hc => SortedMap.find?_eq_none_iff.1 h hc.2.1]
  · next c hc =>
    have hm : sid ∈ s.sess := SortedMap.mem_of_find? hc
    rw [ctx_of_find? hc]
    by_cases hcon : s.fams.contains c.family = true
    · rw [if_pos hcon]
      by_cases hemp : (s.deadNetworks sid c.family retune).isEmpty = true
      · rw [if_pos hemp]
        rw [List.isEmpty_iff] at hemp
        rw [if_neg]
        rintro ⟨rfl, -, hn⟩
        rw [hemp] at hn
        exact List.not_mem_nil hn
      · rw [if_neg hemp]
        refine (find?_dropNetworks _ c.family _ f n).trans ?_
        by_cases hf : f = c.family
        · subst hf
          simp only [hm, true_and]
          rfl
        · rw [if_neg fun h => hf h.1, if_neg fun h => hf h.1.symm]
          rfl
    · rw [if_neg hcon]
      split_ifs with hd
      · have hnf : f ∉ s.fams := fun h => hcon (hd.1 ▸ SortedMap.contains_iff.2 h)
        exact find?_networks_of_not_mem hnf n
      · rfl

/-- An identified network is chosen only when another carries it. -/
theorem carried_of_mem_deadNetworks {N : Network} (hd : n ∈ s.deadNetworks sid f false)
    (hN : (s.family f).networks.find? n = some N) (hi : N.Identified) :
    N.anchors f ≠ [] ∧ ∃ k o, (s.family f).networks.find? k = some o ∧ k ≠ n ∧ o.Carries f N := by
  obtain ⟨e, he, rfl⟩ := List.mem_map.1 hd
  obtain ⟨hm, hp⟩ := List.mem_filter.1 he
  cases (SortedMap.find?_eq_some_iff.2 hm).symm.trans hN
  simp only [Bool.and_eq_true, Bool.not_eq_true', Bool.not_false, Bool.true_and] at hp
  have hid : (decide (e.2.confidence = lit "strong") ||
      (decide (e.2.confidence = lit "channel") && !e.2.ids.isEmpty)) = true := by
    obtain h | ⟨h, h'⟩ := hi
    · simp [h]
    · simp [h, h']
  have hcov : covered (s.family f) f e.1 e.2 = true := by
    have := hp.1.1.2
    rw [hid, Bool.true_and, Bool.not_eq_false'] at this
    exact this
  obtain ⟨⟨hne, -⟩, k, o, ho, hk, hc⟩ := Network.covered_iff.1 hcov
  exact ⟨hne, k, o, ho, hk, hc⟩

/-! ## The three ends of a stream

A stream that begins anew, ends or is removed is pruned in the same way, after its calls were
closed.  The statement is about the state before the operation, and holds of all three. -/

/-- **The state in which an input prunes a session's networks**, when it begins, ends or goes. -/
def wrapUp (s : AssocModel) : Op → Option (AssocModel × ℕ)
  | .begin sid label now _ freq =>
    some ((s.record (assoclog.beginLine now sid label freq)).closeSessionCalls s.limits sid, sid)
  | .finish sid now =>
    let t := (s.record (assoclog.endLine now sid)).closeSessionCalls s.limits sid
    some ({ t with sess := t.sess.modify sid Ctx.stop }, sid)
  | .remove sid now =>
    some ((s.record (assoclog.removeLine now sid)).closeSessionCalls s.limits sid, sid)
  | _ => none

/-- The families after an operation that ends a stream. -/
theorem family_of_wrapUp {op : Op} (h : s.wrapUp op = some (t, sid)) (f : Bytes) :
    (s.step op).family f = (t.pruneSession sid false).family f := by
  cases op <;> cases h <;> rfl

/-- The networks of a family that the pruning chose. -/
def chosen (t : AssocModel) (sid : ℕ) (f : Bytes) : Set Bytes :=
  {n | (t.ctx sid).family = f ∧ sid ∈ t.sess ∧ n ∈ t.deadNetworks sid f false}

/-- **Nothing identified is lost**: what carries a dropped network's identity is still there. -/
def LosesNothing (s : AssocModel) (op : Op) : Prop :=
  ∀ t sid, s.wrapUp op = some (t, sid) → ∀ f n N, (t.family f).networks.find? n = some N →
    N.Identified → n ∉ ((s.step op).family f).networks →
    ∃ o O, ((s.step op).family f).networks.find? o = some O ∧ O.Carries f N

/-- A network a session leaves behind: it fed it, no call was counted on it and no record refers to
it, and no other stream is on it. -/
def LeftBehind (t : AssocModel) (sid : ℕ) (f n : Bytes) : Prop :=
  (t.ctx sid).family = f ∧ sid ∈ t.sess ∧
    ∃ N, (t.family f).networks.find? n = some N ∧ N.calls = 0 ∧ sid ∈ N.sessions ∧
      t.inUse sid f n = false ∧ ∀ k ∈ (t.family f).calls, k.net ≠ n

/-- **The identity of two networks left behind that carry each other** is on one that stays: one not
left behind, or carried by no other. -/
def TwinsKept (s : AssocModel) (op : Op) : Prop :=
  ∀ t sid, s.wrapUp op = some (t, sid) → ∀ f a b A B, t.LeftBehind sid f a → t.LeftBehind sid f b →
    a ≠ b → (t.family f).networks.find? a = some A → (t.family f).networks.find? b = some B →
    A.anchors f ≠ [] → A.Carries f B → B.Carries f A →
    ∃ o O, (t.family f).networks.find? o = some O ∧ O.Carries f A ∧
      (t.LeftBehind sid f o → ∀ k K, (t.family f).networks.find? k = some K → k ≠ o →
        ¬ K.Carries f O)

/-- A strong network is chosen when it is left behind and another carries it. -/
theorem mem_chosen_iff {N : Network} (hN : (t.family f).networks.find? n = some N)
    (hs : N.confidence = lit "strong") :
    n ∈ t.chosen sid f ↔ t.LeftBehind sid f n ∧ N.anchors f ≠ [] ∧
      ∃ k K, (t.family f).networks.find? k = some K ∧ k ≠ n ∧ K.Carries f N := by
  have hcov : covered (t.family f) f n N = true ↔ _ := Network.covered_iff
  simp only [hs, true_or, and_true] at hcov
  rw [← hcov]
  constructor
  · rintro ⟨hf, hm, hd⟩
    obtain ⟨e, he, rfl⟩ := List.mem_map.1 hd
    obtain ⟨hme, hp⟩ := List.mem_filter.1 he
    cases (SortedMap.find?_eq_some_iff.2 hme).symm.trans hN
    simp only [hs, Bool.and_eq_true, Bool.not_eq_true', decide_eq_true_eq, Bool.not_false,
      Bool.true_and, decide_true, Bool.true_or, Bool.not_eq_false'] at hp
    obtain ⟨⟨⟨⟨hc, hse⟩, hcv⟩, hu⟩, hk⟩ := hp
    exact ⟨⟨hf, hm, e.2, hN, hc, SortedMap.contains_iff.1 hse, hu,
      fun k hkm hkn => List.any_eq_false.1 hk k hkm (decide_eq_true hkn)⟩, hcv⟩
  · rintro ⟨⟨hf, hm, N', hN', hc, hse, hu, hk⟩, hcv⟩
    cases hN.symm.trans hN'
    refine ⟨hf, hm,
      List.mem_map.2 ⟨(n, N), List.mem_filter.2 ⟨SortedMap.find?_eq_some_iff.1 hN, ?_⟩, rfl⟩⟩
    have hany : ((t.family f).calls.any fun k => decide (k.net = n)) = false :=
      List.any_eq_false.2 fun k hkm => by simpa using hk k hkm
    simp [hs, hc, SortedMap.contains_iff.2 hse, hcv, hu, hany]

/-- **Nothing identified is lost exactly when the identity of two networks left behind that carry
each other stays.** -/
theorem losesNothing_iff (s : AssocModel) (op : Op) : s.LosesNothing op ↔ s.TwinsKept op := by
  classical
  have hfind : ∀ {t sid f n N}, s.wrapUp op = some (t, sid) →
      (((s.step op).family f).networks.find? n = some N ↔
        (t.family f).networks.find? n = some N ∧ n ∉ t.chosen sid f) := fun {t sid f n N} h => by
    rw [family_of_wrapUp h, find?_pruneSession]
    by_cases hc : n ∈ t.chosen sid f
    · rw [if_pos (show _ ∧ _ from hc)]
      exact iff_of_false nofun fun hn => hn.2 hc
    · rw [if_neg (show ¬ (_ ∧ _) from hc)]
      exact ⟨fun hn => ⟨hn, hc⟩, And.left⟩
  have hgone : ∀ {t sid f n N}, s.wrapUp op = some (t, sid) →
      (t.family f).networks.find? n = some N →
      (n ∉ ((s.step op).family f).networks ↔ n ∈ t.chosen sid f) := fun {t sid f n N} h hN => by
    constructor
    · intro hn
      by_contra hc
      exact hn (SortedMap.mem_of_find? ((hfind h).2 ⟨hN, hc⟩))
    · intro hc hn
      obtain ⟨M, hM⟩ := SortedMap.mem_iff_find?.1 hn
      exact ((hfind h).1 hM).2 hc
  constructor
  · intro hl t sid h f a b A B ha hb hab hA hB hne hAB hBA
    have hda : a ∈ t.chosen sid f := (mem_chosen_iff hA hAB.1).2 ⟨ha, hne, b, B, hB, hab.symm, hBA⟩
    obtain ⟨o, O, hO, hc⟩ := hl t sid h f a A hA (.inl hAB.1) ((hgone h hA).2 hda)
    obtain ⟨hO', hdo⟩ := (hfind h).1 hO
    refine ⟨o, O, hO', hc, fun hleft k K hK hko hKO =>
      hdo ((mem_chosen_iff hO' hc.1).2 ⟨hleft, ?_, k, K, hK, hko, hKO⟩)⟩
    exact fun hnil => hne (List.subset_nil.1 (hnil ▸ hc.subset))
  · intro ht t sid h f n N hN hi hn
    rw [hgone h hN] at hn
    obtain ⟨-, k, K, hK, -, hc⟩ := carried_of_mem_deadNetworks hn.2.2 hN hi
    -- of the networks that carry the dropped one, one with the most anchors
    set carriers := (t.family f).networks.entries.toFinset.filter fun e => e.2.Carries f N
    have hcar : ∀ {e}, e ∈ carriers ↔ (t.family f).networks.find? e.1 = some e.2 ∧
        e.2.Carries f N :=
      fun {e} => by rw [Finset.mem_filter, List.mem_toFinset, SortedMap.find?_eq_some_iff]
    obtain ⟨⟨a, A⟩, ha, hmax⟩ := carriers.exists_max_image (fun e => (e.2.anchors f).length)
      ⟨(k, K), hcar.2 ⟨hK, hc⟩⟩
    obtain ⟨hA, hAN⟩ := hcar.1 ha
    by_cases hda : a ∈ t.chosen sid f
    · -- it is chosen itself, so another carries it, and it carries that one
      obtain ⟨-, b, B, hB, hba, hBA⟩ := carried_of_mem_deadNetworks hda.2.2 hA (.inl hAN.1)
      have hAB : A.Carries f B :=
        hBA.symm_of_length_le hAN.1 (hmax (b, B) (hcar.2 ⟨hB, hAN.trans hBA⟩))
      by_cases hdb : b ∈ t.chosen sid f
      · have hla := (mem_chosen_iff hA hAN.1).1 hda
        have hlb := (mem_chosen_iff hB hBA.1).1 hdb
        obtain ⟨o, O, hO, hOA, hstay⟩ :=
          ht t sid h f a b A B hla.1 hlb.1 hba.symm hA hB hla.2.1 hAB hBA
        refine ⟨o, O, (hfind h).2 ⟨hO, fun hdo => ?_⟩, hAN.trans hOA⟩
        obtain ⟨hlo, -, k, K, hK, hko, hKO⟩ := (mem_chosen_iff hO hOA.1).1 hdo
        exact hstay hlo k K hK hko hKO
      · exact ⟨b, B, (hfind h).2 ⟨hB, hdb⟩, hAN.trans hBA⟩
    · exact ⟨a, A, (hfind h).2 ⟨hA, hda⟩, hAN⟩

/-! ## Two networks that carry each other

Two networks with the same anchors cover each other.  When both are left behind at once, both go,
and with them what they were known by. -/

/-- An identity line of a P25 stream. -/
def p25Line (extra nac : String) : DsdEvent :=
  { kind := lit "sync", nac := lit nac, extra := lit extra }

/-- Two P25 streams identify one system under two keys, and leave it. -/
def twinSystems : List Op :=
  [.begin 1 (lit "p25p1") 0 [] 0, .event 1 (p25Line "wacn=BEE00;system_id=123" "") 1,
   .event 1 (p25Line "" "293") 2, .event 1 (p25Line "" "293") 3,
   .begin 1 (lit "p25p1") 4 [] 0, .event 1 (p25Line "" "293") 5, .event 1 (p25Line "" "293") 6,
   .event 1 (p25Line "system_id=123" "") 7,
   .begin 2 (lit "p25p1") 8 [] 0, .event 2 (p25Line "system_id=123" "") 9,
   .begin 2 (lit "p25p1") 10 [] 0, .event 2 (p25Line "wacn=BEE00;system_id=123" "") 11,
   .event 2 (p25Line "" "293") 12, .event 2 (p25Line "" "293") 13,
   .event 1 (p25Line "system_id=999" "") 14]

/-- **Ending the second stream loses the system**: of the two networks that carry it none is
left. -/
theorem not_losesNothing_twinSystems : ¬ (run {} twinSystems).LosesNothing (.finish 2 15) := by
  set s := run {} twinSystems with hs
  intro h
  have hn : (s.wrapUp (.finish 2 15)).any (fun p =>
      ((p.1.family (lit "p25")).networks.find? (lit "sys:123")).any fun N =>
        N.confidence = lit "strong" && (N.anchors (lit "p25")).contains (lit "wacn", lit "BEE00")) =
          true := by
    rw [hs]
    decide +kernel
  have hlost : lit "sys:123" ∉ ((s.step (.finish 2 15)).family (lit "p25")).networks := by
    rw [hs]
    decide +kernel
  have hnone : ∀ e ∈ ((s.step (.finish 2 15)).family (lit "p25")).networks.entries,
      e.2.ids.find? (lit "wacn") ≠ some (lit "BEE00") := by
    rw [hs]
    decide +kernel
  obtain ⟨⟨t, sid⟩, ht, hn⟩ := (Option.any_eq_true _ _).1 hn
  obtain ⟨N, hN, hn⟩ := (Option.any_eq_true _ _).1 hn
  simp only [Bool.and_eq_true, decide_eq_true_eq, List.contains_iff_mem] at hn
  obtain ⟨o, O, hO, hc⟩ := h t sid ht (lit "p25") (lit "sys:123") N hN (.inl hn.1) hlost
  exact hnone (o, O) (SortedMap.find?_eq_some_iff.1 hO) (hc.2 _ hn.2)

end AssocModel

end DsdServer
