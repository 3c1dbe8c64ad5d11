import DsdServer.Assoc.Reachable

/-!
# Assoc/Consistency — what holds in every reachable state

The counters of a family agree with its calls in every state reached without a limit taking effect,
and its references stay within its network table as long as that never fills.

Both are the invariant of a run, read for the whole model.  What is particular to each is under
which limits it holds, and this is why the invariant keeps its parts separate.
-/

open Bytes

namespace DsdServer

namespace AssocModel

/-- **The states a model reaches** from one that knows nothing, by inputs of which `ok` holds. -/
inductive Reached (ok : AssocModel → Op → Prop) : AssocModel → Prop
  | start {s : AssocModel} (hf : s.fams = ∅) (hs : s.sess = ∅) : Reached ok s
  | step {s : AssocModel} {op : Op} (h : Reached ok s) (ho : ok s op) : Reached ok (s.step op)

/-- Along a run from `s`, `ok` holds of every input. -/
def Along (ok : AssocModel → Op → Prop) : AssocModel → List Op → Prop
  | _, [] => True
  | s, op :: ops => ok s op ∧ Along ok (s.step op) ops

instance decidableAlong (ok : AssocModel → Op → Prop) [∀ s op, Decidable (ok s op)] :
    ∀ (s : AssocModel) (ops : List Op), Decidable (Along ok s ops)
  | _, [] => isTrue trivial
  | s, op :: ops =>
    have := decidableAlong ok (s.step op) ops
    inferInstanceAs (Decidable (_ ∧ _))

/-- What a run reaches from a state that was reached. -/
theorem Reached.run {ok : AssocModel → Op → Prop} {ops : List Op} : ∀ {s : AssocModel},
    Reached ok s → Along ok s ops → Reached ok (s.run ops) := by
  induction ops with
  | nil => exact fun h _ => h
  | cons op ops ih => exact fun h ha => ih (h.step ha.1) ha.2

/-- No limit takes effect: the input does what it would do without any. -/
def Unlimited (s : AssocModel) (op : Op) : Prop := s.step op = s.stepWith .unlimited op

/-- The limit on networks does not take effect: the input does what it would do without it. -/
def NetworksFit (s : AssocModel) (op : Op) : Prop :=
  s.step op = s.stepWith { s.limits with networks := none } op

instance (s : AssocModel) (op : Op) : Decidable (Unlimited s op) :=
  inferInstanceAs (Decidable (_ = _))

instance (s : AssocModel) (op : Op) : Decidable (NetworksFit s op) :=
  inferInstanceAs (Decidable (_ = _))

theorem Inv.blank {s : AssocModel} (hf : s.fams = ∅) (L : Limits) : s.Inv L :=
  ⟨fun _ => by
    rw [family, hf]
    exact .blank L _⟩

/-- **The invariant holds along every run without limits.** -/
theorem Reached.inv_unlimited {s : AssocModel} (h : Reached Unlimited s) : s.Inv .unlimited := by
  induction h with
  | start hf _ => exact .blank hf _
  | step _ ho ih =>
    rw [ho]
    exact ih.step _

/-- Apart from the balance, the invariant depends on the limit on networks only. -/
theorem Inv.relimit {s : AssocModel} {L L' : Limits} (h : s.Inv L) (hn : L.networks = none)
    (hu : L' ≠ .unlimited) : s.Inv L' :=
  ⟨fun f => ⟨(h.fam f).kept, (h.fam f).below, fun _ => (h.fam f).rooted hn, fun e => absurd e hu⟩⟩

/-- With every table limited, the invariant does not depend on the limits. -/
theorem Inv.standard {s : AssocModel} {m : ℕ} (h : s.Inv (.standard m)) (n : ℕ) :
    s.Inv (.standard n) :=
  ⟨fun f => ⟨(h.fam f).kept, (h.fam f).below, fun e => absurd e (Option.some_ne_none kMaxNetworks),
    fun e => absurd (congrArg Limits.calls e) (Option.some_ne_none n)⟩⟩

/-- **Every reference stays within the network table** along every run in which it never fills. -/
theorem Reached.rooted {s : AssocModel} (h : Reached NetworksFit s) (f : Bytes) :
    (s.family f).Rooted := by
  -- the limits vary along the run: the invariant is carried for all that leave the table open
  have hinv : ∀ L : Limits, L.networks = none → L ≠ .unlimited → s.Inv L := by
    induction h with
    | start hf _ => exact fun L _ _ => .blank hf L
    | @step s op _ ho ih =>
      intro L _ hu
      have hne : { s.limits with networks := none } ≠ Limits.unlimited :=
        fun e => Option.some_ne_none _ (congrArg Limits.calls e)
      rw [ho]
      exact ((ih _ rfl hne).step op).relimit rfl hu
  exact ((hinv ⟨some 0, none, none, none, none, none⟩ rfl
    fun e => Option.some_ne_none _ (congrArg Limits.calls e)).fam f).rooted rfl

/-- **Pruning spares a network with a counted call, and one a record refers to.** -/
theorem mem_networks_pruneSession (s : AssocModel) (sid : ℕ) (retune : Bool) (f n : Bytes)
    (hn : n ∈ (s.family f).networks)
    (hc : ((s.family f).networks.getD n {}).calls ≠ 0 ∨ ∃ k ∈ (s.family f).calls, k.net = n) :
    n ∈ ((s.pruneSession sid retune).family f).networks := by
  have hdrop : ∀ (l : List Bytes) (F : Family), n ∉ l → n ∈ F.networks →
      n ∈ (l.foldl Family.dropNetwork F).networks := fun l => by
    induction l with
    | nil => exact fun _ _ h => h
    | cons d l ih =>
      intro F hl h
      obtain ⟨hd, hl⟩ := not_or.1 (List.mem_cons.not.1 hl)
      exact ih _ hl (SortedMap.mem_erase.2 ⟨hd, h⟩)
  have hsub : ∀ F : Family, F.isBlank → n ∉ F.networks := fun F hb h => by
    simp only [Family.isBlank, Bool.and_eq_true] at hb
    obtain ⟨v, hv⟩ := SortedMap.mem_iff_find?.1 h
    exact Option.some_ne_none v (hv.symm.trans (SortedMap.isEmpty_iff.1 hb.1.1.1 n))
  rw [AssocModel.pruneSession]
  split
  · exact hn
  · next c _ =>
    dsimp only
    split_ifs
    · exact hn
    · set dead := s.deadNetworks sid c.family retune
      change n ∈ ((if (dead.foldl Family.dropNetwork (s.family c.family)).isBlank then
        s.fams.erase c.family else s.fams.insert c.family _).getD f {}).networks
      by_cases hf : f = c.family
      · have hd : n ∉ dead := fun hd => by
          obtain ⟨hk, hv⟩ := of_mem_deadNetworks hd
          rw [← hf] at hk hv
          rcases hc with hc | ⟨k, hmem, hkn⟩
          · exact hc hv
          · exact hk k hmem hkn
        have hm := hdrop dead (s.family c.family) hd (hf ▸ hn)
        rw [if_neg fun hb => hsub _ hb hm, family_insert, if_pos hf]
        exact hm
      · split_ifs
        · rw [SortedMap.getD, SortedMap.find?_erase, if_neg hf]
          exact hn
        · rw [family_insert, if_neg hf]
          exact hn
    · exact hn

end AssocModel

/-! ## Counters

`Consistent` says in words of calls what the balance says in words of postings: a network counts the
calls recorded on it, a radio those it made or that reached it, each key the calls heard with it.
The sum over the postings is taken apart, account by account. -/

namespace Call

/-- One posting to an account. -/
def tick (d c : Counter) : ℕ := if d = c then 1 else 0

variable (k : Call) (c : Counter)

/-- What a counted call posts to an account. -/
theorem count_basePostings : k.basePostings.count c =
    tick (.net k.net .calls) c + (if k.src = [] then 0 else tick (.radio k.src .calls) c) +
      if k.priv then
        if k.src = [] then 0
        else tick (.radio k.src (.peer k.tgt)) c + tick (.radio k.tgt (.peer k.src)) c
      else tick (.tg k.tgt .calls) c +
        if k.src = [] then 0
        else tick (.tg k.tgt (.radio k.src)) c + tick (.radio k.src (.tg k.tgt)) c := by
  rw [basePostings, sourcePostings, linkPostings, targetPostings]
  split_ifs <;> simp [tick, List.count_cons] <;> omega

theorem count_keyPostings : k.keyPostings.count c =
    tick (.net k.net (.key (encKey k.alg k.kid))) c +
      (if k.priv then 0 else tick (.tg k.tgt (.key (encKey k.alg k.kid))) c) +
        if k.src = [] then 0 else tick (.radio k.src (.key (encKey k.alg k.kid))) c := by
  rw [keyPostings]
  split_ifs <;> simp [tick, List.count_cons] <;> omega

/-- What its marks post to an account. -/
theorem count_endPostings : k.endPostings.count c =
    (if k.emergency then tick (.tg k.tgt .emergencies) c else 0) +
      if k.encrypted then tick (.tg k.tgt .encrypted) c else 0 := by
  rw [endPostings]
  split_ifs <;> simp [tick, List.count_cons, Nat.add_comm]

/-- The postings of a call to an account, one by one. -/
theorem count_postings : k.postings.count c =
    if k.counted then
      k.basePostings.count c + (if k.keyNoted then k.keyPostings.count c else 0) +
        if k.priv || k.isOpen then 0 else k.endPostings.count c
    else 0 := by
  rw [postings]
  split_ifs <;> simp only [List.count_append, List.count_nil]

end Call

namespace Family

/-- **The counters of a family are counts over its calls**; an entity that is not in its table
counts nothing, and neither is a call without a source counted at any radio. -/
structure Consistent (F : Family) : Prop where
  network (n : Bytes) : (F.networks.getD n {}).calls =
    F.calls.countP fun k => k.counted && k.net = n
  networkKey (n key : Bytes) : (F.networks.getD n {}).keys.count key =
    F.calls.countP fun k => k.counted && k.keyNoted && k.net = n && encKey k.alg k.kid = key
  tg (t : Bytes) : (F.tgs.getD t {}).calls =
    F.calls.countP fun k => k.counted && !k.priv && k.tgt = t
  tgRadio (t r : Bytes) (hr : r ≠ []) : (F.tgs.getD t {}).radios.count r =
    F.calls.countP fun k => k.counted && !k.priv && k.tgt = t && k.src = r
  radioTg (r t : Bytes) (hr : r ≠ []) : (F.radios.getD r {}).tgs.count t =
    F.calls.countP fun k => k.counted && !k.priv && k.tgt = t && k.src = r
  emergencies (t : Bytes) : (F.tgs.getD t {}).emergencies =
    F.calls.countP fun k => k.counted && !k.priv && !k.isOpen && k.tgt = t && k.emergency
  encrypted (t : Bytes) : (F.tgs.getD t {}).encrypted =
    F.calls.countP fun k => k.counted && !k.priv && !k.isOpen && k.tgt = t && k.encrypted
  tgKey (t key : Bytes) : (F.tgs.getD t {}).keys.count key =
    F.calls.countP fun k =>
      k.counted && !k.priv && k.keyNoted && k.tgt = t && encKey k.alg k.kid = key
  radio (r : Bytes) (hr : r ≠ []) : (F.radios.getD r {}).calls =
    F.calls.countP fun k => k.counted && k.src = r
  radioKey (r key : Bytes) (hr : r ≠ []) : (F.radios.getD r {}).keys.count key =
    F.calls.countP fun k => k.counted && k.keyNoted && k.src = r && encKey k.alg k.kid = key
  peer (a b : Bytes) (ha : a ≠ []) (hb : b ≠ []) (hab : a ≠ b) :
    (F.radios.getD a {}).peers.count b =
      F.calls.countP fun k =>
        k.counted && k.priv && (k.src = a && k.tgt = b || k.src = b && k.tgt = a)

variable {F : Family}

/-- A balanced family's counter is a count over its calls, when each posts to it at most once. -/
theorem Balanced.count (hb : F.Balanced) {c : Counter} {p : Call → Bool}
    (h : ∀ k, k.postings.count c = if p k then 1 else 0) : F.value c = F.calls.countP p :=
  (hb c).trans (Ledger.posted_eq_countP fun k _ => h k)

/-- **A balanced family is consistent**: account by account, its counters are the calls counted. -/
theorem Balanced.consistent (hb : F.Balanced) : F.Consistent where
  network n := hb.count (c := .net n .calls) fun k => by
    simp [Call.count_postings, Call.count_basePostings, Call.count_keyPostings,
      Call.count_endPostings, Call.tick]
    grind
  networkKey n key := hb.count (c := .net n (.key key)) fun k => by
    simp [Call.count_postings, Call.count_basePostings, Call.count_keyPostings,
      Call.count_endPostings, Call.tick]
    grind
  tg t := hb.count (c := .tg t .calls) fun k => by
    simp [Call.count_postings, Call.count_basePostings, Call.count_keyPostings,
      Call.count_endPostings, Call.tick]
    grind
  tgRadio t r hr := hb.count (c := .tg t (.radio r)) fun k => by
    simp [Call.count_postings, Call.count_basePostings, Call.count_keyPostings,
      Call.count_endPostings, Call.tick]
    grind
  radioTg r t hr := hb.count (c := .radio r (.tg t)) fun k => by
    simp [Call.count_postings, Call.count_basePostings, Call.count_keyPostings,
      Call.count_endPostings, Call.tick]
    grind
  emergencies t := hb.count (c := .tg t .emergencies) fun k => by
    simp [Call.count_postings, Call.count_basePostings, Call.count_keyPostings,
      Call.count_endPostings, Call.tick]
    grind
  encrypted t := hb.count (c := .tg t .encrypted) fun k => by
    simp [Call.count_postings, Call.count_basePostings, Call.count_keyPostings,
      Call.count_endPostings, Call.tick]
    grind
  tgKey t key := hb.count (c := .tg t (.key key)) fun k => by
    simp [Call.count_postings, Call.count_basePostings, Call.count_keyPostings,
      Call.count_endPostings, Call.tick]
    grind
  radio r hr := hb.count (c := .radio r .calls) fun k => by
    simp [Call.count_postings, Call.count_basePostings, Call.count_keyPostings,
      Call.count_endPostings, Call.tick]
    grind
  radioKey r key hr := hb.count (c := .radio r (.key key)) fun k => by
    simp [Call.count_postings, Call.count_basePostings, Call.count_keyPostings,
      Call.count_endPostings, Call.tick]
    grind
  peer a b ha hb' hab := hb.count (c := .radio a (.peer b)) fun k => by
    simp [Call.count_postings, Call.count_basePostings, Call.count_keyPostings,
      Call.count_endPostings, Call.tick]
    grind

end Family


namespace AssocModel

/-- A voice call of a session's stream, from its first line to the end of the stream. -/
def sampleRun : List Op :=
  [.begin 1 (lit "DMR") 1000 (lit "dmr") 434425000,
   .event 1 { kind := lit "voice", talkgroup := lit "9", sourceId := lit "100" } 2000,
   .finish 1 3000]

/-- **The counters of every family agree with its calls**, in every state reached without a limit
taking effect. -/
theorem counters_consistent {s : AssocModel} (h : Reached Unlimited s) (f : Bytes) :
    (s.family f).Consistent :=
  ((h.inv_unlimited.fam f).balanced rfl).consistent

/-- The call of the sample run is counted, and its talkgroup agrees. -/
theorem counters_consistent_sampleRun :
    ((run {} sampleRun).family (lit "dmr")).Consistent ∧
      ((run {} sampleRun).family (lit "dmr")).calls.countP (·.counted) = 1 :=
  ⟨counters_consistent (Reached.run (.start rfl rfl) (by decide +kernel)) _, by decide +kernel⟩

/-! ## References

A reference that dangles is a key that no network of the family has.  Only a network that is dropped
to make room could leave one behind, so the runs are those in which the network table never
overflows. -/

/-- **Every network a record refers to is in the table of its family**, in every state reached
without the limit on networks taking effect; and pruning a stream's networks, in whatever state,
spares one with a counted call and one a call record refers to. -/
theorem references_rooted {s : AssocModel} (h : Reached NetworksFit s) (f : Bytes) :
    ((∀ k ∈ (s.family f).calls, k.net ∈ (s.family f).networks) ∧
      (∀ t T, (s.family f).tgs.find? t = some T → ∀ n ∈ T.networks, n ∈ (s.family f).networks) ∧
      (∀ r R, (s.family f).radios.find? r = some R →
        ∀ n ∈ R.networks, n ∈ (s.family f).networks)) ∧
    ∀ (t : AssocModel) (sid : ℕ) (retune : Bool) (n : Bytes), n ∈ (t.family f).networks →
      (((t.family f).networks.getD n {}).calls ≠ 0 ∨ ∃ k ∈ (t.family f).calls, k.net = n) →
      n ∈ ((t.pruneSession sid retune).family f).networks := by
  have hr := h.rooted f
  exact ⟨⟨hr.calls, hr.tgs, hr.radios⟩, fun t sid retune n hn hc =>
    mem_networks_pruneSession t sid retune f n hn hc⟩

/-- The call of the sample run is on a network of its family. -/
theorem references_rooted_sampleRun :
    (∀ k ∈ ((run {} sampleRun).family (lit "dmr")).calls,
      k.net ∈ ((run {} sampleRun).family (lit "dmr")).networks) ∧
      ((run {} sampleRun).family (lit "dmr")).calls ≠ [] :=
  ⟨(references_rooted (Reached.run (.start rfl rfl) (by decide +kernel)) _).1.1, by decide +kernel⟩

end AssocModel

end DsdServer
