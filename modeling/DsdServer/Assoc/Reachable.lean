import DsdServer.Assoc.Audio
import DsdServer.Assoc.Networks

/-!
# Assoc/Reachable — the invariant of the model

`FamInv` collects what holds of a family: its records, the references into its network table when
the table never overflows, and the balance of its counters when no limit is in force.  Every input
keeps it in every family (`Inv.step`).

The invariant is put together from parts that are kept for different reasons: the records by
themselves, the references because the tables agree, the counters because each operation posts what
it changes.  So an input is treated by its parts, and each part by the lemma of its own module.
What is left here is to go through the inputs.
-/

open Bytes

namespace DsdServer

/-- **The invariant of a family**, under limits `L`, with `n` the last call id given out. -/
structure FamInv (L : Limits) (n : ℕ) (F : Family) : Prop where
  kept : F.Kept
  below : ∀ i ∈ F.callIds, i ≤ n
  rooted : L.networks = none → F.Rooted
  balanced : L = .unlimited → F.Balanced

namespace FamInv

variable {L : Limits} {n n' : ℕ} {F F' : Family}

theorem blank (L : Limits) (n : ℕ) : FamInv L n {} where
  kept := ⟨List.nodup_nil, fun _ h => absurd h List.not_mem_nil, SortedMap.not_mem_empty _⟩
  below _ h := absurd h List.not_mem_nil
  rooted _ := ⟨fun _ h => absurd h List.not_mem_nil, SortedMap.all_empty, SortedMap.all_empty⟩
  balanced _ := Family.value_default

/-- Call ids that were given out stay given out. -/
theorem mono (h : FamInv L n F) (hn : n ≤ n') : FamInv L n' F :=
  ⟨h.kept, fun i hi => (h.below i hi).trans hn, h.rooted, h.balanced⟩

theorem spot {w : FamilyState} (h : FamInv L n w.fam) : Spot (w, n) := ⟨h.kept, h.below⟩

/-- A stretch of call handling by a stream whose network is in the table. -/
theorem edits {w w' : FamilyState} {net : Bytes} (h : FamInv L n w.fam)
    (he : Relation.ReflTransGen (Edit L net) (w, n) (w', n')) (hn : net ∈ w.fam.networks) :
    FamInv L n' w'.fam where
  kept := (h.spot.edits he).kept
  below := (h.spot.edits he).below
  rooted hL := (edits_rooted he h.spot (h.rooted hL) hn).1
  balanced hL := by
    subst hL
    exact edits_balanced he h.spot (h.rooted rfl) hn (h.balanced rfl)

/-- A call that ends keeps the invariant. -/
theorem closeCall {w : FamilyState} (h : FamInv L n w.fam) (id : ℕ) :
    FamInv L n (w.closeCall L id).fam where
  kept := (h.kept.closeCall id).1
  below i hi := h.below i ((h.kept.closeCall (L := L) id).2 ▸ hi)
  rooted hL := ((h.rooted hL).closeCall id).imp fun m hm => (mem_networks_closeCall w id m).2 hm
  balanced hL := by
    subst hL
    exact (h.balanced rfl).closeCall h.kept (h.rooted rfl).calls id

theorem closeSessionCalls {w : FamilyState} (h : FamInv L n w.fam) (sid : ℕ) :
    FamInv L n (w.closeSessionCalls L sid).fam ∧ (w.closeSessionCalls L sid).name = w.name := by
  rw [FamilyState.closeSessionCalls]
  induction w.fam.calls.filter (·.session = sid) generalizing w with
  | nil => exact ⟨h, rfl⟩
  | cons k l ih =>
    obtain ⟨h1, h2⟩ := ih (h.closeCall k.id)
    exact ⟨h1, h2.trans (w.name_closeCall L k.id)⟩

/-- Only recordings change. -/
theorem settle (h : FamInv L n F) {g : Call → Call} (hg : Settles g) (id : ℕ) :
    FamInv L n (F.modifyCall id g) := by
  rcases hk : F.findCall id with _ | k
  · rwa [Family.modifyCall_of_none hk]
  · refine ⟨h.kept.amend hk (hg.amends [] k), fun i hi => h.below i ?_, fun hL => ?_, fun hL => ?_⟩
    · rwa [Family.callIds_modifyCall hg.id_eq] at hi
    · exact (h.rooted hL).modifyCall' id fun k => by
        obtain ⟨s, b, hgk⟩ := hg k
        rw [hgk]
    · exact (h.balanced hL).amend h.kept hk (hg.amends [] k)

theorem setKeep {w : FamilyState} (h : FamInv L n w.fam) (id : ℕ) (on : Bool) (now : ℤ) :
    FamInv L n (w.setKeep id on now).fam := by
  obtain ⟨g, hg, hw⟩ := FamilyState.fam_setKeep w id on now
  rw [hw]
  exact h.settle hg id

/-- Only the network table changes: no key goes, and no counter moves. -/
theorem onNetworks (h : FamInv L n F) {N : SortedMap Bytes Network}
    (hN : L.networks = none → ∀ m ∈ F.networks, m ∈ N)
    (hv : L = .unlimited → Family.value { F with networks := N } = F.value) :
    FamInv L n { F with networks := N } where
  kept := h.kept.congr rfl h.kept.radios
  below := h.below
  rooted hL := by
    have hr := (h.rooted hL).imp (hN hL)
    exact ⟨hr.calls, hr.tgs, hr.radios⟩
  balanced hL := (h.balanced hL).congr (hv hL) rfl

/-- A network is created on demand, and changes without counting. -/
theorem ensureNetwork (h : FamInv L n F) (key : Bytes) (now : ℤ) {g : Network → Network}
    (hg : ∀ m : Network, (g m).value = m.value) :
    FamInv L n ((F.ensureNetwork L key now).onNetwork key g) := by
  refine h.onNetworks (fun hL m hm => SortedMap.mem_modify.2 ?_) fun hL => ?_
  · change m ∈ ensure L.networks _ _ _ _
    rw [hL]
    exact Family.mem_ensure_none.2 (Or.inr hm)
  · subst hL
    exact (Family.value_onNetwork (F := F.ensureNetwork .unlimited key now) hg).trans
      (Family.value_ensureNetwork F key now)

/-- Two networks that turn out to be one. -/
theorem mergeNetwork (h : FamInv L n F) {frm dst : Bytes} (hne : frm ≠ dst) :
    FamInv L n (F.mergeNetwork L frm dst) where
  kept := h.kept.mergeNetwork
  below i hi := h.below i (by rwa [Family.callIds_mergeNetwork] at hi)
  rooted hL := (h.rooted hL).mergeNetwork hne
  balanced hL := by
    subst hL
    exact (h.balanced rfl).mergeNetwork hne

/-- A stream is heard on its network. -/
theorem hear (h : FamInv L n F) (c : Ctx) (sid : ℕ) (now : ℤ) :
    FamInv L n { F with
      networks := F.networks.insert c.net ((F.networks.getD c.net {}).hear c sid now) } := by
  refine h.onNetworks (fun _ m hm => SortedMap.mem_insert.2 (Or.inr hm)) fun _ => ?_
  funext x
  cases x with
  | net m x =>
    simp only [Family.value, SortedMap.getD_insert]
    split_ifs with hm
    · rw [hm]
      cases x <;> rfl
    · rfl
  | tg => rfl
  | radio => rfl

end FamInv

namespace AssocModel

/-- **The invariant of the model**: every family's. -/
structure Inv (L : Limits) (s : AssocModel) : Prop where
  fam : ∀ f, FamInv L s.nextCall (s.family f)

variable {L : Limits} {s s' : AssocModel} {sid : ℕ} {now : ℤ}

/-- Looking a family up after one was put in. -/
theorem family_insert (m : SortedMap Bytes Family) (f g : Bytes) (F : Family) :
    (m.insert f F).getD g {} = if g = f then F else m.getD g {} := by
  rw [SortedMap.getD_insert]
  split_ifs <;> rfl

/-- The invariant is about the families and the ids given out. -/
theorem Inv.congr (h : s.Inv L) (hf : s'.fams = s.fams) (hn : s'.nextCall = s.nextCall) :
    s'.Inv L := ⟨fun f => by
  rw [family, hf, hn]
  exact h.fam f⟩

/-- One family changes. -/
theorem Inv.insert (h : s.Inv L) {f : Bytes} {F : Family} (hs : s'.fams = s.fams.insert f F)
    (hn : s.nextCall ≤ s'.nextCall) (hF : FamInv L s'.nextCall F) : s'.Inv L := ⟨fun g => by
  rw [family, hs, family_insert]
  split_ifs
  · exact hF
  · exact (h.fam g).mono hn⟩

/-- Closing the calls of a stream, in its family. -/
theorem Inv.closeSessionCalls (h : s.Inv L) (sid : ℕ) : (s.closeSessionCalls L sid).Inv L := by
  rw [AssocModel.closeSessionCalls]
  split
  · exact h
  · split_ifs
    · exact h.insert rfl le_rfl ((h.fam _).closeSessionCalls (w := s.desk _) sid).1
    · exact h

/-- What a stream leaves behind is on no record, and counts nothing. -/
theorem of_mem_deadNetworks {f : Bytes} {retune : Bool} {n : Bytes}
    (hn : n ∈ s.deadNetworks sid f retune) :
    (∀ k ∈ (s.family f).calls, k.net ≠ n) ∧ (s.family f).value (.net n .calls) = 0 := by
  obtain ⟨e, he, rfl⟩ := List.mem_map.1 hn
  obtain ⟨hm, hp⟩ := List.mem_filter.1 he
  simp only [Bool.and_eq_true, decide_eq_true_eq, Bool.not_eq_true'] at hp
  refine ⟨fun k hk hke => ?_, ?_⟩
  · have := hp.2
    rw [List.any_eq_false] at this
    exact this k hk (decide_eq_true hke)
  · rw [Family.value, SortedMap.getD_of_find? (SortedMap.find?_eq_some_iff.2 hm)]
    exact hp.1.1.1.1

/-- Networks that nothing refers to may go. -/
theorem Inv.dropNetworks (h : s.Inv L) {f : Bytes} {dead : List Bytes}
    (hd : ∀ n ∈ dead, (∀ k ∈ (s.family f).calls, k.net ≠ n) ∧
      (s.family f).value (.net n .calls) = 0) : (s.dropNetworks f dead).Inv L := by
  set F := dead.foldl Family.dropNetwork (s.family f)
  obtain ⟨hk, hc, hr, hb⟩ := Family.drop_networks dead (h.fam f).kept fun n hn => (hd n hn).1
  have hF : FamInv L s.nextCall F := ⟨hk, fun i hi => (h.fam f).below i
      (by rwa [Family.callIds_congr hc] at hi), fun hL => hr ((h.fam f).rooted hL),
    fun hL => hb ((h.fam f).balanced hL) fun n hn => (hd n hn).2⟩
  refine ⟨fun g => ?_⟩
  change FamInv L s.nextCall ((if F.isBlank then s.fams.erase f else s.fams.insert f F).getD g {})
  split_ifs
  · rw [SortedMap.getD, SortedMap.find?_erase]
    split_ifs
    · exact .blank L _
    · exact h.fam g
  · rw [family_insert]
    split_ifs
    · exact hF
    · exact h.fam g

/-- **Pruning keeps the invariant**: what it drops is not referred to. -/
theorem Inv.pruneSession (h : s.Inv L) (sid : ℕ) (retune : Bool) :
    (s.pruneSession sid retune).Inv L := by
  rw [AssocModel.pruneSession]
  split
  · exact h
  · next c _ =>
    dsimp only
    split_ifs
    · exact h
    · have h₁ : (s.setCtx sid (c.leave (s.deadNetworks sid c.family retune))).Inv L :=
        h.congr rfl rfl
      exact (h₁.dropNetworks fun n hn => of_mem_deadNetworks (s := s) hn).congr rfl rfl
    · exact h

theorem Inv.beginStream (h : s.Inv L) (sid : ℕ) (label : Bytes) (now : ℤ) (family : Bytes)
    (freq : ℤ) : (s.beginStream L sid label now family freq).Inv L := by
  have h₁ : (s.record (assoclog.beginLine now sid label freq)).Inv L := h.congr rfl rfl
  exact ((h₁.closeSessionCalls sid).pruneSession sid false).congr rfl rfl

theorem Inv.retuneStream (h : s.Inv L) (sid : ℕ) (freq now : ℤ) :
    (s.retuneStream L sid freq now).Inv L := by
  rw [AssocModel.retuneStream]
  split
  · exact h
  · split_ifs
    · exact h
    · have h₁ : (s.record (assoclog.tuneLine now sid freq)).Inv L := h.congr rfl rfl
      exact ((h₁.closeSessionCalls sid).pruneSession sid true).congr rfl rfl

theorem Inv.endStream (h : s.Inv L) (sid : ℕ) (now : ℤ) : (s.endStream L sid now).Inv L := by
  have h₁ : (s.record (assoclog.endLine now sid)).Inv L := h.congr rfl rfl
  have h₂ := h₁.closeSessionCalls sid
  set s₂ := (s.record (assoclog.endLine now sid)).closeSessionCalls L sid
  have h₃ : Inv L { s₂ with sess := s₂.sess.modify sid Ctx.stop } := h₂.congr rfl rfl
  exact (h₃.pruneSession sid false).congr rfl rfl

theorem Inv.removeSession (h : s.Inv L) (sid : ℕ) (now : ℤ) :
    (s.removeSession L sid now).Inv L := by
  have h₁ : (s.record (assoclog.removeLine now sid)).Inv L := h.congr rfl rfl
  exact ((h₁.closeSessionCalls sid).pruneSession sid false).congr rfl rfl

/-- A model that is cleared has nothing to keep in order. -/
theorem Inv.clear (now : ℤ) : (s.clear now).Inv L := ⟨fun _ => .blank L 0⟩

/-! ## Events

An event first says something of the stream's network: it may name it, find it in the table, or show
that two entries of the table are one.  After that it is handled as a call, by a stream whose
network is in the table, and that is a stretch of edits. -/

/-- What a stream believes of its network leaves its family. -/
theorem believe_family (c : Ctx) (got : SortedMap Bytes Bytes) :
    (believe c got).1.family = c.family := by
  have h : ∀ (l : List (Bytes × Bytes)) (acc : Ctx × SortedMap Bytes Bytes),
      (l.foldl (fun (acc : Ctx × SortedMap Bytes Bytes) kv =>
        if isWeakAnchor kv.1 then
          let p := sight acc.1.ids acc.1.pending kv.1 kv.2
          ({ acc.1 with pending := p.1 }, if p.2 then acc.2 else acc.2.erase kv.1)
        else acc) acc).1.family = acc.1.family := fun l => by
    induction l with
    | nil => exact fun _ => rfl
    | cons e l ih =>
      intro acc
      rw [List.foldl_cons, ih]
      split_ifs <;> rfl
  exact h got.entries (c, got)

/-- Reading identity tokens keeps a stream's protocol. -/
theorem absorbIdentity_family (c : Ctx) (r : Reading) :
    (absorbIdentity c r).ctx.family = c.family := by
  have hlook : (c.lookAround r).family = c.family := by
    rw [Ctx.lookAround]
    split_ifs <;> rfl
  have htake : ∀ (c : Ctx) (got : SortedMap Bytes Bytes),
      ((c.startOver got).take got).1.family = c.family := fun c got => by
    have h : (c.startOver got).family = c.family := by
      rw [Ctx.startOver]
      split_ifs <;> rfl
    rw [Ctx.take]
    split_ifs <;> exact h
  rw [absorbIdentity, absorbTokens]
  dsimp only
  split_ifs
  · exact hlook
  · exact hlook
  · exact (believe_family ..).trans hlook
  · exact (htake _ _).trans ((believe_family ..).trans hlook)

/-- The context that was set is the one that is read. -/
theorem ctx_setCtx (s : AssocModel) (sid : ℕ) (c : Ctx) : (s.setCtx sid c).ctx sid = c := by
  rw [ctx, setCtx, SortedMap.getD_insert, if_pos rfl]

/-- Merging networks, in one family of the model. -/
theorem Inv.mergeNetwork (h : s.Inv L) (f : Bytes) {frm dst : Bytes} (hne : frm ≠ dst) :
    (s.mergeNetwork L f frm dst).Inv L := by
  rw [AssocModel.mergeNetwork]
  dsimp only
  split_ifs
  · exact h.insert rfl le_rfl ((h.fam f).mergeNetwork hne)
  · exact h

theorem Inv.resolveNetwork (h : s.Inv L) (sid : ℕ) (now : ℤ) :
    (s.resolveNetwork L sid now).Inv L := by
  set c := s.ctx sid
  set id := networkId c sid (s.family c.family)
  set F := (s.family c.family).place L id c now
  have h₁ : (s.setFamily c.family F).Inv L :=
    h.insert rfl le_rfl ((h.fam _).ensureNetwork id.key now fun m => by funext c; cases c <;> rfl)
  have h₂ : (if F.foldsAway c sid id.key then
      (s.setFamily c.family F).mergeNetwork L c.family c.net id.key
      else s.setFamily c.family F).Inv L := by
    split_ifs with hm
    · obtain ⟨pn, -, hp⟩ := (Option.any_eq_true _ _).1 hm
      simp only [Bool.and_eq_true, decide_eq_true_eq] at hp
      exact h₁.mergeNetwork _ hp.1.2
    · exact h₁
  exact h₂.congr rfl rfl

theorem Inv.noteNeighbour (h : s.Inv L) (sid : ℕ) (site : Bytes) :
    (s.noteNeighbour sid site).Inv L := by
  rw [AssocModel.noteNeighbour]
  split_ifs
  · exact h
  · refine h.insert rfl le_rfl
      ((h.fam _).onNetworks (fun _ m hm => SortedMap.mem_modify.2 hm) fun _ => ?_)
    exact Family.value_onNetwork fun m => by funext c; cases c <;> rfl

/-- Resolving its network leaves a stream's protocol. -/
theorem family_resolveNetwork (s : AssocModel) (sid : ℕ) (now : ℤ) :
    ((s.resolveNetwork L sid now).ctx sid).family = (s.ctx sid).family := by
  have h (t : AssocModel) (key : Bytes) :
      ((t.setCtx sid ((s.ctx sid).settle key)).ctx sid).family = (s.ctx sid).family := by
    rw [ctx_setCtx]
    rfl
  exact h _ _

theorem ctx_noteNeighbour (s : AssocModel) (sid : ℕ) (site : Bytes) (i : ℕ) :
    (s.noteNeighbour sid site).ctx i = s.ctx i := by
  rw [AssocModel.noteNeighbour]
  split_ifs <;> rfl

/-- **After its identity is resolved, a stream's network is in the table of its family.** -/
theorem Inv.identify (h : s.Inv L) (sid : ℕ) (r : Reading) (now : ℤ) :
    (s.identify L sid r now).Inv L ∧
      ((s.identify L sid r now).ctx sid).net ∈
        ((s.identify L sid r now).family ((s.identify L sid r now).ctx sid).family).networks := by
  set f := (s.ctx sid).family
  set s₁ := (s.setFamily f (s.family f)).bumpVersion
  have h₁ : s₁.Inv L := h.insert (f := f) rfl le_rfl (h.fam f)
  set a := absorbIdentity (s₁.ctx sid) r
  set s₂ := (s₁.setCtx sid a.ctx).noteNeighbour sid a.neighbour
  have h₂ : s₂.Inv L :=
    Inv.noteNeighbour (s := s₁.setCtx sid a.ctx) (h₁.congr rfl rfl) sid a.neighbour
  have hf₂ : (s₂.ctx sid).family = f := by
    rw [ctx_noteNeighbour, ctx_setCtx]
    exact absorbIdentity_family _ r
  obtain ⟨s₃, hs₃⟩ : ∃ s₃, s₃ = if a.changed ∨ a.ctx.net = [] ∨ a.ctx.net ∉ (s₂.family f).networks
    then s₂.resolveNetwork L sid now else s₂ := ⟨_, rfl⟩
  have h₃ : s₃.Inv L ∧ (s₃.ctx sid).family = f := by
    rw [hs₃]
    split_ifs
    · exact ⟨h₂.resolveNetwork sid now, (family_resolveNetwork ..).trans hf₂⟩
    · exact ⟨h₂, hf₂⟩
  have he : s.identify L sid r now = s₃.setFamily f { s₃.family f with
      networks := (s₃.family f).networks.insert (s₃.ctx sid).net
        (((s₃.family f).networks.getD (s₃.ctx sid).net {}).hear (s₃.ctx sid) sid now) } := by
    rw [hs₃]
    rfl
  rw [he]
  refine ⟨h₃.1.insert rfl le_rfl ((h₃.1.fam f).hear (s₃.ctx sid) sid now), ?_⟩
  change (s₃.ctx sid).net ∈ ((s₃.setFamily f _).family (s₃.ctx sid).family).networks
  rw [h₃.2, family, setFamily, family_insert, if_pos rfl]
  exact SortedMap.mem_insert.2 (Or.inl rfl)

/-- The call handling of an event works on one family. -/
theorem Inv.putStream (h : s.Inv L) {st : StreamState}
    (hw : Works L (s.stream sid) st)
    (hn : (s.ctx sid).net ∈ (s.family (s.ctx sid).family).networks) :
    (s.putStream sid st).Inv L := by
  have hF : FamInv L s.nextCall (s.stream sid).fam := h.fam _
  have he := hw.edits hF.spot
  refine h.insert rfl (le_of_edits he) (hF.edits he hn)

/-- **Every event keeps the invariant.** -/
theorem Inv.ingest (h : s.Inv L) (sid : ℕ) (ev : DsdEvent) (now : ℤ) :
    (s.ingest L sid ev now).Inv L := by
  have h₁ : (s.record (assoclog.eventLine now sid ev)).Inv L := h.congr rfl rfl
  rw [AssocModel.ingest]
  dsimp only
  split
  · exact h₁
  · next c _ =>
    have h₂ : ((s.record (assoclog.eventLine now sid ev)).setCtx sid
        (c.gate (.ofEvent ev) now).1).Inv L := h₁.congr rfl rfl
    split_ifs
    · obtain ⟨h₃, hn⟩ := h₂.identify sid (.ofEvent ev) now
      exact h₃.putStream ((StreamState.works_expire L _ now).trans (StreamState.works_handle ..)) hn
    · exact h₂

/-! ## Audio

Storing audio changes a call in what it keeps of its recording, and no further.  Such changes are
`Settled`, and everything the invariant speaks of is the same before and after. -/

end AssocModel

/-- Only recordings of a family change. -/
def Family.Settled : Family → Family → Prop :=
  Relation.ReflTransGen fun F F' => ∃ g id, Settles g ∧ F' = F.modifyCall id g

namespace Family.Settled

variable {F F' F'' : Family}

theorem refl (F : Family) : F.Settled F := Relation.ReflTransGen.refl

theorem trans (h : F.Settled F') (h' : F'.Settled F'') : F.Settled F'' :=
  Relation.ReflTransGen.trans h h'

theorem single (F : Family) (id : ℕ) {g : Call → Call} (hg : Settles g) :
    F.Settled (F.modifyCall id g) :=
  Relation.ReflTransGen.single ⟨g, id, hg, rfl⟩

end Family.Settled

/-- **Settling audio keeps the invariant of a family.** -/
theorem FamInv.settled {L : Limits} {n : ℕ} {F F' : Family} (h : FamInv L n F) (hs : F.Settled F') :
    FamInv L n F' := by
  induction hs with
  | refl => exact h
  | tail _ e ih =>
    obtain ⟨g, id, hg, rfl⟩ := e
    exact ih.settle hg id

namespace AssocModel

variable {L : Limits} {s s' : AssocModel}

/-- **Only recordings change**: no call is opened, and the limit of the call list stays. -/
structure Settled (s s' : AssocModel) : Prop where
  next : s'.nextCall = s.nextCall
  limit : s'.maxCalls = s.maxCalls
  fam : ∀ f, (s.family f).Settled (s'.family f)

namespace Settled

variable {s'' : AssocModel}

/-- What touches no family settles nothing. -/
theorem of_fams (hf : s'.fams = s.fams) (hn : s'.nextCall = s.nextCall)
    (hm : s'.maxCalls = s.maxCalls) :
    Settled s s' := ⟨hn, hm, fun f => by
  rw [family, family, hf]
  exact .refl _⟩

theorem refl (s : AssocModel) : Settled s s := of_fams rfl rfl rfl

theorem trans (h : Settled s s') (h' : Settled s' s'') : Settled s s'' :=
  ⟨h'.next.trans h.next, h'.limit.trans h.limit, fun f => (h.fam f).trans (h'.fam f)⟩

/-- Recordings of one family change. -/
theorem insert {f : Bytes} {F : Family} (hF : (s.family f).Settled F)
    (hs : s'.fams = s.fams.insert f F) (hn : s'.nextCall = s.nextCall)
    (hm : s'.maxCalls = s.maxCalls) : Settled s s' := ⟨hn, hm, fun g => by
  have hg : s'.family g = if g = f then F else s.family g := by rw [family, hs, family_insert]; rfl
  rw [hg]
  split_ifs with hg
  · rw [hg]
    exact hF
  · exact .refl _⟩

/-- A run of steps. -/
theorem foldl {α : Type*} {g : AssocModel → α → AssocModel} (hg : ∀ s a, Settled s (g s a)) :
    ∀ (l : List α) (s : AssocModel), Settled s (l.foldl g s) := fun l => by
  induction l with
  | nil => exact refl
  | cons a l ih => exact fun s => (hg s a).trans (ih (g s a))

end Settled

/-- Work on the family of a stream that settles it settles the model. -/
theorem settled_onDesk (s : AssocModel) (sid : ℕ) {g : FamilyState → FamilyState}
    (hg : ∀ w : FamilyState, (g w).name = w.name)
    (hF : ∀ w : FamilyState, w.fam.Settled (g w).fam) :
    Settled s (s.onDesk sid g) := by
  refine .insert (f := (s.ctx sid).family) (hF (s.desk (s.ctx sid).family)) ?_ rfl rfl
  rw [AssocModel.onDesk, putDesk, hg]
  rfl

theorem settled_onSound (s : AssocModel) (sid id : ℕ) (g : Recording → Recording) :
    Settled s (s.onSound sid id g) :=
  s.settled_onDesk sid (fun _ => rfl) fun w => .single w.fam id (settles_onSound g)

theorem name_setKeep (w : FamilyState) (id : ℕ) (on : Bool) (now : ℤ) :
    (w.setKeep id on now).name = w.name := by
  rw [FamilyState.setKeep]
  split
  · rfl
  · split_ifs <;> rfl

theorem fam_settled_setKeep (w : FamilyState) (id : ℕ) (on : Bool) (now : ℤ) :
    w.fam.Settled (w.setKeep id on now).fam := by
  obtain ⟨g, hg, hw⟩ := FamilyState.fam_setKeep w id on now
  rw [hw]
  exact .single w.fam id hg

/-- Marking a call to be kept is settling. -/
theorem settled_setKeep (s : AssocModel) (sid id : ℕ) (on : Bool) (now : ℤ) :
    Settled s (s.onDesk sid fun w => w.setKeep id on now) :=
  s.settled_onDesk sid (fun w => name_setKeep w id on now) fun w => fam_settled_setKeep w id on now

theorem settled_refuse (s : AssocModel) (sid : ℕ) (k : Call) (now : ℤ) :
    Settled s (s.refuse sid k now) := by
  have h₁ := s.settled_onSound sid k.id fun r => { r with noAudio := true }
  rw [AssocModel.refuse]
  refine Settled.trans ?_ (settled_setKeep _ sid k.id false now)
  split_ifs
  · exact h₁
  · set s₁ := s.onSound sid k.id fun r => { r with noAudio := true }
    set s₂ := { s₁ with store := s₁.store.discard k.sound.audio }
    have h₂ : Settled s₁ s₂ := .of_fams rfl rfl rfl
    have h₃ := s₂.settled_onSound sid k.id fun r => { r with audio := [] }
    exact ((h₁.trans h₂).trans h₃).trans (.of_fams rfl rfl rfl)

/-- A block that goes into an open file. -/
theorem settled_pour (s : AssocModel) (sid id : ℕ) (name : Bytes) (pcm : List Sample) (now : ℤ) :
    Settled s (s.pour sid id name pcm now) :=
  have h₁ : Settled s { s with store := s.store.append name pcm now } := .of_fams rfl rfl rfl
  h₁.trans
    (settled_onSound _ sid id fun r => { r with audioSamples := r.audioSamples + pcm.length })

theorem settled_openRecording (s : AssocModel) (sid : ℕ) (k : Call) (slot : ℤ)
    (store : CallAudioStore) (name : Bytes) (held : List Preroll) (now : ℤ) :
    Settled s (s.openRecording sid k slot store name held now) := by
  have h₁ : Settled s { s with store := store } := .of_fams rfl rfl rfl
  have h₂ := h₁.trans (settled_onSound _ sid k.id fun r =>
    { r with audio := name, audioSid := sid, audioSlot := slot })
  have h₃ := h₂.trans (settled_setKeep _ sid k.id true now)
  have h₄ := h₃.trans (.foldl (fun s h => s.settled_pour sid k.id name h.pcm now) held _)
  exact h₄.trans (.of_fams rfl rfl rfl)

/-- A recording that the store has evicted. -/
theorem settled_dropEvicted (s : AssocModel) (now : ℤ) (name : Bytes) :
    Settled s (AssocModel.dropEvicted now s name) := by
  rw [AssocModel.dropEvicted]
  split
  · exact .refl s
  · next f k _ =>
    refine .insert (f := f) ((fam_settled_setKeep (s.desk f) k.id false now).trans
      (.single _ k.id settles_dropSound)) ?_ rfl rfl
    change s.fams.insert ((s.desk f).setKeep k.id false now).name _ = _
    rw [name_setKeep]
    rfl

/-- All recordings that the store has evicted. -/
theorem settled_reconcileEvicted (s : AssocModel) (now : ℤ) :
    Settled s (s.reconcileEvicted now) := by
  set s₁ := { s with store := { s.store with evicted := [] } }
  have h₁ : Settled s s₁ := .of_fams rfl rfl rfl
  have h₂ := h₁.trans (.foldl (fun s name => s.settled_dropEvicted now name) s.store.evicted s₁)
  rw [AssocModel.reconcileEvicted]
  dsimp only
  split_ifs
  · exact .refl s
  · exact h₂.trans (.of_fams rfl rfl rfl)
  · exact h₂

theorem settled_appendBlock (s : AssocModel) (sid id : ℕ) (name : Bytes) (pcm : List Sample)
    (now : ℤ) :
    Settled s (s.appendBlock sid id name pcm now) :=
  (s.settled_pour sid id name pcm now).trans (settled_reconcileEvicted _ now)

/-- A block that is stored, with the file it may open. -/
theorem settled_storeBlock (s : AssocModel) (sid : ℕ) (k : Call) (slot : ℤ) (pcm : List Sample)
    (creatable : Bool) (now : ℤ) : Settled s (s.storeBlock sid k slot pcm creatable now) := by
  rw [AssocModel.storeBlock]
  dsimp only
  split_ifs
  · exact .refl s
  · split
    · exact .refl s
    · exact (s.settled_openRecording ..).trans (settled_appendBlock ..)
  · exact .refl s
  · exact (s.settled_onSound ..).trans (settled_appendBlock ..)
  · exact s.settled_appendBlock ..

/-- A block that passes the gate, or waits before it. -/
theorem settled_gateBlock (s : AssocModel) (sid : ℕ) (k : Call) (slot : ℤ) (pcm : List Sample)
    (keyed creatable : Bool) (now : ℤ) :
    Settled s (s.gateBlock sid k slot pcm keyed creatable now) := by
  rw [AssocModel.gateBlock]
  dsimp only
  split_ifs
  · exact .refl s
  · exact s.settled_refuse sid k now
  · exact (s.settled_onSound ..).trans (settled_storeBlock ..)
  · exact s.settled_storeBlock ..

/-- **A block of audio changes recordings only.** -/
theorem settled_audio (s : AssocModel) (sid : ℕ) (slot : ℤ) (pcm : List ℤ) (keyed creatable : Bool)
    (now : ℤ) : Settled s (s.audio sid slot pcm keyed creatable now) := by
  have hroute (pcm : List Sample) : Settled s (s.routeBlock sid slot pcm keyed creatable now) := by
    rw [routeBlock]
    split
    · split
      · exact .refl s
      · exact .of_fams rfl rfl rfl
    split
    · split
      · exact .refl s
      · split
        · exact .refl s
        · exact s.settled_gateBlock ..
    · exact s.settled_gateBlock ..
  rw [AssocModel.audio]
  split
  · exact .refl s
  split
  · exact .refl s
  split
  · exact .refl s
  · exact hroute _

theorem settled_startAudio (s : AssocModel) (listing : List AudioEntry) (cap : ℕ) (maxAge now : ℤ) :
    Settled s (s.startAudio listing cap maxAge now) := by
  rw [AssocModel.startAudio]
  split_ifs
  · exact .refl s
  · have h₁ :
        Settled s { s with store := s.store.enable listing cap maxAge now, audioOn := true } :=
      .of_fams rfl rfl rfl
    exact (h₁.trans (settled_reconcileEvicted _ now)).trans (.of_fams rfl rfl rfl)

/-- What settles the calls keeps the invariant. -/
theorem Inv.settled (h : s.Inv L) (hs : Settled s s') : s'.Inv L := ⟨fun f => by
  rw [hs.next]
  exact (h.fam f).settled (hs.fam f)⟩

/-- **Every input keeps the invariant.** -/
theorem Inv.step (h : s.Inv L) (op : Op) : (s.stepWith L op).Inv L := by
  cases op with
  | begin sid label now family freq => exact h.beginStream sid label now family freq
  | retune sid freq now => exact h.retuneStream sid freq now
  | event sid ev now => exact h.ingest sid ev now
  | audio sid slot pcm keyed creatable now =>
    exact h.settled (s.settled_audio sid slot pcm keyed creatable now)
  | finish sid now => exact h.endStream sid now
  | remove sid now => exact h.removeSession sid now
  | clear now => exact .clear now
  | startAudio listing cap maxAge now =>
    exact h.settled (s.settled_startAudio listing cap maxAge now)
  | stopAudio => exact h.congr rfl rfl

end AssocModel

end DsdServer
