import DsdServer.Assoc.Blind
import DsdServer.Assoc.Consistency

/-!
# Assoc/Silent — a stream without traffic leaves no trace

A stream that decodes no real traffic only collects its identity.  Two runs are compared, with and
without it: they differ in the recording, in the version and in the context of that stream alone
(`Shadow`), whatever the other streams do.

* `silent_run` — **the families are the same at every moment, and so are the other streams**.

Each operation is treated once for a stream that both runs have, where it does the same to both, and
once for the silent stream, where it leaves what is compared.  The prune at the end of a stream is
the one place at which a stream without traffic could still do something to the networks, and there
too it changes nothing that is compared.
-/

open Bytes

namespace DsdServer

/-! ## Two runs

The relation is an equation of all that is kept beside the streams, and of the streams other than
the silent one.  The silent stream itself has seen no network, and no family has heard of it. -/

/-- A stream that decoded no traffic: it is on no network. -/
def Ctx.Silent (c : Ctx) : Prop := c.live = false ∧ c.net = []

namespace AssocModel

/-- All but the recording, the version and the streams. -/
def core (s : AssocModel) : AssocModel := { s with log := {}, version := 0, sess := ∅ }

/-- **The two runs side by side**: `s` with the silent stream, `t` without. -/
structure Shadow (sid : ℕ) (s t : AssocModel) : Prop where
  core : s.core = t.core
  others : ∀ i ≠ sid, s.sess.find? i = t.sess.find? i
  absent : t.sess.find? sid = none
  silent : ∀ c, s.sess.find? sid = some c → c.Silent
  unseen : ∀ f, (t.family f).Unseen sid

namespace Shadow

variable {L : Limits} {sid : ℕ} {s t : AssocModel}

theorem fams_eq (h : Shadow sid s t) : s.fams = t.fams := congrArg (·.fams) h.core

theorem family_eq (h : Shadow sid s t) (f : Bytes) : s.family f = t.family f := by
  rw [family, family, h.fams_eq]

/-- The contexts of the other streams are the same. -/
theorem ctx_eq (h : Shadow sid s t) {i : ℕ} (hi : i ≠ sid) : s.ctx i = t.ctx i := by
  rw [ctx, ctx, SortedMap.getD, SortedMap.getD, h.others i hi]

/-- The desk is the same, but for the recording. -/
theorem desk_eq (h : Shadow sid s t) (f : Bytes) : s.desk f = (t.desk f).relog s.log := by
  rw [desk, h.family_eq f, show s.store = t.store from congrArg (·.store) h.core,
    show s.quality = t.quality from congrArg (·.quality) h.core]
  rfl

/-- Neither the recording nor the version matters. -/
theorem congr (h : Shadow sid s t) {s' t' : AssocModel} (hs : s'.core = s.core)
    (ht : t'.core = t.core) (hs' : s'.sess = s.sess) (ht' : t'.sess = t.sess) :
    Shadow sid s' t' where
  core := hs.trans (h.core.trans ht.symm)
  others i hi := by rw [hs', ht', h.others i hi]
  absent := ht' ▸ h.absent
  silent := hs' ▸ h.silent
  unseen f := by
    rw [family, show t'.fams = t.fams from congrArg (·.fams) ht]
    exact h.unseen f

/-- Whatever lines the two runs write, they stay side by side. -/
theorem record (h : Shadow sid s t) (l l' : Bytes) : Shadow sid (s.record l) (t.record l') :=
  h.congr rfl rfl rfl rfl

theorem bump (h : Shadow sid s t) : Shadow sid s.bumpVersion t.bumpVersion :=
  h.congr rfl rfl rfl rfl

/-- Both runs change alike, away from the streams. -/
theorem alike (h : Shadow sid s t) {g : AssocModel → AssocModel} (hg : ∀ x, (g x).core = g x.core)
    (hs : ∀ x, (g x).sess = x.sess) (hf : ∀ x, (g x).fams = x.fams) :
    Shadow sid (g s) (g t) where
  core := by rw [hg, hg, h.core]
  others i hi := by rw [hs, hs, h.others i hi]
  absent := by rw [hs, h.absent]
  silent := by
    rw [hs]
    exact h.silent
  unseen f := by
    rw [family, hf]
    exact h.unseen f

theorem setFamily (h : Shadow sid s t) (f : Bytes) {F : Family} (hF : F.Unseen sid) :
    Shadow sid (s.setFamily f F) (t.setFamily f F) where
  core := by
    change s.core.setFamily f F = t.core.setFamily f F
    rw [h.core]
  others := h.others
  absent := h.absent
  silent := h.silent
  unseen g := by
    rw [family, AssocModel.setFamily, family_insert]
    split_ifs
    · exact hF
    · exact h.unseen g

theorem setCtx (h : Shadow sid s t) {i : ℕ} (hi : i ≠ sid) (c : Ctx) :
    Shadow sid (s.setCtx i c) (t.setCtx i c) where
  core := h.core
  others j hj := by
    rw [AssocModel.setCtx, AssocModel.setCtx, SortedMap.find?_insert, SortedMap.find?_insert,
      h.others j hj]
  absent := (SortedMap.find?_insert_ne t.sess c hi.symm).trans h.absent
  silent c' hc' := h.silent c' ((SortedMap.find?_insert_ne s.sess c hi.symm).symm.trans hc')
  unseen := h.unseen

theorem mapCtx (h : Shadow sid s t) {g : Ctx → Ctx} (hg : ∀ c, c.Silent → (g c).Silent) :
    Shadow sid { s with sess := s.sess.mapVal fun _ c => g c }
      { t with sess := t.sess.mapVal fun _ c => g c } where
  core := h.core
  others i hi := by
    change (s.sess.mapVal fun _ c => g c).find? i = (t.sess.mapVal fun _ c => g c).find? i
    rw [SortedMap.find?_mapVal, SortedMap.find?_mapVal, h.others i hi]
  absent := by
    change (t.sess.mapVal fun _ c => g c).find? sid = none
    rw [SortedMap.find?_mapVal, h.absent]
    rfl
  silent c hc := by
    change (s.sess.mapVal fun _ c => g c).find? sid = some c at hc
    rw [SortedMap.find?_mapVal] at hc
    obtain ⟨c', hc', rfl⟩ := Option.map_eq_some_iff.1 hc
    exact hg c' (h.silent c' hc')
  unseen := h.unseen

/-- An operation on a family that only writes the recording besides. -/
theorem putDesk (h : Shadow sid s t) {w w' : FamilyState} (hw : ∃ l, w = w'.relog l)
    (hu : w'.fam.Unseen sid) : Shadow sid (s.putDesk w) (t.putDesk w') where
  core := by
    obtain ⟨l, rfl⟩ := hw
    change s.core.putDesk (w'.relog {}) = t.core.putDesk (w'.relog {})
    rw [h.core]
  others := h.others
  absent := h.absent
  silent := h.silent
  unseen g := by
    rw [family, AssocModel.putDesk, family_insert]
    split_ifs
    · exact hu
    · exact h.unseen g

/-- **Blind work on a family** is the same on both sides. -/
theorem desk (h : Shadow sid s t) (f : Bytes) {g : FamilyState → FamilyState} (hg : Blind g) :
    Shadow sid (s.putDesk (g (s.desk f))) (t.putDesk (g (t.desk f))) := by
  obtain ⟨hl, hu⟩ := hg (t.desk f) s.log
  rw [h.desk_eq]
  exact h.putDesk hl (hu sid (h.unseen f))

/-! ### Streams

What begins, ends or retunes another stream does the same in both runs.  The one question whose
answer could depend on the silent stream is whether a network is still fed by somebody, and the
silent stream feeds none. -/

/-- Closing the calls of another stream. -/
theorem closeSessionCalls (h : Shadow sid s t) {i : ℕ} (hi : i ≠ sid) :
    Shadow sid (s.closeSessionCalls L i) (t.closeSessionCalls L i) := by
  rw [AssocModel.closeSessionCalls, AssocModel.closeSessionCalls, h.others i hi, h.fams_eq]
  split
  · exact h
  · split_ifs
    · exact h.desk _ (.closeSessionCalls i)
    · exact h

/-- When a network is fed by some other stream that runs. -/
theorem inUse_iff {s : AssocModel} {i : ℕ} {f key : Bytes} : s.inUse i f key = true ↔
    ∃ j c, s.sess.find? j = some c ∧ j ≠ i ∧ c.running = true ∧ c.family = f ∧ c.net = key := by
  rw [inUse, List.any_eq_true]
  constructor
  · rintro ⟨⟨j, c⟩, hm, hp⟩
    simp only [Bool.and_eq_true, decide_eq_true_eq] at hp
    exact ⟨j, c, SortedMap.find?_eq_some_iff.2 hm, hp.1.1.1, hp.1.1.2, hp.1.2, hp.2⟩
  · rintro ⟨j, c, hc, h₁, h₂, h₃, h₄⟩
    refine ⟨(j, c), SortedMap.find?_eq_some_iff.1 hc, ?_⟩
    simp only [Bool.and_eq_true, decide_eq_true_eq]
    exact ⟨⟨⟨h₁, h₂⟩, h₃⟩, h₄⟩

/-- **The silent stream keeps no network alive.** -/
theorem inUse_eq (h : Shadow sid s t) (i : ℕ) (f : Bytes) {key : Bytes} (hk : key ≠ []) :
    s.inUse i f key = t.inUse i f key := by
  rw [Bool.eq_iff_iff, inUse_iff, inUse_iff]
  constructor
  · rintro ⟨j, c, hc, hp⟩
    have hj : j ≠ sid := fun hj => hk (hp.2.2.2 ▸ (h.silent c (hj ▸ hc)).2)
    exact ⟨j, c, h.others j hj ▸ hc, hp⟩
  · rintro ⟨j, c, hc, hp⟩
    have hj : j ≠ sid := fun hj => by
      rw [hj, h.absent] at hc
      cases hc
    exact ⟨j, c, (h.others j hj).symm ▸ hc, hp⟩

/-- The same networks are dead: the silent stream feeds none. -/
theorem deadNetworks_eq (h : Shadow sid s t) (i : ℕ) (f : Bytes) (retune : Bool) :
    s.deadNetworks i f retune = t.deadNetworks i f retune := by
  rw [deadNetworks, deadNetworks, h.family_eq]
  refine congrArg (List.map Prod.fst) (List.filter_congr fun e he => ?_)
  have hk : e.1 ≠ [] := ((h.unseen f).networks e.1 e.2 (SortedMap.find?_eq_some_iff.2 he)).1
  rw [h.inUse_eq i f hk]

theorem dropNetworks (h : Shadow sid s t) (f : Bytes) (dead : List Bytes) :
    Shadow sid (s.dropNetworks f dead) (t.dropNetworks f dead) where
  core := by
    change s.core.dropNetworks f dead = t.core.dropNetworks f dead
    rw [h.core]
  others := h.others
  absent := h.absent
  silent := h.silent
  unseen g := by
    rw [family, AssocModel.dropNetworks]
    dsimp only
    split_ifs
    · rw [SortedMap.getD, SortedMap.find?_erase]
      split_ifs
      · exact .blank sid
      · exact h.unseen g
    · rw [family_insert]
      split_ifs
      · exact (h.unseen f).dropAll dead
      · exact h.unseen g

theorem pruneSession (h : Shadow sid s t) {i : ℕ} (hi : i ≠ sid) (retune : Bool) :
    Shadow sid (s.pruneSession i retune) (t.pruneSession i retune) := by
  rw [AssocModel.pruneSession, AssocModel.pruneSession, h.others i hi, h.fams_eq]
  split
  · exact h
  · next c _ =>
    dsimp only
    rw [h.deadNetworks_eq]
    split_ifs
    · exact h
    · exact ((h.setCtx hi _).dropNetworks _ _).bump
    · exact h

theorem beginStream (h : Shadow sid s t) {i : ℕ} (hi : i ≠ sid) (label : Bytes) (now : ℤ)
    (family : Bytes) (freq : ℤ) :
    Shadow sid (s.beginStream L i label now family freq)
      (t.beginStream L i label now family freq) :=
  ((((h.record _ _).closeSessionCalls hi).pruneSession hi false).setCtx hi _).bump

theorem retuneStream (h : Shadow sid s t) {i : ℕ} (hi : i ≠ sid) (freq now : ℤ) :
    Shadow sid (s.retuneStream L i freq now) (t.retuneStream L i freq now) := by
  rw [AssocModel.retuneStream, AssocModel.retuneStream, h.others i hi]
  split
  · exact h
  · split_ifs
    · exact h
    · exact ((((h.record _ _).closeSessionCalls hi).pruneSession hi true).setCtx hi _).bump

/-- The context of another stream is changed. -/
theorem modifyCtx (h : Shadow sid s t) {i : ℕ} (hi : i ≠ sid) (g : Ctx → Ctx) :
    Shadow sid { s with sess := s.sess.modify i g } { t with sess := t.sess.modify i g } where
  core := h.core
  others j hj := by
    change (s.sess.modify i g).find? j = (t.sess.modify i g).find? j
    rw [SortedMap.find?_modify, SortedMap.find?_modify, h.others j hj]
  absent := (SortedMap.find?_modify_ne t.sess g hi.symm).trans h.absent
  silent c hc := h.silent c ((SortedMap.find?_modify_ne s.sess g hi.symm).symm.trans hc)
  unseen := h.unseen

theorem endStream (h : Shadow sid s t) {i : ℕ} (hi : i ≠ sid) (now : ℤ) :
    Shadow sid (s.endStream L i now) (t.endStream L i now) :=
  ((((h.record _ _).closeSessionCalls hi).modifyCtx hi Ctx.stop).pruneSession hi false).bump

theorem removeSession (h : Shadow sid s t) {i : ℕ} (hi : i ≠ sid) (now : ℤ) :
    Shadow sid (s.removeSession L i now) (t.removeSession L i now) := by
  have h₁ := ((h.record (assoclog.removeLine now i) (assoclog.removeLine now i)).closeSessionCalls
    (L := L) hi).pruneSession hi false
  refine bump ⟨h₁.core, fun j hj => ?_, ?_, fun c hc => ?_, h₁.unseen⟩
  · change (SortedMap.erase _ i).find? j = (SortedMap.erase _ i).find? j
    rw [SortedMap.find?_erase, SortedMap.find?_erase, h₁.others j hj]
  · exact (SortedMap.find?_erase_ne _ hi.symm).trans h₁.absent
  · exact h₁.silent c ((SortedMap.find?_erase_ne _ hi.symm).symm.trans hc)

theorem clear (h : Shadow sid s t) (now : ℤ) : Shadow sid (s.clear now) (t.clear now) where
  core := by
    change (s.core.clearLocked now).core = (t.core.clearLocked now).core
    rw [h.core]
  others i hi := by
    change (s.sess.mapVal fun _ c => c.forget).find? i = (t.sess.mapVal fun _ c => c.forget).find? i
    rw [SortedMap.find?_mapVal, SortedMap.find?_mapVal, h.others i hi]
  absent := by
    change (t.sess.mapVal fun _ c => c.forget).find? sid = none
    rw [SortedMap.find?_mapVal, h.absent]
    rfl
  silent c hc := by
    change (s.sess.mapVal fun _ c => c.forget).find? sid = some c at hc
    rw [SortedMap.find?_mapVal] at hc
    obtain ⟨c', -, rfl⟩ := Option.map_eq_some_iff.1 hc
    exact ⟨rfl, rfl⟩
  unseen _ := .blank sid

/-! ### Events

An event of another stream reads its own context, the table of networks and the calls.  All three
are the same, so what it does is the same; only the recording may have other lines in it. -/

/-- Merging networks: the silent stream is on none, so it does not move along. -/
theorem mergeNetwork (h : Shadow sid s t) (f : Bytes) {frm : Bytes} (hf : frm ≠ []) (dst : Bytes) :
    Shadow sid (s.mergeNetwork L f frm dst) (t.mergeNetwork L f frm dst) := by
  rw [AssocModel.mergeNetwork, AssocModel.mergeNetwork]
  rw [h.family_eq]
  split_ifs
  · refine (h.setFamily f ((h.unseen f).mergeNetwork frm dst)).mapCtx
      (g := fun c => c.moveAlong frm dst)
      fun c hc => ?_
    rw [Ctx.moveAlong, if_neg (hc.2 ▸ hf.symm)]
    exact hc
  · exact h

theorem resolveNetwork (h : Shadow sid s t) {i : ℕ} (hi : i ≠ sid) (now : ℤ) :
    Shadow sid (s.resolveNetwork L i now) (t.resolveNetwork L i now) := by
  have hid := networkId_ne_nil (t.ctx i) i (h.unseen (t.ctx i).family).nil_notMem
  rw [AssocModel.resolveNetwork, AssocModel.resolveNetwork]
  rw [h.ctx_eq hi, h.family_eq]
  have h₁ := h.setFamily (t.ctx i).family
    ((h.unseen (t.ctx i).family).place (L := L) hid (t.ctx i) now)
  refine Shadow.setCtx ?_ hi _
  split_ifs with hfold
  · refine h₁.mergeNetwork _ (fun hnil => ?_) _
    rw [Family.foldsAway, hnil] at hfold
    cases hN : (Family.place L (t.family (t.ctx i).family)
      (networkId (t.ctx i) i (t.family (t.ctx i).family)) (t.ctx i) now).networks.find? [] with
    | none => rw [hN] at hfold; exact Bool.false_ne_true hfold
    | some N => rw [hN] at hfold; exact Bool.false_ne_true hfold
  · exact h₁

/-- Another stream notes a neighbouring site. -/
theorem noteNeighbour (h : Shadow sid s t) {i : ℕ} (hi : i ≠ sid) (site : Bytes) :
    Shadow sid (s.noteNeighbour i site) (t.noteNeighbour i site) := by
  rw [AssocModel.noteNeighbour, AssocModel.noteNeighbour]
  rw [h.ctx_eq hi, h.family_eq]
  split_ifs
  · exact h
  · exact h.setFamily _ ((h.unseen _).onNetwork _ fun _ hn => hn)

/-- Whatever an event brings in is the event's stream's own. -/
theorem hear_unseen {F : Family} (h : F.Unseen sid) {i : ℕ} (hi : i ≠ sid) (c : Ctx) (now : ℤ)
    (hc : c.net ≠ []) : Family.Unseen sid
      { F with networks := F.networks.insert c.net ((F.networks.getD c.net {}).hear c i now) } := by
  refine h.insert hc fun hm => ?_
  rcases SortedSet.mem_add.1 hm with hm | hm
  · exact hi hm.symm
  · rw [SortedMap.getD] at hm
    rcases hN : F.networks.find? c.net with _ | N
    · rw [hN] at hm
      exact absurd hm (SortedMap.not_mem_empty sid)
    · rw [hN] at hm
      exact (h.networks _ N hN).2 hm

/-- After its network is resolved, a stream is on one. -/
theorem net_resolveNetwork (s : AssocModel) (i : ℕ) (now : ℤ) :
    ((s.resolveNetwork L i now).ctx i).net =
      (networkId (s.ctx i) i (s.family (s.ctx i).family)).key := by
  rw [AssocModel.resolveNetwork, ctx_setCtx]
  rfl

/-- **What another stream says of its network.** -/
theorem identify (h : Shadow sid s t) {i : ℕ} (hi : i ≠ sid) (r : Reading) (now : ℤ) :
    Shadow sid (s.identify L i r now) (t.identify L i r now) := by
  rw [AssocModel.identify, AssocModel.identify]
  rw [h.ctx_eq hi, h.family_eq]
  set f := (t.ctx i).family
  have h₁ := (h.setFamily f (h.unseen f)).bump
  set s₁ := (s.setFamily f (t.family f)).bumpVersion
  set t₁ := (t.setFamily f (t.family f)).bumpVersion
  rw [h₁.ctx_eq hi]
  set a := absorbIdentity (t₁.ctx i) r
  have h₂ := (h₁.setCtx hi a.ctx).noteNeighbour hi a.neighbour
  have hc₂ : ((t₁.setCtx i a.ctx).noteNeighbour i a.neighbour).ctx i = a.ctx := by
    rw [ctx_noteNeighbour, ctx_setCtx]
  set s₂ := (s₁.setCtx i a.ctx).noteNeighbour i a.neighbour
  set t₂ := (t₁.setCtx i a.ctx).noteNeighbour i a.neighbour
  rw [h₂.family_eq]
  have h₃ : ∀ {x y : AssocModel}, Shadow sid x y → (y.ctx i).net ≠ [] → Shadow sid
      (x.setFamily f { x.family f with
        networks := (x.family f).networks.insert (x.ctx i).net
          (((x.family f).networks.getD (x.ctx i).net {}).hear (x.ctx i) i now) })
      (y.setFamily f { y.family f with
        networks := (y.family f).networks.insert (y.ctx i).net
          (((y.family f).networks.getD (y.ctx i).net {}).hear (y.ctx i) i now) }) :=
            fun hx hnet => by
    rw [hx.family_eq, hx.ctx_eq hi]
    exact hx.setFamily f (hear_unseen (hx.unseen f) hi _ now hnet)
  split_ifs with hc
  · refine h₃ (h₂.resolveNetwork hi now) ?_
    rw [net_resolveNetwork]
    exact networkId_ne_nil _ i (h₂.unseen _).nil_notMem
  · refine h₃ h₂ fun hnil => hc (Or.inr (Or.inl ?_))
    rw [← hc₂]
    exact hnil

/-- Another stream starts its work from the same state. -/
theorem stream_eq (h : Shadow sid s t) {i : ℕ} (hi : i ≠ sid) :
    s.stream i = (t.stream i).relog s.log := by
  rw [stream, h.ctx_eq hi, h.desk_eq, show s.nextCall = t.nextCall
    from congrArg (·.nextCall) h.core]
  rfl

/-- A stream at work only writes the recording besides. -/
theorem putStream (h : Shadow sid s t) {i : ℕ} (hi : i ≠ sid) {st st' : StreamState}
    (hst : ∃ l, st = st'.relog l) (hu : st'.fam.Unseen sid) :
    Shadow sid (s.putStream i st) (t.putStream i st') := by
  obtain ⟨l, rfl⟩ := hst
  have h₁ := (h.putDesk (w := st'.toFamilyState.relog l) ⟨l, rfl⟩ hu).setCtx hi st'.ctx
  exact h₁.alike (g := fun x => { x with nextCall := st'.nextCall }) (fun _ => rfl) (fun _ => rfl)
    fun _ => rfl

/-- An event of another stream. -/
theorem ingest (h : Shadow sid s t) {i : ℕ} (hi : i ≠ sid) (ev : DsdEvent) (now : ℤ) :
    Shadow sid (s.ingest L i ev now) (t.ingest L i ev now) := by
  rw [AssocModel.ingest, AssocModel.ingest]
  have h₁ := h.record (assoclog.eventLine now i ev) (assoclog.eventLine now i ev)
  rw [h₁.others i hi]
  split
  · exact h₁
  · next c _ =>
    set r := Reading.ofEvent ev
    have h₂ := h₁.setCtx hi (c.gate r now).1
    dsimp only
    split_ifs
    · have h₃ := h₂.identify (L := L) hi r now
      set x :=
        ((s.record (assoclog.eventLine now i ev)).setCtx i (c.gate r now).1).identify L i r now
      set y :=
        ((t.record (assoclog.eventLine now i ev)).setCtx i (c.gate r now).1).identify L i r now
      obtain ⟨⟨l, hl⟩, hu⟩ := StreamState.Blind.expire (L := L) now (y.stream i) x.log
      obtain ⟨hl', hu'⟩ := StreamState.Blind.handle (L := L) y.qualityOn i r now
        ((y.stream i).expire L now) l
      rw [h₃.stream_eq hi, show x.qualityOn = y.qualityOn from congrArg (·.qualityOn) h₃.core]
      beta_reduce at hl
      rw [hl]
      exact h₃.putStream hi hl' (hu' sid hi.symm (hu sid (h₃.unseen _)))
    · exact h₂

/-! ### Audio

A block of audio goes to a call of its stream, and from there into the store, which both runs share.
Each helper of the audio path is followed in both runs. -/

/-- Another stream works on its family. -/
theorem onDesk (h : Shadow sid s t) {i : ℕ} (hi : i ≠ sid) {g : FamilyState → FamilyState}
    (hg : Blind g) : Shadow sid (s.onDesk i g) (t.onDesk i g) := by
  rw [AssocModel.onDesk, AssocModel.onDesk, h.ctx_eq hi]
  exact h.desk _ hg

/-- The recording of a call of another stream is changed. -/
theorem onSound (h : Shadow sid s t) {i : ℕ} (hi : i ≠ sid) (id : ℕ) (g : Recording → Recording) :
    Shadow sid (s.onSound i id g) (t.onSound i id g) :=
  h.onDesk hi (.onFam fun _ _ hF => hF.modifyCall id fun _ => rfl)

/-- A call of another stream is to be kept. -/
theorem setKeep (h : Shadow sid s t) {i : ℕ} (hi : i ≠ sid) (id : ℕ) (on : Bool) (now : ℤ) :
    Shadow sid (s.onDesk i fun w => w.setKeep id on now)
      (t.onDesk i fun w => w.setKeep id on now) :=
  h.onDesk hi (.setKeep id on now)

/-- The store of recordings changes alike. -/
theorem onStore (h : Shadow sid s t) (g : CallAudioStore → CallAudioStore) :
    Shadow sid { s with store := g s.store } { t with store := g t.store } :=
  h.alike (g := fun x => { x with store := g x.store }) (fun _ => rfl) (fun _ => rfl) fun _ => rfl

theorem store_eq (h : Shadow sid s t) : s.store = t.store := congrArg (·.store) h.core

/-- The call that audio belongs to is the same. -/
theorem freshOn_eq (h : Shadow sid s t) {i : ℕ} (hi : i ≠ sid) (slot : Bytes) (now : ℤ) :
    s.freshOn i slot now = t.freshOn i slot now := by
  rw [freshOn, freshOn, h.ctx_eq hi, h.family_eq]

/-- A block of another stream is refused. -/
theorem refuse (h : Shadow sid s t) {i : ℕ} (hi : i ≠ sid) (k : Call) (now : ℤ) :
    Shadow sid (s.refuse i k now) (t.refuse i k now) := by
  have h₁ := h.onSound hi k.id fun r => { r with noAudio := true }
  rw [AssocModel.refuse, AssocModel.refuse]
  dsimp only
  refine Shadow.setKeep ?_ hi k.id false now
  split_ifs
  · exact h₁
  · exact ((h₁.onStore fun st => st.discard k.sound.audio).onSound hi k.id _).bump

/-- A block of another stream is written. -/
theorem pour (h : Shadow sid s t) {i : ℕ} (hi : i ≠ sid) (id : ℕ) (name : Bytes) (pcm : List Sample)
    (now : ℤ) : Shadow sid (s.pour i id name pcm now) (t.pour i id name pcm now) :=
  (h.onStore fun st => st.append name pcm now).onSound hi id _

/-- A block of another stream is held back until its call is known. -/
theorem hold (h : Shadow sid s t) {i : ℕ} (hi : i ≠ sid) (slot : ℤ) (pcm : List Sample) (now : ℤ) :
    Shadow sid (s.hold i slot pcm now) (t.hold i slot pcm now) := by
  rw [AssocModel.hold, AssocModel.hold, h.ctx_eq hi]
  exact h.setCtx hi _

/-- A recording for a call of another stream is opened. -/
theorem openRecording (h : Shadow sid s t) {i : ℕ} (hi : i ≠ sid) (k : Call) (slot : ℤ)
    (store : CallAudioStore) (name : Bytes) (held : List Preroll) (now : ℤ) :
    Shadow sid (s.openRecording i k slot store name held now)
      (t.openRecording i k slot store name held now) := by
  have hpour : ∀ (held : List Preroll) {x y : AssocModel}, Shadow sid x y →
      Shadow sid (held.foldl (fun s h => s.pour i k.id name h.pcm now) x)
        (held.foldl (fun s h => s.pour i k.id name h.pcm now) y) := fun held => by
    induction held with
    | nil => exact fun hx => hx
    | cons p held ih => exact fun hx => ih (hx.pour hi _ _ _ _)
  have h₁ := hpour held (((h.onStore fun _ => store).onSound hi k.id fun r =>
    { r with audio := name, audioSid := i, audioSlot := slot }).setKeep hi k.id true now)
  rw [AssocModel.openRecording, AssocModel.openRecording]
  refine bump ?_
  have hc := h₁.ctx_eq hi
  beta_reduce at h₁ hc
  rw [hc]
  exact h₁.setCtx hi _

/-- The call that holds a file is the same. -/
theorem holder_eq (h : Shadow sid s t) (name : Bytes) : s.holder name = t.holder name := by
  rw [holder, holder, h.fams_eq]

/-- What the store evicts, both models give up. -/
theorem reconcileEvicted (h : Shadow sid s t) (now : ℤ) :
    Shadow sid (s.reconcileEvicted now) (t.reconcileEvicted now) := by
  have hdrop : ∀ (gone : List Bytes) {x y : AssocModel}, Shadow sid x y →
      Shadow sid (gone.foldl (dropEvicted now) x) (gone.foldl (dropEvicted now) y) := fun gone => by
    induction gone with
    | nil => exact fun hx => hx
    | cons name gone ih =>
      refine fun hx => ih ?_
      rw [dropEvicted, dropEvicted, hx.holder_eq]
      split
      · exact hx
      · next f k _ =>
        exact hx.desk f ((Blind.setKeep k.id false now).comp
          (.onFam fun _ _ hF => hF.modifyCall k.id (g := Call.dropSound) fun _ => rfl))
  rw [AssocModel.reconcileEvicted, AssocModel.reconcileEvicted,
    show s.store.evicted = t.store.evicted from congrArg (·.evicted) h.store_eq]
  have h₁ := h.onStore fun st => { st with evicted := [] }
  have h₂ := hdrop t.store.evicted h₁
  beta_reduce at h₁
  simp only [h₁.holder_eq]
  split_ifs
  · exact h
  · exact h₂.bump
  · exact h₂

theorem appendBlock (h : Shadow sid s t) {i : ℕ} (hi : i ≠ sid) (id : ℕ) (name : Bytes)
    (pcm : List Sample) (now : ℤ) :
    Shadow sid (s.appendBlock i id name pcm now) (t.appendBlock i id name pcm now) :=
  (h.pour hi id name pcm now).reconcileEvicted now

/-- A block of another stream is stored. -/
theorem storeBlock (h : Shadow sid s t) {i : ℕ} (hi : i ≠ sid) (k : Call) (slot : ℤ)
    (pcm : List Sample) (creatable : Bool) (now : ℤ) :
    Shadow sid (s.storeBlock i k slot pcm creatable now)
      (t.storeBlock i k slot pcm creatable now) := by
  rw [AssocModel.storeBlock, AssocModel.storeBlock, h.ctx_eq hi, h.store_eq,
    show s.instanceId = t.instanceId from congrArg (·.instanceId) h.core]
  have hslot := h.onSound hi k.id fun r => { r with audioSlot := slot }
  dsimp only
  split_ifs
  · exact h
  · split
    · exact h
    · exact (h.openRecording hi k slot _ _ _ now).appendBlock hi _ _ _ _
  · exact h
  · exact hslot.appendBlock hi k.id k.sound.audio pcm now
  · exact h.appendBlock hi k.id k.sound.audio pcm now

/-- A block of another stream passes the gate or waits. -/
theorem gateBlock (h : Shadow sid s t) {i : ℕ} (hi : i ≠ sid) (k : Call) (slot : ℤ)
    (pcm : List Sample) (keyed creatable : Bool) (now : ℤ) :
    Shadow sid (s.gateBlock i k slot pcm keyed creatable now)
      (t.gateBlock i k slot pcm keyed creatable now) := by
  have hkeyed := h.onSound hi k.id fun r => { r with keyedAudio := true }
  rw [AssocModel.gateBlock, AssocModel.gateBlock]
  dsimp only
  split_ifs
  · exact h
  · exact h.refuse hi k now
  · exact hkeyed.storeBlock hi k slot pcm creatable now
  · exact h.storeBlock hi k slot pcm creatable now

/-- Audio of another stream. -/
theorem audio (h : Shadow sid s t) {i : ℕ} (hi : i ≠ sid) (slot : ℤ) (pcm : List ℤ)
    (keyed creatable : Bool) (now : ℤ) :
    Shadow sid (s.audio i slot pcm keyed creatable now)
      (t.audio i slot pcm keyed creatable now) := by
  have hroute : ∀ pcm, Shadow sid (s.routeBlock i slot pcm keyed creatable now)
      (t.routeBlock i slot pcm keyed creatable now) := fun pcm => by
    have hcall : s.audioCall i slot now = t.audioCall i slot now := by
      simp only [audioCall, h.freshOn_eq hi]
    have helse : ∀ k, s.voiceElsewhere i k now = t.voiceElsewhere i k now := fun k => by
      simp only [voiceElsewhere, h.freshOn_eq hi]
    rw [routeBlock, routeBlock, hcall]
    split
    · split_ifs
      · exact h
      · exact h.hold hi slot pcm now
    · next k _ =>
      rw [helse]
      split_ifs
      · exact h
      · split
        · exact h
        · exact h.gateBlock hi ..
      · exact h.gateBlock hi ..
  rw [AssocModel.audio, AssocModel.audio, h.others i hi, h.store_eq, h.fams_eq,
    show s.audioOn = t.audioOn from congrArg (·.audioOn) h.core]
  split_ifs
  · exact h
  · split
    · exact h
    · split_ifs
      · exact h
      · exact hroute _

theorem startAudio (h : Shadow sid s t) (listing : List AudioEntry) (cap : ℕ) (maxAge now : ℤ) :
    Shadow sid (s.startAudio listing cap maxAge now) (t.startAudio listing cap maxAge now) := by
  rw [AssocModel.startAudio, AssocModel.startAudio,
    show s.store.on = t.store.on from congrArg (·.on) h.store_eq]
  split_ifs
  · exact h
  · have h₁ := h.alike (g := fun x => { x with
      store := x.store.enable listing cap maxAge now, audioOn := true }) (fun _ => rfl)
        (fun _ => rfl)
      fun _ => rfl
    exact (h₁.reconcileEvicted now).bump

theorem stopAudio (h : Shadow sid s t) : Shadow sid s.stopAudio t.stopAudio := by
  have h₁ := h.alike (g := fun x => { x with audioOn := false, store := x.store.disable })
    (fun _ => rfl) (fun _ => rfl) fun _ => rfl
  exact (h₁.mapCtx (g := fun c => { c with preroll := ∅ }) fun _ hc => hc).bump

/-! ### The silent stream itself

While a stream is silent its events stop at the gate: it takes in identity tokens and nothing else,
and the rest of the model does not change. -/

/-- The silent stream changes its own context. -/
theorem setOwn (h : Shadow sid s t) {c : Ctx} (hc : c.Silent) : Shadow sid (s.setCtx sid c) t where
  core := h.core
  others i hi := (SortedMap.find?_insert_ne s.sess c hi).trans (h.others i hi)
  absent := h.absent
  silent c' hc' := by
    rw [AssocModel.setCtx, SortedMap.find?_insert, if_pos rfl] at hc'
    obtain rfl := Option.some.inj hc'
    exact hc
  unseen := h.unseen

/-- It has no call to close. -/
theorem closeOwn (h : Shadow sid s t) : Shadow sid (s.closeSessionCalls L sid) t := by
  rw [AssocModel.closeSessionCalls]
  split
  · exact h
  · next c _ =>
    split_ifs with hf
    · have hnone : (s.desk c.family).fam.calls.filter (·.session = sid) = [] := by
        refine List.filter_eq_nil_iff.2 fun k hk => ?_
        rw [decide_eq_true_eq]
        refine (h.unseen c.family).calls k ?_
        rw [← h.family_eq]
        exact hk
      have hsame : s.fams.insert c.family (s.family c.family) = s.fams :=
        SortedMap.ext_find? fun f => by
          rw [SortedMap.find?_insert]
          split_ifs with he
          · obtain ⟨F, hF⟩ := Option.isSome_iff_exists.1 hf
            rw [he, hF, family, SortedMap.getD, hF]
            rfl
          · rfl
      refine h.congr ?_ rfl rfl rfl
      rw [FamilyState.closeSessionCalls, hnone]
      change { s.core with fams := s.fams.insert c.family (s.family c.family) } = s.core
      rw [hsame]
      rfl
    · exact h

/-- It left no network behind. -/
theorem pruneOwn (h : Shadow sid s t) (retune : Bool) :
    Shadow sid (s.pruneSession sid retune) t := by
  have hdead : ∀ f, s.deadNetworks sid f retune = [] := fun f => by
    rw [deadNetworks]
    refine List.map_eq_nil_iff.2 (List.filter_eq_nil_iff.2 fun e he hp => ?_)
    simp only [Bool.and_eq_true] at hp
    rw [h.family_eq] at he
    exact ((h.unseen f).networks e.1 e.2 (SortedMap.find?_eq_some_iff.2 he)).2
      (SortedMap.contains_iff.1 hp.1.1.1.2)
  rw [AssocModel.pruneSession]
  split
  · exact h
  · dsimp only
    rw [hdead]
    split_ifs
    · exact h
    · exact absurd rfl ‹_›
    · exact h

/-- The silent stream ends: it has no calls to close and no networks to prune. -/
theorem wrapUpOwn (h : Shadow sid s t) (line : Bytes) (retune : Bool) :
    Shadow sid (((s.record line).closeSessionCalls L sid).pruneSession sid retune) t := by
  have h₁ : Shadow sid (s.record line) t := h.congr rfl rfl rfl rfl
  exact h₁.closeOwn.pruneOwn retune

end Shadow

/-- Sightings move no stream. -/
theorem net_believe (c : Ctx) (got : SortedMap Bytes Bytes) : (believe c got).1.net = c.net := by
  have h : ∀ (l : List (Bytes × Bytes)) (acc : Ctx × SortedMap Bytes Bytes),
      (l.foldl (fun (acc : Ctx × SortedMap Bytes Bytes) kv =>
        if isWeakAnchor kv.1 then
          let p := sight acc.1.ids acc.1.pending kv.1 kv.2
          ({ acc.1 with pending := p.1 }, if p.2 then acc.2 else acc.2.erase kv.1)
        else acc) acc).1.net = acc.1.net := fun l => by
    induction l with
    | nil => exact fun _ => rfl
    | cons e l ih =>
      intro acc
      rw [List.foldl_cons, ih]
      split_ifs <;> rfl
  exact h got.entries (c, got)

/-- Identity tokens alone bring a stream on no network. -/
theorem net_absorbIdentity {c : Ctx} (r : Reading) (h : c.net = []) :
    (absorbIdentity c r).ctx.net = [] := by
  have hlook : (c.lookAround r).net = [] := by
    rw [Ctx.lookAround]
    split_ifs <;> exact h
  have hstart : ∀ (c : Ctx) got, c.net = [] → (c.startOver got).net = [] := fun c got hc => by
    rw [Ctx.startOver]
    split_ifs
    · rfl
    · exact hc
  have htake : ∀ (c : Ctx) got, (c.take got).1.net = c.net := fun c got => by
    rw [Ctx.take]
    split_ifs <;> rfl
  rw [absorbIdentity, absorbTokens]
  dsimp only
  split_ifs
  · exact hlook
  · exact hlook
  · exact (net_believe _ _).trans hlook
  · exact (htake _ _).trans (hstart _ _ ((net_believe _ _).trans hlook))

/-- **A stream without traffic collects its identity, and is not let in.** -/
theorem gate_silent {c : Ctx} (h : c.Silent) {r : Reading} (now : ℤ)
    (hev : r.ev.kind = lit "unknown" ∨ r.ev.crcError = lit "1") :
    (c.gate r now).1.Silent ∧ (c.gate r now).2 = false := by
  have hc : ¬(r.ev.kind ≠ lit "unknown" ∧ r.ev.crcError ≠ lit "1") := fun hn =>
    hev.elim hn.1 hn.2
  have habs : ∀ c : Ctx, c.Silent → (absorbIdentity c r).ctx.Silent := fun c hc => by
    refine ⟨?_, net_absorbIdentity r hc.2⟩
    obtain ⟨_, _, _, _, _, _, heq⟩ := Ctx.SameStream.absorbIdentity c r
    rw [heq]
    exact hc.1
  rw [Ctx.gate, if_neg hc]
  dsimp only
  rw [show c.live = false from h.1]
  by_cases hcrc : r.ev.crcError = lit "1"
  · simp only [hcrc, if_true]
    split_ifs
    all_goals first | exact ⟨h, rfl⟩ | exact ⟨⟨rfl, h.2⟩, rfl⟩
  · have hkind := hev.resolve_right hcrc
    simp only [hcrc, hkind, if_true, if_false, Bool.false_eq_true]
    split_ifs
    all_goals first | exact ⟨h, rfl⟩ | exact ⟨habs _ ⟨rfl, h.2⟩, rfl⟩

end AssocModel

/-! ## Whole runs

The inputs of the silent stream are taken out of the run, and what is left is done by both. -/

/-- The session an input is of. -/
def Op.session : Op → Option ℕ
  | .begin sid .. => some sid
  | .retune sid .. => some sid
  | .event sid .. => some sid
  | .audio sid .. => some sid
  | .finish sid .. => some sid
  | .remove sid .. => some sid
  | .clear _ => none
  | .startAudio .. => none
  | .stopAudio => none

/-- No traffic: an event is of no known kind, or failed its CRC. -/
def Op.Trafficless : Op → Prop
  | .event _ ev _ => ev.kind = lit "unknown" ∨ ev.crcError = lit "1"
  | _ => True

instance : (op : Op) → Decidable op.Trafficless
  | .event .. => inferInstanceAs (Decidable (_ ∨ _))
  | .begin .. | .retune .. | .audio .. | .finish .. | .remove .. | .clear .. | .startAudio ..
  | .stopAudio => isTrue trivial

namespace AssocModel

variable {L : Limits} {sid : ℕ} {s t : AssocModel}

/-- **An input of another stream does the same in both runs.** -/
theorem Shadow.step (h : Shadow sid s t) {op : Op} (ho : op.session ≠ some sid) :
    Shadow sid (s.stepWith L op) (t.stepWith L op) := by
  have hne : ∀ {i : ℕ}, some i ≠ some sid → i ≠ sid := fun hi he => hi (congrArg some he)
  cases op with
  | begin i label now family freq => exact h.beginStream (hne ho) label now family freq
  | retune i freq now => exact h.retuneStream (hne ho) freq now
  | event i ev now => exact h.ingest (hne ho) ev now
  | audio i slot pcm keyed creatable now => exact h.audio (hne ho) slot pcm keyed creatable now
  | finish i now => exact h.endStream (hne ho) now
  | remove i now => exact h.removeSession (hne ho) now
  | clear now => exact h.clear now
  | startAudio listing cap maxAge now => exact h.startAudio listing cap maxAge now
  | stopAudio => exact h.stopAudio

/-- **An input of the silent stream does nothing to the rest.** -/
theorem Shadow.stepOwn (h : Shadow sid s t) {op : Op} (ho : op.session = some sid)
    (hq : op.Trafficless) : Shadow sid (s.stepWith L op) t := by
  cases op with
  | begin i label now family freq =>
    obtain rfl := Option.some.inj ho
    exact ((h.wrapUpOwn (assoclog.beginLine now i label freq) false).setOwn ⟨rfl, rfl⟩).congr
      rfl rfl rfl rfl
  | retune i freq now =>
    obtain rfl := Option.some.inj ho
    rw [stepWith, AssocModel.retuneStream]
    split
    · exact h
    · split_ifs
      · exact h
      · exact ((h.wrapUpOwn (assoclog.tuneLine now i freq) true).setOwn ⟨rfl, rfl⟩).congr
          rfl rfl rfl rfl
  | event i ev now =>
    obtain rfl := Option.some.inj ho
    rw [stepWith, AssocModel.ingest]
    have h₁ : Shadow i (s.record (assoclog.eventLine now i ev)) t := h.congr rfl rfl rfl rfl
    split
    · exact h₁
    · next c hc =>
      obtain ⟨hs, hgo⟩ := gate_silent (h₁.silent c hc) (r := .ofEvent ev) now hq
      dsimp only
      rw [hgo]
      exact h₁.setOwn hs
  | audio i slot pcm keyed creatable now =>
    obtain rfl := Option.some.inj ho
    rw [stepWith, AssocModel.audio]
    split_ifs
    · exact h
    · split
      · exact h
      · next c hc =>
        rw [if_pos (by rw [(h.silent c hc).1]; rfl)]
        exact h
  | finish i now =>
    obtain rfl := Option.some.inj ho
    have h₁ : Shadow i (s.record (assoclog.endLine now i)) t := h.congr rfl rfl rfl rfl
    have h₂ := h₁.closeOwn (L := L)
    set x := (s.record (assoclog.endLine now i)).closeSessionCalls L i
    have h₃ : Shadow i { x with sess := x.sess.modify i Ctx.stop } t := by
      refine ⟨h₂.core, fun j hj => ?_, h₂.absent, fun c hc => ?_, h₂.unseen⟩
      · exact (SortedMap.find?_modify_ne x.sess Ctx.stop hj).trans (h₂.others j hj)
      · rw [SortedMap.find?_modify, if_pos rfl] at hc
        obtain ⟨c', hc', rfl⟩ := Option.map_eq_some_iff.1 hc
        exact h₂.silent c' hc'
    exact (h₃.pruneOwn false).congr rfl rfl rfl rfl
  | remove i now =>
    obtain rfl := Option.some.inj ho
    have h₁ := h.wrapUpOwn (L := L) (assoclog.removeLine now i) false
    set x := ((s.record (assoclog.removeLine now i)).closeSessionCalls L i).pruneSession i false
    have h₂ : Shadow i { x with sess := x.sess.erase i } t := by
      refine ⟨h₁.core, fun j hj => ?_, h₁.absent, fun c hc => ?_, h₁.unseen⟩
      · exact (SortedMap.find?_erase_ne x.sess hj).trans (h₁.others j hj)
      · rw [SortedMap.find?_erase, if_pos rfl] at hc
        cases hc
    exact h₂.congr rfl rfl rfl rfl
  | clear => cases ho
  | startAudio => cases ho
  | stopAudio => cases ho

/-- Where a stream was never heard of, the runs start alike. -/
theorem Reached.shadow (h : Reached (fun _ op => op.session ≠ some sid) s) : Shadow sid s s := by
  induction h with
  | start hf hs =>
    refine ⟨rfl, fun _ _ => rfl, by rw [hs]; rfl, fun c hc => ?_, fun f => ?_⟩
    · rw [hs] at hc
      cases hc
    · rw [family, hf]
      exact .blank sid
  | step _ ho ih => exact ih.step ho

/-- **The two runs stay side by side**, input by input. -/
theorem Shadow.run {ops : List Op} : ∀ {s t : AssocModel}, Shadow sid s t →
    (∀ op ∈ ops, op.session = some sid → op.Trafficless) →
    Shadow sid (s.run ops) (t.run (ops.filter fun op => op.session ≠ some sid)) := by
  induction ops with
  | nil => exact fun h _ => h
  | cons op ops ih =>
    intro s t h hops
    have hrest := fun o ho => hops o (List.mem_cons_of_mem op ho)
    by_cases ho : op.session = some sid
    · rw [List.filter_cons_of_neg (by simp [ho])]
      exact ih (h.stepOwn ho (hops op List.mem_cons_self ho)) hrest
    · rw [List.filter_cons_of_pos (by simp [ho])]
      have hlim : s.limits = t.limits := congrArg (fun s => s.limits) h.core
      refine ih ?_ hrest
      rw [AssocModel.step, hlim]
      exact h.step ho

/-- **A stream without traffic leaves no trace**: with it or without it, the families are the same
after every run, and so are the other streams, the recordings and the call ids. -/
theorem silent_run {sid : ℕ} {s : AssocModel} (h : Reached (fun _ op => op.session ≠ some sid) s)
    (ops : List Op) (hops : ∀ op ∈ ops, op.session = some sid → op.Trafficless) :
    let t := s.run (ops.filter fun op => op.session ≠ some sid)
    (s.run ops).fams = t.fams ∧ (∀ i ≠ sid, (s.run ops).sess.find? i = t.sess.find? i) ∧
      (s.run ops).core = t.core :=
  have hrun := h.shadow.run hops
  ⟨hrun.fams_eq, hrun.others, hrun.core⟩

/-- A stream that only sees an identity broadcast and noise, beside one with a call. -/
def noisyRun : List Op :=
  [.begin 2 (lit "P25P1") 500 (lit "p25") 434425000,
   .begin 1 (lit "DMR") 1000 (lit "dmr") 434425000,
   .event 2 { kind := lit "unknown", nac := lit "293", rawLine := lit "NAC: 293" } 1500,
   .event 1 { kind := lit "voice", talkgroup := lit "9", sourceId := lit "100" } 2000,
   .event 2
    { kind := lit "voice", talkgroup := lit "7", sourceId := lit "70", crcError := lit "1" } 2100,
   .retune 2 434437500 2500,
   .finish 1 3000,
   .finish 2 3500,
   .remove 2 4000]

theorem silent_run_noisyRun :
    (run {} noisyRun).fams = (run {} (noisyRun.filter fun op => op.session ≠ some 2)).fams :=
  (silent_run (.start rfl rfl) noisyRun (by decide +kernel)).1

end AssocModel

end DsdServer
