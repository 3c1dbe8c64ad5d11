import DsdServer.Assoc.Edits

/-!
# Assoc/Handling — the call handling is a sequence of edits

`StreamState.expire` and `StreamState.handle` are what an event does to the calls of its family;
both are sequences of edits, and change the stream's context only in its slots.

An edit is one of a few things that can be done to the calls of a family, each with the conditions
it is done under.  That a handling is a sequence of edits is shown once, here; what a sequence of
edits keeps is shown in the modules that need it, by one lemma for each edit.
-/

open Bytes

namespace DsdServer

/-- The family a stream is at work on, and the last call id given out. -/
def StreamState.spot (st : StreamState) : FamilyState × ℕ := (st.toFamilyState, st.nextCall)

/-- A sequence of edits keeps the records in order. -/
theorem Spot.edits {L : Limits} {net : Bytes} {x y : FamilyState × ℕ} (h : Spot x)
    (he : Relation.ReflTransGen (Edit L net) x y) : Spot y := by
  induction he with
  | refl => exact h
  | tail _ e ih => exact e.spot ih

/-- Call ids only grow along a sequence of edits. -/
theorem le_of_edits {L : Limits} {net : Bytes} {x y : FamilyState × ℕ}
    (he : Relation.ReflTransGen (Edit L net) x y) : x.2 ≤ y.2 := by
  induction he with
  | refl => exact le_rfl
  | tail _ e ih => exact ih.trans e.le

/-- **One stretch of call handling**: edits of the family's calls, and of the context's slots. -/
structure Works (L : Limits) (st st' : StreamState) : Prop where
  ctx : ∃ a l, st'.ctx = { st.ctx with active := a, lastSlotCall := l }
  edits : Spot st.spot → Relation.ReflTransGen (Edit L st.ctx.net) st.spot st'.spot

namespace Works

variable {L : Limits} {st st' st'' : StreamState}

theorem refl (st : StreamState) : Works L st st := ⟨⟨_, _, rfl⟩, fun _ => .refl⟩

/-- A stretch of handling leaves the network of the stream. -/
theorem net_eq (h : Works L st st') : st'.ctx.net = st.ctx.net := by
  obtain ⟨a, l, hc⟩ := h.ctx
  rw [hc]

/-- Two stretches of handling are one. -/
theorem trans (h : Works L st st') (h' : Works L st' st'') : Works L st st'' where
  ctx := by
    obtain ⟨a, l, hc⟩ := h.ctx
    obtain ⟨a', l', hc'⟩ := h'.ctx
    exact ⟨a', l', by rw [hc', hc]⟩
  edits hs := by
    have he := h.edits hs
    have he' := h'.edits (hs.edits he)
    rw [h.net_eq] at he'
    exact he.trans he'

/-- An edit of the family. -/
theorem onFamily {g : FamilyState → FamilyState}
    (h : Spot st.spot → Edit L st.ctx.net st.spot (g st.toFamilyState, st.nextCall)) :
    Works L st (st.onFamily g) := ⟨⟨_, _, rfl⟩, fun hs => .single (h hs)⟩

/-- A change of the slots. -/
theorem onCtx {g : Ctx → Ctx}
    (h : ∃ a l, g st.ctx = { st.ctx with active := a, lastSlotCall := l }) :
    Works L st (st.onCtx g) := ⟨h, fun _ => .refl⟩

/-- A record is amended, if it is there. -/
theorem amend (id : ℕ) {g : Call → Call}
    (hg : ∀ k, st.fam.findCall id = some k →
      Call.Amends st.ctx.net k (g k) ∧ (g k).sound = k.sound ∧ (g k).keep = k.keep) :
    Works L st (st.onFam fun F => F.modifyCall id g) := by
  rcases hk : st.fam.findCall id with _ | k
  · have : (st.onFam fun F => F.modifyCall id g) = st := by
      rw [StreamState.onFam, StreamState.onFamily, FamilyState.onFam, Family.modifyCall_of_none hk]
    rw [this]
    exact refl st
  · exact onFamily fun _ => .amend hk (hg k hk).1 (hg k hk).2

end Works

/-! ## A call in progress stays open

An event is folded into a call in several steps, and each of them needs that the call is open.  It
is, as only ending the call would close it, and none of the steps in between does. -/

/-- There is an open call under the id. -/
def Family.Opened (F : Family) (id : ℕ) : Prop := ∃ k, F.findCall id = some k ∧ k.isOpen

/-- There is a call in progress under the id. -/
def Family.InProgress (F : Family) (id : ℕ) (now : ℤ) : Prop :=
  ∃ k, F.findCall id = some k ∧ k.fresh now

namespace Family

variable {F : Family} {i : ℕ} {L : Limits} {now : ℤ}

theorem InProgress.opened (h : F.InProgress i now) : F.Opened i := by
  obtain ⟨k, hk, hf⟩ := h
  exact ⟨k, hk, (Bool.and_eq_true_iff.1 hf).1⟩

/-- A change that leaves the state of the call. -/
theorem InProgress.modifyCall (h : F.InProgress i now) (id : ℕ) {g : Call → Call}
    (hg : ∀ k, (g k).id = k.id ∧ (g k).isOpen = k.isOpen ∧ (g k).lastMs = k.lastMs) :
    (F.modifyCall id g).InProgress i now := by
  obtain ⟨k, hk, hf⟩ := h
  refine ⟨_, (findCall_modifyCall (fun k => (hg k).1) i).trans (by rw [hk]; rfl), ?_⟩
  dsimp only
  split_ifs
  · rwa [Call.fresh, (hg k).2.1, (hg k).2.2]
  · exact hf

theorem Opened.congr {F' : Family} (h : F.Opened i) (hF : F'.calls = F.calls) : F'.Opened i := by
  obtain ⟨k, hk, ho⟩ := h
  exact ⟨k, (findCall_congr hF i).trans hk, ho⟩

/-- A change that leaves open calls open. -/
theorem Opened.modifyCall (h : F.Opened i) (id : ℕ) {g : Call → Call}
    (hg : ∀ k, (g k).id = k.id ∧ (g k).isOpen = k.isOpen) : (F.modifyCall id g).Opened i := by
  obtain ⟨k, hk, ho⟩ := h
  refine ⟨_, (findCall_modifyCall (fun k => (hg k).1) i).trans (by rw [hk]; rfl), ?_⟩
  dsimp only
  split_ifs
  · exact (hg k).2.trans ho
  · exact ho

theorem Opened.noteEncCounts (h : F.Opened i) (id : ℕ) : (F.noteEncCounts L id).Opened i := by
  rw [Family.noteEncCounts]
  split
  · exact h
  · split_ifs
    · exact (h.modifyCall id (g := Call.markNoted) fun _ => ⟨rfl, rfl⟩).congr (calls_noteKey ..)
    · exact h

theorem Opened.noteSvc (h : F.Opened i) (id : ℕ) (x : SortedMap Bytes Bytes) :
    (F.noteSvc id x).Opened i := by
  rw [Family.noteSvc]
  split
  · exact h.modifyCall id fun k => by rw [Call.serve]; split_ifs <;> exact ⟨rfl, rfl⟩
  · exact h

theorem Opened.noteService (h : F.Opened i) (id : ℕ) (x : SortedMap Bytes Bytes) :
    (F.noteService id x now).Opened i := by
  have h₁ := h.noteSvc id x
  rw [Family.noteService, notePos]
  split
  · exact h₁
  · dsimp only
    split_ifs
    · exact h₁
    · exact (h₁.modifyCall id (g := fun k => k.place (x.getD (lit "gps") []))
        fun _ => ⟨rfl, rfl⟩).congr rfl

theorem Opened.setPrivate (h : F.Opened i) (id : ℕ) : (F.setPrivate L id now).Opened i := by
  have h₁ := h.modifyCall id (g := Call.markPrivate) fun _ => ⟨rfl, rfl⟩
  rw [Family.setPrivate]
  split
  · exact h
  · split_ifs
    · exact h
    · refine h₁.congr ?_
      rw [calls_linkPeers, calls_uncountTarget]
    · exact h₁

end Family

/-- What an encrypted line does to a record. -/
theorem Call.encrypt_frame (k : Call) (x : SortedMap Bytes Bytes) :
    ∃ kid alg, k.encrypt x = { k with encrypted := true, kid := kid, alg := alg } ∧
      (k.kid ≠ [] → kid = k.kid ∧ alg = k.alg) := by
  rw [Call.encrypt]
  dsimp only
  split
  · exact ⟨_, _, rfl, fun _ => ⟨rfl, rfl⟩⟩
  · split_ifs with h
    · exact ⟨_, _, rfl, fun _ => ⟨rfl, rfl⟩⟩
    · split
      · exact ⟨_, k.alg, rfl, fun hk => absurd (Or.inl hk) h⟩
      · exact ⟨_, _, rfl, fun hk => absurd (Or.inl hk) h⟩

/-- Marking a call as encrypted amends its record. -/
theorem Call.amends_encrypt {k : Call} (ho : k.isOpen) (x : SortedMap Bytes Bytes) (net : Bytes) :
    Call.Amends net k (k.encrypt x) := by
  obtain ⟨kid, alg, h, hkid⟩ := k.encrypt_frame x
  rw [h]
  exact ⟨rfl, rfl, rfl, rfl, rfl, Or.inl rfl, fun _ => rfl, fun _ => rfl, hkid,
    fun hc => absurd (hc.symm.trans ho) Bool.false_ne_true⟩

/-- **What an event adds to a call amends its record**: the ends are filled in, never changed once
counted. -/
theorem Call.amends_hear {k : Call} (ho : k.isOpen) (r : Reading) (c : Ctx) :
    Call.Amends c.net k (k.hear r c) where
  id := rfl
  priv := rfl
  counted := rfl
  isOpen := rfl
  keyNoted := rfl
  net := by
    rw [Call.hear]
    rcases k.counted with _ | _
    · exact Or.inr ⟨rfl, rfl⟩
    · exact Or.inl rfl
  src h := if_neg h
  tgt h := if_neg h
  key _ := ⟨rfl, rfl⟩
  closed hc := absurd (hc.symm.trans ho) Bool.false_ne_true

/-- A change of fields no counter reads. -/
def Call.Quiet (k k' : Call) : Prop :=
  ∃ svc pos slot last tx frames, k' =
    { k with svc := svc, pos := pos, slot := slot, lastMs := last, txEndMs := tx, frames := frames }

/-- A change that no counter reads amends the record. -/
theorem Call.Quiet.amends {k k' : Call} (h : k.Quiet k') (net : Bytes) :
    Call.Amends net k k' ∧ k'.sound = k.sound ∧ k'.keep = k.keep := by
  obtain ⟨svc, pos, slot, last, tx, frames, rfl⟩ := h
  exact ⟨⟨rfl, rfl, rfl, rfl, rfl, Or.inl rfl, fun _ => rfl, fun _ => rfl, fun _ => ⟨rfl, rfl⟩,
    fun _ => ⟨rfl, rfl, rfl, rfl⟩⟩, rfl, rfl⟩

/-- The service of a call is not counted. -/
theorem Call.quiet_serve (k : Call) (s : Bytes) : k.Quiet (k.serve s) := by
  rw [Call.serve]
  split_ifs
  · exact ⟨s, _, _, _, _, _, rfl⟩
  · exact ⟨_, _, _, _, _, _, rfl⟩

/-! ## The parts of the handling

Each part is one edit or none, by the conditions the source checks before it.  What an edit asks for
beyond that is that the call is open, which was carried along. -/

namespace StreamState

variable (L : Limits) (st : StreamState)

/-- A record changes quietly. -/
theorem works_quiet (id : ℕ) {g : Call → Call} (hg : ∀ k, Call.Quiet k (g k)) :
    Works L st (st.onFam fun F => F.modifyCall id g) :=
  .amend id fun k _ => (hg k).amends _

theorem works_closeCall (id : ℕ) : Works L st (st.onFamily fun w => w.closeCall L id) :=
  .onFamily fun _ => .close id

theorem works_noteService (id : ℕ) (x : SortedMap Bytes Bytes) (now : ℤ) :
    Works L st (st.onFam fun F => F.noteService id x now) := by
  have h₁ : Works L st (st.onFam fun F => F.noteSvc id x) := by
    rcases hs : x.find? (lit "svc") with _ | s
    · have : (st.onFam fun F => F.noteSvc id x) = st := by
        rw [onFam, onFamily, FamilyState.onFam, Family.noteSvc, hs]
      rw [this]
      exact .refl st
    · have : (st.onFam fun F => F.noteSvc id x) = st.onFam fun F => F.modifyCall id fun k =>
          k.serve s := by
        rw [onFam, onFamily, FamilyState.onFam, Family.noteSvc, hs]
        rfl
      rw [this]
      exact st.works_quiet L id fun k => k.quiet_serve s
  refine h₁.trans ?_
  set st₁ := st.onFam fun F => F.noteSvc id x
  have hst : (st.onFam fun F => F.noteService id x now) = st₁.onFam fun F =>
      F.notePos id x now := rfl
  rw [hst]
  rcases hk : st₁.fam.findCall id with _ | k
  · have : (st₁.onFam fun F => F.notePos id x now) = st₁ := by
      rw [onFam, onFamily, FamilyState.onFam, Family.notePos, hk]
    rw [this]
    exact .refl st₁
  by_cases hp : x.getD (lit "gps") [] = []
  · have : (st₁.onFam fun F => F.notePos id x now) = st₁ := by
      rw [onFam, onFamily, FamilyState.onFam, Family.notePos, hk]
      dsimp only
      rw [if_pos hp]
    rw [this]
    exact .refl st₁
  · have : (st₁.onFam fun F => F.notePos id x now) =
        (st₁.onFam fun F => F.modifyCall id fun k => k.place (x.getD (lit "gps") [])).onFam
          fun F => F.onRadio k.src fun r => r.fix (x.getD (lit "gps") []) now := by
      rw [onFam, onFamily, FamilyState.onFam, Family.notePos, hk]
      dsimp only
      rw [if_neg hp]
      rfl
    rw [this]
    exact (st₁.works_quiet L id fun k => ⟨_, _, _, _, _, _, rfl⟩).trans
      (.onFamily fun _ => .fix k.src _ now)

/-- Marking an open call as encrypted. -/
theorem works_noteEncrypted {id : ℕ} (ho : st.fam.Opened id) (x : SortedMap Bytes Bytes) :
    Works L st (st.onFam fun F => F.noteEncrypted L id x) := by
  have h₁ : Works L st (st.onFam fun F => F.modifyCall id fun k => k.encrypt x) := by
    refine .amend id fun k hk => ?_
    obtain ⟨k', hk', ho'⟩ := ho
    obtain rfl := Option.some.inj (hk'.symm.trans hk)
    refine ⟨Call.amends_encrypt ho' x _, ?_⟩
    obtain ⟨kid, alg, h, -⟩ := k'.encrypt_frame x
    rw [h]
    exact ⟨rfl, rfl⟩
  exact h₁.trans (.onFamily (g := fun w => w.onFam fun F => F.noteEncCounts L id) fun _ => .key id)

/-- A call marked as encrypted stays open. -/
theorem opened_noteEncrypted {F : Family} {id : ℕ} (ho : F.Opened id) (x : SortedMap Bytes Bytes) :
    (F.noteEncrypted L id x).Opened id :=
  (ho.modifyCall id fun k => by
    obtain ⟨kid, alg, h, -⟩ := k.encrypt_frame x
    rw [h]
    exact ⟨rfl, rfl⟩).noteEncCounts id

/-- An open call turns out to be private. -/
theorem works_setPrivate {id : ℕ} (ho : st.fam.Opened id) (now : ℤ) :
    Works L st (st.onFam fun F => F.setPrivate L id now) := by
  obtain ⟨k, hk, ho⟩ := ho
  exact .onFamily fun _ => .priv hk ho now

/-- The calls of a stream that went quiet end. -/
theorem works_expire (now : ℤ) : Works L st (st.expire L now) := by
  have hctx : ∀ (st' : StreamState) (key : Bytes),
      Works L st' (st'.onCtx fun c => c.dropActive key) :=
    fun _ _ => .onCtx ⟨_, _, rfl⟩
  have hone : ∀ (st : StreamState) (e : Bytes × ℕ), Works L st (expireOne L now st e) :=
    fun st e => by
    rw [expireOne]
    split
    · split_ifs
      · exact .refl st
      · exact (st.works_closeCall L _).trans (hctx _ _)
    · exact hctx st _
  rw [expire]
  induction st.ctx.active.entries generalizing st with
  | nil => exact .refl st
  | cons e l ih => exact (hone st e).trans (ih _)

/-! ## Finding a call

The source looks for the call of an event on its slot, then by its target, and then among calls
without a slot.  What is found is in all three cases a call of the family that was heard a short
time ago. -/

variable {L st}

/-- A call that is found fresh is there, and fresh. -/
theorem findCall_of_filter {F : Family} {id : ℕ} {now : ℤ} {k : Call}
    (h : (F.findCall id).filter (·.fresh now) = some k) :
    F.findCall k.id = some k ∧ k.fresh now := by
  obtain ⟨hk, hf⟩ := Option.filter_eq_some_iff.1 h
  rw [(Family.findCall_some hk).2]
  exact ⟨hk, hf⟩

theorem of_freshCall {slot : Bytes} {now : ℤ} {k : Call} (h : st.freshCall slot now = some k) :
    st.fam.findCall k.id = some k ∧ k.fresh now := by
  rw [freshCall, DsdServer.freshCall] at h
  split at h
  · cases h
  · exact findCall_of_filter h

theorem of_activeCall {slot tgt : Bytes} {now : ℤ} {k : Call}
    (h : st.activeCall slot tgt now = some k) : st.fam.findCall k.id = some k ∧ k.fresh now := by
  rw [activeCall] at h
  split at h
  · cases h
  · exact findCall_of_filter h

/-- A call without a slot that a slotted event may adopt. -/
theorem of_adoptable {r : Reading} {now : ℤ} {key : Bytes} {k : Call}
    (h : st.adoptable r now = some (key, k)) : st.fam.findCall k.id = some k ∧ k.fresh now := by
  obtain ⟨e, -, he⟩ := List.exists_of_findSome?_eq_some h
  split at he
  · cases he
  · split_ifs at he
    split at he
    · cases he
    · next o ho =>
      split_ifs at he with hf
      obtain ⟨-, rfl⟩ := Prod.mk.inj (Option.some.inj he)
      rw [(Family.findCall_some ho).2]
      simp only [Bool.or_eq_true, not_or, Bool.not_eq_true', Bool.not_eq_false] at hf
      exact ⟨ho, hf.1⟩

/-- The call of a target's event is in progress. -/
theorem works_matchTarget (L : Limits) (st : StreamState) (r : Reading) (now : ℤ) :
    Works L st (st.matchTarget r now).1 ∧
      ∀ id, (st.matchTarget r now).2 = some id →
        (st.matchTarget r now).1.fam.InProgress id now := by
  rw [matchTarget]
  split
  · next k hk =>
    refine ⟨.refl st, fun id h => ?_⟩
    obtain rfl := Option.some.inj h
    exact ⟨k, of_activeCall hk⟩
  · split
    · next key k hk =>
      have hopen : st.fam.InProgress k.id now := ⟨k, of_adoptable hk⟩
      split_ifs
      · have hw := st.works_quiet L k.id (g := fun k => k.takeSlot r.slot)
          fun k => ⟨_, _, r.slot, _, _, _, rfl⟩
        have hc := hw.trans (.onCtx (g := fun c =>
          (c.dropActive key).setActive (activeKey r.slot r.tgt) k.id) ⟨_, _, rfl⟩)
        refine ⟨hc, fun id h => ?_⟩
        obtain rfl := Option.some.inj h
        exact hopen.modifyCall k.id fun _ => ⟨rfl, rfl, rfl⟩
      · refine ⟨.refl st, fun id h => ?_⟩
        obtain rfl := Option.some.inj h
        exact hopen
    · refine ⟨.refl st, fun id h => ?_⟩
      obtain ⟨k, hk, rfl⟩ := Option.map_eq_some_iff.1 h
      exact ⟨k, of_freshCall (Option.filter_eq_some_iff.1 hk).1⟩

/-- **The call an event belongs to is in progress.** -/
theorem works_matchCall (L : Limits) (st : StreamState) (r : Reading) (now : ℤ) :
    Works L st (st.matchCall L r now).1 ∧
      ∀ id, (st.matchCall L r now).2 = some id →
        (st.matchCall L r now).1.fam.InProgress id now := by
  set m : StreamState × Option ℕ := if r.tgt = [] then (st, (st.freshCall r.slot now).map (·.id))
    else st.matchTarget r now
  have hm : Works L st m.1 ∧ ∀ id, m.2 = some id → m.1.fam.InProgress id now := by
    simp only [m]
    split_ifs
    · refine ⟨.refl st, fun id h => ?_⟩
      obtain ⟨k, hk, rfl⟩ := Option.map_eq_some_iff.1 h
      exact ⟨k, of_freshCall hk⟩
    · exact works_matchTarget L st r now
  have heq : st.matchCall L r now = (m.2.bind m.1.fam.findCall).elim (m.1, none) fun k =>
      if k.data && !k.voice && r.src = [] && r.tgt = [] && r.voicey then (m.1, none)
      else if r.src ≠ [] && k.src ≠ [] && r.src ≠ k.src then
        (m.1.onFamily fun w => w.closeCall L k.id, none)
      else (m.1, some k.id) := by
    rw [StreamState.matchCall]
    generalize hgen : (if r.tgt = [] then (st, (st.freshCall r.slot now).map (·.id))
      else st.matchTarget r now) = m'
    rw [show m = m' from hgen]
    dsimp only
    rcases m'.2.bind m'.1.fam.findCall with _ | k <;> rfl
  rw [heq]
  obtain ⟨o, hk⟩ : ∃ o, m.2.bind m.1.fam.findCall = o := ⟨_, rfl⟩
  rw [hk]
  rcases o with _ | k
  · exact ⟨hm.1, fun id h => by cases h⟩
  · rw [Option.elim_some]
    obtain ⟨id, hid, hk⟩ := Option.bind_eq_some_iff.1 hk
    split_ifs
    · exact ⟨hm.1, fun id h => by cases h⟩
    · exact ⟨hm.1.trans (m.1.works_closeCall L _), fun id h => by cases h⟩
    · refine ⟨hm.1, fun id' h => ?_⟩
      obtain rfl := Option.some.inj h
      rw [(Family.findCall_some hk).2]
      exact hm.2 id hid

/-! ## Opening a call

A call is opened after the one on its slot has ended, and after the oldest has rolled off when the
list is full.  The new record has nothing counted in it. -/

theorem works_rollOff (L : Limits) (st : StreamState) :
    Works L st (st.onFamily fun w => w.rollOff L) := by
  have hid : ∀ {g : FamilyState → FamilyState}, g st.toFamilyState = st.toFamilyState →
      Works L st (st.onFamily g) := fun h => by
    rw [onFamily, h]
    exact .refl st
  by_cases hr : reached L.calls (st.fam.calls.countP fun k => !k.keep)
  · rcases hf : st.fam.calls.find? fun k => !k.keep with _ | v
    · exact hid (by rw [FamilyState.rollOff, if_pos hr, hf])
    · have heq : (st.onFamily fun w => w.rollOff L) =
          (st.onFamily fun w => w.closeCall L v.id).onFamily fun w => w.forget v.id := by
        rw [onFamily, FamilyState.rollOff, if_pos hr, hf]
        rfl
      rw [heq]
      refine (st.works_closeCall L v.id).trans (.onFamily fun _ => .drop v.id fun hn => ?_)
      rw [hn] at hr
      exact Bool.false_ne_true hr
  · exact hid (by rw [FamilyState.rollOff, if_neg hr])

/-- The slot's call in progress ends. -/
def vacate (L : Limits) (st : StreamState) (slot : Bytes) (now : ℤ) : StreamState :=
  if slot = [] then st
  else match st.freshCall slot now with
    | some prev => st.onFamily fun w => w.closeCall L prev.id
    | none => st

/-- A call joins the list, which makes room for it. -/
def enlist (L : Limits) (st : StreamState) (sid : ℕ) (slot : Bytes) (now : ℤ) : StreamState × ℕ :=
  let st := st.onFamily fun w => w.rollOff L
  let id := st.nextCall + 1
  let k : Call :=
    { id := id, session := sid, slot := slot, net := st.ctx.net, site := st.ctx.site
      freq := st.ctx.freq, startMs := now, lastMs := now }
  let st := st.onFam fun F => { F with calls := F.calls ++ [k] }
  let st := st.onCtx fun c => c.setLast slot id
  ({ st with nextCall := id }, id)

/-- Opening a call is vacating its slot and enlisting it. -/
theorem openCall_eq (L : Limits) (st : StreamState) (sid : ℕ) (slot : Bytes) (now : ℤ) :
    st.openCall L sid slot now = (st.vacate L slot now).enlist L sid slot now := rfl

/-- Ending the call that a slot still carries. -/
theorem works_vacate (L : Limits) (st : StreamState) (slot : Bytes) (now : ℤ) :
    Works L st (st.vacate L slot now) := by
  rw [vacate]
  split_ifs
  · exact .refl st
  · split
    · exact st.works_closeCall L _
    · exact .refl st

/-- **A call is opened**, and is open. -/
theorem works_openCall (L : Limits) (st : StreamState) (sid : ℕ) (slot : Bytes) (now : ℤ) :
    Works L st (st.openCall L sid slot now).1 ∧
      (st.openCall L sid slot now).1.fam.Opened (st.openCall L sid slot now).2 := by
  rw [openCall_eq]
  set st₁ := st.vacate L slot now
  have h₂ := (works_vacate L st slot now).trans (works_rollOff L st₁)
  set st₂ := st₁.onFamily fun w => w.rollOff L
  set k : Call :=
    { id := st₂.nextCall + 1, session := sid, slot := slot, net := st₂.ctx.net, site := st₂.ctx.site
      freq := st₂.ctx.freq, startMs := now, lastMs := now }
  have hfam : (st₁.enlist L sid slot now).1.fam = { st₂.fam with calls := st₂.fam.calls ++ [k] } :=
    rfl
  refine ⟨h₂.trans ⟨⟨_, _, rfl⟩, fun _ => .single ?_⟩, k, ?_, rfl⟩
  · exact Edit.push (k := k) rfl rfl rfl rfl rfl rfl rfl
  · rw [hfam, Family.findCall, List.reverse_append, List.reverse_singleton, List.singleton_append,
      List.find?_cons_of_pos]
    exact decide_eq_true rfl

/-! ## Counting or joining

A call whose ends have become known is counted, unless another stream hears the same call: then its
record is joined with that of its twin.  That is where the conditions of a join come from. -/

/-- A twin is another open call of the same ends. -/
theorem of_findTwin {F : Family} {k twin : Call} {now : ℤ} (h : F.findTwin k now = some twin) :
    twin ∈ F.calls ∧ twin.id ≠ k.id ∧ twin.isOpen ∧ twin.src = k.src ∧ twin.tgt = k.tgt := by
  have hm := List.mem_reverse.1 (List.mem_of_find?_eq_some h)
  have hp := List.find?_some h
  simp only [Bool.and_eq_true, decide_eq_true_eq] at hp
  obtain ⟨⟨⟨⟨⟨⟨⟨hid, -⟩, ho⟩, -⟩, -⟩, hs⟩, ht⟩, -⟩ := hp
  exact ⟨hm, hid, ho, hs, ht⟩

/-- The twin's record once the duplicate is folded in. -/
theorem findCall_adopt {w : FamilyState} {dup twin : Call} (h : w.fam.Kept)
    (ht : twin ∈ w.fam.calls) (hne : twin.id ≠ dup.id) (ho : twin.isOpen) :
    (w.adopt L dup twin).fam.findCall twin.id = some (twin.join dup).noted := by
  have hk := h.findCall_of_mem ht
  obtain ⟨p, q, ha⟩ := h.around hk
  have h₁ := h.amend hk (g := fun t => t.join dup) (Call.amends_join ho [])
  have ha₁ := ha.modifyCall (g := fun t => t.join dup) rfl
  have hm :
      twin.join dup ∈ ((w.fam.modifyCall twin.id fun t => t.join dup).forget dup.id).calls := by
    refine (List.mem_eraseP_of_neg ?_).2 ha₁.mem
    exact fun hd => hne (of_decide_eq_true hd)
  have hf := (h₁.forget dup.id).findCall_of_mem hm
  obtain ⟨p', q', ha₂⟩ := (h₁.forget dup.id).around hf
  rw [fam_adopt]
  exact ha₂.noteEncCounts.findCall

/-- **A call whose ends are known is counted, or folded into another receiver's.** -/
theorem works_countOrJoin (L : Limits) (st : StreamState) {id : ℕ} (ho : st.fam.Opened id)
    (slot : Bytes) (now : ℤ) : Works L st (st.countOrJoin L id slot now) := by
  obtain ⟨k, hk, ho⟩ := ho
  rw [countOrJoin, hk]
  dsimp only
  split_ifs with hc
  · exact .refl st
  simp only [Bool.or_eq_true, decide_eq_true_eq, not_or, Bool.not_eq_true] at hc
  obtain ⟨⟨hc, hs⟩, ht⟩ := hc
  rcases htw : st.fam.findTwin k now with _ | twin
  · dsimp only
    rw [hk]
    dsimp only
    rw [if_neg (by rw [hc]; exact Bool.false_ne_true)]
    exact .onFamily fun _ => .count hk ho hc hs ht now
  · obtain ⟨hm, hne, hto, hsrc, htgt⟩ := of_findTwin htw
    obtain rfl := (Family.findCall_some hk).2
    have hctx : ∃ a l, (st.adoptTwin L k twin slot).ctx =
        { st.ctx with active := a, lastSlotCall := l } := ⟨_, _, rfl⟩
    have hjoin : Spot st.spot → Edit L st.ctx.net st.spot (st.adoptTwin L k twin slot).spot :=
      fun hS => .join hk (hS.kept.findCall_of_mem hm) hne hto hc
        ⟨hsrc, htgt, hsrc ▸ hs, htgt ▸ ht⟩
    dsimp only
    split
    · exact ⟨hctx, fun hS => .single (hjoin hS)⟩
    · next k' hk' =>
      split_ifs with hc'
      · exact ⟨hctx, fun hS => .single (hjoin hS)⟩
      · refine ⟨hctx, fun hS => (Relation.ReflTransGen.single (hjoin hS)).tail ?_⟩
        have hnoted : (twin.join k).noted.isOpen = twin.isOpen ∧
            (twin.join k).noted.src = twin.src ∧ (twin.join k).noted.tgt = twin.tgt := by
          rw [Call.noted]
          split_ifs <;> exact ⟨rfl, rfl, rfl⟩
        have hk'' : some k' = some (twin.join k).noted :=
          hk'.symm.trans (findCall_adopt hS.kept hm hne hto)
        obtain rfl := Option.some.inj hk''
        exact .count hk' (hnoted.1.trans hto) (Bool.eq_false_iff.2 hc')
          (by rw [hnoted.2.1, hsrc]; exact hs) (by rw [hnoted.2.2, htgt]; exact ht) now

/-! ## The handling of an event

Put together, the handling of an event is a sequence of edits on the network of its stream, whatever
branch it takes. -/

/-- **An event is folded into its open call.** -/
theorem works_foldEvent (L : Limits) (on : Bool) (st : StreamState) (r : Reading) {id : ℕ}
    (ho : st.fam.Opened id) (now : ℤ) : Works L st (st.foldEvent L on r id now) := by
  obtain ⟨k, hk, hko⟩ := ho
  rw [foldEvent, hk]
  dsimp only
  set st₁ := st.onFam fun F => F.modifyCall id fun k => k.hear r st.ctx
  have h₁ : Works L st st₁ := .amend id fun k' hk' => by
    obtain rfl := Option.some.inj (hk.symm.trans hk')
    exact ⟨Call.amends_hear hko r st.ctx, rfl, rfl⟩
  have o₁ : st₁.fam.Opened id := Family.Opened.modifyCall ⟨k, hk, hko⟩ id fun _ => ⟨rfl, rfl⟩
  set st₂ := if k.tgt = [] ∧ r.tgt ≠ [] then
    st₁.onCtx fun c => c.setActive (activeKey r.slot r.tgt) id else st₁
  have h₂ : Works L st₁ st₂ := by
    simp only [st₂]
    split_ifs
    · exact .onCtx ⟨_, _, rfl⟩
    · exact .refl st₁
  have o₂ : st₂.fam.Opened id := by
    simp only [st₂]
    split_ifs <;> exact o₁
  set st₃ := st₂.feedQuality on r id
  have h₃ : Works L st₂ st₃ := by
    simp only [st₃, feedQuality]
    split_ifs
    · exact .onFamily fun _ => .quality _
    · exact .refl st₂
  have o₃ : st₃.fam.Opened id := by
    simp only [st₃, feedQuality]
    split_ifs <;> exact o₂
  set st₄ := st₃.onFam fun F => F.noteService id r.extra now
  have h₄ : Works L st₃ st₄ := st₃.works_noteService L id r.extra now
  have o₄ : st₄.fam.Opened id := o₃.noteService id r.extra
  set st₅ := if r.enc then st₄.onFam fun F => F.noteEncrypted L id r.extra else st₄
  have h₅ : Works L st₄ st₅ := by
    simp only [st₅]
    split_ifs
    · exact st₄.works_noteEncrypted L o₄ r.extra
    · exact .refl st₄
  have o₅ : st₅.fam.Opened id := by
    simp only [st₅]
    split_ifs
    · exact opened_noteEncrypted L o₄ r.extra
    · exact o₄
  set st₆ := st₅.onFam fun F => F.modifyCall id fun k => k.heard now
  have h₆ : Works L st₅ st₆ := st₅.works_quiet L id fun k => ⟨_, _, _, _, _, _, rfl⟩
  have o₆ : st₆.fam.Opened id := o₅.modifyCall id fun _ => ⟨rfl, rfl⟩
  set st₇ := st₆.onCtx fun c => c.setLast r.slot id
  have h₇ : Works L st₆ st₇ := .onCtx ⟨_, _, rfl⟩
  set st₈ := if r.priv then st₇.onFam fun F => F.setPrivate L id now else st₇
  have h₈ : Works L st₇ st₈ := by
    simp only [st₈]
    split_ifs
    · exact st₇.works_setPrivate L o₆ now
    · exact .refl st₇
  have o₈ : st₈.fam.Opened id := by
    simp only [st₈]
    split_ifs
    · exact o₆.setPrivate id
    · exact o₆
  exact ((((((h₁.trans h₂).trans h₃).trans h₄).trans h₅).trans h₆).trans h₇).trans
    (h₈.trans (works_countOrJoin L st₈ o₈ r.slot now))

/-- A line of no known kind refines the open call on its slot. -/
theorem works_refine (L : Limits) (st : StreamState) (r : Reading) (now : ℤ) :
    Works L st (st.refine L r now) := by
  rw [refine]
  split
  · exact .refl st
  next k hk =>
  have o : st.fam.Opened k.id := Family.InProgress.opened ⟨k, of_freshCall hk⟩
  set st₁ := if r.priv then st.onFam fun F => F.setPrivate L k.id now else st
  have h₁ : Works L st st₁ ∧ st₁.fam.Opened k.id := by
    simp only [st₁]
    split_ifs
    · exact ⟨st.works_setPrivate L o now, o.setPrivate k.id⟩
    · exact ⟨.refl st, o⟩
  set st₂ := if r.emerg then st₁.onFam fun F => F.modifyCall k.id Call.alarm else st₁
  have h₂ : Works L st₁ st₂ ∧ st₂.fam.Opened k.id := by
    simp only [st₂]
    split_ifs
    · refine ⟨.amend k.id fun k' hk' => ?_, h₁.2.modifyCall k.id fun _ => ⟨rfl, rfl⟩⟩
      obtain ⟨k'', hk'', ho⟩ := h₁.2
      obtain rfl := Option.some.inj (hk''.symm.trans hk')
      exact ⟨⟨rfl, rfl, rfl, rfl, rfl, Or.inl rfl, fun _ => rfl, fun _ => rfl, fun _ => ⟨rfl, rfl⟩,
        fun hc => absurd (hc.symm.trans ho) Bool.false_ne_true⟩, rfl, rfl⟩
    · exact ⟨.refl st₁, h₁.2⟩
  set st₃ := if r.enc then st₂.onFam fun F => F.noteEncrypted L k.id r.extra else st₂
  have h₃ : Works L st₂ st₃ := by
    simp only [st₃]
    split_ifs
    · exact st₂.works_noteEncrypted L h₂.2 r.extra
    · exact .refl st₂
  exact ((h₁.1.trans h₂.1).trans h₃).trans (st₃.works_noteService L k.id r.extra now)

theorem works_hearRadio (L : Limits) (st : StreamState) (r : Reading) (now : ℤ) :
    Works L st (st.hearRadio L r now) := by
  rw [hearRadio]
  split_ifs with hs
  · exact .refl st
  · exact .onFamily fun _ => .touch hs _ now

/-- **The handling of an event that belongs to a call.** -/
theorem works_handleCall (L : Limits) (on : Bool) (st : StreamState) (sid : ℕ) (r : Reading)
    (now : ℤ) : Works L st (st.handleCall L on sid r now) := by
  have hm := works_matchCall L st r now
  rw [handleCall]
  split
  · next st₁ id heq =>
    rw [heq] at hm
    exact hm.1.trans (works_foldEvent L on st₁ r (hm.2 id rfl).opened now)
  · next st₁ heq =>
    rw [heq] at hm
    split_ifs
    · exact hm.1
    · have ho := works_openCall L st₁ sid r.slot now
      exact (hm.1.trans ho.1).trans (works_foldEvent L on _ r ho.2 now)

/-- **The handling of an event is a sequence of edits.** -/
theorem works_handle (L : Limits) (on : Bool) (st : StreamState) (sid : ℕ) (r : Reading) (now : ℤ) :
    Works L st (st.handle L on sid r now) := by
  rw [handle]
  split_ifs
  · exact .refl st
  · rw [markUnkeyed]
    split
    · exact .refl st
    · exact st.works_quiet L _ fun k => ⟨_, _, _, _, _, _, rfl⟩
  · exact works_refine L st r now
  · exact works_hearRadio L st r now
  · exact (works_hearRadio L st r now).trans (works_handleCall L on _ sid r now)

end StreamState

end DsdServer
