import DsdServer.Assoc.Slots

/-!
# Assoc/Exclusive — one call at a time on a slot, along every run

The calls in progress of a session are all of one protocol, its stream's; and what is not an event
only lets calls end and go.  With what the handling of an event keeps (`lasting_handle`), a session
has one call in progress on a slot at most right after every event.

* `slot_exclusive` — **while no call takes a slot on which another call of its session is in
  progress**, and time does not go back, a session has one call in progress on a slot at most.

Whether a call on a slot is in progress depends on the time, as a call that has not been heard for
long is over without having ended.  So what is claimed is said of the moment right after an event,
and of the calls in progress then.
-/

open Bytes

namespace DsdServer

theorem Family.Settled.fades {F F' : Family} (h : F.Settled F') : F.Fades F' := by
  induction h with
  | refl => exact .refl F
  | tail _ e ih =>
    obtain ⟨g, id, hg, rfl⟩ := e
    exact ih.trans (.settles _ id hg)

namespace AssocModel

variable {L : Limits} {s s' s'' : AssocModel} {sid : ℕ} {now : ℤ}

/-! ## Fading

What is not an event opens no call and hears none.  All of it is fading, which cannot put two calls
on one slot. -/

/-- Every family fades. -/
def Fades (s s' : AssocModel) : Prop := ∀ f, (s.family f).Fades (s'.family f)

namespace Fades

/-- What touches no family lets nothing but fade. -/
theorem of_fams (h : s'.fams = s.fams) : Fades s s' := fun f => by
  rw [family, family, h]
  exact .refl _

theorem refl (s : AssocModel) : Fades s s := of_fams rfl

theorem trans (h : Fades s s') (h' : Fades s' s'') : Fades s s'' := fun f => (h f).trans (h' f)

/-- One family fades. -/
theorem insert {f : Bytes} {F : Family} (hs : s'.fams = s.fams.insert f F)
    (hF : (s.family f).Fades F) :
    Fades s s' := fun g => by
  have he : s'.family g = if g = f then F else s.family g := by
    rw [family, hs, family_insert]
    rfl
  rw [he]
  split_ifs with hg
  · rw [hg]
    exact hF
  · exact .refl _

end Fades

theorem Settled.fades (h : Settled s s') : Fades s s' := fun f => (h.fam f).fades

/-- Closing calls is work on one family. -/
theorem name_closeSessionCalls (L : Limits) (w : FamilyState) (sid : ℕ) :
    (w.closeSessionCalls L sid).name = w.name := by
  rw [FamilyState.closeSessionCalls]
  induction w.fam.calls.filter (·.session = sid) generalizing w with
  | nil => rfl
  | cons k l ih => exact (ih _).trans (w.name_closeCall L k.id)

/-- Closing the calls of a stream is fading. -/
theorem fades_closeSessionCalls (s : AssocModel) (sid : ℕ) :
    Fades s (s.closeSessionCalls L sid) := by
  rw [closeSessionCalls]
  split
  · exact .refl s
  · next c _ =>
    split_ifs
    · refine .insert (f := c.family) ?_ ((s.desk c.family).fades_closeSessionCalls (L := L) sid)
      rw [putDesk, name_closeSessionCalls]
      rfl
    · exact .refl s

/-- What leaves the cores fades nothing. -/
theorem Aside.fades (h : Aside Call.core s s') : Fades s s' := fun f => .of_cores (h.calls f)

theorem fades_pruneSession (s : AssocModel) (sid : ℕ) (retune : Bool) :
    Fades s (s.pruneSession sid retune) := (aside_pruneSession s sid retune).fades

theorem fades_identify (s : AssocModel) (sid : ℕ) (r : Reading) (now : ℤ) :
    Fades s (s.identify L sid r now) := (aside_identify (fun _ _ => rfl) s sid r now).fades

end AssocModel

/-! ## A session's calls end

When a stream begins anew its calls are closed first, so a stream that changes its protocol takes no
open call along. -/

namespace FamilyState

variable {L : Limits} {w : FamilyState}

/-- A call that was closed is not open. -/
theorem closed_closeCall (h : w.fam.Kept) (id : ℕ) {c : Core}
    (hc : c ∈ (w.closeCall L id).fam.cores) (hid : c.id = id) : c.isOpen = false := by
  by_cases ho : ∃ k, w.fam.findCall id = some k ∧ k.isOpen = true
  · obtain ⟨k, hk, ho⟩ := ho
    obtain ⟨g, hg, hw⟩ := fam_closeCall L w id hk ho
    rw [hw, Family.cores_congr (Family.calls_tallyClosed ..), Family.cores_countUnsourced,
      Family.cores, Family.modifyCall, List.map_map] at hc
    obtain ⟨k', -, rfl⟩ := List.mem_map.1 hc
    obtain ⟨q, s, b, hg'⟩ := hg k'
    rw [Function.comp_apply] at hid ⊢
    by_cases he : k'.id = id
    · rw [if_pos he, hg']
      rfl
    · rw [if_neg he] at hid
      exact absurd hid he
  · have hclosed : ∀ k, w.fam.findCall id = some k → k.isOpen = false :=
      fun k hk => Bool.eq_false_iff.2 fun hko => ho ⟨k, hk, hko⟩
    rw [closeCall_of_closed L w id hclosed] at hc
    obtain ⟨k, hk, rfl⟩ := List.mem_map.1 hc
    exact hclosed k (hid ▸ h.findCall_of_mem hk)

/-- **Ending a session's calls leaves none of them open.** -/
theorem closed_closeSessionCalls (h : w.fam.Kept) (sid : ℕ) {c : Core}
    (hc : c ∈ (w.closeSessionCalls L sid).fam.cores) (hs : c.session = sid) : c.isOpen = false := by
  have hclose : ∀ (l : List Call) (w : FamilyState), w.fam.Kept →
      w.fam.Fades (l.foldl (fun w k => w.closeCall L k.id) w).fam ∧
      ∀ c ∈ (l.foldl (fun w k => w.closeCall L k.id) w).fam.cores, c.isOpen = true →
        ∀ k ∈ l, c.id ≠ k.id := fun l => by
    induction l with
    | nil => exact fun w _ => ⟨.refl _, fun _ _ _ _ hk => absurd hk List.not_mem_nil⟩
    | cons k l ih =>
      intro w hw
      obtain ⟨h₁, h₂⟩ := ih (w.closeCall L k.id) (hw.closeCall k.id).1
      refine ⟨(w.fades_closeCall k.id).trans h₁, fun c hc ho k' hk' => ?_⟩
      rcases List.mem_cons.1 hk' with rfl | hk'
      · obtain ⟨c₁, hc₁, hf⟩ := h₁ c hc
        intro he
        exact Bool.false_ne_true
          ((closed_closeCall hw k'.id hc₁ (hf.id ▸ he)).symm.trans (hf.isOpen ho))
      · exact h₂ c hc ho k' hk'
  obtain ⟨h₁, h₂⟩ := hclose (w.fam.calls.filter (·.session = sid)) w h
  refine Bool.eq_false_iff.2 fun ho => ?_
  obtain ⟨c₀, hc₀, hf⟩ := h₁ c hc
  obtain ⟨k, hk, rfl⟩ := List.mem_map.1 hc₀
  refine h₂ c hc ho k (List.mem_filter.2 ⟨hk, decide_eq_true ?_⟩) hf.id
  exact hf.session.symm.trans hs

end FamilyState

/-! ## Whose calls are in progress

Sessions have one protocol at a time, and their open calls are kept with that family.  So two calls
of one session that are in progress are in one family, where they can be compared. -/

/-- The family of a stream is such a reading. -/
theorem Ctx.steady_family : Ctx.Steady Ctx.family where
  leave c dead := by rw [Ctx.leave]; split_ifs <;> rfl
  moveAlong c frm dst := by rw [Ctx.moveAlong]; split_ifs <;> rfl
  settle _ _ := rfl
  calls _ _ _ := rfl
  preroll _ _ := rfl

/-- No line names the family a stream has before it is known. -/
theorem inferFamily_ne_auto (raw : Bytes) : inferFamily raw ≠ lit "auto" := by
  rw [inferFamily]
  split_ifs <;> decide

/-- The gate moves a stream from no protocol of its own only; what it lets pass has one. -/
theorem Ctx.gate_family (c : Ctx) (r : Reading) (now : ℤ) :
    ((c.gate r now).1.family = c.family ∨ c.family = lit "auto") ∧
      ((c.gate r now).2 = true → (c.gate r now).1.family ≠ [] ∧
        (c.gate r now).1.family ≠ lit "auto") := by
  rw [Ctx.gate]
  have h : (if r.ev.kind ≠ lit "unknown" ∧ r.ev.crcError ≠ lit "1" then { c with heardMs := now }
      else c).family = c.family := by split_ifs <;> rfl
  revert h
  generalize (if r.ev.kind ≠ lit "unknown" ∧ r.ev.crcError ≠ lit "1" then { c with heardMs := now }
      else c) = c'
  intro h
  dsimp only
  by_cases hf : c'.family = []
  · rw [if_pos hf]
    exact ⟨Or.inl h, fun e => Bool.noConfusion e⟩
  rw [if_neg hf]
  have hauto : c'.family = lit "auto" ∨
      (if c'.family = lit "auto" then
        (if r.ev.kind = lit "unknown" then [] else inferFamily r.ev.rawLine)
        else c'.family) = c'.family := by
    by_cases ha : c'.family = lit "auto"
    · exact Or.inl ha
    · exact Or.inr (if_neg ha)
  have hne : (if c'.family = lit "auto" then (if r.ev.kind = lit "unknown" then [] else
      inferFamily r.ev.rawLine) else c'.family) ≠ lit "auto" := by
    split_ifs with ha hu
    · decide
    · exact inferFamily_ne_auto _
    · exact ha
  revert hauto hne
  generalize (if c'.family = lit "auto" then (if r.ev.kind = lit "unknown" then [] else
      inferFamily r.ev.rawLine) else c'.family) = fam
  intro hauto hne
  rw [h] at hauto
  have hfam : fam = c.family ∨ c.family = lit "auto" := hauto.symm
  split_ifs with h₁ h₂ h₃ h₄
  · exact ⟨Or.inl h, fun e => e.elim⟩
  · exact ⟨hfam, fun e => e.elim⟩
  · exact ⟨hfam, fun _ => ⟨h₁, hne⟩⟩
  · refine ⟨?_, fun e => e.elim⟩
    rw [AssocModel.absorbIdentity_family]
    exact hfam
  · exact ⟨hfam, fun _ => ⟨h₁, hne⟩⟩

namespace AssocModel

variable {L : Limits} {s s' : AssocModel} {sid : ℕ} {now : ℤ}

/-- **The calls in progress of a session are of its stream's protocol**, and that is one of its
own. -/
def Home (s : AssocModel) : Prop :=
  ∀ f, ∀ c ∈ (s.family f).cores, c.isOpen → f ≠ [] ∧ f ≠ lit "auto" ∧ (s.ctx c.session).family = f

/-- The families fade, and the streams whose calls are still open keep their protocol. -/
theorem Home.fades (h : s.Home) (hf : Fades s s')
    (hc : ∀ f, ∀ c ∈ (s'.family f).cores, c.isOpen →
      (s'.ctx c.session).family = (s.ctx c.session).family) :
    s'.Home := fun f c' hm ho => by
  obtain ⟨c, hm', hcf⟩ := hf f c' hm
  obtain ⟨h₁, h₂, h₃⟩ := h f c hm' (hcf.isOpen ho)
  exact ⟨h₁, h₂, (hc f c' hm ho).trans (hcf.session ▸ h₃)⟩

/-- Where calls fade and families stay, calls stay at home. -/
theorem Home.same (h : s.Home) (hf : Fades s s') (hc : Same Ctx.family s s') : s'.Home :=
  h.fades hf fun _ c _ _ => hc c.session

/-- **A session whose calls ended has none in progress.** -/
theorem Home.closed (h : s.Home) (hi : s.Inv L) {f : Bytes} {c : Core}
    (hc : c ∈ ((s.closeSessionCalls L sid).family f).cores) (ho : c.isOpen) : c.session ≠ sid := by
  intro hs
  obtain ⟨c₀, hc₀, hf⟩ := s.fades_closeSessionCalls sid f c hc
  obtain ⟨hne, -, hfam⟩ := h f c₀ hc₀ (hf.isOpen ho)
  rw [← hf.session, hs] at hfam
  rw [closeSessionCalls] at hc
  rcases hctx : s.sess.find? sid with _ | x
  · rw [ctx, SortedMap.getD, hctx] at hfam
    exact hne hfam.symm
  rw [ctx_of_find? hctx] at hfam
  rw [hctx] at hc
  dsimp only at hc
  split_ifs at hc with hin
  · have he : (s.putDesk ((s.desk x.family).closeSessionCalls L sid)).family f =
        ((s.desk x.family).closeSessionCalls L sid).fam := by
      rw [family, putDesk, name_closeSessionCalls]
      dsimp only
      rw [family_insert]
      exact if_pos (hfam.symm : f = (s.desk x.family).name)
    rw [he] at hc
    exact Bool.false_ne_true
      ((FamilyState.closed_closeSessionCalls (hi.fam x.family).kept sid hc hs).symm.trans ho)
  · have hnone : s.fams.find? f = none := by
      rw [← hfam]
      exact SortedMap.find?_eq_none_iff.2 fun hm => hin (SortedMap.contains_iff.2 hm)
    rw [family, SortedMap.getD, hnone] at hc
    exact absurd hc List.not_mem_nil

/-- What ends a session's calls, and then changes its stream only. -/
theorem Home.wrapUp (h : s.Home) (hi : s.Inv L) (sid : ℕ) (line : Bytes) (retune : Bool)
    (hf : s'.fams = (((s.record line).closeSessionCalls L sid).pruneSession sid retune).fams)
    (hc : ∀ i ≠ sid, (s'.ctx i).family = (s.ctx i).family) : Fades s s' ∧ s'.Home := by
  set s₁ := s.record line
  have h₁ : s₁.Home := h.same (.of_fams rfl) (.of_sess rfl)
  have hi₁ : s₁.Inv L := hi.congr rfl rfl
  set s₂ := s₁.closeSessionCalls L sid
  have hp : Fades s₂ s' := (fades_pruneSession s₂ sid retune).trans (.of_fams hf)
  have hrec : Fades s s₁ := .of_fams rfl
  have hall : Fades s s' := hrec.trans ((s₁.fades_closeSessionCalls sid).trans hp)
  refine ⟨hall, h.fades hall fun f c hm ho => hc _ ?_⟩
  obtain ⟨c₂, hm₂, hcf⟩ := hp f c hm
  rw [hcf.session]
  exact h₁.closed hi₁ hm₂ (hcf.isOpen ho)

/-- **What is not an event lets calls end and go**, and keeps the protocols of the calls in
progress. -/
theorem Home.step (h : s.Home) (hi : s.Inv L) {op : Op}
    (hop : ∀ sid ev now, op ≠ .event sid ev now) :
    Fades s (s.stepWith L op) ∧ (s.stepWith L op).Home := by
  cases op with
  | begin sid label now family freq =>
    refine h.wrapUp hi sid (assoclog.beginLine now sid label freq) false rfl fun i hn => ?_
    exact (proj_beginStream Ctx.steady_family s sid label now family freq i).trans (if_neg hn)
  | retune sid freq now =>
    have hc : Same Ctx.family s (s.retuneStream L sid freq now) := fun i => by
      rw [proj_retuneStream Ctx.steady_family]
      split_ifs <;> rfl
    rw [stepWith]
    rw [retuneStream] at hc ⊢
    split at hc
    · exact ⟨.refl s, h⟩
    · split_ifs at hc ⊢
      · exact ⟨.refl s, h⟩
      · exact h.wrapUp hi sid (assoclog.tuneLine now sid freq) true rfl fun i _ => hc i
  | event sid ev now => exact absurd rfl (hop sid ev now)
  | audio sid slot pcm keyed creatable now =>
    have hf := (s.settled_audio sid slot pcm keyed creatable now).fades
    exact ⟨hf, h.same hf (same_audio Ctx.steady_family s sid slot pcm keyed creatable now)⟩
  | finish sid now =>
    set s₁ := (s.record (assoclog.endLine now sid)).closeSessionCalls L sid
    set s₂ := { s₁ with sess := s₁.sess.modify sid Ctx.stop }
    have hrec : Fades s (s.record (assoclog.endLine now sid)) := .of_fams rfl
    have h₁ : Fades s s₁ := hrec.trans (fades_closeSessionCalls _ sid)
    have hstop : Fades s₁ s₂ := .of_fams rfl
    have h₂ : Fades s₁ (s.endStream L sid now) :=
      (hstop.trans (fades_pruneSession s₂ sid false)).trans (.of_fams rfl)
    refine ⟨h₁.trans h₂, h.same (h₁.trans h₂) fun i => ?_⟩
    rw [stepWith, proj_endStream Ctx.steady_family]
    split_ifs <;> rfl
  | remove sid now =>
    refine h.wrapUp hi sid (assoclog.removeLine now sid) false rfl fun i hn => ?_
    exact (proj_removeSession Ctx.steady_family s sid now i).trans (if_neg hn)
  | clear now =>
    exact ⟨fun f c hc => absurd hc List.not_mem_nil, fun f c hc => absurd hc List.not_mem_nil⟩
  | startAudio listing cap maxAge now =>
    have hf := (s.settled_startAudio listing cap maxAge now).fades
    refine ⟨hf, h.same hf ?_⟩
    rw [stepWith, startAudio]
    split_ifs
    · exact .refl s
    · exact .of_sess (sess_reconcileEvicted _ now)
  | stopAudio =>
    exact ⟨.of_fams rfl, h.same (.of_fams rfl)
      (.mapVal (g := fun c => { c with preroll := ∅ })
        (fun c => Ctx.steady_family.preroll c ∅) rfl)⟩

/-! ## Events

An event closes what was not heard for long, then adopts, opens or joins a call.  Each of these
takes a slot, and `takings` lists the slots taken with the family as it is at that moment. -/

/-- **The slots calls take in an event**, with the family at each moment. -/
def takings (L : Limits) (s : AssocModel) (sid : ℕ) (ev : DsdEvent) (now : ℤ) : List Taking :=
  let s := s.record (assoclog.eventLine now sid ev)
  match s.sess.find? sid with
  | none => []
  | some c =>
    let r := Reading.ofEvent ev
    let (c, go) := c.gate r now
    let s := s.setCtx sid c
    if go then
      let s := s.identify L sid r now
      ((s.stream sid).expire L now).takings L s.qualityOn sid r now
    else []

/-- Nothing of the families changes, and a stream moves from no protocol of its own at most. -/
theorem Home.setCtx (h : s.Home) {c : Ctx} (hc : c.family = (s.ctx sid).family ∨
    (s.ctx sid).family = lit "auto") : (s.setCtx sid c).Home := by
  refine h.fades (.of_fams rfl) fun f x hm ho => ?_
  obtain ⟨-, hne, hf⟩ := h f x hm ho
  rw [ctx, AssocModel.setCtx, SortedMap.getD_insert]
  split_ifs with hs
  · rw [hs] at hf ⊢
    exact hc.resolve_right fun ha => hne (hf.symm.trans ha)
  · rfl

/-- Closing what was not heard for long is fading. -/
theorem fades_expire (L : Limits) (st : StreamState) (now : ℤ) :
    st.fam.Fades (st.expire L now).fam := by
  have hone : ∀ (st : StreamState) (e : Bytes × ℕ), st.fam.Fades (st.expireOne L now e).fam :=
    fun st e => by
    rw [StreamState.expireOne]
    split
    · split_ifs
      · exact .refl _
      · exact st.toFamilyState.fades_closeCall _
    · exact .refl _
  rw [StreamState.expire]
  induction st.ctx.active.entries generalizing st with
  | nil => exact .refl _
  | cons e l ih => exact (hone st e).trans (ih _)

/-- A state in which the slots have been exclusive since `T`. -/
structure Slotted (T : ℤ) (s : AssocModel) : Prop where
  inv : ∀ n, s.Inv (.standard n)
  home : s.Home
  exclusive : ∀ f, (s.family f).Exclusive T

/-- **What is not an event keeps the slots.** -/
theorem Slotted.step {T : ℤ} (h : s.Slotted T) {op : Op}
    (hop : ∀ sid ev now, op ≠ .event sid ev now) :
    (s.step op).Slotted T := by
  obtain ⟨hf, hh⟩ := h.home.step (h.inv s.maxCalls) hop
  exact ⟨fun n => ((h.inv s.maxCalls).step op).standard n, hh,
    fun f => (h.exclusive f).fades (hf f)⟩

/-- **The handling of a stream's event**, put back: the calls in progress stay home, and the slots
exclusive. -/
theorem Home.putStream (h : s.Home) (hi : s.Inv L) {r : Reading} (hne : (s.ctx sid).family ≠ [])
    (hna : (s.ctx sid).family ≠ lit "auto") (hx : ∀ f, (s.family f).Exclusive now) (on : Bool)
    (ht : ∀ t ∈ ((s.stream sid).expire L now).takings L on sid r now, t.Free now) :
    (s.putStream sid (((s.stream sid).expire L now).handle L on sid r now)).Home ∧
      ∀ f, ((s.putStream sid
        (((s.stream sid).expire L now).handle L on sid r now)).family f).Exclusive now := by
  have hs : Spot (s.stream sid).spot := (hi.fam _).spot
  have hexp := StreamState.works_expire L (s.stream sid) now
  have hfade := fades_expire L (s.stream sid) now
  set st := (s.stream sid).expire L now
  have hall := hexp.trans (StreamState.works_handle L on st sid r now)
  have hspot : Spot st.spot := hs.edits (hexp.edits hs)
  have hopen : st.fam.OpenIn fun i => (s.ctx i).family = (s.ctx sid).family := fun c hc ho => by
    obtain ⟨c₀, hc₀, hf⟩ := hfade c hc
    rw [hf.session]
    exact (h _ c₀ hc₀ (hf.isOpen ho)).2.2
  have hopen' : (st.handle L on sid r now).fam.OpenIn fun i => (s.ctx i).family =
      (s.ctx sid).family :=
    StreamState.lasting_handle hspot
      (lasting_openIn (A := fun i => (s.ctx i).family = (s.ctx sid).family) rfl now) hopen
      fun _ _ => trivial
  have hexcl := StreamState.lasting_handle hspot (lasting_exclusive sid now) ((hx _).fades hfade) ht
  set st' := st.handle L on sid r now
  have hname : st'.name = (s.ctx sid).family := name_of_edits (hall.edits hs)
  have hfam (f : Bytes) : (s.putStream sid st').family f =
      if f = (s.ctx sid).family then st'.fam else s.family f := by
    rw [← hname]
    exact family_insert s.fams st'.name f st'.fam
  have hctx (i : ℕ) : ((s.putStream sid st').ctx i).family = (s.ctx i).family := by
    obtain ⟨a, l, hc⟩ := hall.ctx
    change (((s.putDesk st'.toFamilyState).setCtx sid st'.ctx).ctx i).family = _
    rw [ctx, AssocModel.setCtx, SortedMap.getD_insert]
    split_ifs with he
    · rw [he, hc]
      rfl
    · rfl
  refine ⟨fun f c hc ho => ?_, fun f => ?_⟩
  · rw [hctx]
    rw [hfam] at hc
    split_ifs at hc with hf
    · rw [hf]
      exact ⟨hne, hna, hopen' c hc ho⟩
    · exact h f c hc ho
  · rw [hfam]
    split_ifs
    · exact hexcl
    · exact hx f

/-- **An event keeps the slots exclusive** when every slot taken is free. -/
theorem Home.ingest (h : s.Home) (hi : s.Inv L) (hx : ∀ f, (s.family f).Exclusive now)
    {ev : DsdEvent} (ht : ∀ t ∈ s.takings L sid ev now, t.Free now) :
    (s.ingest L sid ev now).Home ∧ ∀ f, ((s.ingest L sid ev now).family f).Exclusive now := by
  rw [takings] at ht
  rw [AssocModel.ingest]
  dsimp only at ht ⊢
  set s₀ := s.record (assoclog.eventLine now sid ev)
  have h₀ : s₀.Home := h.same (.of_fams rfl) (.of_sess rfl)
  obtain ⟨o, hc⟩ : ∃ o, s₀.sess.find? sid = o := ⟨_, rfl⟩
  rw [hc] at ht ⊢
  rcases o with _ | c
  · exact ⟨h₀, hx⟩
  dsimp only at ht ⊢
  obtain ⟨hmove, hgo⟩ := c.gate_family (.ofEvent ev) now
  set g := c.gate (.ofEvent ev) now
  set s₁ := s₀.setCtx sid g.1
  have h₁ : s₁.Home := h₀.setCtx (by rwa [ctx_of_find? hc])
  split_ifs at ht ⊢ with hg
  · set s₂ := s₁.identify L sid (.ofEvent ev) now
    have hf₂ : Fades s₁ s₂ := fades_identify s₁ sid _ now
    have hfam : ∀ i, (s₂.ctx i).family = (s₁.ctx i).family := fun i => by
      rw [proj_identify Ctx.steady_family, absorbIdentity_family]
      split_ifs with hi
      · rw [hi]
      · rfl
    have hsid : (s₂.ctx sid).family = g.1.family := by rw [hfam, ctx_setCtx]
    have hi₂ := (Inv.identify (s := s₁) (hi.congr rfl rfl) sid (.ofEvent ev) now).1
    refine (h₁.same hf₂ hfam).putStream hi₂ ?_ ?_ (fun f => (hx f).fades (hf₂ f)) s₂.qualityOn ht
    · rw [hsid]
      exact (hgo hg).1
    · rw [hsid]
      exact (hgo hg).2
  · exact ⟨h₁, hx⟩

/-- **An event keeps the slots, if its calls take free ones.** -/
theorem Slotted.event {T : ℤ} (h : s.Slotted T) (hT : T ≤ now) {ev : DsdEvent}
    (ht : ∀ t ∈ s.takings s.limits sid ev now, t.Free now) :
    (s.step (.event sid ev now)).Slotted now := by
  have hi := h.inv s.maxCalls
  obtain ⟨h₁, h₂⟩ := h.home.ingest hi (fun f => (h.exclusive f).later hT) ht
  exact ⟨fun n => (hi.step (.event sid ev now)).standard n, h₁, h₂⟩

/-! ## Runs

Time moves on with the events.  A call that was in progress may have run out by then; none comes
back. -/

/-- **A session has one call in progress on a slot**, at most, of whatever protocol. -/
def Exclusive (s : AssocModel) (now : ℤ) : Prop :=
  ∀ f f', ∀ k ∈ (s.family f).calls, ∀ k' ∈ (s.family f').calls, k.fresh now → k'.fresh now →
    k.session = k'.session → k.slot = k'.slot → k.slot ≠ [] → f = f' ∧ k = k'

/-- Slots that are held by one call each. -/
theorem Slotted.all (h : s.Slotted now) : s.Exclusive now := by
  intro f f' k hk k' hk' hf hf' hs hl hne
  obtain ⟨-, -, h₁⟩ := h.home f k.core (List.mem_map_of_mem hk) (Bool.and_eq_true_iff.1 hf).1
  obtain ⟨-, -, h₂⟩ := h.home f' k'.core (List.mem_map_of_mem hk') (Bool.and_eq_true_iff.1 hf').1
  have he : f = f' := h₁.symm.trans ((congrArg (fun i => (s.ctx i).family) hs).trans h₂)
  subst he
  refine ⟨rfl, List.inj_on_of_nodup_map ((h.inv s.maxCalls).fam f).kept.ids hk hk' ?_⟩
  exact h.exclusive f k.core (List.mem_map_of_mem hk) k'.core
    (List.mem_map_of_mem hk') hf hf' hs hl hne

theorem Exclusive.family (h : s.Exclusive now) (f : Bytes) : (s.family f).Exclusive now := by
  intro c hc c' hc' hf hf' hs hl hne
  obtain ⟨k, hk, rfl⟩ := List.mem_map.1 hc
  obtain ⟨k', hk', rfl⟩ := List.mem_map.1 hc'
  exact congrArg Call.id (h f f k hk k' hk' hf hf' hs hl hne).2

/-- **A call takes a slot on which no other of its session is in progress**: whenever one is opened
on a slot (after the slot's latest call ended), adopted by a slotted event, or given a duplicate's
slot. -/
def TakesFree (s : AssocModel) : Op → Prop
  | .event sid ev now => ∀ t ∈ s.takings s.limits sid ev now, t.Free now
  | _ => True

instance (s : AssocModel) : ∀ op, Decidable (s.TakesFree op)
  | .event sid ev now =>
    inferInstanceAs (Decidable (∀ t ∈ s.takings s.limits sid ev now, t.Free now))
  | .begin .. | .retune .. | .audio .. | .finish .. | .remove .. | .clear .. | .startAudio ..
  | .stopAudio => isTrue trivial

/-- **The slots are exclusive** right after the event. -/
def SlotsHeld (s : AssocModel) : Op → Prop
  | .event sid ev now => (s.step (.event sid ev now)).Exclusive now
  | _ => True

end AssocModel

/-- When an event comes in. -/
def Op.eventAt : Op → Option ℤ
  | .event _ _ now => some now
  | _ => none

namespace AssocModel

variable {s : AssocModel}

/-- **The slots along a run**: in order of time, each event taking free slots. -/
theorem Slotted.along {ops : List Op} {T : ℤ} (h : s.Slotted T)
    (hT : ∀ t ∈ ops.filterMap Op.eventAt, T ≤ t)
    (htime : (ops.filterMap Op.eventAt).Pairwise (· ≤ ·)) (hfree : Along TakesFree s ops) :
    Along SlotsHeld s ops := by
  induction ops generalizing s T with
  | nil => trivial
  | cons op ops ih =>
    by_cases hop : ∃ sid ev now, op = .event sid ev now
    · obtain ⟨sid, ev, now, rfl⟩ := hop
      have hcons : (Op.event sid ev now :: ops).filterMap Op.eventAt =
          now :: ops.filterMap Op.eventAt :=
        List.filterMap_cons_some rfl
      rw [hcons] at hT htime
      obtain ⟨hlater, htime⟩ := List.pairwise_cons.1 htime
      have h' := h.event (hT now List.mem_cons_self) hfree.1
      exact ⟨h'.all, ih h' hlater htime hfree.2⟩
    · have hne : ∀ sid ev now, op ≠ .event sid ev now := fun sid ev now he => hop ⟨sid, ev, now, he⟩
      have hnone : op.eventAt = none := by
        cases op <;> first | rfl | exact absurd rfl (hne _ _ _)
      rw [List.filterMap_cons_none hnone] at hT htime
      refine ⟨?_, ih (h.step hne) hT htime hfree.2⟩
      cases op <;> trivial

/-- A call on a slot, one without a slot, and the latter's target again on the slot. -/
def adoptedRun : List Op :=
  [.begin 1 (lit "DMR") 1000 (lit "dmr") 434425000,
   .event 1
    { kind := lit "voice", slot := lit "1", talkgroup := lit "5", sourceId := lit "50" } 2000,
   .event 1 { kind := lit "voice", talkgroup := lit "7", sourceId := lit "70" } 2100,
   .event 1
    { kind := lit "voice", slot := lit "1", talkgroup := lit "7", sourceId := lit "70" } 2200]

/-- The slot-less call takes the slot, and the call on it stays in progress. -/
theorem slot_shared_adoptedRun : ¬Along SlotsHeld {} adoptedRun := by
  intro h
  have hx : (run {} adoptedRun).Exclusive 2200 := h.2.2.2.1
  exact absurd (hx.family (lit "dmr")) (by decide +kernel)

/-- **Slot exclusivity**: along every run in which time does not go back and every slot that a call
takes is free, a session has one call in progress on a slot, at most, right after every event. -/
theorem slot_exclusive (hf : s.fams = ∅) (ops : List Op)
    (htime : (ops.filterMap Op.eventAt).Pairwise (· ≤ ·)) (hfree : Along TakesFree s ops) :
    Along SlotsHeld s ops := by
  have hfam : ∀ f, s.family f = {} := fun f => by rw [family, hf]; rfl
  have hblank : ∀ T, s.Slotted T := fun T =>
    ⟨fun n => .blank hf _, fun f c hc => by rw [hfam] at hc; exact absurd hc List.not_mem_nil,
      fun f c hc => by rw [hfam] at hc; exact absurd hc List.not_mem_nil⟩
  rcases ht : ops.filterMap Op.eventAt with _ | ⟨T, l⟩
  · exact (hblank 0).along (by rw [ht]; exact fun _ h => absurd h List.not_mem_nil) htime hfree
  · refine (hblank T).along (fun t hm => ?_) htime hfree
    rw [ht] at hm htime
    rcases List.mem_cons.1 hm with rfl | hm
    · exact le_rfl
    · exact (List.pairwise_cons.1 htime).1 t hm

/-- Two calls on a slot, one after the other. -/
def turnsRun : List Op :=
  [.begin 1 (lit "DMR") 1000 (lit "dmr") 434425000,
   .event 1
    { kind := lit "voice", slot := lit "1", talkgroup := lit "5", sourceId := lit "50" } 2000,
   .event 1
    { kind := lit "voice", slot := lit "1", talkgroup := lit "7", sourceId := lit "70" } 2100]

theorem slot_exclusive_turnsRun : Along SlotsHeld {} turnsRun :=
  slot_exclusive rfl turnsRun (by decide) (by decide +kernel)

end AssocModel

end DsdServer
