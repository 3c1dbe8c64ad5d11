import DsdServer.Assoc.Reachable

/-!
# Assoc/Recorded — what an input writes

Without audio nothing writes to the recording but the inputs themselves: each writes its own line,
and no call's file is ever settled (`writes_step`).

The lemmas go through the parts of an input and say of each that it leaves the recorder alone, so
that only the line of the input itself is left over.  With this a run of the model is also a run of
its recording, line by line.
-/

open Bytes

namespace DsdServer

/-- **No call of a family has audio.** -/
def Family.Mute (F : Family) : Prop := ∀ k ∈ F.calls, k.sound.audio = []

namespace Family.Mute

variable {L : Limits} {F : Family}

theorem blank : Family.Mute {} := fun _ h => absurd h List.not_mem_nil

theorem subset (h : F.Mute) {F' : Family} (hc : F'.calls ⊆ F.calls) : F'.Mute :=
  fun k hk => h k (hc hk)

theorem congr (h : F.Mute) {F' : Family} (hc : F'.calls = F.calls) : F'.Mute :=
  h.subset (hc ▸ List.Subset.refl _)

/-- A change that leaves the recording of a call. -/
theorem modifyCall (h : F.Mute) (i : ℕ) {g : Call → Call} (hg : ∀ k, (g k).sound = k.sound) :
    (F.modifyCall i g).Mute := by
  intro k hk
  obtain ⟨k', hk', rfl⟩ := List.mem_map.1 hk
  split_ifs
  · rw [hg]
    exact h k' hk'
  · exact h k' hk'

theorem noteEncCounts (h : F.Mute) (i : ℕ) : (F.noteEncCounts L i).Mute := by
  rw [Family.noteEncCounts]
  split
  · exact h
  · split_ifs
    · exact (h.modifyCall i (g := Call.markNoted) fun _ => rfl).congr (Family.calls_noteKey ..)
    · exact h

theorem countCall (h : F.Mute) (i : ℕ) (now : ℤ) : (F.countCall L i now).Mute := by
  rw [Family.countCall]
  split
  · exact h
  · next k _ =>
    refine noteEncCounts ?_ i
    exact (h.modifyCall i (g := Call.markCounted) fun _ => rfl).congr (Family.calls_countEnds ..)

theorem setPrivate (h : F.Mute) (i : ℕ) (now : ℤ) : (F.setPrivate L i now).Mute := by
  rw [Family.setPrivate]
  split
  · exact h
  · next k _ =>
    have h₁ := h.modifyCall i (g := Call.markPrivate) fun _ => rfl
    split_ifs
    · exact h
    · exact h₁.congr ((Family.calls_linkPeers ..).trans (Family.calls_uncountTarget ..))
    · exact h₁

theorem countUnsourced (h : F.Mute) (i : ℕ) : (F.countUnsourced L i).Mute := by
  rw [Family.countUnsourced]
  split
  · exact h
  · split_ifs
    · exact h.countCall i _
    · exact h

/-- Ending a call settles no file. -/
theorem closeCall {w : FamilyState} (h : w.fam.Mute) (i : ℕ) :
    (w.closeCall L i).fam.Mute ∧ (w.closeCall L i).log = w.log := by
  rw [FamilyState.closeCall]
  split
  · exact ⟨h, rfl⟩
  · split_ifs
    · have h₁ : (w.shut i).fam.Mute := h.modifyCall i fun _ => rfl
      have hs : (w.shut i).settleSound i = w.shut i := by
        rw [FamilyState.settleSound]
        split
        · rfl
        · next k hk => rw [if_pos (h₁ k (Family.findCall_some hk).1)]
      rw [hs]
      exact ⟨(h₁.countUnsourced i).congr (Family.calls_tallyClosed ..), rfl⟩
    · exact ⟨h, rfl⟩

/-- **Calls without audio end without a line.** -/
theorem closeSessionCalls {w : FamilyState} (h : w.fam.Mute) (sid : ℕ) :
    (w.closeSessionCalls L sid).fam.Mute ∧ (w.closeSessionCalls L sid).log = w.log := by
  rw [FamilyState.closeSessionCalls]
  induction w.fam.calls.filter (·.session = sid) generalizing w with
  | nil => exact ⟨h, rfl⟩
  | cons k l ih =>
    obtain ⟨h₁, h₂⟩ := h.closeCall (L := L) k.id
    obtain ⟨h₃, h₄⟩ := ih h₁
    exact ⟨h₃, h₄.trans h₂⟩

/-- Merging networks is not about recordings. -/
theorem mergeNetwork (h : F.Mute) (frm dst : Bytes) : (F.mergeNetwork L frm dst).Mute := by
  rw [Family.mergeNetwork]
  split
  · intro k hk
    obtain ⟨k', hk', rfl⟩ := List.mem_map.1 hk
    split_ifs <;> exact h k' hk'
  · exact h

/-- Dropping networks is not about recordings. -/
theorem dropAll (h : F.Mute) (dead : List Bytes) : (dead.foldl Family.dropNetwork F).Mute := by
  induction dead generalizing F with
  | nil => exact h
  | cons n dead ih => exact ih (h.congr (show (F.dropNetwork n).calls = F.calls from rfl))

end Family.Mute

/-- **No edit of a family without audio writes to the recording**, or brings in audio. -/
theorem Edit.mute {L : Limits} {net : Bytes} {x y : FamilyState × ℕ} (e : Edit L net x y)
    (hs : Spot x) (h : x.1.fam.Mute) : y.1.fam.Mute ∧ y.1.log = x.1.log := by
  cases e with
  | @amend w n id k g hk hg hsound =>
    refine ⟨fun k' hk' => ?_, rfl⟩
    obtain ⟨p, q, ha⟩ := hs.kept.around hk
    rw [show (w.onFam fun F => F.modifyCall id g).fam.calls = _
      from (ha.modifyCall hg.id).calls] at hk'
    have hmem : ∀ c, c ∈ p ∨ c = k ∨ c ∈ q → c.sound.audio = [] := fun c hc => h c (by
      rw [ha.calls]
      simpa using hc)
    rcases List.mem_append.1 hk' with hk' | hk'
    · exact hmem k' (Or.inl hk')
    · rcases List.mem_cons.1 hk' with rfl | hk'
      · rw [hsound.1]
        exact hmem k (Or.inr (Or.inl rfl))
      · exact hmem k' (Or.inr (Or.inr hk'))
  | touch => exact ⟨h.congr rfl, rfl⟩
  | fix => exact ⟨h.congr rfl, rfl⟩
  | key id => exact ⟨h.noteEncCounts id, rfl⟩
  | @priv w n id k hk ho now => exact ⟨h.setPrivate id now, rfl⟩
  | @count w n id k hk ho hc hsrc ht now => exact ⟨h.countCall id now, rfl⟩
  | close id => exact h.closeCall id
  | drop id => exact ⟨h.subset List.eraseP_sublist.subset, rfl⟩
  | @join w n dup twin hd ht hne ho hc he =>
    have hd' : dup.sound.audio = [] := h dup (Family.findCall_some hd).1
    constructor
    · change (w.adopt L dup twin).fam.Mute
      rw [fam_adopt]
      refine Family.Mute.noteEncCounts (Family.Mute.subset ?_ List.eraseP_sublist.subset) twin.id
      intro k hk
      obtain ⟨k', hk', rfl⟩ := List.mem_map.1 hk
      split_ifs
      · rw [show (k'.join dup).sound = k'.sound.take dup.sound from rfl, Recording.take,
          if_pos (Or.inl hd')]
        exact h k' hk'
      · exact h k' hk'
    · change (w.adopt L dup twin).log = w.log
      rw [FamilyState.adopt]
      split_ifs <;> rfl
  | @push w n k hid hn hc hkn ho hsound hkp =>
    refine ⟨fun k' hk' => ?_, rfl⟩
    rcases List.mem_append.1 hk' with hk' | hk'
    · exact h k' hk'
    · rw [List.mem_singleton.1 hk', hsound]
  | quality => exact ⟨h, rfl⟩

/-- **A sequence of edits writes nothing**, when no call has audio. -/
theorem mute_edits {L : Limits} {net : Bytes} {x y : FamilyState × ℕ}
    (he : Relation.ReflTransGen (Edit L net) x y) (hs : Spot x) (h : x.1.fam.Mute) :
    y.1.fam.Mute ∧ y.1.log = x.1.log := by
  induction he with
  | refl => exact ⟨h, rfl⟩
  | @tail y z he e ih =>
    obtain ⟨h₁, h₂⟩ := e.mute (hs.edits he) ih.1
    exact ⟨h₁, h₂.trans ih.2⟩

/-! ## The whole model

Beside the inputs the model writes a line when a recording is settled.  A model without audio has
none, and `Quietly` says both that it writes nothing and that it stays without. -/

namespace AssocModel

variable {L : Limits} {s s' s'' : AssocModel}

/-- No call has audio. -/
def Mute (s : AssocModel) : Prop := ∀ f, (s.family f).Mute

/-- The recording, and the size of the call lists. -/
def tape (s : AssocModel) : AssocRecorder × ℕ := (s.log, s.maxCalls)

/-- Of a model without audio nothing is written, and it stays without. -/
def Quietly (s s' : AssocModel) : Prop := s.Mute → s'.Mute ∧ s'.tape = s.tape

namespace Quietly

theorem refl (s : AssocModel) : Quietly s s := fun h => ⟨h, rfl⟩

theorem trans (h : Quietly s s') (h' : Quietly s' s'') : Quietly s s'' := fun hm => by
  obtain ⟨h₁, h₂⟩ := h hm
  obtain ⟨h₃, h₄⟩ := h' h₁
  exact ⟨h₃, h₄.trans h₂⟩

/-- Neither the families nor the recording change. -/
theorem of_fams (hf : s'.fams = s.fams) (hl : s'.tape = s.tape) : Quietly s s' := fun hm =>
  ⟨fun f => by
    rw [family, hf]
    exact hm f, hl⟩

/-- One family changes. -/
theorem insert {f : Bytes} {F : Family} (hf : s'.fams = s.fams.insert f F)
    (h : s.Mute → F.Mute ∧ s'.tape = s.tape) : Quietly s s' := fun hm => by
  refine ⟨fun g => ?_, (h hm).2⟩
  rw [family, hf, family_insert]
  split_ifs
  · exact (h hm).1
  · exact hm g

theorem closeSessionCalls (s : AssocModel) (sid : ℕ) : Quietly s (s.closeSessionCalls L sid) := by
  rw [AssocModel.closeSessionCalls]
  split
  · exact refl s
  · split_ifs
    · refine insert rfl fun hm => ?_
      obtain ⟨h₁, h₂⟩ := Family.Mute.closeSessionCalls (L := L) (w := s.desk _) (hm _) sid
      exact ⟨h₁, congrArg (fun l => (l, s.maxCalls)) h₂⟩
    · exact refl s

theorem pruneSession (s : AssocModel) (sid : ℕ) (retune : Bool) :
    Quietly s (s.pruneSession sid retune) := by
  rw [AssocModel.pruneSession]
  split
  · exact refl s
  · next c _ =>
    dsimp only
    split_ifs
    · exact refl s
    · refine fun hm => ⟨fun g => ?_, rfl⟩
      set dead := s.deadNetworks sid c.family retune
      have hF : (dead.foldl Family.dropNetwork (s.family c.family)).Mute := (hm _).dropAll dead
      change ((if (dead.foldl Family.dropNetwork (s.family c.family)).isBlank then
        s.fams.erase c.family
        else s.fams.insert c.family (dead.foldl Family.dropNetwork (s.family c.family))).getD g
          {}).Mute
      split_ifs
      · rw [SortedMap.getD, SortedMap.find?_erase]
        split_ifs
        · exact .blank
        · exact hm g
      · rw [family_insert]
        split_ifs
        · exact hF
        · exact hm g
    · exact refl s

theorem mergeNetwork (s : AssocModel) (f frm dst : Bytes) :
    Quietly s (s.mergeNetwork L f frm dst) := by
  rw [AssocModel.mergeNetwork]
  split_ifs
  · exact insert rfl fun hm => ⟨(hm f).mergeNetwork frm dst, rfl⟩
  · exact refl s

theorem resolveNetwork (s : AssocModel) (sid : ℕ) (now : ℤ) :
    Quietly s (s.resolveNetwork L sid now) := by
  rw [AssocModel.resolveNetwork]
  set c := s.ctx sid
  set F := (s.family c.family).place L (networkId c sid (s.family c.family)) c now
  have h₁ : Quietly s (s.setFamily c.family F) :=
    insert rfl fun hm =>
      ⟨(hm c.family).congr (show F.calls = (s.family c.family).calls from rfl), rfl⟩
  split_ifs
  · exact (h₁.trans (mergeNetwork _ _ _ _)).trans (of_fams rfl rfl)
  · exact h₁.trans (of_fams rfl rfl)

/-- What an event says of the network of its stream. -/
theorem identify (s : AssocModel) (sid : ℕ) (r : Reading) (now : ℤ) :
    Quietly s (s.identify L sid r now) := by
  rw [AssocModel.identify]
  set f := (s.ctx sid).family
  have h₁ : Quietly s (s.setFamily f (s.family f)).bumpVersion :=
    insert rfl fun hm => ⟨hm f, rfl⟩
  set s₁ := (s.setFamily f (s.family f)).bumpVersion
  set a := absorbIdentity (s₁.ctx sid) r
  have h₂ : Quietly s₁ ((s₁.setCtx sid a.ctx).noteNeighbour sid a.neighbour) := by
    rw [noteNeighbour]
    split_ifs
    · exact of_fams rfl rfl
    · refine (of_fams rfl rfl : Quietly s₁ (s₁.setCtx sid a.ctx)).trans
        (insert rfl fun hm => ⟨?_, rfl⟩)
      exact (hm _).congr rfl
  set s₂ := (s₁.setCtx sid a.ctx).noteNeighbour sid a.neighbour
  have h₃ : ∀ x : AssocModel, Quietly x (x.setFamily f { x.family f with
      networks := (x.family f).networks.insert (x.ctx sid).net
        (((x.family f).networks.getD (x.ctx sid).net {}).hear (x.ctx sid) sid now) }) := fun x =>
    insert rfl fun hm => ⟨(hm f).congr rfl, rfl⟩
  split_ifs
  · exact ((h₁.trans h₂).trans (resolveNetwork s₂ sid now)).trans (h₃ _)
  · exact (h₁.trans h₂).trans (h₃ s₂)

end Quietly

end AssocModel

/-! ## Inputs

What is left is the line each input writes for itself, before it does anything.  A recording is then
the list of these lines, in the order of the inputs. -/

/-- The lines an input writes to the recording. -/
def Op.lines (s : AssocModel) : Op → List Bytes
  | .begin sid label now _ freq => [assoclog.beginLine now sid label freq]
  | .retune sid freq now =>
    match s.sess.find? sid with
    | none => []
    | some c => if c.freq = freq then [] else [assoclog.tuneLine now sid freq]
  | .event sid ev now => [assoclog.eventLine now sid ev]
  | .finish sid now => [assoclog.endLine now sid]
  | .remove sid now => [assoclog.removeLine now sid]
  | .clear now => [assoclog.clearLine now]
  | .audio .. | .startAudio .. | .stopAudio => []

/-- An input that has nothing to do with audio. -/
def Op.Soundless : Op → Prop
  | .audio .. | .startAudio .. | .stopAudio => False
  | _ => True

namespace AssocModel

variable {L : Limits} {s : AssocModel}

/-- A stream at work writes nothing. -/
theorem Quietly.putStream {sid : ℕ} {st : StreamState} (h : s.Inv L)
    (hw : Works L (s.stream sid) st) :
    Quietly s (s.putStream sid st) := by
  refine insert rfl fun hm => ?_
  have hF : FamInv L s.nextCall (s.stream sid).fam := h.fam _
  obtain ⟨h₁, h₂⟩ := mute_edits (hw.edits hF.spot) hF.spot (hm _)
  exact ⟨h₁, congrArg (fun l => (l, s.maxCalls)) h₂⟩

/-- **An event is handled without a line of its own making.** -/
theorem Quietly.handle (h : s.Inv L) (sid : ℕ) (r : Reading) (now : ℤ) :
    Quietly s (s.putStream sid (((s.stream sid).expire L now).handle L s.qualityOn sid r now)) :=
  .putStream h ((StreamState.works_expire L _ now).trans (StreamState.works_handle ..))

/-- **Every input writes its line**, and nothing else does. -/
theorem writes_step (h : s.Inv L) (hm : s.Mute) {op : Op} (ho : op.Soundless) :
    (s.stepWith L op).Mute ∧
      (s.stepWith L op).tape = ((op.lines s).foldl AssocRecorder.write s.log, s.maxCalls) := by
  have hrec : ∀ l, Quietly (s.record l) (s.record l) := fun l => .refl _
  cases op with
  | begin sid label now family freq =>
    exact (((Quietly.closeSessionCalls _ sid).trans (.pruneSession _ sid false)).trans
      (.of_fams rfl rfl) : Quietly (s.record _) (s.beginStream L sid label now family freq)) hm
  | retune sid freq now =>
    rw [stepWith, retuneStream, Op.lines]
    rcases s.sess.find? sid with _ | c
    · exact ⟨hm, rfl⟩
    · dsimp only
      by_cases hf : c.freq = freq
      · rw [if_pos hf, if_pos hf]
        exact ⟨hm, rfl⟩
      · rw [if_neg hf, if_neg hf]
        have hq : Quietly (s.record (assoclog.tuneLine now sid freq)) _ :=
          ((Quietly.closeSessionCalls (L := L) _ sid).trans (.pruneSession _ sid true)).trans
            (.of_fams rfl rfl : Quietly _ (bumpVersion (setCtx _ sid (c.retune freq))))
        exact hq hm
  | event sid ev now =>
    rw [stepWith, ingest]
    have hm₁ : (s.record (assoclog.eventLine now sid ev)).Mute := hm
    have h₁ : (s.record (assoclog.eventLine now sid ev)).Inv L := h.congr rfl rfl
    split
    · exact ⟨hm₁, rfl⟩
    · next c _ =>
      dsimp only
      set s₁ := s.record (assoclog.eventLine now sid ev)
      set s₂ := s₁.setCtx sid (c.gate (.ofEvent ev) now).1
      have h₂ : s₂.Inv L := h₁.congr rfl rfl
      have hq : Quietly s₁ s₂ := .of_fams rfl rfl
      split_ifs
      · have h₃ := (h₂.identify sid (.ofEvent ev) now).1
        exact ((hq.trans (.identify s₂ sid _ now)).trans (.handle h₃ sid _ now)) hm₁
      · exact hq hm₁
  | finish sid now =>
    set s₁ := s.record (assoclog.endLine now sid)
    have hq : Quietly s₁ (s.endStream L sid now) :=
      (((Quietly.closeSessionCalls (L := L) s₁ sid).trans (.of_fams rfl rfl : Quietly _
        { s₁.closeSessionCalls L sid with
          sess := (s₁.closeSessionCalls L sid).sess.modify sid Ctx.stop })).trans
        (.pruneSession _ sid false)).trans (.of_fams rfl rfl)
    exact hq hm
  | remove sid now =>
    exact (((Quietly.closeSessionCalls _ sid).trans (.pruneSession _ sid false)).trans
      (.of_fams rfl rfl) : Quietly (s.record _) (s.removeSession L sid now)) hm
  | clear now => exact ⟨fun _ => .blank, rfl⟩
  | audio => exact ho.elim
  | startAudio => exact ho.elim
  | stopAudio => exact ho.elim

end AssocModel

end DsdServer
