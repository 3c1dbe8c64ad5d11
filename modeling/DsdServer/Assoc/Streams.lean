import DsdServer.Assoc.Reachable

/-!
# Assoc/Streams — which streams run, and on which channel

The events of a stream, the end of its calls and the pruning of its networks leave every stream as
it runs and where: only the four operations on a stream itself say otherwise.

What a stream runs on is its tuning, a part of its context.  Most of the lemmas say that an
operation leaves the tuning of every stream, and are found by going through the parts of the
operation; the four that are left say what becomes of it.
-/

open Bytes

namespace DsdServer

/-- Whether a stream runs, and its channel. -/
def Ctx.tuning (c : Ctx) : Bool × ℤ := (c.running, c.freq)

/-- **What the handling of calls, networks and audio leaves alone** of a stream. -/
structure Ctx.Steady {α : Type*} (p : Ctx → α) : Prop where
  leave : ∀ c dead, p (Ctx.leave c dead) = p c
  moveAlong : ∀ c frm dst, p (Ctx.moveAlong c frm dst) = p c
  settle : ∀ c key, p (Ctx.settle c key) = p c
  calls : ∀ c a l, p { c with active := a, lastSlotCall := l } = p c
  preroll : ∀ c m, p { c with preroll := m } = p c

/-- Whether a stream runs, and where, is such a reading. -/
theorem Ctx.steady_tuning : Steady Ctx.tuning where
  leave c dead := by rw [Ctx.leave]; split_ifs <;> rfl
  moveAlong c frm dst := by rw [Ctx.moveAlong]; split_ifs <;> rfl
  settle _ _ := rfl
  calls _ _ _ := rfl
  preroll _ _ := rfl

namespace AssocModel

variable {L : Limits} {α : Type*} {p : Ctx → α} {s s' s'' : AssocModel}

/-- Every stream is as before, as far as `p` sees it. -/
def Same (p : Ctx → α) (s s' : AssocModel) : Prop := ∀ i, p (s'.ctx i) = p (s.ctx i)

namespace Same

theorem refl (s : AssocModel) : Same p s s := fun _ => rfl

theorem trans (h : Same p s s') (h' : Same p s' s'') : Same p s s'' :=
  fun i => (h' i).trans (h i)

/-- What leaves the contexts leaves every reading of them. -/
theorem of_sess (h : s'.sess = s.sess) : Same p s s' := fun i => by rw [ctx, ctx, h]

/-- One context is put back as it was. -/
theorem setCtx {sid : ℕ} {c : Ctx} (h : p c = p (s.ctx sid)) : Same p s (s.setCtx sid c) :=
  fun i => by
    rw [ctx, AssocModel.setCtx, SortedMap.getD_insert]
    split_ifs with hi
    · rw [hi, h]
    · rfl

/-- The contexts move along. -/
theorem mapVal {g : Ctx → Ctx} (hg : ∀ c, p (g c) = p c)
    (h : s'.sess = s.sess.mapVal fun _ c => g c) : Same p s s' := fun i => by
  rw [ctx, ctx, h, SortedMap.getD, SortedMap.getD, SortedMap.find?_mapVal]
  cases s.sess.find? i with
  | none => rfl
  | some c => exact hg c

end Same

/-- Every stream runs as before, on the same channel. -/
def SameTuning (s s' : AssocModel) : Prop := ∀ i, (s'.ctx i).tuning = (s.ctx i).tuning

/-- Closing calls leaves the contexts. -/
theorem sess_closeSessionCalls (s : AssocModel) (sid : ℕ) :
    (s.closeSessionCalls L sid).sess = s.sess := by
  rw [closeSessionCalls]
  split
  · rfl
  · split_ifs <;> rfl

/-- The context of a stream that is known. -/
theorem ctx_of_find? {sid : ℕ} {c : Ctx} (h : s.sess.find? sid = some c) : s.ctx sid = c := by
  rw [ctx, SortedMap.getD, h]
  rfl

/-- Pruning changes contexts in their network alone. -/
theorem same_pruneSession (hp : Ctx.Steady p) (s : AssocModel) (sid : ℕ) (retune : Bool) :
    Same p s (s.pruneSession sid retune) := by
  rw [pruneSession]
  split
  · exact .refl s
  · next c hc =>
    dsimp only
    split_ifs
    · exact .refl s
    · have hl : p (c.leave (s.deadNetworks sid c.family retune)) = p (s.ctx sid) := by
        rw [ctx_of_find? hc, hp.leave]
      exact (Same.setCtx hl).trans (.of_sess rfl)
    · exact .refl s

/-- Merging networks moves streams to another network. -/
theorem same_mergeNetwork (hp : Ctx.Steady p) (s : AssocModel) (f frm dst : Bytes) :
    Same p s (s.mergeNetwork L f frm dst) := by
  rw [AssocModel.mergeNetwork]
  dsimp only
  split_ifs
  · exact .mapVal (g := fun c => c.moveAlong frm dst) (fun c => hp.moveAlong c frm dst) rfl
  · exact .refl s

theorem same_resolveNetwork (hp : Ctx.Steady p) (s : AssocModel) (sid : ℕ) (now : ℤ) :
    Same p s (s.resolveNetwork L sid now) := by
  set c := s.ctx sid with hc
  set id := networkId c sid (s.family c.family)
  set F := (s.family c.family).place L id c now
  set s₁ := s.setFamily c.family F
  set s₂ := if F.foldsAway c sid id.key then s₁.mergeNetwork L c.family c.net id.key else s₁ with h₂
  have h : Same p s s₂ := by
    rw [h₂]
    split_ifs
    · exact (Same.of_sess rfl).trans (same_mergeNetwork hp s₁ _ _ _)
    · exact .of_sess rfl
  have hs : Same p s₂ (s₂.setCtx sid (c.settle id.key)) :=
    .setCtx ((hp.settle c _).trans (h sid).symm)
  exact h.trans hs

/-- What every operation on a stream does first: its calls end, and what it leaves behind goes. -/
theorem same_wrapUp (hp : Ctx.Steady p) (s : AssocModel) (line : Bytes) (sid : ℕ) (retune : Bool) :
    Same p s (((s.record line).closeSessionCalls L sid).pruneSession sid retune) :=
  (Same.of_sess (sess_closeSessionCalls (s.record line) sid)).trans
    (same_pruneSession hp _ sid retune)

/-! ## Audio

Audio is held back in the context of its stream until the call is known.  That is no part of how the
stream runs, and everything else the audio path does is done to calls and files. -/

/-- A recording that is evicted leaves the contexts. -/
theorem sess_dropEvicted (now : ℤ) (s : AssocModel) (name : Bytes) :
    (s.dropEvicted now name).sess = s.sess := by
  rw [dropEvicted]
  split <;> rfl

theorem sess_reconcileEvicted (s : AssocModel) (now : ℤ) :
    (s.reconcileEvicted now).sess = s.sess := by
  have hfold : ∀ (l : List Bytes) (s : AssocModel), (l.foldl (dropEvicted now) s).sess =
      s.sess := fun l => by
    induction l with
    | nil => exact fun _ => rfl
    | cons name l ih => exact fun s => (ih _).trans (sess_dropEvicted now s name)
  rw [reconcileEvicted]
  dsimp only
  split_ifs
  · rfl
  · exact hfold _ _
  · exact hfold _ _

/-- Opening a recording takes the audio that was held back, and leaves the rest of the contexts. -/
theorem sess_openRecording (s : AssocModel) (sid : ℕ) (k : Call) (slot : ℤ) (store : CallAudioStore)
    (name : Bytes) (held : List Preroll) (now : ℤ) : ∃ s₁ : AssocModel, s₁.sess = s.sess ∧
      (s.openRecording sid k slot store name held now).sess =
        s₁.sess.insert sid (clearHeld (s₁.ctx sid) slot) := by
  have hfold : ∀ (l : List Preroll) (s : AssocModel),
      (l.foldl (fun s h => s.pour sid k.id name h.pcm now) s).sess = s.sess := fun l => by
    induction l with
    | nil => exact fun _ => rfl
    | cons h l ih => exact fun s => ih (s.pour sid k.id name h.pcm now)
  refine ⟨_, ?_, rfl⟩
  exact hfold held _

theorem same_storeBlock (hp : Ctx.Steady p) (s : AssocModel) (sid : ℕ) (k : Call) (slot : ℤ)
    (pcm : List Sample) (creatable : Bool) (now : ℤ) :
    Same p s (s.storeBlock sid k slot pcm creatable now) := by
  have happend : ∀ (s : AssocModel) (id : ℕ) (name : Bytes),
      Same p s (s.appendBlock sid id name pcm now) := fun s id name =>
    .of_sess (sess_reconcileEvicted (s.pour sid id name pcm now) now)
  rw [storeBlock]
  dsimp only
  split_ifs
  · exact .refl s
  · split
    · exact .refl s
    · next store _ =>
      refine Same.trans ?_ (happend _ _ _)
      obtain ⟨s₁, h₁, h₂⟩ := s.sess_openRecording sid k slot store
        (CallAudioStore.makeName k.startMs s.instanceId k.id) (heldFor (s.ctx sid) slot now) now
      have hs : Same p s₁ (s₁.setCtx sid (clearHeld (s₁.ctx sid) slot)) := .setCtx (hp.preroll _ _)
      exact (Same.of_sess h₁).trans (hs.trans (.of_sess h₂))
  · exact .refl s
  · exact (Same.of_sess rfl).trans (happend _ _ _)
  · exact happend _ _ _

/-- A block that passes the gate, or waits before it. -/
theorem same_gateBlock (hp : Ctx.Steady p) (s : AssocModel) (sid : ℕ) (k : Call) (slot : ℤ)
    (pcm : List Sample) (keyed creatable : Bool) (now : ℤ) :
    Same p s (s.gateBlock sid k slot pcm keyed creatable now) := by
  have hrefuse : (s.refuse sid k now).sess = s.sess := by
    rw [refuse]
    dsimp only
    split_ifs <;> rfl
  rw [gateBlock]
  dsimp only
  split_ifs
  · exact .refl s
  · exact .of_sess hrefuse
  · exact (Same.of_sess rfl).trans (same_storeBlock hp _ sid k slot pcm creatable now)
  · exact same_storeBlock hp s sid k slot pcm creatable now

/-- **A block of audio leaves every stream as it runs.** -/
theorem same_audio (hp : Ctx.Steady p) (s : AssocModel) (sid : ℕ) (slot : ℤ) (pcm : List ℤ)
    (keyed creatable : Bool) (now : ℤ) : Same p s (s.audio sid slot pcm keyed creatable now) := by
  have hhold : ∀ pcm, Same p s (s.hold sid slot pcm now) := fun pcm => by
    rw [hold]
    exact .setCtx (hp.preroll _ _)
  rw [audio]
  split
  · exact .refl s
  · split
    · exact .refl s
    · split
      · exact .refl s
      · rw [routeBlock]
        split
        · split_ifs
          · exact .refl s
          · exact hhold _
        · split_ifs
          · exact .refl s
          · split
            · exact .refl s
            · exact same_gateBlock hp s _ _ _ _ _ _ _
          · exact same_gateBlock hp s _ _ _ _ _ _ _

end AssocModel

/-! ## Reading identity tokens

Reading a token fills in what the stream knows of its network, may start the collection over, and
marks the stream as live.  The other fields of the context are not touched. -/

/-- Nothing but a stream's identity changes. -/
def Ctx.SameStream (c c' : Ctx) : Prop :=
  ∃ ids net site strong adjacent pending, c' =
    { c with ids := ids, net := net, site := site, strong := strong, adjacent := adjacent,
             pending := pending }

namespace Ctx.SameStream

variable {c c' c'' : Ctx}

theorem refl (c : Ctx) : SameStream c c := ⟨_, _, _, _, _, _, rfl⟩

theorem trans (h : SameStream c c') (h' : SameStream c' c'') : SameStream c c'' := by
  obtain ⟨_, _, _, _, _, _, rfl⟩ := h
  obtain ⟨_, _, _, _, _, _, rfl⟩ := h'
  exact ⟨_, _, _, _, _, _, rfl⟩

theorem tuning_eq (h : SameStream c c') : c'.tuning = c.tuning := by
  obtain ⟨_, _, _, _, _, _, rfl⟩ := h
  rfl

theorem believe (c : Ctx) (got : SortedMap Bytes Bytes) :
    SameStream c (DsdServer.believe c got).1 := by
  have h : ∀ (l : List (Bytes × Bytes)) (acc : Ctx × SortedMap Bytes Bytes),
      SameStream acc.1 (l.foldl (fun (acc : Ctx × SortedMap Bytes Bytes) kv =>
        if isWeakAnchor kv.1 then
          let p := sight acc.1.ids acc.1.pending kv.1 kv.2
          ({ acc.1 with pending := p.1 }, if p.2 then acc.2 else acc.2.erase kv.1)
        else acc) acc).1 := fun l => by
    induction l with
    | nil => exact fun acc => refl acc.1
    | cons e l ih =>
      intro acc
      rw [List.foldl_cons]
      refine trans ?_ (ih _)
      split_ifs
      · exact ⟨_, _, _, _, _, _, rfl⟩
      · exact refl _
  exact h got.entries (c, got)

/-- A stream that collects its identity anew. -/
theorem startOver (c : Ctx) (got : SortedMap Bytes Bytes) : SameStream c (c.startOver got) := by
  rw [Ctx.startOver]
  split_ifs
  · exact ⟨_, _, _, _, _, _, rfl⟩
  · exact refl c

theorem take (c : Ctx) (got : SortedMap Bytes Bytes) : SameStream c (c.take got).1 := by
  rw [Ctx.take]
  split_ifs
  · exact ⟨_, _, _, _, _, _, rfl⟩
  · exact refl c

/-- **The identity tokens of a line change nothing but the identity.** -/
theorem absorbIdentity (c : Ctx) (r : Reading) :
    SameStream c (DsdServer.absorbIdentity c r).ctx := by
  have hlook : SameStream c (c.lookAround r) := by
    rw [Ctx.lookAround]
    split_ifs
    · exact ⟨_, _, _, _, _, _, rfl⟩
    · exact refl c
  refine hlook.trans ?_
  rw [DsdServer.absorbIdentity, absorbTokens]
  dsimp only
  split_ifs
  · exact refl _
  · exact refl _
  · exact believe _ _
  · exact (believe _ _).trans ((startOver _ _).trans (take _ _))

end Ctx.SameStream

namespace AssocModel

/-! ## Events

An event passes through the context of its stream twice: its tokens are absorbed, and the gate
decides whether the event counts as traffic.  After that only families change. -/

variable {L : Limits} {α : Type*} {p : Ctx → α} {s s' s'' : AssocModel}

theorem same_noteNeighbour (s : AssocModel) (sid : ℕ) (site : Bytes) :
    Same p s (s.noteNeighbour sid site) := fun i => by rw [ctx_noteNeighbour]

/-- An event's tokens go into its stream's context, and nothing else `p` sees changes. -/
theorem proj_identify (hp : Ctx.Steady p) (s : AssocModel) (sid : ℕ) (r : Reading) (now : ℤ)
    (i : ℕ) :
    p ((s.identify L sid r now).ctx i) =
      if i = sid then p (absorbIdentity (s.ctx sid) r).ctx else p (s.ctx i) := by
  set f := (s.ctx sid).family
  set s₁ := (s.setFamily f (s.family f)).bumpVersion
  set a := absorbIdentity (s.ctx sid) r with ha
  set s₂ := (s₁.setCtx sid a.ctx).noteNeighbour sid a.neighbour
  have h₁ : Same p (s.setCtx sid a.ctx) (s₁.setCtx sid a.ctx) := .of_sess rfl
  have h₂ : Same p (s.setCtx sid a.ctx) s₂ := h₁.trans (same_noteNeighbour _ sid a.neighbour)
  obtain ⟨s₃, hs₃⟩ : ∃ s₃, s₃ = if a.changed ∨ a.ctx.net = [] ∨ a.ctx.net ∉ (s₂.family f).networks
    then s₂.resolveNetwork L sid now else s₂ := ⟨_, rfl⟩
  have h₃ : Same p (s.setCtx sid a.ctx) s₃ := by
    rw [hs₃]
    split_ifs
    · exact h₂.trans (same_resolveNetwork hp s₂ sid now)
    · exact h₂
  have he : (s.identify L sid r now).sess = s₃.sess := by
    rw [hs₃]
    rfl
  rw [(h₃.trans (.of_sess he)) i, ctx, setCtx, SortedMap.getD_insert]
  split_ifs <;> rfl

/-- The gate counts what it lets through, and no more. -/
theorem gate_tuning (c : Ctx) (r : Reading) (now : ℤ) : (c.gate r now).1.tuning = c.tuning := by
  rw [Ctx.gate]
  have h : (if r.ev.kind ≠ lit "unknown" ∧ r.ev.crcError ≠ lit "1" then { c with heardMs := now }
      else c).tuning = c.tuning := by split_ifs <;> rfl
  revert h
  generalize (if r.ev.kind ≠ lit "unknown" ∧ r.ev.crcError ≠ lit "1" then { c with heardMs := now }
      else c) = c'
  intro h
  dsimp only
  split_ifs
  all_goals first | exact h | exact (Ctx.SameStream.absorbIdentity _ r).tuning_eq.trans h

end AssocModel

/-- **What an event does to its stream's identity**: it is taken in when the event gets that far. -/
def Ctx.heed (c : Ctx) (r : Reading) (now : ℤ) : Ctx :=
  if (c.gate r now).2 then (absorbIdentity (c.gate r now).1 r).ctx else (c.gate r now).1

/-- What an event does to the context of its stream leaves how it runs. -/
theorem Ctx.heed_tuning (c : Ctx) (r : Reading) (now : ℤ) : (c.heed r now).tuning = c.tuning := by
  have hg := AssocModel.gate_tuning c r now
  rw [Ctx.heed]
  split_ifs
  · exact (Ctx.SameStream.absorbIdentity _ r).tuning_eq.trans hg
  · exact hg

namespace AssocModel

variable {L : Limits} {α : Type*} {p : Ctx → α} {s s' s'' : AssocModel}

/-- **An event changes nothing of the other streams, and its own only as it is heeded.** -/
theorem proj_ingest (hp : Ctx.Steady p) {sid : ℕ} {c : Ctx} (hc : s.sess.find? sid = some c)
    (ev : DsdEvent) (now : ℤ) (i : ℕ) : p ((s.ingest L sid ev now).ctx i) =
      if i = sid then p (c.heed (.ofEvent ev) now) else p (s.ctx i) := by
  set s₁ := s.record (assoclog.eventLine now sid ev)
  have hc₁ : s₁.sess.find? sid = some c := hc
  set g := c.gate (.ofEvent ev) now with hg
  have h₁ : ∀ i, p ((s₁.setCtx sid g.1).ctx i) = if i = sid then
      p g.1 else p (s.ctx i) := fun i => by
    rw [ctx, setCtx, SortedMap.getD_insert]
    split_ifs <;> rfl
  rw [AssocModel.ingest]
  dsimp only
  rw [hc₁]
  dsimp only
  rw [← hg, Ctx.heed, ← hg]
  by_cases hgo : g.2 = true
  · rw [if_pos hgo, if_pos hgo]
    set s₂ := s₁.setCtx sid g.1
    set s₃ := s₂.identify L sid (.ofEvent ev) now
    -- call handling touches the stream's call indexes only
    have hw := (StreamState.works_expire L (s₃.stream sid) now).trans
      (StreamState.works_handle L s₃.qualityOn _ sid (.ofEvent ev) now)
    obtain ⟨a, l, hw⟩ := hw.ctx
    have hput : ∀ st : StreamState, p st.ctx = p (s₃.ctx sid) → Same p s₃ (s₃.putStream sid st) :=
      fun st hst => by
        have hdesk : Same p s₃ (s₃.putDesk st.toFamilyState) := .of_sess rfl
        exact hdesk.trans ((Same.setCtx hst).trans (.of_sess rfl))
    have h₃ := hput _ ((congrArg p hw).trans (hp.calls _ a l)) i
    rw [h₃, proj_identify hp]
    split_ifs with hi
    · rw [ctx_setCtx]
    · rw [h₁, if_neg hi]
  · rw [if_neg hgo, if_neg hgo]
    exact h₁ i

/-- **An event leaves every stream as it runs and where.** -/
theorem sameTuning_ingest (s : AssocModel) (sid : ℕ) (ev : DsdEvent) (now : ℤ) :
    SameTuning s (s.ingest L sid ev now) := fun i => by
  rcases hc : s.sess.find? sid with _ | c
  · rw [AssocModel.ingest]
    dsimp only
    rw [show (s.record (assoclog.eventLine now sid ev)).sess.find? sid = none from hc]
    rfl
  · rw [proj_ingest Ctx.steady_tuning hc ev now i]
    split_ifs with hi
    · rw [Ctx.heed_tuning, hi, ctx_of_find? hc]
    · rfl

/-! ## The operations on a stream

These four say what does change: the context of the one stream that is named, in the way its
definition says.  The reading of all other streams is the same. -/

/-- Beginning a stream makes its context anew, and no other. -/
theorem proj_beginStream (hp : Ctx.Steady p) (s : AssocModel) (sid : ℕ) (label : Bytes) (now : ℤ)
    (family : Bytes) (freq : ℤ) (i : ℕ) : p ((s.beginStream L sid label now family freq).ctx i) =
      if i = sid then
        p { label := label
            family := if family = [] then assocFamily label else family
            freq := freq
            running := true
            startedMs := now }
      else p (s.ctx i) := by
  set s₁ := ((s.record (assoclog.beginLine now sid label freq)).closeSessionCalls L
    sid).pruneSession sid false
  have h : Same p s s₁ := same_wrapUp hp s _ sid false
  change p ((s₁.setCtx sid _).ctx i) = _
  by_cases hi : i = sid
  · rw [if_pos hi, hi, ctx_setCtx]
  · rw [if_neg hi, ctx, setCtx, SortedMap.getD_insert, if_neg hi]
    exact h i

/-- Ending a stream stops it, and no other. -/
theorem proj_endStream (hp : Ctx.Steady p) (s : AssocModel) (sid : ℕ) (now : ℤ) (i : ℕ) :
    p ((s.endStream L sid now).ctx i) = if i = sid then p (s.ctx i).stop else p (s.ctx i) := by
  set s₁ := (s.record (assoclog.endLine now sid)).closeSessionCalls L sid
  have h₁ : s₁.sess = s.sess := sess_closeSessionCalls _ sid
  set s₂ := { s₁ with sess := s₁.sess.modify sid Ctx.stop }
  have h₂ : p (s₂.ctx i) = if i = sid then p (s.ctx i).stop else p (s.ctx i) := by
    change p ((s₁.sess.modify sid Ctx.stop).getD i {}) = _
    rw [h₁, SortedMap.getD, SortedMap.find?_modify, ctx, SortedMap.getD]
    split_ifs with hi
    · cases s.sess.find? i <;> rfl
    · rfl
  have h₃ := same_pruneSession hp s₂ sid false i
  exact h₃.trans h₂

/-- Removing a stream leaves no context of it, and all others. -/
theorem proj_removeSession (hp : Ctx.Steady p) (s : AssocModel) (sid : ℕ) (now : ℤ) (i : ℕ) :
    p ((s.removeSession L sid now).ctx i) = if i = sid then p {} else p (s.ctx i) := by
  set s₁ :=
    ((s.record (assoclog.removeLine now sid)).closeSessionCalls L sid).pruneSession sid false
  have h : Same p s s₁ := same_wrapUp hp s _ sid false
  change p ((s₁.sess.erase sid).getD i {}) = _
  rw [SortedMap.getD, SortedMap.find?_erase]
  split_ifs with hi
  · rfl
  · exact h i

/-- **Retuning a stream** the model knows to another channel. -/
theorem proj_retuneStream (hp : Ctx.Steady p) (s : AssocModel) (sid : ℕ) (freq now : ℤ) (i : ℕ) :
    p ((s.retuneStream L sid freq now).ctx i) =
      if i = sid ∧ sid ∈ s.sess ∧ (s.ctx sid).freq ≠ freq then p ((s.ctx i).retune freq)
      else p (s.ctx i) := by
  rw [retuneStream]
  split
  · next h => rw [if_neg fun hi => SortedMap.find?_eq_none_iff.1 h hi.2.1]
  · next c hc =>
    have hm : sid ∈ s.sess := SortedMap.mem_of_find? hc
    have hctx : s.ctx sid = c := ctx_of_find? hc
    rw [hctx]
    by_cases hf : c.freq = freq
    · rw [if_pos hf, if_neg fun h => h.2.2 hf]
    rw [if_neg hf]
    by_cases hi : i = sid
    · rw [if_pos ⟨hi, hm, hf⟩, hi, hctx]
      change p ((AssocModel.setCtx _ sid (c.retune freq)).ctx sid) = _
      rw [ctx_setCtx]
    · rw [if_neg fun h => hi h.1]
      set s₁ :=
        ((s.record (assoclog.tuneLine now sid freq)).closeSessionCalls L sid).pruneSession sid
        true
      have h : Same p s s₁ := same_wrapUp hp s _ sid true
      change p ((s₁.setCtx sid _).ctx i) = _
      rw [ctx, setCtx, SortedMap.getD_insert, if_neg hi]
      exact h i

/-- **A stream that begins runs**, on the channel it is given. -/
theorem tuning_beginStream (s : AssocModel) (sid : ℕ) (label : Bytes) (now : ℤ) (family : Bytes)
    (freq : ℤ) (i : ℕ) : ((s.beginStream L sid label now family freq).ctx i).tuning =
      if i = sid then (true, freq) else (s.ctx i).tuning :=
  proj_beginStream Ctx.steady_tuning s sid label now family freq i

/-- **A stream that ends does not run**, and keeps its channel. -/
theorem tuning_endStream (s : AssocModel) (sid : ℕ) (now : ℤ) (i : ℕ) :
    ((s.endStream L sid now).ctx i).tuning =
      if i = sid then (false, (s.ctx i).freq) else (s.ctx i).tuning :=
  proj_endStream Ctx.steady_tuning s sid now i

/-- A stream that is removed is as one never seen. -/
theorem tuning_removeSession (s : AssocModel) (sid : ℕ) (now : ℤ) (i : ℕ) :
    ((s.removeSession L sid now).ctx i).tuning = if i = sid then (false, 0) else (s.ctx i).tuning :=
  proj_removeSession Ctx.steady_tuning s sid now i

/-- **Retuning a stream** the model knows moves it to the channel, running or not. -/
theorem tuning_retuneStream (s : AssocModel) (sid : ℕ) (freq now : ℤ) (i : ℕ) :
    ((s.retuneStream L sid freq now).ctx i).tuning =
      if i = sid ∧ sid ∈ s.sess then ((s.ctx i).running, freq) else (s.ctx i).tuning := by
  rw [proj_retuneStream Ctx.steady_tuning]
  by_cases h : i = sid ∧ sid ∈ s.sess
  · obtain ⟨rfl, hm⟩ := h
    by_cases hf : (s.ctx i).freq = freq
    · rw [if_neg fun h => h.2.2 hf, if_pos ⟨rfl, hm⟩, ← hf]
      rfl
    · rw [if_pos ⟨rfl, hm, hf⟩, if_pos ⟨rfl, hm⟩]
      rfl
  · rw [if_neg fun h' => h ⟨h'.1, h'.2.1⟩, if_neg h]

end AssocModel

end DsdServer
