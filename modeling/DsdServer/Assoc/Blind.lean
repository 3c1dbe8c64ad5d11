import DsdServer.Assoc.Unseen
import DsdServer.Assoc.Edits

/-!
# Assoc/Blind — what handles calls does not read the recording

Whatever an event does to the calls of a family, it does the same under any recording (`Blind`), and
it brings in no stream but its own.

The recording is a component of the state that the handling passes on.  To be blind is to commute
with replacing it, and the operations that are blind compose.  This is what lets a run with a
recording be compared with one without.
-/

open Bytes

namespace DsdServer

/-! ## The recording makes no difference

The statement has two halves.  A step may write lines into the recording, but what it does beside
that does not depend on what is there; and a stream that has no call in the family has none after
the step. -/

/-- Another recording. -/
def FamilyState.relog (w : FamilyState) (l : AssocRecorder) : FamilyState := { w with log := l }

/-- The recording is not part of the family. -/
@[simp] theorem FamilyState.relog_fam (w : FamilyState) (l : AssocRecorder) :
    (w.relog l).fam = w.fam := rfl

/-- An operation that only writes the recording, and brings in no other stream. -/
def Blind (g : FamilyState → FamilyState) : Prop := ∀ w l,
  (∃ l', g (w.relog l) = (g w).relog l') ∧ ∀ sid, w.fam.Unseen sid → (g w).fam.Unseen sid

namespace Blind

variable {L : Limits} {g g' : FamilyState → FamilyState}

theorem id : Blind fun w => w := fun _ l => ⟨⟨l, rfl⟩, fun _ h => h⟩

/-- Blind steps may follow each other. -/
theorem comp (h : Blind g) (h' : Blind g') : Blind fun w => g' (g w) := fun w l => by
  obtain ⟨⟨l₁, h₁⟩, u₁⟩ := h w l
  obtain ⟨⟨l₂, h₂⟩, u₂⟩ := h' (g w) l₁
  exact ⟨⟨l₂, (congrArg g' h₁).trans h₂⟩, fun sid hu => u₂ sid (u₁ sid hu)⟩

/-- A change of the family alone is blind, if it brings in no stream. -/
theorem onFam {f : Family → Family} (hf : ∀ F sid, F.Unseen sid → (f F).Unseen sid) :
    Blind fun w => w.onFam f := fun w l => ⟨⟨l, rfl⟩, hf w.fam⟩

theorem foldl {α : Type} {g : FamilyState → α → FamilyState} (h : ∀ a, Blind fun w => g w a)
    (as : List α) : Blind fun w => as.foldl g w := by
  induction as with
  | nil => exact id
  | cons a as ih => exact (h a).comp ih

/-- Marking a call to be kept writes a line, and does the same under any recording. -/
theorem setKeep (i : ℕ) (on : Bool) (now : ℤ) : Blind fun w => w.setKeep i on now := fun w l => by
  simp only [FamilyState.setKeep, FamilyState.relog]
  split
  · exact ⟨⟨l, rfl⟩, fun _ h => h⟩
  · split_ifs
    · exact ⟨⟨l, rfl⟩, fun _ h => h⟩
    · exact ⟨⟨_, rfl⟩, fun _ h => h.modifyCall i fun _ => rfl⟩

theorem shut (i : ℕ) : Blind fun w => w.shut i := fun _ l =>
  ⟨⟨l, rfl⟩, fun _ h => h.modifyCall i fun _ => rfl⟩

theorem settleSound (i : ℕ) : Blind fun w => w.settleSound i := fun w l => by
  simp only [FamilyState.settleSound, FamilyState.relog_fam]
  split
  · exact ⟨⟨l, rfl⟩, fun _ h => h⟩
  · next k _ =>
    split_ifs
    · exact ⟨⟨l, rfl⟩, fun _ h => h⟩
    · have h₁ : Blind fun w : FamilyState =>
          { w with
            store := w.store.discard k.sound.audio
            fam := w.fam.modifyCall i Call.dropSound } :=
        fun _ l => ⟨⟨l, rfl⟩, fun _ h => h.modifyCall i (g := Call.dropSound) fun _ => rfl⟩
      exact h₁.comp (setKeep i false k.lastMs) w l
    · exact ⟨⟨l, rfl⟩, fun _ h => h⟩

theorem closeCall (i : ℕ) : Blind fun w => w.closeCall L i := fun w l => by
  simp only [FamilyState.closeCall, FamilyState.relog_fam]
  split
  · exact ⟨⟨l, rfl⟩, fun _ h => h⟩
  · split_ifs
    · exact ((shut i).comp (settleSound i)).comp
        (onFam fun F _ h => (h.countUnsourced (L := L) i).tallyClosed i) w l
    · exact ⟨⟨l, rfl⟩, fun _ h => h⟩

theorem closeSessionCalls (sid : ℕ) : Blind fun w => w.closeSessionCalls L sid := fun w l =>
  foldl (fun k : Call => closeCall k.id) (w.fam.calls.filter (·.session = sid)) w l

theorem forget (i : ℕ) : Blind fun w => w.forget i := onFam fun _ _ h => h.forget i

theorem rollOff : Blind fun w => w.rollOff L := fun w l => by
  simp only [FamilyState.rollOff, FamilyState.relog_fam]
  by_cases hc : reached L.calls (w.fam.calls.countP fun k => !k.keep) = true
  · simp only [hc, if_true]
    split
    · exact ⟨⟨l, rfl⟩, fun _ h => h⟩
    · next v _ => exact (closeCall v.id).comp (forget v.id) w l
  · simp only [hc, if_false, Bool.false_eq_true]
    exact ⟨⟨l, rfl⟩, fun _ h => h⟩

/-- Taking over a call that is known from another stream. -/
theorem adopt (dup twin : Call) : Blind fun w => w.adopt L dup twin := fun w l => by
  have hu : ∀ sid, w.fam.Unseen sid → (w.adopt L dup twin).fam.Unseen sid := fun sid h => by
    rw [fam_adopt]
    exact ((h.modifyCall twin.id (g := fun t => t.join dup) fun _ => rfl).forget _).noteEncCounts _
  refine ⟨?_, hu⟩
  simp only [FamilyState.adopt]
  split_ifs
  · exact ⟨l, rfl⟩
  · exact ⟨l, rfl⟩

end Blind

/-! ## Call handling

The handling of an event is a chain of such steps, put together by `comp`, `foldl` and `ite`; only
the steps that look for a call and go on with what they find are followed by hand. -/

/-- Feed a voice frame to a call's analyzer. -/
def FamilyState.feed (w : FamilyState) (i : ℕ) (ev : DsdEvent) : FamilyState :=
  { w with
    quality := w.quality.insert i ((w.quality.getD i {}).feedFrame ev.voiceFrame ev.voiceErr) }

namespace StreamState

/-- The same with another recording. -/
def relog (st : StreamState) (l : AssocRecorder) : StreamState := { st with log := l }

@[simp] theorem relog_fam (st : StreamState) (l : AssocRecorder) : (st.relog l).fam = st.fam := rfl

@[simp] theorem relog_ctx (st : StreamState) (l : AssocRecorder) : (st.relog l).ctx = st.ctx := rfl

/-- An operation that only writes the recording, and brings in no other stream. -/
def Blind (g : StreamState → StreamState) : Prop := ∀ st l,
  (∃ l', g (st.relog l) = (g st).relog l') ∧ ∀ sid, st.fam.Unseen sid → (g st).fam.Unseen sid

namespace Blind

variable {L : Limits} {g g' : StreamState → StreamState}

theorem id : Blind fun st => st := fun _ l => ⟨⟨l, rfl⟩, fun _ h => h⟩

theorem comp (h : Blind g) (h' : Blind g') : Blind fun st => g' (g st) := fun st l => by
  obtain ⟨⟨l₁, h₁⟩, u₁⟩ := h st l
  obtain ⟨⟨l₂, h₂⟩, u₂⟩ := h' (g st) l₁
  exact ⟨⟨l₂, (congrArg g' h₁).trans h₂⟩, fun sid hu => u₂ sid (u₁ sid hu)⟩

/-- What is blind on the family is blind on the stream and its family. -/
theorem onFamily {g : FamilyState → FamilyState} (h : DsdServer.Blind g) :
    Blind fun st => st.onFamily g := fun st l => by
  obtain ⟨⟨l', h'⟩, hu⟩ := h st.toFamilyState l
  refine ⟨⟨l', ?_⟩, hu⟩
  change { st.relog l with toFamilyState := g (st.toFamilyState.relog l) } = _
  rw [h']
  rfl

theorem onFam {f : Family → Family} (hf : ∀ F sid, F.Unseen sid → (f F).Unseen sid) :
    Blind fun st => st.onFam f := onFamily (.onFam hf)

/-- A change of one call that leaves its session. -/
theorem modifyCall (i : ℕ) {f : Call → Call} (hf : ∀ k, (f k).session = k.session) :
    Blind fun st => st.onFam fun F => F.modifyCall i f := onFam fun _ _ h => h.modifyCall i hf

theorem setPrivate (i : ℕ) (now : ℤ) : Blind fun st => st.onFam fun F => F.setPrivate L i now :=
  onFam fun _ _ h => h.setPrivate i now

theorem noteEncrypted (i : ℕ) (x : SortedMap Bytes Bytes) :
    Blind fun st => st.onFam fun F => F.noteEncrypted L i x :=
      onFam fun _ _ h => h.noteEncrypted i x

theorem noteService (i : ℕ) (x : SortedMap Bytes Bytes) (now : ℤ) :
    Blind fun st => st.onFam fun F => F.noteService i x now :=
      onFam fun _ _ h => h.noteService i x now

theorem onCtx (f : Ctx → Ctx) : Blind fun st => st.onCtx f := fun _ l => ⟨⟨l, rfl⟩, fun _ h => h⟩

/-- A choice that does not depend on the recording. -/
theorem ite {p : Prop} [Decidable p] (h : Blind g) (h' : Blind g') :
    Blind fun st => if p then g st else g' st := by
  split_ifs
  · exact h
  · exact h'

theorem foldl {α : Type} {g : StreamState → α → StreamState} (h : ∀ a, Blind fun st => g st a)
    (as : List α) : Blind fun st => as.foldl g st := by
  induction as with
  | nil => exact id
  | cons a as ih => exact (h a).comp ih

/-- Calls that were not heard for long are closed. -/
theorem expire (now : ℤ) : Blind fun st => st.expire L now := fun st l => by
  refine foldl (fun e : Bytes × ℕ => ?_) st.ctx.active.entries st l
  intro st l
  simp only [expireOne, relog_fam]
  split
  · split_ifs
    · exact ⟨⟨l, rfl⟩, fun _ h => h⟩
    · next k _ _ => exact ((onFamily (.closeCall k.id)).comp (onCtx fun c => c.dropActive e.1)) st l
  · exact ⟨⟨l, rfl⟩, fun _ h => h⟩

/-- A voice frame goes to the analyzer of its call. -/
theorem feedQuality (on : Bool) (r : Reading) (i : ℕ) : Blind fun st => st.feedQuality on r i :=
  fun st l => by
    by_cases hc : 0 ≤ r.ev.voiceErr ∧ on = true ∧ qualityAmbe2Family st.ctx.family = true
    · have h : ∀ st' : StreamState, st'.ctx = st.ctx → st'.feedQuality on r i =
          st'.onFamily fun w => w.feed i r.ev := fun st' h => if_pos (h ▸ hc)
      beta_reduce
      rw [h st rfl, h (st.relog l) rfl]
      exact ⟨⟨l, rfl⟩, fun _ h => h⟩
    · have h : ∀ st' : StreamState, st'.ctx = st.ctx → st'.feedQuality on r i = st' :=
        fun st' h => if_neg (h ▸ hc)
      beta_reduce
      rw [h st rfl, h (st.relog l) rfl]
      exact ⟨⟨l, rfl⟩, fun _ h => h⟩

/-- A call that another stream hears as well is joined with it. -/
theorem adoptTwin (dup twin : Call) (slot : Bytes) : Blind fun st => st.adoptTwin L dup twin slot :=
  (onFamily (.adopt dup twin)).comp (onCtx _)

/-- Count a call, if it is there and not counted yet. -/
theorem countNow (cur : ℕ) (now : ℤ) : Blind fun st => match st.fam.findCall cur with
    | none => st
    | some k => if k.counted then st else st.onFam fun F => F.countCall L cur now := fun st l => by
  simp only [relog_fam]
  split
  · exact ⟨⟨l, rfl⟩, fun _ h => h⟩
  · split_ifs
    · exact ⟨⟨l, rfl⟩, fun _ h => h⟩
    · exact ⟨⟨l, rfl⟩, fun _ h => h.countCall cur now⟩

/-- A call is counted, or joined with its twin. -/
theorem countOrJoin (i : ℕ) (slot : Bytes) (now : ℤ) :
    Blind fun st => st.countOrJoin L i slot now :=
  fun st l => by
    simp only [StreamState.countOrJoin, relog_fam]
    split
    · exact ⟨⟨l, rfl⟩, fun _ h => h⟩
    · next k _ =>
      split_ifs
      · exact ⟨⟨l, rfl⟩, fun _ h => h⟩
      · cases st.fam.findTwin k now with
        | none => exact countNow i now st l
        | some twin => exact ((adoptTwin k twin slot).comp (countNow twin.id now)) st l

/-- **Folding an event into its call.** -/
theorem foldEvent (on : Bool) (r : Reading) (i : ℕ) (now : ℤ) :
    Blind fun st => st.foldEvent L on r i now := fun st l => by
  simp only [StreamState.foldEvent, relog_fam, relog_ctx]
  split
  · exact ⟨⟨l, rfl⟩, fun _ h => h⟩
  · next k _ =>
    have h₁ : Blind fun t => t.onFam fun F => F.modifyCall i fun k => k.hear r st.ctx :=
      modifyCall i fun _ => rfl
    have h₂ : Blind fun t => if k.tgt = [] ∧ r.tgt ≠ [] then
        t.onCtx fun c => c.setActive (activeKey r.slot r.tgt) i else t := ite (onCtx _) id
    have h₃ : Blind fun t => (t.feedQuality on r i).onFam fun F => F.noteService i r.extra now :=
      (feedQuality on r i).comp (noteService i r.extra now)
    have h₄ : Blind fun t => if r.enc then t.onFam fun F => F.noteEncrypted L i r.extra else t :=
      ite (noteEncrypted i r.extra) id
    have h₅ : Blind fun t => (t.onFam fun F => F.modifyCall i fun k : Call => k.heard now).onCtx
        fun c => c.setLast r.slot i :=
          (modifyCall i (f := fun k => k.heard now) fun _ => rfl).comp (onCtx _)
    have h₆ : Blind fun t => if r.priv then t.onFam fun F => F.setPrivate L i now else t :=
      ite (setPrivate i now) id
    exact (((((h₁.comp h₂).comp h₃).comp h₄).comp h₅).comp h₆).comp (countOrJoin i r.slot now) st l

/-- Refining what is known of the stream's network. -/
theorem refine (r : Reading) (now : ℤ) : Blind fun st => st.refine L r now := fun st l => by
  simp only [StreamState.refine, StreamState.freshCall, relog_fam, relog_ctx]
  split
  · exact ⟨⟨l, rfl⟩, fun _ h => h⟩
  · next k _ =>
    have h₁ : Blind fun t => if r.priv then t.onFam fun F => F.setPrivate L k.id now else t :=
      ite (setPrivate k.id now) id
    have h₂ : Blind fun t => if r.emerg then t.onFam fun F => F.modifyCall k.id Call.alarm else t :=
      ite (modifyCall k.id fun _ => rfl) id
    have h₃ : Blind fun t => if r.enc then t.onFam fun F => F.noteEncrypted L k.id r.extra else t :=
      ite (noteEncrypted k.id r.extra) id
    exact ((h₁.comp h₂).comp h₃).comp (noteService k.id r.extra now) st l

theorem hearRadio (r : Reading) (now : ℤ) : Blind fun st => st.hearRadio L r now := fun st l => by
  simp only [StreamState.hearRadio, relog_ctx]
  split_ifs
  · exact ⟨⟨l, rfl⟩, fun _ h => h⟩
  · exact ⟨⟨l, rfl⟩, fun _ h => h.touchRadio _ _ _ _⟩

/-- Marking the call on a slot as not encrypted. -/
theorem markUnkeyed (slot : Bytes) (now : ℤ) : Blind fun st => st.markUnkeyed slot now :=
  fun st l => by
  simp only [StreamState.markUnkeyed, StreamState.freshCall, relog_fam, relog_ctx]
  split
  · exact ⟨⟨l, rfl⟩, fun _ h => h⟩
  · exact ⟨⟨l, rfl⟩, fun _ h => h.modifyCall _ fun _ => rfl⟩

/-- The call an event belongs to is the same, and what it does to the slots. -/
theorem matchTarget (r : Reading) (now : ℤ) (st : StreamState) (l : AssocRecorder) :
    (st.relog l).matchTarget r now = ((st.matchTarget r now).1.relog l, (st.matchTarget r now).2) ∧
      ∀ sid, st.fam.Unseen sid → (st.matchTarget r now).1.fam.Unseen sid := by
  simp only [StreamState.matchTarget, StreamState.activeCall, StreamState.adoptable,
    StreamState.freshCall, relog_fam, relog_ctx]
  split
  · exact ⟨rfl, fun _ h => h⟩
  · split
    · split_ifs
      · exact ⟨rfl, fun _ h => h.modifyCall _ fun _ => rfl⟩
      · exact ⟨rfl, fun _ h => h⟩
    · exact ⟨rfl, fun _ h => h⟩

/-- What becomes of an event's call once it is found. -/
def settleMatch (L : Limits) (st : StreamState) (r : Reading) (cur : Option ℕ) :
    StreamState × Option ℕ :=
  match cur.bind st.fam.findCall with
  | none => (st, none)
  | some k =>
    if k.data && !k.voice && r.src = [] && r.tgt = [] && r.voicey then (st, none)
    else if r.src ≠ [] && k.src ≠ [] && r.src ≠ k.src then
      (st.onFamily fun w => w.closeCall L k.id, none)
    else (st, some k.id)

/-- The call that is matched is the same under any recording. -/
theorem settleMatch_blind (r : Reading) (cur : Option ℕ) (st : StreamState) (l : AssocRecorder) :
    (∃ l', settleMatch L (st.relog l) r cur =
      ((settleMatch L st r cur).1.relog l', (settleMatch L st r cur).2)) ∧
      ∀ sid, st.fam.Unseen sid → (settleMatch L st r cur).1.fam.Unseen sid := by
  simp only [settleMatch, relog_fam]
  split
  · exact ⟨⟨l, rfl⟩, fun _ h => h⟩
  · next k _ =>
    split_ifs
    · exact ⟨⟨l, rfl⟩, fun _ h => h⟩
    · obtain ⟨⟨l', h⟩, hu⟩ := onFamily (.closeCall (L := L) k.id) st l
      exact ⟨⟨l', Prod.ext h rfl⟩, hu⟩
    · exact ⟨⟨l, rfl⟩, fun _ h => h⟩

/-- Matching does the same under any recording, and finds the same call. -/
theorem matchCall (r : Reading) (now : ℤ) (st : StreamState) (l : AssocRecorder) :
    (∃ l', (st.relog l).matchCall L r now =
      ((st.matchCall L r now).1.relog l', (st.matchCall L r now).2)) ∧
      ∀ sid, st.fam.Unseen sid → (st.matchCall L r now).1.fam.Unseen sid := by
  have heq : ∀ st : StreamState, st.matchCall L r now =
      if r.tgt = [] then settleMatch L st r ((st.freshCall r.slot now).map (·.id))
      else settleMatch L (st.matchTarget r now).1 r (st.matchTarget r now).2 := fun st => by
    rw [StreamState.matchCall]
    split_ifs <;> rfl
  rw [heq, heq]
  split_ifs
  · exact settleMatch_blind r _ st l
  · obtain ⟨h, hu⟩ := matchTarget r now st l
    rw [h]
    obtain ⟨h', hu'⟩ := settleMatch_blind (L := L) r (st.matchTarget r now).2
      (st.matchTarget r now).1 l
    exact ⟨h', fun sid h => hu' sid (hu sid h)⟩

/-- What goes before a call is opened on a slot. -/
def makeRoom (L : Limits) (st : StreamState) (slot : Bytes) (now : ℤ) : StreamState :=
  (if slot = [] then st
  else match st.freshCall slot now with
    | some prev => st.onFamily fun w => w.closeCall L prev.id
    | none => st).onFamily fun w => w.rollOff L

theorem makeRoom_blind (slot : Bytes) (now : ℤ) : Blind fun st => makeRoom L st slot now := by
  have h : Blind fun st => if slot = [] then st
      else match st.freshCall slot now with
        | some prev => st.onFamily fun w => w.closeCall L prev.id
        | none => st := fun st l => by
    split_ifs
    · exact ⟨⟨l, rfl⟩, fun _ h => h⟩
    · simp only [StreamState.freshCall, relog_fam, relog_ctx]
      split
      · next prev _ => exact onFamily (.closeCall prev.id) st l
      · exact ⟨⟨l, rfl⟩, fun _ h => h⟩
  exact h.comp (onFamily .rollOff)

/-- The new call, in a family with room for it. -/
def begun (st : StreamState) (sid : ℕ) (slot : Bytes) (now : ℤ) : StreamState × ℕ :=
  let k : Call :=
    { id := st.nextCall + 1, session := sid, slot := slot, net := st.ctx.net, site := st.ctx.site
      freq := st.ctx.freq, startMs := now, lastMs := now }
  ({ (st.onFam fun F => { F with calls := F.calls ++ [k] }).onCtx fun c => c.setLast slot k.id with
    nextCall := k.id }, k.id)

/-- Opening a call is making room and beginning it. -/
theorem openCall_eq (sid : ℕ) (slot : Bytes) (now : ℤ) (st : StreamState) :
    st.openCall L sid slot now = begun (makeRoom L st slot now) sid slot now := rfl

/-- **Opening a call** brings in its own stream, and no other. -/
theorem openCall (sid : ℕ) (slot : Bytes) (now : ℤ) (st : StreamState) (l : AssocRecorder) :
    (∃ l', (st.relog l).openCall L sid slot now =
      ((st.openCall L sid slot now).1.relog l', (st.openCall L sid slot now).2)) ∧
      ∀ i ≠ sid, st.fam.Unseen i → (st.openCall L sid slot now).1.fam.Unseen i := by
  obtain ⟨⟨l', h⟩, hu⟩ := makeRoom_blind (L := L) slot now st l
  refine ⟨⟨l', ?_⟩, fun i hi hs => (hu i hs).push hi.symm⟩
  beta_reduce at h
  rw [openCall_eq, openCall_eq, h]
  rfl

/-- **The handling of an event only writes the recording besides**, and brings in no other
stream. -/
theorem handle (on : Bool) (sid : ℕ) (r : Reading) (now : ℤ) (st : StreamState)
    (l : AssocRecorder) :
    (∃ l', (st.relog l).handle L on sid r now = (st.handle L on sid r now).relog l') ∧
      ∀ i ≠ sid, st.fam.Unseen i → (st.handle L on sid r now).fam.Unseen i := by
  have hcall : ∀ (st : StreamState) (l : AssocRecorder),
      (∃ l', (st.relog l).handleCall L on sid r now = (st.handleCall L on sid r now).relog l') ∧
        ∀ i ≠ sid, st.fam.Unseen i → (st.handleCall L on sid r now).fam.Unseen i := fun st l => by
    obtain ⟨⟨l', h⟩, hu⟩ := matchCall (L := L) r now st l
    rw [handleCall, handleCall, h]
    rcases hm : st.matchCall L r now with ⟨st', _ | id⟩
    · rw [hm] at hu
      dsimp only
      split_ifs
      · exact ⟨⟨l', rfl⟩, fun i _ => hu i⟩
      · obtain ⟨⟨l'', h'⟩, hu'⟩ := openCall (L := L) sid r.slot now st' l'
        rw [h']
        obtain ⟨h'', hu''⟩ := foldEvent (L := L) on r (st'.openCall L sid r.slot now).2 now
          (st'.openCall L sid r.slot now).1 l''
        exact ⟨h'', fun i hi hs => hu'' i (hu' i hi (hu i hs))⟩
    · rw [hm] at hu
      obtain ⟨h', hu'⟩ := foldEvent (L := L) on r id now st' l'
      exact ⟨h', fun i _ hs => hu' i (hu i hs)⟩
  simp only [StreamState.handle]
  split_ifs
  · exact ⟨⟨l, rfl⟩, fun _ _ h => h⟩
  · exact (markUnkeyed r.slot now st l).imp_right fun h i _ => h i
  · exact (refine r now st l).imp_right fun h i _ => h i
  · exact (hearRadio r now st l).imp_right fun h i _ => h i
  · obtain ⟨⟨l', h⟩, hu⟩ := hearRadio (L := L) r now st l
    beta_reduce at h
    rw [h]
    exact (hcall _ l').imp_right fun h' i hi hs => h' i hi (hu i hs)

end Blind

end StreamState

end DsdServer
