import DsdServer.Assoc.Exclusive
import DsdServer.Assoc.Replay
import DsdServer.Assoc.Verdicts

/-!
# Assoc/Isolation — a call's voice quality is its own

A call's analyzer is kept beside the calls, under the call's id.  As long as the model is not
cleared while a call in progress has an analyzer, what is shown of a call is made of the voice
frames of the events folded into it since it was opened (`quality_isolated`).  Clearing drops the
calls, starts the ids over and leaves the analyzers: a later call of the same id goes on with what
is there (`clear_leaks_quality`).

The frames of a call are counted beside the model, by what each event is folded into.  The invariant
ties this count to the analyzers, and says of every analyzer that it belongs to an open call.  It is
this last clause that clearing breaks.
-/

open Bytes

namespace DsdServer

/-! ## Frames and analyzers

An analyzer is a summary of the frames it was fed, and forgets nothing of them that its verdict
would need.  So two analyzers fed the same frames say the same. -/

/-- A voice frame with its error count. -/
abbrev VoiceFrame := ℕ × ℤ

/-- The voice frames folded into each call since it was opened. -/
abbrev Frames := ℕ → List VoiceFrame

namespace VoiceQuality

/-- An analyzer fed with these frames. -/
def ofFrames (fs : List VoiceFrame) : VoiceQuality := fs.foldl (fun v f => v.feedFrame f.1 f.2) {}

/-- There is an analyzer from the first frame on. -/
def analyzer (fs : List VoiceFrame) : Option VoiceQuality :=
  if fs = [] then none else some (ofFrames fs)

/-- The verdict of an analyzer is that of the frames it was fed. -/
theorem verdict_analyzer (fs : List VoiceFrame) :
    (analyzer fs).elim {} summary = (ofFrames fs).summary := by
  rw [analyzer]
  split_ifs with h
  · rw [h]
    decide +kernel
  · rfl

/-- An analyzer is fed frame by frame. -/
theorem analyzer_append (fs : List VoiceFrame) (f : VoiceFrame) :
    some (((analyzer fs).getD {}).feedFrame f.1 f.2) = analyzer (fs ++ [f]) := by
  have hne : fs ++ [f] ≠ [] := by simp
  have hd : (analyzer fs).getD {} = ofFrames fs := by
    rw [analyzer]
    split_ifs with h
    · rw [h]
      rfl
    · rfl
  rw [hd, analyzer, if_neg hne, ofFrames, ofFrames, List.foldl_append]
  rfl

end VoiceQuality

open VoiceQuality

/-! ## The call an event is folded into

Handling an event finds or opens a call, and then feeds that call's analyzer with the frame of the
event.  `placed` is the first half, and it feeds nothing. -/

namespace StreamState

/-- The call an event belongs to: one in progress, or a new one. -/
def findOrOpen (L : Limits) (st : StreamState) (sid : ℕ) (r : Reading) (now : ℤ) :
    StreamState × Option ℕ :=
  match st.matchCall L r now with
  | (st, some id) => (st, some id)
  | (st, none) =>
    if !r.callish || (r.src = [] && r.tgt = [] && r.ev.kind ≠ lit "message") then (st, none)
    else ((st.openCall L sid r.slot now).1, some (st.openCall L sid r.slot now).2)

/-- **An event finds its call**: all that is done before it is folded into one. -/
def placed (L : Limits) (st : StreamState) (sid : ℕ) (r : Reading) (now : ℤ) :
    StreamState × Option ℕ :=
  if isRoster r.up then (st, none)
  else if r.ev.kind = lit "sync" ∧ has r.up (lit "| TLC") then (st.markUnkeyed r.slot now, none)
  else if r.ev.kind = lit "unknown" then (st.refine L r now, none)
  else if !r.extends' then (st.hearRadio L r now, none)
  else (st.hearRadio L r now).findOrOpen L sid r now

variable {L : Limits} {st : StreamState}

/-- The handling of an event is placing it, and folding it into the call it was placed in. -/
theorem handle_eq (L : Limits) (on : Bool) (st : StreamState) (sid : ℕ) (r : Reading) (now : ℤ) :
    st.handle L on sid r now = (st.placed L sid r now).2.elim (st.placed L sid r now).1
      fun id => (st.placed L sid r now).1.foldEvent L on r id now := by
  rw [handle, placed]
  split_ifs
  · rfl
  · rfl
  · rfl
  · rfl
  · rw [handleCall, findOrOpen]
    obtain ⟨p, hp⟩ : ∃ p, (st.hearRadio L r now).matchCall L r now = p := ⟨_, rfl⟩
    rw [hp]
    obtain ⟨st₁, _ | id⟩ := p
    · dsimp only
      split_ifs <;> rfl
    · rfl

/-- **A call is found, or opened**: the stamps taper, and a new call has no verdict. -/
structure Places (st st' : StreamState) (o : Option ℕ) : Prop where
  found : (st'.nextCall = st.nextCall ∧ st.toFamilyState.Tapers st'.toFamilyState) ∨
    ∃ st₁ : StreamState, st.toFamilyState.Tapers st₁.toFamilyState ∧
      st'.fam.stamps = st₁.fam.stamps ++ [⟨st.nextCall + 1, true, {}⟩] ∧ st'.quality = st₁.quality ∧
      st'.nextCall = st.nextCall + 1 ∧ o = some (st.nextCall + 1)

theorem places_placed (h : st.fam.callIds.Nodup) (sid : ℕ) (r : Reading) (now : ℤ) :
    Places st (st.placed L sid r now).1 (st.placed L sid r now).2 := by
  have hhear : (st.hearRadio L r now).fam.callIds.Nodup ∧
      (st.hearRadio L r now).nextCall = st.nextCall := by
    rw [hearRadio]
    split_ifs
    · exact ⟨h, rfl⟩
    · exact ⟨h, rfl⟩
  rw [placed]
  split_ifs
  · exact ⟨Or.inl ⟨rfl, .refl _⟩⟩
  · refine ⟨Or.inl ⟨?_, tapers_markUnkeyed _ now⟩⟩
    rw [markUnkeyed]
    split <;> rfl
  · refine ⟨Or.inl ⟨?_, tapers_refine r now⟩⟩
    rw [refine]
    split
    · rfl
    · split_ifs <;> rfl
  · exact ⟨Or.inl ⟨hhear.2, tapers_hearRadio r now⟩⟩
  · have ht : st.toFamilyState.Tapers (st.hearRadio L r now).toFamilyState := tapers_hearRadio r now
    obtain ⟨hm, hnd, hn⟩ := tapers_matchCall (L := L) hhear.1 r now
    obtain ⟨p, hp⟩ : ∃ p, (st.hearRadio L r now).matchCall L r now = p := ⟨_, rfl⟩
    rw [findOrOpen]
    rw [hp] at hm hnd hn ⊢
    obtain ⟨st₁, _ | id⟩ := p
    · dsimp only
      split_ifs
      · exact ⟨Or.inl ⟨hn.trans hhear.2, ht.trans hm⟩⟩
      · obtain ⟨st₂, ht₂, hmarks, hq, hn₂, hid⟩ := tapers_openCall (L := L) hnd sid r.slot now
        rw [show st₁.nextCall = st.nextCall from hn.trans hhear.2] at hmarks hn₂ hid
        exact ⟨Or.inr ⟨st₂, (ht.trans hm).trans ht₂, hmarks, hq, hn₂, congrArg some hid⟩⟩
    · exact ⟨Or.inl ⟨hn.trans hhear.2, ht.trans hm⟩⟩

/-- The call an event is placed in is open. -/
theorem opened_placed {sid : ℕ} {r : Reading} {now : ℤ} {id : ℕ}
    (h : (st.placed L sid r now).2 = some id) : (st.placed L sid r now).1.fam.Opened id := by
  rw [placed] at h ⊢
  split_ifs at h ⊢
  have hm := works_matchCall L (st.hearRadio L r now) r now
  rw [findOrOpen] at h ⊢
  obtain ⟨p, hp⟩ : ∃ p, (st.hearRadio L r now).matchCall L r now = p := ⟨_, rfl⟩
  rw [hp] at hm h ⊢
  obtain ⟨st₁, _ | i⟩ := p
  · dsimp only at h ⊢
    split_ifs at h ⊢
    rw [← Option.some.inj h]
    exact (works_openCall L st₁ sid r.slot now).2
  · rw [← Option.some.inj h]
    exact (hm.2 i rfl).opened

/-- Placing an event is a stretch of call handling. -/
theorem works_placed (st : StreamState) (sid : ℕ) (r : Reading) (now : ℤ) :
    Works L st (st.placed L sid r now).1 := by
  rw [placed]
  split_ifs
  · exact .refl st
  · rw [markUnkeyed]
    split
    · exact .refl st
    · exact st.works_quiet L _ fun k => ⟨_, _, _, _, _, _, rfl⟩
  · exact works_refine L st r now
  · exact works_hearRadio L st r now
  · have hm := (works_hearRadio L st r now).trans (works_matchCall L (st.hearRadio L r now) r now).1
    rw [findOrOpen]
    obtain ⟨p, hp⟩ : ∃ p, (st.hearRadio L r now).matchCall L r now = p := ⟨_, rfl⟩
    rw [hp] at hm ⊢
    obtain ⟨st₁, _ | id⟩ := p
    · dsimp only
      split_ifs
      · exact hm
      · exact hm.trans (works_openCall L st₁ sid r.slot now).1
    · exact hm

end StreamState

namespace AssocModel

/-- The stream and the call of an event, before it is folded in. -/
def placing (L : Limits) (s : AssocModel) (sid : ℕ) (ev : DsdEvent) (now : ℤ) :
    Option (StreamState × ℕ) :=
  let s := s.record (assoclog.eventLine now sid ev)
  match s.sess.find? sid with
  | none => none
  | some c =>
    let r := Reading.ofEvent ev
    let (c, go) := c.gate r now
    let s := s.setCtx sid c
    if go then
      let s := s.identify L sid r now
      let p := ((s.stream sid).expire L now).placed L sid r now
      p.2.map fun id => (p.1, id)
    else none

/-- **The frames of the calls after an input**: those of a new call start over, and a voice frame is
its call's. -/
def noteFrames (L : Limits) (s : AssocModel) (G : Frames) : Op → Frames
  | .event sid ev now =>
    match s.placing L sid ev now with
    | none => G
    | some (st, id) =>
      let G := if s.nextCall < id then Function.update G id [] else G
      if 0 ≤ ev.voiceErr ∧ s.qualityOn ∧ qualityAmbe2Family st.ctx.family then
        Function.update G id (G id ++ [(ev.voiceFrame, ev.voiceErr)])
      else G
  | _ => G

/-- The quality summary shown for a call: that of its analyzer while it is open. -/
def shownQuality (s : AssocModel) (k : Call) : Summary :=
  if k.isOpen then (s.quality.find? k.id).elim k.qual summary else k.qual

end AssocModel

/-! ## The invariant

Beside the model runs an observer who notes, for every call, the frames of the events folded into
it.  The invariant compares the analyzers of open calls, and the verdicts of closed ones, with these
notes. -/

/-- **A stamp says what its call's frames do**: the verdict of a call that is over, and the analyzer
of one in progress. -/
structure Stamp.Judged (G : Frames) (Q : SortedMap ℕ VoiceQuality) (m : Stamp) : Prop where
  opened : m.isOpen = true → m.qual = {} ∧ Q.find? m.id = analyzer (G m.id)
  closed : m.isOpen = false → m.qual = (ofFrames (G m.id)).summary

/-- A call that ends is judged by its own frames. -/
theorem Stamp.Judged.close {G : Frames} {Q Q' : SortedMap ℕ VoiceQuality} {m : Stamp}
    (h : m.Judged G Q) (ho : m.isOpen = true) : (m.close (Q.find? m.id)).Judged G Q' where
  opened h := absurd h Bool.false_ne_true
  closed _ := by
    obtain ⟨hq, hv⟩ := h.opened ho
    rw [Stamp.close, hv, hq]
    exact verdict_analyzer _

namespace AssocModel

variable {L : Limits} {s s' : AssocModel} {G : Frames}

/-- **Analyzers are their calls'.** -/
structure Isolated (G : Frames) (s : AssocModel) : Prop where
  judged : ∀ f, ∀ m ∈ (s.family f).stamps, m.Judged G s.quality
  owned : ∀ i v, s.quality.find? i = some v → ∃ f, ∃ m ∈ (s.family f).stamps, m.id = i ∧
    m.isOpen = true
  apart : ∀ f g, ∀ m ∈ (s.family f).stamps, ∀ m' ∈ (s.family g).stamps, m.id = m'.id → f = g

namespace Isolated

/-- One family's stamps taper. -/
theorem tapers (h : s.Isolated G) {f : Bytes}
    (hf : ∀ g, g ≠ f → (s'.family g).stamps = (s.family g).stamps)
    (t : Tapers (s.family f).stamps s.quality (s'.family f).stamps s'.quality) : s'.Isolated G := by
  have hmem : ∀ g, ∀ m ∈ (s'.family g).stamps, ∃ m₀ ∈ (s.family g).stamps, m₀.id = m.id := by
    intro g m hm
    by_cases hg : g = f
    · rw [hg] at hm ⊢
      exact t.id_mem hm
    · rw [hf g hg] at hm
      exact ⟨m, hm, rfl⟩
  refine ⟨fun g m hm => ?_, fun i v hv => ?_, fun g g' m hm m' hm' he => ?_⟩
  · by_cases hg : g = f
    · rw [hg] at hm
      obtain ⟨m₀, hm₀, ⟨rfl, hq⟩ | ⟨ho, rfl⟩⟩ := t.stamps m hm
      · have hj := h.judged f m hm₀
        exact ⟨fun ho => ⟨(hj.opened ho).1, (hq ho).trans (hj.opened ho).2⟩, hj.closed⟩
      · exact (h.judged f m₀ hm₀).close ho
    · rw [hf g hg] at hm
      have hj := h.judged g m hm
      have hq : s'.quality.find? m.id = s.quality.find? m.id := by
        refine t.others m.id fun m' hm' he => hg ?_
        exact h.apart g f m hm m' hm' he.symm
      exact ⟨fun ho => ⟨(hj.opened ho).1, hq.trans (hj.opened ho).2⟩, hj.closed⟩
  · obtain ⟨hv, hkeep⟩ := t.analyzers i v hv
    obtain ⟨g, m, hm, hi, ho⟩ := h.owned i v hv
    by_cases hg : g = f
    · rw [hg] at hm
      exact ⟨f, hkeep m hm hi ho⟩
    · rw [← hf g hg] at hm
      exact ⟨g, m, hm, hi, ho⟩
  · obtain ⟨m₀, hm₀, he₀⟩ := hmem g m hm
    obtain ⟨m₁, hm₁, he₁⟩ := hmem g' m' hm'
    exact h.apart g g' m₀ hm₀ m₁ hm₁ (he₀.trans (he.trans he₁.symm))

/-- Isolation is a matter of stamps and analyzers. -/
theorem of_stamps (h : s.Isolated G) (hm : ∀ g, (s'.family g).stamps = (s.family g).stamps)
    (hq : s'.quality = s.quality) : s'.Isolated G := by
  refine h.tapers (f := []) (fun g _ => hm g) ?_
  rw [hm, hq]
  exact .refl _ _

/-- **A call is opened**, with no frames. -/
theorem push (h : s.Isolated G) {f : Bytes} {n : ℕ} (hn : ∀ g, ∀ m ∈ (s.family g).stamps, m.id ≤ n)
    (hf : ∀ g, g ≠ f → (s'.family g).stamps = (s.family g).stamps)
    (hm : (s'.family f).stamps = (s.family f).stamps ++ [⟨n + 1, true, {}⟩])
    (hq : s'.quality = s.quality) :
    s'.Isolated (Function.update G (n + 1) []) := by
  have hmem : ∀ g, ∀ m ∈ (s'.family g).stamps,
      m ∈ (s.family g).stamps ∨ g = f ∧ m = ⟨n + 1, true, {}⟩ := by
    intro g m hm'
    by_cases hg : g = f
    · rw [hg, hm, List.mem_append, List.mem_singleton] at hm'
      rcases hm' with hm' | hm'
      · exact Or.inl (hg ▸ hm')
      · exact Or.inr ⟨hg, hm'⟩
    · rw [hf g hg] at hm'
      exact Or.inl hm'
  have hkept : ∀ g, ∀ m ∈ (s.family g).stamps, m ∈ (s'.family g).stamps := by
    intro g m hm'
    by_cases hg : g = f
    · rw [hg, hm]
      exact List.mem_append_left _ (hg ▸ hm')
    · rwa [hf g hg]
  refine ⟨fun g m hm' => ?_, fun i v hv => ?_, fun g g' m hm₁ m' hm₂ he => ?_⟩
  · rcases hmem g m hm' with hm' | ⟨-, rfl⟩
    · have hne : m.id ≠ n + 1 := fun he => by
        have := hn g m hm'
        omega
      have hj := h.judged g m hm'
      refine ⟨fun ho => ?_, fun ho => ?_⟩
      · rw [Function.update_of_ne hne, hq]
        exact hj.opened ho
      · rw [Function.update_of_ne hne]
        exact hj.closed ho
    · refine ⟨fun _ => ⟨rfl, ?_⟩, fun ho => absurd ho (by simp)⟩
      have hnone : s.quality.find? (n + 1) = none := by
        refine Option.eq_none_iff_forall_ne_some.2 fun v hv => ?_
        obtain ⟨g, m, hm', hi, -⟩ := h.owned _ v hv
        have := hn g m hm'
        omega
      rw [hq, Function.update_self]
      exact hnone
  · obtain ⟨g, m, hm', hi, ho⟩ := h.owned i v (hq ▸ hv)
    exact ⟨g, m, hkept g m hm', hi, ho⟩
  · rcases hmem g m hm₁ with h₁ | ⟨rfl, rfl⟩
    · rcases hmem g' m' hm₂ with h₂ | ⟨rfl, rfl⟩
      · exact h.apart g g' m h₁ m' h₂ he
      · have := hn g m h₁
        change m.id = n + 1 at he
        omega
    · rcases hmem g' m' hm₂ with h₂ | ⟨rfl, rfl⟩
      · have := hn g' m' h₂
        change n + 1 = m'.id at he
        omega
      · rfl

/-- **A frame is fed** to the analyzer of an open call. -/
theorem feed (h : s.Isolated G) {f : Bytes} {id : ℕ} (hid : ∃ m ∈ (s.family f).stamps, m.id = id)
    (ho : ∀ m ∈ (s.family f).stamps, m.id = id → m.isOpen = true) (fr : VoiceFrame)
    (hm : ∀ g, (s'.family g).stamps = (s.family g).stamps)
    (hq : s'.quality = s.quality.insert id ((s.quality.getD id {}).feedFrame fr.1 fr.2)) :
    s'.Isolated (Function.update G id (G id ++ [fr])) := by
  obtain ⟨m₀, hm₀, hi₀⟩ := hid
  refine ⟨fun g m hm' => ?_, fun i v hv => ?_, fun g g' m hm₁ m' hm₂ he => ?_⟩
  · rw [hm] at hm'
    have hj := h.judged g m hm'
    by_cases hi : m.id = id
    · have hg : g = f := h.apart g f m hm' m₀ hm₀ (hi.trans hi₀.symm)
      have hmo := ho m (hg ▸ hm') hi
      refine ⟨fun _ => ⟨(hj.opened hmo).1, ?_⟩,
        fun hc => absurd (hc.symm.trans hmo) Bool.false_ne_true⟩
      rw [hq, hi, SortedMap.find?_insert_self, Function.update_self, SortedMap.getD, ← hi,
        (hj.opened hmo).2]
      exact analyzer_append _ fr
    · refine ⟨fun hmo => ?_, fun hmo => ?_⟩
      · rw [hq, SortedMap.find?_insert_ne _ _ hi, Function.update_of_ne hi]
        exact hj.opened hmo
      · rw [Function.update_of_ne hi]
        exact hj.closed hmo
  · rw [hq, SortedMap.find?_insert] at hv
    split_ifs at hv with hi
    · exact ⟨f, m₀, (hm f).symm ▸ hm₀, hi₀.trans hi.symm, ho m₀ hm₀ hi₀⟩
    · obtain ⟨g, m, hm', hmi, hmo⟩ := h.owned i v hv
      exact ⟨g, m, (hm g).symm ▸ hm', hmi, hmo⟩
  · rw [hm] at hm₁ hm₂
    exact h.apart g g' m hm₁ m' hm₂ he

/-- **What is shown is made of the call's frames.** -/
theorem shown (h : s.Isolated G) {f : Bytes} {k : Call} (hk : k ∈ (s.family f).calls) :
    s.shownQuality k = (ofFrames (G k.id)).summary := by
  have hj := h.judged f k.stamp (List.mem_map_of_mem hk)
  rw [shownQuality]
  split_ifs with ho
  · obtain ⟨hq, hv⟩ := hj.opened ho
    have hq : k.qual = {} := hq
    have hv : s.quality.find? k.id = analyzer (G k.id) := hv
    rw [hq, hv]
    exact verdict_analyzer _
  · exact hj.closed (Bool.eq_false_iff.2 ho)

end Isolated

/-! ## Every input

Inputs other than events end calls, and leave the frames that were noted. -/

/-- A family's calls end, or go, on a desk of its own. -/
theorem Isolated.putDesk (h : s.Isolated G) {f : Bytes} {w : FamilyState} (hn : w.name = f)
    (t : (s.desk f).Tapers w) : (s.putDesk w).Isolated G := by
  have hfam : ∀ g, (s.putDesk w).family g = if g = f then w.fam else s.family g := fun g => by
    rw [← hn]
    exact family_insert s.fams w.name g w.fam
  refine h.tapers (f := f) (fun g hg => by rw [hfam, if_neg hg]) ?_
  rw [hfam, if_pos rfl]
  exact t

/-- The calls of a stream end, each with its own verdict. -/
theorem Isolated.closeSessionCalls (h : s.Isolated G) (hi : s.Inv L) (sid : ℕ) :
    (s.closeSessionCalls L sid).Isolated G := by
  rw [AssocModel.closeSessionCalls]
  split
  · exact h
  · next c _ =>
    split_ifs
    · exact h.putDesk (name_closeSessionCalls L (s.desk c.family) sid)
        (FamilyState.tapers_closeSessionCalls (w := s.desk c.family) (hi.fam c.family).kept.ids sid)
    · exact h

theorem Isolated.aside (h : s.Isolated G) (ha : Aside Call.stamp s s') : s'.Isolated G :=
  h.of_stamps ha.calls ha.quality

theorem Isolated.pruneSession (h : s.Isolated G) (sid : ℕ) (retune : Bool) :
    (s.pruneSession sid retune).Isolated G := h.aside (aside_pruneSession s sid retune)

/-- A stream ends, and its networks are pruned. -/
theorem Isolated.wrapUp (h : s.Isolated G) (hi : s.Inv L) (sid : ℕ) (line : Bytes) (retune : Bool) :
    (((s.record line).closeSessionCalls L sid).pruneSession sid retune).Isolated G := by
  have h₁ : (s.record line).Isolated G := h.of_stamps (fun _ => rfl) rfl
  have hi₁ : (s.record line).Inv L := hi.congr rfl rfl
  exact (h₁.closeSessionCalls hi₁ sid).pruneSession sid retune

/-- What an event says of the network of its stream does not touch the calls. -/
theorem Isolated.identify (h : s.Isolated G) (sid : ℕ) (r : Reading) (now : ℤ) :
    (s.identify L sid r now).Isolated G := h.aside (aside_identify (fun _ _ => rfl) s sid r now)

/-! ### Events

The new frame is noted for the call the event was placed in and fed to that call's analyzer; all
others are left alone on both sides.  Joining two calls drops the analyzer of the one that goes. -/

/-- The stamps after work on one family. -/
theorem stamps_putStream (s : AssocModel) {sid : ℕ} {st : StreamState}
    (hn : st.name = (s.ctx sid).family) (g : Bytes) : ((s.putStream sid st).family g).stamps =
      if g = (s.ctx sid).family then st.fam.stamps else (s.family g).stamps := by
  have hfam : (s.putStream sid st).family g =
      if g = (s.ctx sid).family then st.fam else s.family g := by
    rw [← hn]
    exact family_insert s.fams st.name g st.fam
  rw [hfam]
  split_ifs <;> rfl

section

variable {sid : ℕ} {r : Reading} {now : ℤ}

/-- A new call is the first of its number, and has no frames yet. -/
theorem Isolated.opened (h : s.Isolated G) (hi : s.Inv L) {st st₂ : StreamState}
    (hw : Works L (s.stream sid) st) (ht : (s.stream sid).toFamilyState.Tapers st₂.toFamilyState)
    (hstamps : st.fam.stamps = st₂.fam.stamps ++ [⟨s.nextCall + 1, true, {}⟩])
    (hq : st.quality = st₂.quality) :
    (s.putStream sid st).Isolated (Function.update G (s.nextCall + 1) []) := by
  have hname : st.name = (s.ctx sid).family := name_of_edits (hw.edits (hi.fam _).spot)
  set w := { st₂.toFamilyState with name := (s.ctx sid).family }
  have h₁ : (s.putDesk w).Isolated G := h.putDesk rfl ht
  have hfam : ∀ g, (s.putDesk w).family g = if g = (s.ctx sid).family then
      st₂.fam else s.family g := fun g =>
    family_insert s.fams w.name g w.fam
  refine h₁.push (f := (s.ctx sid).family) (fun g m hm => ?_) (fun g hg => ?_) ?_ hq
  · rw [hfam] at hm
    have hold : ∃ m₀ ∈ (s.family g).stamps, m₀.id = m.id := by
      split_ifs at hm with hg
      · rw [hg]
        exact Tapers.id_mem ht hm
      · exact ⟨m, hm, rfl⟩
    obtain ⟨m₀, hm₀, he⟩ := hold
    rw [← he]
    refine (hi.fam g).below m₀.id ?_
    rw [FamilyState.callIds_eq_stamps]
    exact List.mem_map_of_mem hm₀
  · rw [stamps_putStream s hname, if_neg hg, hfam, if_neg hg]
  · rw [stamps_putStream s hname, if_pos rfl, hfam, if_pos rfl, hstamps]

/-- **A call is found, or opened**: only a new one starts over. -/
theorem Isolated.placed (h : s.Isolated G) (hi : s.Inv L) :
    let p := ((s.stream sid).expire L now).placed L sid r now
    (s.putStream sid p.1).Isolated
      (p.2.elim G fun id => if s.nextCall < id then Function.update G id [] else G) := by
  intro p
  have hspot : Spot (s.stream sid).spot := (hi.fam _).spot
  obtain ⟨ht₁, hnd₁, hn₁⟩ := StreamState.tapers_expire (L := L) hspot.kept.ids now
  have hw : Works L (s.stream sid) p.1 :=
    (StreamState.works_expire L (s.stream sid) now).trans (StreamState.works_placed _ sid r now)
  have hname : p.1.name = (s.ctx sid).family := name_of_edits (hw.edits hspot)
  have hplace : StreamState.Places ((s.stream sid).expire L now) p.1 p.2 :=
    StreamState.places_placed hnd₁ sid r now
  rcases hplace.found with ⟨hn, ht⟩ | ⟨st₂, ht, hstamps, hq, hn, hid⟩
  · have hsame :
        (p.2.elim G fun id => if s.nextCall < id then Function.update G id [] else G) = G := by
      rcases ho : p.2 with _ | id
      · rfl
      · obtain ⟨k, hk, -⟩ := StreamState.opened_placed ho
        have hle : id ≤ p.1.nextCall := (hspot.edits (hw.edits hspot)).below id
          ((Family.findCall_some hk).2 ▸ List.mem_map_of_mem (Family.findCall_some hk).1)
        rw [hn, hn₁] at hle
        exact if_neg (not_lt.2 hle)
    rw [hsame]
    refine h.tapers (f := (s.ctx sid).family) (fun g hg => ?_) ?_
    · rw [stamps_putStream s hname, if_neg hg]
    · rw [stamps_putStream s hname, if_pos rfl]
      exact ht₁.trans ht
  · rw [show ((s.stream sid).expire L now).nextCall = s.nextCall from hn₁] at hstamps hid
    rw [hid, Option.elim_some, if_pos (Nat.lt_succ_self _)]
    exact h.opened hi hw (ht₁.trans ht) hstamps hq

/-- A voice frame of the event is its call's. -/
theorem Isolated.folded (hi : s.Inv L) {st : StreamState} {id : ℕ}
    (h : (s.putStream sid st).Isolated G) (hw : Works L (s.stream sid) st)
    (hw' : Works L (s.stream sid) (st.foldEvent L s.qualityOn r id now))
    (hopen : st.fam.Opened id) :
    (s.putStream sid (st.foldEvent L s.qualityOn r id now)).Isolated
      (if 0 ≤ r.ev.voiceErr ∧ s.qualityOn ∧ qualityAmbe2Family st.ctx.family then
        Function.update G id (G id ++ [(r.ev.voiceFrame, r.ev.voiceErr)])
      else G) := by
  have hspot : Spot (s.stream sid).spot := (hi.fam _).spot
  have hids : st.fam.callIds.Nodup := (hspot.edits (hw.edits hspot)).kept.ids
  have hname : st.name = (s.ctx sid).family := name_of_edits (hw.edits hspot)
  obtain ⟨k, hk, hko⟩ := hopen
  obtain ⟨hstamps, hq⟩ := StreamState.stamps_folded (L := L) s.qualityOn r hk now
  set st₃ := st.folded L s.qualityOn r id now
  set w₃ := { st₃.toFamilyState with name := (s.ctx sid).family }
  have hfam₃ : ∀ g, (s.putDesk w₃).family g = if g = (s.ctx sid).family then
      st₃.fam else s.family g := fun g =>
    family_insert s.fams w₃.name g w₃.fam
  have hsame : ∀ g, ((s.putDesk w₃).family g).stamps = ((s.putStream sid st).family g).stamps := by
    intro g
    rw [hfam₃, stamps_putStream s hname]
    split_ifs
    · exact hstamps
    · rfl
  have hnd₃ : st₃.fam.callIds.Nodup := by
    rw [FamilyState.callIds_eq_stamps, hstamps, ← FamilyState.callIds_eq_stamps]
    exact hids
  rw [StreamState.foldEvent_eq] at hw' ⊢
  have hname' : (st₃.countOrJoin L id r.slot now).name = (s.ctx sid).family :=
    name_of_edits (hw'.edits hspot)
  -- after the frame, the counting only tapers
  have hlast : ∀ G', (s.putDesk w₃).Isolated G' →
      (s.putStream sid (st₃.countOrJoin L id r.slot now)).Isolated G' := by
    intro G' h₃
    have ht := StreamState.tapers_countOrJoin (L := L) hnd₃ id r.slot now
    refine h₃.tapers (f := (s.ctx sid).family) (fun g hg => ?_) ?_
    · rw [stamps_putStream s hname', if_neg hg, hfam₃, if_neg hg]
    · rw [stamps_putStream s hname', if_pos rfl, hfam₃, if_pos rfl]
      exact ht
  refine hlast _ ?_
  rw [StreamState.feedQuality] at hq
  split_ifs at hq ⊢ with hg
  · refine h.feed (f := (s.ctx sid).family) ⟨k.stamp, ?_, (Family.findCall_some hk).2⟩ ?_
      (r.ev.voiceFrame, r.ev.voiceErr) hsame hq
    · rw [stamps_putStream s hname, if_pos rfl]
      exact List.mem_map_of_mem (Family.findCall_some hk).1
    · intro m hm hmi
      rw [stamps_putStream s hname, if_pos rfl] at hm
      rw [FamilyState.of_mem_stamps hids hk hm hmi]
      exact hko
  · exact h.of_stamps hsame hq

end

/-- **An event is folded into its call**, which is found or opened: the call's frames are one more,
if it carries one. -/
theorem Isolated.handle (h : s.Isolated G) (hi : s.Inv L) (sid : ℕ) (r : Reading) (now : ℤ) :
    let p := ((s.stream sid).expire L now).placed L sid r now
    let s' := s.putStream sid (((s.stream sid).expire L now).handle L s.qualityOn sid r now)
    s'.Isolated (p.2.elim G fun id =>
      let G := if s.nextCall < id then Function.update G id [] else G
      if 0 ≤ r.ev.voiceErr ∧ s.qualityOn ∧ qualityAmbe2Family p.1.ctx.family then
        Function.update G id (G id ++ [(r.ev.voiceFrame, r.ev.voiceErr)])
      else G) := by
  intro p s'
  have hplaced : (s.putStream sid p.1).Isolated
      (p.2.elim G fun id => if s.nextCall < id then Function.update G id [] else G) := h.placed hi
  have hexpire := StreamState.works_expire L (s.stream sid) now
  have hw : Works L (s.stream sid) p.1 := hexpire.trans (StreamState.works_placed _ sid r now)
  have hw' :
      Works L (s.stream sid) (((s.stream sid).expire L now).handle L s.qualityOn sid r now) :=
    hexpire.trans (StreamState.works_handle L s.qualityOn _ sid r now)
  have heq : ((s.stream sid).expire L now).handle L s.qualityOn sid r now = p.2.elim p.1 fun id =>
      p.1.foldEvent L s.qualityOn r id now := StreamState.handle_eq L s.qualityOn _ sid r now
  have hs' : s' = s.putStream sid (((s.stream sid).expire L now).handle L s.qualityOn sid r now) :=
    rfl
  rw [hs', heq]
  rw [heq] at hw'
  rcases ho : p.2 with _ | id
  · rw [ho] at hplaced
    exact hplaced
  · rw [ho] at hplaced hw'
    exact hplaced.folded hi hw hw' (StreamState.opened_placed ho)

/-- What an event says of its network is no setting. -/
theorem settings_identify (s : AssocModel) (sid : ℕ) (r : Reading) (now : ℤ) :
    (s.identify L sid r now).nextCall = s.nextCall ∧
      (s.identify L sid r now).qualityOn = s.qualityOn := by
  have hnote : ∀ (s : AssocModel) (site : Bytes), (s.noteNeighbour sid site).nextCall = s.nextCall ∧
      (s.noteNeighbour sid site).qualityOn = s.qualityOn := by
    intro s site
    rw [noteNeighbour]
    split_ifs <;> exact ⟨rfl, rfl⟩
  have hresolve : ∀ s : AssocModel, (s.resolveNetwork L sid now).nextCall = s.nextCall ∧
      (s.resolveNetwork L sid now).qualityOn = s.qualityOn := by
    intro s
    rw [AssocModel.resolveNetwork]
    split_ifs
    · rw [AssocModel.mergeNetwork]
      dsimp only
      split_ifs <;> exact ⟨rfl, rfl⟩
    · exact ⟨rfl, rfl⟩
  rw [AssocModel.identify]
  set f := (s.ctx sid).family
  set s₁ := (s.setFamily f (s.family f)).bumpVersion
  set a := absorbIdentity (s₁.ctx sid) r
  set s₂ := (s₁.setCtx sid a.ctx).noteNeighbour sid a.neighbour
  have h₂ : s₂.nextCall = s.nextCall ∧ s₂.qualityOn = s.qualityOn := hnote (s₁.setCtx sid a.ctx) _
  split_ifs
  · exact ⟨(hresolve s₂).1.trans h₂.1, (hresolve s₂).2.trans h₂.2⟩
  · exact h₂

/-- **Every event** leaves the analyzers with their calls. -/
theorem Isolated.ingest (h : s.Isolated G) (hi : s.Inv L) (sid : ℕ) (ev : DsdEvent) (now : ℤ) :
    (s.ingest L sid ev now).Isolated (s.noteFrames L G (.event sid ev now)) := by
  have h₁ : (s.record (assoclog.eventLine now sid ev)).Isolated G := h.of_stamps (fun _ => rfl) rfl
  have hi₁ : (s.record (assoclog.eventLine now sid ev)).Inv L := hi.congr rfl rfl
  rw [AssocModel.ingest, noteFrames, placing]
  dsimp only
  set s₁ := s.record (assoclog.eventLine now sid ev)
  obtain ⟨o, hc⟩ : ∃ o, s₁.sess.find? sid = o := ⟨_, rfl⟩
  rw [hc]
  rcases o with _ | c
  · exact h₁
  dsimp only
  have h₂ : (s₁.setCtx sid (c.gate (.ofEvent ev) now).1).Isolated G :=
    h₁.of_stamps (fun _ => rfl) rfl
  have hi₂ : (s₁.setCtx sid (c.gate (.ofEvent ev) now).1).Inv L := hi₁.congr rfl rfl
  split_ifs
  · set s₃ := (s₁.setCtx sid (c.gate (.ofEvent ev) now).1).identify L sid (.ofEvent ev) now
    have h₃ : s₃.Isolated G := h₂.identify sid (.ofEvent ev) now
    have hi₃ : s₃.Inv L := (hi₂.identify sid (.ofEvent ev) now).1
    obtain ⟨hn₃, hq₃⟩ : s₃.nextCall = s.nextCall ∧ s₃.qualityOn = s.qualityOn :=
      settings_identify (s₁.setCtx sid (c.gate (.ofEvent ev) now).1) sid (.ofEvent ev) now
    have hh := h₃.handle hi₃ sid (.ofEvent ev) now
    rw [hn₃, hq₃] at hh
    rw [hq₃]
    obtain ⟨p, hp⟩ : ∃ p, ((s₃.stream sid).expire L now).placed L sid (.ofEvent ev) now =
        p := ⟨_, rfl⟩
    rw [hp] at hh ⊢
    obtain ⟨st, _ | id⟩ := p
    · exact hh
    · exact hh
  · exact h₂

/-! ### Audio

Audio is kept in other tables than quality.  The helpers of the audio path are gone through once
more to say so. -/

section Audio

theorem Family.Settled.stamps_eq {F F' : Family} (h : F.Settled F') : F'.stamps = F.stamps := by
  induction h with
  | refl => rfl
  | tail _ hs ih =>
    obtain ⟨g, id, hg, rfl⟩ := hs
    exact (FamilyState.stamps_settles _ id hg).trans ih

theorem Isolated.settled (h : s.Isolated G) (hs : Settled s s') (hq : s'.quality = s.quality) :
    s'.Isolated G := h.of_stamps (fun g => Family.Settled.stamps_eq (hs.fam g)) hq

variable (s : AssocModel) (sid : ℕ) (now : ℤ)

theorem quality_setKeep (id : ℕ) (on : Bool) :
    (s.onDesk sid fun w => w.setKeep id on now).quality = s.quality :=
  FamilyState.quality_setKeep (s.desk (s.ctx sid).family) id on now

theorem quality_refuse (k : Call) : (s.refuse sid k now).quality = s.quality := by
  rw [refuse]
  refine (quality_setKeep _ sid now k.id false).trans ?_
  split_ifs <;> rfl

/-- Recordings that the store has evicted. -/
theorem quality_reconcileEvicted : (s.reconcileEvicted now).quality = s.quality := by
  have hdrop : ∀ (s : AssocModel) (name : Bytes), (dropEvicted now s name).quality = s.quality := by
    intro s name
    rw [dropEvicted]
    split
    · rfl
    · exact FamilyState.quality_setKeep _ _ _ _
  have hfold : ∀ (l : List Bytes) (s : AssocModel), (l.foldl (dropEvicted now) s).quality =
      s.quality := by
    intro l
    induction l with
    | nil => exact fun _ => rfl
    | cons n l ih => exact fun s => (ih _).trans (hdrop s n)
  rw [reconcileEvicted]
  dsimp only
  split_ifs
  · rfl
  · exact hfold _ _
  · exact hfold _ _

theorem quality_appendBlock (id : ℕ) (name : Bytes) (pcm : List Sample) :
    (s.appendBlock sid id name pcm now).quality = s.quality :=
  quality_reconcileEvicted (s.pour sid id name pcm now) now

theorem quality_openRecording (k : Call) (slot : ℤ) (store : CallAudioStore) (name : Bytes)
    (held : List Preroll) :
    (s.openRecording sid k slot store name held now).quality = s.quality := by
  have hfold : ∀ (l : List Preroll) (s : AssocModel),
      (l.foldl (fun s h => s.pour sid k.id name h.pcm now) s).quality = s.quality := by
    intro l
    induction l with
    | nil => exact fun _ => rfl
    | cons h l ih => exact fun s => (ih _).trans rfl
  rw [openRecording]
  exact (hfold _ _).trans (quality_setKeep _ sid now k.id true)

theorem quality_storeBlock (k : Call) (slot : ℤ) (pcm : List Sample) (creatable : Bool) :
    (s.storeBlock sid k slot pcm creatable now).quality = s.quality := by
  rw [storeBlock]
  dsimp only
  split_ifs
  · rfl
  · split
    · rfl
    · exact (quality_appendBlock ..).trans (quality_openRecording ..)
  · rfl
  · exact quality_appendBlock ..
  · exact quality_appendBlock ..

/-- A block that passes the gate or waits. -/
theorem quality_gateBlock (k : Call) (slot : ℤ) (pcm : List Sample) (keyed creatable : Bool) :
    (s.gateBlock sid k slot pcm keyed creatable now).quality = s.quality := by
  rw [gateBlock]
  dsimp only
  split_ifs
  · rfl
  · exact quality_refuse ..
  · exact quality_storeBlock ..
  · exact quality_storeBlock ..

/-- Audio is no concern of the analyzers. -/
theorem quality_audio (slot : ℤ) (pcm : List ℤ) (keyed creatable : Bool) :
    (s.audio sid slot pcm keyed creatable now).quality = s.quality := by
  have hroute : ∀ pcm, (s.routeBlock sid slot pcm keyed creatable now).quality = s.quality := by
    intro pcm
    rw [routeBlock]
    split
    · split_ifs <;> rfl
    · split_ifs
      · rfl
      · split
        · rfl
        · exact quality_gateBlock ..
      · exact quality_gateBlock ..
  rw [audio]
  split
  · rfl
  split
  · rfl
  split
  · rfl
  · exact hroute _

theorem quality_startAudio (listing : List AudioEntry) (cap : ℕ) (maxAge : ℤ) :
    (s.startAudio listing cap maxAge now).quality = s.quality := by
  rw [startAudio]
  split_ifs
  · rfl
  · exact quality_reconcileEvicted _ now

end Audio

/-! ### Clearing

Clearing drops the calls and starts their ids over, but leaves the analyzers.  One that is left
would then be under the id of another call, which is what the condition excludes. -/

/-- No call in progress has an analyzer. -/
def NoneJudged (s : AssocModel) : Prop :=
  ∀ f ∈ s.fams.keys, ∀ k ∈ (s.family f).calls, k.isOpen = true → k.id ∉ s.quality

instance (s : AssocModel) : Decidable s.NoneJudged :=
  inferInstanceAs (Decidable (∀ f ∈ s.fams.keys, ∀ k ∈ (s.family f).calls, _))

/-- Then there is no analyzer at all. -/
theorem Isolated.no_analyzer (h : s.Isolated G) (hj : s.NoneJudged) (i : ℕ) :
    s.quality.find? i = none := by
  refine Option.eq_none_iff_forall_ne_some.2 fun v hv => ?_
  obtain ⟨f, m, hm, hi, ho⟩ := h.owned i v hv
  obtain ⟨k, hk, rfl⟩ := List.mem_map.1 hm
  have hf : f ∈ s.fams.keys := by
    by_contra hf
    rw [family, SortedMap.getD_of_not_mem hf] at hk
    exact absurd hk List.not_mem_nil
  have hid : k.id = i := hi
  rw [← hid] at hv
  exact hj f hf k hk ho (SortedMap.mem_of_find? hv)

/-- Without calls and analyzers there is nothing to mix up. -/
theorem isolated_of_blank (hf : s.fams = ∅) (hq : ∀ i, s.quality.find? i = none) :
    s.Isolated G := by
  have hnil : ∀ f, (s.family f).stamps = [] := fun f => by
    rw [family, hf]
    rfl
  refine ⟨fun f m hm => ?_, fun i v hv => ?_, fun f _ m hm => ?_⟩
  · rw [hnil] at hm
    exact absurd hm List.not_mem_nil
  · rw [hq] at hv
    cases hv
  · rw [hnil] at hm
    exact absurd hm List.not_mem_nil

/-! ## Runs -/

end AssocModel

/-- An input, the clearing that deletes the files of the calls as well, or a recording that
starts. -/
inductive Command
  | input (op : Op)
  | clearWithAudio (now : ℤ)
  | startRecording (created : Bool) (maxBytes : ℕ) (clearFirst : Bool) (now : ℤ)

namespace AssocModel

variable {snapshot : AssocModel → ℤ → Bytes} {s : AssocModel} {G : Frames}

/-- The model is cleared, and its audio removed. -/
def clearWithAudio (s : AssocModel) (now : ℤ) : AssocModel :=
  let s := (s.clear now).bumpVersion
  { s with store := s.store.removeAll }

/-- A command; a recording begins with what `snapshot` shows. -/
def command (snapshot : AssocModel → ℤ → Bytes) (s : AssocModel) : Command → AssocModel
  | .input op => s.step op
  | .clearWithAudio now => s.clearWithAudio now
  | .startRecording created maxBytes clearFirst now =>
    s.startRecording snapshot created maxBytes clearFirst now

/-- The frames of the calls after a command. -/
def framesAfter (s : AssocModel) (G : Frames) : Command → Frames
  | .input op => s.noteFrames s.limits G op
  | _ => G

/-- **The model is cleared only while no call in progress has an analyzer.** -/
def ClearsIdle (s : AssocModel) : Command → Prop
  | .input (.clear _) => s.NoneJudged
  | .clearWithAudio _ => s.NoneJudged
  | .startRecording _ _ clearFirst _ => clearFirst = true ∧ s.log.on = false → s.NoneJudged
  | _ => True

/-- **The states a model reaches**, with the frames of each call since it was opened, by commands of
which `ok` holds. -/
inductive Fed (snapshot : AssocModel → ℤ → Bytes) (ok : AssocModel → Command → Prop) :
    AssocModel → Frames → Prop
  | start {s : AssocModel} (hf : s.fams = ∅) (hq : s.quality = ∅) : Fed snapshot ok s fun _ => []
  | step {s : AssocModel} {G : Frames} {c : Command} (h : Fed snapshot ok s G) (hc : ok s c) :
      Fed snapshot ok (s.command snapshot c) (s.framesAfter G c)

/-- **Clearing keeps isolation when no call in progress has an analyzer.** -/
theorem Isolated.cleared (h : s.Isolated G) (hj : s.NoneJudged) (now : ℤ) :
    (s.clearLocked now).Isolated G := isolated_of_blank rfl (h.no_analyzer hj)

/-- What starting to record does besides clearing is writing. -/
theorem fams_startRecording (snapshot : AssocModel → ℤ → Bytes) (s : AssocModel) (created : Bool)
    (maxBytes : ℕ) (clearFirst : Bool) (now : ℤ) :
    let s' := if clearFirst = true ∧ s.log.on = false then s.clearLocked now else s
    let t := s.startRecording snapshot created maxBytes clearFirst now
    t.fams = s'.fams ∧ t.quality = s'.quality ∧ t.nextCall = s'.nextCall := by
  have hfold : ∀ (l : List (ℕ × Ctx)) (s : AssocModel),
      (l.foldl (recordResumed now) s).fams = s.fams ∧
      (l.foldl (recordResumed now) s).quality = s.quality ∧
      (l.foldl (recordResumed now) s).nextCall = s.nextCall := by
    intro l
    induction l with
    | nil => exact fun _ => ⟨rfl, rfl, rfl⟩
    | cons e l ih =>
      intro s
      have hone : (recordResumed now s e).fams = s.fams ∧
          (recordResumed now s e).quality = s.quality ∧
          (recordResumed now s e).nextCall = s.nextCall := by
        rw [recordResumed]
        split_ifs <;> exact ⟨rfl, rfl, rfl⟩
      obtain ⟨h₁, h₂, h₃⟩ := ih (recordResumed now s e)
      exact ⟨h₁.trans hone.1, h₂.trans hone.2.1, h₃.trans hone.2.2⟩
  intro s' t
  by_cases hon : s.log.on = true
  · have hs' : s' = s := if_neg fun h => Bool.false_ne_true (h.2.symm.trans hon)
    have ht : t = s := if_pos hon
    rw [hs', ht]
    exact ⟨rfl, rfl, rfl⟩
  · have hs' : s' = if clearFirst = true then s.clearLocked now else s := by
      simp [s', Bool.eq_false_iff.2 hon]
    simp only [t, startRecording]
    rw [if_neg hon, ← hs']
    cases created
    · exact ⟨rfl, rfl, rfl⟩
    · exact hfold _ _

/-- **Every command but an untimely clearing** leaves the analyzers with their calls. -/
theorem Isolated.command {L : Limits} (hL : L = s.limits) (h : s.Isolated G) (hi : s.Inv L)
    {c : Command} (hc : s.ClearsIdle c) : (s.command snapshot c).Isolated (s.framesAfter G c) := by
  subst hL
  cases c with
  | clearWithAudio now => exact (h.cleared hc now).of_stamps (fun _ => rfl) rfl
  | startRecording created maxBytes clearFirst now =>
    obtain ⟨hf, hq, -⟩ := fams_startRecording snapshot s created maxBytes clearFirst now
    have hstart :
        (if clearFirst = true ∧ s.log.on = false then s.clearLocked now else s).Isolated G := by
      split_ifs with hcl
      · exact h.cleared (hc hcl) now
      · exact h
    refine hstart.of_stamps (fun g => ?_) hq
    rw [family, AssocModel.command, hf]
    rfl
  | input op =>
    cases op with
    | begin sid label now family freq =>
      exact (h.wrapUp hi sid _ false).of_stamps (fun _ => rfl) rfl
    | retune sid freq now =>
      rw [AssocModel.command, step, stepWith, retuneStream]
      split
      · exact h
      · split_ifs
        · exact h
        · exact (h.wrapUp hi sid _ true).of_stamps (fun _ => rfl) rfl
    | event sid ev now => exact h.ingest hi sid ev now
    | audio sid slot pcm keyed creatable now =>
      exact h.settled (s.settled_audio sid slot pcm keyed creatable now)
        (quality_audio s sid now slot pcm keyed creatable)
    | finish sid now =>
      have h₁ : (s.record (assoclog.endLine now sid)).Isolated G := h.of_stamps (fun _ => rfl) rfl
      have h₂ := h₁.closeSessionCalls (L := s.limits) (hi.congr rfl rfl) sid
      set s₂ := (s.record (assoclog.endLine now sid)).closeSessionCalls s.limits sid
      have h₃ : ({ s₂ with sess := s₂.sess.modify sid Ctx.stop } : AssocModel).Isolated G :=
        h₂.of_stamps (fun _ => rfl) rfl
      exact (h₃.pruneSession sid false).of_stamps (fun _ => rfl) rfl
    | remove sid now => exact (h.wrapUp hi sid _ false).of_stamps (fun _ => rfl) rfl
    | clear now => exact (h.cleared hc now).of_stamps (fun _ => rfl) rfl
    | startAudio listing cap maxAge now =>
      exact h.settled (s.settled_startAudio listing cap maxAge now)
        (quality_startAudio s now listing cap maxAge)
    | stopAudio => exact h.of_stamps (fun _ => rfl) rfl

/-- **Isolation along a run of commands.** -/
theorem Fed.isolated (h : Fed snapshot ClearsIdle s G) :
    (∀ n, s.Inv (.standard n)) ∧ s.Isolated G := by
  induction h with
  | start hf hq =>
    refine ⟨fun n => .blank hf _, isolated_of_blank hf fun i => ?_⟩
    rw [hq]
    rfl
  | @step s G c h hc ih =>
    refine ⟨fun n => ?_, ih.2.command rfl (ih.1 s.maxCalls) hc⟩
    cases c with
    | input op => exact ((ih.1 s.maxCalls).step op).standard n
    | clearWithAudio now => exact Inv.congr (s := s.clear now) (.clear now) rfl rfl
    | startRecording created maxBytes clearFirst now =>
      obtain ⟨hf, -, hn⟩ := fams_startRecording snapshot s created maxBytes clearFirst now
      have hstart : (if clearFirst = true ∧ s.log.on = false then s.clearLocked now else s).Inv
          (.standard n) := by
        split_ifs
        · exact Inv.congr (s := s.clear now) (.clear now) rfl rfl
        · exact ih.1 n
      exact hstart.congr hf hn

/-- **A call's voice quality is its own**: in every state reached without clearing the model while a
call in progress has an analyzer, the summary shown for a call is that of the voice frames of the
events folded into it since it was opened. -/
theorem quality_isolated (h : Fed snapshot ClearsIdle s G) : ∀ f, ∀ k ∈ (s.family f).calls,
    s.shownQuality k = (ofFrames (G k.id)).summary := fun _ _ hk => h.isolated.2.shown hk

/-- A run without snapshots, with the frames of its calls. -/
def runFed (cs : List Command) : AssocModel × Frames :=
  cs.foldl (fun a c => (a.1.command (fun _ _ => []) c, a.1.framesAfter a.2 c)) ({}, fun _ => [])

/-- Along a run, `ok` holds of every command. -/
def AlongCommands (ok : AssocModel → Command → Prop) : AssocModel → List Command → Prop
  | _, [] => True
  | s, c :: cs => ok s c ∧ AlongCommands ok (s.command (fun _ _ => []) c) cs

instance decidableAlongCommands (ok : AssocModel → Command → Prop) [∀ s c, Decidable (ok s c)] :
    ∀ (s : AssocModel) (cs : List Command), Decidable (AlongCommands ok s cs)
  | _, [] => isTrue trivial
  | s, c :: cs =>
    have := decidableAlongCommands ok (s.command (fun _ _ => []) c) cs
    inferInstanceAs (Decidable (_ ∧ _))

instance (s : AssocModel) : ∀ c, Decidable (s.ClearsIdle c)
  | .clearWithAudio _ => inferInstanceAs (Decidable s.NoneJudged)
  | .startRecording .. => inferInstanceAs (Decidable (_ → s.NoneJudged))
  | .input (.clear _) => inferInstanceAs (Decidable s.NoneJudged)
  | .input (.begin ..) => isTrue trivial
  | .input (.retune ..) => isTrue trivial
  | .input (.event ..) => isTrue trivial
  | .input (.audio ..) => isTrue trivial
  | .input (.finish ..) => isTrue trivial
  | .input (.remove ..) => isTrue trivial
  | .input (.startAudio ..) => isTrue trivial
  | .input .stopAudio => isTrue trivial

/-- The frames an observer collects are those of a run. -/
theorem fed_runFed {ok : AssocModel → Command → Prop} {cs : List Command}
    (h : AlongCommands ok {} cs) :
    Fed (fun _ _ => []) ok (runFed cs).1 (runFed cs).2 := by
  have hrun : ∀ (cs : List Command) (s : AssocModel) (G : Frames), Fed (fun _ _ => []) ok s G →
      AlongCommands ok s cs → Fed (fun _ _ => []) ok
        (cs.foldl (fun a c => (a.1.command (fun _ _ => []) c, a.1.framesAfter a.2 c)) (s, G)).1
        (cs.foldl (fun a c => (a.1.command (fun _ _ => []) c, a.1.framesAfter a.2 c))
          (s, G)).2 := by
    intro cs
    induction cs with
    | nil => exact fun _ _ hf _ => hf
    | cons c cs ih => exact fun s G hf ha => ih _ _ (hf.step ha.1) ha.2
  exact hrun cs {} _ (.start rfl rfl) h

/-- A voice frame of a call. -/
def voiceEvent : DsdEvent :=
  { kind := lit "voice", talkgroup := lit "9", sourceId := lit "7", slot := lit "1",
    voiceFrame := 5, voiceErr := 0 }

/-- A call is heard, ends with its stream, and everything is cleared before the next. -/
def calmRun : List Command :=
  [.input (.begin 1 (lit "dmr") 1 [] 100), .input (.event 1 voiceEvent 2), .input (.finish 1 3),
    .input (.clear 4), .input (.begin 1 (lit "dmr") 5 [] 100), .input (.event 1 voiceEvent 6)]

theorem quality_isolated_calmRun :
    ((runFed calmRun).1.family (lit "dmr")).calls.map (runFed calmRun).1.shownQuality =
      ((runFed calmRun).1.family (lit "dmr")).calls.map fun k =>
        (ofFrames ((runFed calmRun).2 k.id)).summary := by
  have halong : AlongCommands ClearsIdle {} calmRun := by decide +kernel
  exact List.map_congr_left fun k hk => quality_isolated (fed_runFed halong) (lit "dmr") k hk

/-- Everything is cleared while the call is on the air. -/
def leakRun : List Command :=
  [.input (.begin 1 (lit "dmr") 1 [] 100), .input (.event 1 voiceEvent 2), .input (.clear 3),
    .input (.event 1 voiceEvent 4)]

/-- **Cleared while it is on the air, a call leaves its analyzer to the next of its id**: of two
frames that are counted, one is the call's. -/
theorem clear_leaks_quality :
    ¬∀ s G, Fed (fun _ _ => []) (fun _ _ => True) s G → ∀ f, ∀ k ∈ (s.family f).calls,
    s.shownQuality k = (ofFrames (G k.id)).summary := by
  intro h
  have hcalls : ∃ k ∈ ((runFed leakRun).1.family (lit "dmr")).calls,
      (runFed leakRun).1.shownQuality k ≠ (ofFrames ((runFed leakRun).2 k.id)).summary := by
    decide +kernel
  obtain ⟨k, hk, hne⟩ := hcalls
  have halong : AlongCommands (fun _ _ => True) {} leakRun :=
    ⟨trivial, trivial, trivial, trivial, trivial⟩
  exact hne (h _ _ (fed_runFed halong) (lit "dmr") k hk)

end AssocModel

end DsdServer
