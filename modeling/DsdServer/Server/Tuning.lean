import DsdServer.Server.Tidy

/-!
# Server/Tuning — what a restart keeps of the tuning

The live setters turn the knobs of the running discriminator and move the explorer's stream; a
restart takes gain and offset from the start.

* `restart_keeps_tuning_iff` — **a restart keeps the tuning exactly when the setters last set what
  the start did.**

A run of messages is reduced to what was last set in it.  The invariant says which start the running
pipeline comes from, and what was set after it; the two sides of the result are then read off, for
the state before the restart and for the one after it.
-/

open Bytes

namespace DsdServer

/-! ## What messages set

The setters change the discriminator that runs and the stream of the explorer.  The parameters of
the last start, which a restart works from, stay as they were. -/

namespace Request

def isStart : Request → Bool
  | .start _ _ => true
  | _ => false

/-- The gain that it sets. -/
def gain? : Request → Option Double
  | .setGain g => some g
  | _ => none

/-- The frequency offset that it sets. -/
def offset? : Request → Option Double
  | .setFreqOffset hz => some hz
  | _ => none

end Request

/-- The gain last set after a start. -/
def StartParams.gainAfter (p : StartParams) (rs : List Request) : Double :=
  (rs.filterMap Request.gain?).getLastD p.gain

/-- The frequency offset last set after a start. -/
def StartParams.offsetAfter (p : StartParams) (rs : List Request) : Double :=
  (rs.filterMap Request.offset?).getLastD p.freqOffset

/-- **The setters leave the start's tuning**: after the last start, the gain and the offset last set
are those of the start. -/
def Untouched (rs : List Request) : Prop :=
  ∃ a center p b, rs = a ++ .start center p :: b ∧ (∀ r ∈ b, r.isStart = false) ∧
    p.gainAfter b = p.gain ∧ p.offsetAfter b = p.freqOffset

/-- The messages that can be read. -/
def requests (ms : List (Bytes × Launch)) : List Request :=
  ms.filterMap fun m => (readRequest m.1).toOption

namespace Server

variable {s s' s'' t : Server} {sid : ℕ}

/-- **The same tuning**: gain and offset of the discriminator, and the stream's channel. -/
def SameTuning (sid : ℕ) (s s' : Server) : Prop :=
  ∃ d d', (s.session sid).demod = some d ∧ (s'.session sid).demod = some d' ∧
    d'.discGain = d.discGain ∧ d'.freqOffset = d.freqOffset ∧
    (s'.explorer.ctx sid).freq = (s.explorer.ctx sid).freq

/-! ## A running FM pipeline

Its discriminator has the gain and the offset last set; its stream has the channel of that offset.
After a restart both have the values of the start. -/

/-- An FM pipeline that runs since a start, after some more messages. -/
structure Tuned (s : Server) (sid : ℕ) (p : StartParams) (b : List Request) : Prop where
  lastStart : (s.session sid).lastStart = some p
  active : (s.session sid).pipelineActive = true
  chain : (s.session sid).chain = .fm
  demod : (s.session sid).demod =
    some { p.fmDemod with discGain := p.gainAfter b, freqOffset := p.offsetAfter b }
  stream : (s.explorer.ctx sid).tuning =
    (true, (s.session sid).channelFreq s.freqStep (p.offsetAfter b))
  hint : p.hint.isTetra = false ∧ p.hint.isPager = false

/-- After a stop no pipeline runs, and the centre frequency is what it was. -/
theorem stopPipeline_session (s : Server) (sid : ℕ) (now : ℤ) :
    ((s.stopPipeline sid now).session sid).pipelineActive = false ∧
      ((s.stopPipeline sid now).session sid).centerFreq = (s.session sid).centerFreq := by
  cases ha : (s.session sid).pipelineActive with
  | false =>
    rw [stopPipeline_of_idle s now ha]
    exact ⟨ha, rfl⟩
  | true =>
    obtain ⟨ports, files, he, -, -⟩ := stopPipeline_of_active s now ha
    have hx : (s.stopPipeline sid now).session sid = (s.session sid).halted := by
      rw [he]
      exact session_setSession_self s sid _
    rw [hx]
    exact ⟨rfl, rfl⟩

/-- An FM start that succeeds gives the discriminator its parameters. -/
theorem startFm_session {p : StartParams} {l : Launch} (hi : (s.session sid).pipelineActive = false)
    (hs : s.startFm sid p l = some s') (ha : (s'.session sid).pipelineActive = true) :
    (s'.session sid).lastStart = some p ∧ (s'.session sid).chain = .fm ∧
      (s'.session sid).demod = some p.fmDemod ∧
      (s'.session sid).centerFreq = (s.session sid).centerFreq ∧ s'.explorer = s.explorer := by
  rw [startFm] at hs
  split_ifs at hs
  · cases hs
    exact absurd (hi.symm.trans ha) Bool.false_ne_true
  all_goals
    obtain ⟨s₁, hport, rfl⟩ := Option.map_eq_some_iff.1 hs
    have h₀ : (s.setSession sid ((s.session sid).withDemod (some p.fmDemod))).session sid =
        (s.session sid).withDemod (some p.fmDemod) := session_setSession_self s sid _
    obtain ⟨q, -, h₁, he₁⟩ := takePort_session hport
    obtain ⟨⟨path, h₂⟩, he₂⟩ := writeKlist_session s₁ sid l.klist
    rw [h₁, h₀] at h₂
  · rw [launch, session_setSession_self, h₂]
    exact ⟨rfl, rfl, rfl, rfl, he₂.trans he₁⟩
  · rw [session_setSession_self, h₂] at ha
    exact absurd (hi.symm.trans ha) Bool.false_ne_true

/-- **A start that leaves an FM pipeline running** leaves it tuned as it says. -/
theorem startPipeline_tuned {p : StartParams} {l : Launch} (hs : s.startPipeline sid p l = some s')
    (ha : (s'.session sid).pipelineActive = true) (hc : (s'.session sid).chain = .fm) :
    s'.Tuned sid p [] := by
  have hf := Frame.startPipeline hs
  obtain ⟨hoff, hcenter⟩ := stopPipeline_session s sid l.now
  set t := (s.stopPipeline sid l.now).openStream sid p l.now with ht
  have hoff' : (t.session sid).pipelineActive = false := hoff
  have hstep : (s.stopPipeline sid l.now).freqStep = s.freqStep :=
    (Frame.stopPipeline s sid l.now).freqStep
  rw [startPipeline] at hs
  split_ifs at hs with h1 h2
  · cases hs
    rw [startTetra] at ha hc
    split_ifs at ha hc
    · rw [launch, session_setSession_self] at hc
      cases hc
    · exact absurd (hoff'.symm.trans ha) Bool.false_ne_true
  · cases hs
    rw [startPager] at ha hc
    split_ifs at ha hc
    · exact absurd (hoff'.symm.trans ha) Bool.false_ne_true
    · exact absurd (hoff'.symm.trans ha) Bool.false_ne_true
    · rw [launch, session_setSession_self] at hc
      cases hc
  · obtain ⟨hl, -, hd, hx, he⟩ := startFm_session hoff' hs ha
    refine ⟨hl, ha, hc, hd, ?_, by simpa using h1, by simpa using h2⟩
    have hopen := (s.stopPipeline sid l.now).explorer.tuning_beginStream
      (L := (s.stopPipeline sid l.now).explorer.limits) sid p.hint.label l.now []
      (((s.stopPipeline sid l.now).session sid).channelFreq (s.stopPipeline sid l.now).freqStep
        p.freqOffset) sid
    rw [if_pos rfl] at hopen
    rw [he, hf.freqStep]
    refine hopen.trans ?_
    rw [hstep]
    have hch : (s'.session sid).centerFreq = ((s.stopPipeline sid l.now).session sid).centerFreq :=
      hx
    rw [Session.channelFreq, Session.channelFreq, hch]
    rfl

/-- What runs after a start of the FM chain is an FM pipeline. -/
theorem startPipeline_fm {p : StartParams} {l : Launch} (hs : s.startPipeline sid p l = some s')
    (hp : p.hint.isTetra = false ∧ p.hint.isPager = false)
    (ha : (s'.session sid).pipelineActive = true) :
    (s'.session sid).chain = .fm ∧ (s'.session sid).centerFreq = (s.session sid).centerFreq := by
  rw [startPipeline] at hs
  simp only [hp.1, hp.2, Bool.false_eq_true, if_false] at hs
  have hoff :
      (((s.stopPipeline sid l.now).openStream sid p l.now).session sid).pipelineActive = false :=
    (stopPipeline_session s sid l.now).1
  obtain ⟨-, hc, -, hx, -⟩ := startFm_session hoff hs ha
  exact ⟨hc, hx.trans (stopPipeline_session s sid l.now).2⟩

/-- **The setters turn the knobs.** -/
theorem Tuned.serve {p : StartParams} {b : List Request} {l : Launch} {r : Request}
    (h : s.Tuned sid p b) (hr : r.isStart = false) (hs : s.serve sid l r = some s')
    (ha : (s'.session sid).pipelineActive = true) : s'.Tuned sid p (b ++ [r]) := by
  cases r with
  | start => cases hr
  | stop =>
    cases hs
    exact absurd ((stopPipeline_session s sid l.now).1.symm.trans ha) Bool.false_ne_true
  | unknown type =>
    cases hs
    have hg : p.gainAfter (b ++ [.unknown type]) = p.gainAfter b := by
      simp [StartParams.gainAfter, Request.gain?]
    have ho : p.offsetAfter (b ++ [.unknown type]) = p.offsetAfter b := by
      simp [StartParams.offsetAfter, Request.offset?]
    exact ⟨h.lastStart, h.active, h.chain, by rw [hg, ho]; exact h.demod,
      by rw [ho]; exact h.stream, h.hint⟩
  | setGain g =>
    cases hs
    have hg : p.gainAfter (b ++ [.setGain g]) = g := by
      simp [StartParams.gainAfter, Request.gain?]
    have ho : p.offsetAfter (b ++ [.setGain g]) = p.offsetAfter b := by
      simp [StartParams.offsetAfter, Request.offset?]
    set x := (s.session sid).setGain g with hx
    have hxe : x = { s.session sid with demod := (s.session sid).demod.map fun d =>
        { d with discGain := g } } := by
      rw [hx, Session.setGain, if_pos h.chain]
    have hself : (s.setSession sid x).session sid = x := session_setSession_self s sid x
    refine ⟨?_, ?_, ?_, ?_, ?_, h.hint⟩
    · rw [hself, hxe]
      exact h.lastStart
    · rw [hself, hxe]
      exact h.active
    · rw [hself, hxe]
      exact h.chain
    · rw [hself, hxe, hg, ho]
      simp only [h.demod, Option.map_some]
    · rw [hself, hxe, ho]
      exact h.stream
  | setFreqOffset hz =>
    cases hs
    have hg : p.gainAfter (b ++ [.setFreqOffset hz]) = p.gainAfter b := by
      simp [StartParams.gainAfter, Request.gain?]
    have ho : p.offsetAfter (b ++ [.setFreqOffset hz]) = hz := by
      simp [StartParams.offsetAfter, Request.offset?]
    set x := (s.session sid).setFreqOffset hz with hx
    have hxe : x = { s.session sid with demod := (s.session sid).demod.map fun d =>
        { d with freqOffset := hz } } := by
      simp only [hx, Session.setFreqOffset, h.chain]
    have hself : (s.setSession sid x).session sid = x := session_setSession_self s sid x
    have hsess : ∀ s'' : Server, s''.session sid = x → s''.freqStep = s.freqStep →
        (s''.explorer.ctx sid).tuning = (true, (s.session sid).channelFreq s.freqStep hz) →
        s''.Tuned sid p (b ++ [.setFreqOffset hz]) := fun s'' h1 h2 h3 => by
      refine ⟨?_, ?_, ?_, ?_, ?_, h.hint⟩
      · rw [h1, hxe]
        exact h.lastStart
      · rw [h1, hxe]
        exact h.active
      · rw [h1, hxe]
        exact h.chain
      · rw [h1, hxe, hg, ho]
        simp only [h.demod, Option.map_some]
      · rw [h1, hxe, h2, ho]
        exact h3
    rw [Server.setFreqOffset]
    split_ifs with hp
    · refine hsess _ hself rfl ?_
      have hm : sid ∈ s.explorer.sess := by
        by_contra hn
        have hblank : s.explorer.ctx sid = {} := by
          rw [AssocModel.ctx, SortedMap.getD, SortedMap.find?_eq_none_iff.2 hn]
          rfl
        exact Bool.false_ne_true (congrArg Prod.fst (hblank ▸ h.stream))
      have ht := s.explorer.tuning_retuneStream (L := s.explorer.limits) sid
        (channelHz ((s.session sid).centerFreq.add hz) s.freqStep) l.now sid
      rw [if_pos ⟨rfl, hm⟩] at ht
      refine ht.trans ?_
      rw [Session.channelFreq, if_pos hp.2]
      exact congrArg (·, _) (congrArg Prod.fst h.stream)
    · refine hsess _ hself rfl ?_
      have hc : (s.session sid).centerFreq.isPos = false := by
        by_contra hc
        exact hp ⟨h.chain, by simpa using hc⟩
      refine h.stream.trans ?_
      rw [Session.channelFreq, Session.channelFreq, hc]
      rfl

/-! ## Whole sequences

So the two agree exactly when the values last set are those of the start.  This is a condition on
the messages alone. -/

/-- A running FM pipeline was started by a message, and no start came after. -/
def TunedBy (s : Server) (sid : ℕ) (rs : List Request) : Prop :=
  (s.session sid).pipelineActive = true → (s.session sid).chain = .fm →
    ∃ a center p b, rs = a ++ .start center p :: b ∧ (∀ r ∈ b, r.isStart = false) ∧ s.Tuned sid p b

/-- A setter leaves a pipeline running, or not, on its chain. -/
theorem Session.setters_frame (x : Session) (g hz : Double) :
    ((x.setGain g).pipelineActive = x.pipelineActive ∧ (x.setGain g).chain = x.chain) ∧
      (x.setFreqOffset hz).pipelineActive = x.pipelineActive ∧
        (x.setFreqOffset hz).chain = x.chain := by
  constructor
  · rw [Session.setGain]
    split_ifs <;> exact ⟨rfl, rfl⟩
  · rw [Session.setFreqOffset]
    split <;> exact ⟨rfl, rfl⟩

/-- What setting the offset does to the session. -/
theorem session_setFreqOffset (s : Server) (sid : ℕ) (hz : Double) (now : ℤ) :
    (s.setFreqOffset sid hz now).session sid = (s.session sid).setFreqOffset hz := by
  rw [Server.setFreqOffset]
  split_ifs
  · exact session_setSession_self s sid _
  · exact session_setSession_self s sid _

/-- A message other than a start leaves an FM pipeline running only where one ran. -/
theorem fm_before {l : Launch} {r : Request} (hs : s.serve sid l r = some s')
    (hr : r.isStart = false) (ha : (s'.session sid).pipelineActive = true)
    (hc : (s'.session sid).chain = .fm) :
    (s.session sid).pipelineActive = true ∧ (s.session sid).chain = .fm := by
  cases r with
  | start => cases hr
  | stop =>
    rw [← Option.some.inj hs, (stopPipeline_session s sid l.now).1] at ha
    cases ha
  | unknown =>
    rw [← Option.some.inj hs] at ha hc
    exact ⟨ha, hc⟩
  | setGain g =>
    rw [← Option.some.inj hs, session_setSession_self] at ha hc
    rw [(Session.setters_frame _ g g).1.1] at ha
    rw [(Session.setters_frame _ g g).1.2] at hc
    exact ⟨ha, hc⟩
  | setFreqOffset hz =>
    rw [← Option.some.inj hs, session_setFreqOffset] at ha hc
    rw [(Session.setters_frame _ hz hz).2.1] at ha
    rw [(Session.setters_frame _ hz hz).2.2] at hc
    exact ⟨ha, hc⟩

/-- A request that is served is one more. -/
theorem TunedBy.serve {rs : List Request} {l : Launch} {r : Request} (h : s.TunedBy sid rs)
    (hs : s.serve sid l r = some s') : s'.TunedBy sid (rs ++ [r]) := by
  intro ha hc
  cases hr : r.isStart with
  | true =>
    cases r with
    | start center p =>
      have hs' : (s.setSession sid ((s.session sid).tuneTo center)).startPipeline sid p l =
          some s' := hs
      exact ⟨rs, center, p, [], rfl, fun _ hn => absurd hn List.not_mem_nil,
        startPipeline_tuned hs' ha hc⟩
    | _ => cases hr
  | false =>
    have hbefore := fm_before hs hr ha hc
    obtain ⟨a, center, p, b, rfl, hb, ht⟩ := h hbefore.1 hbefore.2
    refine ⟨a, center, p, b ++ [r], by simp, fun r' hr' => ?_, ht.serve hr hs ha⟩
    obtain hr' | hr' := List.mem_append.1 hr'
    · exact hb r' hr'
    · rw [List.mem_singleton.1 hr', hr]

theorem TunedBy.message {rs : List Request} {msg : Bytes} {l : Launch} (h : s.TunedBy sid rs)
    (hs : s.step (.message sid msg l) = some s') : s'.TunedBy sid (rs ++ requests [(msg, l)]) := by
  simp only [step] at hs
  split_ifs at hs
  rw [handleTextMessage] at hs
  split at hs
  · next e hr =>
    cases hs
    simpa [requests, hr, Except.toOption] using h
  · next r hr =>
    have := h.serve hs
    simpa [requests, hr, Except.toOption] using this

/-- **A running FM pipeline has the tuning last set**, after any messages. -/
theorem TunedBy.run {ms : List (Bytes × Launch)} :
    ∀ {s : Server} {rs : List Request}, s.TunedBy sid rs →
    s.run (ms.map fun m => .message sid m.1 m.2) = some s' →
      s'.TunedBy sid (rs ++ requests ms) := by
  induction ms with
  | nil =>
    intro s rs h hs
    cases hs
    simpa [requests] using h
  | cons m ms ih =>
    intro s rs h hs
    simp only [List.map_cons, Server.run, List.foldlM_cons, Option.bind_eq_bind,
      Option.bind_eq_some_iff] at hs
    obtain ⟨s₁, h₁, hs⟩ := hs
    have hrun := ih (h.message h₁) hs
    have happ : requests (m :: ms) = requests [m] ++ requests ms := by
      simp [requests, List.filterMap_cons]
      split <;> rfl
    rw [happ, ← List.append_assoc]
    exact hrun

/-- The messages after the last start are determined by the sequence. -/
theorem lastStart_unique {a a' b b' : List Request} {c c' : Double} {p p' : StartParams}
    (h : a ++ .start c p :: b = a' ++ .start c' p' :: b') (hb : ∀ r ∈ b, r.isStart = false)
    (hb' : ∀ r ∈ b', r.isStart = false) : p = p' ∧ b = b' := by
  rw [List.append_eq_append_iff] at h
  obtain ⟨x, -, hx⟩ | ⟨x, -, hx⟩ := h
  · cases x with
    | nil =>
      cases hx
      exact ⟨rfl, rfl⟩
    | cons y x =>
      cases hx
      exact absurd (hb (.start c' p') (List.mem_append_right _ List.mem_cons_self))
        (by simp [Request.isStart])
  · cases x with
    | nil =>
      cases hx
      exact ⟨rfl, rfl⟩
    | cons y x =>
      cases hx
      exact absurd (hb' (.start c p) (List.mem_append_right _ List.mem_cons_self))
        (by simp [Request.isStart])

/-- **A restart keeps the tuning exactly when the setters left the start's**: after any messages of
a session, for an FM pipeline that runs and comes up again. -/
theorem restart_keeps_tuning_iff {ms : List (Bytes × Launch)} {l : Launch}
    (hidle : (s.session sid).pipelineActive = false)
    (hrun : s.run (ms.map fun m => .message sid m.1 m.2) = some s')
    (hfm : (s'.session sid).pipelineActive = true ∧ (s'.session sid).chain = .fm)
    (hre : s'.step (.restart sid l) = some s'') (hok : (s''.session sid).pipelineActive = true) :
    SameTuning sid s' s'' ↔ Untouched (requests ms) := by
  have h₀ : s.TunedBy sid [] := fun ha => absurd (hidle.symm.trans ha) Bool.false_ne_true
  obtain ⟨a, center, p, b, hms, hb, ht⟩ := h₀.run hrun hfm.1 hfm.2
  rw [List.nil_append] at hms
  have hre' : s'.restartPipeline sid l = some s'' := by
    simp only [step] at hre
    split_ifs at hre
    exact hre
  rw [restartPipeline] at hre'
  simp only [ht.lastStart, ht.active, ht.chain, Bool.not_true, Bool.false_eq_true, if_false, ne_eq,
    not_true_eq_false] at hre'
  have ht' := startPipeline_tuned hre' hok (startPipeline_fm hre' ht.hint hok).1
  have hcenter : (s''.session sid).centerFreq = (s'.session sid).centerFreq := by
    rw [(startPipeline_fm hre' ht.hint hok).2, session_setSession_self]
    rfl
  have hstep : s''.freqStep = s'.freqStep :=
    (Frame.startPipeline hre').freqStep.trans (Frame.setSession s' sid _).freqStep
  have hu : Untouched (requests ms) ↔ p.gainAfter b = p.gain ∧ p.offsetAfter b = p.freqOffset := by
    constructor
    · rintro ⟨a', c', p', b', h', hb', hg, ho⟩
      obtain ⟨rfl, rfl⟩ := lastStart_unique (hms.symm.trans h') hb hb'
      exact ⟨hg, ho⟩
    · exact fun h => ⟨a, center, p, b, hms, hb, h⟩
  have hfreq : (s'.explorer.ctx sid).freq = (s'.session sid).channelFreq s'.freqStep
      (p.offsetAfter b) :=
    congrArg Prod.snd ht.stream
  have hfreq' : (s''.explorer.ctx sid).freq =
      (s'.session sid).channelFreq s'.freqStep p.freqOffset := by
    refine (congrArg Prod.snd ht'.stream).trans ?_
    rw [hstep, Session.channelFreq, Session.channelFreq, hcenter]
    rfl
  rw [hu, SameTuning, ht.demod, ht'.demod, hfreq, hfreq']
  constructor
  · rintro ⟨d, d', hd, hd', hg, ho, -⟩
    cases hd
    cases hd'
    exact ⟨hg.symm, ho.symm⟩
  · rintro ⟨hg, ho⟩
    exact ⟨_, _, rfl, rfl, hg.symm, ho.symm, by rw [ho]⟩

/-- A DMR stream is started with a gain of 20000. -/
def tuneStart : Bytes × Launch :=
  (lit "\x7b\"type\":\"start\",\"protocol\":\"dmr\",\"gain\":20000,\"center_freq\":440000000\x7d",
    { draws := [7], dsdOk := true })

/-- Its gain is set. -/
def tuneGain (gain : String) : Bytes × Launch :=
  (lit "\x7b\"type\":\"set_gain\",\"gain\":" ++ lit gain ++ lit "\x7d", {})

/-- A session connects, sends some messages and is restarted: the states after each. -/
def tuneRun (ms : List (Bytes × Launch)) : Option (Server × Server × Server) :=
  (Server.run {} [.connect]).bind fun s =>
    (s.run (ms.map fun m => .message 1 m.1 m.2)).bind fun s' =>
      (s'.step (.restart 1 { dsdOk := true })).map fun s'' => (s, s', s'')

/-- The states of such a run with a pipeline before and after the restart. -/
structure Retuned (ms : List (Bytes × Launch)) (s s' s'' : Server) : Prop where
  reachable : s.Reachable
  idle : (s.session 1).pipelineActive = false
  run : s.run (ms.map fun m => .message 1 m.1 m.2) = some s'
  fm : (s'.session 1).pipelineActive = true ∧ (s'.session 1).chain = .fm
  step : s'.step (.restart 1 { dsdOk := true }) = some s''
  active : (s''.session 1).pipelineActive = true

/-- A check of the discriminators before and after the restart, along with the pipelines. -/
def tuneCheck (ms : List (Bytes × Launch)) (g g' : ℚ) : Bool :=
  (tuneRun ms).any fun r => !(r.1.session 1).pipelineActive && (r.2.1.session 1).pipelineActive &&
    (r.2.1.session 1).chain = .fm && (r.2.2.session 1).pipelineActive &&
    (r.2.1.session 1).demod.map FmDemod.discGain = some (.finite g) &&
    (r.2.2.session 1).demod.map FmDemod.discGain = some (.finite g')

theorem retuned_of_check {ms : List (Bytes × Launch)} {g g' : ℚ} (h : tuneCheck ms g g' = true) :
    ∃ s s' s'', Retuned ms s s' s'' ∧
      (s'.session 1).demod.map FmDemod.discGain = some (.finite g) ∧
      (s''.session 1).demod.map FmDemod.discGain = some (.finite g') := by
  obtain ⟨⟨s, s', s''⟩, hr, hv⟩ := (Option.any_eq_true _ _).1 h
  obtain ⟨t, h₀, hr⟩ := Option.bind_eq_some_iff.1 hr
  obtain ⟨t', h₁, hr⟩ := Option.bind_eq_some_iff.1 hr
  obtain ⟨t'', h₂, he⟩ := Option.map_eq_some_iff.1 hr
  cases he
  simp only [Bool.and_eq_true, decide_eq_true_eq, Bool.not_eq_true'] at hv
  obtain ⟨⟨⟨⟨⟨v1, v2⟩, v3⟩, v4⟩, v5⟩, v6⟩ := hv
  exact ⟨s, s', s'', ⟨reachable_blank.run h₀, v1, h₁, ⟨v2, v3⟩, h₂, v4⟩, v5, v6⟩

theorem restart_keeps_tuning_same_gain : ∃ s s' s'' : Server,
    Retuned [tuneStart, tuneGain "20000"] s s' s'' ∧
    (SameTuning 1 s' s'' ↔ Untouched (requests [tuneStart, tuneGain "20000"])) := by
  have hrun : tuneCheck [tuneStart, tuneGain "20000"] 20000 20000 = true := by decide +kernel
  obtain ⟨s, s', s'', h, -, -⟩ := retuned_of_check hrun
  exact ⟨s, s', s'', h, restart_keeps_tuning_iff h.idle h.run h.fm h.step h.active⟩

/-- **A restart undoes a gain set since the start.** -/
theorem not_sameTuning_other_gain : ∃ s s' s'' : Server,
    Retuned [tuneStart, tuneGain "30000"] s s' s'' ∧ ¬ SameTuning 1 s' s'' := by
  have hrun : tuneCheck [tuneStart, tuneGain "30000"] 30000 20000 = true := by decide +kernel
  obtain ⟨s, s', s'', h, hg, hg'⟩ := retuned_of_check hrun
  refine ⟨s, s', s'', h, ?_⟩
  rintro ⟨d, d', hd, hd', he, -⟩
  rw [hd] at hg
  rw [hd'] at hg'
  have h1 := Option.some.inj hg
  have h2 := Option.some.inj hg'
  rw [h2, h1] at he
  exact absurd he (by decide)

end Server

end DsdServer
