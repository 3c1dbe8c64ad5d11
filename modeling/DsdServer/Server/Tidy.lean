import DsdServer.Assoc.Streams
import DsdServer.Server.Ports

/-!
# Server/Tidy — what a pipeline takes, and what a failed start leaves

A start opens a stream of the explorer, takes a port and writes a file before the decoder may refuse
to start; only a stop gives them back, and it does nothing for a session whose pipeline does not
run.

* `tidily_iff` — **ports, streams and files are accounted for throughout a run exactly when no start
  in it fails.**
* `not_tidy_refused` — a start the decoder refuses leaves its port in use and its stream running.

One direction is an invariant: from a state in order, a step without a failed start leads to one.
The other needs one step only, since a start that fails leaves a stream running for a session
without a pipeline, and no list of what is in use can then be right.
-/

open Bytes

namespace DsdServer

/-! ## Starts that succeed

Whether a start succeeds can be told from its request and from whether the decoder comes up.
Nothing that the start itself computes is needed for the condition. -/

/-- A start of the FM chain whose key, if it has one, is well formed. -/
def StartParams.Plain (p : StartParams) : Prop :=
  p.hint.isTetra = false ∧ p.hint.isPager = false ∧
    (parseKeyType p.keyType = .none ∨ keyValueIsValid p.key)

/-- **The start succeeds**: the request is valid and the decoder of its chain starts. -/
def StartParams.Launches (p : StartParams) (l : Launch) : Bool :=
  if p.hint.isTetra then l.tetraOk
  else if p.hint.isPager then pocsagModeIsKnown p.pocsagMode && l.pagerOk
  else (parseKeyType p.keyType = .none || keyValueIsValid p.key) && l.dsdOk

namespace Server

variable {s s' s'' : Server} {sid : ℕ}

/-- The parameters a restart of the session starts with, when it is not in vain. -/
def restarts (s : Server) (sid : ℕ) : Option StartParams :=
  let x := s.session sid
  if x.pipelineActive ∧ x.chain = .fm then x.lastStart else none

/-- **No start of the step fails.** -/
def Launches (s : Server) : Op → Prop
  | .message _ msg l => ∀ center p, readRequest msg = .ok (.start center p) → p.Launches l
  | .restart sid l => ∀ p, s.restarts sid = some p → p.Launches l
  | _ => True

/-! ## Accounts

Two statements of the same thing: one about what is in use (`Tidy`), which is what matters, and one
about which session holds what (`Accounted`, `Neat`), which the operations keep. -/

/-- **Everything is accounted for**: the ports in use are those of running FM pipelines, the running
streams those of running pipelines, and every key-list file belongs to one. -/
structure Tidy (s : Server) : Prop where
  ports : ∀ q, q ∈ s.udpPortsInUse ↔
    ∃ i, (s.session i).pipelineActive ∧ (s.session i).chain = .fm ∧ (s.session i).udpAudioPort = q
  streams : ∀ i, (s.explorer.ctx i).running ↔ (s.session i).pipelineActive
  files : ∀ f ∈ s.klistFiles, ∃ i, (s.session i).pipelineActive ∧ (s.session i).klistPath = f

/-- Every state of a run is tidy. -/
def Tidily : Server → List Op → Prop
  | s, [] => s.Tidy
  | s, op :: ops => s.Tidy ∧ ∀ s', s.step op = some s' → Tidily s' ops

/-- No start of a run fails. -/
def Cleanly : Server → List Op → Prop
  | _, [] => True
  | s, op :: ops => ∀ s', s.step op = some s' → s.Launches op ∧ Cleanly s' ops

/-- Ports and files are held by one session each. -/
structure Accounted (s : Server) : Prop where
  ports : ∀ q, q ∈ s.udpPortsInUse ↔ ∃ i, (s.session i).Holds q
  apart : ∀ i j q, (s.session i).Holds q → (s.session j).Holds q → i = j
  files : ∀ f, f ∈ s.klistFiles ↔ f ≠ [] ∧ ∃ i, (s.session i).klistPath = f
  filesApart : ∀ i j, (s.session i).klistPath ≠ [] →
    (s.session i).klistPath = (s.session j).klistPath →
    i = j

end Server

/-- What a session holds is what its pipeline needs. -/
structure Session.Neat (x : Session) : Prop where
  pending : x.pendingUdpPort = 0
  idle : x.pipelineActive = false → x.udpAudioPort = 0 ∧ x.klistPath = []
  port : x.pipelineActive → (x.udpAudioPort ≠ 0 ↔ x.chain = .fm)
  again : x.pipelineActive → x.chain = .fm → ∃ p, x.lastStart = some p ∧ p.Plain

namespace Server

variable {s s' s'' : Server} {sid : ℕ}

namespace Accounted

/-- What the sessions hold stays. -/
theorem congr (h : s.Accounted) (hp : s'.udpPortsInUse = s.udpPortsInUse)
    (hf : s'.klistFiles = s.klistFiles)
    (hh : ∀ i q, (s'.session i).Holds q ↔ (s.session i).Holds q)
    (hk : ∀ i, (s'.session i).klistPath = (s.session i).klistPath) : s'.Accounted where
  ports q := by
    simp only [hp, hh]
    exact h.ports q
  apart i j q := by
    simp only [hh]
    exact h.apart i j q
  files f := by
    simp only [hf, hk]
    exact h.files f
  filesApart i j := by
    simp only [hk]
    exact h.filesApart i j

/-- One session changes, and holds the same. -/
theorem setSession (h : s.Accounted) {x : Session}
    (hu : x.udpAudioPort = (s.session sid).udpAudioPort)
    (hp : x.pendingUdpPort = (s.session sid).pendingUdpPort)
    (hk : x.klistPath = (s.session sid).klistPath) : (s.setSession sid x).Accounted := by
  refine h.congr rfl rfl (fun i q => ?_) fun i => ?_
  · rw [session_setSession]
    split_ifs with hi
    · rw [hi, Session.Holds, Session.Holds, hu, hp]
    · exact Iff.rfl
  · rw [session_setSession]
    split_ifs with hi
    · rw [hi, hk]
    · rfl

/-- **One session's ports and file are exchanged for others**, and the books with them. -/
theorem exchange (h : s.Accounted)
    (ho : ∀ i, i ≠ sid → s'.session i = s.session i)
    (hp : ∀ q, q ∈ s'.udpPortsInUse ↔
      (s'.session sid).Holds q ∨ q ∈ s.udpPortsInUse ∧ ¬ (s.session sid).Holds q)
    (hn : ∀ q, (s'.session sid).Holds q → q ∈ s.udpPortsInUse → (s.session sid).Holds q)
    (hf : ∀ f, f ∈ s'.klistFiles ↔
      f ≠ [] ∧ f = (s'.session sid).klistPath ∨ f ∈ s.klistFiles ∧ f ≠ (s.session sid).klistPath)
    (hm : ∀ f, f ≠ [] → f = (s'.session sid).klistPath → f ∈ s.klistFiles →
      f = (s.session sid).klistPath) : s'.Accounted where
  ports q := by
    rw [hp, h.ports]
    constructor
    · rintro (hq | ⟨⟨i, hi⟩, hs⟩)
      · exact ⟨sid, hq⟩
      · exact ⟨i, by rwa [ho i fun he => hs (he ▸ hi)]⟩
    · rintro ⟨i, hi⟩
      by_cases his : i = sid
      · exact .inl (his ▸ hi)
      · rw [ho i his] at hi
        exact .inr ⟨⟨i, hi⟩, fun hs => his (h.apart i sid q hi hs)⟩
  apart i j q hi hj := by
    have hmine : ∀ {k}, k ≠ sid → (s'.session k).Holds q → ¬ (s'.session sid).Holds q :=
      fun {k} hk hkq hs => by
        rw [ho k hk] at hkq
        exact hk (h.apart k sid q hkq (hn q hs ((h.ports q).2 ⟨k, hkq⟩)))
    by_cases hi' : i = sid <;> by_cases hj' : j = sid
    · rw [hi', hj']
    · exact absurd (hi' ▸ hi) (hmine hj' hj)
    · exact absurd (hj' ▸ hj) (hmine hi' hi)
    · rw [ho i hi'] at hi
      rw [ho j hj'] at hj
      exact h.apart i j q hi hj
  files f := by
    rw [hf, h.files]
    constructor
    · rintro (⟨hne, he⟩ | ⟨⟨hne, i, hi⟩, hs⟩)
      · exact ⟨hne, sid, he.symm⟩
      · exact ⟨hne, i, by rwa [ho i fun he => hs (he ▸ hi.symm)]⟩
    · rintro ⟨hne, i, hi⟩
      by_cases his : i = sid
      · exact .inl ⟨hne, his ▸ hi.symm⟩
      · rw [ho i his] at hi
        exact .inr ⟨⟨hne, i, hi⟩, fun hs => his (h.filesApart i sid (hi ▸ hne) (hi.trans hs))⟩
  filesApart i j hne he := by
    have hmine : ∀ {k}, k ≠ sid → (s'.session k).klistPath ≠ [] →
        (s'.session k).klistPath ≠ (s'.session sid).klistPath := fun {k} hk hne hs => by
      rw [ho k hk] at hne hs
      exact hk (h.filesApart k sid hne (hm _ hne hs ((h.files _).2 ⟨hne, k, rfl⟩)))
    by_cases hi' : i = sid <;> by_cases hj' : j = sid
    · rw [hi', hj']
    · exact absurd (hi' ▸ he.symm) (hmine hj' (he ▸ hne))
    · exact absurd (hj' ▸ he) (hmine hi' hne)
    · rw [ho i hi', ho j hj'] at he
      rw [ho i hi'] at hne
      exact h.filesApart i j hne he

/-- Where sessions, ports and files stay, so does this. -/
theorem of_sessions (h : s.Accounted) (hp : s'.udpPortsInUse = s.udpPortsInUse)
    (hf : s'.klistFiles = s.klistFiles) (hs : s'.sessions = s.sessions) : s'.Accounted :=
  h.congr hp hf (fun i q => by rw [session, session, hs]) fun i => by rw [session, session, hs]

end Accounted

/-- What a stop of a running pipeline leaves. -/
theorem stopPipeline_of_active (s : Server) (now : ℤ) (ha : (s.session sid).pipelineActive) :
    ∃ ports files, s.stopPipeline sid now =
        { s with
          udpPortsInUse := ports
          klistFiles := files
          sessions := s.sessions.insert sid (s.session sid).halted
          explorer := s.explorer.step (.finish sid now) } ∧
      (∀ q, q ∈ ports ↔ q ∈ s.udpPortsInUse ∧
        ((s.session sid).pendingUdpPort = 0 → (s.session sid).udpAudioPort ≠ 0 →
          q ≠ (s.session sid).udpAudioPort)) ∧
      ∀ f, f ∈ files ↔ f ∈ s.klistFiles ∧
        ((s.session sid).klistPath ≠ [] → f ≠ (s.session sid).klistPath) := by
  set x := s.session sid with hx
  refine ⟨if x.pendingUdpPort = 0 ∧ x.udpAudioPort ≠ 0 then s.udpPortsInUse.erase x.udpAudioPort
      else s.udpPortsInUse,
    if x.klistPath = [] then s.klistFiles else s.klistFiles.erase x.klistPath, ?_, fun q => ?_,
    fun f => ?_⟩
  · rw [stopPipeline]
    simp only [← hx, ha, Bool.not_true, Bool.false_eq_true, if_false, releaseUdpPort, removeKlist]
    by_cases hp : x.pendingUdpPort = 0 <;> by_cases hu : x.udpAudioPort = 0 <;>
      by_cases hk : x.klistPath = [] <;> simp only [hp, hu, hk, if_true, if_false, ne_eq, not_true,
        not_false_iff, and_true, and_false, and_self] <;> rfl
  · split_ifs with hp
    · rw [SortedMap.mem_erase, and_comm]
      exact and_congr_right fun _ => ⟨fun h _ _ => h, fun h => h hp.1 hp.2⟩
    · exact ⟨fun h => ⟨h, fun h1 h2 => absurd ⟨h1, h2⟩ hp⟩, And.left⟩
  · split_ifs with hk
    · exact ⟨fun h => ⟨h, fun h1 => absurd hk h1⟩, And.left⟩
    · rw [SortedMap.mem_erase, and_comm]
      exact and_congr_right fun _ => ⟨fun h _ => h, fun h => h hk⟩

/-- A stop does nothing where nothing runs. -/
theorem stopPipeline_of_idle (s : Server) (now : ℤ) (ha : (s.session sid).pipelineActive = false) :
    s.stopPipeline sid now = s := by
  rw [stopPipeline]
  simp [ha]

/-- **A stop keeps the books**, with the port kept for a restart among them. -/
theorem Accounted.stopPipeline (h : s.Accounted) (now : ℤ)
    (hp : (s.session sid).pendingUdpPort = 0 ∨
      (s.session sid).pendingUdpPort = (s.session sid).udpAudioPort) :
    (s.stopPipeline sid now).Accounted := by
  cases ha : (s.session sid).pipelineActive with
  | false => rwa [stopPipeline_of_idle s now ha]
  | true =>
    obtain ⟨ports, files, he, hports, hfiles⟩ := stopPipeline_of_active s now ha
    set x := s.session sid
    have hself : (s.stopPipeline sid now).session sid = x.halted := by
      rw [he]
      exact session_setSession_self s sid x.halted
    have hmem : ∀ q, x.Holds q → q ∈ s.udpPortsInUse := fun q hq => (h.ports q).2 ⟨sid, hq⟩
    refine h.exchange (fun i (hi : i ≠ sid) => ?_) (fun q => ?_) (fun q hq _ => ?_) (fun f => ?_)
      fun f hf hk => ?_
    · rw [he]
      exact session_setSession_ne s _ hi
    · rw [hself, he, hports]
      have hq := hmem q
      simp only [Session.Holds, Session.halted] at hq ⊢
      rcases hp with hp | hp <;> simp only [hp] at hq ⊢ <;>
          by_cases hu : x.udpAudioPort = 0 <;> grind
    · rw [hself] at hq
      exact ⟨hq.1, .inr (hq.2.resolve_left (Ne.symm hq.1))⟩
    · rw [hself, he, hfiles]
      have hne := (h.files f).1
      simp only [Session.halted]
      grind
    · rw [hself] at hk
      exact absurd hk hf

/-- **Taking a port keeps the books**, if the session has none. -/
theorem Accounted.takePort (h : s.Accounted) {draws : List (Fin 19001)}
    (hu : (s.session sid).udpAudioPort = 0) (ht : s.takePort sid draws = some s') :
    s'.Accounted := by
  rw [Server.takePort] at ht
  split_ifs at ht with hp
  · cases ht
    refine h.congr rfl rfl (fun i q => ?_) fun i => ?_
    · rw [session_setSession]
      split_ifs with hi
      · rw [hi]
        simp only [Session.Holds, Session.listen, hu]
        grind
      · exact Iff.rfl
    · rw [session_setSession]
      split_ifs with hi
      · rw [hi]
        rfl
      · rfl
  · obtain ⟨p, hacq, rfl⟩ := Option.map_eq_some_iff.1 ht
    rw [acquireUdpPort] at hacq
    obtain ⟨d, hd, rfl⟩ := Option.map_eq_some_iff.1 hacq
    have hfree : 40000 + d.val ∉ s.udpPortsInUse := by simpa using List.find?_some hd
    rw [not_not] at hp
    refine h.exchange (fun i (hi : i ≠ sid) => session_setSession_ne _ _ hi) (fun q => ?_)
      (fun q hq hm => ?_) (fun f => ?_) fun f _ hk _ => ?_
    · rw [session_setSession_self]
      change q ∈ s.udpPortsInUse.add (40000 + d.val) ↔ _
      rw [SortedSet.mem_add]
      simp only [Session.Holds, Session.listen, hu, hp]
      grind
    · rw [session_setSession_self] at hq
      simp only [Session.Holds, Session.listen] at hq
      exact absurd (hq.2.resolve_right (Ne.symm hq.1) ▸ hm) hfree
    · rw [session_setSession_self]
      change f ∈ s.klistFiles ↔ f ≠ [] ∧ f = (s.session sid).klistPath ∨ _
      have hne := (h.files f)
      grind
    · rwa [session_setSession_self] at hk

/-- **Writing the key list keeps the books**, if the session has none. -/
theorem Accounted.writeKlist (h : s.Accounted) (hk : (s.session sid).klistPath = [])
    (klist : Option Bytes) :
    (s.writeKlist sid klist).Accounted := by
  cases klist with
  | none => exact h
  | some path =>
    rw [Server.writeKlist]
    split_ifs with hp
    · exact h
    · rw [not_or] at hp
      refine h.exchange (fun i (hi : i ≠ sid) => session_setSession_ne _ _ hi) (fun q => ?_)
        (fun q hq _ => ?_) (fun f => ?_) fun f _ hf hm => ?_
      · rw [session_setSession_self]
        change q ∈ s.udpPortsInUse ↔ (s.session sid).Holds q ∨ _
        have hq := fun hq => (h.ports q).2 ⟨sid, hq⟩
        grind
      · rwa [session_setSession_self] at hq
      · rw [session_setSession_self]
        change f ∈ s.klistFiles.add path ↔ f ≠ [] ∧ f = path ∨ _
        rw [SortedSet.mem_add, hk]
        have hne := (h.files f).1
        grind
      · rw [session_setSession_self] at hf
        exact absurd ((show f = path from hf) ▸ hm) hp.2

/-! ## The rest of the server

A step is about one session.  That the other sessions are not touched is one relation, which
composes. -/

/-- Only one session, and not the ids given out. -/
structure Frame (sid : ℕ) (s s' : Server) : Prop where
  other : ∀ i, i ≠ sid → s'.session i = s.session i
  ids : ∀ i ∈ s'.sessions, i = sid ∨ i ∈ s.sessions
  lastId : s'.lastId = s.lastId
  freqStep : s'.freqStep = s.freqStep

namespace Frame

/-- Where the sessions stay, so does all of this. -/
theorem of_sessions (hs : s'.sessions = s.sessions) (hl : s'.lastId = s.lastId)
    (hf : s'.freqStep = s.freqStep) : Frame sid s s' :=
  ⟨fun i _ => by rw [session, session, hs], fun i hi => .inr (hs ▸ hi), hl, hf⟩

theorem refl (s : Server) : Frame sid s s := of_sessions rfl rfl rfl

theorem trans (h : Frame sid s s') (h' : Frame sid s' s'') : Frame sid s s'' where
  other i hi := (h'.other i hi).trans (h.other i hi)
  ids i hi := (h'.ids i hi).elim .inl (h.ids i)
  lastId := h'.lastId.trans h.lastId
  freqStep := h'.freqStep.trans h.freqStep

/-- A session that is changed is the only one. -/
theorem setSession (s : Server) (sid : ℕ) (x : Session) : Frame sid s (s.setSession sid x) where
  other _ hi := session_setSession_ne s x hi
  ids _ hi := SortedMap.mem_insert.1 hi
  lastId := rfl
  freqStep := rfl

theorem stopPipeline (s : Server) (sid : ℕ) (now : ℤ) : Frame sid s (s.stopPipeline sid now) := by
  cases ha : (s.session sid).pipelineActive with
  | false =>
    rw [stopPipeline_of_idle s now ha]
    exact refl s
  | true =>
    obtain ⟨ports, files, he, -, -⟩ := stopPipeline_of_active s now ha
    rw [he]
    exact (setSession s sid (s.session sid).halted).trans (of_sessions rfl rfl rfl)

theorem takePort {draws : List (Fin 19001)} (h : s.takePort sid draws = some s') :
    Frame sid s s' := by
  rw [Server.takePort] at h
  split_ifs at h
  · cases h
    exact setSession s sid _
  · obtain ⟨p, hacq, rfl⟩ := Option.map_eq_some_iff.1 h
    rw [acquireUdpPort] at hacq
    obtain ⟨d, -, rfl⟩ := Option.map_eq_some_iff.1 hacq
    have ht : Frame sid s { s with udpPortsInUse := s.udpPortsInUse.add (40000 + d.val) } :=
      of_sessions rfl rfl rfl
    exact ht.trans (setSession _ sid _)

theorem writeKlist (s : Server) (sid : ℕ) (klist : Option Bytes) :
    Frame sid s (s.writeKlist sid klist) := by
  cases klist with
  | none => exact refl s
  | some path =>
    rw [Server.writeKlist]
    split_ifs
    · exact refl s
    · have ht : Frame sid s { s with klistFiles := s.klistFiles.add path } :=
        of_sessions rfl rfl rfl
      exact ht.trans (setSession _ sid _)

theorem startFm {p : StartParams} {l : Launch} (h : s.startFm sid p l = some s') :
    Frame sid s s' := by
  rw [Server.startFm] at h
  split_ifs at h
  · cases h
    exact refl s
  all_goals
    obtain ⟨s₁, ht, rfl⟩ := Option.map_eq_some_iff.1 h
    have hf := (setSession s sid _).trans ((takePort ht).trans (writeKlist s₁ sid l.klist))
    exact hf.trans (setSession _ sid _)

theorem startPipeline {p : StartParams} {l : Launch} (h : s.startPipeline sid p l = some s') :
    Frame sid s s' := by
  have hopen : Frame sid s ((s.stopPipeline sid l.now).openStream sid p l.now) :=
    (stopPipeline s sid l.now).trans (of_sessions rfl rfl rfl)
  refine hopen.trans ?_
  rw [Server.startPipeline] at h
  split_ifs at h
  · cases h
    rw [startTetra]
    split_ifs
    · exact setSession _ sid _
    · exact refl _
  · cases h
    rw [startPager]
    split_ifs
    · exact refl _
    · exact refl _
    · exact (setSession _ sid _).trans (setSession _ sid _)
  · exact startFm h

end Frame

/-! ## Starts

A start comes to one of two ends, and there is a lemma for each of the chains: the pipeline runs and
holds what it needs, or it does not and something is left. -/

/-- The session's pipeline does not run, and holds nothing. -/
structure Idle (s : Server) (sid : ℕ) : Prop where
  off : (s.session sid).pipelineActive = false
  port : (s.session sid).udpAudioPort = 0
  klist : (s.session sid).klistPath = []

/-- **A session may start**: it holds what its pipeline needs, and keeps its port only for an FM
pipeline. -/
structure Ready (s : Server) (sid : ℕ) (p : StartParams) : Prop where
  books : s.Accounted
  idle : (s.session sid).pipelineActive = false →
    (s.session sid).udpAudioPort = 0 ∧ (s.session sid).klistPath = []
  pending : (s.session sid).pendingUdpPort = 0 ∨
    (s.session sid).pendingUdpPort = (s.session sid).udpAudioPort ∧ p.Plain

/-- **After the stop a session holds nothing**, but the port it keeps. -/
theorem Ready.stopPipeline {p : StartParams} (h : s.Ready sid p) (now : ℤ) :
    (s.stopPipeline sid now).Accounted ∧ (s.stopPipeline sid now).Idle sid ∧
      ((s.stopPipeline sid now).session sid).pendingUdpPort = (s.session sid).pendingUdpPort := by
  refine ⟨h.books.stopPipeline now (h.pending.imp_right And.left), ?_⟩
  cases ha : (s.session sid).pipelineActive with
  | false =>
    rw [stopPipeline_of_idle s now ha]
    exact ⟨⟨ha, (h.idle ha).1, (h.idle ha).2⟩, rfl⟩
  | true =>
    obtain ⟨ports, files, he, -, -⟩ := stopPipeline_of_active s now ha
    have hself : (s.stopPipeline sid now).session sid = (s.session sid).halted := by
      rw [he]
      exact session_setSession_self s sid _
    exact ⟨⟨by rw [hself]; rfl, by rw [hself]; rfl, by rw [hself]; rfl⟩, by rw [hself]; rfl⟩

/-- What a start makes of the session and the books. -/
structure Started (sid : ℕ) (s s' : Server) (ok : Bool) : Prop where
  explorer : s'.explorer = s.explorer
  active : (s'.session sid).pipelineActive = ok
  books : ok → s'.Accounted
  neat : ok → (s'.session sid).Neat

/-- The session listens on a port, and nothing else is changed in it. -/
theorem takePort_session {draws : List (Fin 19001)} (h : s.takePort sid draws = some s') :
    ∃ q, q ≠ 0 ∧ s'.session sid = (s.session sid).listen q ∧ s'.explorer = s.explorer := by
  rw [takePort] at h
  split_ifs at h with hp
  · cases h
    exact ⟨_, hp, session_setSession_self s sid _, rfl⟩
  · obtain ⟨p, hacq, rfl⟩ := Option.map_eq_some_iff.1 h
    rw [acquireUdpPort] at hacq
    obtain ⟨d, -, rfl⟩ := Option.map_eq_some_iff.1 hacq
    exact ⟨40000 + d.val, by omega, session_setSession_self _ sid _, rfl⟩

/-- The session has a file of keys, and nothing else is changed in it. -/
theorem writeKlist_session (s : Server) (sid : ℕ) (klist : Option Bytes) :
    (∃ path, (s.writeKlist sid klist).session sid = (s.session sid).withKlist path) ∧
      (s.writeKlist sid klist).explorer = s.explorer := by
  cases klist with
  | none => exact ⟨⟨(s.session sid).klistPath, rfl⟩, rfl⟩
  | some path =>
    rw [writeKlist]
    split_ifs
    · exact ⟨⟨(s.session sid).klistPath, rfl⟩, rfl⟩
    · exact ⟨⟨path, session_setSession_self _ sid _⟩, rfl⟩

/-- **An FM start**: it runs and holds what it needs, or its port and its file are left behind. -/
theorem started_fm {p : StartParams} {l : Launch} (h : s.Accounted) (hi : s.Idle sid)
    (ht : p.hint.isTetra = false) (hpg : p.hint.isPager = false)
    (hs : s.startFm sid p l = some s') : Started sid s s' (p.Launches l) := by
  have hL : p.Launches l = ((parseKeyType p.keyType = .none || keyValueIsValid p.key) &&
      l.dsdOk) := by
    simp [StartParams.Launches, ht, hpg]
  rw [startFm] at hs
  split_ifs at hs with hk hd
  · cases hs
    have hf : p.Launches l = false := by
      simpa [hL, hk.1] using fun h => absurd h (by simpa using hk.2)
    exact ⟨rfl, hi.off.trans hf.symm, fun h => by simp [hf] at h, fun h => by simp [hf] at h⟩
  all_goals
    obtain ⟨s₁, hport, rfl⟩ := Option.map_eq_some_iff.1 hs
    set s₀ := s.setSession sid ((s.session sid).withDemod (some p.fmDemod))
    have h₀ : s₀.session sid = (s.session sid).withDemod (some p.fmDemod) :=
      session_setSession_self s sid _
    obtain ⟨q, hq, h₁, he₁⟩ := takePort_session hport
    obtain ⟨⟨path, h₂⟩, he₂⟩ := writeKlist_session s₁ sid l.klist
    rw [h₁, h₀] at h₂
    have hkey : parseKeyType p.keyType = .none ∨ keyValueIsValid p.key := by
      by_contra hn
      exact hk ⟨fun h => hn (.inl h), by simpa using fun h => hn (.inr h)⟩
  · have hT : p.Launches l = true := by
      rw [hL, hd, Bool.and_true, Bool.or_eq_true, decide_eq_true_eq]
      exact hkey
    have hbooks : (s₁.writeKlist sid l.klist).Accounted := by
      have hb₀ : s₀.Accounted := h.setSession rfl rfl rfl
      exact (hb₀.takePort (by rw [h₀]; exact hi.port) hport).writeKlist
        (by rw [h₁, h₀]; exact hi.klist) l.klist
    refine ⟨he₂.trans he₁, ?_, fun _ => hbooks.setSession rfl rfl rfl, fun _ => ?_⟩
    · rw [hT, launch, session_setSession_self]
      rfl
    · rw [launch, session_setSession_self, h₂]
      exact ⟨rfl, (fun h => by cases h), fun _ => ⟨fun _ => rfl, fun _ => hq⟩,
        fun _ _ => ⟨p, rfl, ht, hpg, hkey⟩⟩
  · have hF : p.Launches l = false := by simp [hL, hd]
    refine ⟨he₂.trans he₁, ?_, fun h => by simp [hF] at h, fun h => by simp [hF] at h⟩
    rw [hF, session_setSession_self, h₂]
    exact hi.off

/-- A start of another chain takes nothing. -/
theorem started_launch (h : s.Accounted) (hi : s.Idle sid) (hp : (s.session sid).pendingUdpPort = 0)
    (p : StartParams) {c : Chain} (hc : c ≠ .fm) : Started sid s (s.launch sid p c) true where
  explorer := rfl
  active := by rw [launch, session_setSession_self]; rfl
  books _ := h.setSession rfl rfl rfl
  neat _ := by
    rw [launch, session_setSession_self]
    exact ⟨hp, nofun, fun _ => ⟨fun hn => absurd hi.port hn, fun he => absurd he hc⟩,
      fun _ he => absurd he hc⟩

/-- A start that is refused changes nothing. -/
theorem started_not (hi : s.Idle sid) : Started sid s s false :=
  ⟨rfl, hi.off, nofun, nofun⟩

/-- A start after a stream was opened. -/
theorem Started.of_explorer {ok : Bool} (h : Started sid s' s'' ok)
    (he : s'.explorer = s.explorer) :
    Started sid s s'' ok := ⟨h.explorer.trans he, h.active, h.books, h.neat⟩

/-- **A start from a session that may start**: it runs exactly when nothing fails, and then
everything is accounted for. -/
theorem Ready.started {p : StartParams} {l : Launch} (h : s.Ready sid p)
    (hs : s.startPipeline sid p l = some s') :
    Started sid ((s.stopPipeline sid l.now).openStream sid p l.now) s' (p.Launches l) := by
  obtain ⟨hb, hi, hpend⟩ := h.stopPipeline l.now
  set t := (s.stopPipeline sid l.now).openStream sid p l.now
  have hb' : t.Accounted := hb.of_sessions rfl rfl rfl
  have hi' : t.Idle sid := ⟨hi.off, hi.port, hi.klist⟩
  have hpend' : ¬ p.Plain → (t.session sid).pendingUdpPort = 0 := fun hn =>
    hpend.trans (h.pending.resolve_right fun hp => hn hp.2)
  rw [startPipeline] at hs
  split_ifs at hs with ht hpg
  · cases hs
    have hp := hpend' fun hp => Bool.false_ne_true (hp.1.symm.trans ht)
    rw [startTetra]
    simp only [StartParams.Launches, ht, if_true]
    split_ifs with ho
    · exact ho ▸ started_launch hb' hi' hp p fun h => by cases h
    · exact (Bool.not_eq_true _ ▸ ho) ▸ started_not hi'
  · cases hs
    have hp := hpend' fun hp => Bool.false_ne_true (hp.2.1.symm.trans hpg)
    rw [startPager]
    simp only [StartParams.Launches, ht, hpg, if_true, Bool.false_eq_true, if_false]
    split_ifs with hm ho
    · have hm' : pocsagModeIsKnown p.pocsagMode = false := by simpa using hm
      exact hm' ▸ started_not hi'
    · have ho' : l.pagerOk = false := by simpa using ho
      rw [ho', Bool.and_false]
      exact started_not hi'
    · have hm' : pocsagModeIsKnown p.pocsagMode = true := by simpa using hm
      have ho' : l.pagerOk = true := by simpa using ho
      rw [hm', ho']
      set x := (t.session sid).withPager (some p.pagerDemod)
      have hx : (t.setSession sid x).session sid = x := session_setSession_self t sid x
      have hix : (t.setSession sid x).Idle sid :=
        ⟨by rw [hx]; exact hi'.off, by rw [hx]; exact hi'.port, by rw [hx]; exact hi'.klist⟩
      have hbx : (t.setSession sid x).Accounted := hb'.setSession rfl rfl rfl
      have hc : Chain.pager ≠ .fm := by decide
      exact (started_launch hbx hix (by rw [hx]; exact hp) p hc).of_explorer rfl
  · exact started_fm hb' hi' (by simpa using ht) (by simpa using hpg) hs

/-! ## The streams of the explorer

The stream is opened before anything can fail, and only a stop of a running pipeline ends it. -/

/-- Whether a stream runs is part of its tuning. -/
theorem running_of_tuning {c c' : Ctx} (h : c'.tuning = c.tuning) : c'.running = c.running :=
  congrArg Prod.fst h

/-- A stop ends the stream of its session, if it does anything. -/
theorem running_stopPipeline (s : Server) (sid : ℕ) (now : ℤ) (i : ℕ) :
    ((s.stopPipeline sid now).explorer.ctx i).running =
      if i = sid ∧ (s.session sid).pipelineActive then false else (s.explorer.ctx i).running := by
  cases ha : (s.session sid).pipelineActive with
  | false =>
    rw [stopPipeline_of_idle s now ha]
    simp
  | true =>
    obtain ⟨ports, files, he, -, -⟩ := stopPipeline_of_active s now ha
    rw [he]
    have h := congrArg Prod.fst (s.explorer.tuning_endStream (L := s.explorer.limits) sid now i)
    rw [apply_ite Prod.fst] at h
    change ((s.explorer.step (.finish sid now)).ctx i).running = _ at h
    change ((s.explorer.step (.finish sid now)).ctx i).running = _
    simp only [and_true]
    exact h

theorem running_openStream (s : Server) (sid : ℕ) (p : StartParams) (now : ℤ) (i : ℕ) :
    ((s.openStream sid p now).explorer.ctx i).running =
      if i = sid then true else (s.explorer.ctx i).running := by
  have h :=
    congrArg Prod.fst (s.explorer.tuning_beginStream (L := s.explorer.limits) sid p.hint.label
    now [] ((s.session sid).channelFreq s.freqStep p.freqOffset) i)
  rw [apply_ite Prod.fst] at h
  exact h

/-! ## Runs

A step without a failed start keeps order.  One with a failed start leaves a running stream without
a pipeline: the state is not tidy, and the run is not. -/

/-- **Everything in order.** -/
structure InOrder (s : Server) : Prop where
  books : s.Accounted
  neat : ∀ i, (s.session i).Neat
  streams : ∀ i, (s.explorer.ctx i).running = (s.session i).pipelineActive
  ids : ∀ i ∈ s.sessions, i ≤ s.lastId

theorem neat_blank : Session.Neat {} := ⟨rfl, fun _ => ⟨rfl, rfl⟩, nofun, nofun⟩

/-- **Where all is in order, all is accounted for.** -/
theorem InOrder.tidy (h : s.InOrder) : s.Tidy where
  ports q := by
    rw [h.books.ports]
    constructor
    · rintro ⟨i, hq, hu | hp⟩
      · have ha : (s.session i).pipelineActive = true := by
          by_contra ha
          exact hq (hu ▸ ((h.neat i).idle (by simpa using ha)).1)
        exact ⟨i, ha, ((h.neat i).port ha).1 (hu ▸ hq), hu⟩
      · exact absurd ((h.neat i).pending ▸ hp) (Ne.symm hq)
    · rintro ⟨i, ha, hc, rfl⟩
      exact ⟨i, ((h.neat i).port ha).2 hc, .inl rfl⟩
  streams i := by rw [h.streams]
  files f hf := by
    obtain ⟨hne, i, hi⟩ := (h.books.files f).1 hf
    refine ⟨i, ?_, hi⟩
    by_contra ha
    exact hne (hi ▸ ((h.neat i).idle (by simpa using ha)).2)

/-- One session changes what it does not hold. -/
theorem InOrder.setSession (h : s.InOrder) (hm : sid ∈ s.sessions) {x : Session}
    (hu : x.udpAudioPort = (s.session sid).udpAudioPort)
    (hp : x.pendingUdpPort = (s.session sid).pendingUdpPort)
    (hk : x.klistPath = (s.session sid).klistPath)
    (ha : x.pipelineActive = (s.session sid).pipelineActive) (hc : x.chain = (s.session sid).chain)
    (hl : x.lastStart = (s.session sid).lastStart) : (s.setSession sid x).InOrder where
  books := h.books.setSession hu hp hk
  neat i := by
    rw [session_setSession]
    split_ifs with hi
    · have hn := h.neat sid
      exact ⟨hp ▸ hn.pending, by rw [ha, hu, hk]; exact hn.idle, by rw [ha, hu, hc]; exact hn.port,
        by rw [ha, hc, hl]; exact hn.again⟩
    · exact h.neat i
  streams i := by
    rw [session_setSession]
    split_ifs with hi
    · rw [ha, ← hi]
      exact h.streams i
    · exact h.streams i
  ids i hi := (SortedMap.mem_insert.1 hi).elim (fun hi => hi ▸ h.ids sid hm) (h.ids i)

/-- The explorer goes on, and its streams run as before. -/
theorem InOrder.explore (h : s.InOrder) {g : AssocModel → AssocModel}
    (hg : ∀ i, ((g s.explorer).ctx i).running = (s.explorer.ctx i).running) :
    (s.explore g).InOrder where
  books := h.books.of_sessions rfl rfl rfl
  neat := h.neat
  streams i := (hg i).trans (h.streams i)
  ids := h.ids

theorem Frame.inOrder_ids (hf : Frame sid s s') (h : s.InOrder) (hm : sid ∈ s.sessions) :
    ∀ i ∈ s'.sessions, i ≤ s'.lastId := fun i hi => by
  rw [hf.lastId]
  exact (hf.ids i hi).elim (fun he => he ▸ h.ids sid hm) (h.ids i)

/-- **A stop keeps everything in order.** -/
theorem InOrder.stopPipeline (h : s.InOrder) (hm : sid ∈ s.sessions) (now : ℤ) :
    (s.stopPipeline sid now).InOrder ∧
      ((s.stopPipeline sid now).session sid).pipelineActive = false := by
  have hf := Frame.stopPipeline s sid now
  have hb := h.books.stopPipeline now (.inl (h.neat sid).pending)
  have hself : ((s.stopPipeline sid now).session sid).Neat ∧
      ((s.stopPipeline sid now).session sid).pipelineActive = false := by
    cases ha : (s.session sid).pipelineActive with
    | false =>
      rw [stopPipeline_of_idle s now ha]
      exact ⟨h.neat sid, ha⟩
    | true =>
      obtain ⟨ports, files, he, -, -⟩ := stopPipeline_of_active s now ha
      have hx : (s.stopPipeline sid now).session sid = (s.session sid).halted := by
        rw [he]
        exact session_setSession_self s sid _
      rw [hx]
      exact ⟨⟨(h.neat sid).pending, fun _ => ⟨rfl, rfl⟩, nofun, nofun⟩, rfl⟩
  refine ⟨⟨hb, fun i => ?_, fun i => ?_, hf.inOrder_ids h hm⟩, hself.2⟩
  · by_cases hi : i = sid
    · exact hi ▸ hself.1
    · rw [hf.other i hi]
      exact h.neat i
  · rw [running_stopPipeline]
    by_cases hi : i = sid
    · subst hi
      rw [hself.2, h.streams i]
      cases (s.session i).pipelineActive <;> simp
    · rw [if_neg fun hc => hi hc.1, hf.other i hi]
      exact h.streams i

/-- **A start that does not fail keeps everything in order; one that fails does not.** -/
theorem start_inOrder {p : StartParams} {l : Launch} (hr : s.Ready sid p)
    (hn : ∀ i, i ≠ sid → (s.session i).Neat)
    (hst : ∀ i, (s.explorer.ctx i).running = (s.session i).pipelineActive)
    (hid : ∀ i ∈ s.sessions, i ≤ s.lastId) (hm : sid ∈ s.sessions)
    (hs : s.startPipeline sid p l = some s') :
    if p.Launches l then s'.InOrder else ¬ s'.Tidy := by
  have h := hr.started hs
  have hf := Frame.startPipeline hs
  have hrun : ∀ i, (s'.explorer.ctx i).running =
      if i = sid then true else (s.session i).pipelineActive := fun i => by
    rw [h.explorer, running_openStream, running_stopPipeline]
    split_ifs with hi hi'
    · rfl
    · exact absurd hi'.1 hi
    · exact hst i
  split_ifs with hL
  · rw [hL] at h
    refine ⟨h.books rfl, fun i => ?_, fun i => ?_, fun i hi => ?_⟩
    · by_cases hi : i = sid
      · exact hi ▸ h.neat rfl
      · rw [hf.other i hi]
        exact hn i hi
    · rw [hrun]
      split_ifs with hi
      · rw [hi, h.active]
      · rw [hf.other i hi]
    · rw [hf.lastId]
      exact (hf.ids i hi).elim (fun he => he ▸ hid sid hm) (hid i)
  · intro ht
    have ha := (ht.streams sid).1 (by rw [hrun, if_pos rfl])
    rw [h.active] at ha
    exact hL ha

/-- A step that leaves everything in order, and has no start that fails. -/
theorem inOrder_or {P : Prop} (h : P) (h' : s'.InOrder) : (P → s'.InOrder) ∧ (¬ P → ¬ s'.Tidy) :=
  ⟨fun _ => h', fun hn => absurd h hn⟩

/-- **A restart** keeps order exactly when its start succeeds. -/
theorem InOrder.restartPipeline (h : s.InOrder) (hm : sid ∈ s.sessions) {l : Launch}
    (hs : s.restartPipeline sid l = some s') :
    ((∀ p, s.restarts sid = some p → p.Launches l) → s'.InOrder) ∧
      (¬ (∀ p, s.restarts sid = some p → p.Launches l) → ¬ s'.Tidy) := by
  rw [Server.restartPipeline] at hs
  unfold restarts
  split at hs
  · next hl =>
    cases hs
    exact inOrder_or (fun p hp => by simp [hl] at hp) h
  · next p hl =>
    split_ifs at hs with ha hc
    · cases hs
      have ha' : (s.session sid).pipelineActive = false := by simpa using ha
      exact inOrder_or (fun p hp => by simp [ha'] at hp) h
    · cases hs
      exact inOrder_or (fun p hp => by simp [hc] at hp) h
    · rw [not_not] at hc
      have ha' : (s.session sid).pipelineActive = true := by simpa using ha
      obtain ⟨p', hl', hplain⟩ := (h.neat sid).again ha' hc
      cases hl.symm.trans hl'
      set x := (s.session sid).keepPort
      have hx : (s.setSession sid x).session sid = x := session_setSession_self s sid x
      have hbooks : (s.setSession sid x).Accounted := by
        refine h.books.congr rfl rfl (fun i q => ?_) fun i => ?_
        · rw [session_setSession]
          split_ifs with hi
          · rw [hi]
            simp only [Session.Holds, x, Session.keepPort, (h.neat sid).pending]
            grind
          · exact Iff.rfl
        · rw [session_setSession]
          split_ifs with hi
          · rw [hi]
            rfl
          · rfl
      have hready : (s.setSession sid x).Ready sid p :=
        ⟨hbooks, by rw [hx]; exact fun hn => Bool.noConfusion (ha'.symm.trans hn),
          .inr ⟨by rw [hx]; rfl, hplain⟩⟩
      have hstart := start_inOrder hready
        (fun i hi => by rw [session_setSession_ne s x hi]; exact h.neat i)
        (fun i => by
          rw [session_setSession]
          split_ifs with hi
          · rw [hi]
            exact h.streams sid
          · exact h.streams i)
        (fun i hi => (SortedMap.mem_insert.1 hi).elim (fun he => he ▸ h.ids sid hm) (h.ids i))
        (SortedMap.mem_insert.2 (.inl rfl)) hs
      simp only [ha', hc, true_and, if_true, hl, Option.some.injEq, forall_eq']
      split_ifs at hstart with hL
      · exact inOrder_or hL hstart
      · exact ⟨fun hL' => absurd hL' hL, fun _ => hstart⟩

/-- **A request** keeps order exactly when its start, if it is one, succeeds. -/
theorem InOrder.serve (h : s.InOrder) (hm : sid ∈ s.sessions) {l : Launch} {r : Request}
    (hs : s.serve sid l r = some s') :
    ((∀ center p, r = .start center p → p.Launches l) → s'.InOrder) ∧
      (¬ (∀ center p, r = .start center p → p.Launches l) → ¬ s'.Tidy) := by
  cases r with
  | start center p =>
    have h' := h.setSession hm (x := (s.session sid).tuneTo center) rfl rfl rfl rfl rfl rfl
    have hm' : sid ∈ (s.setSession sid ((s.session sid).tuneTo center)).sessions :=
      SortedMap.mem_insert.2 (.inl rfl)
    have hready : (s.setSession sid ((s.session sid).tuneTo center)).Ready sid p :=
      ⟨h'.books, (h'.neat sid).idle, .inl (h'.neat sid).pending⟩
    have hstart := start_inOrder hready (fun i _ => h'.neat i) h'.streams h'.ids hm' hs
    have hiff : (∀ center' p', Request.start center p = .start center' p' → p'.Launches l) ↔
        p.Launches l := ⟨fun h => h center p rfl, fun h _ _ he => by cases he; exact h⟩
    rw [hiff]
    split_ifs at hstart with hL
    · exact inOrder_or hL hstart
    · exact ⟨fun hL' => absurd hL' hL, fun _ => hstart⟩
  | setGain gain =>
    cases hs
    have hx : (s.setSession sid ((s.session sid).setGain gain)).InOrder := by
      apply h.setSession hm
      all_goals
        rw [Session.setGain]
        split_ifs <;> rfl
    exact inOrder_or (fun _ _ he => by cases he) hx
  | setFreqOffset hz =>
    cases hs
    have h' : (s.setSession sid ((s.session sid).setFreqOffset hz)).InOrder := by
      apply h.setSession hm
      all_goals
        rw [Session.setFreqOffset]
        split <;> rfl
    refine inOrder_or (fun _ _ he => by cases he) ?_
    rw [Server.setFreqOffset]
    split_ifs
    · refine h'.explore fun i => ?_
      have ht := congrArg Prod.fst (s.explorer.tuning_retuneStream (L := s.explorer.limits) sid
        (channelHz ((s.session sid).centerFreq.add hz) s.freqStep) l.now i)
      rw [apply_ite Prod.fst] at ht
      exact ht.trans (ite_self _)
    · exact h'
  | stop =>
    cases hs
    exact inOrder_or (fun _ _ he => by cases he) (h.stopPipeline hm l.now).1
  | unknown type =>
    cases hs
    exact inOrder_or (fun _ _ he => by cases he) h

theorem InOrder.connect (h : s.InOrder) : s.connect.InOrder := by
  have hnew : s.lastId + 1 ∉ s.sessions := fun hm => absurd (h.ids _ hm) (Nat.not_succ_le_self _)
  have hsame : ∀ i, s.connect.session i = s.session i := fun i => by
    rw [Server.connect, session_setSession]
    split_ifs with hi
    · rw [hi, session_of_not_mem hnew]
    · rfl
  refine ⟨h.books.congr rfl rfl (fun i q => by rw [hsame]) fun i => by rw [hsame],
    fun i => by rw [hsame]; exact h.neat i, fun i => by
    rw [hsame]; exact h.streams i, fun i hi => ?_⟩
  exact (SortedMap.mem_insert.1 hi).elim le_of_eq fun hi => (h.ids i hi).trans (Nat.le_succ _)

theorem InOrder.disconnect (h : s.InOrder) (hm : sid ∈ s.sessions) (now : ℤ) :
    (s.disconnect sid now).InOrder := by
  obtain ⟨h', hoff⟩ := h.stopPipeline hm now
  set t := s.stopPipeline sid now
  have hsess : ∀ i, (s.disconnect sid now).session i = if i = sid then {} else t.session i :=
    session_erase t sid
  have hidle := (h'.neat sid).idle hoff
  refine ⟨h'.books.congr rfl rfl (fun i q => ?_) fun i => ?_, fun i => ?_, fun i => ?_,
    fun i hi => ?_⟩
  · rw [hsess]
    split_ifs with hi
    · rw [hi]
      refine iff_of_false (not_holds_blank q) ?_
      rintro ⟨hq, hu | hp⟩
      · exact hq (hu ▸ hidle.1)
      · exact hq (hp ▸ (h'.neat sid).pending)
    · exact Iff.rfl
  · rw [hsess]
    split_ifs with hi
    · rw [hi, hidle.2]
    · rfl
  · rw [hsess]
    split_ifs
    · exact neat_blank
    · exact h'.neat i
  · have ht :=
      congrArg Prod.fst (t.explorer.tuning_removeSession (L := t.explorer.limits) sid now i)
    rw [apply_ite Prod.fst] at ht
    rw [hsess]
    refine (show ((s.disconnect sid now).explorer.ctx i).running = _ from ht).trans ?_
    split_ifs
    · rfl
    · exact h'.streams i
  · exact h'.ids i (SortedMap.mem_erase.1 hi).2

/-- **A step in which no start fails keeps everything in order; another does not.** -/
theorem InOrder.step (h : s.InOrder) {op : Op} (hs : s.step op = some s') :
    (s.Launches op → s'.InOrder) ∧ (¬ s.Launches op → ¬ s'.Tidy) := by
  cases op with
  | connect =>
    cases hs
    exact inOrder_or trivial h.connect
  | message i msg l =>
    simp only [Server.step] at hs
    split_ifs at hs with hm
    rw [handleTextMessage] at hs
    simp only [Launches]
    split at hs
    · next hr =>
      cases hs
      exact inOrder_or (fun center p hp => by rw [hr] at hp; cases hp) h
    · next r hr =>
      have hserve := h.serve hm hs
      simp only [hr, Except.ok.injEq]
      exact hserve
  | restart i l =>
    simp only [Server.step] at hs
    split_ifs at hs with hm
    exact h.restartPipeline hm hs
  | decoded i ev now =>
    simp only [Server.step] at hs
    split_ifs at hs
    cases hs
    exact inOrder_or trivial (h.explore fun j =>
      running_of_tuning (s.explorer.sameTuning_ingest (L := s.explorer.limits) i ev now j))
  | disconnect i now =>
    simp only [Server.step] at hs
    split_ifs at hs with hm
    cases hs
    exact inOrder_or trivial (h.disconnect hm now)

/-- A server that has just started is in order. -/
theorem inOrder_fresh {m : AssocModel} (hm : m.sess = ∅) (freqStep : ℕ) :
    InOrder { explorer := m, freqStep := freqStep } where
  books := ⟨fun q => iff_of_false nofun fun ⟨_, h⟩ => not_holds_blank q h,
    fun i j q h => (not_holds_blank q h).elim,
    fun f => iff_of_false nofun fun ⟨h, _, hf⟩ => h hf.symm, fun i j h => absurd rfl h⟩
  neat _ := neat_blank
  streams i := by
    rw [AssocModel.ctx, hm]
    rfl
  ids i hi := (SortedMap.not_mem_empty i hi).elim

/-- **From a state in order, all states are tidy exactly when no start fails.** -/
theorem InOrder.tidily_iff_cleanly {ops : List Op} :
    ∀ {s : Server}, s.InOrder → (s.Tidily ops ↔ s.Cleanly ops) := by
  induction ops with
  | nil => exact fun h => iff_of_true h.tidy trivial
  | cons op ops ih =>
    intro s h
    simp only [Tidily, Cleanly]
    constructor
    · rintro ⟨-, hrest⟩ s' hs
      have hstep := h.step hs
      have ht : s'.Tidy := by
        have := hrest s' hs
        cases ops with
        | nil => exact this
        | cons op' ops => exact this.1
      have hL : s.Launches op := by
        by_contra hL
        exact hstep.2 hL ht
      exact ⟨hL, (ih (hstep.1 hL)).1 (hrest s' hs)⟩
    · intro hc
      refine ⟨h.tidy, fun s' hs => ?_⟩
      obtain ⟨hL, hrest⟩ := hc s' hs
      exact (ih ((h.step hs).1 hL)).2 hrest

/-- A state with everything accounted for has a free port while fewer FM pipelines run than there
are ports. -/
theorem Tidy.exists_free_port (h : s.Tidy)
    (hn : (s.sessions.entries.filter fun e => e.2.pipelineActive &&
      e.2.chain = .fm).length < 19001) :
    ∃ d : Fin 19001, 40000 + d.val ∉ s.udpPortsInUse := by
  by_contra hall
  push Not at hall
  set running := s.sessions.entries.filter fun e => e.2.pipelineActive && e.2.chain = .fm
  have hsub : (Finset.univ : Finset (Fin 19001)).image (fun d => 40000 + d.val) ⊆
      (running.map fun e => e.2.udpAudioPort).toFinset := fun q hq => by
    obtain ⟨d, -, rfl⟩ := Finset.mem_image.1 hq
    obtain ⟨i, ha, hc, hu⟩ := (h.ports _).1 (hall d)
    have hi : s.sessions.find? i = some (s.session i) := by
      cases hf : s.sessions.find? i with
      | none =>
        rw [session_of_not_mem (SortedMap.find?_eq_none_iff.1 hf)] at ha
        cases ha
      | some x => rw [session, SortedMap.getD, hf]; rfl
    rw [List.mem_toFinset]
    refine List.mem_map.2 ⟨(i, s.session i), List.mem_filter.2 ⟨?_, ?_⟩, hu⟩
    · exact SortedMap.find?_eq_some_iff.1 hi
    · simp [ha, hc]
  have hcard := Finset.card_le_card hsub
  rw [Finset.card_image_of_injective _ fun a b hab => Fin.ext (by simpa using hab),
    Finset.card_univ, Fintype.card_fin] at hcard
  have hlen := List.toFinset_card_le (running.map fun e => e.2.udpAudioPort)
  rw [List.length_map] at hlen
  omega

/-- **What pipelines take is accounted for throughout a run exactly when no start in it fails**; and
then a port is free while fewer FM pipelines run than there are ports. -/
theorem tidily_iff {m : AssocModel} (hm : m.sess = ∅) (freqStep : ℕ) (ops : List Op) :
    (Tidily { explorer := m, freqStep := freqStep } ops ↔
      Cleanly { explorer := m, freqStep := freqStep } ops) ∧
    ∀ s : Server, s.Tidy →
      (s.sessions.entries.filter fun e => e.2.pipelineActive && e.2.chain = .fm).length < 19001 →
      ∃ d : Fin 19001, 40000 + d.val ∉ s.udpPortsInUse :=
  ⟨(inOrder_fresh hm freqStep).tidily_iff_cleanly, fun _ => Tidy.exists_free_port⟩

instance decidableLaunches (s : Server) : (op : Op) → Decidable (s.Launches op)
  | .connect => isTrue trivial
  | .message _ msg l =>
    match h : readRequest msg with
    | .ok (.start center p) =>
      decidable_of_iff (p.Launches l = true)
        ⟨fun hL _ _ he => by rw [h] at he; cases he; exact hL, fun hL => hL center p h⟩
    | .ok (.setGain _) => isTrue fun _ _ he => by rw [h] at he; cases he
    | .ok (.setFreqOffset _) => isTrue fun _ _ he => by rw [h] at he; cases he
    | .ok .stop => isTrue fun _ _ he => by rw [h] at he; cases he
    | .ok (.unknown _) => isTrue fun _ _ he => by rw [h] at he; cases he
    | .error _ => isTrue fun _ _ he => by rw [h] at he; cases he
  | .restart sid l =>
    match h : s.restarts sid with
    | none => isTrue fun _ he => by rw [h] at he; cases he
    | some p =>
      decidable_of_iff (p.Launches l = true)
        ⟨fun hL _ he => by rw [h] at he; cases he; exact hL, fun hL => hL p h⟩
  | .decoded _ _ _ => isTrue trivial
  | .disconnect _ _ => isTrue trivial

instance decidableCleanly : (ops : List Op) → (s : Server) → Decidable (s.Cleanly ops)
  | [], _ => isTrue trivial
  | op :: ops, s =>
    match h : s.step op with
    | none => isTrue fun _ hs => by rw [h] at hs; cases hs
    | some s' =>
      have := decidableCleanly ops s'
      decidable_of_iff (s.Launches op ∧ s'.Cleanly ops)
        ⟨fun hL _ hs => by rw [h] at hs; cases hs; exact hL, fun hL => hL s' h⟩

/-- Nothing fails while two receivers start and one restarts. -/
theorem tidily_twoReceivers : Tidily {} twoReceivers :=
  ((tidily_iff (m := {}) rfl 1250 twoReceivers).1).2 (by decide +kernel)

/-- A start that the decoder refuses. -/
def refused : List Op :=
  [.connect, .message 1 (lit "\x7b\"type\":\"start\",\"protocol\":\"dmr\"\x7d") { draws := [7] }]

/-- **A start the decoder refuses leaves its port in use and its stream running**, with no
pipeline. -/
theorem not_tidy_refused : ∃ s, Server.run {} refused = some s ∧ s.Reachable ∧
    40007 ∈ s.udpPortsInUse ∧ (s.explorer.ctx 1).running = true ∧
    (s.session 1).pipelineActive = false ∧ ¬ s.Tidy := by
  obtain ⟨s, hs⟩ : ∃ s, Server.run {} refused = some s :=
    Option.isSome_iff_exists.1 (by decide +kernel)
  have hv : (Server.run {} refused).any (fun s => decide (40007 ∈ s.udpPortsInUse) &&
      (s.explorer.ctx 1).running && !(s.session 1).pipelineActive) := by decide +kernel
  rw [hs] at hv
  simp only [Option.any_some, Bool.and_eq_true, decide_eq_true_eq, Bool.not_eq_true'] at hv
  obtain ⟨⟨h1, h2⟩, h3⟩ := hv
  refine ⟨s, hs, reachable_blank.run hs, h1, h2, h3, fun ht => ?_⟩
  exact Bool.false_ne_true (h3.symm.trans ((ht.streams 1).1 h2))

end Server

end DsdServer
