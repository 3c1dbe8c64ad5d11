import DsdServer.Server.Session

/-!
# Server/Ports — no two sessions use one port

A session holds the port its decoder's audio comes in on, and during a restart the one it keeps.
Whatever a session does, it gives back only what it held and takes only what was free (`Shift`), so
no two sessions come to hold one port.

* `ports_exclusive` — **in every state a server gets into, running sessions use different ports**,
  and no step frees a port that is not its session's own.

The set of ports in use is shared by all sessions, and a session that gives a port back twice would
free another one's.  That is why the invariant is not only about the set, but also about which
session holds what.
-/

open Bytes

namespace DsdServer

/-- The session holds a port: audio comes in on it, or it is kept across a restart. -/
def Session.Holds (x : Session) (q : ℕ) : Prop :=
  q ≠ 0 ∧ (x.udpAudioPort = q ∨ x.pendingUdpPort = q)

namespace Server

variable {s s' s'' : Server} {sid : ℕ}

/-! ## Sessions

Sessions are kept by number.  One that does not exist is blank, so that no case is needed for it. -/

/-- A session that is changed, and the others. -/
theorem session_setSession (s : Server) (sid : ℕ) (x : Session) (i : ℕ) :
    (s.setSession sid x).session i = if i = sid then x else s.session i := by
  rw [session, setSession, SortedMap.getD_insert]
  rfl

@[simp] theorem session_setSession_self (s : Server) (sid : ℕ) (x : Session) :
    (s.setSession sid x).session sid = x := by rw [session_setSession, if_pos rfl]

theorem session_setSession_ne (s : Server) {sid i : ℕ} (x : Session) (h : i ≠ sid) :
    (s.setSession sid x).session i = s.session i := by rw [session_setSession, if_neg h]

/-- The explorer does not matter to the sessions. -/
@[simp] theorem session_explore (s : Server) (g : AssocModel → AssocModel) (i : ℕ) :
    (s.explore g).session i = s.session i := rfl

/-! ## The invariant

A session holds the port it listens on, and in a restart the one it keeps.  What one session does is
summed up in three clauses (`Shift`), which compose, so that each operation is treated once and a
step is put together from them. -/

/-- **The ports sessions hold are in use, and no two hold one.** -/
structure PortsHeld (s : Server) : Prop where
  inUse : ∀ i q, (s.session i).Holds q → q ∈ s.udpPortsInUse
  apart : ∀ i j q, (s.session i).Holds q → (s.session j).Holds q → i = j

/-- **What one session does to the ports**: it gives back what it held and takes what was free. -/
structure Shift (sid : ℕ) (s s' : Server) : Prop where
  held : s.PortsHeld → s'.PortsHeld
  released : ∀ q ∈ s.udpPortsInUse, q ∉ s'.udpPortsInUse → (s.session sid).Holds q
  taken : ∀ q, (s'.session sid).Holds q → (s.session sid).Holds q ∨ q ∉ s.udpPortsInUse

namespace Shift

theorem refl (s : Server) : Shift sid s s := ⟨id, fun _ h h' => absurd h h', fun _ => .inl⟩

theorem trans (h : Shift sid s s') (h' : Shift sid s' s'') : Shift sid s s'' where
  held := h'.held ∘ h.held
  released q hq hq'' := by
    by_cases hq' : q ∈ s'.udpPortsInUse
    · exact (h.taken q (h'.released q hq' hq'')).resolve_right fun hn => hn hq
    · exact h.released q hq hq'
  taken q hq := by
    obtain hq | hq := h'.taken q hq
    · exact h.taken q hq
    · by_cases hs : q ∈ s.udpPortsInUse
      · exact .inl (h.released q hs hq)
      · exact .inr hs

/-- The session holds no more than before, and the ports stay as they are. -/
theorem of_holds (hp : s'.udpPortsInUse = s.udpPortsInUse)
    (ho : ∀ i, i ≠ sid → s'.session i = s.session i)
    (hs : ∀ q, (s'.session sid).Holds q → (s.session sid).Holds q) : Shift sid s s' := by
  have hh : ∀ i q, (s'.session i).Holds q → (s.session i).Holds q := fun i q hq => by
    by_cases hi : i = sid
    · rw [hi] at hq ⊢
      exact hs q hq
    · rwa [ho i hi] at hq
  exact
    { held h := ⟨fun i q hq => hp ▸ h.inUse i q (hh i q hq),
        fun i j q hi hj => h.apart i j q (hh i q hi) (hh j q hj)⟩
      released q h h' := absurd (hp ▸ h) h'
      taken q hq := .inl (hs q hq) }

/-- A change of the session that leaves its ports. -/
theorem setSession {x : Session} (hu : x.udpAudioPort = (s.session sid).udpAudioPort)
    (hp : x.pendingUdpPort = (s.session sid).pendingUdpPort) :
    Shift sid s (s.setSession sid x) := by
  refine of_holds rfl (fun i hi => session_setSession_ne s x hi) fun q hq => ?_
  rw [session_setSession_self, Session.Holds, hu, hp] at hq
  exact hq

/-- Nothing about the sessions and the ports changes. -/
theorem of_eq (hp : s'.udpPortsInUse = s.udpPortsInUse) (hs : s'.sessions = s.sessions) :
    Shift sid s s' :=
  of_holds hp (fun i _ => by rw [session, session, hs]) fun q hq => by
    rwa [session, hs] at hq

/-- **A stop** gives the port back, unless one is kept. -/
theorem stopPipeline (s : Server) (sid : ℕ) (now : ℤ) : Shift sid s (s.stopPipeline sid now) := by
  rw [Server.stopPipeline]
  dsimp only
  split_ifs with ha hp
  · exact refl s
  · rw [releaseUdpPort]
    split_ifs with hu
    · refine trans (of_holds ?_ ?_ ?_ :
        Shift sid s ((s.removeKlist _).setSession sid (s.session sid).halted))
        (of_eq rfl rfl)
      · rw [removeKlist]
        split_ifs <;> rfl
      · intro i hi
        rw [session_setSession_ne _ _ hi, removeKlist]
        split_ifs <;> rfl
      · rintro q ⟨hq, h⟩
        simp only [session_setSession_self, Session.halted] at h
        exact absurd (h.elim id (hp ▸ ·)) (Ne.symm hq)
    · set x := s.session sid
      set s₁ : Server := { s with udpPortsInUse := s.udpPortsInUse.erase x.udpAudioPort }
      set s₂ := (s₁.removeKlist x.klistPath).setSession sid x.halted
      have hport : s₂.udpPortsInUse = s.udpPortsInUse.erase x.udpAudioPort := by
        change (s₁.removeKlist x.klistPath).udpPortsInUse = _
        rw [removeKlist]
        split_ifs <;> rfl
      have hother : ∀ i, i ≠ sid → s₂.session i = s.session i := fun i hi => by
        rw [session_setSession_ne _ _ hi, removeKlist]
        split_ifs <;> rfl
      have hself : ∀ q, ¬ (s₂.session sid).Holds q := by
        rintro q ⟨hq, h⟩
        simp only [s₂, session_setSession_self, Session.halted] at h
        exact hq (h.elim Eq.symm fun h => h ▸ hp)
      have hown : x.Holds x.udpAudioPort := ⟨hu, .inl rfl⟩
      refine trans (?_ : Shift sid s s₂) (of_eq rfl rfl)
      refine ⟨fun h => ⟨fun i q hq => ?_, fun i j q hi hj => ?_⟩, fun q hq hq' => ?_,
        fun q hq => ?_⟩
      · have hi : i ≠ sid := fun hi => hself q (hi ▸ hq)
        rw [hother i hi] at hq
        rw [hport, SortedMap.mem_erase]
        exact ⟨fun he => hi (h.apart i sid q hq (he ▸ hown)), h.inUse i q hq⟩
      · have hi' : i ≠ sid := fun h => hself q (h ▸ hi)
        have hj' : j ≠ sid := fun h => hself q (h ▸ hj)
        rw [hother i hi'] at hi
        rw [hother j hj'] at hj
        exact h.apart i j q hi hj
      · rw [hport, SortedMap.mem_erase, not_and'] at hq'
        exact not_not.1 (hq' hq) ▸ hown
      · exact absurd hq (hself q)
  · refine trans (of_holds ?_ ?_ ?_ :
        Shift sid s ((s.removeKlist _).setSession sid (s.session sid).halted))
      (of_eq rfl rfl)
    · rw [removeKlist]
      split_ifs <;> rfl
    · intro i hi
      rw [session_setSession_ne _ _ hi, removeKlist]
      split_ifs <;> rfl
    · rintro q ⟨hq, h⟩
      simp only [session_setSession_self, Session.halted] at h
      exact ⟨hq, .inr (h.resolve_left (Ne.symm hq))⟩

/-- **A pipeline's port** is the one kept for it, or one nobody had. -/
theorem takePort {draws : List (Fin 19001)} (h : s.takePort sid draws = some s') :
    Shift sid s s' := by
  rw [Server.takePort] at h
  split_ifs at h with hp
  · cases h
    refine of_holds rfl (fun i hi => session_setSession_ne s _ hi) ?_
    rintro q ⟨hq, h⟩
    simp only [session_setSession_self, Session.listen] at h
    exact ⟨hq, .inr (h.resolve_right (Ne.symm hq))⟩
  · obtain ⟨p, hacq, rfl⟩ := Option.map_eq_some_iff.1 h
    rw [acquireUdpPort] at hacq
    obtain ⟨d, hd, rfl⟩ := Option.map_eq_some_iff.1 hacq
    have hfree : 40000 + d.val ∉ s.udpPortsInUse := by simpa using List.find?_some hd
    set f := 40000 + d.val
    set x := s.session sid
    set s₁ : Server := { s with udpPortsInUse := s.udpPortsInUse.add f }
    have hself : ∀ q, ((s₁.setSession sid (x.listen f)).session sid).Holds q → q = f := by
      rintro q ⟨hq, h⟩
      simp only [session_setSession_self, Session.listen] at h
      exact (h.resolve_right (Ne.symm hq)).symm
    have hother : ∀ i, i ≠ sid → (s₁.setSession sid (x.listen f)).session i = s.session i :=
      fun i hi => session_setSession_ne s₁ _ hi
    have hmine : ∀ h : s.PortsHeld, ∀ i q, i ≠ sid → (s.session i).Holds q → q ≠ f :=
      fun h i q _ hq he => hfree (he ▸ h.inUse i q hq)
    refine ⟨fun h => ⟨fun i q hq => ?_, fun i j q hi hj => ?_⟩, fun q hq hq' => ?_, fun q hq => ?_⟩
    · refine SortedSet.mem_add.2 ?_
      by_cases hi : i = sid
      · exact .inl (hself q (hi ▸ hq))
      · rw [hother i hi] at hq
        exact .inr (h.inUse i q hq)
    · by_cases hi' : i = sid <;> by_cases hj' : j = sid
      · rw [hi', hj']
      · rw [hother j hj'] at hj
        exact absurd (hself q (hi' ▸ hi)) (hmine h j q hj' hj)
      · rw [hother i hi'] at hi
        exact absurd (hself q (hj' ▸ hj)) (hmine h i q hi' hi)
      · rw [hother i hi'] at hi
        rw [hother j hj'] at hj
        exact h.apart i j q hi hj
    · exact absurd (SortedSet.mem_add.2 (.inr hq)) hq'
    · exact .inr (hself q hq ▸ hfree)

theorem launch (s : Server) (sid : ℕ) (p : StartParams) (c : Chain) :
    Shift sid s (s.launch sid p c) :=
  setSession rfl rfl

theorem writeKlist (s : Server) (sid : ℕ) (klist : Option Bytes) :
    Shift sid s (s.writeKlist sid klist) := by
  cases klist with
  | none => exact refl s
  | some path =>
    rw [Server.writeKlist]
    split_ifs
    · exact refl s
    · have hadd : Shift sid s { s with klistFiles := s.klistFiles.add path } := of_eq rfl rfl
      exact hadd.trans (setSession (x := (s.session sid).withKlist path) rfl rfl)

/-- **An FM start** takes a free port, or the one that is kept. -/
theorem startFm {p : StartParams} {l : Launch} (h : s.startFm sid p l = some s') :
    Shift sid s s' := by
  rw [Server.startFm] at h
  split_ifs at h
  · cases h
    exact refl s
  all_goals
    obtain ⟨s₁, ht, rfl⟩ := Option.map_eq_some_iff.1 h
    have hset : Shift sid s (s.setSession sid ((s.session sid).withDemod (some p.fmDemod))) :=
      setSession rfl rfl
    have hfiles := hset.trans ((takePort ht).trans (writeKlist s₁ sid l.klist))
  · exact hfiles.trans (launch _ sid p .fm)
  · have hclear (t : Server) : Shift sid t (t.setSession sid ((t.session sid).withDemod none)) :=
      setSession rfl rfl
    exact hfiles.trans (hclear _)

/-- **A start** is a stop first, and then takes a port. -/
theorem startPipeline {p : StartParams} {l : Launch} (h : s.startPipeline sid p l = some s') :
    Shift sid s s' := by
  rw [Server.startPipeline] at h
  have hopen : Shift sid s ((s.stopPipeline sid l.now).openStream sid p l.now) :=
    (stopPipeline s sid l.now).trans (of_eq rfl rfl)
  refine hopen.trans ?_
  split_ifs at h
  · cases h
    rw [startTetra]
    split_ifs
    · exact launch _ sid p .tetra
    · exact refl _
  · cases h
    rw [startPager]
    split_ifs
    · exact refl _
    · exact refl _
    · have hset (t : Server) : Shift sid t (t.setSession sid
          ((t.session sid).withPager (some p.pagerDemod))) := setSession rfl rfl
      exact (hset _).trans (launch _ sid p .pager)
  · exact startFm h

/-- **A restart** keeps the port over the stop. -/
theorem restartPipeline {l : Launch} (h : s.restartPipeline sid l = some s') : Shift sid s s' := by
  rw [Server.restartPipeline] at h
  split at h
  · cases h
    exact refl s
  · split_ifs at h
    · cases h
      exact refl s
    · cases h
      exact refl s
    · have hkeep : Shift sid s (s.setSession sid (s.session sid).keepPort) := by
        refine of_holds rfl (fun i hi => session_setSession_ne s _ hi) ?_
        rintro q ⟨hq, h⟩
        simp only [session_setSession_self, Session.keepPort] at h
        exact ⟨hq, .inl (h.elim id id)⟩
      exact hkeep.trans (startPipeline h)

theorem serve {l : Launch} {r : Request} (h : s.serve sid l r = some s') : Shift sid s s' := by
  cases r with
  | start center p =>
    have hset : Shift sid s (s.setSession sid ((s.session sid).tuneTo center)) := setSession rfl rfl
    exact hset.trans (startPipeline h)
  | setGain gain =>
    cases h
    exact setSession (by rw [Session.setGain]; split_ifs <;> rfl)
      (by rw [Session.setGain]; split_ifs <;> rfl)
  | setFreqOffset hz =>
    cases h
    rw [Server.setFreqOffset]
    have hset : Shift sid s (s.setSession sid ((s.session sid).setFreqOffset hz)) :=
      setSession (by rw [Session.setFreqOffset]; split <;> rfl)
        (by rw [Session.setFreqOffset]; split <;> rfl)
    split_ifs
    · exact hset.trans (of_eq rfl rfl)
    · exact hset
  | stop =>
    cases h
    exact stopPipeline s sid l.now
  | unknown => cases h; exact refl s

end Shift

/-- The session a step is of; none for a new one. -/
def Op.actor : Op → Option ℕ
  | .connect => none
  | .message i _ _ | .restart i _ | .decoded i _ _ | .disconnect i _ => some i

/-- A session that is not there is blank. -/
theorem session_of_not_mem {i : ℕ} (h : i ∉ s.sessions) : s.session i = {} := by
  rw [session, SortedMap.getD, SortedMap.find?_eq_none_iff.2 h]
  rfl

/-- A session that ends is blank, and the others stay. -/
theorem session_erase (s : Server) (sid i : ℕ) :
    (s.sessions.erase sid).getD i {} = if i = sid then {} else s.session i := by
  rw [SortedMap.getD, SortedMap.find?_erase]
  split_ifs
  · rfl
  · rfl

theorem not_holds_blank (q : ℕ) : ¬ Session.Holds {} q := fun ⟨hq, h⟩ => hq (h.elim Eq.symm Eq.symm)

/-- A session goes, or a new one comes. -/
theorem Shift.blank (hp : s'.udpPortsInUse = s.udpPortsInUse)
    (hs : ∀ i, s'.session i = if i = sid then {} else s.session i) : Shift sid s s' :=
  .of_holds hp (fun i hi => by rw [hs, if_neg hi]) fun q hq => by
    rw [hs, if_pos rfl] at hq
    exact (not_holds_blank q hq).elim

/-- **A step is a shift of its session.** -/
theorem shift_step {op : Op} (h : s.step op = some s') :
    Shift (op.actor.getD (s.lastId + 1)) s s' := by
  cases op with
  | connect =>
    cases h
    exact .blank rfl fun i => session_setSession _ _ _ i
  | message i msg l =>
    simp only [step] at h
    split_ifs at h
    rw [handleTextMessage] at h
    split at h
    · cases h
      exact .refl s
    · exact .serve h
  | restart i l =>
    simp only [step] at h
    split_ifs at h
    exact .restartPipeline h
  | decoded i ev now =>
    simp only [step] at h
    split_ifs at h
    cases h
    exact .of_eq rfl rfl
  | disconnect i now =>
    simp only [step] at h
    split_ifs at h
    cases h
    exact (Shift.stopPipeline s i now).trans
      (.blank rfl fun j => session_erase (s.stopPipeline i now) i j)

/-- **In every state a server gets into, sessions hold different ports.** -/
theorem Reachable.portsHeld (h : s.Reachable) : s.PortsHeld := by
  induction h with
  | fresh step m hm =>
    exact ⟨fun i q hq => (not_holds_blank q hq).elim, fun i j q hq => (not_holds_blank q hq).elim⟩
  | step op _ hs ih => exact (shift_step hs).held ih

/-- **Ports are exclusive.**  Running sessions use different ports, which are marked in use; and a
port a step frees was its session's own, and no other session's. -/
theorem ports_exclusive (h : s.Reachable) :
    (∀ i j, i ≠ j → (s.session i).pipelineActive → (s.session j).pipelineActive →
      (s.session i).udpAudioPort ≠ 0 → (s.session i).udpAudioPort ≠ (s.session j).udpAudioPort) ∧
    (∀ i, (s.session i).udpAudioPort ≠ 0 → (s.session i).udpAudioPort ∈ s.udpPortsInUse) ∧
    ∀ op s', s.step op = some s' → ∀ q ∈ s.udpPortsInUse, q ∉ s'.udpPortsInUse →
      ∃ i, op.actor = some i ∧ (s.session i).Holds q ∧ ∀ j, j ≠ i → ¬ (s.session j).Holds q := by
  have hp := h.portsHeld
  refine ⟨fun i j hij _ _ hi he => ?_, fun i hi => hp.inUse i _ ⟨hi, .inl rfl⟩,
    fun op s' hs q hq hq' => ?_⟩
  · exact hij (hp.apart i j _ ⟨hi, .inl rfl⟩ ⟨hi, .inl he.symm⟩)
  · have hown := (shift_step hs).released q hq hq'
    cases ha : op.actor with
    | none =>
      cases op <;> cases ha
      cases hs
      exact absurd hq hq'
    | some i =>
      rw [ha] at hown
      exact ⟨i, rfl, hown, fun j hj hold => hj (hp.apart j i q hold hown)⟩

/-- Two sessions start FM pipelines, drawing one number, and one restarts. -/
def twoReceivers : List Op :=
  let go (draws : List (Fin 19001)) : Launch := { draws := draws, dsdOk := true }
  let msg := lit "\x7b\"type\":\"start\",\"protocol\":\"dmr\"\x7d"
  [.connect, .connect, .message 1 msg (go [7]), .message 2 msg (go [7, 8]), .restart 1 (go [])]

/-- A run. -/
def run (s : Server) (ops : List Op) : Option Server :=
  ops.foldlM step s

/-- A run leads from reachable states to reachable ones. -/
theorem Reachable.run (h : s.Reachable) {ops : List Op} : s.run ops = some s' → s'.Reachable := by
  induction ops generalizing s with
  | nil =>
    intro hr
    cases hr
    exact h
  | cons op ops ih =>
    intro hr
    simp only [Server.run, List.foldlM_cons, Option.bind_eq_bind, Option.bind_eq_some_iff] at hr
    obtain ⟨s₁, h₁, hr⟩ := hr
    exact ih (.step op h h₁) hr

theorem reachable_blank : Reachable {} := .fresh 1250 {} rfl

theorem ports_exclusive_twoReceivers : ∃ s, Server.run {} twoReceivers = some s ∧
    (s.session 1).udpAudioPort = 40007 ∧ (s.session 2).udpAudioPort = 40008 ∧
    (s.session 1).udpAudioPort ≠ (s.session 2).udpAudioPort := by
  obtain ⟨s, hs⟩ : ∃ s, Server.run {} twoReceivers = some s :=
    Option.isSome_iff_exists.1 (by decide +kernel)
  have hv : (Server.run {} twoReceivers).any (fun s => (s.session 1).pipelineActive &&
      (s.session 2).pipelineActive && (s.session 1).udpAudioPort = 40007 &&
      (s.session 2).udpAudioPort = 40008) := by decide +kernel
  rw [hs] at hv
  simp only [Option.any_some, Bool.and_eq_true, decide_eq_true_eq] at hv
  obtain ⟨⟨⟨h1, h2⟩, h3⟩, h4⟩ := hv
  exact ⟨s, hs, h3, h4,
    (ports_exclusive (reachable_blank.run hs)).1 1 2 (by decide) h1 h2 (by rw [h3]; decide)⟩

end Server

end DsdServer
