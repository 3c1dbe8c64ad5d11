import DsdServer.Server.IqQueue

/-!
# Server/IqRuns — what holds in every interleaving

* `blocks_in_order` — **each block reaches the demodulator once, and in order**, unless 64 newer
  ones wait behind it.
* `worker_safe` — the worker takes nothing from an empty queue, and has no block without a
  demodulator.
* `worker_takes` — **a block that waits is taken**: no notification of one is lost.
* `stop_ends_iff` — **a stop ends** unless its notification falls between the worker's test and its
  sleep.
* `capture_faithful` — a capture holds what the client sent while it was open, as far as its cap.

The first two are read off the invariant; the next two are about what can follow a state, and are
shown by going along the steps of the worker; and the last has an invariant of its own, which is
about the captures alone.
-/

open Bytes

namespace DsdServer

namespace IqSession

variable {s : IqSession} {r : IqSession × List IqEvent} {es : List IqEvent} {as : List IqAction}

/-- Where a run comes to. -/
def after (as : List IqAction) : IqSession × List IqEvent := (run as).getD ({}, [])

/-- A run that is one has a last state. -/
theorem run_after (h : (run as).isSome) : run as = some ((after as).1, (after as).2) := by
  rw [after, Option.getD_of_ne_none (Option.isSome_iff_ne_none.1 h)]

/-! ## The blocks

What was read since the launch is what has left the queue, then what is in it, then the block that
waits for the lock, in this order.  Blocks that left have been taken, dropped as the oldest of too
many, or cleared at a stop. -/

/-- **Each block reaches the demodulator once, and in order.**  The blocks read since the last
launch leave the queue in the order they were read in; those the worker takes go through the
demodulator one by one; one that is dropped has 64 newer ones behind it, and none goes otherwise
while the pipeline runs. -/
theorem blocks_in_order (h : run as = some (s, es)) :
    let p := IqPast.of es
    p.read = p.left.map Prod.fst ++ (s.iqQueue ++ s.strand.pending) ∧
      s.iqQueue.length ≤ kMaxQueuedBlocks ∧
      (p.left.filter fun e => e.2 = .taken).map Prod.fst = p.demodulated ++ s.worker.inHand ∧
      (∀ i b, p.left[i]? = some (b, .dropped) → i + kMaxQueuedBlocks < p.read.length) ∧
      (s.pipelineActive = true → ∀ e ∈ p.left, e.2 ≠ .cleared) := by
  obtain ⟨-, hf⟩ := sound_run h
  exact ⟨hf.read, hf.room, hf.taken, hf.waited, hf.kept⟩

/-- A block goes through the demodulator while the next one is read. -/
def twoBlocks : List IqAction :=
  [.receive (.start (some {})), .receive (.frame (lit "ABCDEFGH")), .strand, .strand, .worker,
    .worker, .worker, .worker, .receive (.frame (lit "abcdefgh")), .worker, .strand]

theorem blocks_in_order_twoBlocks :
    let s := (after twoBlocks).1
    let p := IqPast.of (after twoBlocks).2
    (p.read = p.left.map Prod.fst ++ (s.iqQueue ++ s.strand.pending) ∧
      s.iqQueue.length ≤ kMaxQueuedBlocks ∧
      (p.left.filter fun e => e.2 = .taken).map Prod.fst = p.demodulated ++ s.worker.inHand ∧
      (∀ i b, p.left[i]? = some (b, .dropped) → i + kMaxQueuedBlocks < p.read.length) ∧
      (s.pipelineActive = true → ∀ e ∈ p.left, e.2 ≠ .cleared)) ∧
    p.demodulated = [lit "ABCDEFGH"] ∧ s.iqQueue = [lit "abcdefgh"] :=
  ⟨blocks_in_order (run_after (by decide)), by decide, by decide⟩

/-! ## The worker

That a block which waits is taken says nothing of one state, but of what can follow: the steps of
the worker itself lead there, place by place, from wherever in its loop it is. -/

/-- **The worker is safe**: it has no block without a demodulator, takes none from an empty queue,
and sleeps on none but one that it is about to be notified of. -/
theorem worker_safe (h : run as = some (s, es)) :
    (∀ block, s.worker = .working block → s.demod = true) ∧
      (s.worker = .ready → s.workerRunning = true → s.iqQueue ≠ []) ∧
      (s.worker = .asleep → s.strand ≠ .notifying → s.iqQueue = []) := by
  obtain ⟨hsound, -⟩ := sound_run h
  refine ⟨fun block hw => hsound.demod (by simp [hw]), fun hw hr => ?_, fun hw hn => ?_⟩
  · exact (hsound.ready hw).resolve_left fun hf => Bool.false_ne_true (hf.symm.trans hr)
  · exact (hsound.asleep hw).resolve_right hn

theorem worker_safe_twoBlocks : let s := (after twoBlocks).1
    (∀ block, s.worker = .working block → s.demod = true) ∧
      (s.worker = .ready → s.workerRunning = true → s.iqQueue ≠ []) ∧
      (s.worker = .asleep → s.strand ≠ .notifying → s.iqQueue = []) :=
  worker_safe (run_after (by decide))

/-- The worker's next steps, by itself. -/
def workerRun (n : ℕ) (s : IqSession) : Option (IqSession × List IqEvent) :=
  runFrom (s, []) (List.replicate n .worker)

/-- What a run reports does not depend on what was reported before. -/
theorem runFrom_events (es₁ es₂ : List IqEvent) :
    ∀ (as : List IqAction) {s : IqSession} {r : IqSession × List IqEvent},
    runFrom (s, es₁) as = some r → ∃ es', runFrom (s, es₂) as = some (r.1, es') := by
  intro as
  induction as generalizing es₁ es₂ with
  | nil =>
    intro s r h
    rw [← Option.some.inj h]
    exact ⟨es₂, rfl⟩
  | cons a as ih =>
    intro s r h
    rw [runFrom, List.foldlM_cons, Option.bind_eq_bind, Option.bind_eq_some_iff] at h
    obtain ⟨r₁, h₁, hrest⟩ := h
    obtain ⟨r₂, h₂, rfl⟩ := Option.map_eq_some_iff.1 h₁
    obtain ⟨es', hes⟩ := ih (es₁ ++ r₂.2) (es₂ ++ r₂.2) hrest
    refine ⟨es', ?_⟩
    rw [runFrom, List.foldlM_cons, h₂]
    exact hes

/-- The worker comes to `q` by its own steps. -/
def Comes (q : IqSession → Prop) (s : IqSession) : Prop := ∃ n r, workerRun n s = some r ∧ q r.1

theorem comes_now {q : IqSession → Prop} (h : q s) : Comes q s := ⟨0, (s, []), rfl, h⟩

/-- What comes about after a step of the worker comes about. -/
theorem comes_step {q : IqSession → Prop} (hs : s.workerStep = some r) (h : Comes q r.1) :
    Comes q s := by
  obtain ⟨n, t, hn, hq⟩ := h
  obtain ⟨es', hes⟩ := runFrom_events [] r.2 _ hn
  refine ⟨n + 1, (t.1, es'), ?_, hq⟩
  rw [workerRun, List.replicate_succ, runFrom, List.foldlM_cons]
  change ((s.workerStep).map _).bind _ = _
  rw [hs]
  exact hes

/-- To put the worker where it is changes nothing. -/
theorem with_worker {w : Worker} (hw : s.worker = w) : { s with worker := w } = s := by rw [← hw]

/-- A wait ends when there is a block, or none is to come. -/
theorem comes_testing {q : IqSession → Prop} (hw : s.worker = .testing)
    (hwork : s.iqQueue ≠ [] ∨ s.workerRunning = false) (h : Comes q { s with worker := .ready }) :
    Comes q s :=
  comes_step (r := ({ s with worker := .ready }, [])) (by simp [workerStep, hw, hwork]) h

/-- A worker that wants the lock gets to the queue, where there is something for it. -/
theorem comes_locking {q : IqSession → Prop} (hw : s.worker = .locking)
    (hwork : s.iqQueue ≠ [] ∨ s.workerRunning = false) (h : Comes q { s with worker := .ready }) :
    Comes q s :=
  comes_step (r := ({ s with worker := .testing }, [])) (by simp [workerStep, hw])
    (comes_testing rfl hwork h)

/-- **A block that waits is taken**: while the pipeline runs, the worker comes to the first block of
the queue by its own steps, unless it is about to be notified of it. -/
theorem worker_takes (h : run as = some (s, es)) (hactive : s.pipelineActive = true)
    (hstrand : s.strand ≠ .notifying) {block : Bytes} {rest : List Bytes}
    (hq : s.iqQueue = block :: rest) :
    Comes (fun t => t.worker = .working block ∧ t.iqQueue = rest ∧ t.demod = true) s := by
  obtain ⟨hsound, -⟩ := sound_run h
  obtain ⟨hrunning, hlive⟩ := hsound.active hactive
  have hdemod := hsound.demod hlive
  have hwork : s.iqQueue ≠ [] ∨ s.workerRunning = false := Or.inl (by simp [hq])
  have hready : Comes (fun t => t.worker = .working block ∧ t.iqQueue = rest ∧ t.demod = true)
      { s with worker := .ready } := by
    refine comes_step
      (r := ({ s with iqQueue := rest, worker := .working block }, [.taken block])) ?_
      (comes_now ⟨rfl, rfl, hdemod⟩)
    simp [workerStep, hrunning, hq]
  have hlooping : Comes (fun t => t.worker = .working block ∧ t.iqQueue = rest ∧ t.demod = true)
      { s with worker := .looping } := by
    refine comes_step (r := ({ s with worker := .locking }, [])) ?_ (comes_locking rfl hwork hready)
    simp [workerStep, hrunning]
  cases hw : s.worker with
  | absent => exact absurd hw hlive
  | exited => exact absurd ((hsound.exited hw).symm.trans hrunning) Bool.false_ne_true
  | dozing => exact absurd (hq.symm.trans (hsound.dozing hw)) (List.cons_ne_nil _ _)
  | asleep =>
    rcases hsound.asleep hw with he | he
    · exact absurd (hq.symm.trans he) (List.cons_ne_nil _ _)
    · exact absurd he hstrand
  | ready => exact with_worker hw ▸ hready
  | looping => exact with_worker hw ▸ hlooping
  | testing => exact comes_testing hw hwork hready
  | locking => exact comes_locking hw hwork hready
  | working b =>
    refine comes_step (r := ({ s with worker := .looping }, [.demodulated b])) ?_ hlooping
    simp [workerStep, hw, hdemod]

/-- A block is read while the worker sleeps. -/
def wokenRun : List IqAction :=
  [.receive (.start (some {})), .worker, .worker, .worker, .worker,
    .receive (.frame (lit "ABCDEFGH")), .strand, .strand]

theorem worker_takes_wokenRun :
    Comes (fun t => t.worker = .working (lit "ABCDEFGH") ∧ t.iqQueue = [] ∧ t.demod = true)
      (after wokenRun).1 :=
  worker_takes (run_after (by decide)) (by decide) (by decide) (by decide)

/-! ## Stops

A stop clears the flag of the worker and notifies it, both without the lock.  If the worker has
tested the flag and not yet gone to sleep, the notification comes too early, and it sleeps on.  The
condition is that the notification does not fall just there. -/

/-- A stop that waits for a worker in its sleep, or on its way there, goes on to wait. -/
def Hangs (s : IqSession) : Prop :=
  (∃ next, s.strand = .joining next) ∧ (s.worker = .dozing ∨ s.worker = .asleep)

/-- A session that hangs still does after any step but a spurious waking. -/
theorem hangs_step (h : s.Hangs) {a : IqAction} (ha : a ≠ .spurious) (hs : s.step a = some r) :
    r.1.Hangs := by
  obtain ⟨⟨next, hst⟩, hw⟩ := h
  cases a with
  | spurious => exact absurd rfl ha
  | receive m => simp [step, receive, hst] at hs
  | strand =>
    rcases hw with hw | hw <;> simp [step, strandStep, hst, hw] at hs
  | worker =>
    rcases hw with hw | hw
    · simp only [step, workerStep, hw, Option.some.injEq] at hs
      subst hs
      exact ⟨⟨next, hst⟩, Or.inr rfl⟩
    · simp [step, workerStep, hw] at hs

/-- **So it hangs for good**, unless a sleep ends by itself. -/
theorem hangs_run :
    ∀ {bs : List IqAction} {r t : IqSession × List IqEvent}, r.1.Hangs → .spurious ∉ bs →
    runFrom r bs = some t → t.1.Hangs := by
  intro bs
  induction bs with
  | nil =>
    intro r t h _ hrun
    rw [← Option.some.inj hrun]
    exact h
  | cons a bs ih =>
    intro r t h hbs hrun
    rw [runFrom, List.foldlM_cons, Option.bind_eq_bind, Option.bind_eq_some_iff] at hrun
    obtain ⟨r₁, h₁, hrest⟩ := hrun
    obtain ⟨r₂, h₂, rfl⟩ := Option.map_eq_some_iff.1 h₁
    rw [List.mem_cons, not_or] at hbs
    have hr : r₂.1.Hangs := hangs_step h (Ne.symm hbs.1) h₂
    exact ih (r := (r₂.1, r.2 ++ r₂.2)) hr hbs.2 hrest

/-- Once its flag is cleared, a worker that is awake comes to its end. -/
theorem comes_exited (hrunning : s.workerRunning = false) (habsent : s.worker ≠ .absent)
    (hdozing : s.worker ≠ .dozing) (hasleep : s.worker ≠ .asleep) :
    Comes (fun t => t.worker = .exited) s := by
  have hready : Comes (fun t => t.worker = .exited) { s with worker := .ready } :=
    comes_step (r := ({ s with worker := .exited }, [])) (by simp [workerStep, hrunning])
      (comes_now rfl)
  have hlooping : Comes (fun t => t.worker = .exited) { s with worker := .looping } :=
    comes_step (r := ({ s with worker := .exited }, [])) (by simp [workerStep, hrunning])
      (comes_now rfl)
  cases hw : s.worker with
  | absent => exact absurd hw habsent
  | dozing => exact absurd hw hdozing
  | asleep => exact absurd hw hasleep
  | exited => exact comes_now hw
  | looping => exact with_worker hw ▸ hlooping
  | ready => exact with_worker hw ▸ hready
  | testing => exact comes_testing hw (Or.inr hrunning) hready
  | locking => exact comes_locking hw (Or.inr hrunning) hready
  | working b =>
    exact comes_step
      (r := ({ s with worker := .looping }, if s.demod then [.demodulated b] else []))
      (by simp [workerStep, hw]) hlooping

/-- **A stop ends**, without a sleep ending by itself, exactly unless its notification falls between
the worker's test and the worker's sleep. -/
theorem stop_ends_iff (h : run as = some (s, es)) {next : Option IqLaunch}
    (hst : s.strand = .alerting next) (hs : s.strandStep = some r) :
    (∃ bs t, .spurious ∉ bs ∧ runFrom (r.1, []) bs = some t ∧ t.1.worker = .exited) ↔
      s.worker ≠ .dozing := by
  obtain ⟨hsound, -⟩ := sound_run h
  have hp := hsound.phase
  simp only [Phase, hst] at hp
  simp only [strandStep, hst, Option.some.injEq] at hs
  subst hs
  constructor
  · rintro ⟨bs, t, hbs, hrun, ht⟩ hw
    have hangs :=
      hangs_run (r := ({ s with worker := s.worker.notified, strand := .joining next }, []))
      ⟨⟨next, rfl⟩, Or.inl (by rw [hw]; rfl)⟩ hbs hrun
    rcases hangs.2 with hd | hd <;> exact absurd hd (by simp [ht])
  · intro hw
    obtain ⟨n, t, hrun, ht⟩ :=
      comes_exited (s := { s with worker := s.worker.notified, strand := .joining next })
      hp.2.2 (notified_ne_absent hp.2.1) (fun hd => hw (notified_eq (by simp) hd))
        (notified_ne_asleep s.worker)
    exact ⟨List.replicate n .worker, t, fun hm => absurd (List.eq_of_mem_replicate hm)
      (by simp), hrun, ht⟩

/-- A stop comes right after the worker has found the queue empty. -/
def missedRun : List IqAction :=
  [.receive (.start (some {})), .worker, .worker, .worker, .receive .stop, .strand]

/-- **It never ends.** -/
theorem stop_ends_iff_missedRun : ∃ r, (after missedRun).1.strandStep = some r ∧
    ¬∃ bs t, .spurious ∉ bs ∧ runFrom (r.1, []) bs = some t ∧ t.1.worker = .exited := by
  obtain ⟨r, hr⟩ : ∃ r, (after missedRun).1.strandStep = some r :=
    Option.isSome_iff_exists.1 (by decide)
  have hst : (after missedRun).1.strand = .alerting none := by decide
  exact ⟨r, hr, fun hends => (stop_ends_iff (run_after (by decide)) hst hr).1 hends (by decide)⟩

end IqSession

/-! ## Captures

A capture has the frames read since it was opened, one after the other, up to its limit.  A frame
that was refused for its length is not among them. -/

/-- What a capture with a cap keeps of what it is given: whole samples, up to the cap. -/
def keptOf (maxBytes : ℕ) (sent : Bytes) : Bytes :=
  if maxBytes = 0 then sent else sent.take (maxBytes - maxBytes % 8)

/-- The writer that has been given `sent`. -/
def BlueFileWriter.given (maxBytes : ℕ) (sent : Bytes) : BlueFileWriter where
  maxBytes := maxBytes
  bytes := (keptOf maxBytes sent).length
  truncated := decide (0 < maxBytes ∧ maxBytes < sent.length)
  file := { data := keptOf maxBytes sent }

/-- A full capture keeps nothing more. -/
theorem keptOf_append_full {maxBytes : ℕ} {sent : Bytes} (hm : 0 < maxBytes)
    (h : maxBytes ≤ sent.length) (data : Bytes) :
    keptOf maxBytes (sent ++ data) = keptOf maxBytes sent := by
  rw [keptOf, keptOf, if_neg (by omega), if_neg (by omega),
    List.take_append_of_le_length (by omega)]

/-- What fits is kept as it is. -/
theorem keptOf_fits {maxBytes : ℕ} {sent : Bytes} (h8 : 8 ∣ sent.length)
    (h : sent.length ≤ maxBytes) :
    keptOf maxBytes sent = sent := by
  rw [keptOf]
  split_ifs
  · rfl
  · exact List.take_of_length_le (by omega)

/-- **One more frame.** -/
theorem BlueFileWriter.given_write (maxBytes : ℕ) {sent data : Bytes} (hs : 8 ∣ sent.length)
    (hd : 8 ∣ data.length) :
    (given maxBytes sent).write data = given maxBytes (sent ++ data) := by
  rcases Nat.eq_zero_or_pos maxBytes with rfl | hm
  · simp [write, given, keptOf]
  · by_cases hfull : maxBytes < sent.length
    · have ht : (given maxBytes sent).truncated = true := decide_eq_true ⟨hm, hfull⟩
      rw [write, if_pos ht, given, given, keptOf_append_full hm hfull.le, List.length_append]
      congr 1
      exact decide_eq_decide.2 (by omega)
    · have ht : (given maxBytes sent).truncated = false := decide_eq_false (by omega)
      have hkept := keptOf_fits hs (not_lt.1 hfull)
      rw [write, ht, if_neg Bool.false_ne_true]
      by_cases hover : maxBytes < sent.length + data.length
      · have hroom : (if sent.length < maxBytes then maxBytes - sent.length else 0) =
            maxBytes - sent.length := by
          split_ifs <;> omega
        have hmod : (maxBytes - sent.length) % 8 = maxBytes % 8 := by omega
        have hnew : keptOf maxBytes (sent ++ data) = sent ++
            data.take (maxBytes - sent.length - maxBytes % 8) := by
          rw [keptOf, if_neg (by omega), List.take_append, List.take_of_length_le (by omega)]
          congr 2
          omega
        rw [if_pos (by simp only [given, hkept]; exact ⟨hm, hover⟩)]
        simp only [given, hkept, hroom, hmod, hnew]
        congr 1
        · rw [List.length_append, List.length_take]
          omega
        · exact (decide_eq_true ⟨hm, by rwa [List.length_append]⟩).symm
      · rw [if_neg (by simp only [given, hkept]; exact fun h => hover h.2)]
        have hall : 8 ∣ (sent ++ data).length := by
          rw [List.length_append]
          exact Nat.dvd_add hs hd
        rw [given, given, hkept, keptOf_fits hall (by rw [List.length_append]; omega),
          List.length_append]
        congr 1
        exact (decide_eq_false fun h => hover h.2).symm

/-- What the captures are given: the one that is open, with its cap, and those before it. -/
structure Captured where
  current : Option (ℕ × Bytes) := none
  before : List (ℕ × Bytes) := []

namespace Captured

variable (c : Captured)

/-- One more event: a capture is opened or closed, or a frame comes. -/
def note : IqEvent → Captured
  | .opened maxBytes => { c with current := some (maxBytes, []) }
  | .read data => { c with current := c.current.map fun x => (x.1, x.2 ++ data) }
  | .closed => { current := none, before := c.before ++ c.current.toList }
  | _ => c

/-- The captures of a run, and what was read for each. -/
def of (es : List IqEvent) : Captured := es.foldl note {}

end Captured

namespace IqSession

variable {s : IqSession} {r : IqSession × List IqEvent} {es : List IqEvent} {as : List IqAction}
  {c : Captured}

/-- The captures are those of what was read while they were open. -/
structure Files (s : IqSession) (c : Captured) : Prop where
  current : s.iqLog = c.current.map fun x => .given x.1 x.2
  before : s.captures = c.before.map fun x => ⟨(keptOf x.1 x.2).length, keptOf x.1 x.2⟩
  aligned : ∀ x ∈ c.current, 8 ∣ x.2.length

/-- The threads, the queue and the replies do not matter to the captures. -/
theorem Files.aside (h : s.Files c) (active running demod : Bool) (queue : List Bytes)
    (replies : List Bytes) (w : Worker) (strand : Strand) :
    Files { s with
      pipelineActive := active
      workerRunning := running
      demod := demod
      iqQueue := queue
      replies := replies
      worker := w
      strand := strand } c := ⟨h.current, h.before, h.aligned⟩

/-- A capture that is opened is empty. -/
theorem Files.openIqLog (h : s.Files c) (opened : Option ℕ) :
    (s.openIqLog opened).1.Files ((s.openIqLog opened).2.foldl Captured.note c) := by
  unfold IqSession.openIqLog
  split
  · next maxBytes hlog =>
    refine ⟨?_, h.before, ?_⟩
    · simp [Captured.note, BlueFileWriter.given, keptOf]
    · rintro x hx
      obtain rfl := Option.some.inj hx
      exact Nat.dvd_zero 8
  · exact h

/-- One that is closed is kept, with its size. -/
theorem Files.closeIqLog (h : s.Files c) :
    s.closeIqLog.1.Files (s.closeIqLog.2.foldl Captured.note c) := by
  have hcurrent := h.current
  unfold IqSession.closeIqLog
  split
  · exact h
  · next w hw =>
    rw [hw] at hcurrent
    cases hc : c.current with
    | none => simp [hc] at hcurrent
    | some x =>
      rw [hc, Option.map_some, Option.some.injEq] at hcurrent
      refine ⟨rfl, ?_, by simp [Captured.note]⟩
      simp [Captured.note, hc, h.before, hcurrent, BlueFileWriter.close, BlueFileWriter.given]

/-- A launch opens a capture, or none. -/
theorem Files.launch (h : s.Files c) (l : IqLaunch) :
    (s.launch l).1.Files ((s.launch l).2.foldl Captured.note c) := by
  have ho := (h.aside s.pipelineActive s.workerRunning true s.iqQueue s.replies s.worker
    s.strand).openIqLog l.capture
  rw [IqSession.launch, List.foldl_cons]
  exact ho.aside _ _ _ _ _ _ _

theorem Files.proceed (h : s.Files c) (next : Option IqLaunch) :
    (s.proceed next).1.Files ((s.proceed next).2.foldl Captured.note c) := by
  cases next with
  | none => exact h.aside _ _ _ _ _ _ _
  | some l => exact h.launch l

/-- The beginning of a stop changes no capture. -/
theorem Files.halt (h : s.Files c) (next : Option IqLaunch) :
    (s.halt next).1.Files ((s.halt next).2.foldl Captured.note c) := by
  rw [IqSession.halt]
  split_ifs
  · exact h.aside _ _ _ _ _ _ _
  · exact h.proceed next

/-- **What a message does to the captures.** -/
theorem Files.receive (h : s.Files c) {m : Message} (hs : s.receive m = some r) :
    r.1.Files (r.2.foldl Captured.note c) := by
  unfold IqSession.receive at hs
  split_ifs at hs
  rw [Option.some.injEq] at hs
  subst hs
  cases m with
  | start next => exact h.halt next
  | stop => exact h.halt none
  | iqLogging on opened =>
    change Files (s.setIqLogging on opened).1 ((s.setIqLogging on opened).2.foldl _ c)
    rw [setIqLogging]
    split_ifs
    · exact h.openIqLog opened
    · exact h
    · exact h.closeIqLog
  | frame data =>
    change Files (s.handleBinaryMessage data).1 ((s.handleBinaryMessage data).2.foldl _ c)
    rw [handleBinaryMessage]
    split_ifs with ha hlen
    · exact h
    · exact h.aside _ _ _ _ _ _ _
    · have hd : 8 ∣ data.length := Nat.dvd_of_mod_eq_zero (not_not.1 hlen)
      refine ⟨?_, h.before, fun x hx => ?_⟩
      · change s.iqLog.map _ = (c.current.map _).map _
        rw [h.current]
        cases hc : c.current with
        | none => rfl
        | some x => exact congrArg some (BlueFileWriter.given_write x.1 (h.aligned x hc) hd)
      · obtain ⟨y, hy, rfl⟩ := Option.map_eq_some_iff.1 hx
        rw [List.length_append]
        exact Nat.dvd_add (h.aligned y hy) hd

/-- What a step of the strand does to them. -/
theorem Files.strandStep (h : s.Files c) (hs : s.strandStep = some r) :
    r.1.Files (r.2.foldl Captured.note c) := by
  rw [IqSession.strandStep] at hs
  split at hs
  · cases hs
  · split_ifs at hs
    rw [Option.some.injEq] at hs
    subst hs
    rw [push]
    split_ifs
    · cases s.iqQueue <;> exact h.aside _ _ _ _ _ _ _
    · exact h.aside _ _ _ _ _ _ _
  · rw [← Option.some.inj hs]
    exact h.aside _ _ _ _ _ _ _
  · rw [← Option.some.inj hs]
    exact h.aside _ _ _ _ _ _ _
  · rw [← Option.some.inj hs]
    exact h.aside _ _ _ _ _ _ _
  · split_ifs at hs
    rw [← Option.some.inj hs]
    exact h.aside _ _ _ _ _ _ _
  · next next _ =>
    rw [← Option.some.inj hs]
    have hc :=
      (h.aside s.pipelineActive s.workerRunning s.demod [] s.replies s.worker s.strand).closeIqLog
    rw [List.foldl_cons, List.foldl_append]
    exact hc.proceed next

theorem Files.workerStep (h : s.Files c) (hs : s.workerStep = some r) :
    r.1.Files (r.2.foldl Captured.note c) := by
  rw [IqSession.workerStep] at hs
  split at hs
  · cases hs
  · cases hs
  · cases hs
  · rw [← Option.some.inj hs]
    exact h.aside _ _ _ _ _ _ _
  · rw [← Option.some.inj hs]
    exact h.aside _ _ _ _ _ _ _
  · rw [← Option.some.inj hs]
    exact h.aside _ _ _ _ _ _ _
  · split_ifs at hs
    · rw [← Option.some.inj hs]
      exact h.aside _ _ _ _ _ _ _
    · split at hs
      · cases hs
      · rw [← Option.some.inj hs]
        exact h.aside _ _ _ _ _ _ _
  · rw [← Option.some.inj hs]
    exact h.aside _ _ _ _ _ _ _
  · rw [← Option.some.inj hs]
    cases s.demod <;> exact h.aside _ _ _ _ _ _ _

/-- **A capture is faithful**: it holds what was read while it was open, whatever the queue dropped
of it, in whole samples as far as its cap, and a closed one says how much that is. -/
theorem capture_faithful (h : run as = some (s, es)) :
    (s.iqLog = (Captured.of es).current.map fun x => .given x.1 x.2) ∧
      s.captures = (Captured.of es).before.map fun x =>
        ⟨(keptOf x.1 x.2).length, keptOf x.1 x.2⟩ := by
  have hfiles : s.Files (Captured.of es) := by
    refine runFrom_induction (P := fun s es => s.Files (Captured.of es))
      (fun {s es a r} hf hs => ?_)
      (r := ({}, [])) ⟨rfl, rfl, by simp [Captured.of]⟩ h
    rw [Captured.of, List.foldl_append]
    cases a with
    | receive m => exact hf.receive hs
    | strand => exact hf.strandStep hs
    | worker => exact hf.workerStep hs
    | spurious =>
      rw [step] at hs
      split_ifs at hs
      rw [← Option.some.inj hs]
      exact hf.aside _ _ _ _ _ _ _
  exact ⟨hfiles.current, hfiles.before⟩

/-- The second frame fills the capture. -/
def cappedRun : List IqAction :=
  [.receive (.start (some { capture := some 20 })), .receive (.frame (lit "ABCDEFGH")),
    .strand, .strand,
    .receive (.frame (lit "IJKLMNOPQRSTUVWX")), .strand, .strand, .receive (.iqLogging false none)]

theorem capture_faithful_cappedRun :
    let s := (after cappedRun).1
    let c := Captured.of (after cappedRun).2
    ((s.iqLog = c.current.map fun x => .given x.1 x.2) ∧
      s.captures = c.before.map fun x => ⟨(keptOf x.1 x.2).length, keptOf x.1 x.2⟩) ∧
    s.captures = [⟨16, lit "ABCDEFGHIJKLMNOP"⟩] :=
  ⟨capture_faithful (run_after (by decide)), by decide⟩

end IqSession

end DsdServer
