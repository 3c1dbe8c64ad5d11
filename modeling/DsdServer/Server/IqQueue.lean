import DsdServer.Json.FlatRound

/-!
# Server/IqQueue — IQ on its way to the demodulator

A session's strand queues the blocks that a client sends, and a worker thread takes them one by one.
The two share the queue's lock, a condition the worker sleeps on, and flags that are read without
the lock; a step below is what nothing of the other thread can come between.

`sound_run` says where the threads can be, and what has become of the blocks, after any
interleaving.
-/

open Bytes

namespace DsdServer

/-! ## The capture

The header of a capture has its size, which is known when it is closed.  A capture with a limit ends
with the last whole sample below it. -/

/-- A capture file: the size its header gives, and what follows the header. -/
structure BlueFile where
  dataSize : ℕ := 0
  data : Bytes := []
  deriving DecidableEq

/-- The writer of a capture, while it is open; there is no limit if `maxBytes` is 0. -/
structure BlueFileWriter where
  maxBytes : ℕ
  bytes : ℕ := 0
  truncated : Bool := false
  file : BlueFile := {}
  deriving DecidableEq

namespace BlueFileWriter

variable (w : BlueFileWriter)

/-- **Write a block**; where it would go beyond the limit, only whole samples up to it are written,
and no more after. -/
def write (data : Bytes) : BlueFileWriter :=
  if w.truncated then w
  else if 0 < w.maxBytes ∧ w.maxBytes < w.bytes + data.length then
    let room := if w.bytes < w.maxBytes then w.maxBytes - w.bytes else 0
    -- whole complex samples
    let room := room - room % 8
    { w with
      bytes := w.bytes + room
      truncated := true
      file := { w.file with data := w.file.data ++ data.take room } }
  else
    { w with bytes := w.bytes + data.length, file := { w.file with data := w.file.data ++ data } }

/-- The size is put into the header at the end. -/
def close : BlueFile := { w.file with dataSize := w.bytes }

end BlueFileWriter

/-! ## The two threads

Both are taken apart at the points where the other can come between: taking the lock, testing, going
to sleep, waking.  A step of one is what it does from one such point to the next. -/

/-- Where the worker is in its loop. -/
inductive Worker
  | absent
  /-- at the loop's head -/
  | looping
  /-- wants the lock -/
  | locking
  /-- has the lock, and what it waits for is to be tested -/
  | testing
  /-- has the lock, and the test succeeded -/
  | ready
  /-- has the lock, and the test failed -/
  | dozing
  /-- sleeps, without the lock -/
  | asleep
  | working (block : Bytes)
  | exited
  deriving DecidableEq

namespace Worker

/-- The worker has the lock. -/
def HoldsLock (w : Worker) : Prop := w = .testing ∨ w = .ready ∨ w = .dozing

instance (w : Worker) : Decidable w.HoldsLock := inferInstanceAs (Decidable (_ ∨ _ ∨ _))

/-- The block it works on. -/
def inHand : Worker → List Bytes
  | .working block => [block]
  | _ => []

/-- What a notification does: a sleep ends. -/
def notified : Worker → Worker
  | .asleep => .locking
  | w => w

end Worker

/-- A pipeline's launch; a capture with the given cap is opened with it. -/
structure IqLaunch where
  capture : Option ℕ := none
  deriving DecidableEq

/-- Where the strand is; `next` is launched when the pipeline has stopped. -/
inductive Strand
  /-- between two messages -/
  | free
  /-- wants the lock, for a block -/
  | queueing (block : Bytes)
  | notifying
  /-- has cleared `pipelineActive` -/
  | halting (next : Option IqLaunch)
  /-- has cleared `workerRunning` -/
  | alerting (next : Option IqLaunch)
  /-- waits for the worker's end -/
  | joining (next : Option IqLaunch)
  /-- has joined the worker -/
  | clearing (next : Option IqLaunch)
  deriving DecidableEq

/-- A session, as its strand and its worker see it. -/
structure IqSession where
  pipelineActive : Bool := false
  workerRunning : Bool := false
  /-- is there a demodulator? -/
  demod : Bool := false
  iqQueue : List Bytes := []
  iqLog : Option BlueFileWriter := none
  /-- the captures that are closed -/
  captures : List BlueFile := []
  replies : List Bytes := []
  worker : Worker := .absent
  strand : Strand := .free
  deriving DecidableEq

/-- What a client sends, and the switch that all sessions share. -/
inductive Message
  | frame (data : Bytes)
  /-- a start, which may fail -/
  | start (launch : Option IqLaunch)
  | stop
  /-- captures are wanted, or not; one is opened with the given cap if it can be -/
  | iqLogging (on : Bool) (opened : Option ℕ)
  deriving DecidableEq

/-- Whose step is next. -/
inductive IqAction
  | receive (m : Message)
  | strand
  | worker
  /-- a sleep may end by itself -/
  | spurious
  deriving DecidableEq

/-- What a step is for the blocks and the captures. -/
inductive IqEvent
  | launched
  | read (block : Bytes)
  | dropped (block : Bytes)
  | taken (block : Bytes)
  | demodulated (block : Bytes)
  | cleared (blocks : List Bytes)
  | opened (maxBytes : ℕ)
  | closed
  deriving DecidableEq

namespace IqSession

/-- The blocks that may wait. -/
def kMaxQueuedBlocks : ℕ := 64

/-- The answer to a frame that is not of whole samples. -/
def lengthError : Bytes :=
  json.writeObject [(lit "type", .str (lit "error")),
    (lit "message", .str (lit "binary frame length not a multiple of 8 bytes"))]

variable (s : IqSession)

/-! ## Captures -/

/-- Open a capture, unless one is open. -/
def openIqLog (opened : Option ℕ) : IqSession × List IqEvent :=
  match s.iqLog, opened with
  | none, some maxBytes => ({ s with iqLog := some { maxBytes := maxBytes } }, [.opened maxBytes])
  | _, _ => (s, [])

/-- Close the capture, if one is open. -/
def closeIqLog : IqSession × List IqEvent :=
  match s.iqLog with
  | none => (s, [])
  | some w => ({ s with iqLog := none, captures := s.captures ++ [w.close] }, [.closed])

/-- **Captures are wanted, or not**; one is opened only while the pipeline runs. -/
def setIqLogging (on : Bool) (opened : Option ℕ) : IqSession × List IqEvent :=
  if on then if s.pipelineActive then s.openIqLog opened else (s, []) else s.closeIqLog

/-! ## The strand

A message is handled in steps: clearing a flag, notifying and joining are separate, because the
worker can run between them. -/

/-- **A launch**: there is a demodulator before there is a worker. -/
def launch (l : IqLaunch) : IqSession × List IqEvent :=
  let r := IqSession.openIqLog { s with demod := true } l.capture
  ({ r.1 with pipelineActive := true, workerRunning := true, worker := .looping, strand := .free },
    .launched :: r.2)

/-- The pipeline has stopped. -/
def proceed : Option IqLaunch → IqSession × List IqEvent
  | none => ({ s with strand := .free }, [])
  | some l => s.launch l

/-- Stop the pipeline if it runs, and launch what comes next. -/
def halt (next : Option IqLaunch) : IqSession × List IqEvent :=
  if s.pipelineActive then ({ s with pipelineActive := false, strand := .halting next }, [])
  else s.proceed next

/-- **A frame of samples**: it is captured as it comes, and waits to be queued. -/
def handleBinaryMessage (data : Bytes) : IqSession × List IqEvent :=
  if s.pipelineActive = false then (s, [])
  else if data.length % 8 ≠ 0 then ({ s with replies := s.replies ++ [lengthError] }, [])
  else ({ s with iqLog := s.iqLog.map (·.write data), strand := .queueing data }, [.read data])

/-- A message is read; the strand reads none while it is at another. -/
def receive (m : Message) : Option (IqSession × List IqEvent) :=
  if s.strand = .free then
    some (match m with
      | .frame data => s.handleBinaryMessage data
      | .start next => s.halt next
      | .stop => s.halt none
      | .iqLogging on opened => s.setIqLogging on opened)
  else none

/-- A block is queued, and the oldest goes when there are too many. -/
def push (block : Bytes) : IqSession × List IqEvent :=
  if kMaxQueuedBlocks ≤ s.iqQueue.length then
    ({ s with iqQueue := s.iqQueue.tail ++ [block], strand := .notifying },
      s.iqQueue.head?.toList.map .dropped)
  else ({ s with iqQueue := s.iqQueue ++ [block], strand := .notifying }, [])

/-- **The strand's next step.** -/
def strandStep : Option (IqSession × List IqEvent) :=
  match s.strand with
  | .free => none
  | .queueing block => if s.worker.HoldsLock then none else some (s.push block)
  | .notifying => some ({ s with worker := s.worker.notified, strand := .free }, [])
  | .halting next => some ({ s with workerRunning := false, strand := .alerting next }, [])
  | .alerting next => some ({ s with worker := s.worker.notified, strand := .joining next }, [])
  | .joining next =>
    if s.worker = .exited then
      some ({ s with worker := .absent, demod := false, strand := .clearing next }, [])
    else none
  | .clearing next =>
    let c := IqSession.closeIqLog { s with iqQueue := [] }
    let r := c.1.proceed next
    some (r.1, .cleared s.iqQueue :: (c.2 ++ r.2))

/-! ## The worker

The test of its condition and the sleep that follows are two steps.  Between them the worker has the
lock, so the queue cannot change; but the flag that it tests is cleared without the lock. -/

/-- **The worker's next step.** -/
def workerStep : Option (IqSession × List IqEvent) :=
  match s.worker with
  | .absent | .asleep | .exited => none
  | .looping => some ({ s with worker := if s.workerRunning then .locking else .exited }, [])
  | .locking => some ({ s with worker := .testing }, [])
  | .testing =>
    some ({ s with worker := if s.iqQueue ≠ [] ∨ s.workerRunning = false then .ready else .dozing },
      [])
  | .ready =>
    if s.workerRunning = false then some ({ s with worker := .exited }, [])
    else
      match s.iqQueue with
      -- nothing is defined for an empty queue
      | [] => none
      | block :: rest => some ({ s with iqQueue := rest, worker := .working block }, [.taken block])
  | .dozing => some ({ s with worker := .asleep }, [])
  | .working block =>
    some ({ s with worker := .looping }, if s.demod then [.demodulated block] else [])

/-! ## Runs

An interleaving is a list that says whose step comes next.  A step that cannot be made, such as the
strand's while it waits for the lock, is no step. -/

/-- **A step** of either thread. -/
def step : IqAction → Option (IqSession × List IqEvent)
  | .receive m => s.receive m
  | .strand => s.strandStep
  | .worker => s.workerStep
  | .spurious => if s.worker = .asleep then some ({ s with worker := .locking }, []) else none

/-- **An interleaving** of the two threads, from a state on. -/
def runFrom (r : IqSession × List IqEvent) (as : List IqAction) :
    Option (IqSession × List IqEvent) :=
  as.foldlM (fun r a => (r.1.step a).map fun r' => (r'.1, r.2 ++ r'.2)) r

/-- A run from the start of a session. -/
def run (as : List IqAction) : Option (IqSession × List IqEvent) := runFrom ({}, []) as

end IqSession

/-- The block that waits for the lock. -/
def Strand.pending : Strand → List Bytes
  | .queueing block => [block]
  | _ => []

/-! ## What becomes of the blocks

Blocks are accounted for by what the steps report: blocks are read, taken, dropped or cleared.  So
the account is kept beside the model and not in it. -/

/-- How a block leaves the queue. -/
inductive Fate
  | taken
  | dropped
  | cleared
  deriving DecidableEq

/-- The blocks since the last launch: those that were read, those that have left the queue, and
those that have been through the demodulator. -/
structure IqPast where
  read : List Bytes := []
  left : List (Bytes × Fate) := []
  demodulated : List Bytes := []
  deriving DecidableEq

namespace IqPast

variable (p : IqPast)

/-- One more event; a launch begins anew. -/
def note : IqEvent → IqPast
  | .launched => {}
  | .read block => { p with read := p.read ++ [block] }
  | .dropped block => { p with left := p.left ++ [(block, .dropped)] }
  | .taken block => { p with left := p.left ++ [(block, .taken)] }
  | .demodulated block => { p with demodulated := p.demodulated ++ [block] }
  | .cleared blocks => { p with left := p.left ++ blocks.map fun b => (b, .cleared) }
  | .opened _ => p
  | .closed => p

/-- What became of the blocks, from the events of a run. -/
def of (es : List IqEvent) : IqPast := es.foldl note {}

end IqPast

namespace IqSession

variable {s : IqSession} {r : IqSession × List IqEvent} {es : List IqEvent} {p : IqPast}

/-! ## Where the threads can be

The invariant has two halves: where the threads can be together with the flags (`Sound`), and where
the blocks are (`Flows`). -/

/-- What holds where the strand is. -/
def Phase (s : IqSession) : Prop :=
  match s.strand with
  | .free => s.pipelineActive = false → s.worker = .absent ∧ s.iqQueue = []
  | .queueing _ => s.pipelineActive = true
  | .notifying => s.pipelineActive = true
  | .halting _ => s.pipelineActive = false ∧ s.worker ≠ .absent
  | .alerting _ => s.pipelineActive = false ∧ s.worker ≠ .absent ∧ s.workerRunning = false
  | .joining _ => s.pipelineActive = false ∧ s.worker ≠ .absent ∧ s.workerRunning = false
  | .clearing _ => s.pipelineActive = false ∧ s.worker = .absent

/-- **What holds between any two steps.** -/
structure Sound (s : IqSession) : Prop where
  phase : s.Phase
  active : s.pipelineActive = true → s.workerRunning = true ∧ s.worker ≠ .absent
  demod : s.worker ≠ .absent → s.demod = true
  exited : s.worker = .exited → s.workerRunning = false
  ready : s.worker = .ready → s.workerRunning = false ∨ s.iqQueue ≠ []
  dozing : s.worker = .dozing → s.iqQueue = []
  asleep : s.worker = .asleep → s.iqQueue = [] ∨ s.strand = .notifying

/-- **What has become of the blocks**: every one that was read is still queued, or has left the
queue in its turn. -/
structure Flows (s : IqSession) (p : IqPast) : Prop where
  read : p.read = p.left.map Prod.fst ++ (s.iqQueue ++ s.strand.pending)
  taken : (p.left.filter fun e => e.2 = .taken).map Prod.fst = p.demodulated ++ s.worker.inHand
  room : s.iqQueue.length ≤ kMaxQueuedBlocks
  waited : ∀ i b, p.left[i]? = some (b, .dropped) → i + kMaxQueuedBlocks < p.read.length
  kept : s.pipelineActive = true → ∀ e ∈ p.left, e.2 ≠ .cleared

theorem sound_start : Sound {} where
  phase _ := ⟨rfl, rfl⟩
  active h := absurd h Bool.false_ne_true
  demod h := absurd rfl h
  exited h := by cases h
  ready h := by cases h
  dozing h := by cases h
  asleep h := by cases h

/-- At the start no block has been read. -/
theorem flows_start : Flows {} {} where
  read := rfl
  taken := rfl
  room := Nat.zero_le _
  waited _ _ h := by simp at h
  kept h := absurd h Bool.false_ne_true

/-! ## Captures aside -/

/-- Opening a capture changes only the capture, and no block. -/
theorem openIqLog_eq (s : IqSession) (opened : Option ℕ) :
    ∃ log, (s.openIqLog opened).1 = { s with iqLog := log } ∧
      (s.openIqLog opened).2.foldl IqPast.note p = p := by
  unfold openIqLog
  split
  · exact ⟨_, rfl, rfl⟩
  · exact ⟨s.iqLog, rfl, rfl⟩

/-- Closing one changes only the captures, and no block. -/
theorem closeIqLog_eq (s : IqSession) :
    ∃ log files, s.closeIqLog.1 = { s with iqLog := log, captures := files } ∧
    s.closeIqLog.2.foldl IqPast.note p = p := by
  rw [closeIqLog]
  split
  · exact ⟨s.iqLog, s.captures, rfl, rfl⟩
  · exact ⟨_, _, rfl, rfl⟩

/-- Captures and replies do not matter to the two threads. -/
theorem Sound.aside (h : s.Sound) (log : Option BlueFileWriter) (files : List BlueFile)
    (replies : List Bytes) :
    Sound { s with iqLog := log, captures := files, replies := replies } :=
  ⟨h.phase, h.active, h.demod, h.exited, h.ready, h.dozing, h.asleep⟩

theorem Flows.aside (h : s.Flows p) (log : Option BlueFileWriter) (files : List BlueFile)
    (replies : List Bytes) :
    Flows { s with iqLog := log, captures := files, replies := replies } p :=
  ⟨h.read, h.taken, h.room, h.waited, h.kept⟩

/-! ## The worker's steps

One lemma for each place the worker can be at. -/

/-- The worker goes on while there is one. -/
theorem Sound.moved (h : s.Sound) (hlive : s.worker ≠ .absent) {queue : List Bytes} {w : Worker}
    (hw : w ≠ .absent) (hexited : w = .exited → s.workerRunning = false)
    (hready : w = .ready → s.workerRunning = false ∨ queue ≠ [])
    (hdozing : w = .dozing → queue = [])
    (hasleep : w = .asleep → queue = [] ∨ s.strand = .notifying) :
    Sound { s with iqQueue := queue, worker := w } where
  phase := by
    have hp := h.phase
    rw [Phase] at hp ⊢
    cases hs : s.strand with
    | free =>
      simp only [hs] at hp ⊢
      exact fun ha => absurd (hp ha).1 hlive
    | queueing block => simpa only [hs] using hp
    | notifying => simpa only [hs] using hp
    | halting next =>
      simp only [hs] at hp ⊢
      exact ⟨hp.1, hw⟩
    | alerting next =>
      simp only [hs] at hp ⊢
      exact ⟨hp.1, hw, hp.2.2⟩
    | joining next =>
      simp only [hs] at hp ⊢
      exact ⟨hp.1, hw, hp.2.2⟩
    | clearing next =>
      simp only [hs] at hp
      exact absurd hp.2 hlive
  active ha := ⟨(h.active ha).1, hw⟩
  demod _ := h.demod hlive
  exited := hexited
  ready := hready
  dozing := hdozing
  asleep := hasleep

/-- …to where nothing is said of it. -/
theorem Sound.freed (h : s.Sound) (hlive : s.worker ≠ .absent) (queue : List Bytes) {w : Worker}
    (hw : w = .locking ∨ w = .testing ∨ w = .looping ∨ ∃ block, w = .working block) :
    Sound { s with iqQueue := queue, worker := w } := by
  rcases hw with rfl | rfl | rfl | ⟨block, rfl⟩ <;> apply h.moved hlive <;> simp

/-- The worker goes on without a block. -/
theorem Flows.moved (h : s.Flows p) {w : Worker} (hw : w.inHand = s.worker.inHand) :
    Flows { s with worker := w } p :=
  ⟨h.read, h.taken.trans (congrArg _ hw.symm), h.room, h.waited, h.kept⟩

/-- The worker takes the first block. -/
theorem Flows.take (h : s.Flows p) (hhand : s.worker.inHand = []) {block : Bytes}
    {rest : List Bytes} (hq : s.iqQueue = block :: rest) :
    Flows { s with iqQueue := rest, worker := .working block } (p.note (.taken block)) where
  read := by
    rw [IqPast.note, h.read, hq]
    simp
  taken := by
    have ht := h.taken
    rw [hhand, List.append_nil] at ht
    rw [IqPast.note, List.filter_append, List.map_append, ht]
    rfl
  room := by
    have hr := h.room
    rw [hq, List.length_cons] at hr
    exact (Nat.le_succ _).trans hr
  waited i b hi := by
    rw [IqPast.note, List.getElem?_append] at hi
    split_ifs at hi with hlt
    · exact h.waited i b hi
    · exact absurd (congrArg Prod.snd (List.mem_singleton.1 (List.mem_of_getElem? hi))) (by simp)
  kept ha e he := by
    rcases List.mem_append.1 he with he | he
    · exact h.kept ha e he
    · simp [List.mem_singleton.1 he]

/-- A block has been through the demodulator. -/
theorem Flows.demodulate (h : s.Flows p) {block : Bytes} (hw : s.worker = .working block) :
    Flows { s with worker := .looping } (p.note (.demodulated block)) where
  read := h.read
  taken := by
    rw [IqPast.note, h.taken, hw]
    exact (List.append_nil _).symm
  room := h.room
  waited := h.waited
  kept := h.kept

/-- **What a step of the worker keeps.** -/
theorem Sound.workerStep (h : s.Sound) (hf : s.Flows p) (hs : s.workerStep = some r) :
    r.1.Sound ∧ r.1.Flows (r.2.foldl IqPast.note p) := by
  rw [IqSession.workerStep] at hs
  cases hw : s.worker with
  | absent => simp [hw] at hs
  | asleep => simp [hw] at hs
  | exited => simp [hw] at hs
  | looping =>
    simp only [hw, Option.some.injEq] at hs
    subst hs
    refine ⟨h.moved (by simp [hw]) ?_ ?_ ?_ ?_ ?_, hf.moved ?_⟩ <;> cases s.workerRunning <;>
      simp [hw, Worker.inHand]
  | locking =>
    simp only [hw, Option.some.injEq] at hs
    subst hs
    exact ⟨h.freed (by simp [hw]) _ (by simp), hf.moved (by rw [hw]; rfl)⟩
  | testing =>
    simp only [hw, Option.some.injEq] at hs
    subst hs
    by_cases ht : s.iqQueue ≠ [] ∨ s.workerRunning = false
    · rw [if_pos ht]
      exact ⟨h.moved (by simp [hw]) (by simp) (by simp) (fun _ => ht.symm) (by simp) (by simp),
        hf.moved (by rw [hw]; rfl)⟩
    · rw [if_neg ht]
      rw [not_or, not_not] at ht
      exact ⟨h.moved (by simp [hw]) (by simp) (by simp) (by simp) (fun _ => ht.1) (by simp),
        hf.moved (by rw [hw]; rfl)⟩
  | ready =>
    simp only [hw] at hs
    by_cases hr : s.workerRunning = false
    · rw [if_pos hr, Option.some.injEq] at hs
      subst hs
      exact ⟨h.moved (by simp [hw]) (by simp) (fun _ => hr) (by simp) (by simp) (by simp),
        hf.moved (by rw [hw]; rfl)⟩
    · rw [if_neg hr] at hs
      cases hq : s.iqQueue with
      | nil => simp [hq] at hs
      | cons block rest =>
        simp only [hq, Option.some.injEq] at hs
        subst hs
        exact ⟨h.freed (by simp [hw]) rest (by simp), hf.take (by rw [hw]; rfl) hq⟩
  | dozing =>
    simp only [hw, Option.some.injEq] at hs
    subst hs
    exact ⟨h.moved (by simp [hw]) (by simp) (by simp) (by simp) (by simp) fun _ =>
      Or.inl (h.dozing hw), hf.moved (by rw [hw]; rfl)⟩
  | working block =>
    have hlive : s.worker ≠ .absent := by simp [hw]
    have hd : (if s.demod then [IqEvent.demodulated block] else []) = [.demodulated block] :=
      if_pos (h.demod hlive)
    simp only [hw, Option.some.injEq, hd] at hs
    subst hs
    exact ⟨h.freed hlive _ (by simp), hf.demodulate hw⟩

/-! ## The strand's steps

One lemma for each place the strand can be at.  A notification only moves a worker that sleeps. -/

theorem notified_ne_asleep (w : Worker) : w.notified ≠ .asleep := by
  cases w <;> simp [Worker.notified]

/-- Only a sleeping worker is changed by a notification. -/
theorem notified_eq {w v : Worker} (hv : v ≠ .locking) (h : w.notified = v) : w = v := by
  cases w with
  | asleep => exact absurd h.symm hv
  | _ => exact h

theorem notified_ne_absent {w : Worker} (hw : w ≠ .absent) : w.notified ≠ .absent :=
  fun h => hw (notified_eq (by simp) h)

theorem inHand_notified (w : Worker) : w.notified.inHand = w.inHand := by cases w <;> rfl

/-- A launch needs an empty queue, and then starts all over. -/
theorem sound_launch (hq : s.iqQueue = []) (l : IqLaunch) :
    (s.launch l).1.Sound ∧ (s.launch l).1.Flows ((s.launch l).2.foldl IqPast.note p) := by
  obtain ⟨log, hlog, hpast⟩ := openIqLog_eq (p := {}) { s with demod := true } l.capture
  rw [launch, List.foldl_cons, IqPast.note, hpast, hlog]
  refine ⟨⟨by simp [Phase], by simp, by simp, by simp, by simp, by simp, by simp⟩, ?_,
    rfl, ?_, ?_, ?_⟩
  · simp [hq, Strand.pending]
  · simp [hq]
  · exact fun _ _ hi => by simp at hi
  · exact fun _ _ he => absurd he List.not_mem_nil

/-- A launch, or none, with everything cleared away before. -/
theorem sound_proceed (h : s.Sound) (hf : s.Flows p) (hworker : s.worker = .absent)
    (hq : s.iqQueue = []) (hpending : s.strand.pending = []) (next : Option IqLaunch) :
    (s.proceed next).1.Sound ∧
      (s.proceed next).1.Flows ((s.proceed next).2.foldl IqPast.note p) := by
  cases next with
  | none =>
    refine ⟨⟨fun _ => ⟨hworker, hq⟩, h.active, h.demod, h.exited, h.ready, h.dozing,
      fun _ => Or.inl hq⟩, ?_, hf.taken, hf.room, hf.waited, hf.kept⟩
    have hread := hf.read
    rwa [hpending] at hread
  | some l => exact sound_launch hq l

theorem sound_halt (h : s.Sound) (hf : s.Flows p) (hs : s.strand = .free) (next : Option IqLaunch) :
    (s.halt next).1.Sound ∧ (s.halt next).1.Flows ((s.halt next).2.foldl IqPast.note p) := by
  have hp := h.phase
  have hpending : s.strand.pending = [] := by rw [hs]; rfl
  rw [Phase, hs] at hp
  rw [halt]
  by_cases ha : s.pipelineActive = true
  · rw [if_pos ha]
    obtain ⟨-, hlive⟩ := h.active ha
    have hread := hf.read
    rw [hpending] at hread
    refine ⟨⟨⟨rfl, hlive⟩, by simp, h.demod, h.exited, h.ready, h.dozing, fun hw => ?_⟩,
      hread, hf.taken, hf.room, hf.waited, by simp⟩
    rcases h.asleep hw with hq | hn
    · exact Or.inl hq
    · exact absurd hn (by simp [hs])
  · rw [if_neg ha]
    rw [Bool.not_eq_true] at ha
    exact sound_proceed h hf (hp ha).1 (hp ha).2 hpending next

/-- **A block is queued**: one that gives way to it has 64 newer ones behind it. -/
theorem sound_push (h : s.Sound) (hf : s.Flows p) {block : Bytes} (hs : s.strand = .queueing block)
    (hlock : ¬s.worker.HoldsLock) :
    (s.push block).1.Sound ∧ (s.push block).1.Flows ((s.push block).2.foldl IqPast.note p) := by
  have hp := h.phase
  have hread := hf.read
  rw [Phase, hs] at hp
  rw [hs, Strand.pending] at hread
  rw [Worker.HoldsLock, not_or, not_or] at hlock
  have hsound : ∀ queue, Sound { s with iqQueue := queue, strand := .notifying } := fun queue =>
    ⟨hp, h.active, h.demod, h.exited, fun hw => absurd hw hlock.2.1, fun hw => absurd hw hlock.2.2,
      fun _ => Or.inr rfl⟩
  rw [push]
  split_ifs with hfull
  · refine ⟨hsound _, ?_⟩
    cases hq : s.iqQueue with
    | nil =>
      rw [hq] at hfull
      exact absurd hfull (by decide)
    | cons oldest rest =>
      have hroom := hf.room
      rw [hq] at hread hfull hroom
      refine ⟨?_, ?_, ?_, fun i b hi => ?_, fun ha e he => ?_⟩
      · simp [IqPast.note, hread, Strand.pending]
      · simpa [IqPast.note] using hf.taken
      · simpa using hroom
      · have hlen : p.read.length = p.left.length + (rest.length + 1 + 1) := by simp [hread]
        simp only [List.length_cons] at hfull
        change (p.left ++ [(oldest, .dropped)])[i]? = _ at hi
        change i + kMaxQueuedBlocks < p.read.length
        rw [List.getElem?_append] at hi
        split_ifs at hi with hlt
        · exact hf.waited i b hi
        · obtain ⟨hi, -⟩ := List.getElem?_eq_some_iff.1 hi
          rw [List.length_singleton] at hi
          omega
      · rcases List.mem_append.1 he with he | he
        · exact hf.kept ha e he
        · simp [List.mem_singleton.1 he]
  · refine ⟨hsound _, ?_, hf.taken, ?_, hf.waited, hf.kept⟩
    · simp [hread, Strand.pending]
    · rw [List.length_append, List.length_singleton]
      omega

/-- A message that leaves the blocks alone. -/
theorem Flows.idle (hf : s.Flows p) (hs : s.strand.pending = []) {strand : Strand}
    (hstrand : strand.pending = []) {active running demod : Bool} {w : Worker}
    (hw : w.inHand = s.worker.inHand) (ha : active = true → s.pipelineActive = true) :
    Flows
      { s with
        pipelineActive := active
        workerRunning := running
        demod := demod
        worker := w
        strand := strand } p :=
  ⟨hf.read.trans (by rw [hs, hstrand]), hf.taken.trans (congrArg _ hw.symm), hf.room, hf.waited,
    fun h => hf.kept (ha h)⟩

/-- **What a step of the strand keeps.** -/
theorem Sound.strandStep (h : s.Sound) (hf : s.Flows p) (hs : s.strandStep = some r) :
    r.1.Sound ∧ r.1.Flows (r.2.foldl IqPast.note p) := by
  have hp := h.phase
  rw [Phase] at hp
  rw [IqSession.strandStep] at hs
  cases hst : s.strand with
  | free => simp [hst] at hs
  | queueing block =>
    simp only [hst] at hs
    by_cases hlock : s.worker.HoldsLock
    · simp [hlock] at hs
    · rw [if_neg hlock, Option.some.injEq] at hs
      subst hs
      exact sound_push h hf hst hlock
  | notifying =>
    simp only [hst, Option.some.injEq] at hs hp
    subst hs
    refine ⟨?_, hf.idle (by rw [hst]; rfl) rfl (inHand_notified _) id⟩
    exact
      { phase := fun ha => absurd (ha.symm.trans hp) Bool.false_ne_true
        active := fun ha => ⟨(h.active ha).1, notified_ne_absent (h.active ha).2⟩
        demod := fun hw => h.demod fun hn => hw (by rw [hn]; rfl)
        exited := fun hw => h.exited (notified_eq (by simp) hw)
        ready := fun hw => h.ready (notified_eq (by simp) hw)
        dozing := fun hw => h.dozing (notified_eq (by simp) hw)
        asleep := fun hw => absurd hw (notified_ne_asleep _) }
  | halting next =>
    simp only [hst, Option.some.injEq] at hs hp
    subst hs
    refine ⟨?_, hf.idle (by rw [hst]; rfl) rfl rfl id⟩
    have hasleep : s.worker = .asleep → s.iqQueue = [] := fun hw =>
      (h.asleep hw).resolve_right fun hn => absurd hn (by simp [hst])
    exact
      { phase := ⟨hp.1, hp.2, rfl⟩
        active := fun ha => absurd (hp.1.symm.trans ha) Bool.false_ne_true
        demod := h.demod
        exited := fun _ => rfl
        ready := fun _ => Or.inl rfl
        dozing := h.dozing
        asleep := fun hw => Or.inl (hasleep hw) }
  | alerting next =>
    simp only [hst, Option.some.injEq] at hs hp
    subst hs
    refine ⟨?_, hf.idle (by rw [hst]; rfl) rfl (inHand_notified _) id⟩
    exact
      { phase := ⟨hp.1, notified_ne_absent hp.2.1, hp.2.2⟩
        active := fun ha => absurd (hp.1.symm.trans ha) Bool.false_ne_true
        demod := fun _ => h.demod hp.2.1
        exited := fun _ => hp.2.2
        ready := fun _ => Or.inl hp.2.2
        dozing := fun hw => h.dozing (notified_eq (by simp) hw)
        asleep := fun hw => absurd hw (notified_ne_asleep _) }
  | joining next =>
    simp only [hst] at hs hp
    by_cases hw : s.worker = .exited
    · rw [if_pos hw, Option.some.injEq] at hs
      subst hs
      refine ⟨?_, hf.idle (by rw [hst]; rfl) rfl (by rw [hw]; rfl) id⟩
      exact
        { phase := ⟨hp.1, rfl⟩
          active := fun ha => absurd (hp.1.symm.trans ha) Bool.false_ne_true
          demod := fun hn => absurd rfl hn
          exited := by simp
          ready := by simp
          dozing := by simp
          asleep := by simp }
    · simp [hw] at hs
  | clearing next =>
    simp only [hst, Option.some.injEq] at hs hp
    subst hs
    have hread : p.read = p.left.map Prod.fst ++ s.iqQueue := by
      simpa [hst, Strand.pending] using hf.read
    have hnone :
        (s.iqQueue.map fun b => (b, Fate.cleared)).filter (fun e => e.2 = .taken) = [] := by
      simp [List.filter_eq_nil_iff]
    have hsound : Sound { s with iqQueue := [], strand := .clearing next } :=
      ⟨hp, h.active, h.demod, h.exited, fun hw => absurd hw (by simp [hp.2]), fun _ => rfl,
        fun _ => Or.inl rfl⟩
    have hflows : Flows { s with iqQueue := [], strand := .clearing next }
        (p.note (.cleared s.iqQueue)) := by
      refine ⟨?_, ?_, Nat.zero_le _, fun i b hi => ?_,
        fun ha => absurd (hp.1.symm.trans ha) Bool.false_ne_true⟩
      · simp [IqPast.note, hread, Strand.pending, Function.comp_def]
      · rw [IqPast.note, List.filter_append, hnone, List.append_nil]
        exact hf.taken
      · change (p.left ++ s.iqQueue.map fun b => (b, Fate.cleared))[i]? = _ at hi
        rw [List.getElem?_append] at hi
        split_ifs at hi with hlt
        · exact hf.waited i b hi
        · simp at hi
    obtain ⟨log, files, hclosed, hpast⟩ := closeIqLog_eq (p := p.note (.cleared s.iqQueue))
      { s with iqQueue := [], strand := .clearing next }
    rw [List.foldl_cons, List.foldl_append, hpast, hclosed]
    exact sound_proceed (hsound.aside log files s.replies) (hflows.aside log files s.replies) hp.2
      rfl rfl next

/-! ## Messages -/

/-- **What a message keeps.** -/
theorem Sound.receive (h : s.Sound) (hf : s.Flows p) {m : Message} (hs : s.receive m = some r) :
    r.1.Sound ∧ r.1.Flows (r.2.foldl IqPast.note p) := by
  unfold IqSession.receive at hs
  split_ifs at hs with hst
  rw [Option.some.injEq] at hs
  subst hs
  cases m with
  | start next => exact sound_halt h hf hst next
  | stop => exact sound_halt h hf hst none
  | iqLogging on opened =>
    change Sound (s.setIqLogging on opened).1 ∧
      Flows (s.setIqLogging on opened).1 ((s.setIqLogging on opened).2.foldl _ p)
    obtain ⟨log, hopened, hopenedPast⟩ := openIqLog_eq (p := p) s opened
    obtain ⟨log', files, hclosed, hclosedPast⟩ := closeIqLog_eq (p := p) s
    rw [setIqLogging]
    split_ifs
    · rw [hopened, hopenedPast]
      exact ⟨h.aside _ _ _, hf.aside _ _ _⟩
    · exact ⟨h, hf⟩
    · rw [hclosed, hclosedPast]
      exact ⟨h.aside _ _ _, hf.aside _ _ _⟩
  | frame data =>
    change Sound (s.handleBinaryMessage data).1 ∧
      Flows (s.handleBinaryMessage data).1 ((s.handleBinaryMessage data).2.foldl _ p)
    have hread : p.read = p.left.map Prod.fst ++ s.iqQueue := by
      simpa [hst, Strand.pending] using hf.read
    rw [handleBinaryMessage]
    split_ifs with ha hlen
    · exact ⟨h, hf⟩
    · exact ⟨h.aside _ _ _, hf.aside _ _ _⟩
    · rw [Bool.not_eq_false] at ha
      refine ⟨⟨ha, h.active, h.demod, h.exited, h.ready, h.dozing, fun hw => ?_⟩, ?_,
        hf.taken, hf.room, fun i b hi => ?_, hf.kept⟩
      · rcases h.asleep hw with hq | hn
        · exact Or.inl hq
        · exact absurd hn (by simp [hst])
      · simp [IqPast.note, hread, Strand.pending]
      · change _ < (p.read ++ [data]).length
        have := hf.waited i b hi
        rw [List.length_append]
        omega

/-! ## Runs

An interleaving is a list that says whose step comes next.  A step that cannot be made, such as the
strand's while it waits for the lock, is no step. -/

/-- **A step keeps what holds.** -/
theorem Sound.step (h : s.Sound) (hf : s.Flows p) {a : IqAction} (hs : s.step a = some r) :
    r.1.Sound ∧ r.1.Flows (r.2.foldl IqPast.note p) := by
  cases a with
  | receive m => exact h.receive hf hs
  | strand => exact h.strandStep hf hs
  | worker => exact h.workerStep hf hs
  | spurious =>
    rw [IqSession.step] at hs
    split_ifs at hs with hw
    rw [Option.some.injEq] at hs
    subst hs
    exact ⟨h.freed (by simp [hw]) _ (by simp), hf.moved (by rw [hw]; rfl)⟩

/-- **…and so does a run**, whatever its steps keep. -/
theorem runFrom_induction {P : IqSession → List IqEvent → Prop}
    (hstep : ∀ {s es a r}, P s es → s.step a = some r → P r.1 (es ++ r.2)) {as : List IqAction} :
    ∀ {r r' : IqSession × List IqEvent}, P r.1 r.2 → runFrom r as = some r' → P r'.1 r'.2 := by
  induction as with
  | nil =>
    intro r r' h hrun
    rw [← Option.some.inj hrun]
    exact h
  | cons a as ih =>
    intro r r' h hrun
    rw [runFrom, List.foldlM_cons, Option.bind_eq_bind, Option.bind_eq_some_iff] at hrun
    obtain ⟨r₁, h₁, hrest⟩ := hrun
    obtain ⟨r₂, h₂, rfl⟩ := Option.map_eq_some_iff.1 h₁
    exact ih (hstep h h₂) hrest

/-- **So the invariant holds along every run.** -/
theorem sound_run {as : List IqAction} (hrun : run as = some (s, es)) :
    s.Sound ∧ s.Flows (IqPast.of es) := by
  refine runFrom_induction (P := fun s es => s.Sound ∧ s.Flows (IqPast.of es)) (fun h hs => ?_)
    (r := ({}, [])) ⟨sound_start, flows_start⟩ hrun
  rw [IqPast.of, List.foldl_append]
  exact h.1.step h.2 hs

end IqSession

end DsdServer
