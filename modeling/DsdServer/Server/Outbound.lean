import DsdServer.Data.Bytes

/-!
# Server/Outbound — the frames on their way to a client

A session may have one write under way at a time, so its frames wait in a queue: a frame is queued,
a write is started when none is, and the end of a write starts the next.  `frames_in_order` says
that this never starts a second write, that every frame is either handed over, once and in order, or
still waits, and when the writer can come to a stop.
-/

open Bytes

namespace DsdServer

/-- A frame, and whether it is one of text. -/
structure OutFrame where
  data : Bytes
  isText : Bool
  deriving DecidableEq

/-! ## The stream

The stream is told with each frame whether it is text.  It does not keep two writes apart: were one
begun while another is under way, their bytes would mix. -/

/-- **The stream of a session**, as the writes see it. -/
structure WsStream where
  textMode : Bool := true
  /-- the writes under way -/
  outstanding : List OutFrame := []
  /-- all writes there have been -/
  handed : List OutFrame := []
  deriving DecidableEq

namespace WsStream

variable (ws : WsStream)

/-- Switch to messages of text, or off it. -/
def text (on : Bool) : WsStream := { ws with textMode := on }

/-- Switch to messages of bytes, or off it. -/
def binary (on : Bool) : WsStream := { ws with textMode := !on }

/-- Start a write, of a message of the current mode. -/
def asyncWrite (data : Bytes) : WsStream :=
  { ws with
    outstanding := ws.outstanding ++ [⟨data, ws.textMode⟩]
    handed := ws.handed ++ [⟨data, ws.textMode⟩] }

/-- A write ends. -/
def settle (i : ℕ) : WsStream := { ws with outstanding := ws.outstanding.eraseIdx i }

end WsStream

/-! ## The writer of a session

A frame stays first in the queue while it is written, and leaves it when its write has ended. -/

/-- The queue of a session, its stream, and whether a write is under way. -/
structure Outbound where
  outQueue : List OutFrame := []
  writing : Bool := false
  ws : WsStream := {}
  deriving DecidableEq

/-- What can happen next. -/
inductive OutOp
  | send (frame : Bytes) (isText : Bool)
  /-- the write at `i` of those under way ends -/
  | written (i : ℕ) (failed : Bool)
  deriving DecidableEq

namespace Outbound

variable (w : Outbound)

/-- Start writing the first frame of the queue, if there is one. -/
def doWriteNext : Outbound :=
  match w.outQueue with
  | [] => { w with writing := false }
  | f :: _ =>
    { w with
      writing := true
      ws := ((w.ws.text f.isText).binary (!f.isText)).asyncWrite f.data }

/-- **Queue a frame**, and start writing if nothing is being written. -/
def queueAndSend (frame : Bytes) (isText : Bool) : Outbound :=
  let w := { w with outQueue := w.outQueue ++ [⟨frame, isText⟩] }
  if w.writing then w else w.doWriteNext

/-- A write has ended: its frame leaves the queue, and the next is written unless it failed. -/
def onWrite (failed : Bool) : Outbound :=
  let w := { w with outQueue := w.outQueue.tail }
  if failed then { w with writing := false } else w.doWriteNext

/-- **A step**; only a write that is under way can end. -/
def step : OutOp → Option Outbound
  | .send frame isText => some (w.queueAndSend frame isText)
  | .written i failed =>
    if i < w.ws.outstanding.length then
      some ({ w with ws := w.ws.settle i }.onWrite failed) else none

/-- A session from its beginning. -/
def run (ops : List OutOp) : Option Outbound := ops.foldlM step {}

end Outbound

/-- The frames that are sent, in order. -/
def framesOf (ops : List OutOp) : List OutFrame :=
  ops.filterMap fun op => match op with
    | .send frame isText => some ⟨frame, isText⟩
    | .written .. => none

/-- No write fails. -/
def NoneFailed (ops : List OutOp) : Prop := ∀ i, .written i true ∉ ops

namespace Outbound

variable {w w' : Outbound} {sent : List OutFrame} {ok : Prop}

/-! ## What is kept

All that holds in every run is one relation between the writer, its stream and the frames sent so
far.  Each operation keeps it, and the result is read off it. -/

/-- **The writer is in step with its stream**: while it writes, the one write under way is of the
first frame of the queue; the frames sent so far are those handed over and those that wait; and as
long as `ok`, it writes while frames wait. -/
structure InStep (w : Outbound) (sent : List OutFrame) (ok : Prop) : Prop where
  busy : w.writing = true → ∃ f rest, w.outQueue = f :: rest ∧ w.ws.outstanding = [f] ∧
    sent = w.ws.handed ++ rest
  idle : w.writing = false → w.ws.outstanding = [] ∧ sent = w.ws.handed ++ w.outQueue
  waits : ok → w.writing = false → w.outQueue = []

/-- At the start nothing is queued and nothing written. -/
theorem inStep_start : InStep {} [] True where
  busy h := absurd h Bool.false_ne_true
  idle _ := ⟨rfl, rfl⟩
  waits _ _ := rfl

/-- The next write starts when none is under way. -/
theorem inStep_doWriteNext (ho : w.ws.outstanding = []) (hs : sent = w.ws.handed ++ w.outQueue) :
    InStep w.doWriteNext sent ok := by
  rw [doWriteNext]
  split
  · next hq =>
    exact ⟨fun h => absurd h Bool.false_ne_true, fun _ => ⟨ho, hs⟩, fun _ _ => hq⟩
  · next f rest hq =>
    refine ⟨fun _ => ⟨f, rest, hq, ?_, ?_⟩, fun h => absurd h.symm Bool.false_ne_true,
      fun _ h => ?_⟩
    · simp [WsStream.asyncWrite, WsStream.binary, WsStream.text, ho]
    · rw [hs, hq]
      simp [WsStream.asyncWrite, WsStream.binary, WsStream.text]
    · exact absurd h.symm Bool.false_ne_true

/-- A frame that is queued is one more of those sent. -/
theorem InStep.queueAndSend (h : InStep w sent ok) (frame : Bytes) (isText : Bool) :
    InStep (w.queueAndSend frame isText) (sent ++ [⟨frame, isText⟩]) ok := by
  by_cases hw : w.writing = true
  · obtain ⟨f, rest, hq, ho, hs⟩ := h.busy hw
    have hkept : w.queueAndSend frame isText =
        { w with outQueue := w.outQueue ++ [⟨frame, isText⟩] } := if_pos hw
    rw [hkept]
    refine ⟨fun _ => ⟨f, rest ++ [⟨frame, isText⟩], ?_, ho, ?_⟩, fun h' => ?_, fun _ h' => ?_⟩
    · exact congrArg (· ++ _) hq
    · rw [hs, List.append_assoc]
    · exact absurd (hw.symm.trans h') Bool.false_ne_true.symm
    · exact absurd (hw.symm.trans h') Bool.false_ne_true.symm
  · obtain ⟨ho, hs⟩ := h.idle (Bool.eq_false_iff.2 hw)
    have hstarted : w.queueAndSend frame isText =
        Outbound.doWriteNext { w with outQueue := w.outQueue ++ [⟨frame, isText⟩] } := if_neg hw
    rw [hstarted]
    refine inStep_doWriteNext ho ?_
    rw [hs, List.append_assoc]

/-- The write that ends is the one of the first frame. -/
theorem InStep.onWrite (h : InStep w sent ok) {i : ℕ} (hi : i < w.ws.outstanding.length)
    (failed : Bool) :
    InStep ({ w with ws := w.ws.settle i }.onWrite failed) sent (ok ∧ failed = false) := by
  have hw : w.writing = true := by
    by_contra hw
    rw [(h.idle (Bool.eq_false_iff.2 hw)).1] at hi
    exact absurd hi (Nat.not_lt_zero i)
  obtain ⟨f, rest, hq, ho, hs⟩ := h.busy hw
  have hsettled : (w.ws.settle i).outstanding = [] := by
    rw [ho, List.length_singleton] at hi
    obtain rfl : i = 0 := by omega
    rw [WsStream.settle, ho]
    rfl
  have hsent : sent = w.ws.handed ++ w.outQueue.tail := by rw [hs, hq, List.tail_cons]
  rw [Outbound.onWrite]
  cases failed with
  | false => exact inStep_doWriteNext hsettled hsent
  | true =>
    exact ⟨fun h' => absurd h' Bool.false_ne_true, fun _ => ⟨hsettled, hsent⟩,
      fun h' => absurd h'.2 Bool.false_ne_true.symm⟩

/-- **A step keeps the writer in step**, as long as no write fails. -/
theorem InStep.step (h : InStep w sent ok) {op : OutOp} (hw : w.step op = some w') :
    InStep w' (sent ++ framesOf [op]) (ok ∧ NoneFailed [op]) := by
  cases op with
  | send frame isText =>
    obtain rfl := Option.some.inj hw
    have hs := h.queueAndSend frame isText
    exact ⟨hs.busy, hs.idle, fun h' => hs.waits h'.1⟩
  | written i failed =>
    rw [Outbound.step] at hw
    split_ifs at hw with hi
    obtain rfl := Option.some.inj hw
    have hs := h.onWrite hi failed
    rw [show framesOf [.written i failed] = [] from rfl, List.append_nil]
    refine ⟨hs.busy, hs.idle, fun h' => hs.waits ⟨h'.1, ?_⟩⟩
    cases failed with
    | false => rfl
    | true => exact absurd List.mem_cons_self (h'.2 i)

/-- **…and so does a run.** -/
theorem InStep.run {ops : List OutOp} :
    ∀ {w w' : Outbound} {sent : List OutFrame} {ok : Prop}, InStep w sent ok →
    ops.foldlM Outbound.step w = some w' →
      InStep w' (sent ++ framesOf ops) (ok ∧ NoneFailed ops) := by
  induction ops with
  | nil =>
    intro w w' sent ok h hrun
    obtain rfl := Option.some.inj hrun
    rw [show framesOf [] = [] from rfl, List.append_nil]
    exact ⟨h.busy, h.idle, fun h' => h.waits h'.1⟩
  | cons op ops ih =>
    intro w w' sent ok h hrun
    rw [List.foldlM_cons, Option.bind_eq_bind, Option.bind_eq_some_iff] at hrun
    obtain ⟨w₁, hstep, hrest⟩ := hrun
    have hs := ih (h.step hstep) hrest
    have hframes : sent ++ framesOf [op] ++ framesOf ops = sent ++ framesOf (op :: ops) := by
      rw [List.append_assoc, framesOf, framesOf, framesOf, ← List.filterMap_append,
        List.singleton_append]
    rw [hframes] at hs
    refine ⟨hs.busy, hs.idle, fun h' => hs.waits ⟨⟨h'.1, fun i hi => ?_⟩, fun i hi => ?_⟩⟩
    · exact h'.2 i (List.mem_cons.2 (Or.inl (List.mem_singleton.1 hi)))
    · exact h'.2 i (List.mem_cons_of_mem op hi)

/-- **The frames go out once, in order, and none is forgotten**: at most one write is under way, and
it is of the first frame queued; the frames sent so far are, in their order and their own modes,
those handed to the stream and then those that still wait behind the write; and as long as no write
has failed, one is under way while frames are queued. -/
theorem frames_in_order {ops : List OutOp} {w : Outbound} (h : Outbound.run ops = some w) :
    w.ws.outstanding.length ≤ 1 ∧ w.ws.outstanding <+: w.outQueue ∧
      framesOf ops = w.ws.handed ++ w.outQueue.drop w.ws.outstanding.length ∧
      (NoneFailed ops → w.outQueue ≠ [] → w.ws.outstanding ≠ []) := by
  have hs := inStep_start.run h
  rw [List.nil_append] at hs
  cases hw : w.writing with
  | true =>
    obtain ⟨f, rest, hq, ho, hsent⟩ := hs.busy hw
    rw [hq, ho]
    refine ⟨Nat.le_refl 1, ⟨rest, List.singleton_append⟩, ?_, fun _ _ => List.cons_ne_nil f []⟩
    rw [hsent, List.length_singleton, List.drop_one, List.tail_cons]
  | false =>
    obtain ⟨ho, hsent⟩ := hs.idle hw
    refine ⟨?_, ?_, ?_, fun hok hq => absurd (hs.waits ⟨trivial, hok⟩ hw) hq⟩
    · rw [ho]
      exact Nat.zero_le 1
    · rw [ho]
      exact List.nil_prefix
    · rw [ho, hsent, List.length_nil, List.drop_zero]

/-- A write fails with a frame behind it, which the next frame that is sent gets going again. -/
theorem frames_in_order_restarted :
    let ops : List OutOp :=
      [.send (lit "a") true, .send (lit "b") false, .written 0 true, .send (lit "c") true,
        .written 0 false]
    ∃ w, Outbound.run ops = some w ∧ w.ws.outstanding.length ≤ 1 ∧ w.ws.outstanding <+: w.outQueue ∧
      framesOf ops = w.ws.handed ++ w.outQueue.drop w.ws.outstanding.length ∧
      (NoneFailed ops → w.outQueue ≠ [] → w.ws.outstanding ≠ []) :=
  ⟨_, rfl, frames_in_order rfl⟩

end Outbound

end DsdServer
