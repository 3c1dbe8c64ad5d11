import DsdServer.Assoc.Text

/-!
# Server/Reader — the decoder's standard output, line by line

The reader takes the output in whatever pieces it comes, cuts it into lines, and passes each line
through two memories: the slot the last burst named, and the hex dump of a data PDU being printed.
The pieces make no difference.  An unterminated last line goes through a second copy of the steps,
which takes for a message what the first knows for binary: `reader_splits`.

What a line decodes to, and the text in a PDU, are parameters.
-/

open Bytes

namespace DsdServer

/-! ## Lines

A line ends with a line break.  Colours that the decoder prints are taken out before the line is
read. -/

/-- What is left after the first occurrence of a needle. -/
def after (needle : Bytes) : Bytes → Option Bytes
  | [] => if needle = [] then some [] else none
  | b :: s =>
    if needle.isPrefixOf (b :: s) then some ((b :: s).drop needle.length) else after needle s

def isAlpha (b : UInt8) : Bool := isLower b || isUpper b

mutual

/-- A line without colour sequences and carriage returns. -/
def stripAnsi : Bytes → Bytes
  | [] => []
  | [b] => if b = 13 then [] else [b]
  | b :: b' :: s =>
    if b = 27 ∧ b' = ch '[' then skipAnsi s
    else if b = 13 then stripAnsi (b' :: s)
    else b :: stripAnsi (b' :: s)

/-- …from inside a sequence, which its letter ends. -/
def skipAnsi : Bytes → Bytes
  | [] => []
  | b :: s => if isAlpha b then stripAnsi s else skipAnsi s

end

/-! ## What a line's burst leaves for the next ones

Two things are remembered from line to line: the slot that was last named, and the dump of a data
PDU that is being collected.  Neither is cleared when the decoder is started again. -/

/-- The slot carry: the last slot named, stamped onto the traffic that names none. -/
def slotApply (current : Bytes) (ev : DsdEvent) : Bytes × DsdEvent :=
  if ev.slot = lit "1" ∨ ev.slot = lit "2" then (ev.slot, ev)
  else if current = [] then (current, ev)
  else if ev.kind ∈ [lit "voice", lit "call", lit "message", lit "burst"] ∨
      has ev.extra (lit "svc=") ∨ has ev.extra (lit "gps=") then
    (current, { ev with slot := current })
  else (current, ev)

/-- What lines and PDUs decode to. -/
structure Decoders where
  classifyLine : Bytes → DsdEvent
  /-- the text in a PDU -/
  decodeDmrPduText : Bytes → Bytes
  /-- the notice in a Motorola registration -/
  decodeMotoArs : Bytes → Bytes

/-- A data PDU's hex dump being collected. -/
structure DmrPduTextCarry where
  capturing : Bool := false
  slot : ℕ := 0
  hex : Bytes := []
  /-- an MNIS header line came: the next dump is MNIS -/
  mnis : Bool := false
  deriving DecidableEq

def isSpace (b : UInt8) : Bool := b = 32 || (9 ≤ b && b ≤ 13)

/-- A hex digit, in either case. -/
def isHex (b : UInt8) : Bool :=
  isDigit b || (ch 'a' ≤ b && b ≤ ch 'f') || (ch 'A' ≤ b && b ≤ ch 'F')

namespace DmrPduTextCarry

/-- The slot of the line a dump follows. -/
def isHeader (l : Bytes) : Option ℕ :=
  match after (lit "Slot ") l with
  | some (d :: rest) =>
    if isDigit d && has (d :: rest) (lit "Multi Block") && has (d :: rest) (lit "Message")
    then some (d.toNat - 48) else none
  | _ => none

/-- The nibbles of a line that has nothing else, an even number of them. -/
def extractHex (l : Bytes) : Option Bytes :=
  let h := l.filter fun c => !isSpace c
  if h.all isHex && !h.isEmpty && h.length % 2 = 0 then some (upper h) else none

/-- "UTF8 Text:" of an MNIS PDU is binary printed as characters. -/
def binaryText (c : DmrPduTextCarry) (line : Bytes) : Bool :=
  c.mnis && !c.capturing && has line (lit "Text:")

/-- The dump is complete: its message, when it has text. -/
def finish (dec : Decoders) (c : DmrPduTextCarry) : DmrPduTextCarry × Option DsdEvent :=
  if !c.capturing then (c, none)
  else
    let done := { c with capturing := false, hex := [], mnis := false }
    if c.hex = [] then (done, none)
    else
      let isMnis := c.mnis && (lit "1F10").isPrefixOf c.hex
      let text := if isMnis then dec.decodeMotoArs c.hex else dec.decodeDmrPduText c.hex
      if text = [] then (done, none)
      else (done, some
        { kind := lit "message"
          slot := if c.slot = 1 then lit "1" else if c.slot = 2 then lit "2" else []
          message := text
          rawLine := lit "DMR short-data PDU (dsd-fme -Z): " ++ text })

/-- One more line: the message it completes. -/
def feed (dec : Decoders) (c : DmrPduTextCarry) (line : Bytes) :
    DmrPduTextCarry × Option DsdEvent :=
  let c := if has line (lit "(MNIS)") || has line (lit "MNIS ARS") then
    { c with mnis := true } else c
  match isHeader line with
  | some slot =>
    let (c, done) := c.finish dec
    ({ c with capturing := true, slot := slot, hex := [] }, done)
  | none =>
    if c.capturing then
      match extractHex line with
      | some h => ({ c with hex := c.hex ++ h }, none)
      | none => c.finish dec
    else (c, none)

end DmrPduTextCarry

/-! ## The reader

Each line may complete a dump, and is classified.  At the end of the output what is left of it,
without a line break, is read as a line too, but by a path of its own. -/

/-- What the reader is told to do. -/
structure ReaderConfig where
  decodeShortData : Bool
  forwardUnknown : Bool
  /-- someone takes the events -/
  onEvent : Bool
  /-- …and those held back -/
  onSuppressed : Bool
  /-- the slot of the voice decides where the audio goes -/
  followSlot : Bool

/-- What the reader hands on. -/
inductive Emission
  | event (ev : DsdEvent)
  | suppressed (ev : DsdEvent)
  deriving DecidableEq

/-- **What the reader remembers**, and what it has handed on. -/
structure ReaderState where
  slotCarry : Bytes := []
  pdu : DmrPduTextCarry := {}
  activeSlot : ℕ := 0
  emitted : List Emission := []
  deriving DecidableEq

/-- The slot whose voice an event shows. -/
def voiceSlotOf (ev : DsdEvent) : ℕ :=
  if ev.slot ≠ lit "1" ∧ ev.slot ≠ lit "2" then 0
  else
    let up := upper ev.rawLine
    if ev.kind = lit "voice" ∨ ev.kind = lit "sync" ∧
        [lit "| VC", lit "| VLC", lit "VOICE", lit "LDU", lit "HDU", lit "4V",
          lit "2V"].any (has up)
    then if ev.slot = lit "1" then 1 else 2
    else 0

/-- Is the event passed on? Unknown ones only if they are wanted. -/
def forwardEvent (ev : DsdEvent) (forwardUnknown : Bool) : Bool :=
  forwardUnknown || ev.kind ≠ lit "unknown"

namespace ReaderState

variable (cfg : ReaderConfig)

def emit (st : ReaderState) (e : Emission) : ReaderState := { st with emitted := st.emitted ++ [e] }

/-- The slot of the voice, where it is followed. -/
def publishActiveSlot (st : ReaderState) (ev : DsdEvent) : ReaderState :=
  if cfg.followSlot ∧ voiceSlotOf ev ≠ 0 then { st with activeSlot := voiceSlotOf ev } else st

/-- A message completed by a line, stamped and handed on. -/
def deliver (st : ReaderState) : Option DsdEvent → ReaderState
  | none => st
  | some mev =>
    let (current, mev) := slotApply st.slotCarry mev
    { st with slotCarry := current }.emit (.event mev)

/-- An event stamped with the burst's slot, and handed on or held back. -/
def pass (st : ReaderState) (ev : DsdEvent) : ReaderState :=
  let (current, ev) := slotApply st.slotCarry ev
  let st := { st with slotCarry := current }.publishActiveSlot cfg ev
  if forwardEvent ev cfg.forwardUnknown then st.emit (.event ev)
  else if cfg.onSuppressed then st.emit (.suppressed ev)
  else st

variable (dec : Decoders)

/-- The dump a line may belong to. -/
def feedPdu (st : ReaderState) (line : Bytes) : ReaderState :=
  if cfg.decodeShortData then
    let (pdu, mev) := st.pdu.feed dec line
    { st with pdu := pdu }.deliver mev
  else st

/-- The line's event: a message that is a PDU's binary printed as text is none. -/
def eventOf (st : ReaderState) (line : Bytes) : DsdEvent :=
  let ev := dec.classifyLine line
  if cfg.decodeShortData ∧ ev.kind = lit "message" ∧ st.pdu.binaryText line then
    { ev with kind := lit "unknown", message := [] }
  else ev

/-- **A line of the output.** -/
def line (st : ReaderState) (line : Bytes) : ReaderState :=
  if line = [] ∨ !cfg.onEvent then st
  else
    let st := st.feedPdu cfg dec line
    st.pass cfg (st.eventOf cfg dec line)

/-- **The unterminated line** the output ends with. -/
def tail (st : ReaderState) (line : Bytes) : ReaderState :=
  if line = [] ∨ !cfg.onEvent then st
  else
    let st := st.feedPdu cfg dec line
    st.pass cfg (dec.classifyLine line)

/-- The dump the output ends in. -/
def flush (st : ReaderState) : ReaderState :=
  if cfg.decodeShortData ∧ cfg.onEvent then
    let (pdu, mev) := st.pdu.finish dec
    { st with pdu := pdu }.deliver mev
  else st

end ReaderState

/-- What follows a separator is shorter. -/
theorem length_cut {sep : UInt8} : ∀ {s : Bytes} {p : Bytes × Bytes}, cut sep s = some p →
    p.2.length < s.length := by
  intro s
  induction s with
  | nil => intro p h; cases h
  | cons b s ih =>
    intro p h
    rw [cut] at h
    split_ifs at h
    · cases h
      exact Nat.lt_succ_self _
    · obtain ⟨q, hq, rfl⟩ := Option.map_eq_some_iff.1 h
      exact (ih hq).trans (Nat.lt_succ_self _)

section

variable (cfg : ReaderConfig) (dec : Decoders)

/-- The complete lines of the buffer, and what is left in it. -/
def drain (st : ReaderState) (buf : Bytes) : ReaderState × Bytes :=
  match _h : cut 10 buf with
  | none => (st, buf)
  | some p => drain (st.line cfg dec (stripAnsi p.1)) p.2
termination_by buf.length
decreasing_by exact length_cut _h

/-- **The reader**, on the pieces in which the output comes until its end. -/
def stdoutReaderLoop (st : ReaderState) (reads : List Bytes) : ReaderState :=
  let (st, buf) := reads.foldl (fun r tmp =>
    drain cfg dec r.1 (r.2 ++ tmp)) (st, [])
  (st.tail cfg dec (stripAnsi buf)).flush cfg dec

/-- What the reader has handed on at the end of the output; it starts with the memories that the
last decoder's output left. -/
def emissions (st : ReaderState) (reads : List Bytes) : List Emission :=
  (stdoutReaderLoop cfg dec st reads).emitted

end

/-! ## The pieces make no difference

Output that comes in pieces is kept until a line is complete.  So the lines are those of the whole
output, whatever the pieces were. -/

/-- More text at the end leaves the first line. -/
theorem cut_append {sep : UInt8} {p : Bytes × Bytes} (t : Bytes) :
    ∀ {s : Bytes}, cut sep s = some p →
    cut sep (s ++ t) = some (p.1, p.2 ++ t) := by
  intro s
  induction s generalizing p with
  | nil => intro h; cases h
  | cons b s ih =>
    intro h
    rw [cut] at h
    rw [List.cons_append, cut]
    split_ifs at h ⊢
    · cases h
      rfl
    · obtain ⟨q, hq, rfl⟩ := Option.map_eq_some_iff.1 h
      rw [ih hq]
      rfl

/-- A text without a line break is a line when one is put at its end. -/
theorem cut_append_sep {sep : UInt8} : ∀ {s : Bytes}, cut sep s = none →
    cut sep (s ++ [sep]) = some (s, []) := by
  intro s
  induction s with
  | nil => intro _; simp [cut]
  | cons b s ih =>
    intro h
    rw [cut] at h
    rw [List.cons_append, cut]
    split_ifs at h ⊢
    rw [ih (Option.map_eq_none_iff.1 h)]
    rfl

section

variable {cfg : ReaderConfig} {dec : Decoders} {st : ReaderState} {buf : Bytes}

/-- Without a line break all is kept for later. -/
theorem drain_of_none (h : cut 10 buf = none) :
    drain cfg dec st buf = (st, buf) := by
  rw [drain]
  split
  · rfl
  · next p hp =>
    rw [h] at hp
    cases hp

/-- The first line, and then the rest. -/
theorem drain_of_some {p : Bytes × Bytes} (h : cut 10 buf = some p) :
    drain cfg dec st buf =
      drain cfg dec
        (st.line cfg dec (stripAnsi p.1)) p.2 := by
  rw [drain]
  split
  · next hp =>
    rw [h] at hp
    cases hp
  · next p' hp =>
    rw [h] at hp
    cases hp
    rfl

/-- A buffer drained before more of it comes. -/
theorem drain_append (st : ReaderState) (buf more : Bytes) :
    drain cfg dec st (buf ++ more) =
      drain cfg dec
        (drain cfg dec st buf).1
        ((drain cfg dec st buf).2 ++ more) := by
  induction hn : buf.length using Nat.strong_induction_on generalizing st buf with
  | _ n ih =>
    subst hn
    rcases h : cut 10 buf with _ | p
    · rw [drain_of_none h]
    · rw [drain_of_some h, drain_of_some (cut_append more h)]
      exact ih p.2.length (length_cut h) _ p.2 rfl

/-- Nothing of a complete line is left. -/
theorem cut_drain (st : ReaderState) (buf : Bytes) :
    cut 10 (drain cfg dec st buf).2 = none := by
  induction hn : buf.length using Nat.strong_induction_on generalizing st buf with
  | _ n ih =>
    subst hn
    rcases h : cut 10 buf with _ | p
    · rw [drain_of_none h]
      exact h
    · rw [drain_of_some h]
      exact ih p.2.length (length_cut h) _ p.2 rfl

/-- Reading in pieces is draining the whole. -/
theorem foldl_drain {reads : List Bytes} : ∀ {r : ReaderState × Bytes}, cut 10 r.2 = none →
    reads.foldl (fun r tmp => drain cfg dec r.1 (r.2 ++ tmp)) r =
      drain cfg dec r.1 (r.2 ++ reads.flatten) := by
  induction reads with
  | nil =>
    intro r h
    rw [List.flatten_nil, List.append_nil, drain_of_none h]
    rfl
  | cons tmp reads ih =>
    intro r h
    rw [List.foldl_cons, ih (cut_drain _ _), ← drain_append, List.flatten_cons, List.append_assoc]

variable (cfg dec) in
/-- The reader at the end of the output: its memories, and the unterminated line. -/
def atEnd (st : ReaderState) (output : Bytes) : ReaderState × Bytes :=
  let r := drain cfg dec st output
  (r.1, stripAnsi r.2)

/-- **What is handed on depends on the output alone**, not on its pieces. -/
theorem emissions_eq (st : ReaderState) (reads : List Bytes) :
    emissions cfg dec st reads =
      (((atEnd cfg dec st reads.flatten).1.tail cfg dec
        (atEnd cfg dec st reads.flatten).2).flush cfg dec).emitted := by
  rw [emissions, stdoutReaderLoop, foldl_drain (r := (st, [])) rfl, List.nil_append]
  rfl

/-- A newline at the end makes the last line one like the others. -/
theorem emissions_newline (st : ReaderState) {reads : List Bytes} {output : Bytes}
    (h : reads.flatten = output ++ [10]) :
    emissions cfg dec st reads =
      (((atEnd cfg dec st output).1.line cfg dec
        (atEnd cfg dec st output).2).flush cfg dec).emitted := by
  have hcut : cut 10 (drain cfg dec st output).2 = none := cut_drain st output
  have hd : drain cfg dec st (output ++ [10]) =
      ((atEnd cfg dec st output).1.line cfg dec
        (atEnd cfg dec st output).2, []) := by
    rw [drain_append, drain_of_some (cut_append_sep hcut), drain_of_none rfl]
    rfl
  rw [emissions_eq, h, atEnd, hd]
  rfl

/-! ## The last line

The path of the last line lacks one step of the other.  Where the step does nothing, the two agree;
where it does something, they never do. -/

/-- A line the reader takes for binary: it decodes to a message, and is a PDU's text as printed
between its MNIS header and its dump. -/
def TakenForBinary (cfg : ReaderConfig) (dec : Decoders) (st : ReaderState) (line : Bytes) : Prop :=
  line ≠ [] ∧ cfg.onEvent = true ∧ cfg.decodeShortData = true ∧
    (dec.classifyLine line).kind = lit "message" ∧
    (st.pdu.feed dec line).1.binaryText line = true

/-- A message that is handed on changes neither the dump nor the slot of the voice. -/
theorem deliver_frame (st : ReaderState) (o : Option DsdEvent) :
    (st.deliver o).pdu = st.pdu ∧ (st.deliver o).activeSlot = st.activeSlot := by
  rcases o with _ | ev
  · exact ⟨rfl, rfl⟩
  · exact ⟨rfl, rfl⟩

theorem pdu_feedPdu (hd : cfg.decodeShortData = true) (st : ReaderState) (line : Bytes) :
    (st.feedPdu cfg dec line).pdu = (st.pdu.feed dec line).1 := by
  rw [ReaderState.feedPdu, if_pos hd]
  exact (deliver_frame _ _).1

/-- Passing an event on leaves the dump. -/
theorem pdu_pass (st : ReaderState) (ev : DsdEvent) : (st.pass cfg ev).pdu = st.pdu := by
  rw [ReaderState.pass]
  dsimp only
  have hp : ∀ (st : ReaderState) (ev : DsdEvent), (st.publishActiveSlot cfg ev).pdu = st.pdu := by
    intro st ev
    rw [ReaderState.publishActiveSlot]
    split_ifs <;> rfl
  split_ifs <;> exact hp _ _

/-- The stamped event. -/
theorem emitted_pass (st : ReaderState) (ev : DsdEvent) : (st.pass cfg ev).emitted =
    st.emitted ++
      if forwardEvent (slotApply st.slotCarry ev).2 cfg.forwardUnknown then
        [.event (slotApply st.slotCarry ev).2]
      else if cfg.onSuppressed then [.suppressed (slotApply st.slotCarry ev).2] else [] := by
  have hp : ∀ (st : ReaderState) (ev : DsdEvent), (st.publishActiveSlot cfg ev).emitted =
      st.emitted := by
    intro st ev
    rw [ReaderState.publishActiveSlot]
    split_ifs <;> rfl
  rw [ReaderState.pass]
  dsimp only
  split_ifs
  · exact congrArg (· ++ _) (hp _ _)
  · exact congrArg (· ++ _) (hp _ _)
  · rw [List.append_nil]
    exact hp _ _

/-- A slot that is stamped leaves the kind. -/
theorem kind_slotApply (current : Bytes) (ev : DsdEvent) :
    (slotApply current ev).2.kind = ev.kind := by
  rw [slotApply]
  split_ifs <;> rfl

/-- A line not taken for binary is handled as any other. -/
theorem line_eq_tail {line : Bytes} (h : ¬TakenForBinary cfg dec st line) :
    st.line cfg dec line = st.tail cfg dec line := by
  rw [ReaderState.line, ReaderState.tail]
  by_cases hl : line = [] ∨ (!cfg.onEvent) = true
  · rw [if_pos hl, if_pos hl]
  rw [if_neg hl, if_neg hl]
  rw [not_or, Bool.not_eq_true', Bool.not_eq_false] at hl
  dsimp only
  refine congrArg (ReaderState.pass cfg _) ?_
  rw [ReaderState.eventOf]
  refine if_neg fun hb => h ⟨hl.1, hl.2, hb.1, hb.2.1, ?_⟩
  rw [← pdu_feedPdu hb.1]
  exact hb.2.2

/-- A line taken for binary is a message at the end of the output, and none before. -/
theorem emitted_line_ne_tail {line : Bytes} (h : TakenForBinary cfg dec st line) :
    ((st.line cfg dec line).flush cfg dec).emitted ≠
      ((st.tail cfg dec line).flush cfg dec).emitted := by
  obtain ⟨hne, hon, hd, hk, hb⟩ := h
  have hskip : ¬(line = [] ∨ (!cfg.onEvent) = true) := by
    rw [hon]
    rintro (h | h)
    · exact hne h
    · cases h
  -- nothing is being collected, so the end of the output adds nothing
  have hflush : ∀ st : ReaderState, st.pdu.capturing = false → st.flush cfg dec = st := by
    intro st hc
    rw [ReaderState.flush, if_pos ⟨hd, hon⟩, DmrPduTextCarry.finish, hc]
    rfl
  have hcap : (st.feedPdu cfg dec line).pdu.capturing = false := by
    rw [pdu_feedPdu hd]
    rw [DmrPduTextCarry.binaryText, Bool.and_eq_true, Bool.and_eq_true, Bool.not_eq_true'] at hb
    exact hb.1.2
  have hev : (st.feedPdu cfg dec line).eventOf cfg dec line =
      { dec.classifyLine line with kind := lit "unknown", message := [] } := by
    rw [ReaderState.eventOf]
    exact if_pos ⟨hd, hk, by rw [pdu_feedPdu hd]; exact hb⟩
  rw [ReaderState.line, ReaderState.tail, if_neg hskip, if_neg hskip]
  dsimp only
  rw [hflush _ (by rw [pdu_pass]; exact hcap), hflush _ (by rw [pdu_pass]; exact hcap), hev,
    emitted_pass, emitted_pass]
  set cur := (st.feedPdu cfg dec line).slotCarry
  set e₁ := (slotApply cur { dec.classifyLine line with kind := lit "unknown", message := [] }).2
  set e₂ := (slotApply cur (dec.classifyLine line)).2
  have hk₁ : e₁.kind = lit "unknown" := kind_slotApply cur _
  have hk₂ : e₂.kind = lit "message" := (kind_slotApply cur _).trans hk
  have hmsg : lit "unknown" ≠ lit "message" := by decide
  have hf₂ : forwardEvent e₂ cfg.forwardUnknown = true := by
    rw [forwardEvent, hk₂, Bool.or_eq_true]
    exact Or.inr (by decide)
  rw [if_pos hf₂]
  intro heq
  have hlast := List.append_cancel_left heq
  split_ifs at hlast
  · have he : e₁ = e₂ := Emission.event.inj (List.cons.inj hlast).1
    exact hmsg (hk₁.symm.trans ((congrArg DsdEvent.kind he).trans hk₂))
  · cases (List.cons.inj hlast).1

end

/-- Text lines are messages, and nothing is in a PDU. -/
def textDecoders : Decoders where
  classifyLine l :=
    { kind := if has l (lit "Text:") then lit "message" else lit "unknown", rawLine := l }
  decodeDmrPduText _ := []
  decodeMotoArs _ := []

/-- A reader that decodes short data. -/
def listening : ReaderConfig := ⟨true, false, true, false, false⟩

/-- A registration's header, and its bytes printed as text. -/
def mnisOutput : Bytes := lit "DST(MNIS): 1" ++ 10 :: lit "UTF8 Text: x"

/-- With a line break at the end the last line is no message; without one it is. -/
theorem last_line_message :
    emissions listening textDecoders {} [mnisOutput ++ [10]] ≠ emissions listening textDecoders {}
      [mnisOutput] := by
  have hd : atEnd listening textDecoders {} mnisOutput =
      (({} : ReaderState).line listening textDecoders (lit "DST(MNIS): 1"),
        lit "UTF8 Text: x") := by
    rw [atEnd, drain_of_some (p := (lit "DST(MNIS): 1", lit "UTF8 Text: x")) (by decide +kernel),
      drain_of_none (by decide +kernel)]
    decide +kernel
  have hflat : [mnisOutput].flatten = mnisOutput := List.append_nil _
  have hline : [mnisOutput ++ [10]].flatten = mnisOutput ++ [10] := List.append_nil _
  rw [emissions_newline {} hline, emissions_eq, hflat, hd]
  refine emitted_line_ne_tail ⟨?_, rfl, rfl, ?_, ?_⟩ <;> decide +kernel

/-- **The reader's events do not depend on the pieces in which the output comes**, whatever its
memories hold at the start; and an output without its last newline gives the events it gives with
it, exactly when its last line is not one taken for binary. -/
theorem reader_splits (cfg : ReaderConfig) (dec : Decoders) (st : ReaderState)
    (reads reads' : List Bytes) :
    (reads'.flatten = reads.flatten → emissions cfg dec st reads' = emissions cfg dec st reads) ∧
      (reads'.flatten = reads.flatten ++ [10] →
        (emissions cfg dec st reads' = emissions cfg dec st reads ↔
          ¬TakenForBinary cfg dec (atEnd cfg dec st reads.flatten).1
            (atEnd cfg dec st reads.flatten).2)) := by
  refine ⟨fun h => by rw [emissions_eq, emissions_eq, h], fun h => ?_⟩
  rw [emissions_newline st h, emissions_eq]
  refine ⟨fun heq hb => emitted_line_ne_tail hb heq, fun hb => ?_⟩
  rw [line_eq_tail hb]

theorem reader_splits_mnisOutput :
    emissions listening textDecoders {} [lit "DST(MN", lit "IS): 1"] =
        emissions listening textDecoders {} [lit "DST(MNIS): 1"] ∧
      emissions listening textDecoders {} [lit "DST(MNIS)", lit ": 1" ++ [10]] =
        emissions listening textDecoders {} [lit "DST(MNIS): 1"] := by
  refine ⟨(reader_splits listening textDecoders {} [lit "DST(MNIS): 1"]
    [lit "DST(MN", lit "IS): 1"]).1
    (by decide +kernel), ?_⟩
  refine ((reader_splits listening textDecoders {} [lit "DST(MNIS): 1"]
    [lit "DST(MNIS)", lit ": 1" ++ [10]]).2 (by decide +kernel)).2 fun h => ?_
  have hd : atEnd listening textDecoders {} [lit "DST(MNIS): 1"].flatten =
      ({}, lit "DST(MNIS): 1") := by
    rw [atEnd, drain_of_none (by decide +kernel)]
    decide +kernel
  rw [hd] at h
  exact absurd h.2.2.2.1 (by decide +kernel)

end DsdServer
