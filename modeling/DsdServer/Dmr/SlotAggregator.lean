import DsdServer.Data.Bytes
import DsdServer.Data.SortedMap

/-!
# Dmr/SlotAggregator — a client's calls, slot by slot

The client-side aggregator of DMR events: what it keeps for the two slots, and the callbacks it
delivers.  Beside them its log says which event was folded into the call of which slot, so that a
callback can be traced to its event.

A call of a slot is known by its talkgroup and its source.  It ends when it has not been heard for a
while, with a terminator, or when another party is named; an event that names none goes into the
call that is there.
-/

open Bytes

namespace DsdClient

/-! ## Events and calls

Both are records of texts, as the client has them from the server.  The counters of a call have 32
bits. -/

/-- The flat wire fields the aggregator uses. -/
structure Event where
  kind : Bytes := []
  talkgroup : Bytes := []
  sourceId : Bytes := []
  slot : Bytes := []
  colorCode : Bytes := []
  emergency : Bytes := []
  talkerAlias : Bytes := []
  crcError : Bytes := []
  message : Bytes := []
  extra : Bytes := []
  raw : Bytes := []
  deriving DecidableEq

/-- The two slots of a channel. -/
inductive Slot
  | one
  | two
  deriving DecidableEq, Repr

/-- One aggregated call session on one slot. -/
structure Call where
  slot : Slot
  talkgroup : Bytes := []
  source : Bytes := []
  unitTarget : Bytes := []
  group : Bool := true
  colorCode : Bytes := []
  talkerAlias : Bytes := []
  emergency : Bool := false
  start : ℤ
  lastActivity : ℤ
  events : UInt32 := 0
  voiceEvents : UInt32 := 0
  crcErrors : UInt32 := 0
  messages : List Bytes := []
  extra : SortedMap Bytes Bytes := ∅

/-- What the aggregator does that can be seen: the three callbacks, and an event going into a
call. -/
inductive Item
  | folded (ev : Event)
  | started (c : Call)
  | updated (c : Call)
  | ended (c : Call)

namespace Item

/-- An event went into a call. -/
def isFolded : Item → Bool
  | .folded _ => true
  | _ => false

/-- A call was told to have started. -/
def isStarted : Item → Bool
  | .started _ => true
  | _ => false

/-- A call was told to have changed. -/
def isUpdated : Item → Bool
  | .updated _ => true
  | _ => false

/-- The call that was told to have ended. -/
def ended? : Item → Option Call
  | .ended c => some c
  | _ => none

/-- The event that went into a call. -/
def folded? : Item → Option Event
  | .folded ev => some ev
  | _ => none

end Item

/-- **The aggregator**: a call or none on each slot, the calls that ended, and what was told. -/
structure DmrSlotAggregator where
  slots : Slot → Option Call := fun _ => none
  history : List Call := []
  lastSlot : Option Slot := none
  hang : ℤ
  /-- What was delivered so far, with its slot. -/
  log : List (Slot × Item) := []

/-! ## Reading an event

An event may belong to a slot, to the whole channel, or to a call that has to be found by its
source. -/

def isBlank (b : UInt8) : Bool := b = ch ' ' || b = 0x09

/-- The string without the blanks and tabs around it. -/
def trimBlanks (s : Bytes) : Bytes := ((s.dropWhile isBlank).reverse.dropWhile isBlank).reverse

/-- The tokens of the extra field. -/
def parseExtra (extra : Bytes) : SortedMap Bytes Bytes :=
  (split (ch ';') extra).foldl (fun m tok =>
    match cut (ch '=') (trimBlanks tok) with
    | some (k, v) => m.insert k v
    | none => m) ∅

namespace Event

variable (ev : Event)

/-- The slot an event names. -/
def slotOf : Option Slot :=
  if ev.slot = lit "1" then some .one else if ev.slot = lit "2" then some .two else none

/-- Sync lines and what is said about the channel belong to no slot. -/
def isChannelWide : Bool :=
  ev.kind = lit "sync" ||
    [lit "network_type", lit "network_id", lit "site_id", lit "rest_channel", lit "lcn",
      lit "rfss"].any (has ev.extra)

/-- A call or voice frame that names a party. -/
def identity : Bool :=
  (ev.kind = lit "call" || ev.kind = lit "voice") &&
    (ev.talkgroup ≠ [] || ev.sourceId ≠ [] || (parseExtra ev.extra).contains (lit "unit_target"))

/-- A talkgroup or source that is not the call's. -/
def changed (c : Call) : Bool :=
  (ev.talkgroup ≠ [] && ev.talkgroup ≠ c.talkgroup) || (ev.sourceId ≠ [] && ev.sourceId ≠ c.source)

/-- Does the event end its call? -/
def terminated : Bool :=
  (parseExtra ev.extra).find? (lit "burst") = some (lit "TLC") || has ev.raw (lit "Terminator")

end Event

/-- What an event adds to its call. -/
def Call.fold (c : Call) (ev : Event) (now : ℤ) : Call :=
  let ex := parseExtra ev.extra
  { c with
    lastActivity := now
    events := c.events + 1
    voiceEvents := if ev.kind = lit "voice" then c.voiceEvents + 1 else c.voiceEvents
    crcErrors := if ev.crcError = lit "1" then c.crcErrors + 1 else c.crcErrors
    talkgroup := if ev.talkgroup ≠ [] then ev.talkgroup else c.talkgroup
    source := if ev.sourceId ≠ [] then ev.sourceId else c.source
    colorCode := if ev.colorCode ≠ [] then ev.colorCode else c.colorCode
    talkerAlias := if ev.talkerAlias ≠ [] then ev.talkerAlias else c.talkerAlias
    emergency := c.emergency || ev.emergency = lit "1"
    messages := if ev.message ≠ [] then c.messages ++ [ev.message] else c.messages
    extra := ex.entries.foldl (fun m e => m.insert e.1 e.2) c.extra
    unitTarget := (ex.find? (lit "unit_target")).getD c.unitTarget
    group := c.group && (ex.find? (lit "unit_target")).isNone }

namespace DmrSlotAggregator

/-! ## The aggregator

An event of a slot first ends the call there when it names another party, opens one when there is
none, and goes into it; a terminator then ends it. -/

variable (a : DmrSlotAggregator)

/-- The call of a slot ends. -/
def close (s : Slot) : DmrSlotAggregator :=
  match a.slots s with
  | none => a
  | some c =>
    { a with
      slots := Function.update a.slots s none
      history := a.history ++ [c]
      log := a.log ++ [(s, .ended c)] }

/-- A slot that has been silent for longer than the hang time ends its call. -/
def sweep (now : ℤ) (s : Slot) : DmrSlotAggregator :=
  if (a.slots s).any fun c => now - c.lastActivity > a.hang then a.close s else a

/-- Time passes: slots that were silent too long end their calls. -/
def tick (now : ℤ) : DmrSlotAggregator := (a.sweep now .one).sweep now .two

/-- A change of party on a slot ends its call. -/
def rollOver (s : Slot) (ev : Event) : DmrSlotAggregator :=
  if ev.identity && (a.slots s).any ev.changed then a.close s else a

/-- An event that names a party opens a call where there is none. -/
def openFor (s : Slot) (ev : Event) (now : ℤ) : DmrSlotAggregator :=
  if ev.identity && (a.slots s).isNone then
    { a with
      slots := Function.update a.slots s (some { slot := s, start := now, lastActivity := now }) }
  else a

/-- The event goes into the call: its first one starts it. -/
def receive (s : Slot) (ev : Event) (now : ℤ) (c : Call) : DmrSlotAggregator :=
  { a with
    slots := Function.update a.slots s (some (c.fold ev now))
    log := a.log ++ [(s, .folded ev),
      (s, if c.events = 0 then .started (c.fold ev now) else .updated (c.fold ev now))] }

/-- The event reaches the open call; a terminator ends it. -/
def reach (s : Slot) (ev : Event) (now : ℤ) : DmrSlotAggregator :=
  match a.slots s with
  | none => a
  | some c => if ev.terminated then (a.receive s ev now c).close s else a.receive s ev now c

def apply (s : Slot) (ev : Event) (now : ℤ) : DmrSlotAggregator :=
  ((a.rollOver s ev).openFor s ev now).reach s ev now

/-- The open call an event without a slot belongs to: its source's, or else that of the last
slot. -/
def target (ev : Event) : Option Slot :=
  let named : Slot → Bool := fun s => ev.sourceId ≠ [] && (a.slots s).any fun c =>
    c.source = ev.sourceId
  if named .two then some .two
  else if named .one then some .one
  else a.lastSlot.filter fun s => (a.slots s).isSome

/-- **An event**, of a slot or of none. -/
def onEvent (ev : Event) (now : ℤ) : DmrSlotAggregator :=
  let a := a.tick now
  match ev.slotOf with
  | some s => { a with lastSlot := some s }.apply s ev now
  | none =>
    if ev.isChannelWide then a
    else match a.target ev with
      | some s => a.apply s ev now
      | none => a

/-! ## Runs

A client gets events, and lets time pass.  Nothing else changes the aggregator. -/

/-- What happens to an aggregator. -/
inductive Op
  | event (ev : Event) (now : ℤ)
  | tick (now : ℤ)

def step : Op → DmrSlotAggregator
  | .event ev now => a.onEvent ev now
  | .tick now => a.tick now

/-- A sequence of steps, from an aggregator without calls. -/
def run (hang : ℤ) (ops : List Op) : DmrSlotAggregator := ops.foldl step { hang := hang }

/-- The events fed in, in order. -/
def fed (ops : List Op) : List Event :=
  ops.filterMap fun | .event ev _ => some ev | .tick _ => none

/-- What a slot's callbacks were. -/
def onSlot (s : Slot) : List Item := (a.log.filter (·.1 = s)).map Prod.snd

/-- The slot whose call an event is for. -/
def addressed (ev : Event) : Option Slot :=
  match ev.slotOf with
  | some s => some s
  | none => if ev.isChannelWide then none else a.target ev

/-! ## What one operation delivers

The parts of an operation are told apart by what they add to the log, each of one slot. -/

variable {a} {s s' : Slot} {ev : Event} {now : ℤ} {c : Call}

/-- What was told of a slot, after something was told of one. -/
theorem onSlot_log {b : DmrSlotAggregator} {l : List Item} {t : Slot}
    (h : b.log = a.log ++ l.map fun i => (t, i)) (s : Slot) :
    b.onSlot s = a.onSlot s ++ if t = s then l else [] := by
  have hl : ((l.map fun i => (t, i)).filter (·.1 = s)).map Prod.snd = if t = s then l else [] := by
    clear h
    induction l with
    | nil => rw [List.map_nil, List.filter_nil, List.map_nil, ite_self]
    | cons i l ih =>
      rw [List.map_cons, List.filter_cons]
      by_cases ht : t = s
      · rw [if_pos (decide_eq_true ht), List.map_cons, ih, if_pos ht, if_pos ht]
      · rw [if_neg (by simpa using ht), ih, if_neg ht, if_neg ht]
  rw [onSlot, h, List.filter_append, List.map_append, hl, onSlot]

/-- Without a call there is nothing to end. -/
theorem close_none (h : a.slots s = none) : a.close s = a := by rw [close, h]

/-- A slot that was closed has no call. -/
theorem close_slots : (a.close s).slots = Function.update a.slots s none := by
  rw [close]
  split
  · next h => rw [← h, Function.update_eq_self]
  · rfl

theorem close_slots_of_ne (h : s' ≠ s) : (a.close s).slots s' = a.slots s' := by
  rw [close_slots, Function.update_of_ne h]

theorem close_hang : (a.close s).hang = a.hang := by rw [close]; split <;> rfl

/-- **Closing ends the open call**, and says so once. -/
theorem close_log :
    (a.close s).log = a.log ++ ((a.slots s).toList.map .ended).map fun i => (s, i) := by
  rw [close]
  split
  · next h => rw [h]; exact (List.append_nil _).symm
  · next h => rw [h]; rfl

theorem close_history : (a.close s).history = a.history ++ (a.slots s).toList := by
  rw [close]
  split
  · next h => rw [h]; exact (List.append_nil _).symm
  · next h => rw [h]; rfl

/-- A call started for an event makes no difference to what the event then does but for being
there. -/
theorem receive_admitted {d : Call} :
    { a with slots := Function.update a.slots s (some d) }.receive s ev now c =
      a.receive s ev now c := by
  rw [receive, receive, Function.update_idem]

/-- What is told of an event: the event, and a start or an update. -/
theorem receive_log : (a.receive s ev now c).log = a.log ++ List.map (fun i => (s, i))
    [.folded ev, if c.events = 0 then .started (c.fold ev now) else .updated (c.fold ev now)] := rfl

theorem receive_slots :
    (a.receive s ev now c).slots = Function.update a.slots s (some (c.fold ev now)) :=
  rfl

/-- **What reaches a slot**: the call open there, its successor or a new one, or nothing. -/
theorem apply_cases (a : DmrSlotAggregator) (s : Slot) (ev : Event) (now : ℤ) :
    (∃ c, a.slots s = some c ∧ ¬(ev.identity ∧ ev.changed c) ∧
        a.apply s ev now = a.reach s ev now) ∨
      (ev.identity = true ∧ ((a.slots s).isNone ∨ ∃ c, a.slots s = some c ∧ ev.changed c) ∧
        a.apply s ev now =
          let b := (a.close s).receive s ev now { slot := s, start := now, lastActivity := now }
          if ev.terminated then b.close s else b) ∨
      (a.slots s = none ∧ ev.identity = false ∧ a.apply s ev now = a) := by
  have hnew : ∀ b : DmrSlotAggregator, b.slots s = none → ev.identity = true →
      (b.openFor s ev now).reach s ev now =
        let b := b.receive s ev now { slot := s, start := now, lastActivity := now }
        if ev.terminated then b.close s else b := by
    intro b hb hi
    have hcond : (ev.identity && (b.slots s).isNone) = true := by rw [hi, hb]; rfl
    rw [openFor, if_pos hcond, reach]
    simp only [Function.update_self, receive_admitted]
  cases hs : a.slots s with
  | none =>
    have hroll : a.rollOver s ev = a := by
      rw [rollOver, close_none hs, ite_self]
    cases hi : ev.identity with
    | true =>
      refine Or.inr (Or.inl ⟨rfl, Or.inl rfl, ?_⟩)
      rw [apply, hroll, hnew a hs hi, close_none hs]
    | false =>
      refine Or.inr (Or.inr ⟨rfl, rfl, ?_⟩)
      rw [apply, hroll, openFor, hi, Bool.false_and, if_neg Bool.false_ne_true, reach, hs]
  | some c =>
    by_cases hc : ev.identity = true ∧ ev.changed c = true
    · refine Or.inr (Or.inl ⟨hc.1, Or.inr ⟨c, rfl, hc.2⟩, ?_⟩)
      have hcond : (ev.identity && (a.slots s).any ev.changed) = true := by
        rw [hs, hc.1, Option.any_some, hc.2]; rfl
      rw [apply, rollOver, if_pos hcond]
      exact hnew _ (by rw [close_slots, Function.update_self]) hc.1
    · refine Or.inl ⟨c, rfl, hc, ?_⟩
      have hroll : a.rollOver s ev = a := by
        rw [rollOver, if_neg (by rwa [hs, Option.any_some, Bool.and_eq_true])]
      have hadm : a.openFor s ev now = a := by
        rw [openFor,
          if_neg (by rw [hs, Option.isNone_some, Bool.and_false]; exact Bool.false_ne_true)]
      rw [apply, hroll, hadm]

end DmrSlotAggregator

end DsdClient
