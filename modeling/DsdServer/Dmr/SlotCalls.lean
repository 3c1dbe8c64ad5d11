import DsdServer.Dmr.SlotAggregator

/-!
# Dmr/SlotCalls — the calls a client is told of

A slot's callbacks are complete calls, one start and updates and one end, and the history is those
that ended: `run_structured`.  What tells a call's first event is its counter of events, which has a
width; `long_call_restarts` is a call that outlasts it.

The callbacks of a slot are compared with a list of calls as they are delivered, each of them
complete but perhaps the last.  An event adds to the call that is open, or ends it and opens
another, and the list grows in the same way.
-/

open Bytes

namespace DsdClient

namespace DmrSlotAggregator

variable {a : DmrSlotAggregator} {s s' : Slot} {ev : Event} {now : ℤ} {c : Call}

/-! ## Calls, as they are delivered

A session is a call with the events that went into it; what is told of it is a start, an update for
each event after the first, and an end. -/

/-- An event, and the call as it stood with the event in it. -/
structure Folded where
  ev : Event
  call : Call

/-- A call's session: the event that started it and those that updated it. -/
structure Session where
  start : Folded
  updates : List Folded

namespace Session

variable (d : Session)

/-- The session's last state. -/
def current : Call := (d.updates.getLast?.getD d.start).call

/-- What is delivered for a call: one start, and an update for each further event folded into it. -/
def items : List Item :=
  [.folded d.start.ev, .started d.start.call] ++
    d.updates.flatMap fun f => [.folded f.ev, .updated f.call]

/-- What is delivered for a complete call. -/
def complete : List Item := d.items ++ [.ended d.current]

/-- A call with one more event in it. -/
def update (f : Folded) : Session := { d with updates := d.updates ++ [f] }

@[simp] theorem current_update (f : Folded) : (d.update f).current = f.call := by
  rw [current, update, List.getLast?_concat, Option.getD_some]

theorem items_update (f : Folded) :
    (d.update f).items = d.items ++ [.folded f.ev, .updated f.call] := by
  simp [items, update]

end Session

/-- **A slot's callbacks are complete calls**, all but the last, which is open if it is not. -/
def SlotStructured (a : DmrSlotAggregator) (s : Slot) : Prop :=
  ∃ (done : List Session) (last : Option Session),
    a.onSlot s = done.flatMap Session.complete ++ last.elim [] Session.items ∧
      a.slots s = last.map Session.current

/-- The slots' callbacks are calls, and the history is those that ended. -/
structure Structured (a : DmrSlotAggregator) : Prop where
  slots : ∀ s, SlotStructured a s
  history : a.history = a.log.filterMap (·.2.ended?)

/-- A slot without a call has told of complete calls only. -/
theorem Structured.idle (h : Structured a) (hs : a.slots s = none) :
    ∃ done : List Session, a.onSlot s = done.flatMap Session.complete := by
  obtain ⟨done, last, hlog, hlast⟩ := h.slots s
  rcases last with _ | d
  · exact ⟨done, by rw [hlog]; exact List.append_nil _⟩
  · rw [hs] at hlast
    exact absurd hlast (Option.some_ne_none _).symm

/-- A slot with a call has told of complete calls, and of that one so far. -/
theorem Structured.busy (h : Structured a) (hs : a.slots s = some c) :
    ∃ (done : List Session) (d : Session),
      a.onSlot s = done.flatMap Session.complete ++ d.items ∧ d.current = c := by
  obtain ⟨done, last, hlog, hlast⟩ := h.slots s
  rcases last with _ | d
  · rw [hs] at hlast
    exact absurd hlast (Option.some_ne_none _)
  · rw [hs] at hlast
    exact ⟨done, d, hlog, (Option.some.inj hlast).symm⟩

/-- A slot is not touched by what goes on at the other. -/
theorem SlotStructured.frame {b : DmrSlotAggregator} {l : List Item} (h : SlotStructured a s')
    (hlog : b.log = a.log ++ l.map fun i => (s, i)) (hs : s ≠ s') (hb : b.slots s' = a.slots s') :
    SlotStructured b s' := by
  obtain ⟨done, last, hl, hlast⟩ := h
  refine ⟨done, last, ?_, hb.trans hlast⟩
  rw [onSlot_log hlog, if_neg hs, List.append_nil, hl]

theorem Structured.close (h : Structured a) : Structured (a.close s) := by
  constructor
  · intro t
    by_cases ht : s = t
    · subst ht
      cases hs : a.slots s with
      | none => rw [close_none hs]; exact h.slots s
      | some c =>
        obtain ⟨done, d, hlog, hd⟩ := h.busy hs
        refine ⟨done ++ [d], none, ?_, by rw [close_slots, Function.update_self]; rfl⟩
        rw [onSlot_log close_log, if_pos rfl, hlog, hs, List.flatMap_append, List.flatMap_singleton]
        simp [Session.complete, hd]
    · exact (h.slots t).frame close_log ht (close_slots_of_ne (Ne.symm ht))
  · rw [close_history, close_log, h.history, List.filterMap_append]
    cases a.slots s <;> rfl

/-- Nothing ends when an event goes into a call. -/
theorem receive_history (h : a.history = a.log.filterMap (·.2.ended?)) :
    (a.receive s ev now c).history = (a.receive s ev now c).log.filterMap (·.2.ended?) := by
  rw [receive_log, List.filterMap_append, ← h]
  split <;> exact (List.append_nil _).symm

/-- **An event starts a call** where none is open. -/
theorem Structured.receive_new (h : Structured a) (ev : Event) (now : ℤ) (hs : a.slots s = none)
    (hc : c.events = 0) :
    Structured (a.receive s ev now c) := by
  refine ⟨fun t => ?_, receive_history h.history⟩
  by_cases ht : s = t
  · subst ht
    obtain ⟨done, hlog⟩ := h.idle hs
    refine ⟨done, some ⟨⟨ev, c.fold ev now⟩, []⟩, ?_, by
      rw [receive_slots, Function.update_self]; rfl⟩
    rw [onSlot_log receive_log, if_pos rfl, if_pos hc, hlog]
    rfl
  · exact (h.slots t).frame receive_log ht (Function.update_of_ne (Ne.symm ht) _ _)

/-- **An event updates the open call**, whose counter is not at nought. -/
theorem Structured.receive_open (h : Structured a) (ev : Event) (now : ℤ) (hs : a.slots s = some c)
    (hc : c.events ≠ 0) : Structured (a.receive s ev now c) := by
  refine ⟨fun t => ?_, receive_history h.history⟩
  by_cases ht : s = t
  · subst ht
    obtain ⟨done, d, hlog, -⟩ := h.busy hs
    refine ⟨done, some (d.update ⟨ev, c.fold ev now⟩), ?_, ?_⟩
    · rw [onSlot_log receive_log, if_pos rfl, if_neg hc, hlog, Option.elim_some,
        Session.items_update, List.append_assoc]
    · rw [receive_slots, Function.update_self, Option.map_some, Session.current_update]
  · exact (h.slots t).frame receive_log ht (Function.update_of_ne (Ne.symm ht) _ _)

/-! ## Runs of the aggregator

The structure is an invariant: what was told of a slot is complete calls, and then the beginning of
the one it has. -/

/-- The event goes into an open call whose counter of events has come round to nought. -/
def Wraps (a : DmrSlotAggregator) : Op → Prop
  | .event ev now => ∃ s ∈ (a.tick now).addressed ev, ∃ c ∈ (a.tick now).slots s,
      ¬(ev.identity ∧ ev.changed c) ∧ c.events = 0
  | .tick _ => False

/-- No event of a run goes into a call whose counter has come round. -/
def Unwrapped (a : DmrSlotAggregator) : List Op → Prop
  | [] => True
  | op :: ops => ¬a.Wraps op ∧ (a.step op).Unwrapped ops

/-- **An event keeps the structure**, when the counter of its call has not come round. -/
theorem Structured.apply (h : Structured a)
    (hw : ∀ c ∈ a.slots s, ¬(ev.identity ∧ ev.changed c) → c.events ≠ 0) :
    Structured (a.apply s ev now) := by
  rcases apply_cases a s ev now with
    ⟨c, hs, hc, hap⟩ | ⟨-, -, hap⟩ | ⟨-, -, hap⟩
  · rw [hap, reach, hs]
    have hopen := h.receive_open ev now hs (hw c hs hc)
    dsimp only
    split_ifs
    · exact hopen.close
    · exact hopen
  · rw [hap]
    have hnew :=
      (h.close (s := s)).receive_new ev now (c := { slot := s, start := now, lastActivity := now })
      (by rw [close_slots, Function.update_self]) rfl
    dsimp only
    split_ifs
    · exact hnew.close
    · exact hnew
  · rw [hap]
    exact h

/-- Time that passes keeps the structure. -/
theorem Structured.tick (h : Structured a) (now : ℤ) : Structured (a.tick now) := by
  have hsweep : ∀ {a : DmrSlotAggregator} {s : Slot}, Structured a →
      Structured (a.sweep now s) := by
    intro a s h
    rw [sweep]
    split_ifs
    · exact h.close
    · exact h
  exact hsweep (hsweep h)

/-- An event goes to the call it is addressed to, once the slots are swept. -/
theorem onEvent_eq (a : DmrSlotAggregator) (ev : Event) (now : ℤ) : ∃ b : DmrSlotAggregator,
    b.slots = (a.tick now).slots ∧ b.log = (a.tick now).log ∧ b.history = (a.tick now).history ∧
    a.onEvent ev now = ((a.tick now).addressed ev).elim b fun s => b.apply s ev now := by
  rw [onEvent, addressed]
  cases ev.slotOf with
  | some s => exact ⟨{ a.tick now with lastSlot := some s }, rfl, rfl, rfl, rfl⟩
  | none =>
    refine ⟨a.tick now, rfl, rfl, rfl, ?_⟩
    dsimp only
    split_ifs
    · rfl
    · cases (a.tick now).target ev <;> rfl

/-- The structure is a matter of slots, log and history. -/
theorem Structured.of_eq {b : DmrSlotAggregator} (h : Structured a) (hs : b.slots = a.slots)
    (hl : b.log = a.log) (hh : b.history = a.history) : Structured b := by
  refine ⟨fun s => ?_, by rw [hh, hl, h.history]⟩
  obtain ⟨done, last, hlog, hlast⟩ := h.slots s
  exact ⟨done, last, by rwa [onSlot, hl], by rw [hs, hlast]⟩

/-- **A step keeps the structure.** -/
theorem Structured.step (h : Structured a) {op : Op} (hw : ¬a.Wraps op) :
    Structured (a.step op) := by
  cases op with
  | tick now => exact h.tick now
  | event ev now =>
    obtain ⟨b, hs, hl, hh, hb⟩ := onEvent_eq a ev now
    have hbs := (h.tick now).of_eq hs hl hh
    rw [DmrSlotAggregator.step, hb]
    cases had : (a.tick now).addressed ev with
    | none => exact hbs
    | some s =>
      refine hbs.apply fun c hc hch he => hw ⟨s, had, c, ?_, hch, he⟩
      rwa [hs] at hc

/-- **A run keeps the structure**, step by step. -/
theorem Structured.run {ops : List Op} : ∀ {a : DmrSlotAggregator}, Structured a → a.Unwrapped ops →
    Structured (ops.foldl DmrSlotAggregator.step a) := by
  induction ops with
  | nil => exact fun h _ => h
  | cons op ops ih => exact fun h hw => ih (h.step hw.1) hw.2

/-! ## An event goes into one call

That an event is taken in at most once, and by the call of one slot, is read off the log. -/

/-- The events that were folded into a call, in order. -/
def foldedEvents (a : DmrSlotAggregator) : List Event := a.log.filterMap (·.2.folded?)

theorem foldedEvents_close : (a.close s).foldedEvents = a.foldedEvents := by
  rw [foldedEvents, close_log, List.filterMap_append, foldedEvents]
  cases a.slots s <;> exact List.append_nil _

/-- An event that is received is taken in once. -/
theorem foldedEvents_receive : (a.receive s ev now c).foldedEvents = a.foldedEvents ++ [ev] := by
  rw [foldedEvents, receive_log, List.filterMap_append, foldedEvents]
  split <;> rfl

/-- An event of a slot is taken in once or not at all. -/
theorem foldedEvents_apply :
    (a.apply s ev now).foldedEvents = a.foldedEvents ∨
      (a.apply s ev now).foldedEvents = a.foldedEvents ++ [ev] := by
  rcases apply_cases a s ev now with
    ⟨c, hs, -, hap⟩ | ⟨-, -, hap⟩ | ⟨-, -, hap⟩
  · right
    rw [hap, reach, hs]
    dsimp only
    split_ifs
    · rw [foldedEvents_close, foldedEvents_receive]
    · rw [foldedEvents_receive]
  · right
    rw [hap]
    dsimp only
    split_ifs
    · rw [foldedEvents_close, foldedEvents_receive, foldedEvents_close]
    · rw [foldedEvents_receive, foldedEvents_close]
  · left
    rw [hap]

/-- Time that passes takes in no event. -/
theorem foldedEvents_tick : (a.tick now).foldedEvents = a.foldedEvents := by
  have hsweep : ∀ {a : DmrSlotAggregator} {s : Slot},
      (a.sweep now s).foldedEvents = a.foldedEvents := by
    intro a s
    rw [sweep]
    split_ifs
    · exact foldedEvents_close
    · rfl
  rw [tick, hsweep, hsweep]

/-- The events folded are those fed, in order, each at most once. -/
theorem foldedEvents_run (ops : List Op) : ∀ a : DmrSlotAggregator, ∃ l, l.Sublist (fed ops) ∧
    (ops.foldl step a).foldedEvents = a.foldedEvents ++ l := by
  induction ops with
  | nil => exact fun a => ⟨[], List.Sublist.refl _, (List.append_nil _).symm⟩
  | cons op ops ih =>
    intro a
    obtain ⟨l, hl, hrun⟩ := ih (a.step op)
    rw [List.foldl_cons, hrun]
    cases op with
    | tick now => exact ⟨l, hl, by rw [step, foldedEvents_tick]⟩
    | event ev now =>
      obtain ⟨b, -, hb, -, hev⟩ := onEvent_eq a ev now
      have hfe : b.foldedEvents = a.foldedEvents := by
        rw [foldedEvents, hb]
        exact foldedEvents_tick
      have hcases : (a.onEvent ev now).foldedEvents = a.foldedEvents ∨
          (a.onEvent ev now).foldedEvents = a.foldedEvents ++ [ev] := by
        rw [hev, ← hfe]
        cases (a.tick now).addressed ev with
        | none => exact Or.inl rfl
        | some s => exact foldedEvents_apply
      rcases hcases with h | h
      · exact ⟨l, hl.cons ev, by rw [step, h]⟩
      · exact ⟨ev :: l, hl.cons_cons ev, by rw [step, h, List.append_assoc]; rfl⟩

/-- A call's session has one start, and one event more than updates. -/
theorem Session.items_count (d : Session) :
    d.items.countP Item.isStarted = 1 ∧
      d.items.countP Item.isFolded = 1 + d.items.countP Item.isUpdated := by
  have h : ∀ l : List Folded,
      (l.flatMap fun f => [Item.folded f.ev, .updated f.call]).countP Item.isStarted = 0 ∧
      (l.flatMap fun f => [Item.folded f.ev, .updated f.call]).countP Item.isFolded =
        (l.flatMap fun f => [Item.folded f.ev, .updated f.call]).countP Item.isUpdated := by
    intro l
    induction l with
    | nil => exact ⟨rfl, rfl⟩
    | cons f l ih =>
      simp only [List.flatMap_cons, List.countP_append, ih.1, ih.2]
      exact ⟨rfl, rfl⟩
  simp only [Session.items, List.countP_append, (h d.updates).1, (h d.updates).2]
  exact ⟨rfl, by
    rw [show List.countP Item.isUpdated [.folded d.start.ev, .started d.start.call] = 0 from rfl,
    Nat.zero_add]; rfl⟩

/-- What a run of the aggregator has delivered: complete calls and open ones on each slot, the
history of those that ended, and each event in at most one of them. -/
structure CallStructure (hang : ℤ) (ops : List Op) : Prop where
  structured : Structured (run hang ops)
  once : (run hang ops).foldedEvents.Sublist (fed ops)
  count : ∀ d : Session, d.items.countP Item.isStarted = 1 ∧
    d.items.countP Item.isFolded = 1 + d.items.countP Item.isUpdated

/-- A part of a run in which no counter comes round. -/
theorem Unwrapped.of_prefix {ops pre : List Op} : ∀ {a : DmrSlotAggregator} {rest : List Op},
    pre ++ rest = ops → a.Unwrapped ops → a.Unwrapped pre := by
  induction pre generalizing ops with
  | nil => exact fun _ _ => trivial
  | cons op pre ih =>
    intro a rest hr h
    subst hr
    exact ⟨h.1, ih rfl h.2⟩

/-- **The callbacks of a run are complete calls**, unless an event goes into a call whose counter of
events has come round to nought. -/
theorem run_structured (hang : ℤ) (ops : List Op) (h : Unwrapped { hang := hang } ops)
    (pre : List Op) (hp : pre <+: ops) : CallStructure hang pre := by
  obtain ⟨rest, hr⟩ := hp
  have hinit : Structured { hang := hang } := ⟨fun s => ⟨[], none, rfl, rfl⟩, rfl⟩
  obtain ⟨l, hl, hrun⟩ := foldedEvents_run pre { hang := hang }
  exact ⟨hinit.run (h.of_prefix hr), by rw [run, hrun]; exact hl, Session.items_count⟩

/-- A call that starts, goes on and is terminated, and the next one. -/
def twoCalls : List Op :=
  [.event { kind := lit "call", slot := lit "1", sourceId := lit "7", talkgroup := lit "9" } 0,
    .event { kind := lit "voice", slot := lit "1" } 60,
    .event { kind := lit "burst", slot := lit "1", extra := lit "burst=TLC" } 120,
    .event { kind := lit "call", slot := lit "1", sourceId := lit "8" } 180]

instance (a : DmrSlotAggregator) (op : Op) : Decidable (a.Wraps op) := by
  cases op <;> unfold Wraps <;> infer_instance

instance decidableUnwrapped : ∀ (a : DmrSlotAggregator) (ops : List Op), Decidable (a.Unwrapped ops)
  | _, [] => isTrue trivial
  | a, op :: ops => by
    have := decidableUnwrapped (a.step op) ops
    unfold Unwrapped
    infer_instance

theorem twoCalls_structured : Unwrapped { hang := 1000 } twoCalls ∧ CallStructure 1000 twoCalls :=
  ⟨by decide, run_structured 1000 twoCalls (by decide) twoCalls (List.prefix_refl _)⟩

/-! ### The counter of events comes round

The aggregator takes a call for new when its counter of events is zero, which it is again after 2^32
of them.  Such a call is told to have started twice. -/

/-- A call was told to have ended. -/
def Item.isEnded (i : Item) : Bool := i.ended?.isSome

/-- Calls start one more often than they end, at most. -/
theorem SlotStructured.started_le (h : SlotStructured a s) :
    (a.onSlot s).countP Item.isStarted ≤ (a.onSlot s).countP Item.isEnded + 1 := by
  obtain ⟨done, last, hlog, -⟩ := h
  have hcomplete : (done.flatMap Session.complete).countP Item.isStarted ≤
      (done.flatMap Session.complete).countP Item.isEnded := by
    clear hlog
    induction done with
    | nil => exact le_rfl
    | cons d done ih =>
      have hone : List.countP Item.isStarted [.ended d.current] = 0 ∧
          List.countP Item.isEnded [.ended d.current] = 1 := ⟨rfl, rfl⟩
      rw [List.flatMap_cons, List.countP_append, List.countP_append, Session.complete,
        List.countP_append, List.countP_append, (Session.items_count d).1, hone.1, hone.2]
      omega
  have hlast : (last.elim [] Session.items).countP Item.isStarted ≤ 1 := by
    cases last with
    | none => exact Nat.zero_le 1
    | some d => exact (Session.items_count d).1.le
  rw [hlog, List.countP_append, List.countP_append]
  omega

/-- A source that is named is the call's. -/
theorem fold_source (h : ev.sourceId ≠ []) : (c.fold ev now).source = ev.sourceId := by
  rw [Call.fold]
  exact if_pos h

/-- An event that names its call's party, at time nought. -/
def steady : Event := { kind := lit "call", slot := lit "1", sourceId := lit "1" }

theorem step_steady (h1 : a.slots .one = some c) (h2 : a.slots .two = none) (hh : a.hang = 1000)
    (hc : c.source = lit "1") (ht : c.lastActivity = 0) :
    a.step (.event steady 0) = { a with lastSlot := some .one }.receive .one steady 0 c := by
  have htick : a.tick 0 = a := by
    have hone : a.sweep 0 .one = a := by
      rw [sweep, h1, Option.any_some, ht, hh]
      rfl
    rw [tick, hone, sweep, h2]
    rfl
  have hch : Event.changed steady c = false := by
    simp [Event.changed, hc, steady]
  have hroll : { a with lastSlot := some Slot.one }.rollOver .one steady =
      { a with lastSlot := some Slot.one } := by
    rw [rollOver, h1, Option.any_some, hch, Bool.and_false, if_neg Bool.false_ne_true]
  have hadm : { a with lastSlot := some Slot.one }.openFor .one steady 0 =
      { a with lastSlot := some Slot.one } := by
    rw [openFor, h1, Option.isNone_some, Bool.and_false, if_neg Bool.false_ne_true]
  have hslot : steady.slotOf = some .one := by decide
  have hterm : steady.terminated = false := by decide
  rw [step, onEvent, htick, hslot]
  dsimp only
  rw [apply, hroll, hadm, reach, h1]
  dsimp only
  rw [hterm, if_neg Bool.false_ne_true]

/-- **A call of `n + 1` events** has started, and its counter says so modulo the width. -/
theorem run_steady (n : ℕ) :
    ∃ c, (run 1000 (List.replicate (n + 1) (.event steady 0))).slots .one = some c ∧
    c.source = lit "1" ∧ c.lastActivity = 0 ∧ c.events = UInt32.ofNat (n + 1) ∧
    (run 1000 (List.replicate (n + 1) (.event steady 0))).slots .two = none ∧
    (run 1000 (List.replicate (n + 1) (.event steady 0))).hang = 1000 ∧
    1 ≤ ((run 1000 (List.replicate (n + 1) (.event steady 0))).onSlot .one).countP Item.isStarted ∧
    ((run 1000 (List.replicate (n + 1) (.event steady 0))).onSlot .one).countP
      Item.isEnded = 0 := by
  induction n with
  | zero =>
    exact ⟨_, rfl, by decide, by decide, by decide, by decide, by decide, by decide, by decide⟩
  | succ n ih =>
    obtain ⟨c, h1, hc, ht, he, h2, hh, hs, hend⟩ := ih
    have hstep : run 1000 (List.replicate (n + 1 + 1) (.event steady 0)) =
        { run 1000 (List.replicate (n + 1) (.event steady 0)) with
          lastSlot := some Slot.one }.receive .one steady 0 c := by
      rw [run, List.replicate_succ', List.foldl_append]
      exact step_steady h1 h2 hh hc ht
    have hlog := onSlot_log (@receive_log
      { run 1000 (List.replicate (n + 1) (.event steady 0)) with lastSlot := some Slot.one } .one
      steady 0 c) .one
    rw [← hstep, if_pos rfl] at hlog
    refine ⟨c.fold steady 0, by
      rw [hstep, receive_slots, Function.update_self], fold_source (by decide), rfl, ?_, ?_,
      ?_, ?_, ?_⟩
    · rw [UInt32.ofNat_add, ← he]
      rfl
    · rw [hstep, receive_slots, Function.update_of_ne (by decide)]
      exact h2
    · rw [hstep]
      exact hh
    · rw [hlog, List.countP_append]
      exact le_add_of_le_left hs
    · rw [hlog, List.countP_append]
      have hold : List.countP Item.isEnded
          (onSlot { run 1000 (List.replicate (n + 1) (.event steady 0)) with
          lastSlot := some Slot.one } .one) = 0 := hend
      rw [hold]
      split <;> rfl

/-- An event more, when the counter has come round, starts the call again. -/
theorem steady_restarts {n : ℕ} (hn : UInt32.ofNat (n + 1) = 0) :
    ¬Structured (run 1000 (List.replicate (n + 1 + 1) (.event steady 0))) := by
  intro h
  obtain ⟨c, h1, hc, ht, he, h2, hh, hs, hend⟩ := run_steady n
  have hle := (h.slots .one).started_le
  have hstep : run 1000 (List.replicate (n + 1 + 1) (.event steady 0)) =
      { run 1000 (List.replicate (n + 1) (.event steady 0)) with
        lastSlot := some Slot.one }.receive .one steady 0 c := by
    rw [run, List.replicate_succ', List.foldl_append]
    exact step_steady h1 h2 hh hc ht
  have hlog := onSlot_log (@receive_log
    { run 1000 (List.replicate (n + 1) (.event steady 0)) with lastSlot := some Slot.one } .one
    steady 0 c) .one
  rw [← hstep, if_pos rfl, if_pos (he.trans hn)] at hlog
  change _ = onSlot (run 1000 (List.replicate (n + 1) (.event steady 0))) .one ++ _ at hlog
  have hnew : List.countP Item.isStarted [.folded steady, .started (c.fold steady 0)] = 1 ∧
      List.countP Item.isEnded [.folded steady, .started (c.fold steady 0)] = 0 := ⟨rfl, rfl⟩
  rw [hlog, List.countP_append, List.countP_append, hend, hnew.1, hnew.2] at hle
  omega

/-- **After `2³²` events a call starts a second time** without having ended. -/
theorem long_call_restarts :
    ¬CallStructure 1000 (List.replicate (2 ^ 32 + 1) (.event steady 0)) := by
  intro h
  have hrestart := steady_restarts (n := 2 ^ 32 - 1) (by decide)
  rw [Nat.sub_add_cancel (by decide)] at hrestart
  exact hrestart h.structured

end DmrSlotAggregator

end DsdClient
