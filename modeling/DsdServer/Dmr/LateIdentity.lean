import DsdServer.Dmr.SlotAggregator

/-!
# Dmr/LateIdentity — a party that becomes known during a call

A header may come late, and name a talkgroup or a source that its call does not know yet.
`late_identity_iff` says which events of an open call are folded into it; the late header is not
one.
-/

open Bytes

namespace DsdClient

namespace DmrSlotAggregator

variable {a : DmrSlotAggregator} {s s' : Slot} {ev : Event} {now : ℤ} {c : Call}

/-! ## Late identity

An event names a party that the call does not know yet.  The aggregator compares it with the empty
party the call has, finds it changed, and ends the call; a call that knows the party takes the event
in. -/

/-- The event and the call agree on every party that both name. -/
def Agrees (c : Call) (ev : Event) : Prop :=
  (ev.talkgroup = [] ∨ c.talkgroup = [] ∨ ev.talkgroup = c.talkgroup) ∧
    (ev.sourceId = [] ∨ c.source = [] ∨ ev.sourceId = c.source)

/-- The call knows every party that the event names. -/
def Knows (c : Call) (ev : Event) : Prop :=
  (ev.talkgroup = [] ∨ c.talkgroup ≠ []) ∧ (ev.sourceId = [] ∨ c.source ≠ [])

/-- The event updates the slot's open call, which ends only if the event terminates it. -/
def Updates (a : DmrSlotAggregator) (s : Slot) (c : Call) (ev : Event) (now : ℤ) : Prop :=
  (a.onEvent ev now).onSlot s = a.onSlot s ++ [.folded ev, .updated (c.fold ev now)] ++
    if ev.terminated then [.ended (c.fold ev now)] else []

/-- The event ends the slot's open call before anything else. -/
def RollsOver (a : DmrSlotAggregator) (s : Slot) (c : Call) (ev : Event) (now : ℤ) : Prop :=
  ∃ rest, (a.onEvent ev now).onSlot s = a.onSlot s ++ .ended c :: rest

/-- An event leaves its call be if it agrees with it, and rolls over only if it does not. -/
def NoSplit (a : DmrSlotAggregator) (s : Slot) (c : Call) (ev : Event) (now : ℤ) : Prop :=
  (Agrees c ev → Updates a s c ev now) ∧ (RollsOver a s c ev now → ¬Agrees c ev)

/-- What counts as changed is a party the call does not know, or one that it knows otherwise. -/
theorem not_changed_iff : ev.changed c = false ↔ Agrees c ev ∧ Knows c ev := by
  rw [Event.changed, Agrees, Knows]
  by_cases ht : ev.talkgroup = [] <;> by_cases hs : ev.sourceId = [] <;> simp [ht, hs] <;> grind

/-- An event for a slot within the hang time finds the slot's call as it was. -/
theorem onEvent_slot (hs : ev.slotOf = some s) (hc : a.slots s = some c)
    (hh : now - c.lastActivity ≤ a.hang) :
    ∃ b : DmrSlotAggregator, b.slots s = some c ∧ b.onSlot s = a.onSlot s ∧
      a.onEvent ev now = b.apply s ev now := by
  have hsweep : ∀ (d : DmrSlotAggregator) (t : Slot), d.slots s = some c → d.hang = a.hang →
      (d.sweep now t).slots s = some c ∧ (d.sweep now t).hang = a.hang ∧
        (d.sweep now t).onSlot s = d.onSlot s := by
    intro d t hd hdh
    rw [sweep]
    split_ifs with hlate
    · have hst : s ≠ t := by
        rintro rfl
        rw [hd, hdh, Option.any_some, decide_eq_true_eq] at hlate
        omega
      rw [close_slots_of_ne hst, close_hang, onSlot_log close_log, if_neg (Ne.symm hst),
        List.append_nil]
      exact ⟨hd, hdh, rfl⟩
    · exact ⟨hd, hdh, rfl⟩
  obtain ⟨h1, hh1, hl1⟩ := hsweep a .one hc rfl
  obtain ⟨h2, -, hl2⟩ := hsweep _ .two h1 hh1
  refine ⟨{ a.tick now with lastSlot := some s }, h2, hl2.trans hl1, ?_⟩
  rw [onEvent, hs]

/-- The callbacks of an event that reaches an open call. -/
theorem reach_onSlot (hc : a.slots s = some c) : (a.reach s ev now).onSlot s = a.onSlot s ++
    [.folded ev, if c.events = 0 then .started (c.fold ev now) else .updated (c.fold ev now)] ++
      if ev.terminated then [.ended (c.fold ev now)] else [] := by
  have hrecv : (a.receive s ev now c).onSlot s = a.onSlot s ++
      [.folded ev, if c.events = 0 then .started (c.fold ev now) else .updated
        (c.fold ev now)] := by
    rw [onSlot_log receive_log, if_pos rfl]
  rw [reach, hc]
  by_cases ht : ev.terminated = true
  · simp only [if_pos ht]
    rw [onSlot_log close_log, if_pos rfl, hrecv, receive_slots, Function.update_self]
    rfl
  · simp only [if_neg ht]
    rw [hrecv, List.append_nil]

/-- An event that rolls over ends the call, then starts one. -/
theorem apply_rolled (now : ℤ) (hc : a.slots s = some c) (hi : ev.identity = true)
    (hch : ev.changed c = true) :
    ∃ rest, (a.apply s ev now).onSlot s = a.onSlot s ++ .ended c :: rest := by
  have hclose : ((a.close s).onSlot s) = a.onSlot s ++ [.ended c] := by
    rw [onSlot_log close_log, if_pos rfl, hc]
    rfl
  rcases apply_cases a s ev now with
    ⟨d, hd, hno, -⟩ | ⟨-, -, hap⟩ | ⟨-, hno, -⟩
  · rw [hc] at hd
    obtain rfl := Option.some.inj hd
    exact absurd ⟨hi, hch⟩ hno
  · rw [hap]
    dsimp only
    split_ifs
    · rw [onSlot_log close_log, onSlot_log receive_log, hclose, List.append_assoc,
        List.append_assoc]
      exact ⟨_, rfl⟩
    · rw [onSlot_log receive_log, hclose, List.append_assoc]
      exact ⟨_, rfl⟩
  · rw [hi] at hno
    exact absurd hno Bool.noConfusion

/-- A call or voice frame without a party changes none. -/
theorem changed_of_identity (hk : ev.kind = lit "call" ∨ ev.kind = lit "voice")
    (hch : ev.changed c = true) :
    ev.identity = true := by
  have hkind : (ev.kind = lit "call" || ev.kind = lit "voice") = true := by simpa using hk
  rw [Event.changed, Bool.or_eq_true] at hch
  rw [Event.identity, hkind, Bool.true_and, Bool.or_eq_true, Bool.or_eq_true]
  left
  exact hch.imp (fun h => (Bool.and_eq_true _ _ ▸ h).1) fun h => (Bool.and_eq_true _ _ ▸ h).1

/-- **An event that only tells an open call more** updates it when it tells it nothing new: a party
that the call does not know yet ends it. -/
theorem late_identity_iff (hang : ℤ) (ops : List Op) (s : Slot) (c : Call) (ev : Event) (now : ℤ)
    (hs : ev.slotOf = some s) (hk : ev.kind = lit "call" ∨ ev.kind = lit "voice")
    (hc : (run hang ops).slots s = some c) (hh : now - c.lastActivity ≤ (run hang ops).hang) :
    NoSplit (run hang ops) s c ev now ↔ (Agrees c ev → Knows c ev ∧ c.events ≠ 0) := by
  obtain ⟨b, hb, hlog, hev⟩ := onEvent_slot hs hc hh
  rw [NoSplit, Updates, RollsOver, hev, ← hlog]
  by_cases hch : ev.changed c = true
  · have hsplit := not_changed_iff.not.1 (by rw [hch]; exact Bool.noConfusion)
    obtain ⟨rest, hroll⟩ := apply_rolled now hb (changed_of_identity hk hch) hch
    constructor
    · exact fun h hag => absurd hag (h.2 ⟨rest, hroll⟩)
    · intro h
      have hno : ¬Agrees c ev := fun hag => hsplit ⟨hag, (h hag).1⟩
      exact ⟨fun hag => absurd hag hno, fun _ => hno⟩
  · have hag := not_changed_iff.1 (Bool.eq_false_iff.2 hch)
    have happly : b.apply s ev now = b.reach s ev now := by
      rcases apply_cases b s ev now with
        ⟨d, hd, -, hap⟩ | ⟨-, hno, -⟩ | ⟨hno, -, -⟩
      · exact hap
      · rw [hb] at hno
        obtain hno | ⟨d, hd, hdc⟩ := hno
        · exact absurd hno Bool.noConfusion
        · obtain rfl := Option.some.inj hd
          exact absurd hdc hch
      · rw [hb] at hno
        exact absurd hno (Option.some_ne_none _)
    rw [happly, reach_onSlot hb]
    by_cases he : c.events = 0
    · rw [if_pos he]
      refine ⟨fun h => ?_, fun h => absurd he (h hag.1).2⟩
      have hupd := h.1 hag.1
      rw [List.append_assoc, List.append_assoc, List.append_cancel_left_eq] at hupd
      simp at hupd
    · rw [if_neg he]
      refine ⟨fun _ _ => ⟨hag.2, he⟩, fun _ => ⟨fun _ => rfl, ?_⟩⟩
      rintro ⟨rest, hroll⟩
      rw [List.append_assoc, List.append_cancel_left_eq] at hroll
      simp at hroll

/-- A call opened by a header that names its source alone. -/
def sourceOnly : List Op := [.event { kind := lit "call", slot := lit "1", sourceId := lit "7" } 0]

/-- A late header, which names the talkgroup as well. -/
def lateHeader : Event :=
  { kind := lit "call", slot := lit "1", sourceId := lit "7", talkgroup := lit "9" }

/-- The call that the first header opens. -/
def sourceCall : Call := ({ slot := .one, start := 0, lastActivity := 0 } : Call).fold
  { kind := lit "call", slot := lit "1", sourceId := lit "7" } 0

/-- A call that knows its source and not its talkgroup. -/
theorem sourceOnly_slots : (run 1000 sourceOnly).slots .one = some sourceCall := rfl

/-- **The late header ends the call** it is the second header of. -/
theorem lateHeader_splits : ¬NoSplit (run 1000 sourceOnly) .one sourceCall lateHeader 60 := by
  have hc := sourceOnly_slots
  have hag : Agrees sourceCall lateHeader := by unfold Agrees; decide
  obtain ⟨b, hb, hlog, hev⟩ := onEvent_slot (by decide : lateHeader.slotOf = some .one) hc
    (by decide : (60 : ℤ) - sourceCall.lastActivity ≤ (run 1000 sourceOnly).hang)
  obtain ⟨rest, hroll⟩ := apply_rolled 60 hb (by decide : lateHeader.identity = true) (by decide)
  exact fun h => h.2 ⟨rest, by rw [hev, hroll, hlog]⟩ hag

/-- A header that repeats what is known is folded in. -/
theorem lateHeader_repeated :
    NoSplit (run 1000 sourceOnly) .one sourceCall { lateHeader with talkgroup := [] } 60 ↔
      (Agrees sourceCall { lateHeader with talkgroup := [] } →
        Knows sourceCall { lateHeader with talkgroup := [] } ∧ sourceCall.events ≠ 0) :=
  late_identity_iff 1000 sourceOnly .one sourceCall _ 60 (by decide)
    (by decide) sourceOnly_slots (by decide)

end DmrSlotAggregator

end DsdClient
