import DsdServer.Assoc.Consistency
import DsdServer.Assoc.Cores
import DsdServer.Assoc.Streams

/-!
# Assoc/Slots — one call at a time on a slot

A TDMA slot carries one call at a time.  A call comes to carry a slot when it is opened on it, when
a slotted event adopts it, and when it takes the slot of a duplicate; only the first looks at what
the slot carries already, and only at the latest call of the slot.

* `lasting_handle` — **what lasts, lasts through the handling of an event**: that a session has one
  call in progress on a slot, as long as the slots taken are free; and whose calls are open.

A call on no slot in particular may be adopted by a slotted event, and a call may be given the slot
of a duplicate.  In these two ways a call comes to a slot that is not looked at before, and they are
what the condition is about.
-/

open Bytes

namespace DsdServer

/-- Is the call in progress? -/
def Core.fresh (c : Core) (now : ℤ) : Bool := c.isOpen && now - c.lastMs ≤ kContinueMs

/-- A record that has faded is not fresher than it was. -/
theorem Core.Fades.fresh {c c' : Core} {now : ℤ} (h : c.Fades c') (hf : c'.fresh now) :
    c.fresh now := by
  rw [Core.fresh, Bool.and_eq_true] at hf ⊢
  exact ⟨h.isOpen hf.1, h.lastMs ▸ hf.2⟩

/-- A call in progress later is in progress before. -/
theorem Core.fresh_mono {c : Core} {now now' : ℤ} (hn : now ≤ now') (hf : c.fresh now') :
    c.fresh now := by
  rw [Core.fresh, Bool.and_eq_true, decide_eq_true_eq] at hf ⊢
  exact ⟨hf.1, (Int.sub_le_sub_right hn _).trans hf.2⟩

namespace Family

/-- **A session has one call in progress on a slot**, at most. -/
def Exclusive (F : Family) (now : ℤ) : Prop :=
  ∀ c ∈ F.cores, ∀ c' ∈ F.cores, c.fresh now → c'.fresh now → c.session = c'.session →
    c.slot = c'.slot → c.slot ≠ [] → c.id = c'.id

/-- **No call of the session is in progress on the slot.** -/
def Free (F : Family) (sid : ℕ) (slot : Bytes) (now : ℤ) : Prop :=
  ∀ c ∈ F.cores, c.fresh now → c.session = sid → c.slot = slot → slot = []

instance (F : Family) (now : ℤ) : Decidable (F.Exclusive now) :=
  inferInstanceAs (Decidable (∀ c ∈ F.cores, ∀ c' ∈ F.cores, c.fresh now → c'.fresh now →
    c.session = c'.session → c.slot = c'.slot → c.slot ≠ [] → c.id = c'.id))

instance (F : Family) (sid : ℕ) (slot : Bytes) (now : ℤ) : Decidable (F.Free sid slot now) :=
  inferInstanceAs (Decidable (∀ c ∈ F.cores, c.fresh now → c.session = sid →
    c.slot = slot → slot = []))

variable {F F' : Family} {sid id : ℕ} {slot : Bytes} {now now' : ℤ}

/-- Where calls fade, slots stay with one call each. -/
theorem Exclusive.fades (h : F.Exclusive now) (hf : F.Fades F') : F'.Exclusive now := by
  intro c₁' h₁' c₂' h₂' hf₁ hf₂ hs hslot hne
  obtain ⟨c₁, h₁, e₁⟩ := hf c₁' h₁'
  obtain ⟨c₂, h₂, e₂⟩ := hf c₂' h₂'
  rw [e₁.id, e₂.id]
  refine h c₁ h₁ c₂ h₂ (e₁.fresh hf₁) (e₂.fresh hf₂) ?_ ?_ (e₁.slot ▸ hne)
  · rw [← e₁.session, ← e₂.session, hs]
  · rw [← e₁.slot, ← e₂.slot, hslot]

/-- Later on no more calls are in progress. -/
theorem Exclusive.later (h : F.Exclusive now) (hn : now ≤ now') : F.Exclusive now' :=
  fun c hc c' hc' hf hf' => h c hc c' hc' (Core.fresh_mono hn hf) (Core.fresh_mono hn hf')

/-- One record changes, and its id stays. -/
theorem mem_cores_modifyCall (hk : F.callIds.Nodup) {k : Call} (hf : F.findCall id = some k)
    {g : Call → Call} {c : Core} (hc : c ∈ (F.modifyCall id g).cores) :
    c = (g k).core ∨ c ∈ F.cores := by
  rw [cores, modifyCall, List.map_map] at hc
  obtain ⟨k', hk', rfl⟩ := List.mem_map.1 hc
  rw [Function.comp_apply]
  by_cases he : k'.id = id
  · have hf' : F.findCall k'.id = some k' := KeyedList.findLast_of_mem hk hk'
    rw [he, hf] at hf'
    obtain rfl := Option.some.inj hf'
    rw [if_pos he]
    exact Or.inl rfl
  · rw [if_neg he]
    exact Or.inr (List.mem_map_of_mem hk')

/-- **A call in progress changes**, and stays on its slot. -/
theorem Exclusive.amend (h : F.Exclusive now) (hk : F.callIds.Nodup) {k : Call}
    (hf : F.findCall id = some k) (hp : k.fresh now) {g : Call → Call}
    (hg : (g k).id = k.id ∧ (g k).session = k.session ∧ (g k).slot = k.slot ∧
      (g k).isOpen = k.isOpen) :
    (F.modifyCall id g).Exclusive now := by
  obtain ⟨hid, hses, hslot, -⟩ := hg
  have hm : k.core ∈ F.cores := List.mem_map_of_mem (findCall_some hf).1
  intro c₁ h₁ c₂ h₂ hf₁ hf₂ hs hl hne
  rcases mem_cores_modifyCall hk hf h₁ with rfl | m₁ <;>
      rcases mem_cores_modifyCall hk hf h₂ with rfl | m₂
  · rfl
  · exact hid.trans (h _ hm c₂ m₂ hp hf₂ (hses.symm.trans hs) (hslot.symm.trans hl)
      fun e => hne (hslot.trans e))
  · exact (h c₁ m₁ _ hm hf₁ hp (hs.trans hses) (hl.trans hslot) hne).trans hid.symm
  · exact h c₁ m₁ c₂ m₂ hf₁ hf₂ hs hl hne

/-- **A call takes a slot** on which no other of its session is in progress. -/
theorem Exclusive.take (h : F.Exclusive now) (hk : F.callIds.Nodup) {k : Call}
    (hf : F.findCall id = some k) (hfree : F.Free k.session slot now) {g : Call → Call}
    (hg : (g k).session = k.session ∧ (g k).slot = slot ∧ (g k).isOpen = k.isOpen) :
    (F.modifyCall id g).Exclusive now := by
  obtain ⟨hses, hslot, -⟩ := hg
  intro c₁ h₁ c₂ h₂ hf₁ hf₂ hs hl hne
  rcases mem_cores_modifyCall hk hf h₁ with rfl | m₁ <;>
      rcases mem_cores_modifyCall hk hf h₂ with rfl | m₂
  · rfl
  · exact absurd (hfree c₂ m₂ hf₂ (hs.symm.trans hses) (hl.symm.trans hslot)) fun e =>
      hne (hslot.trans e)
  · exact absurd (hfree c₁ m₁ hf₁ (hs.trans hses) (hl.trans hslot)) fun e =>
      hne (hl.trans (hslot.trans e))
  · exact h c₁ m₁ c₂ m₂ hf₁ hf₂ hs hl hne

/-- **A call is opened on a free slot.** -/
theorem Exclusive.push (h : F.Exclusive now) {k : Call} (hfree : F.Free k.session k.slot now) :
    ({ F with calls := F.calls ++ [k] } : Family).Exclusive now := by
  have hmem : ∀ c ∈ ({ F with calls := F.calls ++ [k] } : Family).cores, c ∈ F.cores ∨ c = k.core :=
    fun c hc => by
      rw [cores, List.map_append, List.mem_append, List.map_singleton, List.mem_singleton] at hc
      exact hc
  intro c₁ h₁ c₂ h₂ hf₁ hf₂ hs hslot hne
  rcases hmem c₁ h₁ with m₁ | rfl <;> rcases hmem c₂ h₂ with m₂ | rfl
  · exact h c₁ m₁ c₂ m₂ hf₁ hf₂ hs hslot hne
  · exact absurd (hfree c₁ m₁ hf₁ hs hslot) fun e => hne (hslot.trans e)
  · exact absurd (hfree c₂ m₂ hf₂ hs.symm hslot.symm) hne
  · rfl

end Family

/-! ## The slots an event's call takes

There are three ways: a call is opened on the slot of the event, a call without a slot adopts it,
and a call that is joined hands its slot on to its twin.  Each is told by the family at that moment,
the session and the slot. -/

/-- A call comes to carry a slot: the family then, the call's session, and the slot. -/
structure Taking where
  fam : Family
  session : ℕ
  slot : Bytes

/-- No other call of the session is in progress on the slot. -/
def Taking.Free (t : Taking) (now : ℤ) : Prop := t.fam.Free t.session t.slot now

instance (t : Taking) (now : ℤ) : Decidable (t.Free now) :=
  inferInstanceAs (Decidable (t.fam.Free t.session t.slot now))

/-- **A property of families that the handling of a session's event keeps**, as long as `free` holds
of every slot taken. -/
structure Lasting (P : Family → Prop) (free : Taking → Prop) (sid : ℕ) (now : ℤ) : Prop where
  /-- records end and go -/
  fades {F F' : Family} : P F → F.Fades F' → P F'
  /-- a call in progress changes, and stays on its slot -/
  amend {F : Family} {id : ℕ} {k : Call} {g : Call → Call} : P F → F.callIds.Nodup →
    F.findCall id = some k → k.fresh now →
    ((g k).id = k.id ∧ (g k).session = k.session ∧ (g k).slot = k.slot ∧ (g k).isOpen = k.isOpen) →
    P (F.modifyCall id g)
  /-- a call in progress takes a slot -/
  take {F : Family} {id : ℕ} {k : Call} {slot : Bytes} {g : Call → Call} : P F → F.callIds.Nodup →
    F.findCall id = some k → k.fresh now → free ⟨F, k.session, slot⟩ →
    ((g k).session = k.session ∧ (g k).slot = slot ∧ (g k).isOpen = k.isOpen) →
    P (F.modifyCall id g)
  /-- a call of the session is opened -/
  push {F : Family} {k : Call} : P F → k.session = sid → free ⟨F, sid, k.slot⟩ →
    P { F with calls := F.calls ++ [k] }

/-- **One call on a slot** lasts, as long as the slots taken are free. -/
theorem lasting_exclusive (sid : ℕ) (now : ℤ) :
    Lasting (fun F => F.Exclusive now) (fun t => t.Free now) sid now where
  fades h hf := h.fades hf
  amend h hk hf hp hg := h.amend hk hf hp hg
  take h hk hf _ hfree hg := h.take hk hf hfree hg
  push h hs hfree := h.push (hs ▸ hfree)

/-- The open calls are of these sessions. -/
def Family.OpenIn (A : ℕ → Prop) (F : Family) : Prop := ∀ c ∈ F.cores, c.isOpen → A c.session

/-- **Whose calls are open** lasts, when the event's session is one of them. -/
theorem lasting_openIn {A : ℕ → Prop} {sid : ℕ} (hA : A sid) (now : ℤ) :
    Lasting (Family.OpenIn A) (fun _ => True) sid now where
  fades h hf c' hc ho := by
    obtain ⟨c, hm, hc⟩ := hf c' hc
    rw [hc.session]
    exact h c hm (hc.isOpen ho)
  amend {F id k g} h hk hf hp hg c hc ho := by
    rcases Family.mem_cores_modifyCall hk hf hc with rfl | hm
    · obtain ⟨-, hs, -, -⟩ := hg
      change A (g k).session
      rw [hs]
      exact h k.core (List.mem_map_of_mem (Family.findCall_some hf).1) (Bool.and_eq_true_iff.1 hp).1
    · exact h c hm ho
  take {F id k slot g} h hk hf hp _ hg c hc ho := by
    rcases Family.mem_cores_modifyCall hk hf hc with rfl | hm
    · change A (g k).session
      rw [hg.1]
      exact h k.core (List.mem_map_of_mem (Family.findCall_some hf).1) (Bool.and_eq_true_iff.1 hp).1
    · exact h c hm ho
  push {F k} h hs _ c hc ho := by
    rw [Family.cores, List.map_append, List.mem_append, List.map_singleton,
      List.mem_singleton] at hc
    rcases hc with hm | rfl
    · exact h c hm ho
    · change A k.session
      rw [hs]
      exact hA

namespace StreamState

variable (L : Limits) (on : Bool) (st : StreamState) (sid : ℕ) (r : Reading) (id : ℕ) (now : ℤ)

/-- A slotted event adopts a slot-less call. -/
def adopting : List Taking :=
  if r.tgt = [] then []
  else match st.activeCall r.slot r.tgt now with
    | some _ => []
    | none => match st.adoptable r now with
      | some (_, k) => if k.slot = [] ∧ r.slot ≠ [] then [⟨st.fam, k.session, r.slot⟩] else []
      | none => []

/-- A slot-less twin takes its duplicate's slot. -/
def joining : List Taking :=
  match st.fam.findCall id with
  | none => []
  | some k =>
    if k.counted || k.src = [] || k.tgt = [] then []
    else match st.fam.findTwin k now with
      | some twin => if twin.slot = [] then [⟨st.fam, twin.session, k.slot⟩] else []
      | none => []

/-- **The slots that calls take** in the handling of an event, with the family at each moment: a
call in progress adopted, a call opened (once the slot's latest ended and there is room), a twin
joined. -/
def takings : List Taking :=
  if isRoster r.up then []
  else if r.ev.kind = lit "sync" ∧ has r.up (lit "| TLC") then []
  else if r.ev.kind = lit "unknown" then []
  else if !r.extends' then []
  else
    let st := st.hearRadio L r now
    st.adopting r now ++ match st.matchCall L r now with
    | (st, some id) => (st.folded L on r id now).joining id now
    | (st, none) =>
      if !r.callish || (r.src = [] && r.tgt = [] && r.ev.kind ≠ lit "message") then []
      else
        let room := (st.vacate L r.slot now).onFamily fun w => w.rollOff L
        let (st, id) := st.openCall L sid r.slot now
        ⟨room.fam, sid, r.slot⟩ :: (st.folded L on r id now).joining id now

variable {L on st sid r id now} {P : Family → Prop} {free : Taking → Prop}

theorem fresh_findTwin {F : Family} {k twin : Call} (h : F.findTwin k now = some twin) :
    twin.fresh now := by
  have hp := List.find?_some h
  simp only [Bool.and_eq_true, decide_eq_true_eq] at hp
  exact Bool.and_eq_true_iff.2 ⟨hp.1.1.1.1.1.2, decide_eq_true hp.1.1.1.1.2⟩

/-! ### What lasts through the parts of the handling

A property lasts when fading keeps it, and taking a slot that is free.  The slots of a family are
one such property; that the calls of a session are in one family is another. -/

/-- Counting a call, or joining it with one that takes its slot. -/
theorem lasting_countOrJoin (hP : Lasting P free sid now) (h : P st.fam) (hk : st.fam.callIds.Nodup)
    (ht : ∀ t ∈ st.joining id now, free t) (slot : Bytes) :
    P (st.countOrJoin L id slot now).fam := by
  rcases cores_countOrJoin L st id slot now with hc | ⟨dup, twin, hdup, hcnt, htwin, hc⟩
  · exact hP.fades h (.of_cores hc)
  · have hm : st.fam.findCall twin.id = some twin :=
      KeyedList.findLast_of_mem hk (of_findTwin htwin).1
    have hj : P (st.fam.modifyCall twin.id fun t => t.join dup) := by
      by_cases hslot : twin.slot = []
      · refine hP.take h hk hm (fresh_findTwin htwin) (ht ⟨st.fam, twin.session, dup.slot⟩ ?_)
          ⟨rfl, if_pos hslot, rfl⟩
        rw [joining, hdup]
        dsimp only
        rw [if_neg hcnt, htwin]
        dsimp only
        rw [if_pos hslot]
        exact List.mem_singleton_self _
      · exact hP.amend h hk hm (fresh_findTwin htwin) ⟨rfl, rfl, if_neg hslot, rfl⟩
    exact hP.fades (hP.fades hj (.of_sublist (Family.calls_forget_sublist _ id))) (.of_cores hc)

theorem lasting_foldEvent (hP : Lasting P free sid now) (h : P st.fam) (hk : st.fam.callIds.Nodup)
    (hp : st.fam.InProgress id now) (ht : ∀ t ∈ (st.folded L on r id now).joining id now, free t) :
    P (st.foldEvent L on r id now).fam := by
  have hc := cores_folded L on st r id now
  obtain ⟨k, hf, hfresh⟩ := hp
  rw [foldEvent_eq]
  refine lasting_countOrJoin hP ?_ ?_ ht r.slot
  · exact hP.fades (hP.amend h hk hf hfresh (g := fun k => k.heard now) ⟨rfl, rfl, rfl, rfl⟩)
      (.of_cores hc)
  · rwa [Family.callIds_eq, hc, ← Family.callIds_eq,
      Family.callIds_modifyCall (g := fun k => k.heard now) fun _ => rfl]

/-- Looking for the call of an event by its target. -/
theorem lasting_matchTarget (hP : Lasting P free sid now) (h : P st.fam) (hk : st.fam.callIds.Nodup)
    (hr : r.tgt ≠ [])
    (ht : ∀ t ∈ st.adopting r now, free t) : P (st.matchTarget r now).1.fam := by
  rw [adopting, if_neg hr] at ht
  rw [matchTarget]
  rcases ha : st.activeCall r.slot r.tgt now with _ | k
  · rw [ha] at ht
    rcases hd : st.adoptable r now with _ | ⟨key, k⟩
    · exact h
    · rw [hd] at ht
      dsimp only at ht ⊢
      split_ifs with hslot
      · rw [if_pos hslot] at ht
        exact hP.take h hk (of_adoptable hd).1 (of_adoptable hd).2
          (ht _ (List.mem_singleton_self _))
          ⟨rfl, rfl, rfl⟩
      · exact h
  · exact h

/-- **Looking for the call of an event**, which may adopt one without a slot. -/
theorem lasting_matchCall (hP : Lasting P free sid now) (h : P st.fam) (hk : st.fam.callIds.Nodup)
    (ht : ∀ t ∈ st.adopting r now, free t) : P (st.matchCall L r now).1.fam := by
  set m : StreamState × Option ℕ := if r.tgt = [] then (st, (st.freshCall r.slot now).map (·.id))
    else st.matchTarget r now
  have hm : P m.1.fam := by
    simp only [m]
    split_ifs with hr
    · exact h
    · exact lasting_matchTarget hP h hk hr ht
  have heq : st.matchCall L r now = match m.2.bind m.1.fam.findCall with
      | none => (m.1, none)
      | some k =>
        if k.data && !k.voice && r.src = [] && r.tgt = [] && r.voicey then (m.1, none)
        else if r.src ≠ [] && k.src ≠ [] && r.src ≠ k.src then
          (m.1.onFamily fun w => w.closeCall L k.id, none)
        else (m.1, some k.id) := rfl
  rw [heq]
  split
  · exact hm
  · split_ifs
    · exact hm
    · exact hP.fades hm (m.1.toFamilyState.fades_closeCall _)
    · exact hm

/-- A call that was opened is in progress. -/
theorem inProgress_openCall (L : Limits) (st : StreamState) (sid : ℕ) (slot : Bytes) (now : ℤ) :
    (st.openCall L sid slot now).1.fam.InProgress (st.openCall L sid slot now).2 now := by
  set st₁ := (st.vacate L slot now).onFamily fun w => w.rollOff L
  set k : Call :=
    { id := st₁.nextCall + 1, session := sid, slot := slot, net := st₁.ctx.net, site := st₁.ctx.site
      freq := st₁.ctx.freq, startMs := now, lastMs := now }
  have hfam : (st.openCall L sid slot now).1.fam = { st₁.fam with calls := st₁.fam.calls ++ [k] } :=
    rfl
  refine ⟨k, ?_, ?_⟩
  · rw [hfam, Family.findCall, List.reverse_append, List.reverse_singleton, List.singleton_append,
      List.find?_cons_of_pos]
    exact decide_eq_true rfl
  · change (true && decide (now - now ≤ kContinueMs)) = true
    rw [Int.sub_self]
    rfl

/-- **Opening a call** on a slot that is free. -/
theorem lasting_openCall (hP : Lasting P free sid now) (h : P st.fam) {slot : Bytes}
    (ht : free ⟨((st.vacate L slot now).onFamily fun w => w.rollOff L).fam, sid, slot⟩) :
    P (st.openCall L sid slot now).1.fam := by
  have h₁ := hP.fades (hP.fades h (fades_vacate L st slot now))
    (FamilyState.fades_rollOff (L := L) _)
  exact hP.push h₁ rfl ht

/-- **What lasts, lasts through the handling of an event** that takes free slots only. -/
theorem lasting_handle (hs : Spot st.spot) (hP : Lasting P free sid now) (h : P st.fam)
    (ht : ∀ t ∈ st.takings L on sid r now, free t) : P (st.handle L on sid r now).fam := by
  have hids : ∀ {st' : StreamState}, Works L st st' → st'.fam.callIds.Nodup :=
    fun hw => (hs.edits (hw.edits hs)).kept.ids
  rw [takings] at ht
  rw [handle]
  split_ifs with h₁ h₂ h₃ h₄
  · exact h
  · rw [markUnkeyed]
    split
    · exact h
    · exact hP.fades h (.of_cores (Family.cores_modifyCall fun _ _ _ => rfl))
  · exact hP.fades h (.of_cores (cores_refine L st r now))
  · exact hP.fades h (.of_cores (cores_hearRadio L st r now))
  · rw [if_neg h₁, if_neg h₂, if_neg h₃, if_neg h₄] at ht
    dsimp only at ht
    have hear := works_hearRadio L st r now
    have h' := hP.fades h (.of_cores (cores_hearRadio L st r now))
    set st₀ := st.hearRadio L r now
    have hmatch := works_matchCall L st₀ r now
    have hx := lasting_matchCall (L := L) hP h' (hids hear) fun t hm =>
      ht t (List.mem_append_left _ hm)
    have ht' := fun t hm => ht t (List.mem_append_right _ hm)
    rw [handleCall]
    rcases hm : st₀.matchCall L r now with ⟨st₁, _ | id⟩
    · rw [hm] at hmatch hx ht'
      dsimp only at hmatch hx ht' ⊢
      split_ifs with hc
      · exact hx
      · rw [if_neg hc] at ht'
        have ho := works_openCall L st₁ sid r.slot now
        refine lasting_foldEvent hP (lasting_openCall hP hx (ht' _ List.mem_cons_self))
          (hids ((hear.trans hmatch.1).trans ho.1)) ?_ fun t hm => ht' t (List.mem_cons_of_mem _ hm)
        exact inProgress_openCall L st₁ sid r.slot now
    · rw [hm] at hmatch hx ht'
      exact lasting_foldEvent hP hx (hids (hear.trans hmatch.1)) (hmatch.2 id rfl) ht'

end StreamState

end DsdServer
