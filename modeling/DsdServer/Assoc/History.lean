import DsdServer.Assoc.Consistency
import DsdServer.Assoc.Cores
import DsdServer.Assoc.Replay

/-!
# Assoc/History — the cap of the call list

A call without audio rolls off by count: when a call is admitted to a full list, the oldest record
that is not kept goes.  One goes, and no more: records that stopped being kept since, or a limit
that was lowered, leave the list above the limit.

* `call_history_capped` — **while no call is admitted to a list above the limit, every admission
  leaves it within**; and what an admission evicts is always the oldest record not kept.

The limit is compared with the number of records only when a call is admitted.  So the result is
about admissions, in two parts: what one of them makes of a list that is within the limit, and which
record it evicts from any list.
-/

open Bytes

namespace DsdServer

/-! ## Which records are kept

A record is marked to be kept when its call gets audio, and by a recording that is replayed; the cap
of the list counts the others.  All that the cap sees of a record is its mark. -/

/-- A record's id, and whether it is kept. -/
def Call.mark (k : Call) : ℕ × Bool := (k.id, k.keep)

namespace Family

/-- The records, as the cap sees them. -/
def marks (F : Family) : List (ℕ × Bool) := F.calls.map Call.mark

/-- **The records that roll off by count.** -/
def notKept (F : Family) : ℕ := F.calls.countP fun k => !k.keep

variable {L : Limits} {F F' : Family} {id : ℕ} {now : ℤ}

/-- The records that roll off are counted by their marks. -/
theorem notKept_eq (F : Family) : F.notKept = F.marks.countP fun m => !m.2 := by
  rw [notKept, marks, List.countP_map]
  rfl

theorem callIds_eq_marks (F : Family) : F.callIds = F.marks.map Prod.fst := by
  rw [callIds, marks, List.map_map]
  rfl

/-- Equal marks have equally many that roll off. -/
theorem notKept_congr (h : F'.marks = F.marks) : F'.notKept = F.notKept := by
  rw [notKept_eq, notKept_eq, h]

theorem marks_congr (h : F'.calls = F.calls) : F'.marks = F.marks := congrArg (List.map Call.mark) h

/-- The marks are part of the cores. -/
theorem marks_of_cores (h : F'.cores = F.cores) : F'.marks = F.marks := by
  have hm (F : Family) : F.marks = F.cores.map fun c => (c.id, c.keep) := by
    rw [marks, cores, List.map_map]
    rfl
  rw [hm, hm, h]

/-- A change that leaves a mark leaves all. -/
theorem marks_modifyCall {g : Call → Call} (hg : ∀ k, (g k).mark = k.mark) :
    (F.modifyCall id g).marks = F.marks := by
  rw [marks, modifyCall, List.map_map]
  refine List.map_congr_left fun k _ => ?_
  rw [Function.comp_apply]
  split_ifs
  · exact hg k
  · rfl

/-- Forgetting a call takes its mark out. -/
theorem marks_forget (F : Family) (id : ℕ) :
    (F.forget id).marks = F.marks.eraseP fun m => m.1 = id := by
  rw [marks, forget, marks, List.eraseP_map]
  rfl

/-- A record is kept no less than before. -/
theorem notKept_modifyCall_le {g : Call → Call} (hg : ∀ k, k.keep = true → (g k).keep = true) :
    (F.modifyCall id g).notKept ≤ F.notKept := by
  rw [notKept, modifyCall, List.countP_map, notKept]
  refine List.countP_mono_left fun k _ h => ?_
  rw [Function.comp_apply] at h
  split_ifs at h
  · rw [Bool.not_eq_true'] at h ⊢
    exact Bool.eq_false_iff.2 fun hk => Bool.false_ne_true (h.symm.trans (hg k hk))
  · exact h

/-- Forgetting a call leaves no more that roll off. -/
theorem notKept_forget_le (F : Family) (id : ℕ) : (F.forget id).notKept ≤ F.notKept :=
  (calls_forget_sublist F id).countP_le

end Family

/-! ## Making room

Rolling off walks the list from its oldest record to the first that is not kept, and takes that one.
When all records are kept nothing goes, and the list may grow. -/

namespace FamilyState

variable {L : Limits} {w : FamilyState} {id : ℕ}

/-- Ending a call that is not kept leaves it not kept. -/
theorem marks_settleSound (hn : ∀ m ∈ w.fam.marks, m.1 = id → m.2 = false) :
    (w.settleSound id).fam.marks = w.fam.marks := by
  rw [settleSound]
  split
  · rfl
  · next k _ =>
    split_ifs
    · rfl
    · set w' : FamilyState :=
        { w with
          store := w.store.discard k.sound.audio
          fam := w.fam.modifyCall id Call.dropSound }
      have hmarks : w'.fam.marks = w.fam.marks := Family.marks_modifyCall fun _ => rfl
      rw [setKeep]
      split
      · exact hmarks
      · next k' hk' =>
        have hkeep : k'.keep = false := by
          obtain ⟨hm, hid⟩ := Family.findCall_some hk'
          exact hn k'.mark (hmarks ▸ List.mem_map_of_mem hm) hid
        rw [if_pos hkeep]
        exact hmarks
    · rfl

/-- Ending a call that is not kept leaves the marks. -/
theorem marks_closeCall (hn : ∀ m ∈ w.fam.marks, m.1 = id → m.2 = false) :
    (w.closeCall L id).fam.marks = w.fam.marks := by
  rw [closeCall]
  split
  · rfl
  · split_ifs
    · have h₁ : (w.shut id).fam.marks = w.fam.marks := Family.marks_modifyCall fun _ => rfl
      have h₂ : ((w.shut id).settleSound id).fam.marks = (w.shut id).fam.marks :=
        marks_settleSound (by rwa [h₁])
      rw [← h₁, ← h₂]
      exact (Family.marks_congr (Family.calls_tallyClosed ..)).trans
        (Family.marks_of_cores (Family.cores_countUnsourced _ id))
    · rfl

/-- **What makes room** evicts nothing, or the oldest record that is not kept. -/
structure Evicts (F F' : Family) (older : List Call) (v : Call) (later : List Call) : Prop where
  records : F.calls = older ++ v :: later
  kept : ∀ k ∈ older, k.keep
  evicted : v.keep = false
  rest : F'.marks = (older ++ later).map Call.mark

/-- **Evicting makes one record less** that rolls off. -/
theorem Evicts.notKept {F F' : Family} {older later : List Call} {v : Call}
    (h : Evicts F F' older v later) :
    F'.notKept + 1 = F.notKept := by
  have hv : (v :: later).countP (fun k => !k.keep) = (later.countP fun k => !k.keep) + 1 :=
    List.countP_cons_of_pos (by rw [h.evicted]; rfl)
  rw [Family.notKept_eq, h.rest, List.countP_map, Family.notKept, h.records, List.countP_append,
    List.countP_append, hv, ← Nat.add_assoc]
  rfl

/-- **A full list loses its oldest record not kept**, and one that is not full none. -/
theorem rollOff_evicts (h : w.fam.Kept) {n : ℕ} (hL : L.calls = some n) (hn : 0 < n) :
    w.fam.notKept < n ∧ w.rollOff L = w ∨
      n ≤ w.fam.notKept ∧ ∃ older v later, Evicts w.fam (w.rollOff L).fam older v later := by
  rw [rollOff, hL]
  rcases lt_or_ge w.fam.notKept n with hlt | hge
  · have hno : reached (some n) (w.fam.calls.countP fun k => !k.keep) = false :=
      decide_eq_false (not_le.2 hlt)
    rw [hno, if_neg Bool.false_ne_true]
    exact Or.inl ⟨hlt, rfl⟩
  refine Or.inr ⟨hge, ?_⟩
  have hyes : reached (some n) (w.fam.calls.countP fun k => !k.keep) = true := decide_eq_true hge
  rw [hyes, if_pos rfl]
  rcases hv : w.fam.calls.find? fun k => !k.keep with _ | v
  · have hzero : w.fam.notKept = 0 := List.countP_eq_zero.2 fun k hk => List.find?_eq_none.1 hv k hk
    omega
  obtain ⟨hvk, older, later, hcalls, holder⟩ := List.find?_eq_some_iff_append.1 hv
  rw [Bool.not_eq_true'] at hvk
  have hkept : ∀ k ∈ older, k.keep = true := fun k hk => by simpa using holder k hk
  refine ⟨older, v, later, hcalls, hkept, hvk, ?_⟩
  have hids := h.ids
  rw [hcalls, List.map_append, List.map_cons, List.nodup_append] at hids
  have hne : ∀ k ∈ older, k.id ≠ v.id := fun k hk =>
    hids.2.2 _ (List.mem_map_of_mem hk) _ List.mem_cons_self
  have honly : ∀ m ∈ w.fam.marks, m.1 = v.id → m.2 = false := by
    intro m hm he
    obtain ⟨k, hk, rfl⟩ := List.mem_map.1 hm
    have hvm : v ∈ w.fam.calls := by
      rw [hcalls]
      exact List.mem_append_right _ List.mem_cons_self
    obtain rfl := List.inj_on_of_nodup_map h.ids hk hvm he
    exact hvk
  rw [hv]
  change ((w.closeCall L v.id).fam.forget v.id).marks = _
  rw [Family.marks_forget, marks_closeCall honly, Family.marks, hcalls, List.map_append,
    List.map_cons, List.eraseP_append_right, List.eraseP_cons_of_pos, List.map_append]
  · exact decide_eq_true rfl
  · intro m hm
    obtain ⟨k, hk, rfl⟩ := List.mem_map.1 hm
    exact fun he => hne k hk (of_decide_eq_true he)

end FamilyState

/-! ## Admission

Most events belong to a call that is already there.  `admitting` follows the branches of the
handling to the one that opens a call, and gives the stream as it is at that moment, so that the cap
can be compared before and after. -/

namespace StreamState

variable {L : Limits} {st st' : StreamState}

/-- The stream at the moment an event's call is admitted, when one is. -/
def admitting (L : Limits) (st : StreamState) (r : Reading) (now : ℤ) : Option StreamState :=
  if isRoster r.up then none
  else if r.ev.kind = lit "sync" ∧ has r.up (lit "| TLC") then none
  else if r.ev.kind = lit "unknown" then none
  else if !r.extends' then none
  else
    match (st.hearRadio L r now).matchCall L r now with
    | (_, some _) => none
    | (st, none) =>
      if !r.callish || (r.src = [] && r.tgt = [] && r.ev.kind ≠ lit "message") then none
      else some (st.vacate L r.slot now)

/-- The branches on the way to the admission. -/
theorem of_admitting {r : Reading} {now : ℤ} (h : st.admitting L r now = some st') :
    ¬isRoster r.up ∧ ¬(r.ev.kind = lit "sync" ∧ has r.up (lit "| TLC")) ∧
      r.ev.kind ≠ lit "unknown" ∧
      ¬(!r.extends') ∧ ∃ st₁, (st.hearRadio L r now).matchCall L r now = (st₁, none) ∧
        ¬(!r.callish || (r.src = [] && r.tgt = [] && r.ev.kind ≠ lit "message")) ∧
        st' = st₁.vacate L r.slot now := by
  rw [admitting] at h
  by_cases h₁ : isRoster r.up
  · rw [if_pos h₁] at h
    cases h
  by_cases h₂ : r.ev.kind = lit "sync" ∧ has r.up (lit "| TLC")
  · rw [if_neg h₁, if_pos h₂] at h
    cases h
  by_cases h₃ : r.ev.kind = lit "unknown"
  · rw [if_neg h₁, if_neg h₂, if_pos h₃] at h
    cases h
  by_cases h₄ : (!r.extends') = true
  · rw [if_neg h₁, if_neg h₂, if_neg h₃, if_pos h₄] at h
    cases h
  rw [if_neg h₁, if_neg h₂, if_neg h₃, if_neg h₄] at h
  rcases hm : (st.hearRadio L r now).matchCall L r now with ⟨st₁, _ | id⟩
  · rw [hm] at h
    dsimp only at h
    split_ifs at h with h₅
    exact ⟨h₁, h₂, h₃, h₄, st₁, rfl, h₅, (Option.some.inj h).symm⟩
  · rw [hm] at h
    cases h

/-- Where a call is admitted, handling is enlisting it and folding the event in. -/
theorem handle_of_admitting {on : Bool} {sid : ℕ} {r : Reading} {now : ℤ}
    (h : st.admitting L r now = some st') : st.handle L on sid r now =
      (st'.enlist L sid r.slot now).1.foldEvent L on r (st'.enlist L sid r.slot now).2 now := by
  obtain ⟨h₁, h₂, h₃, h₄, st₁, hm, h₅, rfl⟩ := of_admitting h
  rw [handle, if_neg h₁, if_neg h₂, if_neg h₃, if_neg h₄, handleCall, hm]
  dsimp only
  rw [if_neg h₅]
  rfl

/-- Up to the admission the stream has done a stretch of call handling. -/
theorem works_admitting {r : Reading} {now : ℤ} (h : st.admitting L r now = some st') :
    Works L st st' := by
  obtain ⟨-, -, -, -, st₁, hm, -, rfl⟩ := of_admitting h
  have hw := (works_matchCall L (st.hearRadio L r now) r now).1
  rw [hm] at hw
  exact ((works_hearRadio L st r now).trans hw).trans (works_vacate L st₁ r.slot now)

/-! ## After the admission

The event that opened the call is then folded into it.  That may mark records, join the call with a
twin, or end others, but it brings in none, and takes none away but that call's own. -/

/-- **Folding an event into its call leaves no more records that are not kept.** -/
theorem notKept_foldEvent_le (L : Limits) (on : Bool) (st : StreamState) (r : Reading) (id : ℕ)
    (now : ℤ) :
    (st.foldEvent L on r id now).fam.notKept ≤ st.fam.notKept := by
  set st' := st.folded L on r id now
  have hc : st'.fam.cores = _ := cores_folded L on st r id now
  have hm : st'.fam.marks = st.fam.marks :=
    (Family.marks_of_cores hc).trans (Family.marks_modifyCall fun _ => rfl)
  rw [foldEvent_eq, ← Family.notKept_congr hm]
  rcases cores_countOrJoin L st' id r.slot now with h | ⟨dup, twin, -, -, -, h⟩
  · exact (Family.notKept_congr (Family.marks_of_cores h)).le
  · rw [Family.notKept_congr (Family.marks_of_cores h)]
    refine (Family.notKept_forget_le ..).trans (Family.notKept_modifyCall_le fun t ht => ?_)
    rw [Call.join, ht]
    rfl

/-- **Folding an event into its call drops no record but the call's own.** -/
theorem mem_callIds_foldEvent (L : Limits) (on : Bool) (st : StreamState) (r : Reading) (id : ℕ)
    (now : ℤ) {i : ℕ} (hi : i ∈ st.fam.callIds) (hne : i ≠ id) :
    i ∈ (st.foldEvent L on r id now).fam.callIds := by
  set st' := st.folded L on r id now
  have hc : st'.fam.cores = _ := cores_folded L on st r id now
  rw [foldEvent_eq]
  rw [← Family.callIds_modifyCall (g := fun k : Call => k.heard now) (fun _ => rfl) id,
    Family.callIds_eq, ← hc, ← Family.callIds_eq] at hi
  rcases cores_countOrJoin L st' id r.slot now with h | ⟨dup, twin, -, -, -, h⟩
  · rwa [Family.callIds_eq, h, ← Family.callIds_eq]
  · rw [Family.callIds_eq, h, ← Family.callIds_eq]
    rw [← Family.callIds_modifyCall (g := fun t : Call => t.join dup) (fun _ => rfl) twin.id] at hi
    obtain ⟨k, hk, rfl⟩ := List.mem_map.1 hi
    have hk' : k ∈ ((st'.fam.modifyCall twin.id fun t => t.join dup).forget id).calls := by
      refine (List.mem_eraseP_of_neg ?_).2 hk
      exact fun hd => hne (of_decide_eq_true hd)
    exact List.mem_map_of_mem hk'

/-- **A call enlisted makes one record more that is not kept**, unless the list was full. -/
theorem notKept_enlist (h : st.fam.Kept) {n : ℕ} (hL : L.calls = some n) (hn : 0 < n) (sid : ℕ)
    (slot : Bytes) (now : ℤ) : (st.enlist L sid slot now).1.fam.notKept =
      if st.fam.notKept < n then st.fam.notKept + 1 else st.fam.notKept := by
  have hpush : (st.enlist L sid slot now).1.fam.notKept =
      (st.toFamilyState.rollOff L).fam.notKept + 1 := List.countP_append.trans rfl
  rw [hpush]
  rcases FamilyState.rollOff_evicts (w := st.toFamilyState) h hL hn with
    ⟨hlt, he⟩ | ⟨hge, older, v, later, he⟩
  · rw [he, if_pos hlt]
  · rw [he.notKept, if_neg (not_lt.2 hge)]

/-- **A record that is gone** once a call is enlisted and its event folded in is the one the full
list lost: the oldest not kept. -/
theorem evicted_enlist (h : st.fam.Kept) {n : ℕ} (hL : L.calls = some n) (hn : 0 < n) (on : Bool)
    (sid : ℕ) (r : Reading) (now : ℤ) (hid : ∀ i ∈ st.fam.callIds, i ≤ st.nextCall) {v : Call}
    (hv : v ∈ st.fam.calls) (hgone : v.id ∉ ((st.enlist L sid r.slot now).1.foldEvent L on r
      (st.enlist L sid r.slot now).2 now).fam.callIds) :
    n ≤ st.fam.notKept ∧ v.keep = false ∧ ∃ older later, st.fam.calls = older ++ v :: later ∧
      ∀ k ∈ older, k.keep := by
  have hold : v.id ∈ st.fam.callIds := List.mem_map_of_mem hv
  have hlost : v.id ∉ (st.toFamilyState.rollOff L).fam.callIds := fun hm => by
    refine hgone (mem_callIds_foldEvent L on _ r _ now ?_ (ne_of_lt ?_))
    · change v.id ∈ (_ ++ [_]).map Call.id
      rw [List.map_append]
      exact List.mem_append_left _ hm
    · exact Nat.lt_succ_of_le (hid _ hold)
  rcases FamilyState.rollOff_evicts (w := st.toFamilyState) h hL hn with
    ⟨-, he⟩ | ⟨hge, older, u, later, he⟩
  · rw [he] at hlost
    exact absurd hold hlost
  · have hu : v = u := by
      by_contra hne
      have hm : v ∈ older ++ later := by
        rw [he.records, List.mem_append, List.mem_cons] at hv
        rcases hv with hv | rfl | hv
        · exact List.mem_append_left _ hv
        · exact absurd rfl hne
        · exact List.mem_append_right _ hv
      refine hlost ?_
      rw [Family.callIds_eq_marks, he.rest, List.map_map]
      exact List.mem_map_of_mem (f := Prod.fst ∘ Call.mark) hm
    subst hu
    exact ⟨hge, he.evicted, older, later, he.records, he.kept⟩

end StreamState

/-! ## Histories

A history is a sequence of inputs, of marks as a replayed recording sets them, and of limits set by
the user.  The last two are what can leave a list above its limit, as neither evicts anything. -/

/-- What happens to the call list: an input of the model, a mark of a recording, another limit. -/
inductive HistoryOp
  | input (op : Op)
  | markKeep (family : Bytes) (id : ℕ) (on : Bool)
  | setMaxCalls (n : ℕ)

namespace AssocModel

/-- What one operation does. -/
def live (s : AssocModel) : HistoryOp → AssocModel
  | .input op => s.step op
  | .markKeep f id on => s.markKeep f id on
  | .setMaxCalls n => s.setMaxCalls n

/-- The stream at the moment an event's call is admitted, when one is. -/
def admitting (L : Limits) (s : AssocModel) (sid : ℕ) (ev : DsdEvent) (now : ℤ) :
    Option StreamState :=
  let s := s.record (assoclog.eventLine now sid ev)
  match s.sess.find? sid with
  | none => none
  | some c =>
    let r := Reading.ofEvent ev
    let (c, go) := c.gate r now
    let s := s.setCtx sid c
    if go then
      let s := s.identify L sid r now
      ((s.stream sid).expire L now).admitting L r now
    else none

/-- **The event admits no call to a list above the limit.** -/
def HasRoom (s : AssocModel) : HistoryOp → Prop
  | .input (.event sid ev now) =>
    ∀ st ∈ s.admitting s.limits sid ev now, st.fam.notKept ≤ s.maxCalls
  | _ => True

/-- **The event that opens a call leaves its list within the limit.** -/
def Capped (s : AssocModel) : HistoryOp → Prop
  | .input (.event sid ev now) =>
    ∀ st ∈ s.admitting s.limits sid ev now,
      ((s.step (.event sid ev now)).family st.name).notKept ≤ s.maxCalls
  | _ => True

/-- **A record that an event evicts for the call it opens** is the oldest not kept, of a full
list. -/
def RollsOff (s : AssocModel) : HistoryOp → Prop
  | .input (.event sid ev now) =>
    ∀ st ∈ s.admitting s.limits sid ev now, ∀ v ∈ st.fam.calls,
      v.id ∉ ((s.step (.event sid ev now)).family st.name).callIds →
        s.maxCalls ≤ st.fam.notKept ∧ v.keep = false ∧ ∃ older later,
          st.fam.calls = older ++ v :: later ∧ ∀ k ∈ older, k.keep
  | _ => True

/-- Along a history from `s`, `ok` holds of everything that happens. -/
def Throughout (ok : AssocModel → HistoryOp → Prop) : AssocModel → List HistoryOp → Prop
  | _, [] => True
  | s, op :: ops => ok s op ∧ Throughout ok (s.live op) ops

instance (s : AssocModel) : ∀ op, Decidable (s.HasRoom op)
  | .input (.event sid ev now) =>
    inferInstanceAs
      (Decidable (∀ st ∈ s.admitting s.limits sid ev now, st.fam.notKept ≤ s.maxCalls))
  | .input (.begin ..) | .input (.retune ..) | .input (.audio ..) | .input (.finish ..)
  | .input (.remove ..) | .input (.clear ..) | .input (.startAudio ..) | .input .stopAudio
  | .markKeep .. | .setMaxCalls .. => isTrue trivial

instance (s : AssocModel) : ∀ op, Decidable (s.Capped op)
  | .input (.event sid ev now) =>
    inferInstanceAs (Decidable (∀ st ∈ s.admitting s.limits sid ev now,
      ((s.step (.event sid ev now)).family st.name).notKept ≤ s.maxCalls))
  | .input (.begin ..) | .input (.retune ..) | .input (.audio ..) | .input (.finish ..)
  | .input (.remove ..) | .input (.clear ..) | .input (.startAudio ..) | .input .stopAudio
  | .markKeep .. | .setMaxCalls .. => isTrue trivial

instance decidableThroughout (ok : AssocModel → HistoryOp → Prop) [∀ s op, Decidable (ok s op)] :
    ∀ (s : AssocModel) (ops : List HistoryOp), Decidable (Throughout ok s ops)
  | _, [] => isTrue trivial
  | s, op :: ops =>
    have := decidableThroughout ok (s.live op) ops
    inferInstanceAs (Decidable (_ ∧ _))

variable {s : AssocModel}

/-- The invariant of a model with the limits it has. -/
structure Listed (s : AssocModel) : Prop where
  inv : s.Inv (.standard s.maxCalls)
  pos : 0 < s.maxCalls

/-! ### No input moves the limit

The limit is a setting of the model, and every input leaves it as it is; the lemmas go through the
parts of an event. -/

theorem maxCalls_closeSessionCalls (L : Limits) (s : AssocModel) (sid : ℕ) :
    (s.closeSessionCalls L sid).maxCalls = s.maxCalls := by
  rw [closeSessionCalls]
  split
  · rfl
  · split_ifs <;> rfl

theorem maxCalls_pruneSession (s : AssocModel) (sid : ℕ) (retune : Bool) :
    (s.pruneSession sid retune).maxCalls = s.maxCalls := by
  rw [pruneSession]
  split
  · rfl
  · dsimp only
    split_ifs <;> rfl

/-- Finding a network leaves the limit. -/
theorem maxCalls_resolveNetwork (L : Limits) (s : AssocModel) (sid : ℕ) (now : ℤ) :
    (s.resolveNetwork L sid now).maxCalls = s.maxCalls := by
  have hmerge (s : AssocModel) (f frm dst : Bytes) : (s.mergeNetwork L f frm dst).maxCalls =
      s.maxCalls := by
    rw [mergeNetwork]
    split_ifs <;> rfl
  rw [resolveNetwork]
  split_ifs
  · exact hmerge _ _ _ _
  · rfl

/-- What an event says of its network leaves the limit. -/
theorem maxCalls_identify (L : Limits) (s : AssocModel) (sid : ℕ) (r : Reading) (now : ℤ) :
    (s.identify L sid r now).maxCalls = s.maxCalls := by
  have hnote (s : AssocModel) (site : Bytes) : (s.noteNeighbour sid site).maxCalls =
      s.maxCalls := by
    rw [noteNeighbour]
    split_ifs <;> rfl
  have hplace (s : AssocModel) (p : Prop) [Decidable p] :
      (if p then s.resolveNetwork L sid now else s).maxCalls = s.maxCalls := by
    split_ifs
    · exact maxCalls_resolveNetwork L s sid now
    · rfl
  rw [identify]
  exact (hplace _ _).trans (hnote _ _)

theorem maxCalls_ingest (L : Limits) (s : AssocModel) (sid : ℕ) (ev : DsdEvent) (now : ℤ) :
    (s.ingest L sid ev now).maxCalls = s.maxCalls := by
  rw [ingest]
  dsimp only
  split
  · rfl
  · split_ifs
    · exact maxCalls_identify L _ sid _ now
    · rfl

/-- **No input moves the limit**; only `setMaxCalls` does. -/
theorem maxCalls_step (s : AssocModel) (op : Op) : (s.step op).maxCalls = s.maxCalls := by
  have hwrap (L : Limits) (s : AssocModel) (sid : ℕ) (retune : Bool) :
      ((s.closeSessionCalls L sid).pruneSession sid retune).maxCalls = s.maxCalls :=
    (maxCalls_pruneSession ..).trans (maxCalls_closeSessionCalls L s sid)
  cases op with
  | begin sid label now family freq => exact hwrap _ _ sid false
  | retune sid freq now =>
    rw [step, stepWith, retuneStream]
    split
    · rfl
    · split_ifs
      · rfl
      · exact hwrap _ _ sid true
  | event sid ev now => exact maxCalls_ingest _ s sid ev now
  | audio sid slot pcm keyed creatable now =>
    exact (s.settled_audio sid slot pcm keyed creatable now).limit
  | finish sid now => exact (maxCalls_pruneSession ..).trans (maxCalls_closeSessionCalls _ _ sid)
  | remove sid now => exact hwrap _ _ sid false
  | clear now => rfl
  | startAudio listing cap maxAge now => exact (s.settled_startAudio listing cap maxAge now).limit
  | stopAudio => rfl

/-! ### Every history keeps the list

The invariant is that every family has its records in order and its ids given out.  It holds along
every history, with or without room. -/

/-- A mark changes one record, as ids are not given out twice. -/
theorem modify_eq_modifyCall {F : Family} (h : F.Kept) {id i : ℕ} {g : Call → Call}
    (hi : F.calls.findIdx? (fun k => k.id = id) = some i) :
    { F with calls := F.calls.modify i g } = F.modifyCall id g := by
  obtain ⟨hlt, hid, -⟩ := List.findIdx?_eq_some_iff_getElem.1 hi
  rw [decide_eq_true_eq] at hid
  refine congrArg (fun calls => { F with calls := calls }) (List.ext_getElem ?_ fun j hj hj' => ?_)
  · rw [List.length_modify, List.length_map]
  rw [List.getElem_modify, List.getElem_map]
  by_cases hij : i = j
  · subst hij
    rw [if_pos rfl, if_pos hid]
  · rw [if_neg hij, if_neg fun he => hij ?_]
    have hlen : j < F.calls.length := by rwa [List.length_map] at hj'
    have heq := List.inj_on_of_nodup_map h.ids (List.getElem_mem hlt) (List.getElem_mem hlen)
      (hid.trans he.symm)
    exact (List.Nodup.of_map _ h.ids).getElem_inj_iff.1 heq

/-- Every operation keeps the list in order. -/
theorem Listed.live (h : s.Listed) (op : HistoryOp) : (s.live op).Listed := by
  cases op with
  | input op =>
    have hm : (s.live (.input op)).maxCalls = s.maxCalls := maxCalls_step s op
    refine ⟨?_, hm ▸ h.pos⟩
    rw [hm]
    exact h.inv.step op
  | markKeep f id on =>
    rw [AssocModel.live, markKeep]
    split
    · exact h
    next F hF =>
    split
    · exact h
    next i hi =>
    have hfam : s.family f = F := SortedMap.getD_of_find? hF _
    refine ⟨h.inv.insert (f := f) rfl le_rfl ?_, h.pos⟩
    have hk := h.inv.fam f
    rw [hfam] at hk
    rw [modify_eq_modifyCall hk.kept hi]
    exact hk.settle (settles_setKeep on) id
  | setMaxCalls n =>
    have hi : (s.setMaxCalls n).Inv (.standard (max n 10)) :=
      (h.inv.standard (max n 10)).congr rfl rfl
    exact ⟨hi, lt_max_of_lt_right (by decide)⟩

/-- **An event that admits a call** enlists it, and is folded into it. -/
theorem ingest_of_admitting {L : Limits} (h : s.Inv L) {sid : ℕ} {ev : DsdEvent} {now : ℤ}
    {st : StreamState} (ha : s.admitting L sid ev now = some st) : Spot st.spot ∧ ∃ on,
      (s.ingest L sid ev now).family st.name =
        ((st.enlist L sid (Reading.ofEvent ev).slot now).1.foldEvent
        L on (.ofEvent ev) (st.enlist L sid (Reading.ofEvent ev).slot now).2 now).fam := by
  rw [admitting] at ha
  dsimp only at ha
  split at ha
  · cases ha
  next c hc =>
  split_ifs at ha with hg
  rw [ingest]
  dsimp only
  rw [hc]
  dsimp only
  rw [if_pos hg]
  set s₁ := (s.record (assoclog.eventLine now sid ev)).setCtx sid (c.gate (.ofEvent ev) now).1
  have h₁ : s₁.Inv L := h.congr rfl rfl
  set s₂ := s₁.identify L sid (.ofEvent ev) now
  have hs : Spot (s₂.stream sid).spot := ((h₁.identify sid (.ofEvent ev) now).1.fam _).spot
  have hexp := StreamState.works_expire L (s₂.stream sid) now
  have hadm := hexp.trans (StreamState.works_admitting ha)
  have hall := hexp.trans (StreamState.works_handle L s₂.qualityOn _ sid (.ofEvent ev) now)
  refine ⟨hs.edits (hadm.edits hs), s₂.qualityOn, ?_⟩
  rw [StreamState.handle_of_admitting ha] at hall ⊢
  have hname := (name_of_edits (hall.edits hs)).trans (name_of_edits (hadm.edits hs)).symm
  change (s₂.fams.insert _ _).getD st.name {} = _
  rw [family_insert]
  exact if_pos hname.symm

/-- **An admission with room leaves the list within its limit.** -/
theorem Listed.capped (h : s.Listed) {op : HistoryOp} (hr : s.HasRoom op) : s.Capped op := by
  unfold HasRoom at hr
  unfold Capped
  split at hr
  · next sid ev now =>
    intro st ha
    obtain ⟨hs, on, he⟩ := ingest_of_admitting h.inv ha
    have hle := StreamState.notKept_foldEvent_le s.limits on
      (st.enlist s.limits sid (Reading.ofEvent ev).slot now).1 (.ofEvent ev)
      (st.enlist s.limits sid (Reading.ofEvent ev).slot now).2 now
    change ((s.ingest s.limits sid ev now).family st.name).notKept ≤ s.maxCalls
    rw [limits, he]
    refine hle.trans ?_
    rw [StreamState.notKept_enlist hs.kept rfl h.pos]
    split_ifs with hlt
    · exact hlt
    · exact hr st ha
  · trivial

/-- **What an admission evicts is the oldest that is not kept**, room or no room. -/
theorem Listed.rollsOff (h : s.Listed) (op : HistoryOp) : s.RollsOff op := by
  unfold RollsOff
  split
  · next sid ev now =>
    intro st ha v hv hgone
    obtain ⟨hs, on, he⟩ := ingest_of_admitting h.inv ha
    change v.id ∉ ((s.ingest s.limits sid ev now).family st.name).callIds at hgone
    rw [limits, he] at hgone
    exact StreamState.evicted_enlist hs.kept rfl h.pos on sid _ now hs.below hv hgone
  · trivial

/-- A grant of a talkgroup, each its own call. -/
def grant (tg : ℕ) : HistoryOp :=
  .input (.event 1 { kind := lit "call", talkgroup := dec tg } (1000 * tg))

/-- Eleven calls, the limit lowered by one, and another call. -/
def loweredHistory : List HistoryOp :=
  .setMaxCalls 11 :: .input (.begin 1 (lit "p25") 0 [] 0) :: (List.range 11).map (grant <| · + 1) ++
    [.setMaxCalls 10, grant 12]

/-- One goes for the call admitted, and eleven are left where ten are kept. -/
theorem call_history_exceeds_lowered : ¬Throughout Capped {} loweredHistory := by decide +kernel

/-- **The cap of the call list, along every history**: what rolls off is always the oldest record
not kept, and every call opened leaves its list within the limit as long as none is admitted to a
list above it. -/
theorem call_history_capped (hf : s.fams = ∅) (hn : 0 < s.maxCalls) (ops : List HistoryOp) :
    Throughout RollsOff s ops ∧ (Throughout HasRoom s ops → Throughout Capped s ops) := by
  have h : s.Listed := ⟨.blank hf _, hn⟩
  clear hf hn
  induction ops generalizing s with
  | nil => exact ⟨trivial, fun _ => trivial⟩
  | cons op ops ih =>
    obtain ⟨h₁, h₂⟩ := ih (h.live op)
    exact ⟨⟨h.rollsOff op, h₁⟩, fun hr => ⟨h.capped hr.1, h₂ hr.2⟩⟩

/-- Eleven calls where ten are kept. -/
def fullHistory : List HistoryOp :=
  .setMaxCalls 10 :: .input (.begin 1 (lit "p25") 0 [] 0) :: (List.range 11).map (grant <| · + 1)

theorem call_history_capped_fullHistory :
    Throughout RollsOff {} fullHistory ∧ Throughout Capped {} fullHistory :=
  have h := call_history_capped (s := {}) rfl (by decide) fullHistory
  ⟨h.1, h.2 (by decide +kernel)⟩

end AssocModel

end DsdServer
