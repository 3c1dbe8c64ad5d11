import DsdServer.Assoc.Cores

/-!
# Assoc/Verdicts — a call's analyzer and its verdict

The stamp of a record is which call it is, whether it is open, and its verdict.  Handling an event,
but for its voice frame, only *tapers* the stamps: a call stays as it is with its analyzer, or it
ends with what its analyzer says, and no analyzer is left without an open call.

Calls and analyzers are two tables that share their keys.  Tapering speaks of both at once, and it
composes, so that what an event does is put together from what its parts do.
-/

open Bytes

namespace DsdServer

/-- Which call a record is of, whether it is open, and its verdict. -/
structure Stamp where
  id : ℕ
  isOpen : Bool
  qual : Summary
  deriving DecidableEq

/-- The stamp of a record. -/
def Call.stamp (k : Call) : Stamp := ⟨k.id, k.isOpen, k.qual⟩

/-- The stamps of the records, oldest first. -/
def Family.stamps (F : Family) : List Stamp := F.calls.map Call.stamp

theorem steady_stamp : Steady Call.stamp := by
  intro k k' hc hq _
  have hid : k'.id = k.id := congrArg Core.id hc
  have ho : k'.isOpen = k.isOpen := congrArg Core.isOpen hc
  rw [Call.stamp, hid, ho, hq]
  rfl

/-- A call ends: its verdict is its analyzer's. -/
def Stamp.close (m : Stamp) (v : Option VoiceQuality) : Stamp :=
  ⟨m.id, false, v.elim m.qual VoiceQuality.summary⟩

/-! ## Tapering

No verdict is given but that of the call's own analyzer, when the call ends, and no analyzer is fed.
So whatever is in a verdict afterwards was in an analyzer before. -/

section Taper

variable {M M' M'' : List Stamp} {Q Q' Q'' : SortedMap ℕ VoiceQuality} {id : ℕ}

/-- **Marks and analyzers taper.** -/
structure Tapers (M : List Stamp) (Q : SortedMap ℕ VoiceQuality) (M' : List Stamp)
    (Q' : SortedMap ℕ VoiceQuality) : Prop where
  stamps : ∀ m' ∈ M', ∃ m ∈ M, m' = m ∧ (m.isOpen = true → Q'.find? m.id = Q.find? m.id) ∨
    m.isOpen = true ∧ m' = m.close (Q.find? m.id)
  analyzers : ∀ i v, Q'.find? i = some v → Q.find? i = some v ∧
    ∀ m ∈ M, m.id = i → m.isOpen = true → ∃ m' ∈ M', m'.id = i ∧ m'.isOpen = true
  others : ∀ i, (∀ m ∈ M, m.id ≠ i) → Q'.find? i = Q.find? i

namespace Tapers

theorem refl (M : List Stamp) (Q : SortedMap ℕ VoiceQuality) : Tapers M Q M Q where
  stamps m hm := ⟨m, hm, Or.inl ⟨rfl, fun _ => rfl⟩⟩
  analyzers _ _ hv := ⟨hv, fun m hm hi ho => ⟨m, hm, hi, ho⟩⟩
  others _ _ := rfl

/-- A stamp comes from one of the same call. -/
theorem id_mem (h : Tapers M Q M' Q') {m' : Stamp} (hm : m' ∈ M') : ∃ m ∈ M, m.id = m'.id := by
  obtain ⟨m, hm₀, ⟨rfl, -⟩ | ⟨-, rfl⟩⟩ := h.stamps m' hm
  · exact ⟨m', hm₀, rfl⟩
  · exact ⟨m, hm₀, rfl⟩

theorem trans (h : Tapers M Q M' Q') (h' : Tapers M' Q' M'' Q'') : Tapers M Q M'' Q'' where
  stamps m'' hm'' := by
    obtain ⟨m', hm', ⟨rfl, hq'⟩ | ⟨ho', rfl⟩⟩ := h'.stamps m'' hm''
    · obtain ⟨m, hm, ⟨rfl, hq⟩ | ⟨ho, rfl⟩⟩ := h.stamps m'' hm'
      · exact ⟨m'', hm, Or.inl ⟨rfl, fun ho => (hq' ho).trans (hq ho)⟩⟩
      · exact ⟨m, hm, Or.inr ⟨ho, rfl⟩⟩
    · obtain ⟨m, hm, ⟨rfl, hq⟩ | ⟨-, rfl⟩⟩ := h.stamps m' hm'
      · exact ⟨m', hm, Or.inr ⟨ho', by rw [hq ho']⟩⟩
      · exact absurd ho' Bool.false_ne_true
  analyzers i v hv := by
    obtain ⟨hv', h₂⟩ := h'.analyzers i v hv
    obtain ⟨hv, h₁⟩ := h.analyzers i v hv'
    refine ⟨hv, fun m hm hi ho => ?_⟩
    obtain ⟨m', hm', hi', ho'⟩ := h₁ m hm hi ho
    exact h₂ m' hm' hi' ho'
  others i hi := by
    refine (h'.others i fun m' hm' => ?_).trans (h.others i hi)
    obtain ⟨m, hm, he⟩ := h.id_mem hm'
    exact he ▸ hi m hm

/-- **A call ends** with its analyzer. -/
theorem close (ho : ∀ m ∈ M, m.id = id → m.isOpen = true) (hm : ∃ m ∈ M, m.id = id) :
    Tapers M Q (M.map fun m => if m.id = id then m.close (Q.find? id) else m) (Q.erase id) where
  stamps m' hm' := by
    obtain ⟨m, hm, rfl⟩ := List.mem_map.1 hm'
    refine ⟨m, hm, ?_⟩
    by_cases hi : m.id = id
    · rw [if_pos hi]
      exact Or.inr ⟨ho m hm hi, by rw [hi]⟩
    · rw [if_neg hi]
      exact Or.inl ⟨rfl, fun _ => SortedMap.find?_erase_ne Q hi⟩
  analyzers i v hv := by
    rw [SortedMap.find?_erase] at hv
    split_ifs at hv with hi
    refine ⟨hv, fun m hm hmi hmo => ⟨m, List.mem_map.2 ⟨m, hm, if_neg fun h => hi ?_⟩, hmi, hmo⟩⟩
    exact hmi.symm.trans h
  others i hi := by
    obtain ⟨m, hm, rfl⟩ := hm
    exact SortedMap.find?_erase_ne Q (Ne.symm (hi m hm))

/-- **The record of a call that is over goes.** -/
theorem drop (hc : ∀ m ∈ M, m.id = id → m.isOpen = false) (hs : ∀ m ∈ M', m ∈ M)
    (hk : ∀ m ∈ M, m.id ≠ id → m ∈ M') : Tapers M Q M' Q where
  stamps m hm := ⟨m, hs m hm, Or.inl ⟨rfl, fun _ => rfl⟩⟩
  analyzers _ _ hv := ⟨hv, fun m hm hi ho =>
    ⟨m, hk m hm fun h => Bool.false_ne_true ((hc m hm h).symm.trans ho), hi, ho⟩⟩
  others _ _ := rfl

/-- **A record goes with its analyzer.** -/
theorem take (hs : ∀ m ∈ M', m ∈ M ∧ m.id ≠ id) (hk : ∀ m ∈ M, m.id ≠ id → m ∈ M')
    (hm : ∃ m ∈ M, m.id = id) : Tapers M Q M' (Q.erase id) where
  stamps m hm := ⟨m, (hs m hm).1, Or.inl ⟨rfl, fun _ => SortedMap.find?_erase_ne Q (hs m hm).2⟩⟩
  analyzers i v hv := by
    rw [SortedMap.find?_erase] at hv
    split_ifs at hv with hi
    exact ⟨hv, fun m hm hmi hmo => ⟨m, hk m hm (hmi ▸ hi), hmi, hmo⟩⟩
  others i hi := by
    obtain ⟨m, hm, rfl⟩ := hm
    exact SortedMap.find?_erase_ne Q (Ne.symm (hi m hm))

end Tapers

end Taper

/-! ## The calls of a family

Ending a call takes its analyzer out of the table and stamps its record.  The lemmas about the other
operations say that they do neither. -/

/-- Handling a family's calls tapers them. -/
def FamilyState.Tapers (w w' : FamilyState) : Prop :=
  DsdServer.Tapers w.fam.stamps w.quality w'.fam.stamps w'.quality

namespace FamilyState

variable {L : Limits} {w w' w'' : FamilyState} {id : ℕ}

theorem Tapers.of_eq (hm : w'.fam.stamps = w.fam.stamps) (hq : w'.quality = w.quality) :
    w.Tapers w' := by
  rw [Tapers, hm, hq]
  exact .refl _ _

theorem Tapers.refl (w : FamilyState) : w.Tapers w := .of_eq rfl rfl

theorem Tapers.trans (h : w.Tapers w') (h' : w'.Tapers w'') : w.Tapers w'' :=
  DsdServer.Tapers.trans h h'

/-- Marking a call to be kept leaves the analyzers. -/
theorem quality_setKeep (w : FamilyState) (id : ℕ) (on : Bool) (now : ℤ) :
    (w.setKeep id on now).quality = w.quality := by
  rw [setKeep]
  split
  · rfl
  · split_ifs <;> rfl

/-- Settling a recording leaves the analyzers. -/
theorem quality_settleSound (w : FamilyState) (id : ℕ) :
    (w.settleSound id).quality = w.quality := by
  rw [settleSound]
  split
  · rfl
  · split_ifs
    · rfl
    · exact quality_setKeep _ _ _ _
    · rfl

/-- Settling a recording leaves the stamps. -/
theorem stamps_settles (F : Family) (id : ℕ) {g : Call → Call} (hg : Settles g) :
    (F.modifyCall id g).stamps = F.stamps := by
  refine Family.map_modifyCall fun k _ _ => ?_
  obtain ⟨s, b, h⟩ := hg k
  rw [h]
  rfl

/-- **A call that ends is stamped with the verdict of its analyzer.** -/
theorem stamps_closeCall {k : Call} (hk : w.fam.findCall id = some k) (ho : k.isOpen = true) :
    (w.closeCall L id).fam.stamps =
        w.fam.stamps.map (fun m => if m.id = id then m.close (w.quality.find? id) else m) ∧
      (w.closeCall L id).quality = w.quality.erase id := by
  obtain ⟨g, hg, hfam⟩ := fam_settleSound (w.shut id) id
  have hshut : (w.shut id).fam.stamps =
      w.fam.stamps.map fun m => if m.id = id then m.close (w.quality.find? id) else m := by
    change ((w.fam.modifyCall id fun k => k.shut (w.quality.find? id)).calls.map Call.stamp) = _
    rw [Family.modifyCall, List.map_map, Family.stamps, List.map_map]
    refine List.map_congr_left fun k _ => ?_
    rw [Function.comp_apply, Function.comp_apply]
    by_cases h : k.id = id
    · rw [if_pos h, if_pos (show k.stamp.id = id from h)]
      rcases w.quality.find? id with _ | v <;> rfl
    · rw [if_neg h, if_neg (show ¬k.stamp.id = id from h)]
  rw [closeCall, hk]
  dsimp only
  rw [if_pos ho]
  constructor
  · change ((((w.shut id).settleSound id).fam.countUnsourced L id).tallyClosed id).calls.map
      Call.stamp = _
    rw [Family.calls_tallyClosed, Family.map_countUnsourced steady_stamp, hfam]
    exact (stamps_settles _ id hg).trans hshut
  · exact quality_settleSound (w.shut id) id

/-- A record is found by its id, when ids are unique. -/
theorem findCall_of_mem (h : w.fam.callIds.Nodup) {k : Call} (hk : k ∈ w.fam.calls) :
    w.fam.findCall k.id = some k := KeyedList.findLast_of_mem h hk

/-- A record and its stamp. -/
theorem of_mem_stamps (h : w.fam.callIds.Nodup) {k : Call} (hk : w.fam.findCall id = some k)
    {m : Stamp} (hm : m ∈ w.fam.stamps) (hi : m.id = id) : m = k.stamp := by
  obtain ⟨k', hk', rfl⟩ := List.mem_map.1 hm
  have hf := findCall_of_mem h hk'
  rw [show k'.id = id from hi, hk] at hf
  rw [Option.some.inj hf]

/-- The stamp of a call that is found. -/
theorem stamp_mem {k : Call} (hk : w.fam.findCall id = some k) :
    k.stamp ∈ w.fam.stamps ∧ k.stamp.id = id :=
  ⟨List.mem_map_of_mem (Family.findCall_some hk).1, (Family.findCall_some hk).2⟩

theorem callIds_eq_stamps (F : Family) : F.callIds = F.stamps.map Stamp.id := by
  rw [Family.callIds, Family.stamps, List.map_map]
  rfl

theorem callIds_closeCall (w : FamilyState) (id : ℕ) :
    (w.closeCall L id).fam.callIds = w.fam.callIds := by
  by_cases ho : ∃ k, w.fam.findCall id = some k ∧ k.isOpen = true
  · obtain ⟨k, hk, ho⟩ := ho
    rw [callIds_eq_stamps, (stamps_closeCall hk ho).1, List.map_map, callIds_eq_stamps]
    refine List.map_congr_left fun m _ => ?_
    rw [Function.comp_apply]
    split_ifs <;> rfl
  · rw [closeCall_of_closed L w id fun k hk => Bool.eq_false_iff.2 fun h' => ho ⟨k, hk, h'⟩]

theorem tapers_closeCall (h : w.fam.callIds.Nodup) (id : ℕ) : w.Tapers (w.closeCall L id) := by
  by_cases ho : ∃ k, w.fam.findCall id = some k ∧ k.isOpen = true
  · obtain ⟨k, hk, ho⟩ := ho
    obtain ⟨hm, hq⟩ := stamps_closeCall (L := L) hk ho
    rw [FamilyState.Tapers, hm, hq]
    refine .close (fun m hm hi => ?_) ⟨k.stamp, stamp_mem hk⟩
    rw [of_mem_stamps h hk hm hi]
    exact ho
  · rw [closeCall_of_closed L w id fun k hk => Bool.eq_false_iff.2 fun h' => ho ⟨k, hk, h'⟩]
    exact .refl w

/-- Closing leaves the call closed. -/
theorem ended_closeCall (h : w.fam.callIds.Nodup) {m : Stamp}
    (hm : m ∈ (w.closeCall L id).fam.stamps) (hi : m.id = id) : m.isOpen = false := by
  by_cases ho : ∃ k, w.fam.findCall id = some k ∧ k.isOpen = true
  · obtain ⟨k, hk, ho⟩ := ho
    rw [(stamps_closeCall hk ho).1] at hm
    obtain ⟨m₀, -, rfl⟩ := List.mem_map.1 hm
    split_ifs at hi ⊢ with h₀
    · rfl
    · exact absurd hi h₀
  · rw [closeCall_of_closed L w id fun k hk => Bool.eq_false_iff.2 fun h' => ho ⟨k, hk, h'⟩] at hm
    obtain ⟨k, hk, rfl⟩ := List.mem_map.1 hm
    have hf := findCall_of_mem h hk
    rw [show k.id = id from hi] at hf
    exact Bool.eq_false_iff.2 fun h' => ho ⟨k, hf, h'⟩

/-- The stamps after a call is forgotten. -/
theorem mem_stamps_forget (h : w.fam.callIds.Nodup) {m : Stamp} :
    m ∈ (w.forget id).fam.stamps ↔ m ∈ w.fam.stamps ∧ m.id ≠ id := by
  constructor
  · intro hm
    obtain ⟨k, hk, rfl⟩ := List.mem_map.1 hm
    obtain ⟨hk, hne⟩ := (Family.mem_calls_forget h).1 hk
    exact ⟨List.mem_map_of_mem hk, hne⟩
  · rintro ⟨hm, hne⟩
    obtain ⟨k, hk, rfl⟩ := List.mem_map.1 hm
    exact List.mem_map_of_mem ((Family.mem_calls_forget h).2 ⟨hk, hne⟩)

/-- **Making room**: the call that goes has ended. -/
theorem tapers_rollOff (h : w.fam.callIds.Nodup) : w.Tapers (w.rollOff L) := by
  rw [rollOff]
  split_ifs
  · split
    · exact .refl w
    · next v _ =>
      have hk : (w.closeCall L v.id).fam.callIds.Nodup := (callIds_closeCall w v.id).symm ▸ h
      refine (tapers_closeCall (L := L) h v.id).trans ?_
      exact .drop (fun m hm hi => ended_closeCall h hm hi)
        (fun m hm => ((mem_stamps_forget hk).1 hm).1)
        fun m hm hne => (mem_stamps_forget hk).2 ⟨hm, hne⟩
  · exact .refl w

/-- Closing the calls of a session is tapering. -/
theorem tapers_closeSessionCalls (h : w.fam.callIds.Nodup) (sid : ℕ) :
    w.Tapers (w.closeSessionCalls L sid) := by
  have hfold : ∀ (l : List Call) (w : FamilyState), w.fam.callIds.Nodup →
      w.Tapers (l.foldl (fun w k => w.closeCall L k.id) w) := by
    intro l
    induction l with
    | nil => exact fun w _ => .refl w
    | cons k l ih =>
      exact fun w h => (tapers_closeCall h k.id).trans (ih _ ((callIds_closeCall w k.id).symm ▸ h))
  exact hfold _ w h

/-- **A duplicate goes with its analyzer**; its twin keeps its own. -/
theorem tapers_adopt (h : w.fam.callIds.Nodup) {dup twin : Call}
    (hd : w.fam.findCall dup.id = some dup) : w.Tapers (w.adopt L dup twin) := by
  set w₁ := w.onFam fun F => F.modifyCall twin.id fun t => t.join dup
  have hm₁ : w₁.fam.stamps = w.fam.stamps := Family.map_modifyCall fun _ _ _ => rfl
  have h₁ : w₁.fam.callIds.Nodup := by
    rw [callIds_eq_stamps, hm₁, ← callIds_eq_stamps]
    exact h
  have hmarks : (w.adopt L dup twin).fam.stamps = (w₁.forget dup.id).fam.stamps := by
    rw [fam_adopt]
    exact Family.map_noteEncCounts steady_stamp _ _
  have hq : (w.adopt L dup twin).quality = w.quality.erase dup.id := by
    rw [FamilyState.adopt]
    split_ifs <;> rfl
  rw [FamilyState.Tapers, hmarks, hq]
  refine .take (fun m hm => ?_) (fun m hm hne => ?_) ⟨dup.stamp, stamp_mem hd⟩
  · rw [← hm₁]
    exact (mem_stamps_forget h₁).1 hm
  · rw [← hm₁] at hm
    exact (mem_stamps_forget h₁).2 ⟨hm, hne⟩

end FamilyState

/-! ## A stream's work

These are the parts of the handling of an event that come before and after the voice frame goes to
an analyzer. -/

namespace StreamState

variable {L : Limits} {st st' st'' : StreamState}

/-- Closing what was not heard for long is tapering. -/
theorem tapers_expire (h : st.fam.callIds.Nodup) (now : ℤ) :
    st.toFamilyState.Tapers (st.expire L now).toFamilyState ∧ (st.expire L now).fam.callIds.Nodup ∧
      (st.expire L now).nextCall = st.nextCall := by
  have hone : ∀ (st : StreamState) (e : Bytes × ℕ), st.fam.callIds.Nodup →
      st.toFamilyState.Tapers (expireOne L now st e).toFamilyState ∧
        (expireOne L now st e).fam.callIds.Nodup ∧
        (expireOne L now st e).nextCall = st.nextCall := by
    intro st e h
    rw [expireOne]
    split
    · next k _ =>
      split_ifs
      · exact ⟨.refl _, h, rfl⟩
      · exact ⟨FamilyState.tapers_closeCall h k.id,
          (FamilyState.callIds_closeCall (L := L) st.toFamilyState k.id).symm ▸ h, rfl⟩
    · exact ⟨.refl _, h, rfl⟩
  have hfold : ∀ (l : List (Bytes × ℕ)) (st : StreamState), st.fam.callIds.Nodup →
      st.toFamilyState.Tapers (l.foldl (expireOne L now) st).toFamilyState ∧
        (l.foldl (expireOne L now) st).fam.callIds.Nodup ∧
          (l.foldl (expireOne L now) st).nextCall = st.nextCall := by
    intro l
    induction l with
    | nil => exact fun st h => ⟨.refl _, h, rfl⟩
    | cons e l ih =>
      intro st h
      obtain ⟨t₁, h₁, n₁⟩ := hone st e h
      obtain ⟨t₂, h₂, n₂⟩ := ih _ h₁
      exact ⟨t₁.trans t₂, h₂, n₂.trans n₁⟩
  exact hfold _ st h

/-- What a radio says of itself is tapering. -/
theorem tapers_hearRadio (r : Reading) (now : ℤ) :
    st.toFamilyState.Tapers (st.hearRadio L r now).toFamilyState := by
  rw [hearRadio]
  split_ifs
  · exact .refl _
  · exact .of_eq rfl rfl

/-- Marking the call on a slot as not encrypted is tapering. -/
theorem tapers_markUnkeyed (slot : Bytes) (now : ℤ) :
    st.toFamilyState.Tapers (st.markUnkeyed slot now).toFamilyState := by
  rw [markUnkeyed]
  split
  · exact .refl _
  · exact .of_eq (Family.map_modifyCall fun _ _ _ => rfl) rfl

/-- Refining what is known of the network is tapering. -/
theorem tapers_refine (r : Reading) (now : ℤ) :
    st.toFamilyState.Tapers (st.refine L r now).toFamilyState := by
  rw [refine]
  split
  · exact .refl _
  next k _ =>
  set st₁ := if r.priv then st.onFam fun F => F.setPrivate L k.id now else st
  have h₁ : st.toFamilyState.Tapers st₁.toFamilyState := by
    simp only [st₁]
    split_ifs
    · exact .of_eq (Family.map_setPrivate steady_stamp _ _) rfl
    · exact .refl _
  set st₂ := if r.emerg then st₁.onFam fun F => F.modifyCall k.id Call.alarm else st₁
  have h₂ : st₁.toFamilyState.Tapers st₂.toFamilyState := by
    simp only [st₂]
    split_ifs
    · exact .of_eq (Family.map_modifyCall fun _ _ _ => rfl) rfl
    · exact .refl _
  set st₃ := if r.enc then st₂.onFam fun F => F.noteEncrypted L k.id r.extra else st₂
  have h₃ : st₂.toFamilyState.Tapers st₃.toFamilyState := by
    simp only [st₃]
    split_ifs
    · exact .of_eq (Family.map_noteEncrypted steady_stamp _ _ _) rfl
    · exact .refl _
  exact ((h₁.trans h₂).trans h₃).trans (.of_eq (Family.map_noteService steady_stamp _ _ _) rfl)

/-- Matching closes a call at most. -/
theorem tapers_matchCall (h : st.fam.callIds.Nodup) (r : Reading) (now : ℤ) :
    st.toFamilyState.Tapers (st.matchCall L r now).1.toFamilyState ∧
      (st.matchCall L r now).1.fam.callIds.Nodup ∧
      (st.matchCall L r now).1.nextCall = st.nextCall := by
  have htarget : ∀ (p : StreamState × Option ℕ), p = (if r.tgt = [] then
      (st, (st.freshCall r.slot now).map (·.id)) else st.matchTarget r now) →
      st.toFamilyState.Tapers p.1.toFamilyState ∧ p.1.fam.stamps = st.fam.stamps ∧
        p.1.nextCall = st.nextCall := by
    rintro p rfl
    split_ifs
    · exact ⟨.refl _, rfl, rfl⟩
    · rw [matchTarget]
      split
      · exact ⟨.refl _, rfl, rfl⟩
      · split
        · split_ifs
          · have hm : ∀ (F : Family) (id : ℕ),
                (F.modifyCall id fun k => k.takeSlot r.slot).stamps = F.stamps :=
              fun F id => Family.map_modifyCall fun _ _ _ => rfl
            exact ⟨.of_eq (hm _ _) rfl, hm _ _, rfl⟩
          · exact ⟨.refl _, rfl, rfl⟩
        · exact ⟨.refl _, rfl, rfl⟩
  obtain ⟨p, hp⟩ : ∃ p, p = (if r.tgt = [] then
      (st, (st.freshCall r.slot now).map (·.id)) else st.matchTarget r now) := ⟨_, rfl⟩
  obtain ⟨ht, hm, hn⟩ := htarget p hp
  have hnd : p.1.fam.callIds.Nodup := by
    rw [FamilyState.callIds_eq_stamps, hm, ← FamilyState.callIds_eq_stamps]
    exact h
  rw [matchCall, ← hp]
  dsimp only
  split
  · exact ⟨ht, hnd, hn⟩
  · next k _ =>
    split_ifs
    · exact ⟨ht, hnd, hn⟩
    · exact ⟨ht.trans (FamilyState.tapers_closeCall hnd k.id),
        (FamilyState.callIds_closeCall (L := L) p.1.toFamilyState k.id).symm ▸ hnd, hn⟩
    · exact ⟨ht, hnd, hn⟩

/-- **Opening a call** tapers the stamps, and adds one with no verdict. -/
theorem tapers_openCall (h : st.fam.callIds.Nodup) (sid : ℕ) (slot : Bytes) (now : ℤ) :
    ∃ st₁ : StreamState, st.toFamilyState.Tapers st₁.toFamilyState ∧
      (st.openCall L sid slot now).1.fam.stamps = st₁.fam.stamps ++ [⟨st.nextCall + 1, true, {}⟩] ∧
      (st.openCall L sid slot now).1.quality = st₁.quality ∧
      (st.openCall L sid slot now).1.nextCall = st.nextCall + 1 ∧
      (st.openCall L sid slot now).2 = st.nextCall + 1 := by
  have hv : st.toFamilyState.Tapers (st.vacate L slot now).toFamilyState ∧
      (st.vacate L slot now).fam.callIds.Nodup ∧ (st.vacate L slot now).nextCall = st.nextCall := by
    rw [vacate]
    split_ifs
    · exact ⟨.refl _, h, rfl⟩
    · split
      · next k _ =>
        exact ⟨FamilyState.tapers_closeCall h k.id,
          (FamilyState.callIds_closeCall (L := L) st.toFamilyState k.id).symm ▸ h, rfl⟩
      · exact ⟨.refl _, h, rfl⟩
  refine ⟨(st.vacate L slot now).onFamily fun w => w.rollOff L,
    hv.1.trans (FamilyState.tapers_rollOff hv.2.1), ?_, rfl, ?_, ?_⟩
  · rw [openCall_eq, ← hv.2.2]
    exact List.map_append
  · rw [openCall_eq, ← hv.2.2]
    rfl
  · rw [openCall_eq, ← hv.2.2]
    rfl

theorem tapers_countNow (L : Limits) (st : StreamState) (cur : ℕ) (now : ℤ) :
    st.toFamilyState.Tapers
    (match st.fam.findCall cur with
      | none => st
      | some k => if k.counted then st else st.onFam fun F =>
      F.countCall L cur now).toFamilyState := by
  rcases st.fam.findCall cur with _ | k
  · exact .refl _
  · dsimp only
    split_ifs
    · exact .refl _
    · exact .of_eq (Family.map_countCall steady_stamp _ _) rfl

/-- **Counting a call, or folding it into its twin.** -/
theorem tapers_countOrJoin (h : st.fam.callIds.Nodup) (id : ℕ) (slot : Bytes) (now : ℤ) :
    st.toFamilyState.Tapers (st.countOrJoin L id slot now).toFamilyState := by
  rw [countOrJoin]
  split
  · exact .refl _
  next k hk =>
  split_ifs
  · exact .refl _
  rcases st.fam.findTwin k now with _ | twin
  · exact tapers_countNow L st id now
  · have hd : st.fam.findCall k.id = some k := (Family.findCall_some hk).2.symm ▸ hk
    exact (FamilyState.tapers_adopt h hd).trans
      (tapers_countNow L (st.adoptTwin L k twin slot) twin.id now)

/-- **Folding an event** feeds the call's analyzer, and leaves the stamps. -/
theorem stamps_folded (on : Bool) (r : Reading) {id : ℕ} {k : Call}
    (hk : st.fam.findCall id = some k) (now : ℤ) :
    (st.folded L on r id now).fam.stamps = st.fam.stamps ∧
      (st.folded L on r id now).quality = (st.feedQuality on r id).quality := by
  rw [folded, hk]
  dsimp only
  set st₁ := st.onFam fun F => F.modifyCall id fun k => k.hear r st.ctx
  have h₁ : st₁.fam.stamps = st.fam.stamps := Family.map_modifyCall fun _ _ _ => rfl
  set st₂ := if k.tgt = [] ∧ r.tgt ≠ [] then
    st₁.onCtx fun c => c.setActive (activeKey r.slot r.tgt) id else st₁
  have h₂ : st₂.fam.stamps = st₁.fam.stamps ∧ st₂.quality = st.quality ∧
      st₂.ctx.family = st.ctx.family := by
    simp only [st₂]
    split_ifs <;> exact ⟨rfl, rfl, rfl⟩
  set st₃ := st₂.feedQuality on r id
  have h₃ : st₃.fam.stamps = st₂.fam.stamps ∧ st₃.quality = (st.feedQuality on r id).quality := by
    simp only [st₃, feedQuality, h₂.2.2]
    split_ifs
    · refine ⟨rfl, ?_⟩
      change st₂.quality.insert id ((st₂.quality.getD id {}).feedFrame _ _) = _
      rw [h₂.2.1]
      rfl
    · exact ⟨rfl, h₂.2.1⟩
  set st₄ := st₃.onFam fun F => F.noteService id r.extra now
  have h₄ : st₄.fam.stamps = st₃.fam.stamps :=
    Family.map_noteService steady_stamp st₃.fam id r.extra
  set st₅ := if r.enc then st₄.onFam fun F => F.noteEncrypted L id r.extra else st₄
  have h₅ : st₅.fam.stamps = st₄.fam.stamps ∧ st₅.quality = st₄.quality := by
    simp only [st₅]
    split_ifs
    · exact ⟨Family.map_noteEncrypted steady_stamp st₄.fam id r.extra, rfl⟩
    · exact ⟨rfl, rfl⟩
  set st₆ := st₅.onFam fun F => F.modifyCall id fun k => k.heard now
  have h₆ : st₆.fam.stamps = st₅.fam.stamps := Family.map_modifyCall fun _ _ _ => rfl
  set st₇ := st₆.onCtx fun c => c.setLast r.slot id
  have h₈ : (if r.priv then st₇.onFam fun F => F.setPrivate L id now else st₇).fam.stamps =
      st₇.fam.stamps ∧
      (if r.priv then st₇.onFam fun F => F.setPrivate L id now else st₇).quality = st₇.quality := by
    split_ifs
    · exact ⟨Family.map_setPrivate steady_stamp st₇.fam id, rfl⟩
    · exact ⟨rfl, rfl⟩
  constructor
  · rw [h₈.1]
    change st₆.fam.stamps = _
    rw [h₆, h₅.1, h₄, h₃.1, h₂.1, h₁]
  · rw [h₈.2]
    change st₅.quality = _
    rw [h₅.2]
    exact h₃.2

end StreamState

end DsdServer
