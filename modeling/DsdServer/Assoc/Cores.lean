import DsdServer.Assoc.Handling
import DsdServer.Assoc.Reachable

/-!
# Assoc/Cores — what a record says of its call in progress

The core of a record is which call it is, of which session, on which slot, whether it is open, when
it was last heard, and whether it is kept.  Noting, counting and marking a call leave the cores
alone; a call that ends, and one that rolls off, only *fades*.

The two together say what an event does to the calls at once: it makes some of them fade, and then
folds into one that is there or opens one that is new.  The results about slots, histories and
stored audio are read off that.
-/

open Bytes

namespace DsdServer

/-- Which call a record is of, and whether it is in progress. -/
structure Core where
  id : ℕ
  session : ℕ
  slot : Bytes
  isOpen : Bool
  lastMs : ℤ
  keep : Bool
  deriving DecidableEq

/-- The core of a record. -/
def Call.core (k : Call) : Core := ⟨k.id, k.session, k.slot, k.isOpen, k.lastMs, k.keep⟩

/-- **A reading of a record** that sees its core, its verdict and its recording at most. -/
def Steady {α : Type*} (p : Call → α) : Prop :=
  ∀ k k' : Call, k'.core = k.core → k'.qual = k.qual → k'.sound = k.sound → p k' = p k

namespace Family

/-- The cores of the records, oldest first. -/
def cores (F : Family) : List Core := F.calls.map Call.core

variable {L : Limits} {F F' : Family} {id : ℕ} {now : ℤ}

theorem callIds_eq (F : Family) : F.callIds = F.cores.map Core.id := by
  rw [callIds, cores, List.map_map]
  rfl

section Readings

variable {α : Type*} {p : Call → α}

/-- A change of one record that a reading does not see leaves the reading of all. -/
theorem map_modifyCall {g : Call → Call} (hg : ∀ k ∈ F.calls, k.id = id → p (g k) = p k) :
    (F.modifyCall id g).calls.map p = F.calls.map p := by
  rw [modifyCall, List.map_map]
  refine List.map_congr_left fun k hk => ?_
  rw [Function.comp_apply]
  split_ifs with h
  · exact hg k hk h
  · rfl

theorem map_congr (h : F'.calls = F.calls) : F'.calls.map p = F.calls.map p :=
  congrArg (List.map p) h

variable (hp : Steady p)

include hp

theorem map_noteEncCounts (F : Family) (id : ℕ) :
    (F.noteEncCounts L id).calls.map p = F.calls.map p := by
  rw [noteEncCounts]
  split
  · rfl
  · split_ifs
    · exact (map_congr (calls_noteKey ..)).trans (map_modifyCall fun _ _ _ => hp _ _ rfl rfl rfl)
    · rfl

theorem map_noteSvc (F : Family) (id : ℕ) (x : SortedMap Bytes Bytes) :
    (F.noteSvc id x).calls.map p = F.calls.map p := by
  rw [noteSvc]
  split
  · refine map_modifyCall fun k _ _ => ?_
    rw [Call.serve]
    split_ifs
    · exact hp _ _ rfl rfl rfl
    · rfl
  · rfl

theorem map_noteService (F : Family) (id : ℕ) (x : SortedMap Bytes Bytes) :
    (F.noteService id x now).calls.map p = F.calls.map p := by
  rw [← map_noteSvc hp F id x, noteService, notePos]
  split
  · rfl
  · dsimp only
    split_ifs
    · rfl
    · exact (map_congr (calls_onRadio ..)).trans (map_modifyCall fun _ _ _ => hp _ _ rfl rfl rfl)

/-- Marking a call as encrypted is not seen. -/
theorem map_noteEncrypted (F : Family) (id : ℕ) (x : SortedMap Bytes Bytes) :
    (F.noteEncrypted L id x).calls.map p = F.calls.map p := by
  rw [noteEncrypted, map_noteEncCounts hp]
  refine map_modifyCall fun k _ _ => ?_
  obtain ⟨kid, alg, h, -⟩ := k.encrypt_frame x
  rw [h]
  exact hp _ _ rfl rfl rfl

/-- Marking a call as private is not seen. -/
theorem map_setPrivate (F : Family) (id : ℕ) :
    (F.setPrivate L id now).calls.map p = F.calls.map p := by
  have h : (F.modifyCall id Call.markPrivate).calls.map p = F.calls.map p :=
    map_modifyCall fun _ _ _ => hp _ _ rfl rfl rfl
  rw [setPrivate]
  split
  · rfl
  · split_ifs
    · rfl
    · rw [calls_linkPeers, calls_uncountTarget, h]
    · exact h

theorem map_countCall (F : Family) (id : ℕ) :
    (F.countCall L id now).calls.map p = F.calls.map p := by
  rw [countCall]
  split
  · rfl
  · rw [map_noteEncCounts hp, calls_onNetwork, calls_countEnds]
    exact map_modifyCall fun _ _ _ => hp _ _ rfl rfl rfl

/-- Counting a call without a source is not seen. -/
theorem map_countUnsourced (F : Family) (id : ℕ) :
    (F.countUnsourced L id).calls.map p = F.calls.map p := by
  rw [countUnsourced]
  split
  · rfl
  · split_ifs
    · exact map_countCall hp F id
    · rfl

end Readings

theorem cores_congr (h : F'.calls = F.calls) : F'.cores = F.cores := map_congr h

theorem cores_modifyCall {g : Call → Call} (hg : ∀ k ∈ F.calls, k.id = id → (g k).core = k.core) :
    (F.modifyCall id g).cores = F.cores := map_modifyCall hg

/-- The core itself is such a reading. -/
theorem steady_core : Steady Call.core := fun _ _ h _ _ => h

theorem cores_noteEncCounts (F : Family) (id : ℕ) : (F.noteEncCounts L id).cores = F.cores :=
  map_noteEncCounts steady_core F id

theorem cores_noteService (F : Family) (id : ℕ) (x : SortedMap Bytes Bytes) :
    (F.noteService id x now).cores = F.cores := map_noteService steady_core F id x

theorem cores_noteEncrypted (F : Family) (id : ℕ) (x : SortedMap Bytes Bytes) :
    (F.noteEncrypted L id x).cores = F.cores := map_noteEncrypted steady_core F id x

theorem cores_setPrivate (F : Family) (id : ℕ) : (F.setPrivate L id now).cores = F.cores :=
  map_setPrivate steady_core F id

theorem cores_countCall (F : Family) (id : ℕ) : (F.countCall L id now).cores = F.cores :=
  map_countCall steady_core F id

theorem cores_countUnsourced (F : Family) (id : ℕ) : (F.countUnsourced L id).cores = F.cores :=
  map_countUnsourced steady_core F id

/-- Hearing a call changes the time of its core alone. -/
theorem cores_heard (F : Family) (id : ℕ) (now : ℤ) : (F.modifyCall id fun k => k.heard now).cores =
    F.cores.map fun c => if c.id = id then { c with lastMs := now } else c := by
  rw [cores, modifyCall, List.map_map, cores, List.map_map]
  refine List.map_congr_left fun k _ => ?_
  rw [Function.comp_apply, Function.comp_apply]
  by_cases h : k.id = id
  · rw [if_pos h]
    exact (if_pos (c := k.core.id = id) h).symm
  · rw [if_neg h]
    exact (if_neg (c := k.core.id = id) h).symm

/-- The records after one is forgotten, when ids are unique. -/
theorem mem_calls_forget (h : F.callIds.Nodup) {k : Call} :
    k ∈ (F.forget id).calls ↔ k ∈ F.calls ∧ k.id ≠ id := by
  by_cases hin : ∃ k₀ ∈ F.calls, k₀.id = id
  · obtain ⟨k₀, hk₀, rfl⟩ := hin
    obtain ⟨p, q, hs, hp, hq⟩ := KeyedList.exists_split h hk₀
    have hf : (F.forget k₀.id).calls = p ++ q := by
      rw [Family.forget, hs]
      exact KeyedList.eraseP_split hp
    rw [hf, hs, List.mem_append, List.mem_append, List.mem_cons]
    constructor
    · rintro (hk | hk)
      · exact ⟨Or.inl hk, hp k hk⟩
      · exact ⟨Or.inr (Or.inr hk), hq k hk⟩
    · rintro ⟨hk | rfl | hk, hne⟩
      · exact Or.inl hk
      · exact absurd rfl hne
      · exact Or.inr hk
  · have hne : ∀ k ∈ F.calls, k.id ≠ id := fun k hk hi => hin ⟨k, hk, hi⟩
    rw [Family.forget, List.eraseP_of_forall_not fun k hk => by simpa using hne k hk]
    exact ⟨fun hk => ⟨hk, hne k hk⟩, fun hk => hk.1⟩

end Family

/-! ## Folding an event

An event of a call in progress is folded into its record.  What it notes is not seen by a core; only
the time is, and the record itself goes when the call turns out to be one already known from another
stream. -/

namespace StreamState

/-- Counting a call that was not counted leaves the cores. -/
theorem cores_countNow (L : Limits) (st : StreamState) (cur : ℕ) (now : ℤ) :
    (match st.fam.findCall cur with
      | none => st
      | some k => if k.counted then st else st.onFam fun F => F.countCall L cur now).fam.cores =
      st.fam.cores := by
  rcases st.fam.findCall cur with _ | k
  · rfl
  · dsimp only
    split_ifs
    · rfl
    · exact Family.cores_countCall st.fam cur

/-- Counting a call leaves the cores; joining a twin drops the call's own record. -/
theorem cores_countOrJoin (L : Limits) (st : StreamState) (id : ℕ) (slot : Bytes) (now : ℤ) :
    (st.countOrJoin L id slot now).fam.cores = st.fam.cores ∨ ∃ dup twin : Call,
      st.fam.findCall id = some dup ∧ ¬(dup.counted || dup.src = [] || dup.tgt = []) ∧
      st.fam.findTwin dup now = some twin ∧
      (st.countOrJoin L id slot now).fam.cores =
        ((st.fam.modifyCall twin.id fun t => t.join dup).forget id).cores := by
  rw [countOrJoin]
  split
  · exact Or.inl rfl
  next k hk =>
  split_ifs with hc
  · exact Or.inl rfl
  rcases ht : st.fam.findTwin k now with _ | twin
  · exact Or.inl (cores_countNow L st id now)
  · refine Or.inr ⟨k, twin, hk, hc, ht, (cores_countNow L _ _ now).trans ?_⟩
    change (st.toFamilyState.adopt L k twin).fam.cores = _
    rw [fam_adopt, Family.cores_noteEncCounts, (Family.findCall_some hk).2]

/-- An event folded into its call, before the call is counted. -/
def folded (L : Limits) (on : Bool) (st : StreamState) (r : Reading) (id : ℕ) (now : ℤ) :
    StreamState :=
  match st.fam.findCall id with
  | none => st
  | some k =>
    let c := st.ctx
    let st := st.onFam fun F => F.modifyCall id fun k => k.hear r c
    let st := if k.tgt = [] ∧ r.tgt ≠ [] then
        st.onCtx fun c => c.setActive (activeKey r.slot r.tgt) id
      else st
    let st := st.feedQuality on r id
    let st := st.onFam fun F => F.noteService id r.extra now
    let st := if r.enc then st.onFam fun F => F.noteEncrypted L id r.extra else st
    let st := st.onFam fun F => F.modifyCall id fun k => k.heard now
    let st := st.onCtx fun c => c.setLast r.slot id
    if r.priv then st.onFam fun F => F.setPrivate L id now else st

/-- Folding an event is noting what it says, and then counting or joining the call. -/
theorem foldEvent_eq (L : Limits) (on : Bool) (st : StreamState) (r : Reading) (id : ℕ) (now : ℤ) :
    st.foldEvent L on r id now = (st.folded L on r id now).countOrJoin L id r.slot now := by
  rcases hk : st.fam.findCall id with _ | k
  · rw [foldEvent, folded, hk]
    dsimp only
    rw [countOrJoin, hk]
  · rw [foldEvent, folded, hk]

/-- Before the call is counted, an event folded into it only lets it be heard. -/
theorem cores_folded (L : Limits) (on : Bool) (st : StreamState) (r : Reading) (id : ℕ) (now : ℤ) :
    (st.folded L on r id now).fam.cores = (st.fam.modifyCall id fun k => k.heard now).cores := by
  rcases hk : st.fam.findCall id with _ | k
  · rw [folded, hk, Family.modifyCall_of_none hk]
  rw [folded, hk]
  dsimp only
  set st₁ := st.onFam fun F => F.modifyCall id fun k => k.hear r st.ctx
  have h₁ : st₁.fam.cores = st.fam.cores := Family.cores_modifyCall fun _ _ _ => rfl
  set st₂ := if k.tgt = [] ∧ r.tgt ≠ [] then
    st₁.onCtx fun c => c.setActive (activeKey r.slot r.tgt) id else st₁
  have h₂ : st₂.fam.cores = st₁.fam.cores := by
    simp only [st₂]
    split_ifs <;> rfl
  set st₃ := st₂.feedQuality on r id
  have h₃ : st₃.fam.cores = st₂.fam.cores := by
    simp only [st₃, feedQuality]
    split_ifs <;> rfl
  set st₄ := st₃.onFam fun F => F.noteService id r.extra now
  have h₄ : st₄.fam.cores = st₃.fam.cores := Family.cores_noteService st₃.fam id r.extra
  set st₅ := if r.enc then st₄.onFam fun F => F.noteEncrypted L id r.extra else st₄
  have h₅ : st₅.fam.cores = st₄.fam.cores := by
    simp only [st₅]
    split_ifs
    · exact Family.cores_noteEncrypted st₄.fam id r.extra
    · rfl
  set st₆ := st₅.onFam fun F => F.modifyCall id fun k => k.heard now
  have h₆ : st₆.fam.cores = (st.fam.modifyCall id fun k => k.heard now).cores := by
    change (st₅.fam.modifyCall id fun k => k.heard now).cores = _
    rw [Family.cores_heard, Family.cores_heard, h₅, h₄, h₃, h₂, h₁]
  set st₇ := st₆.onCtx fun c => c.setLast r.slot id
  have h₇ : st₇.fam.cores = st₆.fam.cores := rfl
  have h₈ : (if r.priv then st₇.onFam fun F => F.setPrivate L id now else st₇).fam.cores =
      st₇.fam.cores := by
    split_ifs
    · exact Family.cores_setPrivate st₇.fam id
    · rfl
  rw [h₈, h₇, h₆]

/-- What a radio says of itself leaves the cores. -/
theorem cores_hearRadio (L : Limits) (st : StreamState) (r : Reading) (now : ℤ) :
    (st.hearRadio L r now).fam.cores = st.fam.cores := by
  rw [hearRadio]
  split_ifs <;> rfl

/-- An unknown line leaves the cores. -/
theorem cores_refine (L : Limits) (st : StreamState) (r : Reading) (now : ℤ) :
    (st.refine L r now).fam.cores = st.fam.cores := by
  rw [refine]
  split
  · rfl
  next k _ =>
  set st₁ := if r.priv then st.onFam fun F => F.setPrivate L k.id now else st
  have h₁ : st₁.fam.cores = st.fam.cores := by
    simp only [st₁]
    split_ifs
    · exact Family.cores_setPrivate st.fam k.id
    · rfl
  set st₂ := if r.emerg then st₁.onFam fun F => F.modifyCall k.id Call.alarm else st₁
  have h₂ : st₂.fam.cores = st₁.fam.cores := by
    simp only [st₂]
    split_ifs
    · exact Family.cores_modifyCall fun _ _ _ => rfl
    · rfl
  set st₃ := if r.enc then st₂.onFam fun F => F.noteEncrypted L k.id r.extra else st₂
  have h₃ : st₃.fam.cores = st₂.fam.cores := by
    simp only [st₃]
    split_ifs
    · exact Family.cores_noteEncrypted st₂.fam k.id r.extra
    · rfl
  change (st₃.fam.noteService k.id r.extra now).cores = _
  rw [Family.cores_noteService, h₃, h₂, h₁]

end StreamState

/-! ## Fading

Closing, settling and forgetting calls go one way only: no call is new, none is opened, and none is
heard.  So a statement about which calls are open, or how long ago one was heard, survives them all.
-/

/-- **A record fades**: it is the same call, heard no later, and open only if it was. -/
structure Core.Fades (c c' : Core) : Prop where
  id : c'.id = c.id
  session : c'.session = c.session
  slot : c'.slot = c.slot
  lastMs : c'.lastMs = c.lastMs
  isOpen : c'.isOpen = true → c.isOpen = true

/-- A record that stays as it is has faded. -/
theorem Core.Fades.refl (c : Core) : c.Fades c := ⟨rfl, rfl, rfl, rfl, fun h => h⟩

theorem Core.Fades.trans {c c' c'' : Core} (h : c.Fades c') (h' : c'.Fades c'') : c.Fades c'' :=
  ⟨h'.id.trans h.id, h'.session.trans h.session, h'.slot.trans h.slot, h'.lastMs.trans h.lastMs,
    fun ho => h.isOpen (h'.isOpen ho)⟩

/-- **A family fades**: its records do, and none is new. -/
def Family.Fades (F F' : Family) : Prop := ∀ c' ∈ F'.cores, ∃ c ∈ F.cores, c.Fades c'

namespace Family.Fades

variable {L : Limits} {F F' F'' : Family} {id : ℕ}

theorem of_cores (h : F'.cores = F.cores) : F.Fades F' := fun c' hc => ⟨c', h ▸ hc, .refl c'⟩

theorem refl (F : Family) : F.Fades F := of_cores rfl

theorem trans (h : F.Fades F') (h' : F'.Fades F'') : F.Fades F'' := fun c hc => by
  obtain ⟨c', hc', h₁⟩ := h' c hc
  obtain ⟨c'', hc'', h₂⟩ := h c' hc'
  exact ⟨c'', hc'', h₂.trans h₁⟩

/-- A change under which one record fades is a change under which the family does. -/
theorem modifyCall (F : Family) (id : ℕ) {g : Call → Call}
    (hg : ∀ k : Call, k.core.Fades (g k).core) :
    F.Fades (F.modifyCall id g) := fun c hc => by
  rw [cores, Family.modifyCall, List.map_map] at hc
  obtain ⟨k, hk, rfl⟩ := List.mem_map.1 hc
  refine ⟨k.core, List.mem_map_of_mem hk, ?_⟩
  rw [Function.comp_apply]
  split_ifs
  · exact hg k
  · exact .refl _

theorem of_sublist (h : F'.calls.Sublist F.calls) : F.Fades F' := fun c hc =>
  ⟨c, (h.map Call.core).subset hc, .refl c⟩

/-- Settling the sound of a call is fading. -/
theorem settles (F : Family) (id : ℕ) {g : Call → Call} (hg : Settles g) :
    F.Fades (F.modifyCall id g) :=
  modifyCall F id fun k => by
    obtain ⟨s, b, h⟩ := hg k
    rw [h]
    exact ⟨rfl, rfl, rfl, rfl, fun h => h⟩

end Family.Fades

namespace FamilyState

variable {L : Limits} (w : FamilyState) (id : ℕ)

/-- **A call that ends fades.** -/
theorem fades_closeCall : w.fam.Fades (w.closeCall L id).fam := by
  rcases hk : w.fam.findCall id with _ | k
  · rw [closeCall_of_closed L w id fun k h => by rw [hk] at h; cases h]
    exact .refl _
  · by_cases ho : k.isOpen = true
    · obtain ⟨g, hg, h⟩ := fam_closeCall L w id hk ho
      rw [h]
      refine (Family.Fades.modifyCall w.fam id (g := g) fun k => ?_).trans (.of_cores ?_)
      · obtain ⟨q, s, b, hk⟩ := hg k
        rw [hk]
        exact ⟨rfl, rfl, rfl, rfl, fun h => Bool.noConfusion h⟩
      · rw [Family.cores_congr (Family.calls_tallyClosed ..), Family.cores_countUnsourced]
    · rw [closeCall_of_closed L w id fun k' h => by
        rw [hk] at h
        obtain rfl := Option.some.inj h
        exact Bool.eq_false_iff.2 ho]
      exact .refl _

theorem fades_forget : w.fam.Fades (w.forget id).fam :=
  .of_sublist (Family.calls_forget_sublist w.fam id)

/-- **Making room fades the list.** -/
theorem fades_rollOff : w.fam.Fades (w.rollOff L).fam := by
  rw [rollOff]
  split_ifs
  · split
    · exact .refl _
    · exact (w.fades_closeCall _).trans (fades_forget _ _)
  · exact .refl _

/-- Closing the calls of a session is fading. -/
theorem fades_closeSessionCalls (sid : ℕ) : w.fam.Fades (w.closeSessionCalls L sid).fam := by
  rw [closeSessionCalls]
  induction w.fam.calls.filter (·.session = sid) generalizing w with
  | nil => exact .refl _
  | cons k l ih => exact (w.fades_closeCall k.id).trans (ih _)

end FamilyState

/-! ## Opening a call

A call is opened on a slot that is free, so the one that was there before has ended first. -/

namespace StreamState

/-- **Making room on a slot is fading**: the call that was there closes. -/
theorem fades_vacate (L : Limits) (st : StreamState) (slot : Bytes) (now : ℤ) :
    st.fam.Fades (st.vacate L slot now).fam := by
  rw [vacate]
  split_ifs
  · exact .refl _
  · split
    · exact st.toFamilyState.fades_closeCall _
    · exact .refl _

end StreamState

/-! ## What touches no call

A network that is pruned, resolved or noted changes no more of the calls than their network; a
reading that does not see it stays.
-/

namespace AssocModel

/-- **A reading of the calls stays**, and with it what is beside the families. -/
structure Aside {α : Type*} (p : Call → α) (s s' : AssocModel) : Prop where
  calls : ∀ g, (s'.family g).calls.map p = (s.family g).calls.map p
  store : s'.store = s.store
  quality : s'.quality = s.quality
  nextCall : s'.nextCall = s.nextCall

variable {α : Type*} {p : Call → α} {L : Limits} {s s' s'' : AssocModel}

namespace Aside

/-- What touches no family leaves every reading of the calls. -/
theorem of_fams (hf : s'.fams = s.fams) (hs : s'.store = s.store) (hq : s'.quality = s.quality)
    (hn : s'.nextCall = s.nextCall) : Aside p s s' :=
  ⟨fun g => by rw [family, family, hf], hs, hq, hn⟩

theorem refl (s : AssocModel) : Aside p s s := of_fams rfl rfl rfl rfl

theorem trans (h : Aside p s s') (h' : Aside p s' s'') : Aside p s s'' :=
  ⟨fun g => (h'.calls g).trans (h.calls g), h'.store.trans h.store, h'.quality.trans h.quality,
    h'.nextCall.trans h.nextCall⟩

/-- One family is written back, its readings as they were. -/
theorem setFamily (s : AssocModel) {f : Bytes} {F : Family}
    (hF : F.calls.map p = (s.family f).calls.map p) :
    Aside p s (s.setFamily f F) := ⟨fun g => by
  have hfam : (s.setFamily f F).family g = if g = f then F else s.family g :=
    family_insert s.fams f g F
  rw [hfam]
  split_ifs with hg
  · rw [hg, hF]
  · rfl, rfl, rfl, rfl⟩

end Aside

/-- Pruning the networks of a stream leaves the calls. -/
theorem aside_pruneSession (s : AssocModel) (sid : ℕ) (retune : Bool) :
    Aside p s (s.pruneSession sid retune) := by
  have hdrop (dead : List Bytes) : ∀ F : Family, (dead.foldl Family.dropNetwork F).calls =
      F.calls := by
    induction dead with
    | nil => exact fun _ => rfl
    | cons n dead ih => exact fun F => (ih _).trans rfl
  rw [AssocModel.pruneSession]
  split
  · exact .refl s
  · next c _ =>
    dsimp only
    split_ifs
    · exact .refl s
    · set dead := s.deadNetworks sid c.family retune
      refine ⟨fun g => ?_, rfl, rfl, rfl⟩
      change ((if (dead.foldl Family.dropNetwork (s.family c.family)).isBlank then
        s.fams.erase c.family else s.fams.insert c.family _).getD g {}).calls.map p =
          (s.family g).calls.map p
      split_ifs with hb
      · rw [SortedMap.getD, SortedMap.find?_erase]
        split_ifs with hg
        · rw [Family.isBlank, Bool.and_eq_true, List.isEmpty_iff, hdrop] at hb
          rw [hg, hb.2]
          rfl
        · rfl
      · rw [family_insert]
        split_ifs with hg
        · rw [hg, hdrop]
          rfl
        · rfl
    · exact .refl s

section Networks

variable (hp : ∀ (k : Call) (n : Bytes), p { k with net := n } = p k)

include hp

/-- Merging two networks leaves what does not read the network. -/
theorem aside_mergeNetwork (s : AssocModel) (f frm dst : Bytes) :
    Aside p s (s.mergeNetwork L f frm dst) := by
  rw [AssocModel.mergeNetwork]
  dsimp only
  split_ifs
  · refine (Aside.setFamily s ?_).trans (.of_fams rfl rfl rfl rfl)
    rcases Family.calls_mergeNetwork frm dst (s.family f) L with hc | hc
    · exact Family.map_congr hc
    · rw [hc, List.map_map]
      refine List.map_congr_left fun k _ => ?_
      rw [Function.comp_apply, Call.rename_eq]
      exact hp k _
  · exact .refl s

/-- Finding the network of a stream leaves what does not read the network. -/
theorem aside_resolveNetwork (s : AssocModel) (sid : ℕ) (now : ℤ) :
    Aside p s (s.resolveNetwork L sid now) := by
  set c := s.ctx sid
  set id := networkId c sid (s.family c.family)
  set F := (s.family c.family).place L id c now
  set s₁ := s.setFamily c.family F
  have h₁ : Aside p s s₁ := .setFamily s rfl
  have h₂ : Aside p s₁ (if F.foldsAway c sid id.key then
      s₁.mergeNetwork L c.family c.net id.key else s₁) := by
    split_ifs
    · exact aside_mergeNetwork hp s₁ _ _ _
    · exact .refl s₁
  exact (h₁.trans h₂).trans (.of_fams rfl rfl rfl rfl)

/-- **All that an event does before it is handled as a call.** -/
theorem aside_identify (s : AssocModel) (sid : ℕ) (r : Reading) (now : ℤ) :
    Aside p s (s.identify L sid r now) := by
  rw [AssocModel.identify]
  set f := (s.ctx sid).family
  set s₁ := (s.setFamily f (s.family f)).bumpVersion
  have h₁ : Aside p s s₁ := (Aside.setFamily s rfl).trans (.of_fams rfl rfl rfl rfl)
  set a := absorbIdentity (s₁.ctx sid) r
  have hctx : Aside p s₁ (s₁.setCtx sid a.ctx) := .of_fams rfl rfl rfl rfl
  have h₂ : Aside p s₁ ((s₁.setCtx sid a.ctx).noteNeighbour sid a.neighbour) := by
    rw [noteNeighbour]
    split_ifs
    · exact hctx
    · exact hctx.trans (.setFamily _ rfl)
  set s₂ := (s₁.setCtx sid a.ctx).noteNeighbour sid a.neighbour
  have hhear (x : AssocModel) : Aside p x (x.setFamily f { x.family f with
      networks := (x.family f).networks.insert (x.ctx sid).net
        (((x.family f).networks.getD (x.ctx sid).net {}).hear (x.ctx sid) sid now) }) :=
          .setFamily x rfl
  split_ifs
  · exact ((h₁.trans h₂).trans (aside_resolveNetwork hp s₂ sid now)).trans (hhear _)
  · exact (h₁.trans h₂).trans (hhear s₂)

end Networks

end AssocModel

end DsdServer
