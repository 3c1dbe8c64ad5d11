import DsdServer.Assoc.Model
import DsdServer.Assoc.Balance

/-!
# Assoc/Edits — the call handling as a sequence of edits

Whatever an event does to the calls of a family is a sequence of a few kinds of edits (`Edit`): a
record is amended, a call counted, found private, ended, dropped, or a new one opened.  What every
edit keeps, the whole call handling keeps.

The list of edits is short because many operations of the source are one edit with different parts
of a record changed.  The conditions of an edit are those under which it is done in the source, as
far as an invariant needs them.
-/

open Bytes Ledger

namespace DsdServer

/-! ## What ending a call does to its record

A call that ends is marked closed with a verdict, and its recording is kept or given up.  The second
is of no interest to counters or references, so it is told apart (`Settles`). -/

/-- A change of a record's recording only. -/
def Settles (g : Call → Call) : Prop := ∀ k, ∃ s b, g k = { k with sound := s, keep := b }

/-- A record that is left alone is settled. -/
theorem Settles.refl : Settles fun k => k := fun k => ⟨k.sound, k.keep, rfl⟩

theorem Settles.comp {f g : Call → Call} (hf : Settles f) (hg : Settles g) :
    Settles fun k => g (f k) := fun k => by
  obtain ⟨s, b, h⟩ := hf k
  obtain ⟨s', b', h'⟩ := hg (f k)
  refine ⟨s', b', ?_⟩
  change g (f k) = _
  rw [h', h]

/-- A settled record is still of the same call. -/
theorem Settles.id_eq {g : Call → Call} (hg : Settles g) (k : Call) : (g k).id = k.id := by
  obtain ⟨s, b, h⟩ := hg k
  rw [h]

theorem settles_setKeep (on : Bool) : Settles fun k => k.setKeep on := fun k => ⟨k.sound, on, rfl⟩

/-- Changing what is kept of the recording. -/
theorem settles_onSound (g : Recording → Recording) : Settles fun k => k.onSound g :=
  fun k => ⟨g k.sound, k.keep, rfl⟩

theorem settles_dropSound : Settles Call.dropSound := settles_onSound _

/-- Settling a record is amending it. -/
theorem Settles.amends {g : Call → Call} (hg : Settles g) (net : Bytes) (k : Call) :
    Call.Amends net k (g k) := by
  obtain ⟨s, b, h⟩ := hg k
  rw [h]
  exact ⟨rfl, rfl, rfl, rfl, rfl, Or.inl rfl, fun _ => rfl, fun _ => rfl, fun _ => ⟨rfl, rfl⟩,
    fun _ => ⟨rfl, rfl, rfl, rfl⟩⟩

namespace Family

variable (F : Family) (id : ℕ)

theorem modifyCall_id : (F.modifyCall id fun k => k) = F := by
  have h : (F.calls.map fun k => if k.id = id then k else k) = F.calls :=
    (List.map_congr_left fun k _ => ite_self k).trans F.calls.map_id
  rw [modifyCall, h]

/-- Two changes of one record are one. -/
theorem modifyCall_modifyCall {f g : Call → Call} (hf : ∀ k, (f k).id = k.id) :
    (F.modifyCall id f).modifyCall id g = F.modifyCall id fun k => g (f k) := by
  rw [modifyCall, modifyCall, modifyCall, List.map_map]
  refine congrArg (fun l => { F with calls := l }) (List.map_congr_left fun k _ => ?_)
  rw [Function.comp_apply]
  split_ifs with h h'
  · rfl
  · exact absurd ((hf k).trans h) h'
  · rfl

end Family

namespace FamilyState

variable (L : Limits) (w : FamilyState) (id : ℕ)

/-- Marking a call to be kept settles its record, whatever else it does. -/
theorem fam_setKeep (on : Bool) (now : ℤ) :
    ∃ g, Settles g ∧ (w.setKeep id on now).fam = w.fam.modifyCall id g := by
  rw [setKeep]
  split
  · exact ⟨_, .refl, (Family.modifyCall_id ..).symm⟩
  · split_ifs
    · exact ⟨_, .refl, (Family.modifyCall_id ..).symm⟩
    · exact ⟨_, settles_setKeep on, rfl⟩

/-- The recording of a call that ends is kept or given up. -/
theorem fam_settleSound : ∃ g, Settles g ∧ (w.settleSound id).fam = w.fam.modifyCall id g := by
  rw [settleSound]
  split
  · exact ⟨_, .refl, (Family.modifyCall_id ..).symm⟩
  · next k _ =>
    split_ifs
    · exact ⟨_, .refl, (Family.modifyCall_id ..).symm⟩
    · obtain ⟨g, hg, h⟩ := fam_setKeep
        { w with
          store := w.store.discard k.sound.audio
          fam := w.fam.modifyCall id Call.dropSound } id false k.lastMs
      refine ⟨_, settles_dropSound.comp hg, h.trans ?_⟩
      exact Family.modifyCall_modifyCall w.fam id settles_dropSound.id_eq
    · exact ⟨_, .refl, (Family.modifyCall_id ..).symm⟩

/-- **Ending a call**: its record is ended, it is counted if its talker was never decoded, and its
flags are tallied. -/
theorem fam_closeCall {k : Call} (hk : w.fam.findCall id = some k) (ho : k.isOpen) :
    ∃ g, (∀ k, ∃ q s b, g k = k.ended q s b) ∧
      (w.closeCall L id).fam =
        ((w.fam.modifyCall id g).countUnsourced L id).tallyClosed id := by
  obtain ⟨g, hg, h⟩ := fam_settleSound (w.shut id) id
  refine ⟨fun k => g (k.shut (w.quality.find? id)), fun k => ?_, ?_⟩
  · obtain ⟨s, b, hs⟩ := hg (k.shut (w.quality.find? id))
    exact ⟨_, s, b, hs⟩
  · rw [closeCall, hk]
    dsimp only
    rw [if_pos ho]
    change (((w.shut id).settleSound id).fam.countUnsourced L id).tallyClosed id = _
    rw [h]
    exact congrArg (fun F : Family => (F.countUnsourced L id).tallyClosed id)
      (Family.modifyCall_modifyCall w.fam id fun _ => rfl)

/-- A call that has ended does not end again. -/
theorem closeCall_of_closed (h : ∀ k, w.fam.findCall id = some k → k.isOpen = false) :
    w.closeCall L id = w := by
  rw [closeCall]
  split
  · rfl
  · next k hk => rw [if_neg (by rw [h k hk]; exact Bool.false_ne_true)]

end FamilyState

/-! ## Edits

The kinds of edits carry the conditions under which the source makes them: a call is counted once
and only if both its ends are known, a duplicate is joined only with a call of the same ends.  With
them each edit can be looked at for itself. -/

/-- **An edit of a family's calls**, under limits `L`, by a stream on network `net`; with the last
call id given out. -/
inductive Edit (L : Limits) (net : Bytes) : FamilyState × ℕ → FamilyState × ℕ → Prop
  /-- a record is amended -/
  | amend {w : FamilyState} {n id : ℕ} {k : Call} {g : Call → Call}
      (hk : w.fam.findCall id = some k) (hg : Call.Amends net k (g k))
      (hs : (g k).sound = k.sound ∧ (g k).keep = k.keep) :
      Edit L net (w, n) (w.onFam fun F => F.modifyCall id g, n)
  /-- a radio is heard -/
  | touch {w : FamilyState} {n : ℕ} {i : Bytes} (hi : i ≠ []) (aka : Bytes) (now : ℤ) :
      Edit L net (w, n) (w.onFam fun F => F.touchRadio L i net aka now, n)
  /-- a radio reports its position -/
  | fix {w : FamilyState} {n : ℕ} (i pos : Bytes) (now : ℤ) :
      Edit L net (w, n) (w.onFam fun F => F.onRadio i fun r => r.fix pos now, n)
  /-- the key of a call is noted -/
  | key {w : FamilyState} {n : ℕ} (id : ℕ) :
      Edit L net (w, n) (w.onFam fun F => F.noteEncCounts L id, n)
  /-- an open call is found to be private -/
  | priv {w : FamilyState} {n id : ℕ} {k : Call} (hk : w.fam.findCall id = some k) (ho : k.isOpen)
      (now : ℤ) : Edit L net (w, n) (w.onFam fun F => F.setPrivate L id now, n)
  /-- an open call is counted -/
  | count {w : FamilyState} {n id : ℕ} {k : Call} (hk : w.fam.findCall id = some k) (ho : k.isOpen)
      (hc : k.counted = false) (hs : k.src ≠ []) (ht : k.tgt ≠ []) (now : ℤ) :
      Edit L net (w, n) (w.onFam fun F => F.countCall L id now, n)
  /-- a call ends -/
  | close {w : FamilyState} {n : ℕ} (id : ℕ) : Edit L net (w, n) (w.closeCall L id, n)
  /-- a record is dropped when the list is full -/
  | drop {w : FamilyState} {n : ℕ} (id : ℕ) (hd : L.calls ≠ none) :
      Edit L net (w, n) (w.forget id, n)
  /-- a duplicate is folded into its twin -/
  | join {w : FamilyState} {n : ℕ} {dup twin : Call} (hd : w.fam.findCall dup.id = some dup)
      (ht : w.fam.findCall twin.id = some twin) (hne : twin.id ≠ dup.id)
      (ho : twin.isOpen) (hc : dup.counted = false)
      (he : twin.src = dup.src ∧ twin.tgt = dup.tgt ∧ twin.src ≠ [] ∧ twin.tgt ≠ []) :
      Edit L net (w, n) (w.adopt L dup twin, n)
  /-- a call is opened -/
  | push {w : FamilyState} {n : ℕ} {k : Call} (hid : k.id = n + 1) (hn : k.net = net)
      (hc : k.counted = false) (hkn : k.keyNoted = false) (ho : k.isOpen) (hs : k.sound = {})
      (hkp : k.keep = false) :
      Edit L net (w, n) (w.onFam fun F => { F with calls := F.calls ++ [k] }, n + 1)
  /-- an analyzer is fed -/
  | quality {w : FamilyState} {n : ℕ} (q : SortedMap ℕ VoiceQuality) :
      Edit L net (w, n) ({ w with quality := q }, n)

/-- Call ids are never given out twice. -/
theorem Edit.le {L : Limits} {net : Bytes} {x y : FamilyState × ℕ} (e : Edit L net x y) :
    x.2 ≤ y.2 := by
  cases e with
  | push => exact Nat.le_succ _
  | _ => exact le_rfl

/-- Ending a call leaves the name of its family. -/
theorem FamilyState.name_closeCall (L : Limits) (w : FamilyState) (id : ℕ) :
    (w.closeCall L id).name = w.name := by
  have hkeep (w : FamilyState) (now : ℤ) : (w.setKeep id false now).name = w.name := by
    rw [setKeep]
    split
    · rfl
    · split_ifs <;> rfl
  rw [closeCall]
  split
  · rfl
  · split_ifs
    · change ((w.shut id).settleSound id).name = w.name
      rw [settleSound]
      split
      · rfl
      · split_ifs
        · rfl
        · exact hkeep _ _
        · rfl
    · rfl

theorem Edit.name {L : Limits} {net : Bytes} {x y : FamilyState × ℕ} (e : Edit L net x y) :
    y.1.name = x.1.name := by
  cases e with
  | close => exact FamilyState.name_closeCall L _ _
  | join =>
    rw [FamilyState.adopt]
    split_ifs <;> rfl
  | _ => rfl

/-- A sequence of edits is of one family. -/
theorem name_of_edits {L : Limits} {net : Bytes} {x y : FamilyState × ℕ}
    (he : Relation.ReflTransGen (Edit L net) x y) : y.1.name = x.1.name := by
  induction he with
  | refl => rfl
  | tail _ e ih => exact e.name.trans ih

/-- **Closing the calls of a session is a sequence of edits**, each the end of a call. -/
theorem edits_closeSessionCalls (L : Limits) (w : FamilyState) (n sid : ℕ) :
    Relation.ReflTransGen (Edit L []) (w, n) (w.closeSessionCalls L sid, n) := by
  rw [FamilyState.closeSessionCalls]
  induction w.fam.calls.filter (·.session = sid) generalizing w with
  | nil => exact .refl
  | cons k l ih => exact .head (.close k.id) (ih _)

/-! ## What every edit keeps of the records

The records of a family are `Kept`, and their ids have been given out.  An edit keeps both, so in a
sequence of edits each finds its record where the one before left it. -/

/-- **The records of a spot**: those of its family, no id beyond the last one given out. -/
structure Spot (x : FamilyState × ℕ) : Prop where
  kept : x.1.fam.Kept
  below : ∀ i ∈ x.1.fam.callIds, i ≤ x.2

variable {L : Limits} {net : Bytes} {w : FamilyState} {n : ℕ}

/-- The family changes, and no id is new. -/
theorem Spot.of_ids {x : FamilyState × ℕ} (h : Spot x) {w' : FamilyState} (hk : w'.fam.Kept)
    (hi : w'.fam.callIds.Sublist x.1.fam.callIds) : Spot (w', x.2) :=
  ⟨hk, fun i hm => h.below i (hi.subset hm)⟩

/-- A record stays coherent when its call ends. -/
theorem ended_coherent {k : Call} (h : k.Coherent) (q : Summary) (s : Recording) (b : Bool) :
    (k.ended q s b).Coherent :=
  ⟨h.target, fun _ ho => absurd ho Bool.false_ne_true, h.noted⟩

/-- Ending a call keeps the records. -/
theorem Family.Kept.closeCall (h : w.fam.Kept) (id : ℕ) :
    (w.closeCall L id).fam.Kept ∧ (w.closeCall L id).fam.callIds = w.fam.callIds := by
  by_cases ho : ∃ k, w.fam.findCall id = some k ∧ k.isOpen
  · obtain ⟨k, hk, ho⟩ := ho
    obtain ⟨g, hg, hfam⟩ := w.fam_closeCall L id hk ho
    obtain ⟨p, q, ha⟩ := h.around hk
    obtain ⟨s, r, b, hgk⟩ := hg k
    have hid : ∀ k, (g k).id = k.id := fun k => by
      obtain ⟨s, r, b, hgk⟩ := hg k
      rw [hgk]
      rfl
    have ha' := ha.modifyCall (hid k)
    have h₁ : (w.fam.modifyCall id g).Kept :=
      h.replace ha ha' (by rw [hgk]; exact ended_coherent (h.coherent k ha.mem) ..) h.radios
    rw [hfam]
    refine ⟨(h₁.countUnsourced ha'.findCall (by rw [hgk]; rfl)).tallyClosed id, ?_⟩
    rw [Family.callIds_congr (Family.calls_tallyClosed ..), Family.callIds_countUnsourced,
      Family.callIds_modifyCall hid]
  · rw [w.closeCall_of_closed L id fun k hk => Bool.eq_false_iff.2 fun h' => ho ⟨k, hk, h'⟩]
    exact ⟨h, rfl⟩

/-- Joining amends the record of the twin. -/
theorem Call.amends_join {twin dup : Call} (ho : twin.isOpen) (net : Bytes) :
    Call.Amends net twin (twin.join dup) where
  id := rfl
  priv := rfl
  counted := rfl
  isOpen := rfl
  keyNoted := rfl
  net := Or.inl rfl
  src _ := rfl
  tgt _ := rfl
  key h := ⟨if_neg h, if_neg h⟩
  closed h := absurd (h.symm.trans ho) Bool.false_ne_true

/-- What joining does to the family: the twin is amended, the duplicate goes, the key is counted. -/
theorem fam_adopt (L : Limits) (w : FamilyState) (dup twin : Call) :
    (w.adopt L dup twin).fam =
      ((w.fam.modifyCall twin.id fun t => t.join dup).forget dup.id).noteEncCounts L twin.id := by
  rw [FamilyState.adopt]
  split_ifs <;> rfl

/-- The duplicate's record goes, and the twin's takes what it adds. -/
theorem Family.Kept.adopt {dup twin : Call} (h : w.fam.Kept)
    (ht : w.fam.findCall twin.id = some twin) (ho : twin.isOpen) :
    (w.adopt L dup twin).fam.Kept ∧
      (w.adopt L dup twin).fam.callIds.Sublist w.fam.callIds := by
  set F₁ := w.fam.modifyCall twin.id fun t => t.join dup
  have h₁ : F₁.Kept := h.amend ht (g := fun t => t.join dup) (Call.amends_join ho [])
  have hids : F₁.callIds = w.fam.callIds :=
    Family.callIds_modifyCall (g := fun t => t.join dup) (fun _ => rfl) twin.id
  rw [fam_adopt, Family.callIds_noteEncCounts, ← hids]
  exact ⟨(h₁.forget dup.id).noteEncCounts _, (Family.calls_forget_sublist ..).map _⟩

/-- **Every edit keeps the records.** -/
theorem Edit.spot {x y : FamilyState × ℕ} (e : Edit L net x y) (h : Spot x) : Spot y := by
  cases e with
  | @amend w n id k g hk hg hs =>
    obtain ⟨p, q, ha⟩ := h.kept.around hk
    refine h.of_ids (h.kept.amend hk hg) ?_
    change ((w.fam.modifyCall id g).calls.map _).Sublist (w.fam.calls.map _)
    rw [(ha.modifyCall hg.id).calls, ha.calls, List.map_append, List.map_append, List.map_cons,
      List.map_cons, hg.id]
  | touch hi aka now => exact h.of_ids (h.kept.touchRadio hi _ _) (List.Sublist.refl _)
  | fix i pos now => exact h.of_ids (h.kept.onRadio i _) (List.Sublist.refl _)
  | @key w n id =>
    refine h.of_ids (h.kept.noteEncCounts id) ?_
    exact (Family.callIds_noteEncCounts (F := w.fam) id).symm ▸ List.Sublist.refl _
  | @priv w n id k hk ho now =>
    refine h.of_ids (h.kept.setPrivate id) ?_
    exact (Family.callIds_setPrivate (F := w.fam) id).symm ▸ List.Sublist.refl _
  | @count w n id k hk ho hc hs ht now =>
    have hkn : k.keyNoted = false := Bool.eq_false_iff.2 fun hkn => Bool.false_ne_true
      (hc.symm.trans ((h.kept.coherent k (Family.findCall_some hk).1).noted hkn).1)
    refine h.of_ids (h.kept.countCall hk ht (fun _ => hs) hkn) ?_
    exact (Family.callIds_countCall (F := w.fam) id).symm ▸ List.Sublist.refl _
  | @close w n id =>
    obtain ⟨hk, hi⟩ := h.kept.closeCall (L := L) id
    exact h.of_ids hk (hi ▸ List.Sublist.refl _)
  | @drop w n id hd =>
    exact h.of_ids (h.kept.forget id) ((Family.calls_forget_sublist w.fam id).map _)
  | join hd ht hne ho hc he =>
    obtain ⟨hk, hi⟩ := h.kept.adopt (L := L) ht ho
    exact h.of_ids hk hi
  | @push w n k hid hn hc hkn ho hs hkp =>
    refine ⟨h.kept.push (fun o ho' => ?_) ⟨?_, ?_, ?_⟩, fun i hi => ?_⟩
    · have := h.below o.id (List.mem_map_of_mem ho')
      simp only at this
      omega
    · exact fun hc' => absurd (hc.symm.trans hc') Bool.false_ne_true
    · exact fun hc' => absurd (hc.symm.trans hc') Bool.false_ne_true
    · exact fun hn' => absurd (hkn.symm.trans hn') Bool.false_ne_true
    · change i ∈ (w.fam.calls ++ [k]).map Call.id at hi
      rw [List.map_append, List.mem_append] at hi
      rcases hi with hi | hi
      · exact (h.below i hi).trans (Nat.le_succ n)
      · simp only [List.map_cons, List.map_nil, List.mem_singleton] at hi
        exact (hi.trans hid).le
  | quality q => exact h.of_ids h.kept (List.Sublist.refl _)

end DsdServer
