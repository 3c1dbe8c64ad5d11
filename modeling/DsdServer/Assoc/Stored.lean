import DsdServer.Assoc.Consistency
import DsdServer.Assoc.Shelf

/-!
# Assoc/Stored — a call's sample count is that of its file

Every input keeps the recordings and the files in agreement, as long as a block for a call's file
finds the file open.  Stopping the recording closes the files of calls in progress, which keep
counting.

* `samples_stored` — **in a run whose blocks find their files open, every call counts what its file
  holds.**

A recording is written in three places: when a call is opened, when a block of samples is stored,
and when the limits of the store delete files.  For each of them the agreement of records and files
is restored before the input ends, and everything else an input does is an edit that the agreement
survives.
-/

open Bytes

namespace DsdServer

variable {L : Limits} {net : Bytes}

namespace AssocModel

variable {s s' s'' : AssocModel} {sid id : ℕ} {now : ℤ} {name : Bytes}

/-- What the records of every family say of their recordings. -/
def tapes (s : AssocModel) (f : Bytes) : List (ℕ × Recording) := (s.family f).tapes

/-- The recordings agree with the files, but for those deleted and not yet noted. -/
def Shelved (s : AssocModel) : Prop := Shelf s.nextCall s.store.evicted s.tapes s.store.disk

/-- **The recordings agree with the files**, and no deleted file waits to be noted. -/
structure Filed (s : AssocModel) : Prop where
  shelved : s.Shelved
  quiet : s.store.evicted = []

/-- Neither the recordings nor the files change. -/
structure Still (s s' : AssocModel) : Prop where
  tapes : ∀ g, s'.tapes g = s.tapes g
  disk : s'.store.disk = s.store.disk
  evicted : s'.store.evicted = s.store.evicted
  next : s'.nextCall = s.nextCall

namespace Still

/-- What touches neither families nor store. -/
theorem of_fams (hf : s'.fams = s.fams) (hs : s'.store = s.store) (hn : s'.nextCall = s.nextCall) :
    Still s s' := ⟨fun g => by rw [AssocModel.tapes, AssocModel.tapes, family, family, hf],
  congrArg _ hs, congrArg _ hs, hn⟩

theorem refl (s : AssocModel) : Still s s := of_fams rfl rfl rfl

theorem trans (h : Still s s') (h' : Still s' s'') : Still s s'' :=
  ⟨fun g => (h'.tapes g).trans (h.tapes g), h'.disk.trans h.disk, h'.evicted.trans h.evicted,
    h'.next.trans h.next⟩

/-- A reading of recordings that stays. -/
theorem aside (h : Aside (fun k => (k.id, k.sound)) s s') : Still s s' :=
  ⟨h.calls, congrArg _ h.store, congrArg _ h.store, h.nextCall⟩

/-- The recordings of one family are written back as they were. -/
theorem insert {f : Bytes} {F : Family} (hs : s'.fams = s.fams.insert f F)
    (hF : F.tapes = s.tapes f) (hst : s'.store = s.store) (hn : s'.nextCall = s.nextCall) :
    Still s s' := ⟨fun g => by
  have hg : s'.family g = if g = f then F else s.family g := by rw [family, hs, family_insert]; rfl
  rw [AssocModel.tapes, hg]
  split_ifs with hg
  · rw [hg, hF]
  · rfl, congrArg _ hst, congrArg _ hst, hn⟩

end Still

/-- Agreement is about recordings and files. -/
theorem Shelved.still (h : s.Shelved) (hs : Still s s') : s'.Shelved := by
  have ht : s'.tapes = s.tapes := funext hs.tapes
  rw [Shelved, ht, hs.disk, hs.evicted, hs.next]
  exact h

/-- Agreement is about recordings and files. -/
theorem Filed.still (h : s.Filed) (hs : Still s s') : s'.Filed :=
  ⟨h.shelved.still hs, hs.evicted.trans h.quiet⟩

/-- The recordings after work on one family. -/
theorem tapes_putDesk (s : AssocModel) (w : FamilyState) :
    (s.putDesk w).tapes = Function.update s.tapes w.name w.fam.tapes := by
  funext g
  have hfam : (s.putDesk w).family g = if g = w.name then w.fam else s.family g :=
    family_insert s.fams w.name g w.fam
  rw [tapes, hfam, Function.update_apply]
  split_ifs <;> rfl

/-- A stretch of call handling on a desk. -/
theorem Filed.edits (h : s.Filed) {f : Bytes} {w : FamilyState} {n : ℕ}
    (he : Relation.ReflTransGen (Edit L net) (s.desk f, s.nextCall) (w, n))
    (hs : Spot (s.desk f, s.nextCall)) (hs' : s'.fams = (s.putDesk w).fams)
    (hst : s'.store = w.store) (hn : s'.nextCall = n) : s'.Filed := by
  have hname : w.name = f := name_of_edits he
  obtain ⟨h₁, h₂⟩ := shelf_edits (f := f) he hs h.shelved rfl
  have ht : s'.tapes = Function.update s.tapes f w.fam.tapes := by
    rw [← hname, ← tapes_putDesk]
    funext g
    rw [tapes, tapes, family, family, hs']
  have he : s'.store.evicted = s.store.evicted := (congrArg _ hst).trans h₂
  refine ⟨?_, he.trans h.quiet⟩
  rw [Shelved, ht, hn, he, hst]
  exact h₁

/-- **Calls that end keep the agreement**: a recording that is given up goes with its file. -/
theorem Filed.closeSessionCalls (h : s.Filed) (hi : s.Inv L) (sid : ℕ) :
    (s.closeSessionCalls L sid).Filed := by
  rw [AssocModel.closeSessionCalls]
  split
  · exact h
  · next c _ =>
    split_ifs
    · exact h.edits (edits_closeSessionCalls L (s.desk c.family) s.nextCall sid)
        (hi.fam c.family).spot
        rfl rfl rfl
    · exact h

/-- A stream ends, and its networks are pruned. -/
theorem Filed.wrapUp (h : s.Filed) (hi : s.Inv L) (sid : ℕ) (line : Bytes) (retune : Bool) :
    (((s.record line).closeSessionCalls L sid).pruneSession sid retune).Filed := by
  have h₁ : (s.record line).Filed := h.still (.of_fams rfl rfl rfl)
  have hi₁ : (s.record line).Inv L := hi.congr rfl rfl
  exact (h₁.closeSessionCalls hi₁ sid).still (.aside (aside_pruneSession _ sid retune))

/-- **Every event keeps the recordings and the files in agreement.** -/
theorem Filed.ingest (h : s.Filed) (hi : s.Inv L) (sid : ℕ) (ev : DsdEvent) (now : ℤ) :
    (s.ingest L sid ev now).Filed := by
  have h₁ : (s.record (assoclog.eventLine now sid ev)).Filed := h.still (.of_fams rfl rfl rfl)
  have hi₁ : (s.record (assoclog.eventLine now sid ev)).Inv L := hi.congr rfl rfl
  rw [AssocModel.ingest]
  dsimp only
  split
  · exact h₁
  · next c _ =>
    set s₂ := (s.record (assoclog.eventLine now sid ev)).setCtx sid (c.gate (.ofEvent ev) now).1
    have h₂ : s₂.Filed := h₁.still (.of_fams rfl rfl rfl)
    have hi₂ : s₂.Inv L := hi₁.congr rfl rfl
    split_ifs
    · have h₃ :=
        h₂.still (.aside (aside_identify (L := L) (fun _ _ => rfl) s₂ sid (.ofEvent ev) now))
      have hi₃ := (hi₂.identify sid (.ofEvent ev) now).1
      set s₃ := s₂.identify L sid (.ofEvent ev) now
      have hspot : Spot (s₃.stream sid).spot := (hi₃.fam _).spot
      exact h₃.edits
        (((StreamState.works_expire L _ now).trans (StreamState.works_handle ..)).edits hspot)
        hspot rfl rfl rfl
    · exact h₂

end AssocModel

/-! ## Audio

A block goes through a chain of helpers, each of which may note something on the recording of its
call.  Only two of them touch a file: the one that opens it and the one that writes it. -/

namespace AssocModel

variable {s s' : AssocModel} {sid id : ℕ} {now : ℤ} {name : Bytes}

/-- The recordings after one is changed. -/
theorem tapes_onSound (s : AssocModel) (sid id : ℕ) (g : Recording → Recording) :
    (s.onSound sid id g).tapes =
      Function.update s.tapes (s.ctx sid).family (retaped (s.tapes (s.ctx sid).family) id g) := by
  refine (tapes_putDesk s _).trans (congrArg (Function.update s.tapes (s.ctx sid).family) ?_)
  change ((s.family (s.ctx sid).family).modifyCall id fun k => k.onSound g).calls.map _ = _
  rw [Family.modifyCall, List.map_map, retaped, tapes, Family.tapes, List.map_map]
  refine List.map_congr_left fun k _ => ?_
  rw [Function.comp_apply, Function.comp_apply]
  split_ifs <;> rfl

/-- A mark on a recording leaves its file and its count. -/
theorem Filed.mark (h : s.Filed) (sid id : ℕ) {g : Recording → Recording}
    (hg : ∀ r, (g r).audio = r.audio ∧ (g r).audioSamples = r.audioSamples ∧
      (r.noAudio = true → (g r).noAudio = true)) : (s.onSound sid id g).Filed := by
  refine ⟨?_, h.quiet⟩
  rw [Shelved, tapes_onSound]
  exact Shelf.update h.shelved (.mark hg (h.shelved.clean _))

/-- Marking a call to be kept changes neither recording nor file. -/
theorem still_setKeep (s : AssocModel) (sid id : ℕ) (on : Bool) (now : ℤ) :
    Still s (s.onDesk sid fun w => w.setKeep id on now) ∧
      (s.onDesk sid fun w => w.setKeep id on now).store = s.store := by
  set w := (s.desk (s.ctx sid).family).setKeep id on now
  obtain ⟨ht, hst⟩ := (s.desk (s.ctx sid).family).tapes_setKeep id on now
  have hname : w.name = (s.ctx sid).family := name_setKeep ..
  exact ⟨.insert (f := (s.ctx sid).family) (show s.fams.insert w.name w.fam = _ by
    rw [hname]) ht hst rfl, hst⟩

/-- **What is refused loses its file.** -/
theorem Filed.refuse (h : s.Filed) {k : Call} (hk : k ∈ (s.family (s.ctx sid).family).calls) :
    (s.refuse sid k now).Filed := by
  have h₁ : (s.onSound sid k.id fun r => { r with noAudio := true }).Filed :=
    h.mark sid k.id fun _ => ⟨rfl, rfl, fun _ => rfl⟩
  rw [AssocModel.refuse]
  refine Filed.still ?_ (still_setKeep _ sid k.id false now).1
  set f := (s.ctx sid).family
  set s₁ := s.onSound sid k.id fun r => { r with noAudio := true }
  split_ifs
  · exact h₁
  have ht₁ : s₁.tapes f = retaped (s.tapes f) k.id fun r => { r with noAudio := true } := by
    rw [tapes_onSound]
    exact Function.update_self ..
  have hno : ∀ x ∈ s₁.tapes f, x.1 = k.id → x.2.noAudio = true := fun x hx hi => by
    rw [ht₁] at hx
    rcases of_mem_retaped hx with ⟨-, hne⟩ | ⟨x₀, -, -, rfl⟩
    · exact absurd hi hne
    · rfl
  have hmem : (k.id, { k.sound with noAudio := true }) ∈ s₁.tapes f := by
    rw [ht₁]
    exact mem_retaped (Family.mem_tapes hk) fun r => { r with noAudio := true }
  have hm : Moves s₁.nextCall s₁.nextCall (s₁.tapes f)
      (retaped (s₁.tapes f) k.id fun r => { r with audio := [] })
      s₁.store.disk (s₁.store.discard k.sound.audio).disk fun i => i := by
    refine .sub (fun x' hx => ?_) (h₁.shelved.clean f) fun m hm => ?_
    · rcases of_mem_retaped hx with ⟨hx₁, -⟩ | ⟨x, hx₁, hi, rfl⟩
      · exact Or.inl hx₁
      · refine Or.inr ⟨rfl, fun _ hn => ?_, x, hx₁, hi⟩
        exact absurd (hno x hx₁ hi) (Bool.eq_false_iff.1 hn)
    · refine (CallAudioStore.find?_discard s₁.store k.sound.audio m).imp_right fun he => ?_
      refine ⟨_, hmem, he.symm, fun y hy hi => ?_⟩
      rcases of_mem_retaped hy with ⟨-, hne⟩ | ⟨x, -, -, rfl⟩
      · exact absurd hi hne
      · exact Ne.symm hm
  have hev : (s₁.store.discard k.sound.audio).evicted = s₁.store.evicted :=
    CallAudioStore.evicted_discard ..
  set s₂ := { s₁ with store := s₁.store.discard k.sound.audio }
  have h₂ : (s₂.onSound sid k.id fun r => { r with audio := [] }).Filed := by
    refine ⟨?_, hev.trans h₁.quiet⟩
    rw [Shelved, tapes_onSound]
    change Shelf s₁.nextCall (s₁.store.discard k.sound.audio).evicted _
      (s₁.store.discard k.sound.audio).disk
    rw [hev]
    exact Shelf.update h₁.shelved hm
  exact h₂.still (.of_fams rfl rfl rfl)

/-! ### Writing a file

While a file is being written its call counts along with it.  That the file is open is what makes
the store write the block; a block for a file that was closed is counted all the same, and there the
agreement ends. -/

/-- **A call's file is being written**: it is open, and the file of that call's record. -/
structure Writing (s : AssocModel) (sid id : ℕ) (name : Bytes) : Prop where
  shelved : s.Shelved
  named : ∃ x ∈ s.tapes (s.ctx sid).family, x.1 = id
  only : ∀ x ∈ s.tapes (s.ctx sid).family, x.1 = id → x.2.audio = name
  opened : s.store.opened.contains name = true

/-- A file that is being written stays so, while recordings and files do not change. -/
theorem Writing.still (h : s.Writing sid id name) (hs : Still s s')
    (ho : s'.store.opened = s.store.opened) (hc : (s'.ctx sid).family = (s.ctx sid).family) :
    s'.Writing sid id name where
  shelved := h.shelved.still hs
  named := by
    rw [hs.tapes, hc]
    exact h.named
  only := by
    rw [hs.tapes, hc]
    exact h.only
  opened := by
    rw [ho]
    exact h.opened

/-- **A block appended to a call's file is counted in its record.** -/
theorem Writing.pour (h : s.Writing sid id name) (hne : name ≠ []) (pcm : List Sample) (now : ℤ) :
    (s.pour sid id name pcm now).Writing sid id name := by
  set f := (s.ctx sid).family
  obtain ⟨x, hx, hxi⟩ := h.named
  have hxa := h.only x hx hxi
  obtain ⟨hev, hdisk, hopen⟩ := s.store.append_files name now pcm h.opened
  have ht : (s.pour sid id name pcm now).tapes = Function.update s.tapes f
      (retaped (s.tapes f) id fun r => { r with audioSamples := r.audioSamples + pcm.length }) :=
    tapes_onSound { s with store := s.store.append name pcm now } sid id _
  have htf : (s.pour sid id name pcm now).tapes f =
      retaped (s.tapes f) id fun r => { r with audioSamples := r.audioSamples + pcm.length } := by
    rw [ht]
    exact Function.update_self ..
  obtain ⟨j, hj, hname, hown⟩ := h.shelved.owned f x hx (hxa ▸ hne)
  have hwrite : Shelf s.nextCall s.store.evicted (s.pour sid id name pcm now).tapes
      (s.store.disk.modify name (· ++ pcm)) := by
    rw [ht]
    refine Shelf.write h.shelved (j := j) hne (fun g y hy ha => ?_)
      ⟨hj, hxa ▸ hname, fun g y hy hi => ?_⟩
        (fun y hy hi => ⟨h.only y hy hi, fun hgone => ?_⟩) fun m hm => ?_
    · exact hxi ▸ h.shelved.alone f x hx (hxa ▸ hne) g y hy (ha.trans hxa.symm)
    · exact hxi ▸ hown g y hy hi
    · have hya := h.only y hy hi
      obtain ⟨l, hl, hlen⟩ := h.shelved.stored f y hy (hya ▸ hne) (hya ▸ hgone)
      refine ⟨l ++ pcm, ?_, ?_⟩
      · rw [SortedMap.find?_modify_self, ← hya, hl]
        rfl
      · rw [List.length_append, hlen]
    · exact SortedMap.find?_modify_ne _ _ hm
  refine ⟨hwrite.sweep hev hdisk,
    ⟨(x.1, { x.2 with audioSamples := x.2.audioSamples + pcm.length }), ?_, hxi⟩,
    fun y hy hi => ?_, hopen⟩
  · change _ ∈ (s.pour sid id name pcm now).tapes f
    rw [htf, ← hxi]
    exact mem_retaped hx _
  · change y ∈ (s.pour sid id name pcm now).tapes f at hy
    rw [htf] at hy
    rcases of_mem_retaped hy with ⟨-, hyne⟩ | ⟨y₀, hy₀, hi₀, rfl⟩
    · exact absurd hi hyne
    · exact h.only y₀ hy₀ hi₀

/-! ### Deleted files

The store deletes old files on its own and keeps a list of their names.  The model takes that list
after each block, and drops the recordings that are gone; until then they are excepted from the
agreement. -/

variable {s s' : AssocModel} {sid id : ℕ} {now : ℤ} {name m : Bytes}

/-- A file that no call holds is named by no record. -/
theorem holder_none (h : s.holder m = none) (f : Bytes) : ∀ x ∈ s.tapes f, x.2.audio ≠ m := by
  intro x hx ha
  obtain ⟨k, hk, rfl⟩ := List.mem_map.1 hx
  rw [family, SortedMap.getD] at hk
  rcases hf : s.fams.find? f with _ | F
  · rw [hf] at hk
    exact List.not_mem_nil hk
  · rw [hf] at hk
    rw [holder, List.findSome?_eq_none_iff] at h
    have hn := h _ (SortedMap.find?_eq_some_iff.1 hf)
    rw [Option.map_eq_none_iff, List.find?_eq_none] at hn
    exact hn k hk (decide_eq_true ha)

/-- The call that holds a file names it. -/
theorem holder_some {f : Bytes} {k : Call} (h : s.holder m = some (f, k)) :
    k ∈ (s.family f).calls ∧ k.sound.audio = m := by
  obtain ⟨e, he, hk⟩ := List.exists_of_findSome?_eq_some h
  obtain ⟨k', hk', heq⟩ := Option.map_eq_some_iff.1 hk
  obtain ⟨rfl, rfl⟩ := Prod.mk.inj heq
  have hfam : s.family e.1 = e.2 := SortedMap.getD_of_find? (SortedMap.find?_eq_some_iff.2 he) _
  rw [hfam]
  exact ⟨List.mem_of_find?_eq_some hk',
    of_decide_eq_true (List.find?_some (p := fun k : Call => decide (k.sound.audio = m)) hk')⟩

/-- **The call of a deleted file loses its recording.** -/
theorem shelf_dropEvicted {gone : List Bytes}
    (h : Shelf s.nextCall (m :: gone) s.tapes s.store.disk) (now : ℤ) :
    Shelf s.nextCall gone (dropEvicted now s m).tapes s.store.disk ∧
      (dropEvicted now s m).nextCall = s.nextCall ∧ (dropEvicted now s m).store = s.store := by
  rw [dropEvicted]
  split
  · next hn => exact ⟨h.noted fun f x hx _ => holder_none hn f x hx, rfl, rfl⟩
  next f k hf =>
  obtain ⟨hk, hka⟩ := holder_some hf
  obtain ⟨ht, hst⟩ := (s.desk f).tapes_setKeep k.id false now
  set w := ((s.desk f).setKeep k.id false now).onFam fun F => F.modifyCall k.id Call.dropSound
  have hname : w.name = f := name_setKeep ..
  have hcases : ∀ x ∈ w.fam.tapes, (x ∈ s.tapes f ∧ x.1 ≠ k.id) ∨
      (x.2.audio = [] ∧ x.2.Clean ∧ ∃ y ∈ s.tapes f, y.1 = x.1) := fun x hx => by
    rcases Family.of_mem_tapes_modifyCall (g := Call.dropSound) (fun _ => rfl) hx with ⟨hx₁, hne⟩ |
      ⟨k', -, -, rfl⟩
    · have hx₂ : x ∈ ((s.desk f).setKeep k.id false now).fam.tapes := hx₁
      rw [ht] at hx₂
      exact Or.inl ⟨hx₂, hne⟩
    · exact Or.inr ⟨rfl, fun _ _ => rfl, _, Family.mem_tapes hk, rfl⟩
  have hm : Moves s.nextCall s.nextCall (s.tapes f) w.fam.tapes s.store.disk
      s.store.disk fun i => i :=
    .sub (fun x hx => (hcases x hx).imp_left And.left) (h.clean f) fun _ _ => Or.inl rfl
  refine ⟨?_, rfl, hst⟩
  rw [tapes_putDesk, hname]
  refine (h.update hm).noted fun g x hx hne ha => ?_
  rw [Function.update_apply] at hx
  have hkm : (k.id, k.sound) ∈ s.tapes f := Family.mem_tapes hk
  have hkne : k.sound.audio ≠ [] := fun he => hne (ha.trans (hka.symm.trans he))
  split_ifs at hx with hg
  · rcases hcases x hx with ⟨hx₁, hid⟩ | ⟨he, -⟩
    · exact hid (h.alone f _ hkm hkne f x hx₁ (ha.trans hka.symm)).2
    · exact hne he
  · exact hg (h.alone f _ hkm hkne g x hx (ha.trans hka.symm)).1

/-- **Once the deleted files are noted, everything agrees again.** -/
theorem Shelved.reconcile (h : s.Shelved) (now : ℤ) : (s.reconcileEvicted now).Filed := by
  have hdrop : ∀ (gone : List Bytes) (s : AssocModel), Shelf s.nextCall gone s.tapes s.store.disk →
      s.store.evicted = [] → (gone.foldl (dropEvicted now) s).Filed := by
    intro gone
    induction gone with
    | nil => exact fun s h he => ⟨by rw [Shelved, List.foldl_nil, he]; exact h, he⟩
    | cons m gone ih =>
      intro s h he
      obtain ⟨h₁, h₂, h₃⟩ := shelf_dropEvicted h now
      refine ih _ ?_ (by rw [h₃, he])
      rw [h₂, h₃]
      exact h₁
  have hall := hdrop s.store.evicted { s with store := { s.store with evicted := [] } } h rfl
  rw [reconcileEvicted]
  dsimp only
  split_ifs with he
  · exact ⟨h, List.isEmpty_iff.1 he⟩
  · exact hall.still (.of_fams rfl rfl rfl)
  · exact hall

/-- **A block goes into the file and into the count**, and what the store evicts for it is noted. -/
theorem Writing.appendBlock (h : s.Writing sid id name) (hne : name ≠ []) (pcm : List Sample)
    (now : ℤ) :
    (s.appendBlock sid id name pcm now).Filed := (h.pour hne pcm now).shelved.reconcile now

/-- The record of a call, as far as its recording goes, is this one. -/
structure Notes (s : AssocModel) (sid : ℕ) (k : Call) : Prop where
  named : ∃ x ∈ s.tapes (s.ctx sid).family, x.1 = k.id
  audio : ∀ x ∈ s.tapes (s.ctx sid).family, x.1 = k.id → x.2.audio = k.sound.audio
  noAudio : ∀ x ∈ s.tapes (s.ctx sid).family, x.1 = k.id → x.2.noAudio = false

/-- A call that is there is noted as it is. -/
theorem notes_of_mem (hi : s.Inv L) {k : Call} (hk : k ∈ (s.family (s.ctx sid).family).calls)
    (hno : k.sound.noAudio = false) : s.Notes sid k := by
  have honly : ∀ x ∈ s.tapes (s.ctx sid).family, x.1 = k.id → x.2 = k.sound := fun x hx he => by
    obtain ⟨k', hk', rfl⟩ := List.mem_map.1 hx
    have h₁ := (hi.fam _).kept.findCall_of_mem hk'
    have h₂ := (hi.fam _).kept.findCall_of_mem hk
    rw [show k'.id = k.id from he, h₂] at h₁
    rw [Option.some.inj h₁]
  exact ⟨⟨_, Family.mem_tapes hk, rfl⟩, fun x hx he => by rw [honly x hx he],
    fun x hx he => by rw [honly x hx he, hno]⟩

theorem Notes.mark {k : Call} (h : s.Notes sid k) {id : ℕ} {g : Recording → Recording}
    (hg : ∀ r, (g r).audio = r.audio ∧ (g r).noAudio = r.noAudio) :
    (s.onSound sid id g).Notes sid k := by
  have ht : (s.onSound sid id g).tapes (s.ctx sid).family =
      retaped (s.tapes (s.ctx sid).family) id g := by
    rw [tapes_onSound]
    exact Function.update_self ..
  obtain ⟨x, hx, hxi⟩ := h.named
  have hfrom : ∀ x' ∈ (s.onSound sid id g).tapes (s.ctx sid).family,
      ∃ x ∈ s.tapes (s.ctx sid).family,
      x.1 = x'.1 ∧ x'.2.audio = x.2.audio ∧ x'.2.noAudio = x.2.noAudio := fun x' hx => by
    rw [ht] at hx
    rcases of_mem_retaped hx with ⟨hx₁, -⟩ | ⟨x, hx₁, hi, rfl⟩
    · exact ⟨x', hx₁, rfl, rfl, rfl⟩
    · exact ⟨x, hx₁, hi, hg x.2⟩
  refine ⟨?_, fun x' hx' he => ?_, fun x' hx' he => ?_⟩
  · refine ⟨if x.1 = id then (x.1, g x.2) else x, ?_, ?_⟩
    · change _ ∈ (s.onSound sid id g).tapes (s.ctx sid).family
      rw [ht]
      exact List.mem_map_of_mem hx
    · split_ifs <;> exact hxi
  · obtain ⟨y, hy, hyi, ha, -⟩ := hfrom x' hx'
    exact ha.trans (h.audio y hy (hyi.trans he))
  · obtain ⟨y, hy, hyi, -, hn⟩ := hfrom x' hx'
    exact hn.trans (h.noAudio y hy (hyi.trans he))

/-- **A file is created for a call without one.** -/
theorem Filed.writing (h : s.Filed) {k : Call} (hk : s.Notes sid k) (ha : k.sound.audio = [])
    {creatable : Bool} {store : CallAudioStore}
    (ho : s.store.openFile (CallAudioStore.makeName k.startMs s.instanceId k.id) creatable now =
      some store)
    (slot : ℤ) : CallAudioStore.makeName k.startMs s.instanceId k.id ≠ [] ∧
      ({ s with store := store }.onSound sid k.id fun r =>
        { r with audio := CallAudioStore.makeName k.startMs s.instanceId k.id, audioSid := sid
                 audioSlot := slot }).Writing sid k.id
          (CallAudioStore.makeName k.startMs s.instanceId k.id) := by
  obtain ⟨hv, hdisk, hev, hopen⟩ := s.store.openFile_files _ now ho
  set name := CallAudioStore.makeName k.startMs s.instanceId k.id
  set f := (s.ctx sid).family
  have hne : name ≠ [] := fun he => by
    rw [he] at hv
    exact Bool.noConfusion hv
  have hnames : Names k.id name := ⟨_, _, rfl, hv⟩
  obtain ⟨x, hx, hxi⟩ := hk.named
  have ht : ({ s with store := store }.onSound sid k.id fun r =>
      { r with audio := name, audioSid := sid, audioSlot := slot }).tapes =
        Function.update s.tapes f (retaped (s.tapes f) k.id fun r =>
          { r with audio := name, audioSid := sid, audioSlot := slot }) :=
    tapes_onSound { s with store := store } sid k.id _
  have htf := congrFun ht f
  rw [Function.update_self] at htf
  refine ⟨hne, ?_, ⟨(x.1, { x.2 with audio := name, audioSid := sid, audioSlot := slot }), ?_, hxi⟩,
    fun y hy hi => ?_, hopen⟩
  · change Shelf s.nextCall store.evicted _ store.disk
    rw [hev, ht]
    refine Shelf.write h.shelved (j := k.id) hne (fun g y hy hya => ?_)
      ⟨hxi ▸ h.shelved.below f x hx, hnames,
        fun g y hy hi => ⟨h.shelved.apart f x hx g y hy (hi.trans hxi.symm), hi⟩⟩
      (fun y hy hi => ⟨rfl, fun _ => ⟨[], ?_, ?_⟩⟩) fun m hm => ?_
    · obtain ⟨j, -, hj, hown⟩ := h.shelved.owned g y hy (hya ▸ hne)
      obtain rfl := (hya ▸ hj).inj hnames
      obtain ⟨hg, hid⟩ := hown f x hx hxi
      exact ⟨hg.symm, hid.symm.trans hxi⟩
    · rw [hdisk, SortedMap.find?_insert_self]
    · exact (h.shelved.clean f y hy ((hk.audio y hy hi).trans ha) (hk.noAudio y hy hi)).symm
    · rw [hdisk]
      exact SortedMap.find?_insert_ne _ _ hm
  · change _ ∈ AssocModel.tapes _ f
    rw [htf, ← hxi]
    exact mem_retaped hx fun r => { r with audio := name, audioSid := sid, audioSlot := slot }
  · change y ∈ AssocModel.tapes _ f at hy
    rw [htf] at hy
    rcases of_mem_retaped hy with ⟨-, hyne⟩ | ⟨y₀, -, -, rfl⟩
    · exact absurd hi hyne
    · rfl

/-- The held audio goes first into a new file. -/
theorem Writing.openRecording {k : Call} {slot : ℤ} {store : CallAudioStore}
    (h : ({ s with store := store }.onSound sid k.id fun r =>
      { r with audio := name, audioSid := sid, audioSlot := slot }).Writing sid k.id name)
    (hne : name ≠ []) (held : List Preroll) :
    (s.openRecording sid k slot store name held now).Writing sid k.id name := by
  have hpours : ∀ (held : List Preroll) (s : AssocModel), s.Writing sid k.id name →
      (held.foldl (fun s h => s.pour sid k.id name h.pcm now) s).Writing sid k.id name := by
    intro held
    induction held with
    | nil => exact fun _ h => h
    | cons p held ih => exact fun s h => ih _ (h.pour hne p.pcm now)
  set s₁ := { s with store := store }.onSound sid k.id fun r =>
    { r with audio := name, audioSid := sid, audioSlot := slot }
  obtain ⟨hkeep, hst⟩ := still_setKeep s₁ sid k.id true now
  have h₂ := h.still hkeep (congrArg _ hst) rfl
  have h₃ := hpours held _ h₂
  refine h₃.still (.of_fams rfl rfl rfl) rfl ?_
  change ((AssocModel.setCtx _ sid (clearHeld _ slot)).ctx sid).family = _
  rw [ctx_setCtx]
  rfl

/-- A call takes a block of a stream, on an audio slot, in the file it has. -/
def Takes (sid : ℕ) (slot : ℤ) (keyed : Bool) (k : Call) : Prop :=
  k.sound.audio ≠ [] ∧ ¬k.sound.noAudio ∧ ¬(k.encrypted ∧ ¬keyed) ∧
    ¬(k.sound.audioSid ≠ sid ∨ (k.sound.audioSlot ≠ slot ∧ k.sound.audioSlot ≠ 0 ∧ slot ≠ 0))

instance (sid : ℕ) (slot : ℤ) (keyed : Bool) (k : Call) : Decidable (Takes sid slot keyed k) :=
  inferInstanceAs (Decidable (_ ∧ _))

/-- A block is stored, in the file of its call or in a new one. -/
theorem Filed.storeBlock (h : s.Filed) {k : Call} (hk : s.Notes sid k) {slot : ℤ}
    {pcm : List Sample} {creatable : Bool}
    (ho : k.sound.audio ≠ [] → ¬(k.sound.audioSid ≠ sid ∨ (k.sound.audioSlot ≠ slot ∧
      k.sound.audioSlot ≠ 0 ∧ slot ≠ 0)) → s.store.opened.contains k.sound.audio = true) :
    (s.storeBlock sid k slot pcm creatable now).Filed := by
  rw [AssocModel.storeBlock]
  dsimp only
  split_ifs with ha haud hmis hslot
  · exact h
  · split
    · exact h
    · next store hst =>
      obtain ⟨hne, hw⟩ := h.writing hk ha hst slot
      exact (hw.openRecording hne _).appendBlock hne pcm now
  · exact h
  · have h₁ := h.mark sid k.id (g := fun r => { r with audioSlot := slot }) fun _ =>
      ⟨rfl, rfl, fun hn => hn⟩
    have hk₁ : (s.onSound sid k.id fun r => { r with audioSlot := slot }).Notes sid k :=
      hk.mark fun _ => ⟨rfl, rfl⟩
    exact Writing.appendBlock ⟨h₁.shelved, hk₁.named, hk₁.audio, ho ha hmis⟩ ha pcm now
  · exact Writing.appendBlock ⟨h.shelved, hk.named, hk.audio, ho ha hmis⟩ ha pcm now

/-- A block passes the gate and is stored, or waits before it. -/
theorem Filed.gateBlock (h : s.Filed) (hi : s.Inv L) {k : Call}
    (hk : k ∈ (s.family (s.ctx sid).family).calls) {slot : ℤ} {pcm : List Sample}
    {keyed creatable : Bool}
    (ho : Takes sid slot keyed k → s.store.opened.contains k.sound.audio = true) :
    (s.gateBlock sid k slot pcm keyed creatable now).Filed := by
  rw [AssocModel.gateBlock]
  dsimp only
  split_ifs with hno henc hkey
  · exact h
  · exact h.refuse hk
  · exact (h.mark sid k.id (g := fun r => { r with keyedAudio := true }) fun _ =>
      ⟨rfl, rfl, fun hn => hn⟩).storeBlock
      ((notes_of_mem hi hk (Bool.eq_false_iff.2 hno)).mark
        (g := fun r => { r with keyedAudio := true })
        fun _ => ⟨rfl, rfl⟩) fun ha hmis => ho ⟨ha, hno, henc, hmis⟩
  · exact h.storeBlock (notes_of_mem hi hk (Bool.eq_false_iff.2 hno)) fun ha hmis =>
      ho ⟨ha, hno, henc, hmis⟩

/-! ## Every input

Inputs other than audio end calls at most.  A block of audio finds its call by slot, by target, or
as a block that strayed from a voice call, and is then stored as above. -/

/-- The call a block goes to, with the slot it counts as: its own, or the voice call it strayed
from. -/
def dest (s : AssocModel) (sid : ℕ) (slot : ℤ) (pcm : List Sample) (now : ℤ) : Option (Call × ℤ) :=
  match s.audioCall sid slot now with
  | none => none
  | some k =>
    if k.data ∧ ¬k.voice then if peak pcm = 0 then none else s.voiceElsewhere sid k now
    else some (k, slot)

/-- The model takes blocks of a session: it records, and the session's stream is live. -/
def listens (s : AssocModel) (sid : ℕ) : Bool :=
  s.audioOn && s.store.on && (s.sess.find? sid).any fun c => c.live && s.fams.contains c.family

/-- **A block for the file of a call finds the file open**: recording was not stopped since the file
was created. -/
def Lands (s : AssocModel) : Op → Prop
  | .audio sid slot pcm keyed _ now => pcm ≠ [] → s.listens sid →
    ∀ d ∈ s.dest sid slot (pcm.map fun x => ⟨x, keyed⟩) now, Takes sid d.2 keyed d.1 →
      s.store.opened.contains d.1.sound.audio
  | _ => True

/-- The fresh call on a slot is a call of the family. -/
theorem mem_freshOn {slot : Bytes} {k : Call} (h : s.freshOn sid slot now = some k) :
    k ∈ (s.family (s.ctx sid).family).calls := by
  rw [freshOn, freshCall] at h
  split at h
  · exact absurd h (Option.some_ne_none k).symm
  · exact (Family.findCall_some (Option.filter_eq_some_iff.1 h).1).1

/-- The later of two calls is one of them. -/
theorem later_or (k x : Option Call) : later k x = k ∨ later k x = x := by
  rcases k with _ | k
  · exact Or.inr rfl
  rcases x with _ | x
  · exact Or.inl rfl
  rw [later]
  split_ifs
  · exact Or.inr rfl
  · exact Or.inl rfl

/-- The call a block belongs to is a call of the family. -/
theorem mem_audioCall {slot : ℤ} {k : Call} (h : s.audioCall sid slot now = some k) :
    k ∈ (s.family (s.ctx sid).family).calls := by
  rw [audioCall] at h
  split_ifs at h
  · split at h
    · next k' hk =>
      obtain rfl := Option.some.inj h
      exact mem_freshOn hk
    · exact mem_freshOn h
  · split at h
    · next k' hk =>
      obtain rfl := Option.some.inj h
      exact mem_freshOn hk
    · exact absurd h (Option.some_ne_none k).symm
  · rcases later_or (later (s.freshOn sid [] now) (s.freshOn sid (lit "1") now))
        (s.freshOn sid (lit "2") now) with
      he | he
    · rw [he] at h
      rcases later_or (s.freshOn sid [] now) (s.freshOn sid (lit "1") now) with he | he
      · exact mem_freshOn (he ▸ h)
      · exact mem_freshOn (he ▸ h)
    · exact mem_freshOn (he ▸ h)

/-- The voice call a block strayed from is a call of the family. -/
theorem mem_voiceElsewhere {k : Call} {d : Call × ℤ} (h : s.voiceElsewhere sid k now = some d) :
    d.1 ∈ (s.family (s.ctx sid).family).calls := by
  have hall : ∀ d ∈ s.voiceElsewhere sid k now, d.1 ∈ (s.family (s.ctx sid).family).calls := by
    rw [voiceElsewhere]
    refine List.foldlRecOn (motive := fun v : Option (Call × ℤ) =>
      ∀ d ∈ v, d.1 ∈ (s.family (s.ctx sid).family).calls) _ _
        (fun _ h => absurd h (Option.not_mem_none _))
      fun v hv e _ d hd => ?_
    split at hd
    · exact hv d hd
    · next x hx =>
      have hmem := mem_freshOn hx
      split_ifs at hd
      · exact hv d hd
      · split at hd
        · rw [Option.mem_some_iff] at hd
          exact hd ▸ hmem
        · split_ifs at hd
          · rw [Option.mem_some_iff] at hd
            exact hd ▸ hmem
          · exact hv d hd
  exact hall d h

/-- **A block of audio keeps the agreement**, when its file is open. -/
theorem Filed.audio (h : s.Filed) (hi : s.Inv L) {slot : ℤ} {pcm : List ℤ} {keyed creatable : Bool}
    (hl : s.Lands (.audio sid slot pcm keyed creatable now)) :
    (s.audio sid slot pcm keyed creatable now).Filed := by
  rw [AssocModel.audio]
  split
  · exact h
  next hoff =>
  split
  · exact h
  next c hc =>
  split
  · exact h
  next hlive =>
  simp only [Bool.or_eq_true, Bool.not_eq_true', not_or, Bool.not_eq_false] at hoff hlive
  have hpcm : pcm ≠ [] := fun he => hoff.1.2 (List.isEmpty_iff.2 he)
  have hlisten : s.listens sid = true := by
    rw [listens, hoff.1.1, hoff.2, hc, Option.any_some, hlive.1, hlive.2]
    rfl
  have hland := hl hpcm hlisten
  rw [dest] at hland
  rw [routeBlock]
  split
  · split
    · exact h
    · exact h.still (.of_fams rfl rfl rfl)
  next k hk =>
  rw [hk] at hland
  dsimp only at hland
  split_ifs at hland ⊢
  · exact h
  · split
    · exact h
    · next v vslot hv => exact h.gateBlock hi (mem_voiceElsewhere hv) (hland _ hv)
  · exact h.gateBlock hi (mem_audioCall hk) (hland _ rfl)

/-- Turning the recording on keeps the agreement: what the store then deletes is noted. -/
theorem Filed.startAudio (h : s.Filed) (listing : List AudioEntry) (cap : ℕ) (maxAge now : ℤ) :
    (s.startAudio listing cap maxAge now).Filed := by
  rw [AssocModel.startAudio]
  split_ifs
  · exact h
  · obtain ⟨hev, hdisk, -⟩ := CallAudioStore.enforce_files
      { s.store with
        on := true
        cap := cap
        maxAge := maxAge
        index := listing
        total := (listing.map AudioEntry.bytes).sum } now
    have h₁ : Shelved { s with store := s.store.enable listing cap maxAge now, audioOn := true } :=
      Shelf.sweep h.shelved hev hdisk
    exact (h₁.reconcile now).still (.of_fams rfl rfl rfl)

/-- Without calls there is nothing to agree. -/
theorem filed_of_blank (hf : s.fams = ∅) (he : s.store.evicted = []) : s.Filed := by
  refine ⟨Shelf.empty fun f => ?_, he⟩
  rw [tapes, family, hf]
  rfl

theorem evicted_finishAll : ∀ (names : List Bytes) (st : CallAudioStore),
    (names.foldl CallAudioStore.finish st).evicted = st.evicted := by
  intro names
  induction names with
  | nil => exact fun _ => rfl
  | cons m names ih => exact fun st => ih (st.finish m)

/-- **Every input keeps the recordings and the files in agreement**, if a block for a call's file
finds it open. -/
theorem Filed.step (h : s.Filed) (hi : s.Inv L) {op : Op} (hl : s.Lands op) :
    (s.stepWith L op).Filed := by
  cases op with
  | begin sid label now family freq => exact (h.wrapUp hi sid _ false).still (.of_fams rfl rfl rfl)
  | retune sid freq now =>
    change (s.retuneStream L sid freq now).Filed
    rw [AssocModel.retuneStream]
    split
    · exact h
    · split_ifs
      · exact h
      · exact (h.wrapUp hi sid _ true).still (.of_fams rfl rfl rfl)
  | event sid ev now => exact h.ingest hi sid ev now
  | audio sid slot pcm keyed creatable now => exact h.audio hi hl
  | finish sid now =>
    have h₁ : (s.record (assoclog.endLine now sid)).Filed := h.still (.of_fams rfl rfl rfl)
    have hi₁ : (s.record (assoclog.endLine now sid)).Inv L := hi.congr rfl rfl
    have h₂ := h₁.closeSessionCalls hi₁ sid
    set s₂ := (s.record (assoclog.endLine now sid)).closeSessionCalls L sid
    have h₃ : Filed { s₂ with sess := s₂.sess.modify sid Ctx.stop } :=
      h₂.still (.of_fams rfl rfl rfl)
    exact (h₃.still (.aside (aside_pruneSession _ sid false))).still (.of_fams rfl rfl rfl)
  | remove sid now => exact (h.wrapUp hi sid _ false).still (.of_fams rfl rfl rfl)
  | clear now => exact filed_of_blank rfl ((evicted_finishAll _ s.store).trans h.quiet)
  | startAudio listing cap maxAge now => exact h.startAudio listing cap maxAge now
  | stopAudio => exact h.still ⟨fun _ => rfl, rfl, rfl, rfl⟩

/-- **The stored sample count**: what a call's record counts is what its file holds. -/
def SamplesStored (s : AssocModel) : Prop := ∀ f, ∀ k ∈ (s.family f).calls, k.sound.audio ≠ [] →
  (s.store.disk.find? k.sound.audio).map List.length = some k.sound.audioSamples

/-- Where recordings and files agree, the counts are those of the files. -/
theorem Filed.samplesStored (h : s.Filed) : s.SamplesStored := fun f k hk ha => by
  obtain ⟨l, hl, hlen⟩ := h.shelved.stored f _ (Family.mem_tapes hk) ha fun hm => by
    rw [h.quiet] at hm
    exact List.not_mem_nil hm
  rw [hl]
  exact congrArg some hlen

/-- **The agreement along a run**, input by input. -/
theorem filed_run : ∀ {ops : List Op} {s : AssocModel}, s.Filed → (∀ n, s.Inv (.standard n)) →
    Along Lands s ops → (s.run ops).Filed := by
  intro ops
  induction ops with
  | nil => exact fun h _ _ => h
  | cons op ops ih =>
    intro s h hi hl
    exact ih (h.step (hi s.maxCalls) hl.1) (fun n => ((hi s.maxCalls).step op).standard n) hl.2

/-- **A call's sample count is that of its file**, in every state of a run in which every block for
the file of a call finds the file open. -/
theorem samples_stored {s : AssocModel} (hf : s.fams = ∅) (he : s.store.evicted = [])
    {ops : List Op} (hl : Along Lands s ops) : (s.run ops).SamplesStored :=
  (filed_run (filed_of_blank hf he) (fun _ => .blank hf _) hl).samplesStored

instance (s : AssocModel) : ∀ op, Decidable (Lands s op)
  | .audio sid slot pcm keyed _ now =>
    inferInstanceAs (Decidable (pcm ≠ [] → s.listens sid = true →
      ∀ d ∈ s.dest sid slot (pcm.map fun x => ⟨x, keyed⟩) now, Takes sid d.2 keyed d.1 →
        s.store.opened.contains d.1.sound.audio = true))
  | .begin .. => isTrue trivial
  | .retune .. => isTrue trivial
  | .event .. => isTrue trivial
  | .finish .. => isTrue trivial
  | .remove .. => isTrue trivial
  | .clear .. => isTrue trivial
  | .startAudio .. => isTrue trivial
  | .stopAudio => isTrue trivial

/-- Voice on a slot. -/
def slotVoice : DsdEvent :=
  { kind := lit "voice", talkgroup := lit "9", sourceId := lit "7", slot := lit "1" }

/-- A block is held before its call is heard, and two go to its file. -/
def heldRun : List Op :=
  [.startAudio [] 1000000 0 1, .begin 1 (lit "dmr") 2 [] 100,
    .event 1 { slotVoice with slot := lit "2" } 3,
    .audio 1 1 [900] false true 4, .event 1 slotVoice 5, .audio 1 1 [1000, 1000] false true 6,
    .audio 1 1 [1000] false true 7]

theorem samples_stored_heldRun : (({} : AssocModel).run heldRun).SamplesStored ∧
    ((({} : AssocModel).run heldRun).store.disk.find? (lit "call_5_x_2.wav")).map
      List.length = some 4 :=
  ⟨samples_stored rfl rfl (by decide +kernel), by decide +kernel⟩

/-- Recording is stopped and started again, in the same folder, in the middle of a call. -/
def toggledRun : List Op :=
  [.startAudio [] 1000000 0 1, .begin 1 (lit "dmr") 2 [] 100, .event 1 slotVoice 3,
    .audio 1 1 [1000] false true 4, .stopAudio,
    .startAudio [⟨lit "call_3_x_1.wav", 46, 0⟩] 1000000 0 5, .audio 1 1 [1000] false true 6]

/-- **A call whose recording was stopped and started again counts samples that are stored
nowhere.** -/
theorem toggle_loses_samples :
    ¬∀ (s : AssocModel) (ops : List Op), s.fams = ∅ → s.store.evicted = [] →
    (s.run ops).SamplesStored := by
  intro h
  have hbad : ∃ k ∈ ((({} : AssocModel).run toggledRun).family (lit "dmr")).calls,
      k.sound.audio ≠ [] ∧
      ((({} : AssocModel).run toggledRun).store.disk.find? k.sound.audio).map List.length ≠
        some k.sound.audioSamples := by
    decide +kernel
  obtain ⟨k, hk, ha, hne⟩ := hbad
  exact hne (h {} toggledRun rfl rfl (lit "dmr") k hk ha)

end AssocModel

end DsdServer
