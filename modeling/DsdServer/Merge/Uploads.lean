import DsdServer.Json.RoundTrip
import DsdServer.Merge.Layers

/-!
# Merge/Uploads — an imported call plays the file its export named

What a layer's calls play follows from two things: the file each call's export named, and the files
uploaded for the layer.

* `imported_audio_exact` — **every call of a held layer plays exactly the file it wants, once that
  is uploaded for the layer**; no upload changes anything else.

What was uploaded is kept as a history beside the view, and the invariant says of every call of a
held layer that its file is there exactly if it is in that history.  Layers that join, leave or are
replaced bring their own calls and take their uploads with them; an upload changes the calls of one
layer that want the file.
-/

open Bytes

namespace DsdServer

/-! ## Names

The name a file is played under has the layer's number in it and the name the export gave. -/

/-- Numbers are told apart by their digits. -/
theorem dec_injective {m n : ℕ} (h : dec m = dec n) : m = n := by
  rw [← mjson.natOf_dec m, h, mjson.natOf_dec]

/-- Two files of one layer are played under two names. -/
theorem servedName_injective {id : ℕ} {b b' : Bytes} (h : servedName id b = servedName id b') :
    b = b' :=
  List.append_cancel_left h

/-! ## What a layer plays

What a layer would play is a function of the files there are for it: a call plays its file if that
is there, and nothing else.  A layer as it stands is always that function of its files. -/

/-- A call as it plays: the file its export named, once uploaded. -/
def DsCall.playing (id : ℕ) (files : SortedMap Bytes ℕ) (c : DsCall) : DsCall :=
  let base := importAudioBase c.audio
  if base ≠ [] ∧ servedName id base ∈ files then { c with audio := servedName id base }
  else c.silence

/-- **A layer as it plays**, from the layer as its export named the files. -/
def playingLayer (files : SortedMap Bytes ℕ) (y : Dataset) : Dataset :=
  { y with
    fams := y.fams.mapVal fun _ F => { F with calls := F.calls.map (DsCall.playing y.id files) } }

theorem silenceLayer_eq (y : Dataset) : silenceLayer y = playingLayer ∅ y := by
  have hc : DsCall.playing y.id ∅ = DsCall.silence := funext fun c =>
    if_neg fun h => SortedMap.not_mem_empty _ h.2
  rw [silenceLayer, playingLayer, hc]

/-- What a call plays does not change its number. -/
theorem id_playing (id : ℕ) (files : SortedMap Bytes ℕ) (c : DsCall) :
    (c.playing id files).id = c.id := by
  rw [DsCall.playing]
  split_ifs <;> rfl

/-- The calls of each family have ids of their own. -/
def Dataset.Numbered (y : Dataset) : Prop :=
  ∀ f F, y.fams.find? f = some F → (F.calls.map (·.id)).Nodup

/-- A new layer has its calls numbered. -/
theorem numbered_numberLayer (id maxCalls : ℕ) (x : Dataset) :
    (numberLayer id maxCalls x).Numbered := by
  intro f F hF
  rw [numberLayer, SortedMap.find?_mapVal] at hF
  obtain ⟨G, -, rfl⟩ := Option.map_eq_some_iff.1 hF
  dsimp only
  set calls := capCalls (G.calls.mergeSort fun a b => decide (b.start ≤ a.start)) maxCalls
  rw [List.nodup_iff_getElem?_ne_getElem?]
  intro i j hij hj
  rw [List.length_map, List.length_mapIdx] at hj
  rw [List.getElem?_map, List.getElem?_map, List.getElem?_mapIdx, List.getElem?_mapIdx,
    List.getElem?_eq_getElem (hij.trans hj), List.getElem?_eq_getElem hj]
  intro h
  have := Option.some.inj h
  dsimp only at this
  omega

/-! ## Which calls want a file

When a layer joins, a table is made of which calls want which file.  Several calls may want one. -/

/-- A call's wish, for the file of a name. -/
def Wants (y : Dataset) (b : Bytes) (w : AudioWant) : Prop :=
  b ≠ [] ∧ ∃ F, y.fams.find? w.fam = some F ∧
    ∃ c ∈ F.calls, importAudioBase c.audio = b ∧ w.call = c.id ∧ w.ms = c.audioMs

/-- What a call adds to the table of wanted files. -/
theorem mem_addWant {f : Bytes} {want : SortedMap Bytes (List AudioWant)} {c : DsCall} {b : Bytes}
    {w : AudioWant} : w ∈ (addWant f want c).getD b [] ↔ w ∈ want.getD b [] ∨
      (b ≠ [] ∧ importAudioBase c.audio = b ∧ w = ⟨f, c.id, c.audioMs⟩) := by
  rw [addWant]
  by_cases hb : importAudioBase c.audio = []
  · rw [if_pos hb]
    refine (or_iff_left fun h => ?_).symm
    exact h.1 (h.2.1 ▸ hb)
  · rw [if_neg hb, SortedMap.getD_insert]
    by_cases he : b = importAudioBase c.audio
    · rw [if_pos he, List.mem_append, List.mem_singleton, he]
      exact or_congr_right ⟨fun h => ⟨hb, rfl, h⟩, fun h => h.2.2⟩
    · rw [if_neg he]
      exact (or_iff_left fun h => he h.2.1.symm).symm

/-- The wanted files of a list of calls. -/
theorem mem_foldl_addWant {f : Bytes} {b : Bytes} {w : AudioWant} {l : List DsCall} :
    ∀ {want : SortedMap Bytes (List AudioWant)}, w ∈ (l.foldl (addWant f) want).getD b [] ↔
      w ∈ want.getD b [] ∨
        ∃ c ∈ l, b ≠ [] ∧ importAudioBase c.audio = b ∧ w = ⟨f, c.id, c.audioMs⟩ := by
  induction l with
  | nil =>
    exact fun {_} => ⟨Or.inl, fun h => h.elim id fun ⟨_, hc, _⟩ => absurd hc List.not_mem_nil⟩
  | cons c l ih =>
    intro want
    rw [List.foldl_cons, ih, mem_addWant, or_assoc, List.exists_mem_cons_iff]

/-- **A layer's wishes** are its calls'. -/
theorem mem_layerWants {y : Dataset} {b : Bytes} {w : AudioWant} :
    w ∈ (layerWants y).getD b [] ↔ Wants y b w := by
  have h : ∀ (l : List (Bytes × DsFamily)) (want : SortedMap Bytes (List AudioWant)),
      w ∈ (l.foldl (fun want fk => fk.2.calls.foldl (addWant fk.1) want) want).getD b [] ↔
        w ∈ want.getD b [] ∨ ∃ e ∈ l, ∃ c ∈ e.2.calls,
          b ≠ [] ∧ importAudioBase c.audio = b ∧ w = ⟨e.1, c.id, c.audioMs⟩ := fun l => by
    induction l with
    | nil =>
      exact fun _ => ⟨Or.inl, fun h => h.elim id fun ⟨_, hc, _⟩ => absurd hc List.not_mem_nil⟩
    | cons e l ih =>
      intro want
      rw [List.foldl_cons, ih, mem_foldl_addWant, or_assoc, List.exists_mem_cons_iff]
  rw [layerWants, h, Wants]
  constructor
  · rintro (hw | ⟨e, he, c, hc, hb, ha, rfl⟩)
    · exact absurd hw List.not_mem_nil
    · exact ⟨hb, e.2, SortedMap.find?_eq_some_iff.2 he, c, hc, ha, rfl, rfl⟩
  · rintro ⟨hb, F, hF, c, hc, ha, h₁, h₂⟩
    exact Or.inr ⟨(w.fam, F), SortedMap.find?_eq_some_iff.1 hF, c, hc, hb, ha, by rw [← h₁, ← h₂]⟩

/-! ## Attaching a file

Attaching goes through the calls that want the file and sets what they play.  By the table, these
are the calls whose export named it. -/

/-- A call, after these wishes. -/
def playCall (served f : Bytes) (c : DsCall) (w : AudioWant) : DsCall :=
  if f = w.fam ∧ c.id = w.call then { c with audio := served, audioMs := w.ms } else c

/-- All calls that want a file get it. -/
theorem foldl_playWant (served : Bytes) (wants : List AudioWant) : ∀ x : Dataset,
    wants.foldl (playWant served) x =
      { x with
        fams := x.fams.mapVal fun f F =>
          { F with calls := F.calls.map fun c => wants.foldl (playCall served f) c } } := by
  induction wants with
  | nil =>
    intro x
    have h : (x.fams.mapVal fun f F => { F with calls := F.calls.map fun c => c }) = x.fams :=
      SortedMap.ext_find? fun f => by
        rw [SortedMap.find?_mapVal]
        cases x.fams.find? f with
        | none => rfl
        | some F => simp
    exact congrArg (fun m => { x with fams := m }) h.symm
  | cons w wants ih =>
    intro x
    rw [List.foldl_cons, ih, playWant]
    dsimp only
    congr 1
    refine SortedMap.ext_find? fun f => ?_
    rw [SortedMap.find?_mapVal, SortedMap.find?_modify, SortedMap.find?_mapVal]
    rcases x.fams.find? f with _ | F
    · split_ifs <;> rfl
    · split_ifs with hf
      · simp only [Option.map_some, List.map_map, List.foldl_cons, Option.some.injEq,
          DsFamily.mk.injEq, true_and]
        refine List.map_congr_left fun c _ => ?_
        simp only [Function.comp_apply, playCall, hf, true_and]
      · simp only [Option.map_some, List.foldl_cons, playCall, hf, false_and, if_false]

/-- What becomes of a call that all the wishes for it agree on. -/
theorem foldl_playCall {served f : Bytes} {m : ℕ} {wants : List AudioWant} : ∀ {c : DsCall},
    (∀ w ∈ wants, f = w.fam → c.id = w.call → w.ms = m) →
    (∃ w ∈ wants, f = w.fam ∧ c.id = w.call) ∧
        wants.foldl (playCall served f) c = { c with audio := served, audioMs := m } ∨
      (¬∃ w ∈ wants, f = w.fam ∧ c.id = w.call) ∧ wants.foldl (playCall served f) c = c := by
  induction wants with
  | nil => exact fun _ => Or.inr ⟨fun ⟨_, h, _⟩ => absurd h List.not_mem_nil, rfl⟩
  | cons w wants ih =>
    intro c h
    rw [List.foldl_cons, List.exists_mem_cons_iff]
    have hrest : ∀ w ∈ wants, f = w.fam → c.id = w.call → w.ms = m :=
      fun w' hw' => h w' (List.mem_cons_of_mem w hw')
    by_cases hw : f = w.fam ∧ c.id = w.call
    · rw [playCall, if_pos hw, h w List.mem_cons_self hw.1 hw.2]
      refine Or.inl ⟨Or.inl hw, ?_⟩
      rcases ih (c := { c with audio := served, audioMs := m }) hrest with h' | h'
      · exact h'.2
      · exact h'.2
    · rw [playCall, if_neg hw]
      rcases ih hrest with h' | h'
      · exact Or.inl ⟨Or.inr h'.1, h'.2⟩
      · exact Or.inr ⟨fun hor => hor.elim hw h'.1, h'.2⟩

/-- **Attaching a file makes exactly the calls that want it play it.** -/
theorem playWant_playingLayer {y : Dataset} (hy : y.Numbered) (files : SortedMap Bytes ℕ)
    {b : Bytes} (hb : b ≠ []) (size : ℕ) :
    ((layerWants y).getD b []).foldl (playWant (servedName y.id b)) (playingLayer files y) =
      playingLayer (files.insert (servedName y.id b) size) y := by
  rw [foldl_playWant]
  refine congrArg (fun m => { y with fams := m }) (SortedMap.ext_find? fun f => ?_)
  dsimp only [playingLayer]
  rw [SortedMap.find?_mapVal, SortedMap.find?_mapVal, SortedMap.find?_mapVal]
  rcases hF : y.fams.find? f with _ | F
  · rfl
  simp only [Option.map_some, List.map_map, Option.some.injEq, DsFamily.mk.injEq, true_and]
  refine List.map_congr_left fun c hc => ?_
  rw [Function.comp_apply]
  -- the wishes for this call are the ones of its export
  have hwish : ∀ w ∈ (layerWants y).getD b [], f = w.fam → (c.playing y.id files).id = w.call →
      w.ms = c.audioMs ∧ importAudioBase c.audio = b := by
    intro w hw hfw hid
    obtain ⟨-, G, hG, c', hc', ha, h₁, h₂⟩ := mem_layerWants.1 hw
    rw [← hfw, hF] at hG
    cases hG
    rw [id_playing, h₁] at hid
    obtain rfl := List.inj_on_of_nodup_map (hy f F hF) hc hc' hid
    exact ⟨h₂, ha⟩
  rcases foldl_playCall fun w hw hfw hid => (hwish w hw hfw hid).1 with
    ⟨⟨w, hw, hfw, hid⟩, he⟩ | ⟨hno, he⟩
  · have ha := (hwish w hw hfw hid).2
    have hnew : c.playing y.id (files.insert (servedName y.id b) size) =
        { c with audio := servedName y.id b } := by
      rw [DsCall.playing, ha]
      exact if_pos ⟨hb, SortedMap.mem_insert.2 (Or.inl rfl)⟩
    rw [he, hnew, DsCall.playing]
    split_ifs <;> rfl
  · rw [he]
    have ha : importAudioBase c.audio ≠ b := fun ha => by
      refine hno ⟨⟨f, c.id, c.audioMs⟩, mem_layerWants.2 ⟨hb, F, hF, c, hc, ha, rfl, rfl⟩, rfl, ?_⟩
      exact id_playing ..
    rw [DsCall.playing, DsCall.playing]
    have hmem : servedName y.id (importAudioBase c.audio) ∈ files.insert (servedName y.id b) size ↔
        servedName y.id (importAudioBase c.audio) ∈ files := by
      rw [SortedMap.mem_insert]
      exact or_iff_right fun h => ha (servedName_injective h)
    simp only [hmem]

/-! ## Dropping and replacing

Layers go by themselves, by being replaced, and all at once.  In each case their files go, and those
of other layers stay. -/

namespace Importing

variable {s : Importing}

/-- The files uploaded for an import. -/
def filesOf (s : Importing) (id : ℕ) : SortedMap Bytes ℕ := (s.model.importAudio.getD id {}).files

/-- Everything but the imports' audio and its folder is as before. -/
structure SameLayers (s s' : Importing) : Prop where
  model : ∃ a, s'.model = { s.model with importAudio := a }
  flights : s'.flights = s.flights
  root : s'.root = s.root
  cap : s'.cap = s.cap

namespace SameLayers

variable {s' s'' : Importing}

theorem refl (s : Importing) : SameLayers s s := ⟨⟨_, rfl⟩, rfl, rfl, rfl⟩

theorem trans (h : SameLayers s s') (h' : SameLayers s' s'') : SameLayers s s'' := by
  obtain ⟨⟨a, ha⟩, h₁, h₂, h₃⟩ := h
  obtain ⟨⟨b, hb⟩, h₄, h₅, h₆⟩ := h'
  exact ⟨⟨b, by rw [hb, ha]⟩, h₄.trans h₁, h₅.trans h₂, h₆.trans h₃⟩

theorem imports (h : SameLayers s s') : s'.model.imports = s.model.imports := by
  obtain ⟨a, ha⟩ := h.model
  rw [ha]

theorem nextImport (h : SameLayers s s') : s'.model.nextImport = s.model.nextImport := by
  obtain ⟨a, ha⟩ := h.model
  rw [ha]

theorem maxCalls (h : SameLayers s s') : s'.model.maxCalls = s.model.maxCalls := by
  obtain ⟨a, ha⟩ := h.model
  rw [ha]

end SameLayers

/-- An import's audio goes, and no other's. -/
theorem dropImportAudio_spec (s : Importing) (id : ℕ) : SameLayers s (s.dropImportAudio id) ∧
    ∀ k, (s.dropImportAudio id).model.importAudio.find? k =
      if k = id then none else s.model.importAudio.find? k := by
  rw [dropImportAudio]
  by_cases h : id ∈ s.model.importAudio
  · rw [if_neg fun hn => hn h]
    exact ⟨⟨⟨_, rfl⟩, rfl, rfl, rfl⟩, fun k => SortedMap.find?_erase ..⟩
  · rw [if_pos h]
    refine ⟨.refl s, fun k => ?_⟩
    split_ifs with hk
    · exact hk ▸ SortedMap.find?_eq_none_iff.2 h
    · rfl

/-- Dropping the files of several layers. -/
theorem foldl_dropImportAudio (l : List ℕ) :
    ∀ s : Importing, SameLayers s (l.foldl dropImportAudio s) ∧
    ∀ k, (l.foldl dropImportAudio s).model.importAudio.find? k =
      if k ∈ l then none else s.model.importAudio.find? k := by
  induction l with
  | nil => exact fun s => ⟨.refl s, fun k => (if_neg List.not_mem_nil).symm⟩
  | cons id l ih =>
    intro s
    obtain ⟨h₁, h₂⟩ := s.dropImportAudio_spec id
    obtain ⟨h₃, h₄⟩ := ih (s.dropImportAudio id)
    refine ⟨h₁.trans h₃, fun k => ?_⟩
    rw [List.foldl_cons, h₄, h₂]
    by_cases hk : k = id
    · simp only [hk, if_true, ite_self, List.mem_cons, true_or]
    · simp only [hk, if_false, List.mem_cons, false_or]

/-- Dropping all files leaves the layers. -/
theorem dropAllImportAudio_spec (s : Importing) : SameLayers s s.dropAllImportAudio ∧
    ∀ k, s.dropAllImportAudio.model.importAudio.find? k = none := by
  obtain ⟨h₁, h₂⟩ := foldl_dropImportAudio s.model.importAudio.keys s
  refine ⟨h₁, fun k => (h₂ k).trans ?_⟩
  split_ifs with hk
  · rfl
  · exact SortedMap.find?_eq_none_iff.2 hk

end Importing

/-- The layers an export joins, and those it replaces, are the ones held. -/
theorem judgeLayers_add {x : Dataset} {layers : List Dataset} : ∀ {keeps replaces : List Dataset},
    judgeLayers x layers = .add keeps replaces → (keeps ++ replaces).Perm layers := by
  induction layers with
  | nil =>
    intro keeps replaces h
    cases h
    exact .nil
  | cons l layers ih =>
    intro keeps replaces h
    rw [judgeLayers] at h
    rcases hj : judgeLayers x layers with ⟨k, r⟩ | why | why
    · rw [hj] at h
      split_ifs at h
      · cases h
        exact List.perm_middle.trans ((ih hj).cons l)
      · cases h
        exact (ih hj).cons l
    · rw [hj] at h
      split_ifs at h
    · rw [hj] at h
      split_ifs at h

/-- The layers are kept or replaced, each of them one or the other. -/
theorem judge_add {x : Dataset} {layers keeps replaces : List Dataset}
    {live : Option (List DsSource)} (h : judge x layers live = .add keeps replaces) :
    (keeps ++ replaces).Perm layers := by
  rw [judge] at h
  split_ifs at h
  · split at h <;> cases h
  · exact judgeLayers_add h

/-! ## What happened

An observer notes which exports were accepted, under which number, and which uploads were written
while their layer was held.  The layers are compared with these notes. -/

/-- **What was imported and uploaded so far**: each accepted export's layer, as the export named its
calls' audio; and the files uploaded, each for an import that was held then. -/
structure ImportHistory where
  origins : SortedMap ℕ Dataset := ∅
  uploaded : List Upload := []

namespace Importing

variable (inflate : Bytes → Option Bytes)

/-- The layer an export would become, when it is accepted: its calls still name their audio. -/
def accepted (s : Importing) (text label : Bytes) (now : ℤ) : Option Dataset :=
  match datasetFromExportText inflate text label ⟨s.model.perReceiver, s.model.name⟩ with
  | .error _ => none
  | .ok x =>
    match judge x s.model.imports (some [s.liveSource now]) with
    | .add _ _ => some (numberLayer (s.model.nextImport + 1) s.model.maxCalls
        { x with exported := if x.exported ≠ 0 then x.exported else now })
    | _ => none

/-- The upload that an input ends: its file is written, and its import is still held. -/
def uploaded (s : Importing) (i : ℕ) (written : Bool) : Option Upload :=
  (s.flights[i]?).filter fun u => written && s.model.imports.any fun x => x.id = u.id

/-- **An upload that passes its check** is of a file some call of the import wants, not uploaded
yet, and fits. -/
theorem checkUpload_ok {s : Importing} {id : ℕ} {name data : Bytes} {u : Upload}
    (h : s.checkUpload id name data = .ok u) :
    u = ⟨id, importAudioBase name, data.length⟩ ∧ CallAudioStore.validName u.base ∧
      u.id ∈ s.model.importAudio ∧ s.importAudioBytes + u.size ≤ s.cap := by
  rw [checkUpload] at h
  by_cases hr : s.root = []
  · rw [if_pos hr] at h
    cases h
  rw [if_neg hr] at h
  rcases hf : s.model.importAudio.find? id with _ | ia
  · rw [hf] at h
    cases h
  rw [hf] at h
  dsimp only at h
  by_cases h₁ : importAudioBase name = [] ∨ importAudioBase name ∉ ia.want
  · rw [if_pos h₁] at h
    cases h
  rw [if_neg h₁] at h
  by_cases h₂ : servedName id (importAudioBase name) ∈ ia.files
  · rw [if_pos h₂] at h
    cases h
  rw [if_neg h₂] at h
  by_cases h₃ : isWav data = true
  · rw [if_neg (not_not.2 h₃)] at h
    split_ifs at h with h₄
    cases h
    rw [not_or] at h₁
    refine ⟨rfl, ?_, SortedMap.mem_of_find? hf, not_lt.1 h₄⟩
    have hb := h₁.1
    rw [importAudioBase] at hb ⊢
    dsimp only at hb ⊢
    split_ifs at hb ⊢ with hv
    · exact hv
    · exact absurd rfl hb
  · rw [if_pos h₃] at h
    cases h

/-- An input more in the history. -/
def record (s : Importing) (h : ImportHistory) : ImportOp → ImportHistory
  | .importExport text label now =>
    match s.accepted inflate text label now with
    | none => h
    | some y => { h with origins := h.origins.insert y.id y }
  | .endUpload i written => { h with uploaded := h.uploaded ++ (s.uploaded i written).toList }
  | _ => h

/-- A run with its history. -/
def track (x : Importing × ImportHistory) (op : ImportOp) : Importing × ImportHistory :=
  (x.1.step inflate op, x.1.record inflate x.2 op)

/-- The layer as it joins: numbered anew. -/
def joining (s : Importing) (x : Dataset) (now : ℤ) : Dataset :=
  numberLayer (s.model.nextImport + 1) s.model.maxCalls { x with exported := if x.exported ≠ 0 then
    x.exported else now }

/-- What joining a layer leaves, and what it adds. -/
theorem addLayer_frame (s : Importing) (x : Dataset) (keeps replaces : List Dataset) (now : ℤ) :
    (s.addLayer x keeps replaces now).model.imports = keeps ++ [silenceLayer (joining s x now)] ∧
      (s.addLayer x keeps replaces now).model.nextImport = s.model.nextImport + 1 ∧
      (s.addLayer x keeps replaces now).flights = s.flights := by
  obtain ⟨hs, -⟩ := foldl_dropImportAudio (replaces.map (·.id)).reverse s
  rw [Importing.addLayer]
  dsimp only
  rw [hs.nextImport, hs.maxCalls]
  exact ⟨rfl, rfl, hs.flights⟩

/-- A file is noted with its layer, whose calls that want it play it. -/
def withFile (s : Importing) (u : Upload) (ia : ImportAudio) : Importing :=
  { s with
    model := { s.model with
      importAudio :=
        s.model.importAudio.insert u.id { ia with files := ia.files.insert u.served u.size }
      imports := s.model.imports.map fun x =>
        if x.id = u.id then (ia.want.getD u.base []).foldl (playWant u.served) x else x
      version := s.model.version + 1 } }

/-- **What attaching a file does**: its layer may be gone, or have the file; else the file is
noted. -/
theorem attach_cases (s : Importing) (u : Upload) :
    ((s.model.importAudio.find? u.id = none ∨ ¬∃ x ∈ s.model.imports, x.id = u.id) ∧
      ∃ disk, (s.attach u).1 = { s with disk := disk }) ∨
    ∃ ia, s.model.importAudio.find? u.id = some ia ∧ (∃ x ∈ s.model.imports, x.id = u.id) ∧
      (u.served ∈ ia.files ∧ (s.attach u).1 = s ∨ u.served ∉ ia.files ∧
        (s.attach u).1 = s.withFile u ia) := by
  rcases hf : s.model.importAudio.find? u.id with _ | ia
  · exact Or.inl ⟨Or.inl rfl, s.disk.modify u.id fun folder => folder.erase u.served,
      by simp only [attach, hf]⟩
  rcases hd : s.model.imports.find? fun x => x.id = u.id with _ | d
  · refine Or.inl ⟨Or.inr ?_, s.disk.modify u.id fun folder => folder.erase u.served,
      by simp only [attach, hf, hd]⟩
    rintro ⟨x, hx, hxu⟩
    exact absurd (List.find?_eq_none.1 hd x hx) (by simpa using hxu)
  · refine Or.inr
      ⟨ia, rfl, ⟨d, List.mem_of_find?_eq_some hd, by simpa using List.find?_some hd⟩, ?_⟩
    by_cases hin : u.served ∈ ia.files
    · exact Or.inl ⟨hin, by simp only [attach, hf, hd, if_pos hin]⟩
    · exact Or.inr ⟨hin, by simp only [attach, hf, hd, if_neg hin, withFile]⟩

section

variable {s : Importing} {u : Upload} {ia : ImportAudio}

/-- The layers keep their ids. -/
theorem mem_imports_withFile {x : Dataset} (hx : x ∈ (s.withFile u ia).model.imports) :
    ∃ z ∈ s.model.imports, x.id = z.id ∧
      x = if z.id = u.id then (ia.want.getD u.base []).foldl (playWant u.served) z else z := by
  obtain ⟨z, hz, rfl⟩ := List.mem_map.1 hx
  refine ⟨z, hz, ?_, rfl⟩
  rw [foldl_playWant]
  split_ifs <;> rfl

/-- Attaching a file leaves the layers in their order. -/
theorem ids_withFile : (s.withFile u ia).model.imports.map (·.id) = s.model.imports.map (·.id) := by
  rw [withFile, List.map_map]
  refine List.map_congr_left fun z _ => ?_
  rw [Function.comp_apply, foldl_playWant]
  split_ifs <;> rfl

/-- The files of the layers after one is attached. -/
theorem filesOf_withFile (hf : s.model.importAudio.find? u.id = some ia) (k : ℕ) :
    (s.withFile u ia).filesOf k = if k = u.id then (s.filesOf u.id).insert u.served u.size
      else s.filesOf k := by
  rw [filesOf, withFile]
  dsimp only
  rw [SortedMap.getD_insert, filesOf, filesOf, SortedMap.getD_of_find? hf]
  split_ifs <;> rfl

end

/-- **Everything a held layer plays is accounted for** by its export and the uploads. -/
structure Accounted (s : Importing) (h : ImportHistory) : Prop where
  ids : (s.model.imports.map (·.id)).Nodup
  below : ∀ x ∈ s.model.imports, x.id ≤ s.model.nextImport
  audio : ∀ id ia, s.model.importAudio.find? id = some ia → ∃ x ∈ s.model.imports, x.id = id
  flights : ∀ u ∈ s.flights, u.base ≠ [] ∧ CallAudioStore.validName u.base
  /-- an upload's import is an earlier one, and wants audio as long as it is held -/
  awaited : ∀ u ∈ s.flights, u.id ≤ s.model.nextImport ∧
    ((∃ x ∈ s.model.imports, x.id = u.id) → u.id ∈ s.model.importAudio)
  uploads : ∀ u ∈ h.uploaded, u.id ≤ s.model.nextImport ∧ CallAudioStore.validName u.base
  files : ∀ x ∈ s.model.imports, ∀ n,
    n ∈ s.filesOf x.id ↔ ∃ u ∈ h.uploaded, u.id = x.id ∧ u.served = n
  layers : ∀ x ∈ s.model.imports, ∃ y, h.origins.find? x.id = some y ∧ y.id = x.id ∧ y.Numbered ∧
    (∀ ia, s.model.importAudio.find? x.id = some ia → ia.want = layerWants y) ∧
    x = playingLayer (s.filesOf x.id) y

namespace Accounted

variable {s s' : Importing} {h : ImportHistory}

/-- Some of the layers remain, with their audio. -/
theorem sub (ha : s.Accounted h) (hi : s'.model.imports.Sublist s.model.imports)
    (hn : s'.model.nextImport = s.model.nextImport)
    (hf : s'.flights = s.flights)
    (hk : ∀ x ∈ s'.model.imports, s'.model.importAudio.find? x.id = s.model.importAudio.find? x.id)
    (hg : ∀ id ia, s'.model.importAudio.find? id = some ia → ∃ x ∈ s'.model.imports, x.id = id) :
    s'.Accounted h := by
  have hfiles : ∀ x ∈ s'.model.imports, s'.filesOf x.id = s.filesOf x.id := fun x hx => by
    rw [filesOf, filesOf, SortedMap.getD, SortedMap.getD, hk x hx]
  exact
    { ids := (hi.map _).nodup ha.ids
      below := fun x hx => hn ▸ ha.below x (hi.subset hx)
      audio := hg
      flights := hf ▸ ha.flights
      awaited := fun u hu => by
        obtain ⟨hle, hin⟩ := ha.awaited u (hf ▸ hu)
        refine ⟨hn ▸ hle, ?_⟩
        rintro ⟨x, hx, hxu⟩
        rw [SortedMap.mem_iff_find?, ← hxu, hk x hx, hxu, ← SortedMap.mem_iff_find?]
        exact hin ⟨x, hi.subset hx, hxu⟩
      uploads := hn ▸ ha.uploads
      files := fun x hx => by
        rw [hfiles x hx]
        exact ha.files x (hi.subset hx)
      layers := fun x hx => by
        rw [hk x hx, hfiles x hx]
        exact ha.layers x (hi.subset hx) }

/-- A server that starts has nothing to account for. -/
theorem start (model : AssocModel) (root : Bytes) (cap : ℕ) :
    (start model root cap).Accounted {} where
  ids := List.nodup_nil
  below _ hx := absurd hx List.not_mem_nil
  audio _ _ hx := nomatch hx
  flights _ hu := absurd hu List.not_mem_nil
  awaited _ hu := absurd hu List.not_mem_nil
  uploads _ hu := absurd hu List.not_mem_nil
  files _ hx := absurd hx List.not_mem_nil
  layers _ hx := absurd hx List.not_mem_nil

theorem removeImport (ha : s.Accounted h) (id : ℕ) : (s.removeImport id).1.Accounted h := by
  rw [Importing.removeImport]
  split_ifs with hany
  · obtain ⟨hs, hd⟩ := s.dropImportAudio_spec id
    have hsub : ((s.dropImportAudio id).model.imports.eraseP fun x => x.id = id).Sublist
        s.model.imports := hs.imports ▸ List.eraseP_sublist
    -- no other layer has the id
    have hne : ∀ x ∈ s.model.imports, x.id ≠ id →
        x ∈ (s.dropImportAudio id).model.imports.eraseP fun x => x.id = id := fun x hx hne => by
      rw [hs.imports]
      exact (List.mem_eraseP_of_neg (by simpa using hne)).2 hx
    have hgone : ∀ x ∈ (s.dropImportAudio id).model.imports.eraseP fun x => x.id = id,
        x.id ≠ id := by
      rw [hs.imports]
      obtain ⟨z, hz, hzid⟩ := List.any_eq_true.1 hany
      obtain ⟨w, l₁, l₂, hl₁, hw, he, he'⟩ :=
        List.exists_of_eraseP (p := fun x : Dataset => decide (x.id = id)) hz hzid
      rw [he']
      have hnd := ha.ids
      rw [he, List.map_append, List.map_cons, List.nodup_middle, List.nodup_cons] at hnd
      rw [decide_eq_true_eq] at hw
      intro x hx hxid
      rw [← List.map_append] at hnd
      exact hnd.1 (hw ▸ hxid ▸ List.mem_map_of_mem hx)
    refine ha.sub hsub hs.nextImport hs.flights (fun x hx => ?_) fun k ia hk => ?_
    · exact (hd x.id).trans (if_neg (hgone x hx))
    · have hk' := (hd k).symm.trans hk
      split_ifs at hk' with hki
      obtain ⟨x, hx, rfl⟩ := ha.audio k ia hk'
      exact ⟨x, hne x hx hki, rfl⟩
  · exact ha

theorem clearImports (ha : s.Accounted h) : s.clearImports.Accounted h := by
  obtain ⟨hs, hd⟩ := s.dropAllImportAudio_spec
  rw [Importing.clearImports]
  dsimp only
  split_ifs with he
  · refine ha.sub (hs.imports ▸ List.Sublist.refl _) hs.nextImport hs.flights (fun x hx => ?_)
      fun k ia hk => ?_
    · rw [he] at hx
      exact absurd hx List.not_mem_nil
    · rw [hd] at hk
      cases hk
  · refine ha.sub (List.nil_sublist _) hs.nextImport hs.flights
      (fun x hx => absurd hx List.not_mem_nil) fun k ia hk => ?_
    have hk' := (hd k).symm.trans hk
    cases hk'

theorem clear (ha : s.Accounted h) (now : ℤ) : (s.clear now).Accounted h := by
  obtain ⟨hs, -⟩ := s.dropAllImportAudio_spec
  refine ha.sub (List.nil_sublist _) hs.nextImport hs.flights
    (fun x hx => absurd hx List.not_mem_nil) fun k ia hk => ?_
  cases hk

theorem beginUpload (ha : s.Accounted h) (id : ℕ) (name data : Bytes) :
    (s.beginUpload id name data).Accounted h := by
  rw [Importing.beginUpload]
  split
  · exact ha
  · next u hu =>
    obtain ⟨-, hv, hm, -⟩ := checkUpload_ok hu
    have hne : u.base ≠ [] := fun he => by
      rw [he] at hv
      exact absurd hv (by decide)
    have hle : u.id ≤ s.model.nextImport := by
      obtain ⟨ia, hia⟩ := SortedMap.mem_iff_find?.1 hm
      obtain ⟨x, hx, hxu⟩ := ha.audio u.id ia hia
      exact hxu ▸ ha.below x hx
    exact
      { ha with
        flights := fun w hw => (List.mem_append.1 hw).elim (ha.flights w) fun hw => by
          rw [List.mem_singleton.1 hw]
          exact ⟨hne, hv⟩
        awaited := fun w hw => (List.mem_append.1 hw).elim (ha.awaited w) fun hw => by
          rw [List.mem_singleton.1 hw]
          exact ⟨hle, fun _ => hm⟩ }

/-! ### A layer joins

A layer that joins gets a number that no other ever had, so no file of another can be taken for its
own.  Layers that stay are not touched. -/

section

variable {x : Dataset} {keeps replaces : List Dataset} {now : ℤ}

/-- The replaced layers' audio is gone, and the new layer's is noted. -/
theorem find?_addLayer (ha : s.Accounted h) (x : Dataset) (keeps replaces : List Dataset) (now : ℤ)
    (k : ℕ) :
    (s.addLayer x keeps replaces now).model.importAudio.find? k =
      if k = s.model.nextImport + 1 then
        if (layerWants (joining s x now)).isEmpty then none
          else some { want := layerWants (joining s x now) }
      else if k ∈ replaces.map (·.id) then none else s.model.importAudio.find? k := by
  obtain ⟨hs, hd⟩ := foldl_dropImportAudio (replaces.map (·.id)).reverse s
  have hk := hd k
  simp only [List.mem_reverse] at hk
  have hnew : s.model.importAudio.find? (s.model.nextImport + 1) = none := by
    rcases hf : s.model.importAudio.find? (s.model.nextImport + 1) with _ | ia
    · rfl
    · obtain ⟨z, hz, hzid⟩ := ha.audio _ ia hf
      exact absurd (ha.below z hz) (by omega)
  rw [Importing.addLayer]
  dsimp only
  rw [hs.nextImport, hs.maxCalls, ← joining]
  by_cases he : (layerWants (joining s x now)).isEmpty = true
  · rw [if_pos he, if_pos he, hk]
    split_ifs with h₁ h₂ h₂
    · rfl
    · rfl
    · rw [h₂, hnew]
    · rfl
  · rw [if_neg he, if_neg he, SortedMap.find?_insert, hk]

/-- A layer that stays keeps its audio. -/
theorem find?_addLayer_keep (ha : s.Accounted h) (hp : (keeps ++ replaces).Perm s.model.imports)
    {z : Dataset} (hz : z ∈ keeps) :
    (s.addLayer x keeps replaces now).model.importAudio.find? z.id =
      s.model.importAudio.find? z.id := by
  have hnd : ((keeps ++ replaces).map (·.id)).Nodup := (hp.map _).nodup_iff.2 ha.ids
  rw [List.map_append, List.nodup_append] at hnd
  have hle := ha.below z (hp.subset (List.mem_append_left _ hz))
  rw [ha.find?_addLayer, if_neg (by omega),
    if_neg fun hm => hnd.2.2 _ (List.mem_map_of_mem hz) _ hm rfl]

/-- The layers that stay keep their files. -/
theorem filesOf_addLayer_keep (ha : s.Accounted h) (hp : (keeps ++ replaces).Perm s.model.imports)
    {z : Dataset} (hz : z ∈ keeps) :
    (s.addLayer x keeps replaces now).filesOf z.id = s.filesOf z.id := by
  rw [filesOf, filesOf, SortedMap.getD, SortedMap.getD, ha.find?_addLayer_keep hp hz]

/-- The new layer has no files yet. -/
theorem filesOf_addLayer_new (ha : s.Accounted h) (x : Dataset) (keeps replaces : List Dataset)
    (now : ℤ) :
    (s.addLayer x keeps replaces now).filesOf (s.model.nextImport + 1) = ∅ := by
  rw [filesOf, SortedMap.getD, ha.find?_addLayer, if_pos rfl]
  split_ifs <;> rfl

/-- **A layer joins**: it is numbered anew, and its calls are silent. -/
theorem addLayer (ha : s.Accounted h) (x : Dataset) (now : ℤ)
    (hp : (keeps ++ replaces).Perm s.model.imports) :
    (s.addLayer x keeps replaces now).Accounted { h with
      origins := h.origins.insert (s.model.nextImport + 1) (joining s x now) } := by
  obtain ⟨himports, hnext, hflights⟩ := s.addLayer_frame x keeps replaces now
  have hkeep : ∀ z ∈ keeps, z ∈ s.model.imports := fun z hz => hp.subset (List.mem_append_left _ hz)
  have hle : ∀ z ∈ keeps, z.id ≤ s.model.nextImport := fun z hz => ha.below z (hkeep z hz)
  have hcases : ∀ {z}, z ∈ (s.addLayer x keeps replaces now).model.imports →
      z ∈ keeps ∨ z = silenceLayer (joining s x now) := fun hz =>
    (List.mem_append.1 (himports ▸ hz)).imp_right List.mem_singleton.1
  refine
    { ids := ?_, below := ?_, audio := ?_, flights := hflights ▸ ha.flights, awaited := ?_,
      uploads := ?_, files := ?_
      layers := ?_ }
  · have hnd : ((keeps ++ replaces).map (·.id)).Nodup := (hp.map _).nodup_iff.2 ha.ids
    rw [List.map_append, List.nodup_append] at hnd
    rw [himports, List.map_append, List.map_singleton, List.nodup_append]
    refine ⟨hnd.1, List.nodup_singleton _, fun i hi j hj => ?_⟩
    obtain ⟨z, hz, rfl⟩ := List.mem_map.1 hi
    rw [List.mem_singleton.1 hj]
    exact (Nat.lt_succ_of_le (hle z hz)).ne
  · intro z hz
    rw [hnext]
    rcases hcases hz with hz | rfl
    · exact (hle z hz).trans (Nat.le_succ _)
    · exact le_refl (s.model.nextImport + 1)
  · intro k ia hk
    rw [himports]
    rw [ha.find?_addLayer] at hk
    split_ifs at hk with h₁ h₂ h₃
    · exact ⟨silenceLayer (joining s x now),
        List.mem_append_right _ (List.mem_singleton_self _), h₁.symm⟩
    · obtain ⟨z, hz, rfl⟩ := ha.audio k ia hk
      rcases List.mem_append.1 (hp.symm.subset hz) with hz' | hz'
      · exact ⟨z, List.mem_append_left _ hz', rfl⟩
      · exact absurd (List.mem_map_of_mem hz') h₃
  · intro u hu
    obtain ⟨hid, hin⟩ := ha.awaited u (hflights ▸ hu)
    refine ⟨hnext ▸ hid.trans (Nat.le_succ _), ?_⟩
    rintro ⟨z, hz, hzu⟩
    rcases hcases hz with hz | rfl
    · rw [SortedMap.mem_iff_find?, ← hzu, ha.find?_addLayer_keep hp hz, hzu,
        ← SortedMap.mem_iff_find?]
      exact hin ⟨z, hkeep z hz, hzu⟩
    · have hzu' : s.model.nextImport + 1 = u.id := hzu
      omega
  · exact fun u hu => ⟨hnext ▸ (ha.uploads u hu).1.trans (Nat.le_succ _), (ha.uploads u hu).2⟩
  · intro z hz n
    rcases hcases hz with hz | rfl
    · rw [ha.filesOf_addLayer_keep hp hz]
      exact ha.files z (hkeep z hz) n
    · -- no upload is as late as the new layer
      change n ∈ (s.addLayer x keeps replaces now).filesOf (s.model.nextImport + 1) ↔ _
      rw [ha.filesOf_addLayer_new]
      refine iff_of_false (SortedMap.not_mem_empty n) ?_
      rintro ⟨u, hu, hui, -⟩
      have hle := (ha.uploads u hu).1
      have hui' : u.id = s.model.nextImport + 1 := hui
      omega
  · intro z hz
    rcases hcases hz with hz | rfl
    · rw [ha.filesOf_addLayer_keep hp hz, ha.find?_addLayer_keep hp hz]
      obtain ⟨w, hw⟩ := ha.layers z (hkeep z hz)
      refine ⟨w, ?_, hw.2⟩
      rw [SortedMap.find?_insert_ne _ _ (Nat.lt_succ_of_le (hle z hz)).ne]
      exact hw.1
    · refine ⟨joining s x now, SortedMap.find?_insert_self _ (s.model.nextImport + 1) _, rfl,
        numbered_numberLayer _ _ _, fun ia hia => ?_, ?_⟩
      · have hia' : (s.addLayer x keeps replaces now).model.importAudio.find?
            (s.model.nextImport + 1) = some ia := hia
        rw [ha.find?_addLayer, if_pos rfl] at hia'
        split_ifs at hia'
        cases hia'
        rfl
      · change _ = playingLayer
          ((s.addLayer x keeps replaces now).filesOf (s.model.nextImport + 1)) _
        rw [ha.filesOf_addLayer_new, silenceLayer_eq]

end

/-- **An import accounts for its layer.** -/
theorem importExport (ha : s.Accounted h) (text label : Bytes) (now : ℤ) :
    (s.importExport inflate text label now).1.Accounted
      (s.record inflate h (.importExport text label now)) := by
  rw [Importing.importExport, Importing.record, accepted]
  rcases datasetFromExportText inflate text label ⟨s.model.perReceiver, s.model.name⟩ with e | x
  · exact ha
  dsimp only
  rcases hj : judge x s.model.imports (some [s.liveSource now]) with ⟨keeps, replaces⟩ | why | why
  · exact ha.addLayer x now (judge_add hj)
  · exact ha
  · exact ha

section

variable {u : Upload} {ia : ImportAudio}

/-- An upload of a held layer is one of the history's. -/
theorem uploads_append (ha : s.Accounted h) (hv : CallAudioStore.validName u.base)
    (hd : ∃ x ∈ s.model.imports, x.id = u.id) :
    ∀ w ∈ h.uploaded ++ [u], w.id ≤ s.model.nextImport ∧ CallAudioStore.validName w.base := by
  obtain ⟨d, hdm, hdu⟩ := hd
  intro w hw
  rcases List.mem_append.1 hw with hw | hw
  · exact ha.uploads w hw
  · rw [List.mem_singleton.1 hw, ← hdu]
    exact ⟨ha.below d hdm, hv⟩

/-- A file that was uploaded twice at once is there already. -/
theorem twice (ha : s.Accounted h) (hv : CallAudioStore.validName u.base)
    (hd : ∃ x ∈ s.model.imports, x.id = u.id) (hf : s.model.importAudio.find? u.id = some ia)
    (hin : u.served ∈ ia.files) : s.Accounted { h with uploaded := h.uploaded ++ [u] } := by
  refine { ha with
    uploads := ha.uploads_append hv hd
    files := fun z hz n => (ha.files z hz n).trans ⟨?_, ?_⟩ }
  · rintro ⟨w, hw, he⟩
    exact ⟨w, List.mem_append_left _ hw, he⟩
  · rintro ⟨w, hw, he⟩
    rcases List.mem_append.1 hw with hw | hw
    · exact ⟨w, hw, he⟩
    · rw [List.mem_singleton.1 hw] at he
      rw [← ha.files z hz n, filesOf, SortedMap.getD_of_find? (he.1 ▸ hf), ← he.2]
      exact hin

/-- The files of a layer are those uploaded for it, and the new one. -/
theorem mem_filesOf_withFile (ha : s.Accounted h) (hf : s.model.importAudio.find? u.id = some ia)
    {z : Dataset} (hz : z ∈ s.model.imports) (n : Bytes) : n ∈ (s.withFile u ia).filesOf z.id ↔
      ∃ w ∈ h.uploaded ++ [u], w.id = z.id ∧ w.served = n := by
  have hold := ha.files z hz n
  rw [filesOf_withFile hf]
  split_ifs with hzu
  · rw [SortedMap.mem_insert, ← hzu, hold, hzu]
    constructor
    · rintro (rfl | ⟨w, hw, h₁, h₂⟩)
      · exact ⟨u, List.mem_append_right _ (List.mem_singleton_self u), rfl, rfl⟩
      · exact ⟨w, List.mem_append_left _ hw, h₁, h₂⟩
    · rintro ⟨w, hw, h₁, h₂⟩
      rcases List.mem_append.1 hw with hw | hw
      · exact Or.inr ⟨w, hw, h₁, h₂⟩
      · exact Or.inl (by rw [← h₂, List.mem_singleton.1 hw])
  · rw [hold]
    refine exists_congr fun w => and_congr_left fun hw => ?_
    rw [List.mem_append, List.mem_singleton]
    exact (or_iff_left fun he => hzu (by rw [← hw.1, he])).symm

/-- The layer plays the new file too. -/
theorem playing_withFile (hb : u.base ≠ []) (hf : s.model.importAudio.find? u.id = some ia)
    {y z : Dataset} (hid : y.id = z.id) (hy : y.Numbered)
    (hwant : ∀ ka, s.model.importAudio.find? z.id = some ka → ka.want = layerWants y)
    (hz : z = playingLayer (s.filesOf z.id) y) :
    (if z.id = u.id then (ia.want.getD u.base []).foldl (playWant u.served) z else z) =
      playingLayer ((s.withFile u ia).filesOf z.id) y := by
  rw [filesOf_withFile hf]
  by_cases hzu : z.id = u.id
  · have hw : ia.want = layerWants y := hwant ia (hzu ▸ hf)
    have hs : u.served = servedName y.id u.base := by rw [Upload.served, hid, hzu]
    rw [if_pos hzu, if_pos hzu, hw, hs, ← playWant_playingLayer hy _ hb, ← hzu]
    exact congrArg (fun x => ((layerWants y).getD u.base []).foldl
      (playWant (servedName y.id u.base)) x) hz
  · rw [if_neg hzu, if_neg hzu]
    exact hz

/-- **A file is noted with its layer.** -/
theorem withFile (ha : s.Accounted h) (hb : u.base ≠ []) (hv : CallAudioStore.validName u.base)
    (hd : ∃ x ∈ s.model.imports, x.id = u.id) (hf : s.model.importAudio.find? u.id = some ia) :
    (s.withFile u ia).Accounted { h with uploaded := h.uploaded ++ [u] } where
  ids := by
    rw [ids_withFile]
    exact ha.ids
  below x hx := by
    obtain ⟨z, hz, hid, -⟩ := mem_imports_withFile hx
    exact hid ▸ ha.below z hz
  audio k ka hk := by
    have hids : ∀ i, (∃ x ∈ (s.withFile u ia).model.imports, x.id = i) ↔
        ∃ z ∈ s.model.imports, z.id = i := fun i => by
      rw [← List.mem_map (f := fun x : Dataset => x.id), ids_withFile, List.mem_map]
    rw [Importing.withFile] at hk
    dsimp only at hk
    rw [SortedMap.find?_insert] at hk
    rw [hids]
    split_ifs at hk with hku
    · exact hku ▸ hd
    · exact ha.audio k ka hk
  flights := ha.flights
  awaited w hw := by
    refine ⟨(ha.awaited w hw).1, ?_⟩
    rintro ⟨x, hx, hxw⟩
    obtain ⟨z, hz, hid, -⟩ := mem_imports_withFile hx
    exact SortedMap.mem_insert.2 (Or.inr ((ha.awaited w hw).2 ⟨z, hz, hid.symm.trans hxw⟩))
  uploads := ha.uploads_append hv hd
  files x hx n := by
    obtain ⟨z, hz, hid, -⟩ := mem_imports_withFile hx
    rw [hid]
    exact ha.mem_filesOf_withFile hf hz n
  layers x hx := by
    obtain ⟨z, hz, hid, hxz⟩ := mem_imports_withFile hx
    obtain ⟨y, hy, hyid, hnum, hwant, hplay⟩ := ha.layers z hz
    rw [hid]
    refine ⟨y, hy, hyid, hnum, fun ka hk => ?_,
      hxz.trans (playing_withFile hb hf hyid hnum hwant hplay)⟩
    rw [Importing.withFile] at hk
    dsimp only at hk
    rw [SortedMap.find?_insert] at hk
    split_ifs at hk with hzu
    · cases hk
      exact hwant ia (hzu ▸ hf)
    · exact hwant ka hk

/-- **A file is attached**, when its import is still held. -/
theorem attach (ha : s.Accounted h) (hb : u.base ≠ []) (hv : CallAudioStore.validName u.base)
    (hw : (∃ x ∈ s.model.imports, x.id = u.id) → u.id ∈ s.model.importAudio) :
    (s.attach u).1.Accounted { h with
      uploaded := h.uploaded ++ if s.model.imports.any (fun x => x.id = u.id) then
      [u] else [] } := by
  have hany : s.model.imports.any (fun x => x.id = u.id) = true ↔
      ∃ x ∈ s.model.imports, x.id = u.id := by
    simp only [List.any_eq_true, decide_eq_true_eq]
  rcases s.attach_cases u with ⟨hgone, disk, heq⟩ | ⟨ia, hf, hd, ⟨hin, heq⟩ | ⟨-, heq⟩⟩
  · -- an upload of a removed import changes no layer
    have hno : ¬∃ x ∈ s.model.imports, x.id = u.id :=
      hgone.elim (fun hf hx => SortedMap.find?_eq_none_iff.1 hf (hw hx)) id
    rw [heq, if_neg (mt hany.1 hno), List.append_nil]
    exact ⟨ha.ids, ha.below, ha.audio, ha.flights, ha.awaited, ha.uploads, ha.files, ha.layers⟩
  · rw [heq, if_pos (hany.2 hd)]
    exact ha.twice hv hd hf hin
  · rw [heq, if_pos (hany.2 hd)]
    exact ha.withFile hb hv hd hf

end

/-- **The end of an upload accounts for its file.** -/
theorem endUpload (ha : s.Accounted h) (i : ℕ) (written : Bool) :
    (s.endUpload i written).Accounted (s.record inflate h (.endUpload i written)) := by
  rw [Importing.endUpload, Importing.record, Importing.uploaded]
  rcases hi : s.flights[i]? with _ | u
  · rw [Option.filter_none, Option.toList_none, List.append_nil]
    exact ha
  have hu := List.mem_of_getElem? hi
  obtain ⟨hb, hv⟩ := ha.flights u hu
  have hrest : ({ s with flights := s.flights.eraseIdx i } : Importing).Accounted h :=
    { ha with
      flights := fun w hw => ha.flights w (List.mem_of_mem_eraseIdx hw)
      awaited := fun w hw => ha.awaited w (List.mem_of_mem_eraseIdx hw) }
  rw [Option.filter_some]
  cases written with
  | false =>
    rw [Bool.false_and, if_neg Bool.false_ne_true, Option.toList_none, List.append_nil]
    exact hrest
  | true =>
    have hwritten :
        (({ s with flights := s.flights.eraseIdx i } : Importing).writeFile u).Accounted h :=
      ⟨hrest.ids, hrest.below, hrest.audio, hrest.flights, hrest.awaited, hrest.uploads,
        hrest.files, hrest.layers⟩
    rw [Bool.true_and, apply_ite Option.toList, Option.toList_some, Option.toList_none]
    exact hwritten.attach hb hv (ha.awaited u hu).2

/-- **Every input keeps the account.** -/
theorem track {x : Importing × ImportHistory} (ha : x.1.Accounted x.2) (op : ImportOp) :
    (Importing.track inflate x op).1.Accounted (Importing.track inflate x op).2 := by
  cases op with
  | importExport text label now => exact ha.importExport inflate text label now
  | removeImport id => exact ha.removeImport id
  | clearImports => exact ha.clearImports
  | clear now => exact ha.clear now
  | beginUpload id name data => exact ha.beginUpload id name data
  | endUpload i written => exact ha.endUpload inflate i written

end Accounted

/-- The history of a run. -/
def history (s : Importing) (ops : List ImportOp) : ImportHistory :=
  (ops.foldl (track inflate) (s, {})).2

/-- **Every run accounts for its layers.** -/
theorem Accounted.run (model : AssocModel) (root : Bytes) (cap : ℕ) (ops : List ImportOp) :
    ((Importing.start model root cap).run inflate ops).Accounted
      ((Importing.start model root cap).history inflate ops) := by
  have h : ∀ (ops : List ImportOp) (x : Importing × ImportHistory), x.1.Accounted x.2 →
      (x.1.run inflate ops).Accounted (ops.foldl (Importing.track inflate) x).2 := by
    intro ops
    induction ops with
    | nil => exact fun _ hx => hx
    | cons op ops ih => exact fun x hx => ih _ (hx.track inflate op)
  exact h ops (Importing.start model root cap, {}) (.start model root cap)

/-! ## The frame of an upload

An upload changes what the calls play that want its file, and nothing beside that. -/

/-- **Ending an upload changes only the layer it is for.** -/
theorem endUpload_frame (s : Importing) (i : ℕ) (written : Bool) : ∃ a l v,
    (s.endUpload i written).model = { s.model with importAudio := a, imports := l, version := v } ∧
      List.Forall₂ (fun x x' => (s.flights[i]?).map (·.id) ≠ some x.id →
        x' = x) s.model.imports l := by
  have hrefl : List.Forall₂ (fun x x' => (s.flights[i]?).map (·.id) ≠ some x.id → x' = x)
      s.model.imports s.model.imports := List.forall₂_same.2 fun _ _ _ => rfl
  rcases hi : s.flights[i]? with _ | u
  · rw [hi] at hrefl
    exact ⟨_, _, _, by rw [endUpload, hi], hrefl⟩
  rw [hi] at hrefl
  rw [endUpload, hi]
  dsimp only
  cases written with
  | false => exact ⟨_, _, _, rfl, hrefl⟩
  | true =>
    rw [if_pos rfl, attach]
    split
    · split_ifs
      · exact ⟨_, _, _, rfl, hrefl⟩
      · refine ⟨_, _, _, rfl, List.forall₂_map_right_iff.2 (List.forall₂_same.2 fun x _ hne => ?_)⟩
        exact if_neg fun he => hne (congrArg some he.symm)
    · exact ⟨_, _, _, rfl, hrefl⟩

end Importing

/-! ## Every imported call plays its own file

Put together: in every state of a run, each call of a held layer plays its own file if that was
uploaded, and nothing otherwise. -/

/-- **A call plays exactly its file**: the one its export's call named, once uploaded for the
layer. -/
structure DsCall.PlaysOwn (uploaded : List Upload) (id : ℕ) (exported c : DsCall) : Prop where
  same : c.silence = exported.silence
  plays : c.audio ≠ [] ↔ importAudioBase exported.audio ≠ [] ∧
    ∃ u ∈ uploaded, u.id = id ∧ u.base = importAudioBase exported.audio
  file : c.audio ≠ [] → c.audio = servedName id (importAudioBase exported.audio)

/-- A call that plays by the files there are plays what was uploaded for it. -/
theorem playsOwn_playing {uploaded : List Upload} {id : ℕ} {files : SortedMap Bytes ℕ}
    (h : ∀ n, n ∈ files ↔ ∃ u ∈ uploaded, u.id = id ∧ u.served = n) (c : DsCall) :
    c.PlaysOwn uploaded id (c.playing id files) := by
  set base := importAudioBase c.audio with hbase
  have hup : servedName id base ∈ files ↔ ∃ u ∈ uploaded, u.id = id ∧ u.base = base := by
    rw [h]
    refine exists_congr fun u => and_congr_right fun _ => and_congr_right fun hid => ?_
    rw [Upload.served, hid]
    exact ⟨servedName_injective, congrArg _⟩
  by_cases hp : base ≠ [] ∧ servedName id base ∈ files
  · have hc : c.playing id files = { c with audio := servedName id base } := if_pos hp
    rw [hc]
    exact ⟨rfl, iff_of_true (List.cons_ne_nil _ _) ⟨hp.1, hup.1 hp.2⟩, fun _ => rfl⟩
  · have hc : c.playing id files = c.silence := if_neg hp
    rw [hc]
    exact ⟨rfl, iff_of_false (fun hne => hne rfl) fun hq => hp ⟨hq.1, hup.2 hq.2⟩,
      fun hne => absurd rfl hne⟩

/-- **Imported audio goes to exactly its calls**, whatever is imported, removed and uploaded in
whatever order: every call of a held layer plays exactly the file its export named, once that is
uploaded for the layer; and an upload changes no live call, and no other layer. -/
theorem imported_audio_exact (inflate : Bytes → Option Bytes) (model : AssocModel) (root : Bytes)
    (cap : ℕ) (ops : List ImportOp) :
    let s := (Importing.start model root cap).run inflate ops
    let h := (Importing.start model root cap).history inflate ops
    (∀ x ∈ s.model.imports, ∃ y, h.origins.find? x.id = some y ∧ (∀ f, f ∈ x.fams ↔ f ∈ y.fams) ∧
      ∀ f F G, x.fams.find? f = some F → y.fams.find? f = some G →
        List.Forall₂ (DsCall.PlaysOwn h.uploaded x.id) G.calls F.calls) ∧
    (∀ id name data, (s.beginUpload id name data).model = s.model) ∧
    ∀ i written, ∃ a l v,
      (s.endUpload i written).model =
        { s.model with importAudio := a, imports := l, version := v } ∧
        List.Forall₂ (fun x x' => (s.flights[i]?).map (·.id) ≠ some x.id → x' = x)
          s.model.imports l := by
  intro s h
  have ha : s.Accounted h := .run inflate model root cap ops
  refine ⟨fun x hx => ?_, fun id name data => ?_, s.endUpload_frame⟩
  · obtain ⟨y, horigin, hid, -, -, hplay⟩ := ha.layers x hx
    have hfams : x.fams = y.fams.mapVal fun _ F =>
        { F with calls := F.calls.map (DsCall.playing y.id (s.filesOf x.id)) } :=
      congrArg Dataset.fams hplay
    refine ⟨y, horigin, fun f => by rw [hfams, SortedMap.mem_mapVal], fun f F G hF hG => ?_⟩
    rw [hfams, SortedMap.find?_mapVal, hG] at hF
    cases hF
    rw [hid]
    exact List.forall₂_map_right_iff.2
      (List.forall₂_same.2 fun c _ => playsOwn_playing (ha.files x hx) c)
  · rw [Importing.beginUpload]
    split <;> rfl

end DsdServer
