import DsdServer.Data.Weight
import DsdServer.Merge.Layers

/-!
# Merge/Capacity — the space of the imported audio

An upload is checked against the files attached so far, and written later: the files of the uploads
under way count nowhere.  So the cap holds as long as no upload is accepted that would not fit
beside those, and it is exceeded by two that are.

* `imported_audio_capped` — **in every run whose uploads fit beside the uploads under way, the
  stored files stay under the cap.**

The condition is read off the state before each admission: the file, those attached and those under
way fit together.  It says nothing of the order in which uploads are written or given up, and every
order keeps it.
-/

open Bytes

namespace DsdServer

namespace Importing

variable {s : Importing}

/-! ## What counts

In the folders are the files that were written; in flight are the uploads that were checked and are
not written yet.  The check counts the files that are attached, so the cap can only be kept where
the flights are counted as well. -/

/-- The bytes of the files in the folders. -/
def diskBytes (s : Importing) : ℕ := s.disk.weight (SortedMap.weight id)

/-- The bytes of an import's files. -/
def attachedBytes (ia : ImportAudio) : ℕ := ia.files.weight id

/-- The bytes of the uploads under way. -/
def flightBytes (s : Importing) : ℕ := (s.flights.map (·.size)).sum

/-- **Whether an input fits**: an upload that is accepted fits beside those under way. -/
def Fits (s : Importing) : ImportOp → Prop
  | .beginUpload id name data => ∀ u, s.checkUpload id name data = .ok u →
      s.diskBytes + s.flightBytes + u.size ≤ s.cap ∧
        s.importAudioBytes + s.flightBytes + u.size ≤ s.cap
  | _ => True

instance (s : Importing) : DecidablePred s.Fits
  | .beginUpload id name data => decidable_of_iff
      (∀ u ∈ (s.checkUpload id name data).toOption, s.diskBytes + s.flightBytes + u.size ≤ s.cap ∧
        s.importAudioBytes + s.flightBytes + u.size ≤ s.cap)
      (forall_congr' fun u =>
        imp_congr_left (by cases s.checkUpload id name data <;> simp [Except.toOption]))
  | .importExport .. | .removeImport _ | .clearImports | .clear _ | .endUpload .. => .isTrue trivial

/-- **There is room for all uploads under way.** -/
structure Roomy (s : Importing) : Prop where
  disk : s.diskBytes + s.flightBytes ≤ s.cap
  attached : s.importAudioBytes + s.flightBytes ≤ s.cap

/-- What the server counts are the files attached. -/
theorem importAudioBytes_eq (s : Importing) :
    s.importAudioBytes = s.model.importAudio.weight attachedBytes := rfl

/-! ## What a step adds

Only uploads add anything.  All other steps shrink what is stored, or leave it. -/

/-- Nothing grew, and no upload joined. -/
structure Shrinks (s s' : Importing) : Prop where
  disk : s'.diskBytes ≤ s.diskBytes
  attached : s'.importAudioBytes ≤ s.importAudioBytes
  flights : s'.flights = s.flights
  cap : s'.cap = s.cap

namespace Shrinks

variable {s' s'' : Importing}

theorem refl (s : Importing) : Shrinks s s := ⟨le_rfl, le_rfl, rfl, rfl⟩

theorem trans (h : Shrinks s s') (h' : Shrinks s' s'') : Shrinks s s'' :=
  ⟨h'.disk.trans h.disk, h'.attached.trans h.attached, h'.flights.trans h.flights,
    h'.cap.trans h.cap⟩

theorem roomy (h : Shrinks s s') (hr : s.Roomy) : s'.Roomy := by
  have hf : s'.flightBytes = s.flightBytes := congrArg (fun l => (l.map Upload.size).sum) h.flights
  constructor
  · rw [hf, h.cap]
    exact (Nat.add_le_add_right h.disk _).trans hr.disk
  · rw [hf, h.cap]
    exact (Nat.add_le_add_right h.attached _).trans hr.attached

end Shrinks

/-- Dropping the files of a layer frees their space. -/
theorem shrinks_dropImportAudio (s : Importing) (id : ℕ) : Shrinks s (s.dropImportAudio id) := by
  rw [dropImportAudio]
  split_ifs
  · exact ⟨le_rfl, SortedMap.weight_erase_le attachedBytes _ id, rfl, rfl⟩
  · exact ⟨SortedMap.weight_erase_le _ s.disk id,
      SortedMap.weight_erase_le attachedBytes _ id, rfl, rfl⟩
  · exact .refl s

theorem shrinks_foldl_dropImportAudio (l : List ℕ) :
    ∀ s : Importing, Shrinks s (l.foldl dropImportAudio s) := by
  induction l with
  | nil => exact Shrinks.refl
  | cons id l ih => exact fun s => (s.shrinks_dropImportAudio id).trans (ih _)

/-- A new layer brings no file with it. -/
theorem shrinks_addLayer (s : Importing) (x : Dataset) (keeps replaces : List Dataset) (now : ℤ) :
    Shrinks s (s.addLayer x keeps replaces now) := by
  refine (shrinks_foldl_dropImportAudio (replaces.map (·.id)).reverse s).trans ?_
  -- a new layer has wishes, and no files
  have hnew : ∀ (empty : Bool) (m : SortedMap ℕ ImportAudio) k want,
      (if empty then m else m.insert k { want := want }).weight attachedBytes ≤
        m.weight attachedBytes := fun empty m k want => by
    cases empty with
    | true => exact le_rfl
    | false => exact SortedMap.weight_insert_le attachedBytes m k { want := want }
  rw [addLayer]
  refine ⟨le_rfl, ?_, rfl, rfl⟩
  rw [importAudioBytes_eq, importAudioBytes_eq]
  exact hnew ..

theorem shrinks_importExport (inflate : Bytes → Option Bytes) (s : Importing) (text label : Bytes)
    (now : ℤ) : Shrinks s (s.importExport inflate text label now).1 := by
  rw [importExport]
  split
  · exact .refl s
  · split
    · exact .refl s
    · exact .refl s
    · exact s.shrinks_addLayer ..

/-- Removing a layer removes its files. -/
theorem shrinks_removeImport (s : Importing) (id : ℕ) : Shrinks s (s.removeImport id).1 := by
  rw [removeImport]
  split_ifs
  · exact (s.shrinks_dropImportAudio id).trans ⟨le_rfl, le_rfl, rfl, rfl⟩
  · exact .refl s

theorem shrinks_dropAllImportAudio (s : Importing) : Shrinks s s.dropAllImportAudio :=
  shrinks_foldl_dropImportAudio _ s

/-- Dropping all layers, with their files. -/
theorem shrinks_clearImports (s : Importing) : Shrinks s s.clearImports := by
  refine s.shrinks_dropAllImportAudio.trans ?_
  rw [clearImports]
  dsimp only
  split_ifs
  · exact .refl _
  · exact ⟨le_rfl, le_rfl, rfl, rfl⟩

/-- Clearing the model, with its layers and their files. -/
theorem shrinks_clear (s : Importing) (now : ℤ) : Shrinks s (s.clear now) :=
  s.shrinks_dropAllImportAudio.trans ⟨le_rfl, Nat.zero_le _, rfl, rfl⟩

/-- **A file that is written adds at most its size**: one it takes the place of is gone. -/
theorem diskBytes_writeFile_le (s : Importing) (u : Upload) :
    (s.writeFile u).diskBytes ≤ s.diskBytes + u.size :=
  SortedMap.weight_insert_le_of_getD _ (SortedMap.weight_empty _) (SortedMap.weight_insert_le ..)

/-- **A file that is attached adds at most its size**, and nothing on disk. -/
theorem bytes_attach_le (s : Importing) (u : Upload) :
    (s.attach u).1.diskBytes ≤ s.diskBytes ∧
      (s.attach u).1.importAudioBytes ≤ s.importAudioBytes + u.size ∧
      (s.attach u).1.flights = s.flights ∧ (s.attach u).1.cap = s.cap := by
  rw [attach]
  split
  · next ia d hia hd =>
    split_ifs
    · exact ⟨le_rfl, Nat.le_add_right .., rfl, rfl⟩
    · refine ⟨le_rfl, ?_, rfl, rfl⟩
      rw [importAudioBytes_eq, importAudioBytes_eq]
      refine SortedMap.weight_insert_le_of_getD (d := {}) attachedBytes rfl ?_
      rw [SortedMap.getD_of_find? hia]
      exact SortedMap.weight_insert_le id ia.files u.served u.size
  · exact ⟨SortedMap.weight_modify_le _ (fun _ => SortedMap.weight_erase_le ..) ..,
      Nat.le_add_right .., rfl, rfl⟩

/-! ## Runs

Room is an invariant of the runs in which every upload that is admitted fits beside those under way.
-/

/-- A server that starts has stored nothing. -/
theorem Roomy.start (model : AssocModel) (root : Bytes) (cap : ℕ) : (start model root cap).Roomy :=
  ⟨Nat.zero_le _, Nat.zero_le _⟩

/-- **An upload that fits beside those under way** leaves room for all of them. -/
theorem Roomy.beginUpload (hr : s.Roomy) {id : ℕ} {name data : Bytes}
    (hf : s.Fits (.beginUpload id name data)) : (s.beginUpload id name data).Roomy := by
  rw [Importing.beginUpload]
  split
  · exact hr
  · next u hu =>
    obtain ⟨h₁, h₂⟩ := hf u hu
    have hsum : ({ s with flights := s.flights ++ [u] } : Importing).flightBytes =
        s.flightBytes + u.size := by
      rw [flightBytes, flightBytes, List.map_append, List.sum_append, List.map_singleton,
        List.sum_singleton]
    constructor
    · rw [hsum, ← Nat.add_assoc]
      exact h₁
    · rw [hsum, ← Nat.add_assoc]
      exact h₂

/-- An upload that is done moves from the flights to the disk, or vanishes. -/
theorem Roomy.endUpload (hr : s.Roomy) (i : ℕ) (written : Bool) :
    (s.endUpload i written).Roomy := by
  rw [Importing.endUpload]
  rcases hi : s.flights[i]? with _ | u
  · exact hr
  dsimp only
  obtain ⟨hlt, rfl⟩ := List.getElem?_eq_some_iff.1 hi
  -- the upload's own share of the room is free now
  have hsum : s.flightBytes =
      s.flights[i].size + ({ s with flights := s.flights.eraseIdx i } : Importing).flightBytes := by
    have hp := (List.getElem_cons_eraseIdx_perm hlt).map Upload.size
    rw [flightBytes, ← hp.sum_eq, List.map_cons, List.sum_cons]
    rfl
  have hd := hr.disk
  have ha := hr.attached
  cases written with
  | false =>
    rw [if_neg Bool.false_ne_true]
    constructor
    · change s.diskBytes + _ ≤ s.cap
      omega
    · change s.importAudioBytes + _ ≤ s.cap
      omega
  | true =>
    rw [if_pos rfl]
    set s₁ : Importing := { s with flights := s.flights.eraseIdx i }
    obtain ⟨h₁, h₂, h₃, h₄⟩ := (s₁.writeFile s.flights[i]).bytes_attach_le s.flights[i]
    have hw := s₁.diskBytes_writeFile_le s.flights[i]
    have hflights : ((s₁.writeFile s.flights[i]).attach s.flights[i]).1.flightBytes =
        s₁.flightBytes :=
      congrArg (fun l => (l.map Upload.size).sum) h₃
    have hsame : (s₁.writeFile s.flights[i]).importAudioBytes = s.importAudioBytes := rfl
    have hdisk : s₁.diskBytes = s.diskBytes := rfl
    have hcap : (s₁.writeFile s.flights[i]).cap = s.cap := rfl
    constructor
    · rw [h₄, hflights]
      omega
    · rw [h₄, hflights]
      omega

/-- **Every input that fits leaves room for the uploads under way.** -/
theorem Roomy.step (inflate : Bytes → Option Bytes) (hr : s.Roomy) {op : ImportOp}
    (hf : s.Fits op) :
    (s.step inflate op).Roomy := by
  cases op with
  | importExport text label now => exact (s.shrinks_importExport inflate text label now).roomy hr
  | removeImport id => exact (s.shrinks_removeImport id).roomy hr
  | clearImports => exact s.shrinks_clearImports.roomy hr
  | clear now => exact (s.shrinks_clear now).roomy hr
  | beginUpload id name data => exact hr.beginUpload hf
  | endUpload i written => exact hr.endUpload i written

/-- **The room along a run** whose uploads fit. -/
theorem Roomy.run (inflate : Bytes → Option Bytes) {ops : List ImportOp} :
    ∀ {s : Importing}, s.Roomy →
    (∀ pre op post, ops = pre ++ op :: post → (s.run inflate pre).Fits op) →
      (s.run inflate ops).Roomy := by
  induction ops with
  | nil => exact fun hr _ => hr
  | cons op ops ih =>
    intro s hr hf
    refine ih (hr.step inflate (hf [] op ops rfl)) fun pre op' post he => ?_
    exact hf (op :: pre) op' post (by rw [he, List.cons_append])

theorem cap_step (inflate : Bytes → Option Bytes) (s : Importing) (op : ImportOp) :
    (s.step inflate op).cap = s.cap := by
  cases op with
  | importExport text label now => exact (s.shrinks_importExport inflate text label now).cap
  | removeImport id => exact (s.shrinks_removeImport id).cap
  | clearImports => exact s.shrinks_clearImports.cap
  | clear now => exact (s.shrinks_clear now).cap
  | beginUpload id name data =>
    rw [Importing.step, Importing.beginUpload]
    split <;> rfl
  | endUpload i written =>
    rw [Importing.step, Importing.endUpload]
    split
    · rfl
    · split_ifs
      · exact (bytes_attach_le ..).2.2.2
      · rfl

theorem cap_run (inflate : Bytes → Option Bytes) (ops : List ImportOp) :
    ∀ s : Importing, (s.run inflate ops).cap = s.cap := by
  induction ops with
  | nil => exact fun _ => rfl
  | cons op ops ih => exact fun s => (ih _).trans (s.cap_step inflate op)

end Importing

/-- **The imported audio stays under its cap** in every run whose accepted uploads fit beside those
still under way. -/
theorem imported_audio_capped (inflate : Bytes → Option Bytes) (model : AssocModel) (root : Bytes)
    (cap : ℕ) {ops : List ImportOp}
    (hfits : ∀ pre op post, ops = pre ++ op :: post →
      ((Importing.start model root cap).run inflate pre).Fits op) :
    ∀ pre, pre <+: ops →
      ((Importing.start model root cap).run inflate pre).diskBytes ≤ cap ∧
        ((Importing.start model root cap).run inflate pre).importAudioBytes ≤ cap := by
  rintro pre ⟨rest, rfl⟩
  have hr : ((Importing.start model root cap).run inflate pre).Roomy := by
    refine Importing.Roomy.run inflate (.start model root cap) fun before op after he => ?_
    exact hfits before op (after ++ rest) (by rw [he, List.append_assoc, List.cons_append])
  have hcap : ((Importing.start model root cap).run inflate pre).cap = cap :=
    Importing.cap_run inflate pre _
  exact ⟨(Nat.le_of_add_right_le hr.disk).trans hcap.le,
    (Nat.le_of_add_right_le hr.attached).trans hcap.le⟩

/-- The text of an export with a call of each of two protocols, each with its audio. -/
def pairExport : Bytes :=
  lit "\x7b\"format\":\"dsd-net-export\",\"families\":\x7b" ++
    lit "\"dmr\":\x7b\"calls\":[\x7b\"start\":1,\"audio\":\"call_1_a_1.wav\"\x7d]\x7d," ++
    lit "\"p25\":\x7b\"calls\":[\x7b\"start\":2,\"audio\":\"call_2_a_2.wav\"\x7d]\x7d\x7d," ++
    lit "\"sources\":[\x7b\"instance\":\"alpha\",\"since\":1,\"through\":2\x7d]\x7d"

/-- A WAV file of no samples. -/
def emptyWav : Bytes := lit "RIFF" ++ List.replicate 4 0 ++ lit "WAVE" ++ List.replicate 32 0

/-- Both files are checked before either is written, or each after the other. -/
def uploadPair (together : Bool) : List ImportOp :=
  [.importExport pairExport (lit "x") 5, .beginUpload 1 (lit "call_1_a_1.wav") emptyWav] ++
    (if together then [.beginUpload 1 (lit "call_2_a_2.wav") emptyWav, .endUpload 0 true]
      else [.endUpload 0 true, .beginUpload 1 (lit "call_2_a_2.wav") emptyWav]) ++
        [.endUpload 0 true]

/-- A run whose uploads take turns, in a space for both. -/
theorem imported_audio_capped_uploadPair :
    ((Importing.start {} (lit "audio") 100).run (fun _ => none) (uploadPair false)).diskBytes ≤
      100 := by
  have hfits : ∀ i, (hi : i < (uploadPair false).length) →
      ((Importing.start {} (lit "audio") 100).run (fun _ => none) ((uploadPair false).take i)).Fits
        (uploadPair false)[i] := by decide +kernel
  refine (imported_audio_capped (fun _ => none) {} (lit "audio") 100 (fun pre op post he => ?_)
    (uploadPair false) (List.prefix_refl _)).1
  have := hfits pre.length (by rw [he, List.length_append, List.length_cons]; omega)
  simpa only [he, List.take_left, List.getElem_append_right le_rfl, Nat.sub_self,
    List.getElem_cons_zero]
    using this

/-- **Two uploads under way at once exceed the cap.** -/
theorem imported_audio_exceeds_cap : 60 <
    ((Importing.start {} (lit "audio") 60).run (fun _ => none) (uploadPair true)).diskBytes := by
  decide +kernel

end DsdServer
