import DsdServer.Assoc.Audio
import DsdServer.Merge.Fold

/-!
# Merge/Layers — imports held by the server, and their calls' audio

An accepted export becomes a layer: its calls are sorted, bounded and numbered, and each is silent
until the file its export named is uploaded.  An upload is checked under the lock, written outside
it, and then attached to the calls that want it; between the two steps anything may happen.
-/

open Bytes

namespace DsdServer

/-! ## Names of audio files

An export names the files of its calls.  The numbers of earlier layers are dropped from such a name,
and what is left has to be a name as the audio store gives them; with the number of its new layer in
front it cannot meet a name of another. -/

/-- Drop one `i<n>_` prefix; `none` when there is none. -/
def dropImportPrefix (n : Bytes) : Option Bytes :=
  match n with
  | i :: d :: rest =>
    if rest ≠ [] ∧ i = ch 'i' ∧ isDigit d then
      match rest.dropWhile isDigit with
      | [] => none
      | c :: s => if c = ch '_' then some s else none
    else none
  | _ => none

/-- Drop the `i<n>_` prefixes; `fuel` exceeds their number. -/
def dropImportPrefixes : ℕ → Bytes → Bytes
  | 0, n => n
  | fuel + 1, n =>
    match dropImportPrefix n with
    | none => n
    | some n' => dropImportPrefixes fuel n'

/-- **A call's audio name from an export, as this server would store it**: any `i<n>_` prefixes
dropped, and only the audio store's own form accepted; empty if not. -/
def importAudioBase (n : Bytes) : Bytes :=
  let n := dropImportPrefixes n.length n
  if CallAudioStore.validName n then n else []

/-- The name an import's file is served under. -/
def servedName (id : ℕ) (base : Bytes) : Bytes := lit "i" ++ dec id ++ lit "_" ++ base

/-- The path of a file of the store, in its folder. -/
def CallAudioStore.pathFor (s : CallAudioStore) (dir name : Bytes) : Option Bytes :=
  if !validName name || !s.index.any (fun e => e.name = name) then none
  else some (dir ++ lit "/" ++ name)

/-! ## A new layer

The calls of a layer are put in order, bounded, and numbered in a range of its own, so that the page
can tell them from the live calls. -/

/-- The numbers a layer has for its calls. -/
def kImportIdStride : ℕ := 1000000000

/-- **Stable call ids for a layer**: calls newest first, bounded, and numbered. -/
def numberLayer (id maxCalls : ℕ) (x : Dataset) : Dataset :=
  { x with
    id := id
    fams := x.fams.mapVal fun _ F =>
      let calls := capCalls (F.calls.mergeSort fun a b => b.start ≤ a.start) maxCalls
      { F with
        calls :=
          calls.mapIdx fun i c => { c with id := id * kImportIdStride + (calls.length - i) } } }

/-- One call's wish. -/
def addWant (f : Bytes) (want : SortedMap Bytes (List AudioWant)) (c : DsCall) :
    SortedMap Bytes (List AudioWant) :=
  let base := importAudioBase c.audio
  if base = [] then want else want.insert base (want.getD base [] ++ [⟨f, c.id, c.audioMs⟩])

/-- **Which file each call of a layer wants.** -/
def layerWants (x : Dataset) : SortedMap Bytes (List AudioWant) :=
  x.fams.entries.foldl (fun want fk => fk.2.calls.foldl (addWant fk.1) want) ∅

/-- Nothing to play yet. -/
def DsCall.silence (c : DsCall) : DsCall := { c with audio := [], audioMs := 0 }

/-- A layer whose calls play nothing yet. -/
def silenceLayer (x : Dataset) : Dataset :=
  { x with fams := x.fams.mapVal fun _ F => { F with calls := F.calls.map DsCall.silence } }

/-- The call a file is for plays it. -/
def playWant (served : Bytes) (x : Dataset) (w : AudioWant) : Dataset :=
  { x with
    fams := x.fams.modify w.fam fun F =>
      { F with
        calls := F.calls.map fun c =>
          if c.id = w.call then { c with audio := served, audioMs := w.ms } else c } }

/-- How many calls of a layer a wish is of. -/
def wantCalls (x : Dataset) (w : AudioWant) : ℕ :=
  (x.fams.getD w.fam {}).calls.countP fun c => c.id = w.call

/-! ## The state

Beside the model and its layers, the state has the uploads that were checked and are still being
written. -/

/-- An upload that passed its check: the import, the file's name there, and its size. -/
structure Upload where
  id : ℕ
  base : Bytes
  size : ℕ
  deriving DecidableEq

/-- **The model, the folder of the imported audio, and the uploads under way.** -/
structure Importing where
  model : AssocModel := {}
  root : Bytes := []
  cap : ℕ := 0
  /-- the folders under the root: their files, and their sizes -/
  disk : SortedMap ℕ (SortedMap Bytes ℕ) := ∅
  flights : List Upload := []

/-- What import made of an export. -/
structure ImportResult where
  status : Bytes
  message : Bytes
  id : ℕ := 0
  deriving DecidableEq

/-- What became of an upload. -/
structure AudioUpload where
  status : Bytes
  message : Bytes
  calls : ℕ := 0
  deriving DecidableEq

/-! ## Paths

Each layer has a folder of its own, which goes when the layer does. -/

/-- The folder of an import's files. -/
def importDir (root : Bytes) (id : ℕ) : Bytes := root ++ lit "/" ++ dec id

/-- Where an uploaded file is stored. -/
def importPath (root : Bytes) (id : ℕ) (served : Bytes) : Bytes :=
  importDir root id ++ lit "/" ++ served

namespace Upload

/-- The name an upload is played under. -/
def served (u : Upload) : Bytes := servedName u.id u.base

/-- **What an upload writes**: its file, under a name of its own until it is whole. -/
def writes (root : Bytes) (u : Upload) : List Bytes :=
  [importPath root u.id u.served ++ lit ".part", importPath root u.id u.served]

end Upload

namespace Importing

/-! ## Importing and removing

A layer that joins is put behind those that stay, and the files uploaded for those it replaces go.
-/

/-- Drop an import's audio, and its folder. -/
def dropImportAudio (s : Importing) (id : ℕ) : Importing :=
  if id ∉ s.model.importAudio then s
  else
    { s with
      model := { s.model with importAudio := s.model.importAudio.erase id }
      disk := if s.root = [] then s.disk else s.disk.erase id }

/-- The labels of the replaced layers, as the message lists them. -/
def replacedLabels (l : List Dataset) : Bytes :=
  l.foldr (fun x replaced => x.label ++ (if replaced = [] then [] else lit ", ") ++ replaced) []

/-- This run's own live data. -/
def liveSource (s : Importing) (now : ℤ) : DsSource :=
  ⟨s.model.instanceId, s.model.name, s.model.since, now⟩

/-- A layer joins, in place of those it replaces. -/
def addLayer (s : Importing) (x : Dataset) (keeps replaces : List Dataset) (now : ℤ) : Importing :=
  let s := (replaces.map (·.id)).reverse.foldl dropImportAudio s
  let id := s.model.nextImport + 1
  let y := numberLayer id s.model.maxCalls
    { x with exported := if x.exported ≠ 0 then x.exported else now }
  let want := layerWants y
  { s with
    model := { s.model with
      nextImport := id
      imports := keeps ++ [silenceLayer y]
      importAudio := if want.isEmpty then s.model.importAudio
        else s.model.importAudio.insert id { want := want }
      version := s.model.version + 1 } }

/-- **Import an export**, unless it would count anything twice; `inflate` is the decompressor. -/
def importExport (inflate : Bytes → Option Bytes) (s : Importing) (text label : Bytes) (now : ℤ) :
    Importing × ImportResult :=
  match datasetFromExportText inflate text label ⟨s.model.perReceiver, s.model.name⟩ with
  | .error e => (s, { status := lit "invalid", message := e })
  | .ok x =>
    match judge x s.model.imports (some [s.liveSource now]) with
    | .skip why => (s, { status := lit "skipped", message := why })
    | .refuse why => (s, { status := lit "refused", message := why })
    | .add keeps replaces =>
      let replaced := replacedLabels replaces
      (s.addLayer x keeps replaces now,
        { status := if replaced = [] then lit "imported" else lit "replaced"
          message := if replaced = [] then lit "imported"
            else lit "imported (replaces " ++ replaced ++ lit ", an older export of the same run)"
          id := s.model.nextImport + 1 })

/-- **Remove an import**; false when there is none of that id. -/
def removeImport (s : Importing) (id : ℕ) : Importing × Bool :=
  if s.model.imports.any fun x => x.id = id then
    let s := s.dropImportAudio id
    ({ s with
        model := { s.model with
          imports := s.model.imports.eraseP fun x => x.id = id
          version := s.model.version + 1 } }, true)
  else (s, false)

/-- Drop all imports' audio. -/
def dropAllImportAudio (s : Importing) : Importing :=
  s.model.importAudio.keys.foldl dropImportAudio s

/-- All layers go, with their files. -/
def clearImports (s : Importing) : Importing :=
  let s := s.dropAllImportAudio
  if s.model.imports = [] then s
  else { s with model := { s.model with imports := [], version := s.model.version + 1 } }

/-- **Clear**: everything learned and imported is forgotten. -/
def clear (s : Importing) (now : ℤ) : Importing :=
  let s := s.dropAllImportAudio
  { s with model := s.model.clear now }

/-! ## Uploading audio

The check looks at the name, the calls that want it, the data and the space.  When the file is
written the layer may be gone, and then the file is deleted again. -/

/-- The bytes of the imported audio, across all imports. -/
def importAudioBytes (s : Importing) : ℕ :=
  (s.model.importAudio.entries.map fun e => (e.2.files.entries.map (·.2)).sum).sum

/-- Does the data begin as a WAV file does? -/
def isWav (data : Bytes) : Bool :=
  44 ≤ data.length && data.take 4 = lit "RIFF" && (data.drop 8).take 4 = lit "WAVE"

/-- **The check of an upload**, under the lock: the upload, or why it is turned away. -/
def checkUpload (s : Importing) (id : ℕ) (name data : Bytes) : Except AudioUpload Upload :=
  let base := importAudioBase name
  if s.root = [] then
    .error { status := lit "failed", message := lit "no folder for imported audio" }
  else
    match s.model.importAudio.find? id with
    | none =>
      .error { status := lit "unknown", message := lit "no call in this import has that audio" }
    | some ia =>
      if base = [] ∨ base ∉ ia.want then
        .error { status := lit "unknown", message := lit "no call in this import has that audio" }
      else if servedName id base ∈ ia.files then
        .error { status := lit "have", message := lit "already uploaded" }
      else if ¬isWav data then .error { status := lit "invalid", message := lit "not a WAV file" }
      else if s.cap < s.importAudioBytes + data.length then
        .error { status := lit "full", message := lit "the imported-audio space is full" }
      else .ok ⟨id, base, data.length⟩

/-- The first step of an upload. -/
def beginUpload (s : Importing) (id : ℕ) (name data : Bytes) : Importing :=
  match s.checkUpload id name data with
  | .error _ => s
  | .ok u => { s with flights := s.flights ++ [u] }

/-- **Attach a file that was written**: the import may have been removed meanwhile, or the file may
have been uploaded twice at once. -/
def attach (s : Importing) (u : Upload) : Importing × AudioUpload :=
  match s.model.importAudio.find? u.id, s.model.imports.find? fun x => x.id = u.id with
  | some ia, some d =>
    if u.served ∈ ia.files then (s, { status := lit "have", message := lit "already uploaded" })
    else
      let wants := ia.want.getD u.base []
      ({ s with
          model := { s.model with
            importAudio := s.model.importAudio.insert u.id
              { ia with files := ia.files.insert u.served u.size }
            imports := s.model.imports.map fun x =>
              if x.id = u.id then wants.foldl (playWant u.served) x else x
            version := s.model.version + 1 } },
        { status := lit "added", message := lit "added", calls := (wants.map (wantCalls d)).sum })
  | _, _ =>
    ({ s with disk := s.disk.modify u.id fun folder => folder.erase u.served },
      { status := lit "unknown", message := lit "the import was removed" })

/-- The file of an upload is written. -/
def writeFile (s : Importing) (u : Upload) : Importing :=
  { s with disk := s.disk.insert u.id ((s.disk.getD u.id ∅).insert u.served u.size) }

/-- **The second step of an upload**: its file is written — unless that fails — and attached. -/
def endUpload (s : Importing) (i : ℕ) (written : Bool) : Importing :=
  match s.flights[i]? with
  | none => s
  | some u =>
    let s := { s with flights := s.flights.eraseIdx i }
    if written then ((s.writeFile u).attach u).1 else s

/-! ## Serving

A file of a layer is served when it is attached, and one of the server's own when it is in the index
of the store; anything else is not found. -/

/-- `strtoull` of a text: its leading decimal digits, as far as 64 bits go. -/
def leadingNumber (s : Bytes) : ℕ := min (mjson.natOf 10 (s.takeWhile isDigit)) (2 ^ 64 - 1)

/-- **The path of a served audio file**: one of the store's in `dir`, or one uploaded for an
import. -/
def audioPath (dir : Bytes) (s : Importing) (name : Bytes) : Option Bytes :=
  match name with
  | i :: d :: _ :: _ =>
    if i = ch 'i' ∧ isDigit d then
      let id := leadingNumber (name.drop 1)
      match s.model.importAudio.find? id with
      | none => none
      | some ia => if name ∈ ia.files then some (importPath s.root id name) else none
    else s.model.store.pathFor dir name
  | _ => s.model.store.pathFor dir name

end Importing

/-! ## Runs

An upload is two operations, its check and its end, and any other operation may come in between. -/

/-- **What may happen to the imports**, in any order. -/
inductive ImportOp
  | importExport (text label : Bytes) (now : ℤ)
  | removeImport (id : ℕ)
  | clearImports
  | clear (now : ℤ)
  | beginUpload (id : ℕ) (name data : Bytes)
  | endUpload (i : ℕ) (written : Bool)

namespace Importing

variable (inflate : Bytes → Option Bytes)

/-- What one operation does. -/
def step (s : Importing) : ImportOp → Importing
  | .importExport text label now => (s.importExport inflate text label now).1
  | .removeImport id => (s.removeImport id).1
  | .clearImports => s.clearImports
  | .clear now => s.clear now
  | .beginUpload id name data => s.beginUpload id name data
  | .endUpload i written => s.endUpload i written

/-- What a sequence of operations comes to. -/
def run (s : Importing) (ops : List ImportOp) : Importing := ops.foldl (step inflate) s

/-- A model with no imports, and an empty folder for their audio. -/
def start (model : AssocModel) (root : Bytes) (cap : ℕ) : Importing :=
  { model := { model with imports := [], importAudio := ∅ }, root := root, cap := cap }

end Importing

end DsdServer
