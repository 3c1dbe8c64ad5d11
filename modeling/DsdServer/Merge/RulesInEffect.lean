import DsdServer.Merge.RuleFile
import DsdServer.Merge.Uploads

/-!
# Merge/RulesInEffect — the rules a server shows its networks by

Rules come from the operator, from a file, and with the imports.  What is in effect is the server's
own, joined by those of the imports where they have no say yet.  `mergeRules_hold` — **the rules in
effect are flat, and do what they say**, whatever was merged, undone, loaded, imported and removed,
and the file restores the server's own.

Flat means that no network is a target and merged itself.  A rule that is added may name a target
that is merged, or merge a target of others; both are followed to the end when it is added, so that
nothing has to be followed when the rules are used.
-/

open Bytes

namespace DsdServer

/-- **The rules in effect**: the server's own, then the imports'. -/
def AssocModel.viewMerges (s : AssocModel) : NetMerges :=
  s.imports.foldl (fun m x => mergesUnion m x.merges) s.merges

/-! ## The state

The rules of the server are kept beside the layers, which have rules of their own.  Saving writes
the server's own alone, and only if a file was set. -/

/-- A server's model and imports, where its rules are kept, and the files there are. -/
structure RuleServer where
  importing : Importing := {}
  /-- empty: in memory only -/
  mergesFile : Bytes := []
  files : SortedMap Bytes Bytes := ∅

namespace RuleServer

/-- The server's own rules. -/
def own (s : RuleServer) : NetMerges := s.importing.model.merges

/-- The imports the server holds. -/
def layers (s : RuleServer) : List Dataset := s.importing.model.imports

/-- **The rules in effect.** -/
def view (s : RuleServer) : NetMerges := s.importing.model.viewMerges

/-- The rules change, the server's own and those of its layers. -/
def setRules (s : RuleServer) (m : NetMerges) (layers : List Dataset) : RuleServer :=
  { s with importing := { s.importing with model := { s.importing.model with
      merges := m
      imports := layers
      version := s.importing.model.version + 1 } } }

/-- **Save the rules**, under a name of their own until they are written, which may fail. -/
def saveMerges (s : RuleServer) (written : Bool) : RuleServer :=
  if s.mergesFile = [] ∨ written = false then s
  else { s with files := s.files.insert s.mergesFile (mergesText s.own) }

/-- **Keep the rules in a file**: load it now; false when there is none. -/
def useMergesFile (s : RuleServer) (path : Bytes) : RuleServer × Bool :=
  let s := { s with mergesFile := path }
  match s.files.find? path with
  | none => (s, false)
  | some text =>
    match loadMerges text with
    | none => (s, false)
    | some m => (s.setRules m s.layers, true)

/-- **Show a network as part of another**; a rule an import brought for it gives way. -/
def mergeNetworks (s : RuleServer) (family frm dst : Bytes) (written : Bool) : RuleServer × Bool :=
  match mergesAdd s.own family frm dst with
  | none => (s, false)
  | some m =>
    let layers :=
      s.layers.map fun x => { x with merges := x.merges.modify family fun F => F.erase frm }
    ((s.setRules m layers).saveMerges written, true)

/-- **Undo a merge**, of the server's own or of an import. -/
def unmergeNetwork (s : RuleServer) (family key : Bytes) (written : Bool) : RuleServer × Bool :=
  let m := mergesRemove s.own family key
  if !(m.2 || s.layers.any fun x => (mergesRemove x.merges family key).2) then (s, false)
  else
    let layers := s.layers.map fun x => { x with merges := (mergesRemove x.merges family key).1 }
    ((s.setRules m.1 layers).saveMerges written, true)

end RuleServer

/-- **What may happen to the rules**, in any order: `written` when a save goes well. -/
inductive RuleOp
  | mergeNetworks (family frm dst : Bytes) (written : Bool)
  | unmergeNetwork (family key : Bytes) (written : Bool)
  | useMergesFile (path : Bytes)
  | imports (op : ImportOp)
  /-- a file comes, changes or goes otherwise -/
  | touch (path : Bytes) (content : Option Bytes)

namespace RuleServer

variable (inflate : Bytes → Option Bytes)

/-- What one operation does. -/
def step (s : RuleServer) : RuleOp → RuleServer
  | .mergeNetworks family frm dst written => (s.mergeNetworks family frm dst written).1
  | .unmergeNetwork family key written => (s.unmergeNetwork family key written).1
  | .useMergesFile path => (s.useMergesFile path).1
  | .imports op => { s with importing := s.importing.step inflate op }
  | .touch path none => { s with files := s.files.erase path }
  | .touch path (some text) => { s with files := s.files.insert path text }

/-- What a sequence of operations comes to. -/
def run (s : RuleServer) (ops : List RuleOp) : RuleServer := ops.foldl (step inflate) s

/-- A server with no rules yet, and the files it finds. -/
def start (model : AssocModel) (root : Bytes) (cap : ℕ) (files : SortedMap Bytes Bytes) :
    RuleServer :=
  { importing := .start { model with merges := ∅ } root cap, files := files }

end RuleServer

variable {inflate : Bytes → Option Bytes}

/-! ## The rules of a layer

An import reads the rules of its file under the new keys.  They are added one by one and so are
flat, whatever stood in the file. -/

/-- The rules of a file are flat when read, whatever they were. -/
theorem RulesFlat.readRules {m : NetMerges} (hm : RulesFlat m) (cm : ChannelMerge) (o : Origin)
    (remap : SortedMap Bytes Bytes) (nets : SortedMap Bytes DsNetwork) (fam : Bytes)
    (rules : List (Bytes × mjson.V)) : RulesFlat (readRules cm o remap nets fam m rules) := by
  refine List.foldlRecOn _ _ hm fun m hm kv _ => ?_
  split
  · dsimp only
    split_ifs
    · exact hm
    · exact hm.add' fam _ _
  · exact hm

/-- The rules of an export are flat. -/
theorem rulesFlat_of_export {text label : Bytes} {cm : ChannelMerge} {x : Dataset}
    (h : datasetFromExportText inflate text label cm = .ok x) : RulesFlat x.merges := by
  have hroot : ∀ (root : mjson.V), datasetFromExport root label cm = .ok x → RulesFlat x.merges :=
    fun root h => by
    rw [datasetFromExport] at h
    split at h
    · cases h
    · cases h
      refine List.foldlRecOn _ _ rulesFlat_empty fun m hm fk _ => ?_
      split
      · exact hm
      · exact hm.readRules _ _ _ _ _ _
  rw [datasetFromExportText] at h
  split at h
  · cases h
  · split_ifs at h
    split at h
    · cases h
    · exact hroot _ h

/-- Rules that give way to another are flat. -/
theorem RulesFlat.giveWay {m : NetMerges} (hm : RulesFlat m) (fam key : Bytes) :
    RulesFlat (m.modify fam fun F => F.erase key) := fun g => by
  rw [rulesOf, SortedMap.getD, SortedMap.find?_modify]
  split_ifs with hg
  · rcases hF : m.find? g with _ | F
    · exact FlatMap.flat_empty
    · have hflat := hm g
      rw [rulesOf, SortedMap.getD_of_find? hF] at hflat
      rw [Option.map_some, Option.getD_some, SortedMap.erase]
      exact hflat.filter _
  · exact hm g

/-- A file that is attached changes no rules. -/
theorem Importing.attach_rules (s : Importing) (u : Upload) :
    (s.attach u).1.model.merges = s.model.merges ∧
    ∀ x ∈ (s.attach u).1.model.imports, ∃ y ∈ s.model.imports, x.merges = y.merges := by
  have hplay : ∀ (ws : List AudioWant) (x : Dataset), (ws.foldl (playWant u.served) x).merges =
      x.merges := by
    intro ws
    induction ws with
    | nil => exact fun _ => rfl
    | cons w ws ih => exact fun x => ih _
  rw [Importing.attach]
  split
  · split_ifs
    · exact ⟨rfl, fun x hx => ⟨x, hx, rfl⟩⟩
    · refine ⟨rfl, List.forall_mem_map.2 fun x hx => ⟨x, hx, ?_⟩⟩
      split_ifs
      · exact hplay _ x
      · rfl
  · exact ⟨rfl, fun x hx => ⟨x, hx, rfl⟩⟩

namespace RuleServer

variable {s : RuleServer}

/-! ## What is kept

The own rules and those of every layer are held rules.  Every operation keeps that, also where it
fails. -/

/-- **The server's own rules are held, and those of its layers are flat.** -/
structure Kept (s : RuleServer) : Prop where
  own : HeldRules s.own
  layers : ∀ x ∈ s.layers, RulesFlat x.merges

@[simp] theorem own_saveMerges (s : RuleServer) (written : Bool) :
    (s.saveMerges written).own = s.own := by
  rw [saveMerges]
  split_ifs <;> rfl

@[simp] theorem layers_saveMerges (s : RuleServer) (written : Bool) :
    (s.saveMerges written).layers = s.layers := by
  rw [saveMerges]
  split_ifs <;> rfl

@[simp] theorem mergesFile_saveMerges (s : RuleServer) (written : Bool) :
    (s.saveMerges written).mergesFile = s.mergesFile := by
  rw [saveMerges]
  split_ifs <;> rfl

/-- The rules in effect are the server's own and those of its imports, joined in order. -/
theorem view_eq (s : RuleServer) :
    s.view = s.layers.foldl (fun m x => mergesUnion m x.merges) s.own := rfl

/-- **A merge that is made**: the rule is the server's own. -/
theorem mergeNetworks_eq {family frm dst : Bytes} {written : Bool}
    (h : (s.mergeNetworks family frm dst written).2 = true) :
    ∃ m, mergesAdd s.own family frm dst = some m ∧
      (s.mergeNetworks family frm dst written).1 = (s.setRules m (s.layers.map fun x =>
        { x with merges := x.merges.modify family fun F => F.erase frm })).saveMerges written := by
  rw [mergeNetworks] at h ⊢
  rcases hm : mergesAdd s.own family frm dst with _ | m
  · rw [hm] at h
    cases h
  · exact ⟨m, rfl, rfl⟩

/-- **A merge that is undone**, in the server's own rules and in every layer's. -/
theorem unmergeNetwork_eq {family key : Bytes} {written : Bool}
    (h : (s.unmergeNetwork family key written).2 = true) :
      (s.unmergeNetwork family key written).1 =
        (s.setRules (mergesRemove s.own family key).1 (s.layers.map fun x =>
          { x with merges := (mergesRemove x.merges family key).1 })).saveMerges written := by
  rw [unmergeNetwork] at h ⊢
  dsimp only at h ⊢
  split_ifs at h ⊢
  rfl

/-- **What happens to the imports leaves the server's own rules alone**, and every layer's are those
of one held before, or of an export. -/
theorem step_imports (s : Importing) (op : ImportOp) :
    (s.step inflate op).model.merges = s.model.merges ∧
    ∀ x ∈ (s.step inflate op).model.imports, (∃ y ∈ s.model.imports, x.merges = y.merges) ∨
      ∃ text label cm y, datasetFromExportText inflate text label cm = .ok y ∧
        x.merges = y.merges := by
  have hsame : ∀ {s' : Importing}, s'.model.merges = s.model.merges →
      s'.model.imports ⊆ s.model.imports →
      s'.model.merges = s.model.merges ∧ ∀ x ∈ s'.model.imports,
      (∃ y ∈ s.model.imports, x.merges = y.merges) ∨
        ∃ text label cm y, datasetFromExportText inflate text label cm = .ok y ∧
        x.merges = y.merges :=
    fun hm hl => ⟨hm, fun x hx => Or.inl ⟨x, hl hx, rfl⟩⟩
  cases op with
  | importExport text label now =>
    rw [Importing.step, Importing.importExport]
    split
    · exact hsame rfl (List.Subset.refl _)
    · next x hx =>
      split
      · exact hsame rfl (List.Subset.refl _)
      · exact hsame rfl (List.Subset.refl _)
      · next keeps replaces hj =>
        obtain ⟨a, ha⟩ := (Importing.foldl_dropImportAudio (replaces.map (·.id)).reverse s).1.model
        have hmerges := congrArg AssocModel.merges ha
        refine ⟨hmerges, fun y hy => ?_⟩
        rcases List.mem_append.1 hy with hy | hy
        · exact Or.inl ⟨y, (judge_add hj).subset (List.mem_append_left replaces hy), rfl⟩
        · rw [List.mem_singleton.1 hy]
          exact Or.inr ⟨text, label, _, x, hx, rfl⟩
  | removeImport id =>
    obtain ⟨hdrop, -⟩ := s.dropImportAudio_spec id
    obtain ⟨a, ha⟩ := hdrop.model
    rw [Importing.step, Importing.removeImport]
    split_ifs
    · have hmerges := congrArg AssocModel.merges ha
      refine hsame hmerges fun x hx => ?_
      rw [← hdrop.imports]
      exact List.mem_of_mem_eraseP hx
    · exact hsame rfl (List.Subset.refl _)
  | clearImports =>
    obtain ⟨hdrop, -⟩ := s.dropAllImportAudio_spec
    obtain ⟨a, ha⟩ := hdrop.model
    rw [Importing.step, Importing.clearImports]
    dsimp only
    have hmerges := congrArg AssocModel.merges ha
    split_ifs
    · exact hsame hmerges (hdrop.imports ▸ List.Subset.refl _)
    · exact hsame hmerges (List.nil_subset _)
  | clear now =>
    obtain ⟨a, ha⟩ := s.dropAllImportAudio_spec.1.model
    have hmerges := congrArg AssocModel.merges ha
    exact hsame hmerges (List.nil_subset _)
  | beginUpload id name data =>
    rw [Importing.step, Importing.beginUpload]
    split <;> exact hsame rfl (List.Subset.refl _)
  | endUpload i written =>
    rw [Importing.step, Importing.endUpload]
    split
    · exact hsame rfl (List.Subset.refl _)
    · next u _ =>
      dsimp only
      split_ifs
      · obtain ⟨hm, hl⟩ :=
          Importing.attach_rules (({ s with flights := s.flights.eraseIdx i }).writeFile u) u
        exact ⟨hm, fun x hx => Or.inl (hl x hx)⟩
      · exact hsame rfl (List.Subset.refl _)

namespace Kept

theorem start (model : AssocModel) (root : Bytes) (cap : ℕ) (files : SortedMap Bytes Bytes) :
    (start model root cap files).Kept := ⟨.empty, fun _ h => absurd h List.not_mem_nil⟩

theorem merge (h : s.Kept) (family frm dst : Bytes) (written : Bool) :
    (s.mergeNetworks family frm dst written).1.Kept := by
  rcases hb : (s.mergeNetworks family frm dst written).2 with _ | _
  · have heq : (s.mergeNetworks family frm dst written).1 = s := by
      rw [mergeNetworks] at hb ⊢
      split at hb
      · rfl
      · cases hb
    rwa [heq]
  · obtain ⟨m, hm, heq⟩ := mergeNetworks_eq hb
    rw [heq]
    refine ⟨?_, ?_⟩
    · rw [own_saveMerges]
      exact h.own.add hm
    · rw [layers_saveMerges]
      exact List.forall_mem_map.2 fun x hx => (h.layers x hx).giveWay family frm

theorem unmerge (h : s.Kept) (family key : Bytes) (written : Bool) :
    (s.unmergeNetwork family key written).1.Kept := by
  rcases hb : (s.unmergeNetwork family key written).2 with _ | _
  · have heq : (s.unmergeNetwork family key written).1 = s := by
      rw [unmergeNetwork] at hb ⊢
      dsimp only at hb ⊢
      split_ifs at hb ⊢
      rfl
    rwa [heq]
  · rw [unmergeNetwork_eq hb]
    refine ⟨?_, ?_⟩
    · rw [own_saveMerges]
      exact h.own.remove family key
    · rw [layers_saveMerges]
      exact List.forall_mem_map.2 fun x hx => (h.layers x hx).remove family key

theorem useFile (h : s.Kept) (path : Bytes) : (s.useMergesFile path).1.Kept := by
  rw [useMergesFile]
  dsimp only
  split
  · exact ⟨h.own, h.layers⟩
  · split
    · exact ⟨h.own, h.layers⟩
    · next m hm => exact ⟨heldRules_of_load hm, h.layers⟩

/-- **Every operation keeps them.** -/
theorem step (h : s.Kept) (op : RuleOp) : (s.step inflate op).Kept := by
  cases op with
  | mergeNetworks family frm dst written => exact h.merge family frm dst written
  | unmergeNetwork family key written => exact h.unmerge family key written
  | useMergesFile path => exact h.useFile path
  | imports op =>
    have hown : (s.step inflate (.imports op)).own = s.own := (step_imports s.importing op).1
    refine ⟨hown ▸ h.own, fun x hx => ?_⟩
    rcases (step_imports s.importing op).2 x hx with ⟨y, hy, he⟩ | ⟨text, label, cm, y, hy, he⟩
    · exact he ▸ h.layers y hy
    · exact he ▸ rulesFlat_of_export hy
  | touch path content => cases content <;> exact ⟨h.own, h.layers⟩

/-- **What is kept along every run.** -/
theorem run (h : s.Kept) (ops : List RuleOp) : (s.run inflate ops).Kept :=
  List.foldlRecOn ops _ h fun _ h op _ => h.step op

/-! ## What the rules in effect do

A rule that is in effect leads a key to one that leads nowhere else, and merging or undoing has the
effect that was asked for. -/

/-- **The rules in effect are flat.** -/
theorem view (h : s.Kept) : RulesFlat s.view :=
  List.foldlRecOn s.layers _ h.own.flat fun _ hm x _ => hm.union x.merges

end Kept

/-- Merged networks are shown as one. -/
theorem root_of_merge {family frm dst : Bytes} {written : Bool}
    (hb : (s.mergeNetworks family frm dst written).2 = true) :
    mergeRoot (s.mergeNetworks family frm dst written).1.view family frm =
      mergeRoot (s.mergeNetworks family frm dst written).1.view family dst := by
  obtain ⟨m, hm, heq⟩ := mergeNetworks_eq hb
  rw [heq, view_eq, own_saveMerges, layers_saveMerges]
  refine List.foldlRecOn (motive := fun m => mergeRoot m family frm = mergeRoot m family dst) _ _
    (mergeRoot_add hm)
    fun m h x _ => mergeRoot_union_congr x.merges h

/-- **A key whose merge is undone is in no rule in effect.** -/
theorem Kept.not_mentions_unmerge (h : s.Kept) {family key : Bytes} {written : Bool}
    (hb : (s.unmergeNetwork family key written).2 = true) :
    ¬Mentions (s.unmergeNetwork family key written).1.view family key := by
  rw [unmergeNetwork_eq hb, view_eq, own_saveMerges, layers_saveMerges]
  refine List.foldlRecOn (motive := fun m => ¬Mentions m family key) _ _
    (not_mentions_remove h.own.flat family key)
    fun m hm x hx => not_mentions_union hm ?_
  obtain ⟨y, hy, rfl⟩ := List.mem_map.1 hx
  exact not_mentions_remove (h.layers y hy) family key

/-! ## The file

A server that starts from the file of another has its own rules, not those of its imports. -/

/-- **The file restores the rules**: a server that uses it has them as its own. -/
def Restores (s : RuleServer) : Prop := ∀ fresh : RuleServer, fresh.files = s.files →
  (fresh.useMergesFile s.mergesFile).2 = true ∧ (fresh.useMergesFile s.mergesFile).1.own = s.own

/-- **The file that is saved restores the rules.** -/
theorem Kept.restores (h : s.Kept) (hf : s.mergesFile ≠ []) : (s.saveMerges true).Restores := by
  intro fresh hfiles
  have hfind : fresh.files.find? s.mergesFile = some (mergesText s.own) := by
    rw [hfiles, saveMerges, if_neg (by simp [hf])]
    exact SortedMap.find?_insert_self ..
  rw [mergesFile_saveMerges, own_saveMerges, useMergesFile]
  dsimp only
  rw [hfind]
  dsimp only
  rw [loadMerges_mergesText h.own]
  exact ⟨rfl, rfl⟩

/-- A save that goes well is there to load. -/
theorem Kept.restores_merge (h : s.Kept) (hf : s.mergesFile ≠ []) {family frm dst : Bytes}
    (hb : (s.mergeNetworks family frm dst true).2 = true) :
    (s.mergeNetworks family frm dst true).1.Restores := by
  obtain ⟨m, hm, heq⟩ := mergeNetworks_eq hb
  rw [heq]
  refine Kept.restores ⟨h.own.add hm, ?_⟩ hf
  exact List.forall_mem_map.2 fun x hx => (h.layers x hx).giveWay family frm

theorem Kept.restores_unmerge (h : s.Kept) (hf : s.mergesFile ≠ []) {family key : Bytes}
    (hb : (s.unmergeNetwork family key true).2 = true) :
    (s.unmergeNetwork family key true).1.Restores := by
  rw [unmergeNetwork_eq hb]
  refine Kept.restores ⟨h.own.remove family key, ?_⟩ hf
  exact List.forall_mem_map.2 fun x hx => (h.layers x hx).remove family key

/-- **The merge rules stay flat, and do what they say**, after any operations on any files.  In the
rules in effect no target is a source, and no key leads to itself; merged networks are shown as one;
a key whose merge is undone is in no rule; and the file that either wrote restores the server's own
rules. -/
theorem mergeRules_hold (inflate : Bytes → Option Bytes) (model : AssocModel) (root : Bytes)
    (cap : ℕ) (files : SortedMap Bytes Bytes) (ops : List RuleOp) {s : RuleServer}
    (hs : (start model root cap files).run inflate ops = s) :
    (∀ family k v, (rulesOf s.view family).find? k = some v → v ∉ rulesOf s.view family ∧ v ≠ k) ∧
    (∀ family frm dst written, (s.mergeNetworks family frm dst written).2 = true →
      mergeRoot (s.mergeNetworks family frm dst written).1.view family frm =
        mergeRoot (s.mergeNetworks family frm dst written).1.view family dst) ∧
    (∀ family key written, (s.unmergeNetwork family key written).2 = true →
      ¬Mentions (s.unmergeNetwork family key written).1.view family key) ∧
    (s.mergesFile ≠ [] →
      (∀ family frm dst, (s.mergeNetworks family frm dst true).2 = true →
        (s.mergeNetworks family frm dst true).1.Restores) ∧
      ∀ family key, (s.unmergeNetwork family key true).2 = true →
        (s.unmergeNetwork family key true).1.Restores) := by
  have h : s.Kept := hs ▸ (Kept.start model root cap files).run ops
  refine ⟨fun family k v hv => ?_, fun _ _ _ _ => root_of_merge,
    fun _ _ _ => h.not_mentions_unmerge,
    fun hf => ⟨fun _ _ _ => h.restores_merge hf, fun _ _ => h.restores_unmerge hf⟩⟩
  have hflat := h.view family k v hv
  exact ⟨hflat, fun he => hflat (he ▸ SortedMap.mem_of_find? hv)⟩

/-- An export with two rules for its networks. -/
def ruleExport : Bytes :=
  lit ("\x7b\"instance\":\"beta\",\"exported\":3," ++
    "\"merges\":\x7b\"dmr\":\x7b\"b\":\"c\",\"d\":\"b\"\x7d\x7d," ++
    "\"families\":\x7b\"dmr\":\x7b\"networks\":" ++
    "[\x7b\"key\":\"b\"\x7d,\x7b\"key\":\"d\"\x7d]\x7d\x7d\x7d")

/-- A rule of the server's own takes the place of one that was imported; its target is merged on. -/
def ruledServer : RuleServer :=
  (start {} [] 0 ∅).run (fun _ => none)
    [.useMergesFile (lit "rules"), .imports (.importExport ruleExport (lit "x") 5),
      .mergeNetworks (lit "dmr") (lit "b~beta") [255, 0, 34] true,
      .mergeNetworks (lit "dmr") [255, 0, 34] (lit "a") true]

theorem mergeRules_hold_ruledServer :
    (ruledServer.view.entries.map fun e => (e.1, e.2.entries)) =
      [(lit "dmr", [(lit "b~beta", lit "a"), (lit "d~beta", lit "c"), ([255, 0, 34], lit "a")])] ∧
    (∀ family k v, (rulesOf ruledServer.view family).find? k = some v →
      v ∉ rulesOf ruledServer.view family ∧ v ≠ k) ∧
    ¬Mentions (ruledServer.unmergeNetwork (lit "dmr") (lit "a") true).1.view (lit "dmr") (lit "a") ∧
    (ruledServer.mergeNetworks (lit "dmr") (lit "e") (lit "b~beta") true).1.Restores := by
  obtain ⟨hflat, -, hundone, hfile⟩ :=
    mergeRules_hold (fun _ => none) {} [] 0 ∅ _ (s := ruledServer) rfl
  refine ⟨by decide +kernel, hflat, hundone _ _ true (by decide +kernel), ?_⟩
  exact (hfile (by decide +kernel)).1 _ _ _ (by decide +kernel)

end RuleServer

end DsdServer
