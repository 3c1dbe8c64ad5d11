import DsdServer.Merge.Spans
import DsdServer.Merge.Uploads

/-!
# Merge/Provenance — no span is shown twice

The live data covers a span of time of this run, and so does each source of a held layer.  A new
layer replaces those it covers, and nothing joins that overlaps the rest; `import_provenance` —
**the spans of the live data and of the layers stay apart**, whatever is imported, removed and
cleared.

Whether a dataset may join is judged by its spans.  One that is covered is skipped, and one that
overlaps the live data is refused; the layers that it covers are replaced, and any other overlap
refuses it too.  So once it has joined, all that is left is apart.
-/

open Bytes

namespace DsdServer

/-! ## Spans that are apart

Spans of different runs have nothing to do with each other.  Two of one run are apart when one ends
before the other begins; touching is allowed. -/

/-- Two spans of one run have no time in common. -/
def Apart (a b : DsSource) : Prop :=
  a.instanceId = b.instanceId → a.through ≤ b.since ∨ b.through ≤ a.since

instance (a b : DsSource) : Decidable (Apart a b) := inferInstanceAs (Decidable (_ → _))

theorem Apart.symm {a b : DsSource} (h : Apart a b) : Apart b a := fun hi => (h hi.symm).symm

/-- **An upload with sources of its own**: spans apart from each other, none empty, and none that
ends after the import. -/
structure Sourced (now : ℤ) (x : Dataset) : Prop where
  some : x.sources ≠ []
  apart : x.sources.Pairwise Apart
  spans : ∀ a ∈ x.sources, a.since < a.through ∧ a.through ≤ now

/-- The export has sources of its own, however channels are merged. -/
def OwnSources (inflate : Bytes → Option Bytes) (text label : Bytes) (now : ℤ) : Prop :=
  ∀ cm x, datasetFromExportText inflate text label cm = .ok x → Sourced now x

/-- Every source lies within one of those others. -/
def Within (xs ys : List DsSource) : Prop :=
  ∀ b ∈ xs, ∃ a ∈ ys, a.instanceId = b.instanceId ∧ a.since ≤ b.since ∧ b.through ≤ a.through

theorem srcOverlaps_eq_false_iff {a b : DsSource} (h : a.since < a.through) :
    srcOverlaps a b = false ↔ Apart a b := by
  rw [← Bool.not_eq_true]
  simp only [srcOverlaps, Bool.and_eq_true, Bool.or_eq_true, decide_eq_true_eq, Apart]
  by_cases hi : a.instanceId = b.instanceId
  · simp only [hi, true_and, forall_const]
    omega
  · simp only [hi, false_and, not_false_iff, false_imp_iff]

theorem sourcesOverlap_eq_false_iff {xs ys : List DsSource} (h : ∀ a ∈ xs, a.since < a.through) :
    sourcesOverlap xs ys = false ↔ ∀ a ∈ xs, ∀ b ∈ ys, Apart a b := by
  simp only [sourcesOverlap, List.any_eq_false, Bool.not_eq_true]
  exact forall₂_congr fun a ha => forall₂_congr fun b _ => srcOverlaps_eq_false_iff (h a ha)

theorem sourcesCovered_iff {xs ys : List DsSource} :
    sourcesCovered xs ys = true ↔ Within xs ys := by
  simp only [sourcesCovered, List.all_eq_true, List.any_eq_true, srcContains, Bool.and_eq_true,
    decide_eq_true_eq, Within, and_assoc]

/-! ## What the verdict says

A file is judged by its sources against the live data and the layers: it is refused, skipped, or
added in place of those it covers. -/

/-- **The layers that stay are those the dataset has nothing of, and the others are covered.** -/
theorem judgeLayers_spec {x : Dataset} {layers : List Dataset} : ∀ {keeps replaces : List Dataset},
    judgeLayers x layers = .add keeps replaces →
      keeps = layers.filter (fun l => sourcesOverlap x.sources l.sources = false) ∧
        ∀ l ∈ layers, sourcesOverlap x.sources l.sources = true →
          sourcesCovered l.sources x.sources = true := by
  induction layers with
  | nil =>
    intro keeps replaces h
    cases h
    exact ⟨rfl, fun l hl => absurd hl List.not_mem_nil⟩
  | cons l layers ih =>
    intro keeps replaces h
    rw [judgeLayers] at h
    rcases hj : judgeLayers x layers with ⟨k, r⟩ | why | why
    · obtain ⟨hk, hcov⟩ := ih hj
      rw [hj] at h
      split_ifs at h with hov hc
      · cases h
        refine ⟨by rw [List.filter_cons_of_neg (by simp [hov]), hk],
          List.forall_mem_cons.2 ⟨fun _ => hc, hcov⟩⟩
      · cases h
        refine ⟨by rw [List.filter_cons_of_pos (by simpa using hov), hk],
          List.forall_mem_cons.2 ⟨?_, hcov⟩⟩
        exact fun hov' => absurd hov' hov
    · rw [hj] at h
      split_ifs at h
    · rw [hj] at h
      split_ifs at h

namespace Importing

variable {s s' : Importing} {inflate : Bytes → Option Bytes}

/-! ## Layers that are apart

What is added overlaps neither the live data nor the layers that stay.  The live data grows from its
beginning on, so a layer of this run that ends before that beginning stays apart from it. -/

/-- **The layers' spans are apart, and of this run none reaches into the live data.** -/
structure Disjoint (s : Importing) : Prop where
  layers : (s.model.imports.flatMap (·.sources)).Pairwise Apart
  live : ∀ l ∈ s.model.imports, ∀ b ∈ l.sources, b.instanceId = s.model.instanceId →
    b.through ≤ s.model.since

/-- A dataset joins: the layers it overlaps go, and lie within it. -/
structure Joins (s s' : Importing) (x : Dataset) : Prop where
  kept : ∃ layer, layer.sources = x.sources ∧ s'.model.imports =
    (s.model.imports.filter fun l => ∀ a ∈ x.sources, ∀ b ∈ l.sources, Apart a b) ++ [layer]
  covered : ∀ l ∈ s.model.imports, (∃ a ∈ x.sources, ∃ b ∈ l.sources, ¬ Apart a b) →
    Within l.sources x.sources

/-- What joining a layer does to the layers, and to the live data. -/
theorem addLayer_spec (s : Importing) (x : Dataset) (keeps replaces : List Dataset) (now : ℤ) :
    (∃ layer, layer.sources = x.sources ∧
      (s.addLayer x keeps replaces now).model.imports = keeps ++ [layer]) ∧
      (s.addLayer x keeps replaces now).model.instanceId = s.model.instanceId ∧
      (s.addLayer x keeps replaces now).model.since = s.model.since := by
  obtain ⟨a, ha⟩ := (foldl_dropImportAudio (replaces.map (·.id)).reverse s).1.model
  refine ⟨⟨_, ?_, rfl⟩, ?_, ?_⟩
  · rfl
  · have hid := congrArg AssocModel.instanceId ha
    exact hid
  · have hsince := congrArg AssocModel.since ha
    exact hsince

/-- **What a verdict that adds has made sure of.** -/
theorem judge_spec {x : Dataset} {layers keeps replaces : List Dataset} {live : DsSource}
    (h : judge x layers (some [live]) = .add keeps replaces) :
    sourcesOverlap x.sources [live] = false ∧
      keeps = layers.filter (fun l => sourcesOverlap x.sources l.sources = false) ∧
      ∀ l ∈ layers, sourcesOverlap x.sources l.sources = true →
        sourcesCovered l.sources x.sources = true := by
  rw [judge] at h
  split_ifs at h with hcovered hany hlive
  · split at h <;> cases h
  · exact ⟨by simpa using hlive, judgeLayers_spec h⟩

/-- **What an import does**: it joins, or nothing changes. -/
theorem importExport_spec {text label : Bytes} {now : ℤ}
    (hx : OwnSources inflate text label now) :
    (∃ x, datasetFromExportText inflate text label ⟨s.model.perReceiver, s.model.name⟩ = .ok x ∧
      sourcesOverlap x.sources [s.liveSource now] = false ∧
        Joins s (s.importExport inflate text label now).1 x ∧
      ((s.importExport inflate text label now).2.status = lit "imported" ∨
        (s.importExport inflate text label now).2.status = lit "replaced") ∧
      (s.importExport inflate text label now).1.model.instanceId = s.model.instanceId ∧
      (s.importExport inflate text label now).1.model.since = s.model.since) ∨
    (s.importExport inflate text label now).1 = s ∧
      (s.importExport inflate text label now).2.status ∈ [lit "invalid", lit "skipped",
        lit "refused"] := by
  rw [importExport]
  rcases hd : datasetFromExportText inflate text label ⟨s.model.perReceiver, s.model.name⟩ with
    e | x
  · exact Or.inr ⟨rfl, by simp⟩
  dsimp only
  rcases hj : judge x s.model.imports (some [s.liveSource now]) with ⟨keeps, replaces⟩ | why | why
  · have hsrc := hx _ x hd
    have hfull := fun a ha => (hsrc.spans a ha).1
    obtain ⟨hlive, hkeeps, hcov⟩ := judge_spec hj
    obtain ⟨⟨layer, hlayer, himports⟩, hid, hsince⟩ := s.addLayer_spec x keeps replaces now
    refine Or.inl ⟨x, rfl, hlive, ⟨⟨layer, hlayer, ?_⟩, ?_⟩, ?_, hid, hsince⟩
    · rw [himports, hkeeps]
      simp only [sourcesOverlap_eq_false_iff hfull]
    · rintro l hl ⟨a, ha, b, hb, hab⟩
      refine sourcesCovered_iff.1 (hcov l hl ?_)
      by_contra hov
      exact hab ((sourcesOverlap_eq_false_iff hfull).1 (Bool.not_eq_true _ ▸ hov) a ha b hb)
    · by_cases hr : replacedLabels replaces = []
      · exact Or.inl (if_pos hr)
      · exact Or.inr (if_neg hr)
  · exact Or.inr ⟨rfl, by simp⟩
  · exact Or.inr ⟨rfl, by simp⟩

namespace Disjoint

/-- The same sources, of the same run. -/
theorem congr (h : s.Disjoint)
    (hl : s'.model.imports.map (·.sources) = s.model.imports.map (·.sources))
    (hi : s'.model.instanceId = s.model.instanceId) (hs : s'.model.since = s.model.since) :
    s'.Disjoint := by
  refine ⟨?_, fun l hlm b hb hb' => ?_⟩
  · rw [List.flatMap_def, hl, ← List.flatMap_def]
    exact h.layers
  · obtain ⟨l', hl', he⟩ :=
      List.mem_map.1 (hl ▸ List.mem_map_of_mem hlm : l.sources ∈ s.model.imports.map (·.sources))
    rw [hs]
    exact h.live l' hl' b (he ▸ hb) (hb'.trans hi)

/-- Fewer layers. -/
theorem sublist (h : s.Disjoint) (hl : s'.model.imports.Sublist s.model.imports)
    (hi : s'.model.instanceId = s.model.instanceId) (hs : s'.model.since = s.model.since) :
    s'.Disjoint := by
  refine ⟨h.layers.sublist (hl.flatMap _), fun l hlm b hb hb' => ?_⟩
  rw [hs]
  exact h.live l (hl.subset hlm) b hb (hb'.trans hi)

/-- **A dataset that joins is apart from what stays.** -/
theorem joins (h : s.Disjoint) {x : Dataset} {now : ℤ} (hx : Sourced now x) (hj : Joins s s' x)
    (hlive : sourcesOverlap x.sources [s.liveSource now] = false)
    (hi : s'.model.instanceId = s.model.instanceId) (hs : s'.model.since = s.model.since) :
    s'.Disjoint := by
  obtain ⟨layer, hlayer, himports⟩ := hj.kept
  rw [sourcesOverlap_eq_false_iff fun a ha => (hx.spans a ha).1] at hlive
  constructor
  · rw [himports, List.flatMap_append, List.pairwise_append, List.flatMap_singleton, hlayer]
    refine ⟨h.layers.sublist (List.filter_sublist.flatMap _), hx.apart, fun b hb a ha => ?_⟩
    obtain ⟨l, hl, hb⟩ := List.mem_flatMap.1 hb
    exact (of_decide_eq_true (List.mem_filter.1 hl).2 a ha b hb).symm
  · intro l hl b hb hb'
    rw [himports, List.mem_append, List.mem_singleton] at hl
    rw [hs]
    rcases hl with hl | rfl
    · exact h.live l (List.mem_filter.1 hl).1 b hb (hb'.trans hi)
    · -- it ends before the live data begins: it does not end after the import
      rw [hlayer] at hb
      obtain ⟨hfull, hthrough⟩ := hx.spans b hb
      rcases hlive b hb _ List.mem_cons_self (hb'.trans hi) with h | h
      · exact h
      · change now ≤ b.since at h
        omega

/-- Where layers stay, spans stay apart. -/
theorem sameLayers (h : s.Disjoint) (hs : SameLayers s s') : s'.Disjoint := by
  obtain ⟨a, ha⟩ := hs.model
  exact h.congr (congrArg _ hs.imports) (by rw [ha]) (by rw [ha])

/-- Without layers there is nothing to be apart. -/
theorem blank (h : s.model.imports = []) : s.Disjoint := by
  refine ⟨?_, fun l hl => ?_⟩
  · rw [h]
    exact .nil
  · rw [h] at hl
    exact absurd hl List.not_mem_nil

/-- **An import keeps the spans apart.** -/
theorem importExport (h : s.Disjoint) {text label : Bytes} {now : ℤ}
    (hx : OwnSources inflate text label now) :
    (s.importExport inflate text label now).1.Disjoint := by
  rcases importExport_spec hx with ⟨x, hd, hlive, hj, -, hi, hs⟩ | ⟨he, -⟩
  · exact h.joins (hx _ x hd) hj hlive hi hs
  · rwa [he]

theorem removeImport (h : s.Disjoint) (id : ℕ) : (s.removeImport id).1.Disjoint := by
  have hdrop := (s.dropImportAudio_spec id).1
  rw [Importing.removeImport]
  split_ifs
  · refine (h.sameLayers hdrop).sublist ?_ rfl rfl
    exact List.eraseP_sublist
  · exact h

/-- A file that is attached changes no span. -/
theorem attach (h : s.Disjoint) (u : Upload) : (s.attach u).1.Disjoint := by
  have hplay : ∀ (ws : List AudioWant) (x : Dataset), (ws.foldl (playWant u.served) x).sources =
      x.sources := by
    intro ws
    induction ws with
    | nil => exact fun _ => rfl
    | cons w ws ih => exact fun x => ih _
  rw [Importing.attach]
  split
  · split_ifs
    · exact h
    · refine h.congr ?_ rfl rfl
      rw [List.map_map]
      refine List.map_congr_left fun x _ => ?_
      rw [Function.comp_apply]
      split_ifs
      · exact hplay _ x
      · rfl
  · exact h.congr rfl rfl rfl

/-- **Every operation keeps the spans apart.** -/
theorem step (h : s.Disjoint) {op : ImportOp}
    (hop : ∀ text label now, op = .importExport text label now →
      OwnSources inflate text label now) :
    (s.step inflate op).Disjoint := by
  cases op with
  | importExport text label now => exact h.importExport (hop text label now rfl)
  | removeImport id => exact h.removeImport id
  | clearImports =>
    have hdrop := h.sameLayers s.dropAllImportAudio_spec.1
    rw [Importing.step, Importing.clearImports]
    dsimp only
    split_ifs
    · exact hdrop
    · exact .blank rfl
  | clear now => exact .blank rfl
  | beginUpload id name data =>
    rw [Importing.step, Importing.beginUpload]
    split
    · exact h
    · exact h.congr rfl rfl rfl
  | endUpload i written =>
    rw [Importing.step, Importing.endUpload]
    split
    · exact h
    · next u _ =>
      dsimp only
      split_ifs
      · refine attach ?_ u
        exact h.congr rfl rfl rfl
      · exact h.congr rfl rfl rfl

/-- **The spans along a run.** -/
theorem run (ops : List ImportOp) : ∀ {s : Importing}, s.Disjoint →
    (∀ text label now, .importExport text label now ∈ ops → OwnSources inflate text label now) →
      (s.run inflate ops).Disjoint := by
  induction ops with
  | nil => exact fun h _ => h
  | cons op ops ih =>
    intro s h hops
    have hstep : (s.step inflate op).Disjoint :=
      h.step fun text label now he => hops text label now (he ▸ List.mem_cons_self)
    exact ih hstep fun text label now hm => hops text label now (List.mem_cons_of_mem op hm)

end Disjoint

/-- **No span is shown twice**: whatever is imported, removed, uploaded for and cleared, the spans
of the live data, up to any time, and of the layers held are apart.  A further import that is
accepted removes the layers it overlaps, and no others, and each lies within it; any other import
changes nothing. -/
theorem import_provenance {model : AssocModel} {root : Bytes} {cap : ℕ} {ops : List ImportOp}
    {s : Importing} (hs : (start model root cap).run inflate ops = s)
    (hops : ∀ text label now, .importExport text label now ∈ ops →
      OwnSources inflate text label now) :
    (∀ now, (s.liveSource now :: s.model.imports.flatMap (·.sources)).Pairwise Apart) ∧
      ∀ text label now, OwnSources inflate text label now →
        ((s.importExport inflate text label now).2.status ∈ [lit "imported", lit "replaced"] →
          ∃ x, datasetFromExportText inflate text label ⟨s.model.perReceiver,
            s.model.name⟩ = .ok x ∧
            Joins s (s.importExport inflate text label now).1 x) ∧
        ((s.importExport inflate text label now).2.status ∉ [lit "imported", lit "replaced"] →
          (s.importExport inflate text label now).1 = s) := by
  subst hs
  have hdisjoint : ((start model root cap).run inflate ops).Disjoint :=
    Disjoint.run ops (.blank rfl) hops
  refine ⟨fun now => List.pairwise_cons.2 ⟨fun b hb hi => ?_, hdisjoint.layers⟩,
    fun text label now hx => ⟨?_, ?_⟩⟩
  · obtain ⟨l, hl, hb⟩ := List.mem_flatMap.1 hb
    exact Or.inr (hdisjoint.live l hl b hb hi.symm)
  · intro hstatus
    rcases importExport_spec hx with ⟨x, hd, -, hj, -⟩ | ⟨-, hother⟩
    · exact ⟨x, hd, hj⟩
    · have hdiffer : ∀ b ∈ [lit "invalid", lit "skipped", lit "refused"],
          b ∉ [lit "imported", lit "replaced"] := by
        decide
      exact absurd hstatus (hdiffer _ hother)
  · intro hstatus
    rcases importExport_spec hx with ⟨x, -, -, -, hin | hin, -⟩ | ⟨he, -⟩
    · rw [hin] at hstatus
      exact absurd List.mem_cons_self hstatus
    · rw [hin] at hstatus
      exact absurd (List.mem_cons_of_mem _ List.mem_cons_self) hstatus
    · exact he

/-! ## A run -/

/-- However channels are merged, a file has the same sources. -/
theorem sources_of_text {text label : Bytes} {cm : ChannelMerge} {x : Dataset}
    (h : datasetFromExportText inflate text label cm = .ok x) (cm' : ChannelMerge) :
    ∃ y, datasetFromExportText inflate text label cm' = .ok y ∧ y.sources = x.sources := by
  obtain ⟨o, ho⟩ : ∃ o,
      (if ([0x1f, 0x8b] : Bytes).isPrefixOf text then inflate text else some text) = o := ⟨_, rfl⟩
  simp only [datasetFromExportText, ho] at h ⊢
  rcases o with _ | t
  · cases h
  · dsimp only at h ⊢
    split_ifs at h ⊢
    rcases hp : mjson.parse t with e | root
    · rw [hp] at h
      cases h
    · rw [hp] at h
      dsimp only at h ⊢
      rw [datasetFromExport] at h ⊢
      rcases hr : refused root with _ | e
      · rw [hr] at h
        obtain rfl := Except.ok.inj h
        exact ⟨_, rfl, rfl⟩
      · rw [hr] at h
        cases h

/-- An export of one span that does not end after the import. -/
theorem ownSources_of_exportOf {text label : Bytes} {now : ℤ}
    (h : (exportOf inflate {} (label, text)).any fun a => a.through ≤ now) :
    OwnSources inflate text label now := by
  obtain ⟨a, ha, hthrough⟩ := (Option.any_eq_true _ _).1 h
  obtain ⟨y, hy, hsources, -, hfull⟩ := exports_iff.2 ha
  intro cm x hx
  obtain ⟨y', hy', hsame⟩ := sources_of_text hx {}
  obtain rfl := Except.ok.inj (hy'.symm.trans hy)
  rw [hsame] at hsources
  refine ⟨?_, ?_, ?_⟩
  · rw [hsources]
    exact List.cons_ne_nil a []
  · rw [hsources]
    exact List.pairwise_singleton Apart a
  · rw [hsources, List.forall_mem_singleton]
    exact ⟨hfull, of_decide_eq_true hthrough⟩

/-- A longer export of this run replaces a shorter one, and one of another run goes. -/
def threeImports : List ImportOp :=
  [.importExport (spanExport "alpha" "1" "3") (lit "a") 10,
    .importExport (spanExport "beta" "2" "4") (lit "b") 12,
    .importExport (spanExport "alpha" "1" "9") (lit "c") 15, .removeImport 2]

/-- What is imported is of one span, which does not end after the import. -/
def timely : ImportOp → Bool
  | .importExport text label now => (exportOf (fun _ => none) {} (label, text)).any fun a =>
    a.through ≤ now
  | _ => true

theorem import_provenance_threeImports :
    (((start { instanceId := lit "alpha", since := 9 } [] 0).run
      (fun _ => none) threeImports).model.imports.flatMap
      fun x => x.sources.map DsSource.span) = [⟨lit "alpha", 1, 9⟩] ∧
    ∀ now, (((start { instanceId := lit "alpha", since := 9 } [] 0).run
      (fun _ => none) threeImports).liveSource now ::
      ((start { instanceId := lit "alpha", since := 9 } [] 0).run
        (fun _ => none) threeImports).model.imports.flatMap
        (·.sources)).Pairwise Apart := by
  refine ⟨by decide +kernel, (import_provenance rfl fun text label now h => ?_).1⟩
  have hall : ∀ op ∈ threeImports, timely op = true := by decide +kernel
  exact ownSources_of_exportOf (hall _ h)

end Importing

end DsdServer
