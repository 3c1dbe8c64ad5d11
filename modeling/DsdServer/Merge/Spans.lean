import DsdServer.Data.Maximal
import DsdServer.Merge.Fold

/-!
# Merge/Spans — merging files in any order

An export covers a span of time of one server run.  Of two exports of a run the longer one replaces
the shorter, whichever comes first; so what a merge covers does not depend on the order of the
files.

* `mergeExports_spans` — **a merge covers the maximal spans of its files, each once**, in every
  order.

Spans are compared within one server run, and by their ends.  That the result does not depend on the
order is not shown by swapping files, but by saying what it is: the spans that lie in no other.
-/

open Bytes

namespace DsdServer

/-! ## Spans

The order of spans is what decides a merge.  In it spans of different runs cannot be compared. -/

/-- A span of time of a server run. -/
@[ext] structure Span where
  instanceId : Bytes
  since : ℤ
  through : ℤ
  deriving DecidableEq

namespace Span

/-- A span lies within another. -/
instance : PartialOrder Span where
  le a b := a.instanceId = b.instanceId ∧ b.since ≤ a.since ∧ a.through ≤ b.through
  le_refl _ := ⟨rfl, le_rfl, le_rfl⟩
  le_trans _ _ _ h h' := ⟨h.1.trans h'.1, h'.2.1.trans h.2.1, h.2.2.trans h'.2.2⟩
  le_antisymm _ _ h h' := Span.ext h.1 (h'.2.1.antisymm h.2.1) (h.2.2.antisymm h'.2.2)

/-- One span is within another when it is of the same run and goes no further on either side. -/
theorem le_iff {a b : Span} :
    a ≤ b ↔ a.instanceId = b.instanceId ∧ b.since ≤ a.since ∧ a.through ≤ b.through := Iff.rfl

instance : DecidableLE Span := fun _ _ => decidable_of_iff _ le_iff.symm

/-- Two spans of one run are nested or apart. -/
def Nested (a b : Span) : Prop :=
  a.instanceId = b.instanceId → a ≤ b ∨ b ≤ a ∨ a.through ≤ b.since ∨ b.through ≤ a.since

end Span

/-- The span a source covers. -/
def DsSource.span (a : DsSource) : Span := ⟨a.instanceId, a.since, a.through⟩

theorem srcContains_iff {a b : DsSource} : srcContains a b = true ↔ b.span ≤ a.span := by
  simp only [srcContains, Bool.and_eq_true, decide_eq_true_eq, Span.le_iff,
    DsSource.span, and_assoc]
  exact and_congr_left fun _ => eq_comm

/-- **Spans that are nested or apart overlap exactly when they are nested.** -/
theorem srcOverlaps_iff {a b : DsSource} (h : a.span.Nested b.span) (ha : a.since < a.through)
    (hb : b.since < b.through) : srcOverlaps a b = true ↔ a.span ≤ b.span ∨ b.span ≤ a.span := by
  simp only [srcOverlaps, Bool.and_eq_true, Bool.or_eq_true, decide_eq_true_eq, Span.le_iff,
    DsSource.span]
  constructor
  · rintro ⟨hi, ho⟩
    rcases h hi with h | h | h | h
    · exact Or.inl h
    · exact Or.inr h
    · change a.through ≤ b.since at h
      omega
    · change b.through ≤ a.since at h
      omega
  · rintro (⟨hi, h₁, h₂⟩ | ⟨hi, h₁, h₂⟩)
    · exact ⟨hi, by omega⟩
    · exact ⟨hi.symm, by omega⟩

/-! ## Layers of one source each

A merge keeps a list of layers, of which each export becomes one.  With one source each, a new layer
either is covered, or drops what it covers and is added: the scan for maximal members. -/

/-- A dataset of one source. -/
def Dataset.Single (x : Dataset) (a : DsSource) : Prop := x.sources = [a]

/-- The spans some layers cover. -/
def coverage (layers : List Dataset) : List Span := (layers.flatMap (·.sources)).map DsSource.span

/-- Layers of one nonempty source each, nested with or apart from `a`. -/
def Layered (a : DsSource) (layers : List Dataset) : Prop :=
  ∀ l ∈ layers, ∃ b, l.Single b ∧ b.since < b.through ∧ a.span.Nested b.span

variable {x : Dataset} {a : DsSource} {layers : List Dataset}

theorem coverage_append (layers layers' : List Dataset) :
    coverage (layers ++ layers') = coverage layers ++ coverage layers' := by
  rw [coverage, List.flatMap_append, List.map_append]
  rfl

/-- A layer of one source covers its span. -/
theorem coverage_single (h : x.Single a) : coverage [x] = [a.span] := by
  rw [coverage, List.flatMap_cons, List.flatMap_nil, List.append_nil, h]
  rfl

theorem sourcesCovered_singleton {ys : List DsSource} :
    sourcesCovered [a] ys = true ↔ ∃ s ∈ ys.map DsSource.span, a.span ≤ s := by
  simp only [sourcesCovered, List.all_cons, List.all_nil, Bool.and_true, List.any_eq_true,
    srcContains_iff, List.mem_map, exists_exists_and_eq_and]

theorem sourcesOverlap_singleton {b : DsSource} : sourcesOverlap [a] [b] = srcOverlaps a b := by
  rw [sourcesOverlap, List.any_cons, List.any_cons, List.any_nil, List.any_nil, Bool.or_false,
    Bool.or_false]

/-- **A new span that no layer covers replaces those within it**; the other layers stay. -/
theorem judgeLayers_single (hx : x.Single a) (ha : a.since < a.through) (hl : Layered a layers)
    (hn : ¬∃ s ∈ coverage layers, a.span ≤ s) :
    ∃ keeps replaces, judgeLayers x layers = .add keeps replaces ∧ (∀ l ∈ keeps, l ∈ layers) ∧
      coverage keeps = (coverage layers).filter fun s => ¬s ≤ a.span := by
  induction layers with
  | nil => exact ⟨[], [], rfl, fun _ h => h, rfl⟩
  | cons l layers ih =>
    obtain ⟨b, hb, hbt, hab⟩ := hl l List.mem_cons_self
    have hcov : coverage (l :: layers) = b.span :: coverage layers := by
      rw [← List.singleton_append, coverage_append, coverage_single hb, List.singleton_append]
    rw [hcov] at hn
    have hnb : ¬a.span ≤ b.span := fun h => hn ⟨b.span, List.mem_cons_self, h⟩
    obtain ⟨keeps, replaces, hj, hsub, hk⟩ := ih (fun l' h => hl l' (List.mem_cons_of_mem l h))
      fun ⟨s, hs, h⟩ => hn ⟨s, List.mem_cons_of_mem _ hs, h⟩
    rw [judgeLayers, hx, hb, sourcesOverlap_singleton, hj, hcov]
    by_cases hba : b.span ≤ a.span
    · have ho : srcOverlaps a b = true := (srcOverlaps_iff hab ha hbt).2 (Or.inr hba)
      have hc : sourcesCovered [b] [a] = true :=
        sourcesCovered_singleton.2 ⟨a.span, List.mem_singleton_self _, hba⟩
      rw [if_pos ho, if_pos hc, List.filter_cons_of_neg (by simpa using hba)]
      exact ⟨keeps, l :: replaces, rfl, fun l' h => List.mem_cons_of_mem l (hsub l' h), hk⟩
    · have ho : ¬srcOverlaps a b = true := fun ho =>
        ((srcOverlaps_iff hab ha hbt).1 ho).elim hnb hba
      rw [if_neg ho, List.filter_cons_of_pos (by simpa using hba)]
      refine ⟨l :: keeps, replaces, rfl, fun l' h => ?_, ?_⟩
      · rcases List.mem_cons.1 h with rfl | h
        · exact List.mem_cons_self
        · exact List.mem_cons_of_mem l (hsub l' h)
      · rw [← List.singleton_append, coverage_append, coverage_single hb, hk, List.singleton_append]

/-! ## Files

Files that are no exports are told in the report and change nothing.  The others are taken one by
one, in the order given, and the result does not depend on it. -/

section Files

variable (inflate : Bytes → Option Bytes) (cm : ChannelMerge)

/-- **An export of one source**, of a named run and a nonempty span. -/
def Exports (f : Bytes × Bytes) (a : DsSource) : Prop :=
  ∃ x, datasetFromExportText inflate f.2 f.1 cm = .ok x ∧ x.sources = [a] ∧ a.instanceId ≠ [] ∧
    a.since < a.through

/-- The source of such an export. -/
def exportOf (f : Bytes × Bytes) : Option DsSource :=
  match datasetFromExportText inflate f.2 f.1 cm with
  | .error _ => none
  | .ok x => match x.sources with
    | [a] => if a.instanceId ≠ [] ∧ a.since < a.through then some a else none
    | _ => none

variable {inflate cm}

/-- A file is an export of a span when that is what is read from it. -/
theorem exports_iff {f : Bytes × Bytes} {a : DsSource} :
    Exports inflate cm f a ↔ exportOf inflate cm f = some a := by
  rw [exportOf]
  constructor
  · rintro ⟨x, hx, hs, hi, ht⟩
    rw [hx]
    dsimp only
    rw [hs]
    exact if_pos ⟨hi, ht⟩
  · intro h
    split at h
    · cases h
    · next x hx =>
      split at h
      · next b hs =>
        split_ifs at h with hc
        obtain rfl := Option.some.inj h
        exact ⟨x, hx, hs, hc.1, hc.2⟩
      · cases h

/-- A file is an export of one span at most. -/
theorem Exports.unique {f : Bytes × Bytes} {a b : DsSource} (h : Exports inflate cm f a)
    (h' : Exports inflate cm f b) : a = b := by
  obtain ⟨x, hx, ha, -⟩ := h
  obtain ⟨y, hy, hb, -⟩ := h'
  obtain rfl := Except.ok.inj (hx.symm.trans hy)
  exact (List.cons.inj (ha.symm.trans hb)).1

/-- **One more file**: what the layers cover takes its span. -/
theorem takeFile_single {f : Bytes × Bytes} {acc : List Dataset × List MergeReport}
    (h : Exports inflate cm f a) (hl : Layered a acc.1) :
    coverage (takeFile inflate cm acc f).1 = keepMaximal (coverage acc.1) a.span ∧
      ∀ l ∈ (takeFile inflate cm acc f).1, l ∈ acc.1 ∨ l.Single a := by
  obtain ⟨x, hx, hs, -, ha⟩ := h
  rw [takeFile, hx, keepMaximal]
  dsimp only
  by_cases hc : ∃ s ∈ coverage acc.1, a.span ≤ s
  · have hj : ∃ why, judge x acc.1 none = .skip why := by
      rw [judge, hs]
      rw [if_pos ⟨List.cons_ne_nil a [], sourcesCovered_singleton.2 hc⟩]
      rw [if_neg (by exact Bool.false_ne_true)]
      split
      · exact ⟨_, rfl⟩
      · exact ⟨_, rfl⟩
    obtain ⟨why, hj⟩ := hj
    rw [hj, if_pos hc]
    exact ⟨rfl, fun l h => Or.inl h⟩
  · obtain ⟨keeps, replaces, hj, hsub, hk⟩ := judgeLayers_single hs ha hl hc
    have hj : judge x acc.1 none = .add keeps replaces := by
      rw [judge, if_neg, if_neg, hj]
      · exact Bool.false_ne_true
      · rw [hs]
        exact fun h => hc (sourcesCovered_singleton.1 h.2)
    rw [hj, if_neg hc]
    refine ⟨?_, fun l h => ?_⟩
    · rw [coverage_append, coverage_single hs, hk]
    · rcases List.mem_append.1 h with h | h
      · exact Or.inl (hsub l h)
      · exact Or.inr (List.mem_singleton.1 h ▸ hs)

/-- The spans of files, in order. -/
theorem foldl_takeFile {files : List (Bytes × Bytes)} {spanOf : Bytes × Bytes → DsSource}
    (hf : ∀ f ∈ files, Exports inflate cm f (spanOf f))
    (hn : ∀ f ∈ files, ∀ g ∈ files, (spanOf f).span.Nested (spanOf g).span) :
    coverage (files.foldl (takeFile inflate cm) ([], [])).1 =
      (files.map fun f => (spanOf f).span).foldl keepMaximal [] ∧
      ∀ l ∈ (files.foldl (takeFile inflate cm) ([], [])).1, ∃ f ∈ files, l.Single (spanOf f) := by
  induction files using List.reverseRecOn with
  | nil => exact ⟨rfl, fun _ h => absurd h List.not_mem_nil⟩
  | append_singleton files f ih =>
    have hmem : ∀ {g}, g ∈ files → g ∈ files ++ [f] := fun h => List.mem_append_left _ h
    have hlast : f ∈ files ++ [f] := List.mem_append_right _ (List.mem_singleton_self f)
    obtain ⟨h₁, h₂⟩ := ih (fun g hg => hf g (hmem hg)) fun g hg g' hg' =>
      hn g (hmem hg) g' (hmem hg')
    have hl : Layered (spanOf f) (files.foldl (takeFile inflate cm) ([], [])).1 := fun l hl => by
      obtain ⟨g, hg, hs⟩ := h₂ l hl
      obtain ⟨-, -, -, -, ht⟩ := hf g (hmem hg)
      exact ⟨spanOf g, hs, ht, hn f hlast g (hmem hg)⟩
    obtain ⟨h₃, h₄⟩ := takeFile_single (hf f hlast) hl
    rw [List.foldl_append, List.foldl_cons, List.foldl_nil, List.map_append, List.foldl_append]
    refine ⟨h₃.trans (by rw [h₁]; rfl), fun l hl => ?_⟩
    rcases h₄ l hl with hl | hl
    · obtain ⟨g, hg, hs⟩ := h₂ l hl
      exact ⟨g, hmem hg, hs⟩
    · exact ⟨f, hlast, hl⟩

end Files

/-- A merge covers what its layers cover. -/
theorem sources_mergeExports (inflate : Bytes → Option Bytes) (cm : ChannelMerge) (maxCalls : ℕ)
    (files : List (Bytes × Bytes)) :
    (mergeExports inflate cm maxCalls files).1.sources.map DsSource.span =
      coverage (files.foldl (takeFile inflate cm) ([], [])).1 := by
  have h : ∀ (layers : List Dataset) (out : Dataset), (layers.foldl (fun out l =>
      { mergeInto out l with exported := max out.exported l.exported }) out).sources =
        out.sources ++ layers.flatMap (·.sources) := fun layers => by
    induction layers with
    | nil => exact fun out => (List.append_nil _).symm
    | cons l layers ih =>
      intro out
      rw [List.foldl_cons, ih, List.flatMap_cons, ← List.append_assoc]
      rfl
  rw [coverage]
  exact congrArg (List.map DsSource.span) (h _ _)

/-- **Merging is independent of the order of the files**: exports of one source each, whose spans
are nested or apart when they are of one run, merge to the maximal spans among them, each once —
whatever the order. -/
theorem mergeExports_spans {inflate : Bytes → Option Bytes} {cm : ChannelMerge}
    {files files' : List (Bytes × Bytes)} (hf : ∀ f ∈ files, ∃ a, Exports inflate cm f a)
    (hn : ∀ f ∈ files, ∀ g ∈ files, ∀ a b, Exports inflate cm f a → Exports inflate cm g b →
      a.span.Nested b.span)
    (hp : files'.Perm files) (maxCalls : ℕ) :
    let spans := (mergeExports inflate cm maxCalls files').1.sources.map DsSource.span
    spans.Nodup ∧ ∀ s, s ∈ spans ↔
      Maximal (fun s => ∃ f ∈ files, ∃ a, Exports inflate cm f a ∧ a.span = s) s := by
  classical
  let spanOf : Bytes × Bytes → DsSource := fun f => if h : ∃ a, Exports inflate cm f a then
    h.choose else {}
  have hspan : ∀ f ∈ files, Exports inflate cm f (spanOf f) := fun f hm => by
    simp only [spanOf, dif_pos (hf f hm)]
    exact (hf f hm).choose_spec
  have hfold := (foldl_takeFile
    (fun f (hm : f ∈ files') => hspan f (hp.mem_iff.1 hm)) fun f hm g hm' =>
    hn f (hp.mem_iff.1 hm) g (hp.mem_iff.1 hm')
      _ _ (hspan f (hp.mem_iff.1 hm)) (hspan g (hp.mem_iff.1 hm'))).1
  intro spans
  have hspans : spans = (files'.map fun f => (spanOf f).span).foldl keepMaximal [] :=
    (sources_mergeExports inflate cm maxCalls files').trans hfold
  have hmem : ∀ s, s ∈ files'.map (fun f => (spanOf f).span) ↔
      ∃ f ∈ files, ∃ a, Exports inflate cm f a ∧ a.span = s := fun s => by
    rw [List.mem_map]
    constructor
    · rintro ⟨f, hm, rfl⟩
      exact ⟨f, hp.mem_iff.1 hm, spanOf f, hspan f (hp.mem_iff.1 hm), rfl⟩
    · rintro ⟨f, hm, a, ha, rfl⟩
      exact ⟨f, hp.mem_iff.2 hm, by rw [(hspan f hm).unique ha]⟩
  refine ⟨hspans ▸ nodup_foldl_keepMaximal _, fun s => ?_⟩
  rw [hspans, mem_foldl_keepMaximal]
  exact iff_of_eq (congrArg (fun P => Maximal P s) (funext fun s => propext (hmem s)))

/-- The text of an export of a run without any data. -/
def spanExport (instance' since through : String) : Bytes :=
  lit ("\x7b\"format\":\"dsd-net-export\",\"families\":\x7b\x7d,\"sources\":[\x7b\"instance\":\"" ++
    instance' ++
    "\",\"since\":" ++ since ++ ",\"through\":" ++ through ++ "\x7d]\x7d")

/-- Two exports of one run, the second one longer, and one of another. -/
def threeExports : List (Bytes × Bytes) :=
  [(lit "a", spanExport "alpha" "1" "3"), (lit "b", spanExport "alpha" "1" "9"),
   (lit "c", spanExport "beta" "2" "4")]

theorem mergeExports_spans_threeExports :
    ((mergeExports (fun _ => none) {} 10 threeExports.reverse).1.sources.map DsSource.span).Nodup ∧
      (mergeExports (fun _ => none) {} 10 threeExports.reverse).1.sources.map DsSource.span =
        [⟨lit "beta", 2, 4⟩, ⟨lit "alpha", 1, 9⟩] := by
  have hsome : ∀ f ∈ threeExports, (exportOf (fun _ => none) {} f).isSome := by decide +kernel
  have hnest : ∀ f ∈ threeExports, ∀ g ∈ threeExports, ∀ a ∈ exportOf (fun _ => none) {} f,
      ∀ b ∈ exportOf (fun _ => none) {} g, a.span.instanceId = b.span.instanceId →
        a.span ≤ b.span ∨ b.span ≤ a.span := by decide +kernel
  refine ⟨(mergeExports_spans (fun f hf => ?_) (fun f hf g hg a b ha hb hi => ?_)
    (List.reverse_perm threeExports) 10).1, by decide +kernel⟩
  · obtain ⟨a, ha⟩ := Option.isSome_iff_exists.1 (hsome f hf)
    exact ⟨a, exports_iff.2 ha⟩
  · exact (hnest f hf g hg a (exports_iff.1 ha) b (exports_iff.1 hb) hi).imp_right Or.inl

end DsdServer
