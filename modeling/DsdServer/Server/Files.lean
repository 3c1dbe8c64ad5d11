import DsdServer.Data.Path
import DsdServer.Merge.Uploads

/-!
# Server/Files — the files that are served and written

A request names an asset or a call's audio by a path of its own, and an upload the file it is stored
as.  The names are checked by hand, and so are the paths built of them.

* `served_and_written` — **every file served or written is in its folder**, and is the one meant: an
  asset below the asset folder, a file of the audio store or one uploaded for an import that is
  still held; and uploads of different files write different ones.
-/

open Bytes

namespace DsdServer

/-! ## Speech-to-text assets

The path comes from the address that was asked for, and is checked segment by segment before a file
is opened. -/

/-- The bytes of a served path's names. -/
def isNameByte (c : UInt8) : Bool := isAlnum c || c == ch '.' || c == ch '_' || c == ch '-'

/-- **A path under the asset folder that may be served**: plain names only. -/
def asrRelOk (rel : Bytes) : Bool :=
  !rel.isEmpty && rel.length ≤ 200 &&
    (split (ch '/') rel).all fun seg => !seg.isEmpty && seg.head? != some (ch '.') &&
    seg.all isNameByte

/-- The path of the asset a request is for, if it may be served. -/
def asrPath (dir target : Bytes) : Option Bytes :=
  if (lit "/net/asr/").isPrefixOf target && target != lit "/net/asr/config.json" then
    let rel := target.drop 9
    if asrRelOk rel then some (Path.join dir rel) else none
  else none

/-- The path of the call's audio a request is for, if there is one. -/
def netAudioPath (dir : Bytes) (s : Importing) (target : Bytes) : Option Bytes :=
  if (lit "/net/audio/").isPrefixOf target && target != lit "/net/audio/on" &&
      target != lit "/net/audio/off" then s.audioPath dir (target.drop 11)
  else none

/-- A safe name. -/
structure SafeName (seg : Bytes) : Prop where
  plain : Path.Plain seg
  bytes : ∀ c ∈ seg, isNameByte c

/-- A slash is no character of a name. -/
theorem slash_not_nameByte : isNameByte (ch '/') = false := by decide

theorem SafeName.split_eq {seg : Bytes} (h : SafeName seg) : split (ch '/') seg = [seg] :=
  split_of_not_mem fun hm => absurd (h.bytes _ hm)
    (by rw [slash_not_nameByte]; exact Bool.false_ne_true)

/-- **A path of an asset is accepted** when it is not too long and all its segments are safe names.
-/
theorem asrRelOk_iff {rel : Bytes} : asrRelOk rel = true ↔
    rel.length ≤ 200 ∧ rel ≠ [] ∧ ∀ seg ∈ split (ch '/') rel, SafeName seg := by
  simp only [asrRelOk, Bool.and_eq_true, Bool.not_eq_true', List.isEmpty_eq_false_iff,
    decide_eq_true_eq, List.all_eq_true, bne_iff_ne]
  constructor
  · rintro ⟨⟨h₁, h₂⟩, h₃⟩
    exact ⟨h₂, h₁, fun seg hs => ⟨(h₃ seg hs).1, (h₃ seg hs).2⟩⟩
  · rintro ⟨h₂, h₁, h₃⟩
    exact ⟨⟨h₁, h₂⟩, fun seg hs => ⟨(h₃ seg hs).plain, (h₃ seg hs).bytes⟩⟩

/-- What is served is below the folder of assets, under an accepted path. -/
theorem asrPath_eq_some {dir target path : Bytes} (h : asrPath dir target = some path) :
    ∃ rel, target = lit "/net/asr/" ++ rel ∧ asrRelOk rel = true ∧ path = Path.join dir rel := by
  rw [asrPath] at h
  by_cases htarget :
    ((lit "/net/asr/").isPrefixOf target && target != lit "/net/asr/config.json") = true
  · rw [if_pos htarget] at h
    rw [Bool.and_eq_true, List.isPrefixOf_iff_prefix] at htarget
    obtain ⟨rel, rfl⟩ := htarget.1
    have hdrop : (lit "/net/asr/" ++ rel).drop 9 = rel := rfl
    dsimp only at h
    rw [hdrop] at h
    by_cases hrel : asrRelOk rel = true
    · rw [if_pos hrel] at h
      exact ⟨rel, rfl, hrel, (Option.some.inj h).symm⟩
    · rw [if_neg hrel] at h
      cases h
  · rw [if_neg htarget] at h
    cases h

/-- **An asset is below the asset folder.** -/
theorem asrPath_below {dir target path : Bytes} (h : asrPath dir target = some path)
    (cwd : List Bytes) : ∃ segs : List Bytes, segs ≠ [] ∧ (∀ seg ∈ segs, SafeName seg) ∧
      target = lit "/net/asr/" ++ [ch '/'].intercalate segs ∧
      Path.walk cwd path = Path.walk cwd dir ++ segs := by
  obtain ⟨rel, rfl, hrel, rfl⟩ := asrPath_eq_some h
  obtain ⟨-, -, hsegs⟩ := asrRelOk_iff.1 hrel
  exact ⟨split (ch '/') rel, split_ne_nil _ rel, hsegs, by rw [intercalate_split],
    Path.walk_join cwd fun seg hs => (hsegs seg hs).plain⟩

example : asrPath (lit "asr") (lit "/net/asr/org/model.onnx") = some (lit "asr/org/model.onnx") ∧
    asrPath (lit "asr") (lit "/net/asr/org/../key") = none := by decide +kernel

/-! ## Audio files

A file of audio is served only under a name that the store knows: one it recorded itself, or one
that an upload brought. -/

/-- **A name of the audio store's form is safe.** -/
theorem safeName_validName {n : Bytes} (h : CallAudioStore.validName n = true) : SafeName n := by
  simp only [CallAudioStore.validName, Bool.and_eq_true, List.all_eq_true,
    List.isPrefixOf_iff_prefix] at h
  obtain ⟨⟨⟨⟨-, t, rfl⟩, -⟩, hall⟩, -⟩ := h
  refine ⟨⟨List.cons_ne_nil _ _, fun he => ?_⟩, fun c hc => ?_⟩
  · exact absurd (Option.some.inj he) (by decide)
  · have := hall c hc
    simp only [isNameByte, Bool.or_eq_true] at this ⊢
    tauto

/-- The digits of a number are characters of names. -/
theorem nameByte_dec {n : ℕ} {c : UInt8} (hc : c ∈ dec n) : isNameByte c = true := by
  have h := mjson.isDigit_dec hc
  have hd : isDigit c = true := by
    simp only [isDigit, Bool.and_eq_true, decide_eq_true_eq, UInt8.le_iff_toNat_le]
    exact h
  simp [isNameByte, isAlnum, hd]

theorem safeName_dec (n : ℕ) : SafeName (dec n) := by
  refine ⟨⟨mjson.dec_ne_nil n, fun he => ?_⟩, fun c hc => nameByte_dec hc⟩
  have := mjson.isDigit_dec (List.mem_of_mem_head? he)
  exact absurd this.1 (by decide)

theorem safeName_servedName {n : Bytes} (h : SafeName n) (id : ℕ) : SafeName (servedName id n) := by
  refine ⟨⟨List.cons_ne_nil _ _, fun he => absurd (Option.some.inj he) (by decide)⟩, fun c hc => ?_⟩
  rw [servedName, List.mem_append, List.mem_append, List.mem_append] at hc
  rcases hc with ((hc | hc) | hc) | hc
  · rw [List.mem_singleton.1 hc]
    decide
  · exact nameByte_dec hc
  · rw [List.mem_singleton.1 hc]
    decide
  · exact h.bytes c hc

/-- What an audio request opens. -/
structure AudioFile (s : Importing) (uploaded : List Upload) (dir name path : Bytes) : Prop where
  safe : SafeName name
  file : ((∃ e ∈ s.model.store.index, e.name = name) ∧ path = dir ++ lit "/" ++ name) ∨
    ∃ u ∈ uploaded, (∃ x ∈ s.model.imports, x.id = u.id) ∧ u.served = name ∧
      path = importPath s.root u.id u.served

/-- The path of a file of audio is that of one the store knows. -/
theorem pathFor_file {s : Importing} {uploaded : List Upload} {dir name path : Bytes}
    (h : s.model.store.pathFor dir name = some path) : AudioFile s uploaded dir name path := by
  rw [CallAudioStore.pathFor] at h
  by_cases hno : (!CallAudioStore.validName name ||
      !s.model.store.index.any fun e => e.name = name) = true
  · rw [if_pos hno] at h
    cases h
  rw [if_neg hno] at h
  rw [Bool.or_eq_true, not_or, Bool.not_eq_true', Bool.not_eq_true', Bool.not_eq_false,
    Bool.not_eq_false] at hno
  obtain ⟨e, he, hname⟩ := List.any_eq_true.1 hno.2
  exact ⟨safeName_validName hno.1,
    Or.inl ⟨⟨e, he, of_decide_eq_true hname⟩, (Option.some.inj h).symm⟩⟩

/-- **Only a file of the audio store, or one uploaded for an import still held, is opened.** -/
theorem audioPath_file {s : Importing} {h : ImportHistory} (ha : s.Accounted h)
    {dir name path : Bytes} (hp : s.audioPath dir name = some path) :
    AudioFile s h.uploaded dir name path := by
  rcases name with _ | ⟨i, _ | ⟨d, _ | ⟨c, rest⟩⟩⟩
  · exact pathFor_file hp
  · exact pathFor_file hp
  · exact pathFor_file hp
  rw [Importing.audioPath] at hp
  by_cases hi : i = ch 'i' ∧ isDigit d
  · rw [if_pos hi] at hp
    dsimp only at hp
    rcases hia : s.model.importAudio.find?
        (Importing.leadingNumber ((i :: d :: c :: rest).drop 1)) with _ | ia
    · rw [hia] at hp
      cases hp
    rw [hia] at hp
    dsimp only at hp
    split_ifs at hp with hin
    obtain ⟨x, hx, hid⟩ := ha.audio _ ia hia
    rw [← hid] at hia hp
    rw [← SortedMap.getD_of_find? hia {}] at hin
    obtain ⟨u, hu, hux, hserved⟩ := (ha.files x hx _).1 hin
    refine ⟨hserved ▸ safeName_servedName (safeName_validName (ha.uploads u hu).2) u.id,
      Or.inr ⟨u, hu, ⟨x, hx, hux.symm⟩, hserved, ?_⟩⟩
    rw [hux, hserved]
    exact (Option.some.inj hp).symm
  · rw [if_neg hi] at hp
    exact pathFor_file hp

/-! ## Uploads

An uploaded file is stored under a name from its archive, once that name has been checked. -/

/-- The file of an upload, or the one it is written to first. -/
theorem mem_writes {root : Bytes} {u : Upload} {p : Bytes} : p ∈ u.writes root ↔
    ∃ end' ∈ [lit ".part", []], p = importPath root u.id (u.served ++ end') := by
  rw [Upload.writes, List.exists_mem_cons_iff, List.exists_mem_cons_iff, List.mem_cons,
    List.mem_singleton, List.append_nil, importPath, importPath, ← List.append_assoc, or_iff_left
      (show ¬∃ x ∈ ([] : List Bytes), _ from fun ⟨_, hx, _⟩ => absurd hx List.not_mem_nil)]

/-- **An upload is written in the folder of its import.** -/
theorem writes_below {u : Upload} (hv : CallAudioStore.validName u.base) {root p : Bytes}
    (hp : p ∈ u.writes root) (cwd : List Bytes) : ∃ n, SafeName n ∧
      (n = servedName u.id u.base ∨ n = servedName u.id u.base ++ lit ".part") ∧
      p = root ++ lit "/" ++ dec u.id ++ lit "/" ++ n ∧
      Path.walk cwd p = Path.walk cwd (root ++ lit "/") ++ [dec u.id, n] := by
  obtain ⟨end', hend, rfl⟩ := mem_writes.1 hp
  have hname := safeName_servedName (safeName_validName hv) u.id
  have hsafe : SafeName (u.served ++ end') := by
    refine ⟨⟨List.cons_ne_nil _ _, hname.plain.2⟩, fun c hc => ?_⟩
    rcases List.mem_append.1 hc with hc | hc
    · exact hname.bytes c hc
    · have hsafe : ∀ e ∈ [lit ".part", []], ∀ c ∈ e, isNameByte c = true := by
        decide +kernel
      exact hsafe end' hend c hc
  refine ⟨u.served ++ end', hsafe, ?_, rfl, ?_⟩
  · rcases List.mem_pair.1 hend with rfl | rfl
    · exact Or.inr rfl
    · exact Or.inl (List.append_nil _)
  · have hsplit : split (ch '/') (dec u.id ++ ch '/' :: (u.served ++ end')) =
        [dec u.id, u.served ++ end'] := by
      rw [split_append_sep, (safeName_dec u.id).split_eq, hsafe.split_eq]
      rfl
    have hpath : importPath root u.id (u.served ++ end') =
        root ++ lit "/" ++ (dec u.id ++ ch '/' :: (u.served ++ end')) := by
      simp only [importPath, importDir, List.append_assoc]
      rfl
    rw [hpath, Path.walk_append cwd, hsplit]
    rw [hsplit]
    rintro seg hs
    rcases List.mem_pair.1 hs with rfl | rfl
    · exact (safeName_dec u.id).plain
    · exact hsafe.plain

/-- A path of an import tells the import, and the name. -/
theorem importPath_injective {root : Bytes} {id id' : ℕ} {n n' : Bytes}
    (h : importPath root id n = importPath root id' n') : id = id' ∧ n = n' := by
  have h' : dec id ++ ch '/' :: n = dec id' ++ ch '/' :: n' := by
    simp only [importPath, importDir, List.append_assoc, List.append_cancel_left_eq] at h
    exact h
  have htake : ∀ (k : ℕ) (m : Bytes), (dec k ++ ch '/' :: m).takeWhile isNameByte = dec k :=
    fun k m => by
    rw [List.takeWhile_append_of_pos fun c hc => nameByte_dec hc,
      List.takeWhile_cons_of_neg (by rw [slash_not_nameByte]; exact Bool.false_ne_true),
      List.append_nil]
  have hid : id = id' := dec_injective (by rw [← htake id n, h', htake])
  subst hid
  exact ⟨rfl, (List.cons.inj (List.append_cancel_left h')).2⟩

/-- **Uploads of different files write different ones**, for the same import or another. -/
theorem writes_disjoint {u u' : Upload} (hv : CallAudioStore.validName u.base)
    (hv' : CallAudioStore.validName u'.base) (hne : (u.id, u.base) ≠ (u'.id, u'.base))
    (root : Bytes) :
    List.Disjoint (u.writes root) (u'.writes root) := by
  have hwav : ∀ {n : Bytes}, CallAudioStore.validName n = true → n.getLast? = some (ch 'v') :=
    fun {n} h => by
    simp only [CallAudioStore.validName, Bool.and_eq_true, List.isSuffixOf_iff_suffix] at h
    obtain ⟨⟨⟨-, t, rfl⟩, -⟩, -⟩ := h
    rw [List.getLast?_append]
    rfl
  have hpart : ∀ (b : Bytes) {n : Bytes}, CallAudioStore.validName n = true →
      n ≠ b ++ lit ".part" := by
    rintro b n hn rfl
    have hv := hwav hn
    have ht : (b ++ lit ".part").getLast? = some (ch 't') := by
      rw [List.getLast?_append]
      rfl
    exact absurd (hv.symm.trans ht) (by decide)
  intro p hp hp'
  obtain ⟨end', hend, rfl⟩ := mem_writes.1 hp
  obtain ⟨end'', hend', he⟩ := mem_writes.1 hp'
  obtain ⟨hid, hn⟩ := importPath_injective he
  have hbase : u.base ++ end' = u'.base ++ end'' := by
    rw [Upload.served, Upload.served, servedName, servedName, ← hid, List.append_assoc,
      List.append_assoc (lit "i" ++ dec u.id ++ lit "_")] at hn
    exact List.append_cancel_left hn
  rcases List.mem_pair.1 hend with rfl | rfl <;> rcases List.mem_pair.1 hend' with rfl | rfl
  · exact hne (Prod.ext hid (List.append_cancel_right hbase))
  · rw [List.append_nil] at hbase
    exact hpart u.base hv' hbase.symm
  · rw [List.append_nil] at hbase
    exact hpart u'.base hv hbase
  · exact hne (Prod.ext hid (List.append_cancel_right hbase))

/-! ## Everything stays in its folder

The three parts are put together: whatever is served or written has a path made of a folder the
server was given and names that cannot lead out of it. -/

/-- **Served and written files stay in their folders**, whatever a request or an upload names: an
asset is below the asset folder, by safe names; a call's audio is a file of the audio store, or one
uploaded for an import still held; an upload is written in the folder of its import, under its own
name; and uploads of different files share no path. -/
theorem served_and_written (inflate : Bytes → Option Bytes) (model : AssocModel) (root : Bytes)
    (cap : ℕ) (ops : List ImportOp) (cwd : List Bytes) (asrDir audioDir : Bytes) :
    let s := (Importing.start model root cap).run inflate ops
    let h := (Importing.start model root cap).history inflate ops
    (∀ target path, asrPath asrDir target = some path → ∃ segs : List Bytes, segs ≠ [] ∧
      (∀ seg ∈ segs, SafeName seg) ∧ target = lit "/net/asr/" ++ [ch '/'].intercalate segs ∧
      Path.walk cwd path = Path.walk cwd asrDir ++ segs) ∧
    (∀ target path, netAudioPath audioDir s target = some path → ∃ name,
      target = lit "/net/audio/" ++ name ∧ AudioFile s h.uploaded audioDir name path) ∧
    (∀ id name data u, s.checkUpload id name data = .ok u → u.id = id ∧
      u.base = importAudioBase name ∧
      CallAudioStore.validName u.base ∧ ∀ p ∈ u.writes root, ∃ n, SafeName n ∧
        (n = servedName id u.base ∨ n = servedName id u.base ++ lit ".part") ∧
        p = root ++ lit "/" ++ dec id ++ lit "/" ++ n ∧
        Path.walk cwd p = Path.walk cwd (root ++ lit "/") ++ [dec id, n]) ∧
    ∀ (s' : Importing) id name data u id' name' data' u', s.checkUpload id name data = .ok u →
      s'.checkUpload id' name' data' = .ok u' → (u.id, u.base) ≠ (u'.id, u'.base) →
        List.Disjoint (u.writes root) (u'.writes root) := by
  intro s h
  have ha : s.Accounted h := .run inflate model root cap ops
  refine ⟨fun target path hp => asrPath_below hp cwd, fun target path hp => ?_,
    fun id name data u hu => ?_, fun s' id name data u id' name' data' u' hu hu' hne => ?_⟩
  · rw [netAudioPath] at hp
    by_cases htarget : ((lit "/net/audio/").isPrefixOf target && target != lit "/net/audio/on" &&
        target != lit "/net/audio/off") = true
    · rw [if_pos htarget] at hp
      rw [Bool.and_eq_true, Bool.and_eq_true, List.isPrefixOf_iff_prefix] at htarget
      obtain ⟨name, rfl⟩ := htarget.1.1
      have hdrop : (lit "/net/audio/" ++ name).drop 11 = name := rfl
      rw [hdrop] at hp
      exact ⟨name, rfl, audioPath_file ha hp⟩
    · rw [if_neg htarget] at hp
      cases hp
  · obtain ⟨rfl, hv, -, -⟩ := Importing.checkUpload_ok hu
    exact ⟨rfl, rfl, hv, fun p hp => writes_below hv hp cwd⟩
  · exact writes_disjoint (Importing.checkUpload_ok hu).2.1
      (Importing.checkUpload_ok hu').2.1 hne root

end DsdServer
