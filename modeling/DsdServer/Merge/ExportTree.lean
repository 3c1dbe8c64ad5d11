import DsdServer.Json.Tree
import DsdServer.Merge.Export
import DsdServer.Merge.RuleFile

/-!
# Merge/ExportTree — the value an export is the text of

An export is written piece by piece; what comes out is the text of one value, with a member for each
field (`exportJson_eq`).  The reader of JSON takes it as that value, when its numbers are integers
of up to 53 bits.
-/

open Bytes

namespace DsdServer

open mjson assocjson

/-! ## Values of fields

The writer of the source puts bytes together and knows no values.  These are the values its pieces
are the text of. -/

/-- An integer, as a value. -/
def intTree (i : ℤ) : V := .num (.finite i)

/-- A count, as a value. -/
def natTree (n : ℕ) : V := intTree n

/-- A list of texts, as a value. -/
def textsTree (l : List Bytes) : V := .arr (l.map V.str)

/-- A list of numbers, as a value. -/
def numsTree (l : List ℤ) : V := .arr (l.map intTree)

/-- A member under a name of the format. -/
def entry (k : String) (v : V) : Bytes × V := (lit k, v)

/-- Members left out when they say nothing. -/
def whenever (c : Prop) [Decidable c] (l : List (Bytes × V)) : List (Bytes × V) :=
  if c then l else []

theorem render_str (s : Bytes) : render (.str s) = q s := by rw [render]

theorem render_bool (x : Bool) : render (.bool x) = b x := by rw [render]

theorem render_int (i : ℤ) : render (intTree i) = decInt i := by
  rw [intTree, render, number_intCast]

theorem render_nat (n : ℕ) : render (natTree n) = dec n := by
  rw [natTree, render_int, decInt, if_neg (by omega), Int.natAbs_natCast]

/-- An array is written element by element. -/
theorem render_array {α : Type} {f : α → V} {g : α → Bytes} (l : List α)
    (h : ∀ a, render (f a) = g a) :
    render (.arr (l.map f)) = array (l.map g) := by
  rw [render_arr, List.map_map, array]
  exact congrArg (fun l => brackets (commas l)) (List.map_congr_left fun a _ => h a)

/-- A list of texts, as the export writes it. -/
theorem render_texts (l : List Bytes) : render (textsTree l) = arr l := render_array l render_str

theorem render_nums (l : List ℤ) : render (numsTree l) = nums l := render_array l render_int

/-- A table of counts, as the export writes it. -/
theorem render_counts (m : SortedMap Bytes ℕ) : render (tree natTree m) = counts m :=
  render_tree render_nat m

/-- A table of texts, as the export writes it. -/
theorem render_ids (m : SortedMap Bytes Bytes) : render (tree V.str m) = obj m :=
  render_tree render_str m

/-- An object is written member by member. -/
theorem render_object (o : List (Bytes × V)) : render (.obj o) = object (o.map memberOf) :=
  render_obj o

/-- A member is written with its name. -/
theorem memberOf_entry (k : String) (v : V) : memberOf (entry k v) = named k (render v) := rfl

/-- Optional members are written when they are there. -/
theorem map_whenever (c : Prop) [Decidable c] (l : List (Bytes × V)) :
    (whenever c l).map memberOf = optional c (l.map memberOf) := by
  rw [whenever, optional]
  split_ifs <;> rfl

/-! ## Records

The members stand in the order they are written in.  Those that may be left out are under the
condition they are written under. -/

/-- A network, as a value. -/
def networkTree (n : DsNetwork) : V :=
  .obj ([entry "key" (.str n.key), entry "label" (.str n.label),
    entry "confidence" (.str n.confidence),
    entry "ids" (tree V.str n.ids), entry "sites" (textsTree n.sites.keys),
    entry "freqs" (numsTree n.freqs.keys),
    entry "sessions" (natTree n.sessions), entry "calls" (natTree n.calls),
    entry "first" (intTree n.first), entry "last" (intTree n.last)] ++
    whenever (n.keys.isEmpty = false) [entry "keys" (tree natTree n.keys)])

/-- A talkgroup, as a value. -/
def talkgroupTree (t : DsTalkgroup) : V :=
  .obj ([entry "id" (.str t.id), entry "networks" (textsTree t.networks.keys),
    entry "radios" (tree natTree t.radios), entry "calls" (natTree t.calls),
    entry "emerg" (natTree t.emerg),
    entry "enc" (natTree t.enc), entry "first" (intTree t.first), entry "last" (intTree t.last)] ++
    whenever (t.keys.isEmpty = false) [entry "keys" (tree natTree t.keys)])

def fixTree (f : ℤ × Bytes) : V := .arr [intTree f.1, .str f.2]

/-- A radio, as a value. -/
def radioTree (r : DsRadio) : V :=
  .obj ([entry "id" (.str r.id), entry "aliases" (textsTree r.aliases),
    entry "tgs" (tree natTree r.tgs),
    entry "peers" (tree natTree r.peers), entry "networks" (textsTree r.networks.keys),
    entry "calls" (natTree r.calls), entry "first" (intTree r.first),
    entry "last" (intTree r.last)] ++
    whenever (r.keys.isEmpty = false) [entry "keys" (tree natTree r.keys)] ++
    whenever (r.pos ≠ []) [entry "pos" (.str r.pos), entry "pos_t" (intTree r.posT)] ++
    whenever (r.track ≠ []) [entry "track" (.arr (r.track.map fixTree))])

/-- What every call says. -/
def callFields (k : DsCall) : List (Bytes × V) :=
  [entry "id" (natTree k.id), entry "session" (natTree k.session), entry "net" (.str k.net),
    entry "site" (.str k.site), entry "freq" (intTree k.freq), entry "slot" (.str k.slot),
    entry "src" (.str k.src), entry "tgt" (.str k.tgt), entry "alias" (.str k.talkerAlias),
    entry "text" (.str k.text), entry "priv" (.bool k.priv), entry "voice" (.bool k.voice),
    entry "data" (.bool k.data), entry "emerg" (.bool k.emerg), entry "enc" (.bool k.enc),
    entry "open" (.bool k.isOpen), entry "streams" (natTree k.streams),
    entry "start" (intTree k.start), entry "last" (intTree k.last)]

/-- A call without a voice-quality verdict. -/
def callTree (k : DsCall) : V :=
  .obj (callFields k ++
    whenever (k.audio ≠ []) [entry "audio" (.str k.audio), entry "audio_ms" (natTree k.audioMs)] ++
    whenever (k.svc ≠ []) [entry "svc" (.str k.svc)] ++
    whenever (k.pos ≠ []) [entry "pos" (.str k.pos)] ++
    whenever (k.kid ≠ []) [entry "alg" (.str k.alg), entry "kid" (.str k.kid)])

/-- A family, as a value. -/
def familyTree (F : DsFamily) : V :=
  .obj [entry "networks" (.arr (F.networks.entries.map fun e => networkTree e.2)),
    entry "talkgroups" (.arr (F.tgs.entries.map fun e => talkgroupTree e.2)),
    entry "radios" (.arr (F.radios.entries.map fun e => radioTree e.2)),
    entry "calls" (.arr (F.calls.map callTree))]

/-- A source, as a value. -/
def sourceTree (s : DsSource) : V :=
  .obj [entry "instance" (.str s.instanceId), entry "name" (.str s.name),
    entry "since" (intTree s.since), entry "through" (intTree s.through)]

/-- What every export says of itself. -/
def exportFields (d : Dataset) (now : ℤ) (instanceId name : Bytes) : List (Bytes × V) :=
  [entry "format" (.str (lit "dsd-net-export")), entry "format_version" (natTree 1),
    entry "source" (.str (lit "dsd-server")), entry "instance" (.str instanceId),
    entry "name" (.str name),
    entry "exported" (intTree now), entry "now" (intTree now),
    entry "sources" (.arr (d.sources.map sourceTree))]

/-- **The value an export is the text of.** -/
def exportTree (d : Dataset) (now : ℤ) (instanceId name : Bytes) : V :=
  let mg := mergesHeld d
  .obj (exportFields d now instanceId name ++
    whenever (mg.isEmpty = false) [entry "merges" (tree (tree V.str) mg)] ++
    [entry "families" (tree familyTree d.fams)])

/-! ## What is written is their text

Member by member, the text that is put together is what rendering the value gives. -/

/-- A network is written as its value. -/
theorem networkJson_eq (n : DsNetwork) : render (networkTree n) = networkJson n := by
  simp only [networkTree, networkJson, render_object, List.map_append, List.map_cons, List.map_nil,
    map_whenever,
    memberOf_entry, render_str, render_ids, render_texts, render_nums, render_nat, render_int,
    render_counts]

/-- A talkgroup is written as its value. -/
theorem talkgroupJson_eq (t : DsTalkgroup) : render (talkgroupTree t) = talkgroupJson t := by
  simp only [talkgroupTree, talkgroupJson, render_object, List.map_append, List.map_cons,
    List.map_nil, map_whenever,
    memberOf_entry, render_str, render_texts, render_nat, render_int, render_counts]

theorem fixJson_eq (f : ℤ × Bytes) : render (fixTree f) = fixJson f := by
  rw [fixTree, render_arr]
  simp only [List.map_cons, List.map_nil, render_int, render_str]
  rfl

theorem radioJson_eq (r : DsRadio) : render (radioTree r) = radioJson r := by
  simp only [radioTree, radioJson, render_object, List.map_append, List.map_cons, List.map_nil,
    map_whenever,
    memberOf_entry, render_str, render_texts, render_nat, render_int, render_counts,
    render_array _ fixJson_eq]

/-- A call is written as its value, its quality aside. -/
theorem callJson_eq {k : DsCall} (hq : k.quality = {}) : render (callTree k) = callJson k := by
  simp only [callTree, callFields, callJson, render_object, List.map_append, List.map_cons,
    List.map_nil, map_whenever, memberOf_entry, render_str, render_bool, render_nat, render_int, hq]
  simp [optional]

theorem sourceJson_eq (s : DsSource) : render (sourceTree s) = sourceJson s := by
  simp only [sourceTree, sourceJson, render_object, List.map_cons, List.map_nil, memberOf_entry,
    render_str, render_int]

theorem familyJson_eq {F : DsFamily} (hq : ∀ k ∈ F.calls, k.quality = {}) :
    render (familyTree F) = familyJson F := by
  have hcalls : (F.calls.map callTree).map render = F.calls.map callJson := by
    rw [List.map_map]
    exact List.map_congr_left fun k hk => callJson_eq (hq k hk)
  rw [familyTree, familyJson, render_object]
  simp only [List.map_cons, List.map_nil, memberOf_entry,
    render_array _ fun e : Bytes × DsNetwork => networkJson_eq e.2,
    render_array _ fun e : Bytes × DsTalkgroup => talkgroupJson_eq e.2,
    render_array _ fun e : Bytes × DsRadio => radioJson_eq e.2, render_arr, hcalls, array]

/-- **An export is the text of one value.** -/
theorem exportJson_eq {d : Dataset} (hm : HeldRules (mergesHeld d))
    (hq : ∀ f F, d.fams.find? f = some F → ∀ k ∈ F.calls, k.quality = {}) (now : ℤ)
    (instanceId name : Bytes) :
    render (exportTree d now instanceId name) = exportJson d now instanceId name := by
  have hfams : render (tree familyTree d.fams) = familiesJson d := by
    rw [tree, render_object, familiesJson, List.map_map]
    refine congrArg object (List.map_congr_left fun f hf => ?_)
    rw [Function.comp_apply, memberOf,
      familyJson_eq (hq f.1 f.2 (SortedMap.find?_eq_some_iff.2 hf))]
  simp only [exportTree, exportFields, exportJson, render_object, List.map_append, List.map_cons,
    List.map_nil,
    map_whenever, memberOf_entry, render_str, render_nat, render_int, render_array _ sourceJson_eq,
    sourcesJson, hfams, ← hm.mergesJson_eq]

end DsdServer
