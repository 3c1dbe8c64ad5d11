import DsdServer.Json.Parse
import DsdServer.Merge.Export

/-!
# Merge/Import — reading an export file

The reader takes what it knows field by field, and anything missing or of another type as empty.
Network keys that only mean something within the run that wrote the file are then qualified with
that run, so that they never collide with another run's.
-/

open Bytes

namespace DsdServer

open mjson

/-! ## Fields

A reader asks for a member and a type, and takes what is missing as empty.  None of them fails. -/

/-- A set of strings. -/
def strset (a : Option V) : SortedSet Bytes :=
  (a.getD .null).elements.foldl (fun s e => match e with
    | .str x => SortedSet.add s x
    | _ => s) ∅

/-- Counts by string; those that are not positive are left out. -/
def countmap (o : Option V) : SortedMap Bytes ℕ :=
  (o.getD .null).members.foldl (fun m kv => match kv.2 with
    | .num n => if n.isPos then m.insert kv.1 (m.getD kv.1 0 + n.toU64) else m
    | _ => m) ∅

/-- Strings by string. -/
def strmap (o : Option V) : SortedMap Bytes Bytes :=
  (o.getD .null).members.foldl (fun m kv => match kv.2 with
    | .str x => m.insert kv.1 x
    | _ => m) ∅

/-- A list of strings. -/
def strlist (a : Option V) : List Bytes :=
  (a.getD .null).elements.filterMap fun e => match e with
    | .str x => some x
    | _ => none

/-- A set of frequencies; what is no positive number is skipped. -/
def freqset (a : Option V) : SortedSet ℤ :=
  (a.getD .null).elements.foldl (fun s e => match e with
    | .num n => if n.isPos then SortedSet.add s n.toI64 else s
    | _ => s) ∅

/-- A track; what is no pair of a time and a position is skipped. -/
def readTrack (a : Option V) : List (ℤ × Bytes) :=
  (a.getD .null).elements.foldl (fun tr e => match e with
    | .arr [.num t, .str pos] => trackAdd tr t.toI64 pos
    | _ => tr) []

/-! ## Records

Records without an id are skipped, and of two with one id the later one stays. -/

def readNetwork (e : V) : DsNetwork where
  key := e.strOf "key"
  label := e.strOf "label"
  confidence := e.strOf "confidence"
  ids := strmap (e.get "ids")
  sites := strset (e.get "sites")
  freqs := freqset (e.get "freqs")
  sessions := e.u "sessions"
  calls := e.u "calls"
  first := e.i64 "first"
  last := e.i64 "last"
  keys := countmap (e.get "keys")

def readTalkgroup (e : V) : DsTalkgroup where
  id := e.strOf "id"
  radios := countmap (e.get "radios")
  networks := strset (e.get "networks")
  calls := e.u "calls"
  emerg := e.u "emerg"
  enc := e.u "enc"
  first := e.i64 "first"
  last := e.i64 "last"
  keys := countmap (e.get "keys")

def readRadio (e : V) : DsRadio where
  id := e.strOf "id"
  aliases := strlist (e.get "aliases")
  tgs := countmap (e.get "tgs")
  peers := countmap (e.get "peers")
  networks := strset (e.get "networks")
  keys := countmap (e.get "keys")
  calls := e.u "calls"
  first := e.i64 "first"
  last := e.i64 "last"
  pos := e.strOf "pos"
  posT := e.i64 "pos_t"
  track := readTrack (e.get "track")

/-- An imported call is history: it is closed. -/
def readCall (e : V) : DsCall where
  id := e.u "id"
  session := e.u "session"
  streams := max 1 (e.u "streams")
  net := e.strOf "net"
  site := e.strOf "site"
  slot := e.strOf "slot"
  src := e.strOf "src"
  tgt := e.strOf "tgt"
  talkerAlias := e.strOf "alias"
  text := e.strOf "text"
  svc := e.strOf "svc"
  pos := e.strOf "pos"
  priv := e.boolean "priv"
  voice := e.boolean "voice"
  data := e.boolean "data"
  emerg := e.boolean "emerg"
  enc := e.boolean "enc"
  isOpen := false
  alg := e.strOf "alg"
  kid := e.strOf "kid"
  start := e.i64 "start"
  last := e.i64 "last"
  freq := e.i64 "freq"
  audio := e.strOf "audio"
  audioMs := e.u "audio_ms"
  quality :=
    { qual := e.strOf "q"
      qsil := e.numOf "qs"
      qrep := e.numOf "qr"
      qerr := e.numOf "qe"
      qframes := e.u "qn" % 2 ^ 32 }

def readSource (e : V) : DsSource where
  instanceId := e.strOf "instance"
  name := e.strOf "name"
  since := e.i64 "since"
  through := e.i64 "through"

/-- The records of a list by their ids, the last one of each; one without an id is left out. -/
def readTable {D : Type} (read : V → D) (id : D → Bytes) (m : SortedMap Bytes D) (a : Option V) :
    SortedMap Bytes D :=
  (a.getD .null).elements.foldl (fun m e =>
    if id (read e) = [] then m else m.insert (id (read e)) (read e)) m

/-- A protocol's data, added to what the file said about it before. -/
def readFamily (df : DsFamily) (F : V) : DsFamily where
  networks := readTable readNetwork DsNetwork.key df.networks (F.get "networks")
  tgs := readTable readTalkgroup DsTalkgroup.id df.tgs (F.get "talkgroups")
  radios := readTable readRadio DsRadio.id df.radios (F.get "radios")
  calls := df.calls ++ ((F.get "calls").getD .null).elements.map readCall

/-- The families of a file; a name that comes twice is read into one. -/
def readFamilies (fams : List (Bytes × V)) : SortedMap Bytes DsFamily :=
  fams.foldl
    (fun m fk => if fk.2.isObj then m.insert fk.1 (readFamily (m.getD fk.1 {}) fk.2) else m) ∅

/-! ## Provenance

A file says which runs its data is from.  One that does not is taken as one run, from no known
beginning to the time of the export; and one that does not even name its run is given a name made of
what it holds. -/

/-- Whose data a file is: its own run, and its sources. -/
structure Origin where
  instanceId : Bytes
  name : Bytes
  sources : List DsSource

/-- The run that wrote the file, and what it had imported; a file that does not say is a run of its
own. -/
def readOrigin (root : V) (label : Bytes) (exported : ℤ) (fams : SortedMap Bytes DsFamily) :
    Origin :=
  let instanceId := root.strOf "instance"
  let name := root.strOf "name"
  let sources := (((root.get "sources").getD .null).elements.map readSource).filter
    fun s => s.instanceId ≠ []
  if sources ≠ [] then ⟨instanceId, name, sources⟩
  else if instanceId ≠ [] then ⟨instanceId, name, [⟨instanceId, name, 0, exported⟩]⟩
  else
    let instanceId := lit "anon-" ++ (fnvHex (familiesJson { fams := fams })).take 12
    let name := if name = [] then label else name
    ⟨instanceId, name, [⟨instanceId, name, 0, exported⟩]⟩

namespace Origin

variable (o : Origin)

/-- What a run's own keys are qualified with. -/
def tag : Bytes := o.instanceId.take 8

/-- What a receiver is called. -/
def who : Bytes := if o.name = [] then o.tag else o.name

end Origin

/-! ## Qualified keys

A network that was identified for good is the same everywhere.  One known by its channel is joined
with others of that channel or kept apart by receiver, as the server is set; any other is that of
the run it was heard in, and its key says so after the import. -/

/-- **How channel-keyed networks of different receivers merge**: joined, or kept per receiver — but
for the `home` receiver's own. -/
structure ChannelMerge where
  perReceiver : Bool := false
  home : Bytes := []

/-- Are a receiver's channels kept apart? -/
def ChannelMerge.apart (cm : ChannelMerge) (o : Origin) : Bool := cm.perReceiver && o.who ≠ cm.home

/-- **The key a network gets when it is local to its run** — or, when channels are kept apart, to
its receiver; a key that was qualified before is left. -/
def qualified (cm : ChannelMerge) (o : Origin) (n : DsNetwork) : Option Bytes :=
  if ch '~' ∈ n.key then none
  else if n.confidence = lit "channel" then
    if cm.apart o then some (n.key ++ lit "~" ++ o.who) else none
  else if n.confidence ≠ lit "strong" then some (n.key ++ lit "~" ++ o.tag)
  else none

/-- The network under its new key. -/
def requalify (cm : ChannelMerge) (o : Origin) (n : DsNetwork) : DsNetwork :=
  match qualified cm o n with
  | some key => { n with key := key, label := n.label ++ dot ++ o.who }
  | none => n

/-- Old key → new key. -/
def remapOf (cm : ChannelMerge) (o : Origin) (nets : SortedMap Bytes DsNetwork) :
    SortedMap Bytes Bytes :=
  nets.entries.foldl (fun m e => match qualified cm o e.2 with
    | some key => m.insert e.2.key key
    | none => m) ∅

/-- The networks under their new keys; the first one to take a key keeps it. -/
def renameNetworks (cm : ChannelMerge) (o : Origin) (nets : SortedMap Bytes DsNetwork) :
    SortedMap Bytes DsNetwork :=
  nets.entries.foldl (fun m e =>
    let n := requalify cm o e.2
    if n.key ∈ m then m else m.insert n.key n) ∅

/-- A key's image. -/
def image (remap : SortedMap Bytes Bytes) (k : Bytes) : Bytes := remap.getD k k

/-- A set of keys' image. -/
def imageSet (remap : SortedMap Bytes Bytes) (s : SortedSet Bytes) : SortedSet Bytes :=
  s.keys.foldl (fun o k => SortedSet.add o (image remap k)) ∅

/-- **A protocol's data under qualified keys.** -/
def qualifyFamily (cm : ChannelMerge) (o : Origin) (F : DsFamily) : DsFamily :=
  let remap := remapOf cm o F.networks
  { networks := renameNetworks cm o F.networks
    tgs := F.tgs.mapVal fun _ t => { t with networks := imageSet remap t.networks }
    radios := F.radios.mapVal fun _ r => { r with networks := imageSet remap r.networks }
    calls := F.calls.map fun c => { c with net := image remap c.net } }

/-! ## Merge rules

Rules are read in the order they stand in, with the keys the import gave.  A rule of which neither
end is in the file is left out, and so is one whose key cannot be told. -/

/-- **The key a rule of the file means**, empty when there is no telling: a key the file does not
hold is qualified as if it were held. -/
def ruleKey (cm : ChannelMerge) (o : Origin) (remap : SortedMap Bytes Bytes)
    (nets : SortedMap Bytes DsNetwork) (k : Bytes) : Bytes :=
  match remap.find? k with
  | some k' => k'
  | none =>
    if k ∈ nets ∨ ch '~' ∈ k then k
    else
      let at' := cutLast (ch '@') k
      if (lit "unknown:").isPrefixOf k || (at'.any fun p => p.2.head? = some (ch 's')) then []
      else if at'.isSome && cm.apart o && o.instanceId ≠ [] then k ++ lit "~" ++ o.who
      else k

/-- A protocol's rules. -/
def readRules (cm : ChannelMerge) (o : Origin) (remap : SortedMap Bytes Bytes)
    (nets : SortedMap Bytes DsNetwork) (fam : Bytes) (m : NetMerges) (rules : List (Bytes × V)) :
    NetMerges :=
  rules.foldl (fun m kv => match kv.2 with
    | .str dst =>
      let k := ruleKey cm o remap nets kv.1
      let r := ruleKey cm o remap nets dst
      if k = [] ∨ r = [] ∨ (k ∉ nets ∧ r ∉ nets) then m else mergesAdd' m fam k r
    | _ => m) m

/-! ## The file

A file is refused when it is no JSON, when it is a recording, or when it has no protocols in it or
names another format; the message says which.  All else in it is read as far as it is known. -/

/-- Why a recording is refused. -/
def notAnExport : Bytes :=
  lit ("this is a recording (raw decoder input), not an export -- " ++
    "convert it with net-replay --export")

/-- What is wrong with a document, if anything. -/
def refused (root : V) : Option Bytes :=
  if !root.isObj then some (lit "not a JSON object")
  else if (root.get "op").isSome then some notAnExport
  else if !((root.get "families").any V.isObj) ||
      (root.strOf "format" ≠ [] && root.strOf "format" ≠ lit "dsd-net-export") then
    some (lit "not a dsd-server explorer export (expected format \"dsd-net-export\")")
  else none

/-- A file's data before its keys are qualified. -/
def fileFamilies (root : V) : SortedMap Bytes DsFamily :=
  readFamilies ((root.get "families").getD .null).members

/-- When the file was exported. -/
def fileExported (root : V) : ℤ :=
  if root.i64 "exported" ≠ 0 then root.i64 "exported" else root.i64 "now"

/-- Whose data the file is. -/
def fileOrigin (root : V) (label : Bytes) : Origin :=
  readOrigin root label (fileExported root) (fileFamilies root)

/-- **The dataset of a parsed export.** -/
def datasetFromExport (root : V) (label : Bytes) (cm : ChannelMerge) : Except Bytes Dataset :=
  match refused root with
  | some e => .error e
  | none =>
    let raw := fileFamilies root
    let o := fileOrigin root label
    let fams := if o.instanceId = [] then raw else raw.mapVal fun _ F => qualifyFamily cm o F
    let remap (f : Bytes) : SortedMap Bytes Bytes :=
      if o.instanceId = [] then ∅ else ((raw.find? f).map fun F => remapOf cm o F.networks).getD ∅
    .ok
      { label := label
        exported := fileExported root
        sources := o.sources
        fams := fams
        merges := ((root.get "merges").getD .null).members.foldl (fun m fk =>
          match fams.find? fk.1 with
          | none => m
          | some F => readRules cm o (remap fk.1) F.networks fk.1 m fk.2.members) ∅ }

/-- **The dataset of an uploaded file**; `inflate` is the decompressor of gzip data. -/
def datasetFromExportText (inflate : Bytes → Option Bytes) (text label : Bytes)
    (cm : ChannelMerge) :
    Except Bytes Dataset :=
  let data := if [0x1f, 0x8b].isPrefixOf text then inflate text else some text
  match data with
  | none => .error (lit "corrupt gzip data")
  | some text =>
    if text.take 16 = lit "\x7b\"op\":\"header\"," then .error notAnExport
    else
      match parse text with
      | .error e => .error (lit "not valid JSON (" ++ e ++ lit ")")
      | .ok root => datasetFromExport root label cm

end DsdServer
