import DsdServer.Assoc.Calls
import DsdServer.Merge.Import

/-!
# Merge/Fold — folding datasets into one

Same protocols merge, ids and strong network keys join, and counts add up, as 64 bits let them.  A
call two datasets have heard is kept once, and counted once.  Whether a dataset may join others
without counting anything twice is judged by the spans of the runs it comes from.
-/

open Bytes

namespace DsdServer

/-! ## Taking back what counting added

A call that both datasets have heard was counted in both.  When it is found, what it added on one
side is subtracted again, counter by counter. -/

/-- One less, and gone at zero. -/
def decKey (m : SortedMap Bytes ℕ) (k : Bytes) : SortedMap Bytes ℕ :=
  match m.find? k with
  | none => m
  | some v => if v ≤ 1 then m.erase k else m.insert k (v - 1)

/-- One less of a key, when there is one. -/
def decEnc (m : SortedMap Bytes ℕ) (key : Bytes) : SortedMap Bytes ℕ :=
  if key = [] then m else decKey m key

/-- **Take back what counting a duplicate added.** -/
def uncount (F : DsFamily) (dup : DsCall) : DsFamily :=
  let key := if dup.kid = [] then [] else encKey dup.alg dup.kid
  let radios :=
    F.radios.modify dup.src fun r => { r with calls := r.calls - 1, keys := decEnc r.keys key }
  let F := if dup.priv then
      let radios := radios.modify dup.src fun r => { r with peers := decKey r.peers dup.tgt }
      { F with radios := radios.modify dup.tgt fun p => { p with peers := decKey p.peers dup.src } }
    else
      { F with
        radios := radios.modify dup.src fun r => { r with tgs := decKey r.tgs dup.tgt }
        tgs := F.tgs.modify dup.tgt fun t =>
          { t with
            calls := t.calls - 1
            radios := decKey t.radios dup.src
            emerg := if dup.emerg then t.emerg - 1 else t.emerg
            enc := if dup.enc then t.enc - 1 else t.enc
            keys := decEnc t.keys key } }
  { F with
    networks := F.networks.modify dup.net fun n =>
    { n with calls := n.calls - 1, keys := decEnc n.keys key } }

/-- **A call, with what its duplicate adds**; the better-supported voice-quality verdict stays. -/
def foldCall (twin dup : DsCall) : DsCall :=
  { twin with
    voice := twin.voice || dup.voice
    data := twin.data || dup.data
    emerg := twin.emerg || dup.emerg
    enc := twin.enc || dup.enc
    alg := if twin.kid = [] then dup.alg else twin.alg
    kid := if twin.kid = [] then dup.kid else twin.kid
    talkerAlias := if twin.talkerAlias = [] then dup.talkerAlias else twin.talkerAlias
    text := Call.addText twin.text dup.text
    slot := if twin.slot = [] then dup.slot else twin.slot
    site := if twin.site = [] then dup.site else twin.site
    svc := if svcRank twin.svc < svcRank dup.svc then dup.svc else twin.svc
    pos := if twin.pos = [] then dup.pos else twin.pos
    audio := if twin.audio = [] then dup.audio else twin.audio
    audioMs := if twin.audio = [] then dup.audioMs else twin.audioMs
    quality := if dup.quality.qual ≠ [] ∧
        (twin.quality.qual = [] ∨ twin.quality.qframes < dup.quality.qframes) then dup.quality
      else twin.quality
    start := min twin.start dup.start
    last := max twin.last dup.last
    streams := add64 twin.streams dup.streams }

/-! ## Joining entities

The label is that of the surer identity, lists are joined, and counts are added as 64 bits let them.
-/

/-- How far apart in time two records of one call may be. -/
def kTwinGapMs : ℤ := 4000

/-- How sure a network's identity is. -/
def confRank (conf : Bytes) : ℕ :=
  if conf = lit "strong" then 3 else if conf = lit "channel" then 2 else if conf = lit "weak" then 1
  else 0

/-- The earlier of two times; zero is none. -/
def earlier (a b : ℤ) : ℤ := if a = 0 then b else if b = 0 then a else min a b

/-- Counts added up. -/
def addCounts (m n : SortedMap Bytes ℕ) : SortedMap Bytes ℕ :=
  n.entries.foldl (fun m x => m.insert x.1 (add64 (m.getD x.1 0) x.2)) m

/-- `keyAdd`, on a tally of a dataset. -/
def keyAdd64 (m : SortedMap Bytes ℕ) (k : Bytes) (n : ℕ) : SortedMap Bytes ℕ :=
  match m.find? k with
  | some v => m.insert k (add64 v n)
  | none => if m.size < kMaxKeys then m.insert k n else m

/-- Keys counted up, as far as the tally has room. -/
def addKeys (m n : SortedMap Bytes ℕ) : SortedMap Bytes ℕ :=
  n.entries.foldl (fun m x => keyAdd64 m x.1 x.2) m

/-- A table with another's entries: the ones on both sides joined. -/
def joinTable {V : Type*} (f : V → V → V) (m n : SortedMap Bytes V) : SortedMap Bytes V :=
  n.entries.foldl (fun m kv => match m.find? kv.1 with
    | none => m.insert kv.1 kv.2
    | some v => m.insert kv.1 (f v kv.2)) m

/-- Two records of one network. -/
def DsNetwork.join (n m : DsNetwork) : DsNetwork :=
  let better := confRank n.confidence < confRank m.confidence
  { n with
    confidence := if better then m.confidence else n.confidence
    label := if better then m.label else n.label
    ids := m.ids.entries.foldl (fun s i => if i.1 ∈ s then s else s.insert i.1 i.2) n.ids
    sites := n.sites.addAll m.sites.keys
    freqs := n.freqs.addAll m.freqs.keys
    sessions := add64 n.sessions m.sessions
    calls := add64 n.calls m.calls
    keys := addKeys n.keys m.keys
    first := earlier n.first m.first
    last := max n.last m.last }

/-- Two records of one talkgroup. -/
def DsTalkgroup.join (t m : DsTalkgroup) : DsTalkgroup :=
  { t with
    radios := addCounts t.radios m.radios
    networks := t.networks.addAll m.networks.keys
    calls := add64 t.calls m.calls
    emerg := add64 t.emerg m.emerg
    enc := add64 t.enc m.enc
    keys := addKeys t.keys m.keys
    first := earlier t.first m.first
    last := max t.last m.last }

/-- Both receivers' fixes, in time order. -/
def joinTracks (a b : List (ℤ × Bytes)) : List (ℤ × Bytes) :=
  ((a ++ b).mergeSort fun x y => x.1 ≤ y.1).foldl (fun tr f => trackAdd tr f.1 f.2) []

/-- Two records of one radio. -/
def DsRadio.join (r m : DsRadio) : DsRadio :=
  let newer := m.pos ≠ [] ∧ r.posT ≤ m.posT
  { r with
    aliases := m.aliases.foldl (fun l a => if l.length < 8 ∧ a ∉ l then l ++ [a] else l) r.aliases
    tgs := addCounts r.tgs m.tgs
    peers := addCounts r.peers m.peers
    keys := addKeys r.keys m.keys
    networks := r.networks.addAll m.networks.keys
    calls := add64 r.calls m.calls
    first := earlier r.first m.first
    last := max r.last m.last
    pos := if newer then m.pos else r.pos
    posT := if newer then m.posT else r.posT
    track := if m.track = [] then r.track else joinTracks r.track m.track }

/-! ## Joining calls

Two records are of one call when they have the same ends, are on one network, and their times meet
but for a small gap.  The record from before stays, with what the other adds. -/

/-- Is `o` the record of the same call?  Networks merged into one count as one. -/
def sameCall (root : Bytes → Bytes) (c o : DsCall) : Bool :=
  o.src ≠ [] && o.tgt ≠ [] && o.tgt = c.tgt && (o.net = c.net || root o.net = root c.net) &&
    o.src = c.src && o.priv = c.priv && c.start ≤ o.last + kTwinGapMs &&
    o.start ≤ c.last + kTwinGapMs

/-- A call joins a family whose first `old` calls are other datasets'. -/
def joinCall (root : Bytes → Bytes) (old : ℕ) (T : DsFamily) (c : DsCall) : DsFamily :=
  let twin := if c.src ≠ [] ∧ c.tgt ≠ [] ∧
    c.net ≠ [] then (T.calls.take old).findIdx? (sameCall root c)
    else none
  match twin with
  | some i => uncount { T with calls := T.calls.modify i fun o => foldCall o c } c
  | none => { T with calls := T.calls ++ [c] }

/-- **A family joins another**, calls included. -/
def DsFamily.join (root : Bytes → Bytes) (T F : DsFamily) : DsFamily :=
  F.calls.foldl (joinCall root T.calls.length)
    { T with
      networks := joinTable DsNetwork.join T.networks F.networks
      tgs := joinTable DsTalkgroup.join T.tgs F.tgs
      radios := joinTable DsRadio.join T.radios F.radios }

/-- **Fold a dataset into another.** -/
def mergeInto (d from' : Dataset) : Dataset :=
  let merges := mergesUnion d.merges from'.merges
  { d with
    merges := merges
    fams := from'.fams.entries.foldl (fun m fk =>
      m.insert fk.1 ((m.getD fk.1 {}).join (mergeRoot merges fk.1) fk.2)) d.fams
    sources := d.sources ++ from'.sources }

/-! ## Bounding the calls

After a merge the calls are sorted, and the oldest without audio are dropped above the cap. -/

/-- Drop the first calls without audio. -/
def dropAudioless : ℕ → List DsCall → List DsCall
  | _, [] => []
  | 0, l => l
  | n + 1, c :: l => if c.audio = [] then dropAudioless n l else c :: dropAudioless (n + 1) l

/-- **Bound a newest-first list of calls**: the oldest without audio go. -/
def capCalls (calls : List DsCall) (cap : ℕ) : List DsCall :=
  (dropAudioless (calls.countP (fun c => c.audio = []) - cap) calls.reverse).reverse

/-- After merging: calls newest first, bounded, and renumbered. -/
def finalizeMerge (d : Dataset) (renumber : Bool) (cap : ℕ) : Dataset :=
  { d with
    fams := d.fams.mapVal fun _ F =>
      let calls := capCalls (F.calls.mergeSort fun a b => b.start ≤ a.start) cap
      { F with
        calls := if renumber then calls.mapIdx fun i c => { c with id := calls.length - i }
        else calls } }

/-! ## Provenance

Each dataset says which runs its data is from, and of what span of time.  A span that is covered
brings nothing new, and one that overlaps would be counted twice in part. -/

/-- Does a source cover another of the same run? -/
def srcContains (a b : DsSource) : Bool :=
  a.instanceId = b.instanceId && a.since ≤ b.since && b.through ≤ a.through

/-- Do two sources of one run have time in common? -/
def srcOverlaps (a b : DsSource) : Bool :=
  a.instanceId = b.instanceId &&
    ((a.since = b.since && a.through = b.through) || (a.since < b.through && b.since < a.through))

/-- Is every source covered by one of the others? -/
def sourcesCovered (xs ys : List DsSource) : Bool := xs.all fun x => ys.any fun y => srcContains y x

/-- Do two sets of spans overlap anywhere? -/
def sourcesOverlap (xs ys : List DsSource) : Bool := xs.any fun a => ys.any fun l => srcOverlaps a l

/-- What becomes of a dataset that wants to join others. -/
inductive MergeVerdict
  /-- it joins; these layers stay, and it replaces those -/
  | add (keeps replaces : List Dataset)
  | skip (why : Bytes)
  | refuse (why : Bytes)

/-- The layers, one by one: one the dataset has nothing of stays, one it covers is replaced. -/
def judgeLayers (x : Dataset) : List Dataset → MergeVerdict
  | [] => .add [] []
  | l :: layers =>
    if sourcesOverlap x.sources l.sources then
      if sourcesCovered l.sources x.sources then
        match judgeLayers x layers with
        | .add keeps replaces => .add keeps (l :: replaces)
        | v => v
      else .refuse (lit "it partly overlaps " ++ l.label ++
        lit " (same server run, overlapping time) -- merging would count the same calls twice")
    else
      match judgeLayers x layers with
      | .add keeps replaces => .add (l :: keeps) replaces
      | v => v

/-- Why a file of this server's own run is not imported. -/
def ownData : Bytes := lit "it is this server's own live data (already shown)"

/-- **May a dataset join these layers** (and, in the live model, the live data) **without counting
anything twice?** -/
def judge (x : Dataset) (layers : List Dataset) (live : Option (List DsSource)) : MergeVerdict :=
  let all := live.getD [] ++ layers.flatMap (·.sources)
  if x.sources ≠ [] ∧ sourcesCovered x.sources all then
    if live.any (sourcesCovered x.sources) then .skip ownData
    else
      match layers.find? fun l => sourcesCovered x.sources l.sources with
      | some l => .skip (lit "already included" ++ lit " in " ++ l.label)
      | none => .skip (lit "already included")
  else if live.any (sourcesOverlap x.sources) then
    .refuse (lit ("it overlaps this server's live data -- importing it would count the same " ++
      "calls twice (Clear first to import it)"))
  else judgeLayers x layers

/-! ## Merging files

Files are added one by one.  A file that is covered is skipped, one that covers others replaces
them, and one that overlaps is refused, with its reason. -/

/-- What is told of a merge of files. -/
structure MergeReport where
  label : Bytes
  /-- merged, replaced, skipped, refused or invalid -/
  status : Bytes
  message : Bytes
  deriving DecidableEq

/-- The report of a layer a newer file replaces. -/
def MergeReport.supersede (label by' : Bytes) (r : MergeReport) : MergeReport :=
  if r.label = label ∧ r.status ≠ lit "invalid" then
    { r with
      status := lit "replaced"
      message := lit "superseded by " ++ by' ++ lit " (a newer export of the same run)" }
  else r

/-- The layers and the reports after one more file. -/
def takeFile (inflate : Bytes → Option Bytes) (cm : ChannelMerge)
    (acc : List Dataset × List MergeReport) (f : Bytes × Bytes) : List Dataset × List MergeReport :=
  match datasetFromExportText inflate f.2 f.1 cm with
  | .error e => (acc.1, acc.2 ++ [⟨f.1, lit "invalid", e⟩])
  | .ok x =>
    match judge x acc.1 none with
    | .skip why => (acc.1, acc.2 ++ [⟨f.1, lit "skipped", why⟩])
    | .refuse why => (acc.1, acc.2 ++ [⟨f.1, lit "refused", why⟩])
    | .add keeps replaces =>
      let labels := replaces.reverse.map (·.label)
      let report := labels.foldl (fun rs l => rs.map (MergeReport.supersede l f.1)) acc.2
      let replaced := labels.foldl (fun s l => (if s = [] then s else s ++ lit ", ") ++ l) []
      (keeps ++ [x], report ++ [⟨f.1, lit "merged",
        if replaced = [] then lit "merged" else lit "merged (replaces " ++ replaced ++ lit ")"⟩])

/-- **Merge several export files**, in order. -/
def mergeExports (inflate : Bytes → Option Bytes) (cm : ChannelMerge) (maxCalls : ℕ)
    (files : List (Bytes × Bytes)) : Dataset × List MergeReport :=
  let (layers, report) := files.foldl (takeFile inflate cm) ([], [])
  let out := layers.foldl (fun out l =>
    { mergeInto out l with exported := max out.exported l.exported }) { label := lit "merged" }
  (finalizeMerge out true maxCalls, report)

end DsdServer
