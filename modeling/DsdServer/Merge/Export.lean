import DsdServer.Json.Write
import DsdServer.Merge.Dataset

/-!
# Merge/Export — the export file

A dataset as text: the per-protocol data the explorer renders, the runs it comes from and the merge
rules about networks it holds.
-/

open Bytes

namespace DsdServer

open assocjson

/-! ## Members

The writer puts texts together, with commas where they belong.  Optional members come with their
comma. -/

/-- A member whose key is a literal. -/
def named (k : String) (v : Bytes) : Bytes := member (lit k) v

/-- A member left out when it says nothing. -/
def optional (c : Prop) [Decidable c] (l : List Bytes) : List Bytes := if c then l else []

/-- An object of these members. -/
def object (l : List Bytes) : Bytes := braces (commas l)

/-- An array of these elements. -/
def array (l : List Bytes) : Bytes := brackets (commas l)

/-! ## Families

Every record is written with its members in a fixed order; tables are written in the order of their
keys. -/

def networkJson (n : DsNetwork) : Bytes :=
  object ([named "key" (q n.key), named "label" (q n.label), named "confidence" (q n.confidence),
    named "ids" (obj n.ids), named "sites" (arr n.sites.keys), named "freqs" (nums n.freqs.keys),
    named "sessions" (dec n.sessions), named "calls" (dec n.calls), named "first" (decInt n.first),
    named "last" (decInt n.last)] ++
    optional (n.keys.isEmpty = false) [named "keys" (counts n.keys)])

/-- A talkgroup, as text. -/
def talkgroupJson (t : DsTalkgroup) : Bytes :=
  object ([named "id" (q t.id), named "networks" (arr t.networks.keys),
    named "radios" (counts t.radios), named "calls" (dec t.calls), named "emerg" (dec t.emerg),
    named "enc" (dec t.enc), named "first" (decInt t.first), named "last" (decInt t.last)] ++
    optional (t.keys.isEmpty = false) [named "keys" (counts t.keys)])

/-- A fix: its time and its position. -/
def fixJson (f : ℤ × Bytes) : Bytes := array [decInt f.1, q f.2]

/-- A radio, as text; where it was only when it is known. -/
def radioJson (r : DsRadio) : Bytes :=
  object ([named "id" (q r.id), named "aliases" (arr r.aliases), named "tgs" (counts r.tgs),
    named "peers" (counts r.peers), named "networks" (arr r.networks.keys),
    named "calls" (dec r.calls), named "first" (decInt r.first), named "last" (decInt r.last)] ++
    optional (r.keys.isEmpty = false) [named "keys" (counts r.keys)] ++
    optional (r.pos ≠ []) [named "pos" (q r.pos), named "pos_t" (decInt r.posT)] ++
    optional (r.track ≠ []) [named "track" (array (r.track.map fixJson))])

/-- A call, as text; most of its fields only when they are not empty. -/
def callJson (k : DsCall) : Bytes :=
  object ([named "id" (dec k.id), named "session" (dec k.session), named "net" (q k.net),
    named "site" (q k.site), named "freq" (decInt k.freq), named "slot" (q k.slot),
    named "src" (q k.src), named "tgt" (q k.tgt), named "alias" (q k.talkerAlias),
    named "text" (q k.text), named "priv" (b k.priv), named "voice" (b k.voice),
    named "data" (b k.data), named "emerg" (b k.emerg), named "enc" (b k.enc),
    named "open" (b k.isOpen), named "streams" (dec k.streams), named "start" (decInt k.start),
    named "last" (decInt k.last)] ++
    optional (k.audio ≠ []) [named "audio" (q k.audio), named "audio_ms" (dec k.audioMs)] ++
    optional (k.svc ≠ []) [named "svc" (q k.svc)] ++
    optional (k.pos ≠ []) [named "pos" (q k.pos)] ++
    optional (k.kid ≠ []) [named "alg" (q k.alg), named "kid" (q k.kid)] ++
    optional (k.quality.qual ≠ []) [named "q" (q k.quality.qual),
      named "qs" (double k.quality.qsil),
      named "qr" (double k.quality.qrep), named "qe" (double k.quality.qerr),
      named "qn" (dec k.quality.qframes)])

/-- A protocol, as text. -/
def familyJson (F : DsFamily) : Bytes :=
  object [named "networks" (array (F.networks.entries.map fun e => networkJson e.2)),
    named "talkgroups" (array (F.tgs.entries.map fun e => talkgroupJson e.2)),
    named "radios" (array (F.radios.entries.map fun e => radioJson e.2)),
    named "calls" (array (F.calls.map callJson))]

/-- **The per-protocol data.** -/
def familiesJson (d : Dataset) : Bytes :=
  object (d.fams.entries.map fun f => member f.1 (familyJson f.2))

/-! ## Sources and merge rules

The rules written are those about networks the dataset holds, so that a file does not speak of
others. -/

def sourceJson (s : DsSource) : Bytes :=
  object [named "instance" (q s.instanceId), named "name" (q s.name),
    named "since" (decInt s.since), named "through" (decInt s.through)]

/-- The sources of a dataset. -/
def sourcesJson (ss : List DsSource) : Bytes := array (ss.map sourceJson)

/-- The rules, protocol by protocol; a protocol without any is left out. -/
def mergesJson (m : NetMerges) : Bytes :=
  object ((m.entries.filter fun f => !f.2.isEmpty).map fun f => member f.1 (obj f.2))

/-- The rules about networks the dataset holds, either end. -/
def mergesHeld (d : Dataset) : NetMerges :=
  d.merges.entries.foldl (fun out f =>
    match d.fams.find? f.1 with
    | none => out
    | some F => f.2.entries.foldl (fun out kv =>
        if kv.1 ∈ F.networks ∨ kv.2 ∈ F.networks then
          out.insert f.1 ((out.getD f.1 ∅).insert kv.1 kv.2)
        else out) out) ∅

/-- **A self-describing export of a dataset.** -/
def exportJson (d : Dataset) (now : ℤ) (instanceId name : Bytes) : Bytes :=
  let mg := mergesHeld d
  object ([named "format" (q (lit "dsd-net-export")), named "format_version" (dec 1),
    named "source" (q (lit "dsd-server")), named "instance" (q instanceId), named "name" (q name),
    named "exported" (decInt now), named "now" (decInt now),
    named "sources" (sourcesJson d.sources)] ++
    optional (mg.isEmpty = false) [named "merges" (mergesJson mg)] ++
    [named "families" (familiesJson d)])

/-- 64-bit FNV-1a, for identities derived from content. -/
def fnvHex (s : Bytes) : Bytes :=
  let h := s.foldl (fun h c => (h ^^^ UInt64.ofNat c.toNat) * 1099511628211)
    (1469598103934665603 : UInt64)
  (List.range 16).map fun i => hexDigit (h.toNat / 16 ^ (15 - i) % 16)

end DsdServer
