import DsdServer.Assoc.Calls
import DsdServer.Assoc.Identity
import DsdServer.Merge.Dataset

/-!
# Assoc/Model — the association model and its inputs

The state behind the network explorer, and what each input does to it: a session's stream starts,
moves channel, decodes an event, ends, disconnects; the explorer clears everything.  Every operation
takes the limits it works under, so that a step which reaches none of them is the step without
limits.
-/

open Bytes

namespace DsdServer

namespace Ctx

/-- A context keeps its protocol, channel and running state, and forgets identity and calls. -/
def forget (c : Ctx) : Ctx :=
  { family := c.family, label := c.label, running := c.running, freq := c.freq
    startedMs := c.startedMs, heardMs := c.heardMs }

/-- The stream stopped. -/
def stop (c : Ctx) : Ctx := { c with running := false, active := ∅ }

/-- The stream moved to another channel. -/
def retune (c : Ctx) (freq : ℤ) : Ctx :=
  { family := c.family, label := c.label, running := c.running, freq := freq }

/-- The stream is on none of these networks. -/
def leave (c : Ctx) (dead : List Bytes) : Ctx := if c.net ∈ dead then { c with net := [] } else c

/-- The stream moves along when its network is folded into another. -/
def moveAlong (c : Ctx) (frm dst : Bytes) : Ctx := if c.net = frm then { c with net := dst } else c

end Ctx

/-- A stream is heard on its network. -/
def Network.hear (n : Network) (c : Ctx) (sid : ℕ) (now : ℤ) : Network :=
  { n with
    lastMs := now
    firstMs := if n.firstMs = 0 then now else n.firstMs
    sessions := n.sessions.add sid
    sites := if c.site = [] then n.sites else n.sites.add c.site
    freqs := if c.freq ≠ 0 ∧ n.freqs.size < kMaxFreqs then n.freqs.add c.freq else n.freqs }

/-- An imported call waiting for its audio. -/
structure AudioWant where
  fam : Bytes
  call : ℕ
  ms : ℕ
  deriving DecidableEq

/-- The audio files an import's calls name, and the ones uploaded (served name → bytes). -/
structure ImportAudio where
  want : SortedMap Bytes (List AudioWant) := ∅
  files : SortedMap Bytes ℕ := ∅
  deriving DecidableEq

/-- **The association model.** -/
structure AssocModel where
  fams : SortedMap Bytes Family := ∅
  sess : SortedMap ℕ Ctx := ∅
  version : ℕ := 0
  nextCall : ℕ := 0
  log : AssocRecorder := {}
  instanceId : Bytes := []
  name : Bytes := []
  since : ℤ := 0
  imports : List Dataset := []
  nextImport : ℕ := 0
  importAudio : SortedMap ℕ ImportAudio := ∅
  merges : NetMerges := ∅
  perReceiver : Bool := false
  maxCalls : ℕ := 10000
  store : CallAudioStore := {}
  audioOn : Bool := false
  qualityOn : Bool := true
  quality : SortedMap ℕ VoiceQuality := ∅
  deriving DecidableEq

namespace AssocModel

/-- The limits the model works under. -/
def limits (s : AssocModel) : Limits := .standard s.maxCalls

/-- A family's data; blank when there is none. -/
def family (s : AssocModel) (f : Bytes) : Family := s.fams.getD f {}

/-- A session's context; a new one when there is none. -/
def ctx (s : AssocModel) (sid : ℕ) : Ctx := s.sess.getD sid {}

/-- Something that is shown has changed. -/
def bumpVersion (s : AssocModel) : AssocModel := { s with version := s.version + 1 }

def setFamily (s : AssocModel) (f : Bytes) (F : Family) : AssocModel :=
  { s with fams := s.fams.insert f F }

/-- Put the context of a stream in. -/
def setCtx (s : AssocModel) (sid : ℕ) (c : Ctx) : AssocModel :=
  { s with sess := s.sess.insert sid c }

/-- Record an input. -/
def record (s : AssocModel) (line : Bytes) : AssocModel := { s with log := s.log.write line }

/-! ## Working on one family

Calls are handled within one family, and need beside it the store, the recording and the analyzers.
They are taken out together and put back together. -/

/-- A family and what closing a call touches besides. -/
def desk (s : AssocModel) (f : Bytes) : FamilyState := ⟨f, s.family f, s.store, s.log, s.quality⟩

/-- Put a family and the rest back. -/
def putDesk (s : AssocModel) (w : FamilyState) : AssocModel :=
  { s with
    fams := s.fams.insert w.name w.fam
    store := w.store
    log := w.log
    quality := w.quality }

/-- A session's stream at work. -/
def stream (s : AssocModel) (sid : ℕ) : StreamState :=
  ⟨s.desk (s.ctx sid).family, s.ctx sid, s.nextCall⟩

/-- Put a session's stream back. -/
def putStream (s : AssocModel) (sid : ℕ) (st : StreamState) : AssocModel :=
  { (s.putDesk st.toFamilyState).setCtx sid st.ctx with nextCall := st.nextCall }

/-! ## Ending a stream's calls and networks

A stream that ends closes its calls.  Networks it leaves behind are dropped when nothing was counted
on them; all of them are chosen before the first is dropped. -/

/-- Close a session's calls. -/
def closeSessionCalls (L : Limits) (s : AssocModel) (sid : ℕ) : AssocModel :=
  match s.sess.find? sid with
  | none => s
  | some c =>
    if s.fams.contains c.family then s.putDesk ((s.desk c.family).closeSessionCalls L sid) else s

/-- Is another running stream of the family on the network? -/
def inUse (s : AssocModel) (sid : ℕ) (f key : Bytes) : Bool :=
  s.sess.entries.any fun e => e.1 ≠ sid && e.2.running && e.2.family = f && e.2.net = key

/-- **The networks a stream leaves behind for nothing**: it fed them, no call was counted on them
and no record refers to them, no other stream is on them, and they did not identify themselves for
good (or the stream moved channel). -/
def deadNetworks (s : AssocModel) (sid : ℕ) (f : Bytes) (retune : Bool) : List Bytes :=
  let F := s.family f
  (F.networks.entries.filter fun e =>
    let n := e.2
    n.calls = 0 && n.sessions.contains sid &&
      !(!retune && (n.confidence = lit "strong" ||
          (n.confidence = lit "channel" && !n.ids.isEmpty)) && !covered F f e.1 n) &&
      !s.inUse sid f e.1 && !F.calls.any fun k => k.net = e.1).map Prod.fst

/-- Drop networks of a family; a protocol left empty disappears. -/
def dropNetworks (s : AssocModel) (f : Bytes) (dead : List Bytes) : AssocModel :=
  let F := dead.foldl Family.dropNetwork (s.family f)
  { s with fams := if F.isBlank then s.fams.erase f else s.fams.insert f F }

/-- Drop what a session's stream leaves behind. -/
def pruneSession (s : AssocModel) (sid : ℕ) (retune : Bool) : AssocModel :=
  match s.sess.find? sid with
  | none => s
  | some c =>
    if s.fams.contains c.family then
      let dead := s.deadNetworks sid c.family retune
      if dead.isEmpty then s
      else ((s.setCtx sid (c.leave dead)).dropNetworks c.family dead).bumpVersion
    else s

/-! ## Streams

Each of these inputs writes its line first, and then does its work on the model. -/

/-- **A session started a decode pipeline** with this protocol label; `family` overrides the family
derived from the label. -/
def beginStream (L : Limits) (s : AssocModel) (sid : ℕ) (label : Bytes) (now : ℤ)
    (family : Bytes) (freq : ℤ) : AssocModel :=
  let s := s.record (assoclog.beginLine now sid label freq)
  let s := (s.closeSessionCalls L sid).pruneSession sid false
  (s.setCtx sid
    { label := label
      family := if family = [] then assocFamily label else family
      freq := freq
      running := true
      startedMs := now }).bumpVersion

/-- **The session's channel moved**: its identity starts over. -/
def retuneStream (L : Limits) (s : AssocModel) (sid : ℕ) (freq : ℤ) (now : ℤ) : AssocModel :=
  match s.sess.find? sid with
  | none => s
  | some c =>
    if c.freq = freq then s
    else
      let s := s.record (assoclog.tuneLine now sid freq)
      let s := (s.closeSessionCalls L sid).pruneSession sid true
      (s.setCtx sid (c.retune freq)).bumpVersion

/-- **The session's pipeline stopped.** -/
def endStream (L : Limits) (s : AssocModel) (sid : ℕ) (now : ℤ) : AssocModel :=
  let s := s.record (assoclog.endLine now sid)
  let s := s.closeSessionCalls L sid
  let s := { s with sess := s.sess.modify sid Ctx.stop }
  (s.pruneSession sid false).bumpVersion

/-- **The session disconnected.** -/
def removeSession (L : Limits) (s : AssocModel) (sid : ℕ) (now : ℤ) : AssocModel :=
  let s := s.record (assoclog.removeLine now sid)
  let s := (s.closeSessionCalls L sid).pruneSession sid false
  bumpVersion { s with sess := s.sess.erase sid }

/-- **Forget everything learned and imported**; the streams keep their protocol and running state.
The live data's span restarts, and so do the call ids. -/
def clearLocked (s : AssocModel) (now : ℤ) : AssocModel :=
  let recordings := s.fams.entries.flatMap fun f =>
    (f.2.calls.map (·.sound.audio)).filter (· ≠ [])
  bumpVersion { s with
    store := recordings.foldl CallAudioStore.finish s.store
    fams := ∅
    importAudio := ∅
    imports := []
    since := now
    sess := s.sess.mapVal fun _ c => c.forget
    nextCall := 0 }

/-- **Clear the model**, as an input. -/
def clear (s : AssocModel) (now : ℤ) : AssocModel :=
  (s.record (assoclog.clearLine now)).clearLocked now

/-! ## Events

An event is read for what it says of the stream's network, whether or not it is traffic.  Only a
stream that has shown real traffic has its events handled as calls. -/

/-- **Fold a network of a family into another**; the streams on it move along. -/
def mergeNetwork (L : Limits) (s : AssocModel) (f frm dst : Bytes) : AssocModel :=
  let F := s.family f
  if frm ∈ F.networks ∧ dst ∈ F.networks then
    { s.setFamily f (F.mergeNetwork L frm dst) with
      sess := s.sess.mapVal fun _ c => c.moveAlong frm dst }
  else s

/-- **The stream's network takes its identity**, and the bucket it filled before is folded in; other
streams on that bucket move along. -/
def resolveNetwork (L : Limits) (s : AssocModel) (sid : ℕ) (now : ℤ) : AssocModel :=
  let c := s.ctx sid
  let id := networkId c sid (s.family c.family)
  let F := (s.family c.family).place L id c now
  let s := s.setFamily c.family F
  let s := if F.foldsAway c sid id.key then s.mergeNetwork L c.family c.net id.key else s
  s.setCtx sid (c.settle id.key)

/-- Record a neighbour's site on the stream's network. -/
def noteNeighbour (s : AssocModel) (sid : ℕ) (site : Bytes) : AssocModel :=
  let c := s.ctx sid
  if site = [] ∨ c.net = [] then s
  else s.setFamily c.family
    ((s.family c.family).onNetwork c.net fun n => { n with sites := n.sites.add site })

/-- **The network identity of a stream after an event**: absorb its tokens, resolve the network they
name when something changed or the stream has none, and mark the stream as heard there. -/
def identify (L : Limits) (s : AssocModel) (sid : ℕ) (r : Reading) (now : ℤ) : AssocModel :=
  let f := (s.ctx sid).family
  let s := (s.setFamily f (s.family f)).bumpVersion
  let a := absorbIdentity (s.ctx sid) r
  let s := (s.setCtx sid a.ctx).noteNeighbour sid a.neighbour
  let s := if a.changed ∨ a.ctx.net = [] ∨ a.ctx.net ∉ (s.family f).networks
    then s.resolveNetwork L sid now else s
  let c := s.ctx sid
  let F := s.family f
  s.setFamily f { F with
    networks := F.networks.insert c.net ((F.networks.getD c.net {}).hear c sid now) }

end AssocModel

/-- **Does an event reach the model?**  Not from a stream of no family, nor with a failed CRC; a
stream enters the model with its first real traffic, and only collects its identity before.  The
context after, and whether the event goes on. -/
def Ctx.gate (c : Ctx) (r : Reading) (now : ℤ) : Ctx × Bool :=
  let c := if r.ev.kind ≠ lit "unknown" ∧
    r.ev.crcError ≠ lit "1" then { c with heardMs := now } else c
  if c.family = [] then (c, false)
  else
    let fam := if c.family = lit "auto" then
        (if r.ev.kind = lit "unknown" then [] else inferFamily r.ev.rawLine)
      else c.family
    if fam = [] then (c, false)
    else
      let c := { c with family := fam }
      if r.ev.crcError = lit "1" then (c, false)
      else if c.live then (c, true)
      else if r.ev.kind = lit "unknown" then ((absorbIdentity c r).ctx, false)
      else ({ c with live := true }, true)

/-! ## The call an event belongs to

An event with a slot belongs to the call on that slot; one without is matched by its target, and may
find a call that another line has opened.  Where none is found, one is opened. -/

namespace Call

/-- The fields an event sets on its call directly. -/
def hear (k : Call) (r : Reading) (c : Ctx) : Call :=
  { k with
    src := if k.src = [] then r.src else k.src
    tgt := if k.tgt = [] then r.tgt else k.tgt
    voice := k.voice || r.voicey
    txEndMs := if r.voicey then 0 else k.txEndMs
    data := k.data || r.data
    emergency := k.emergency || r.emerg
    talkerAlias := if r.ev.talkerAlias = [] then k.talkerAlias else r.ev.talkerAlias
    text := addText k.text r.ev.message
    net := if k.counted then k.net else c.net
    site := if k.counted ∨ c.site = [] then k.site else c.site }

/-- An event more. -/
def heard (k : Call) (now : ℤ) : Call := { k with lastMs := now, frames := k.frames + 1 }

/-- The call takes a slot. -/
def takeSlot (k : Call) (slot : Bytes) : Call := { k with slot := slot }

/-- The talker unkeyed when last heard. -/
def unkey (k : Call) : Call := { k with txEndMs := if k.txEndMs = 0 then k.lastMs else k.txEndMs }

/-- The call is an emergency call. -/
def alarm (k : Call) : Call := { k with emergency := true }

end Call

/-- The key of a call in progress: its slot and target. -/
def activeKey (slot tgt : Bytes) : Bytes := slot ++ lit "|" ++ tgt

namespace StreamState

/-- The call in progress on a slot to a target. -/
def activeCall (st : StreamState) (slot tgt : Bytes) (now : ℤ) : Option Call :=
  match st.ctx.active.find? (activeKey slot tgt) with
  | none => none
  | some id => (st.fam.findCall id).filter (·.fresh now)

/-- The same call seen with and without a slot marker: the first call in progress to the target that
is slot-less where this event has a slot, or the other way round, and has no other source; with its
key. -/
def adoptable (st : StreamState) (r : Reading) (now : ℤ) : Option (Bytes × Call) :=
  st.ctx.active.entries.findSome? fun e =>
    match cutLast (ch '|') e.1 with
    | none => none
    | some (kslot, ktgt) =>
      if ktgt ≠ r.tgt ∨ (kslot ≠ [] ∧ r.slot ≠ []) then none
      else
        match st.fam.findCall e.2 with
        | none => none
        | some k =>
          if !k.fresh now || (r.src ≠ [] && k.src ≠ [] && k.src ≠ r.src) then none
          else some (e.1, k)

/-- The call a target's event belongs to, adopting a slot-less call's slot. -/
def matchTarget (st : StreamState) (r : Reading) (now : ℤ) : StreamState × Option ℕ :=
  match st.activeCall r.slot r.tgt now with
  | some k => (st, some k.id)
  | none =>
    match st.adoptable r now with
    | some (key, k) =>
      if k.slot = [] ∧ r.slot ≠ [] then
        ((st.onFam fun F => F.modifyCall k.id fun k => k.takeSlot r.slot).onCtx fun c =>
          (c.dropActive key).setActive (activeKey r.slot r.tgt) k.id, some k.id)
      else (st, some k.id)
    | none =>
      (st, ((st.freshCall r.slot now).filter fun k =>
        k.tgt = [] && (r.src = [] || k.src = [] || k.src = r.src)).map (·.id))

/-- **The call an event belongs to.**  A voice burst without ids does not turn a data transaction
into a voice call, and a new talker on the target ends the call. -/
def matchCall (L : Limits) (st : StreamState) (r : Reading) (now : ℤ) : StreamState × Option ℕ :=
  let (st, cur) := if r.tgt = [] then (st, (st.freshCall r.slot now).map (·.id))
    else st.matchTarget r now
  match cur.bind st.fam.findCall with
  | none => (st, none)
  | some k =>
    if k.data && !k.voice && r.src = [] && r.tgt = [] && r.voicey then (st, none)
    else if r.src ≠ [] && k.src ≠ [] && r.src ≠ k.src then
      (st.onFamily fun w => w.closeCall L k.id, none)
    else (st, some k.id)

/-- Feed the event's voice frame to the call's analyzer. -/
def feedQuality (on : Bool) (st : StreamState) (r : Reading) (id : ℕ) : StreamState :=
  if 0 ≤ r.ev.voiceErr ∧ on ∧ qualityAmbe2Family st.ctx.family then
    st.onFamily fun w => { w with
      quality := w.quality.insert id
        ((w.quality.getD id {}).feedFrame r.ev.voiceFrame r.ev.voiceErr) }
  else st

/-- Count a call whose ends are both known — unless another receiver's call in progress is the same
one: then it is folded into that. -/
def countOrJoin (L : Limits) (st : StreamState) (id : ℕ) (slot : Bytes) (now : ℤ) : StreamState :=
  match st.fam.findCall id with
  | none => st
  | some k =>
    if k.counted || k.src = [] || k.tgt = [] then st
    else
      let (st, cur) := match st.fam.findTwin k now with
        | some twin => (st.adoptTwin L k twin slot, twin.id)
        | none => (st, id)
      match st.fam.findCall cur with
      | none => st
      | some k => if k.counted then st else st.onFam fun F => F.countCall L cur now

/-- **Fold an event into its call.** -/
def foldEvent (L : Limits) (qualityOn : Bool) (st : StreamState) (r : Reading) (id : ℕ) (now : ℤ) :
    StreamState :=
  match st.fam.findCall id with
  | none => st
  | some k =>
    let c := st.ctx
    let st := st.onFam fun F => F.modifyCall id fun k => k.hear r c
    let st := if k.tgt = [] ∧ r.tgt ≠ [] then
        st.onCtx fun c => c.setActive (activeKey r.slot r.tgt) id
      else st
    let st := st.feedQuality qualityOn r id
    let st := st.onFam fun F => F.noteService id r.extra now
    let st := if r.enc then st.onFam fun F => F.noteEncrypted L id r.extra else st
    let st := st.onFam fun F => F.modifyCall id fun k => k.heard now
    let st := st.onCtx fun c => c.setLast r.slot id
    let st := if r.priv then st.onFam fun F => F.setPrivate L id now else st
    st.countOrJoin L id r.slot now

/-- A terminator: the talker of the slot's call unkeyed. -/
def markUnkeyed (st : StreamState) (slot : Bytes) (now : ℤ) : StreamState :=
  match st.freshCall slot now with
  | none => st
  | some k => st.onFam fun F => F.modifyCall k.id Call.unkey

/-- A line of no known kind only refines the call in progress on its slot. -/
def refine (L : Limits) (st : StreamState) (r : Reading) (now : ℤ) : StreamState :=
  match st.freshCall r.slot now with
  | none => st
  | some k =>
    let st := if r.priv then st.onFam fun F => F.setPrivate L k.id now else st
    let st := if r.emerg then st.onFam fun F => F.modifyCall k.id Call.alarm else st
    let st := if r.enc then st.onFam fun F => F.noteEncrypted L k.id r.extra else st
    st.onFam fun F => F.noteService k.id r.extra now

/-- The radio an event comes from is heard. -/
def hearRadio (L : Limits) (st : StreamState) (r : Reading) (now : ℤ) : StreamState :=
  let net := st.ctx.net
  if r.src = [] then st else st.onFam fun F => F.touchRadio L r.src net r.ev.talkerAlias now

/-- The event of a call, in progress or new. -/
def handleCall (L : Limits) (qualityOn : Bool) (st : StreamState) (sid : ℕ) (r : Reading)
    (now : ℤ) :
    StreamState :=
  match st.matchCall L r now with
  | (st, some id) => st.foldEvent L qualityOn r id now
  | (st, none) =>
    if !r.callish || (r.src = [] && r.tgt = [] && r.ev.kind ≠ lit "message") then st
    else
      let (st, id) := st.openCall L sid r.slot now
      st.foldEvent L qualityOn r id now

/-- **What an event does to the calls**: a roster nothing, a terminator marks the talker unkeyed, an
unknown line refines, and anything else belongs to a call — one in progress, or a new one. -/
def handle (L : Limits) (qualityOn : Bool) (st : StreamState) (sid : ℕ) (r : Reading) (now : ℤ) :
    StreamState :=
  if isRoster r.up then st
  else if r.ev.kind = lit "sync" ∧ has r.up (lit "| TLC") then st.markUnkeyed r.slot now
  else if r.ev.kind = lit "unknown" then st.refine L r now
  else if !r.extends' then st.hearRadio L r now
  else (st.hearRadio L r now).handleCall L qualityOn sid r now

end StreamState

namespace AssocModel

/-- **Feed one decoded event from a session.** -/
def ingest (L : Limits) (s : AssocModel) (sid : ℕ) (ev : DsdEvent) (now : ℤ) : AssocModel :=
  let s := s.record (assoclog.eventLine now sid ev)
  match s.sess.find? sid with
  | none => s
  | some c =>
    let r := Reading.ofEvent ev
    let (c, go) := c.gate r now
    let s := s.setCtx sid c
    if go then
      let s := s.identify L sid r now
      s.putStream sid (((s.stream sid).expire L now).handle L s.qualityOn sid r now)
    else s

end AssocModel

end DsdServer
