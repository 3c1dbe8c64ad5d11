import DsdServer.Assoc.Text

/-!
# Assoc/Entities — counting calls on radios, talkgroups and networks

The operations on one family.  An entity is created on demand (`ensure…`), evicting the one seen
longest ago when its table is full.  A call is counted once, when both its ends are known; what is
learned later — a key, that the call is private — is moved to the right counters then.
-/

open Bytes

namespace DsdServer

/-- Drop the entity seen longest ago (the first of them in key order). -/
def evictOldest {V : Type*} (lastMs : V → ℤ) (m : SortedMap Bytes V) : SortedMap Bytes V :=
  match m.entries with
  | [] => m
  | e :: l => m.erase (l.foldl (fun v e => if lastMs e.2 < lastMs v.2 then e else v) e).1

/-- A table with an entry under `id`: as it is, or with a new entry, for which the oldest goes when
the table is full. -/
def ensure {V : Type*} (lim : Option ℕ) (lastMs : V → ℤ) (m : SortedMap Bytes V) (id : Bytes)
    (fresh : V) : SortedMap Bytes V :=
  if m.contains id then m
  else (if reached lim m.size then evictOldest lastMs m else m).insert id fresh

/-- Move an edge count by `d`: an edge is created by a positive `d` unless the node is full, and
goes when it would fall to zero. -/
def bump (L : Limits) (m : SortedMap Bytes ℕ) (k : Bytes) (d : ℤ := 1) : SortedMap Bytes ℕ :=
  match m.find? k with
  | none => if 0 < d ∧ ¬reached L.edges m.size then m.insert k d.toNat else m
  | some v => if d < 0 ∧ v ≤ (-d).toNat then m.erase k else m.insert k (v + d).toNat

namespace Family

/-! ## Call records

Ids are given out once, so a record is looked for from the end of the list, where the calls in
progress are. -/

/-- The call with an id, the latest first. -/
def findCall (F : Family) (id : ℕ) : Option Call := F.calls.reverse.find? (·.id = id)

/-- Change the call with an id in place. -/
def modifyCall (F : Family) (id : ℕ) (g : Call → Call) : Family :=
  { F with calls := F.calls.map fun k => if k.id = id then g k else k }

/-- Drop the record of a call. -/
def forget (F : Family) (id : ℕ) : Family := { F with calls := F.calls.eraseP fun k => k.id = id }

/-- Another stream's open call that is the same call as `k`. -/
def findTwin (F : Family) (k : Call) (now : ℤ) : Option Call :=
  F.calls.reverse.find? fun o =>
    o.id ≠ k.id && o.session ≠ k.session && o.isOpen && now - o.lastMs ≤ kContinueMs &&
      o.net = k.net && o.src = k.src && o.tgt = k.tgt && o.priv = k.priv

/-! ## Entities on demand

An entity is made when it is first heard of.  A table that is full makes room by dropping the entity
that was heard of longest ago, with all its counts. -/

/-- The networks with one of that key. -/
def ensureNetwork (L : Limits) (F : Family) (key : Bytes) (now : ℤ) : Family :=
  { F with
    networks := ensure L.networks Network.lastMs F.networks key
      ({ key := key, firstMs := now, lastMs := now } : Network) }

/-- The radios with one of that id. -/
def ensureRadio (L : Limits) (F : Family) (id : Bytes) (now : ℤ) : Family :=
  { F with
    radios := ensure L.radios Radio.lastMs F.radios id
      ({ id := id, firstMs := now, lastMs := now } : Radio) }

/-- The talkgroups with one of that id. -/
def ensureTg (L : Limits) (F : Family) (id : Bytes) (now : ℤ) : Family :=
  { F with
    tgs := ensure L.tgs Talkgroup.lastMs F.tgs id
      ({ id := id, firstMs := now, lastMs := now } : Talkgroup) }

/-- Change a network, if it is there. -/
def onNetwork (F : Family) (key : Bytes) (g : Network → Network) : Family :=
  { F with networks := F.networks.modify key g }

/-- Change a radio, if it is there. -/
def onRadio (F : Family) (id : Bytes) (g : Radio → Radio) : Family :=
  { F with radios := F.radios.modify id g }

/-- Change a talkgroup, if it is there. -/
def onTg (F : Family) (id : Bytes) (g : Talkgroup → Talkgroup) : Family :=
  { F with tgs := F.tgs.modify id g }

end Family

/-! ## What an update does to one entity

The updates of a record are told apart from the table it is in, so that what they count can be said
of the record alone. -/

/-- A set of network keys with one more, unless it is empty. -/
def addNet (s : SortedSet Bytes) (net : Bytes) : SortedSet Bytes :=
  if net = [] then s else s.add net

namespace Network

/-- The network had a call more. -/
def countCall (n : Network) : Network := { n with calls := n.calls + 1 }

/-- The network was heard with a key. -/
def noteKey (L : Limits) (n : Network) (key : Bytes) : Network :=
  { n with keys := keyAdd L n.keys key }

end Network

namespace Talkgroup

/-- The talkgroup was heard with a key. -/
def noteKey (L : Limits) (t : Talkgroup) (key : Bytes) : Talkgroup :=
  { t with keys := keyAdd L t.keys key }

/-- A call went to the talkgroup. -/
def countCall (L : Limits) (t : Talkgroup) (k : Call) (now : ℤ) : Talkgroup :=
  { t with
    lastMs := max t.lastMs now
    calls := t.calls + 1
    radios := if k.src = [] then t.radios else bump L t.radios k.src
    networks := addNet t.networks k.net }

/-- A call that was counted did not go to the talkgroup. -/
def uncountCall (L : Limits) (t : Talkgroup) (k : Call) : Talkgroup :=
  { t with
    radios := bump L t.radios k.src (-1)
    calls := t.calls - 1
    keys := if k.keyNoted then bump L t.keys (encKey k.alg k.kid) (-1) else t.keys }

/-- A call to the talkgroup ended. -/
def tally (t : Talkgroup) (k : Call) : Talkgroup :=
  { t with
    emergencies := if k.emergency then t.emergencies + 1 else t.emergencies
    encrypted := if k.encrypted then t.encrypted + 1 else t.encrypted }

end Talkgroup

namespace Radio

/-- The radio was heard with a key. -/
def noteKey (L : Limits) (r : Radio) (key : Bytes) : Radio := { r with keys := keyAdd L r.keys key }

/-- A radio was heard, on a network, under an alias. -/
def touch (r : Radio) (net aka : Bytes) (now : ℤ) : Radio :=
  { r with
    lastMs := now
    networks := addNet r.networks net
    aliases :=
      if aka ≠ [] ∧ aka ∉ r.aliases ∧ r.aliases.length < kMaxAliases then r.aliases ++ [aka]
      else r.aliases }

/-- A radio reported its position. -/
def fix (r : Radio) (pos : Bytes) (now : ℤ) : Radio :=
  { r with pos := pos, posMs := now, track := trackAdd r.track now pos }

/-- A call came from the radio. -/
def countCall (r : Radio) (net : Bytes) (now : ℤ) : Radio :=
  { r with lastMs := now, calls := r.calls + 1, networks := addNet r.networks net }

/-- One call more with a peer. -/
def bumpPeer (L : Limits) (r : Radio) (peer : Bytes) : Radio :=
  { r with peers := bump L r.peers peer }

/-- Calls more or fewer to a talkgroup. -/
def bumpTg (L : Limits) (r : Radio) (tg : Bytes) (d : ℤ := 1) : Radio :=
  { r with tgs := bump L r.tgs tg d }

/-- A private call reached the radio. -/
def reach (L : Limits) (r : Radio) (peer net : Bytes) (now : ℤ) : Radio :=
  { r with lastMs := now, peers := bump L r.peers peer, networks := addNet r.networks net }

end Radio

namespace Call

/-- The call has been counted. -/
def markCounted (k : Call) : Call := { k with counted := true }
/-- Its key has been counted. -/
def markNoted (k : Call) : Call := { k with keyNoted := true }
/-- It is a private call. -/
def markPrivate (k : Call) : Call := { k with priv := true }

/-- Is the call counted with a key that is not noted yet? -/
def unnoted (k : Call) : Bool := k.counted && k.kid ≠ [] && !k.keyNoted

/-- A more specific data service. -/
def serve (k : Call) (svc : Bytes) : Call :=
  if svcRank k.svc < svcRank svc then { k with svc := svc } else k

/-- Where its source was. -/
def place (k : Call) (pos : Bytes) : Call := { k with pos := pos }

/-- An encrypted call takes the algorithm and key id a line names (the first seen). -/
def encrypt (k : Call) (x : SortedMap Bytes Bytes) : Call :=
  let k := { k with encrypted := true }
  match x.find? (lit "key_id") with
  | none => k
  | some ki =>
    if k.kid ≠ [] ∨ ki = [] then k
    else
      match x.find? (lit "alg_id") with
      | none => { k with kid := hexid ki }
      | some ai => { k with kid := hexid ki, alg := if ai = [] then k.alg else hexid ai }

end Call

namespace Family

/-- A radio is heard on a network, with an alias it may have. -/
def touchRadio (L : Limits) (F : Family) (id net aka : Bytes) (now : ℤ) : Family :=
  (F.ensureRadio L id now).onRadio id fun r => r.touch net aka now

/-- The data service a line names. -/
def noteSvc (F : Family) (id : ℕ) (x : SortedMap Bytes Bytes) : Family :=
  match x.find? (lit "svc") with
  | some s => F.modifyCall id fun k => k.serve s
  | none => F

/-- The position report a line carries, also the sending radio's last position. -/
def notePos (F : Family) (id : ℕ) (x : SortedMap Bytes Bytes) (now : ℤ) : Family :=
  match F.findCall id with
  | none => F
  | some k =>
    let pos := x.getD (lit "gps") []
    if pos = [] then F
    else (F.modifyCall id fun k => k.place pos).onRadio k.src fun r => r.fix pos now

/-- What a line says about its call. -/
def noteService (F : Family) (id : ℕ) (x : SortedMap Bytes Bytes) (now : ℤ) : Family :=
  (F.noteSvc id x).notePos id x now

/-! ## Counting

A call is counted once, as soon as source and target are known; its key when that is known as well.
A private call is counted by the two radios, any other by its talkgroup and its source. -/

/-- A key on the entities of a call: its network, talkgroup and talker. -/
def noteKey (L : Limits) (F : Family) (k : Call) : Family :=
  let key := encKey k.alg k.kid
  let F := F.onNetwork k.net fun n => n.noteKey L key
  let F := if k.priv then F else F.onTg k.tgt fun t => t.noteKey L key
  F.onRadio k.src fun r => r.noteKey L key

/-- Once a call is counted: the key it used. -/
def noteEncCounts (L : Limits) (F : Family) (id : ℕ) : Family :=
  match F.findCall id with
  | none => F
  | some k => if k.unnoted then (F.modifyCall id Call.markNoted).noteKey L k else F

/-- The talker's end of a call: heard, one call more, on the call's network. -/
def countSource (L : Limits) (F : Family) (k : Call) (now : ℤ) : Family :=
  if k.src = [] then F
  else (F.ensureRadio L k.src now).onRadio k.src fun r => r.countCall k.net now

/-- The far end of a private call: an edge each way. -/
def linkPeers (L : Limits) (F : Family) (k : Call) (now : ℤ) : Family :=
  let F := F.onRadio k.src fun r => r.bumpPeer L k.tgt
  (F.ensureRadio L k.tgt now).onRadio k.tgt fun p => p.reach L k.src k.net now

/-- The far end of a group call: the talkgroup's counters, and an edge each way. -/
def countTarget (L : Limits) (F : Family) (k : Call) (now : ℤ) : Family :=
  let F := if k.src = [] then F else F.onRadio k.src fun r => r.bumpTg L k.tgt
  (F.ensureTg L k.tgt now).onTg k.tgt fun t => t.countCall L k now

/-- Both ends of a call.  A call without a source counts for its target only. -/
def countEnds (L : Limits) (F : Family) (k : Call) (now : ℤ) : Family :=
  let F := F.countSource L k now
  if k.priv then (if k.src = [] then F else F.linkPeers L k now) else F.countTarget L k now

/-- **Both ends of the call are known: record the association once per call.** -/
def countCall (L : Limits) (F : Family) (id : ℕ) (now : ℤ) : Family :=
  match F.findCall id with
  | none => F
  | some k =>
    (((F.modifyCall id Call.markCounted).countEnds L k now).onNetwork k.net
      Network.countCall).noteEncCounts L id

/-- An encrypted call: flag it, and take the key it names. -/
def noteEncrypted (L : Limits) (F : Family) (id : ℕ) (x : SortedMap Bytes Bytes) : Family :=
  (F.modifyCall id fun k => k.encrypt x).noteEncCounts L id

/-- Take a counted group call back from its talkgroup, which goes when nothing is left on it. -/
def uncountTarget (L : Limits) (F : Family) (k : Call) : Family :=
  let F := (F.onRadio k.src fun r => r.bumpTg L k.tgt (-1)).onTg k.tgt fun t => t.uncountCall L k
  match F.tgs.find? k.tgt with
  | some t => if t.calls = 0 ∧ t.radios.isEmpty then { F with tgs := F.tgs.erase k.tgt } else F
  | none => F

/-- **A call turned out to be unit-to-unit**: if it was counted as a group call, its association
moves from the talkgroup to the radio-radio edge. -/
def setPrivate (L : Limits) (F : Family) (id : ℕ) (now : ℤ) : Family :=
  match F.findCall id with
  | none => F
  | some k =>
    if k.priv then F
    else
      let F := F.modifyCall id Call.markPrivate
      if k.counted then (F.uncountTarget L k).linkPeers L k now else F

/-- A voice call whose talker was never decoded still went to its target: it is counted when it
ends. -/
def countUnsourced (L : Limits) (F : Family) (id : ℕ) : Family :=
  match F.findCall id with
  | none => F
  | some k =>
    if !k.counted && k.src = [] && k.tgt ≠ [] && k.voice && !k.data then F.countCall L id k.lastMs
    else F

/-- A counted group call is tallied on its talkgroup when it ends. -/
def tallyClosed (F : Family) (id : ℕ) : Family :=
  match F.findCall id with
  | none => F
  | some k =>
    if !k.counted || k.priv then F else F.onTg k.tgt fun t => t.tally k

end Family

/-! ## Merging networks

A network that turns out to be another gives up its counts and lists to it, and all records that
named the one name the other. -/

/-- Fold network `a` into `z`. -/
def Network.absorb (L : Limits) (z a : Network) : Network :=
  { z with
    sites := z.sites.addAll a.sites.keys
    freqs := a.freqs.keys.foldl (fun s f => if s.size < kMaxFreqs then s.add f else s) z.freqs
    ids := a.ids.entries.foldl (fun m kv => if m.contains kv.1 then m else m.insert kv.1 kv.2) z.ids
    sessions := z.sessions.addAll a.sessions.keys
    calls := z.calls + a.calls
    keys := a.keys.entries.foldl (fun m kv => keyAdd L m kv.1 kv.2) z.keys
    firstMs := if a.firstMs ≠ 0 ∧ (z.firstMs = 0 ∨ a.firstMs < z.firstMs) then a.firstMs
      else z.firstMs
    lastMs := max z.lastMs a.lastMs }

/-- One key of a set under another name. -/
def relabel (frm dst : Bytes) (s : SortedSet Bytes) : SortedSet Bytes :=
  if frm ∈ s then SortedSet.add (SortedMap.erase s frm) dst else s

/-- **Fold network `frm` into `dst`** (when both are there), relabelling what refers to it. -/
def Family.mergeNetwork (L : Limits) (F : Family) (frm dst : Bytes) : Family :=
  match F.networks.find? frm, F.networks.find? dst with
  | some a, some z =>
    { networks := (F.networks.insert dst (z.absorb L a)).erase frm
      tgs := F.tgs.mapVal fun _ t => { t with networks := relabel frm dst t.networks }
      radios := F.radios.mapVal fun _ r => { r with networks := relabel frm dst r.networks }
      calls := F.calls.map fun k => if k.net = frm then { k with net := dst } else k }
  | _, _ => F

end DsdServer
