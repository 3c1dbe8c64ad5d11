import DsdServer.Assoc.Entities

/-!
# Assoc/Identity — which network a stream is on

Identity tokens arrive on other lines than calls, so a stream keeps the ones it has seen
(`absorbIdentity`) and its calls go to the network they name (`networkId`).

Some tokens name a network for sure, and others are short codes that many networks use.  The first
kind is taken at once and the second when it was seen twice; a network is named by the best that is
known.
-/

open Bytes

namespace DsdServer

/-! ## Identity tokens

Which tokens tell one network from another is different for every protocol.  The short codes that
are printed on every burst are easily misread, so they count for less. -/

/-- Tokens whose change means another network. -/
def isAnchor (fam k : Bytes) : Bool :=
  if fam = lit "p25" then k ∈ [lit "wacn", lit "system_id", lit "nac"]
  else if fam = lit "dmr" then k ∈ [lit "network_id", lit "cc"]
  else if fam = lit "nxdn" then k ∈ [lit "system_code", lit "ran"]
  else if fam = lit "tetra" then k ∈ [lit "mcc", lit "mnc", lit "cc"]
  else if fam = lit "dpmr" then k = lit "cc"
  else if fam = lit "dstar" then k = lit "rpt1"
  else if fam = lit "ysf" then k = lit "downlink"
  else if fam = lit "edacs" then k = lit "system_id"
  else false

/-- Short codes printed on every burst. -/
def isWeakAnchor (k : Bytes) : Bool := k ∈ [lit "cc", lit "nac", lit "ran"]

/-- Tokens that only locate a site. -/
def isSiteKey (fam k : Bytes) : Bool :=
  if fam = lit "p25" then k ∈ [lit "rfss", lit "site_id"]
  else if fam = lit "dmr" then k = lit "site_id"
  else if fam = lit "nxdn" then k ∈ [lit "site_code", lit "location_id"]
  else if fam = lit "tetra" then k = lit "la"
  else false

/-- The value of a token, empty when unseen. -/
def token (ids : SortedMap Bytes Bytes) (k : String) : Bytes := ids.getD (lit k) []

/-- How a site is written, of the tokens that locate one. -/
def siteLabel (fam : Bytes) (ids : SortedMap Bytes Bytes) : Bytes :=
  let g := token ids
  if fam = lit "p25" then
    let r := g "rfss"
    let s := g "site_id"
    if r ≠ [] ∧ s ≠ [] then lit "RFSS " ++ r ++ dot ++ lit "Site " ++ s
    else if s ≠ [] then lit "Site " ++ s else []
  else if fam = lit "dmr" then
    if g "site_id" = [] then [] else lit "Site " ++ g "site_id"
  else if fam = lit "nxdn" then
    let l := g "location_id"
    if g "site_code" ≠ [] then
      lit "Site " ++ g "site_code" ++ (if l = [] then [] else dot ++ lit "Loc " ++ l)
    else if l = [] then [] else lit "Loc " ++ l
  else if fam = lit "tetra" then
    if g "la" = [] then [] else lit "LA " ++ g "la"
  else []

/-- The line is about a neighbour site. -/
def namesNeighbour (up : Bytes) : Bool := has up (lit "ADJ") || has up (lit "NEIGHB")

/-- The identity tokens an event carries for a family. -/
def tokensOf (fam : Bytes) (r : Reading) : SortedMap Bytes Bytes :=
  let got : SortedMap Bytes Bytes := ∅
  let got := if r.ev.colorCode ≠ [] ∧ fam ∈ [lit "dmr", lit "dpmr", lit "tetra"]
    then got.insert (lit "cc") r.ev.colorCode else got
  let got := if r.ev.nac ≠ [] ∧ fam = lit "p25" then got.insert (lit "nac") r.ev.nac else got
  let got := if r.ev.ran ≠ [] ∧ fam = lit "nxdn" then got.insert (lit "ran") r.ev.ran else got
  r.extra.entries.foldl (fun got kv =>
    if kv.2 = [] then got
    else if fam = lit "dstar" ∧ kv.1 = lit "rpt1" ∧ upper kv.2 = lit "DIRECT" then got
    else if isAnchor fam kv.1 || isSiteKey fam kv.1 ||
      (fam = lit "dmr" && kv.1 = lit "network_type") then got.insert kv.1 kv.2
    else got) got

/-! ## Absorbing them

A line may be about a neighbouring site.  Its tokens are then not taken for the stream's own, but
noted as a site of its network. -/

/-- The values not yet believed, after one more sighting; and whether this one is believed. -/
def sight (ids : SortedMap Bytes Bytes) (pending : SortedMap Bytes (Bytes × ℕ)) (k v : Bytes) :
    SortedMap Bytes (Bytes × ℕ) × Bool :=
  if ids.find? k = some v then (pending.erase k, true)
  else
    let p := pending.getD k ([], 0)
    let n := if p.1 = v then p.2 + 1 else 1
    if 2 ≤ n then (pending.erase k, true) else (pending.insert k (v, n), false)

/-- Weak anchors are believed only once seen twice in a row: the context with what is pending, and
the tokens that are believed. -/
def believe (c : Ctx) (got : SortedMap Bytes Bytes) : Ctx × SortedMap Bytes Bytes :=
  got.entries.foldl (fun (acc : Ctx × SortedMap Bytes Bytes) kv =>
    if isWeakAnchor kv.1 then
      let p := sight acc.1.ids acc.1.pending kv.1 kv.2
      ({ acc.1 with pending := p.1 }, if p.2 then acc.2 else acc.2.erase kv.1)
    else acc) (c, got)

/-- A different value for a network anchor: the stream is on another network, and its identity
starts over. -/
def Ctx.startOver (c : Ctx) (got : SortedMap Bytes Bytes) : Ctx :=
  if got.entries.any fun kv =>
      isAnchor c.family kv.1 && (c.ids.find? kv.1).any fun v => v ≠ kv.2 then
    { c with ids := ∅, strong := false, net := [], site := [] }
  else c

/-- Take the believed tokens; true when the identity changed. -/
def Ctx.take (c : Ctx) (got : SortedMap Bytes Bytes) : Ctx × Bool :=
  let changed := got.entries.any fun kv => c.ids.find? kv.1 ≠ some kv.2
  let ids := got.entries.foldl (fun m kv => m.insert kv.1 kv.2) c.ids
  if changed then ({ c with ids := ids, site := siteLabel c.family ids }, true) else (c, false)

/-- What a line does to a stream's identity. -/
structure Absorbed where
  ctx : Ctx
  /-- the stream's identity changed -/
  changed : Bool := false
  /-- a neighbour's site, to record on the stream's network -/
  neighbour : Bytes := []

/-- A sync or broadcast line tells whether the lines that follow are about a neighbour site. -/
def Ctx.lookAround (c : Ctx) (r : Reading) : Ctx :=
  if r.ev.kind = lit "sync" ∨ has r.up (lit "BROADCAST")
    then { c with adjacent := namesNeighbour r.up } else c

/-- The identity tokens of a line: a neighbour's only locate it. -/
def absorbTokens (c : Ctx) (r : Reading) : Absorbed :=
  let got := tokensOf c.family r
  if got.isEmpty then { ctx := c }
  else if c.adjacent || namesNeighbour r.up then
    { ctx := c, neighbour := siteLabel c.family got }
  else
    let b := believe c got
    if b.2.isEmpty then { ctx := b.1 }
    else
      let t := (b.1.startOver b.2).take b.2
      { ctx := t.1, changed := t.2 }

/-- **Read the identity tokens of a line.** -/
def absorbIdentity (c : Ctx) (r : Reading) : Absorbed := absorbTokens (c.lookAround r) r

/-! ## The network of a stream

A network has a key made of its strongest tokens.  A stream that has none is put on a network of its
own channel, which is folded into the right one as soon as it is known. -/

/-- "434.4250 MHz": at least four decimals, more only when the channel needs them. -/
def freqText (hz : ℤ) : Bytes :=
  if hz ≤ 0 then []
  else
    let frac := dec (hz.toNat % 1000000)
    let frac := List.replicate (6 - frac.length) (ch '0') ++ frac
    let tail := ((frac.drop 4).reverse.dropWhile (· == ch '0')).reverse
    dec (hz.toNat / 1000000) ++ lit "." ++ frac.take 4 ++ tail ++ lit " MHz"

/-- A network as its tokens name it. -/
structure NetId where
  key : Bytes := []
  label : Bytes := []
  conf : Bytes := []
  weakKey : Bytes := []
  weakVal : Bytes := []

/-- The network the tokens name. -/
def derive (fam : Bytes) (ids : SortedMap Bytes Bytes) : NetId :=
  let g := token ids
  let strong (key label : Bytes) : NetId := ⟨key, label, lit "strong", [], []⟩
  let weak (key label : String) (k : String) : NetId :=
    if g k = [] then {} else ⟨lit key ++ g k, lit label ++ g k, lit "weak", lit k, g k⟩
  if fam = lit "p25" then
    if g "wacn" ≠ [] ∧ g "system_id" ≠ [] then
      strong (lit "wacn:" ++ g "wacn" ++ lit "/sys:" ++ g "system_id")
        (lit "WACN " ++ g "wacn" ++ dot ++ lit "SYS " ++ g "system_id")
    else if g "system_id" ≠ [] then
      strong (lit "sys:" ++ g "system_id") (lit "SYS " ++ g "system_id")
    else weak "nac:" "NAC " "nac"
  else if fam = lit "dmr" then
    if g "network_id" ≠ [] then
      strong (lit "net:" ++ g "network_id") (lit "Network " ++ g "network_id" ++
        (if g "network_type" = [] then [] else lit " (" ++ g "network_type" ++ lit ")"))
    else weak "cc:" "Color Code " "cc"
  else if fam = lit "nxdn" then
    if g "system_code" ≠ [] then
      strong (lit "sys:" ++ g "system_code") (lit "System " ++ g "system_code")
    else weak "ran:" "RAN " "ran"
  else if fam = lit "tetra" then
    if g "mcc" ≠ [] ∧ g "mnc" ≠ [] then
      strong (lit "mcc:" ++ g "mcc" ++ lit "/mnc:" ++ g "mnc")
        (lit "MCC " ++ g "mcc" ++ dot ++ lit "MNC " ++ g "mnc")
    else weak "cc:" "Colour Code " "cc"
  else if fam = lit "dpmr" then weak "cc:" "Channel Code " "cc"
  else if fam = lit "dstar" then weak "rpt:" "Repeater " "rpt1"
  else if fam = lit "ysf" then weak "dl:" "Downlink " "downlink"
  else if fam = lit "edacs" then
    if g "system_id" ≠ [] then
      strong (lit "sys:" ++ g "system_id") (lit "System " ++ g "system_id")
    else {}
  else {}

/-- The strong networks of a family carrying a token value. -/
def strongWith (F : Family) (k v : Bytes) : List Bytes :=
  (F.networks.entries.filter fun e =>
    e.2.confidence = lit "strong" && e.2.ids.find? k = some v).map Prod.fst

/-- **The network a stream is on**: what its tokens name, a short code scoped to the channel or the
stream — a P25 NAC resolved to the one system carrying it — and the channel or the stream itself
when nothing is decoded. -/
def networkId (c : Ctx) (sid : ℕ) (F : Family) : NetId :=
  let id := derive c.family c.ids
  if id.key = [] then
    if c.freq ≠ 0 then
      { id with
        key := lit "ch@" ++ decInt c.freq
        label := lit "Unidentified" ++ dot ++ freqText c.freq
        conf := lit "channel" }
    else
      { id with
        key := lit "unknown:s" ++ dec sid
        label := lit "Unidentified" ++ dot ++ lit "stream " ++ dec sid
        conf := lit "none" }
  else if id.conf = lit "weak" then
    let matching := if c.family = lit "p25" then strongWith F id.weakKey id.weakVal else []
    match matching with
    | [m] => { id with key := m }
    | _ =>
      if c.freq ≠ 0 then
        { id with
          key := id.key ++ lit "@" ++ decInt c.freq
          label := id.label ++ dot ++ freqText c.freq
          conf := lit "channel" }
      else
        { id with
          key := id.key ++ lit "@s" ++ dec sid
          label := id.label ++ dot ++ lit "stream " ++ dec sid }
  else id

/-- Is the bucket `prev` a stream filled before folded into the network it now belongs to?  When
only this stream fed it, when the new identity refines it — every anchor id of it is there,
unchanged — or when it is the unidentified bucket of the stream's channel. -/
def folds (c : Ctx) (sid : ℕ) (prev : Bytes) (pn : Network) : Bool :=
  let mine := pn.sessions.isEmpty || pn.sessions.keys = [sid]
  let anchors := pn.ids.entries.filter fun kv => isAnchor c.family kv.1
  let refines := !anchors.isEmpty && anchors.all fun kv => c.ids.find? kv.1 = some kv.2
  let channelUnknown := c.freq ≠ 0 && prev = lit "ch@" ++ decInt c.freq
  mine || refines || channelUnknown

/-- The stream's network takes its identity: the label and confidence when they are better, and the
tokens. -/
def Network.identify (n : Network) (id : NetId) (strong : Bool) (ids : SortedMap Bytes Bytes) :
    Network :=
  let better := n.label = [] || (strong && n.confidence ≠ lit "strong")
  { n with
    label := if better then id.label else n.label
    confidence := if better then id.conf else n.confidence
    ids := ids.entries.foldl (fun m kv => m.insert kv.1 kv.2) n.ids }

/-- Do a stream's tokens name a strong identity? -/
def Ctx.strongly (c : Ctx) : Bool := (derive c.family c.ids).conf = lit "strong"

/-- A stream is on a network. -/
def Ctx.settle (c : Ctx) (key : Bytes) : Ctx := { c with net := key, strong := c.strongly }

namespace Family

/-- The network a stream belongs to, created on demand, with the stream's identity. -/
def place (L : Limits) (F : Family) (id : NetId) (c : Ctx) (now : ℤ) : Family :=
  (F.ensureNetwork L id.key now).onNetwork id.key fun n => n.identify id c.strongly c.ids

/-- Is the bucket a stream filled before folded into its network? -/
def foldsAway (F : Family) (c : Ctx) (sid : ℕ) (key : Bytes) : Bool :=
  (F.networks.find? c.net).any fun pn => c.net ≠ [] && c.net ≠ key && folds c sid c.net pn

end Family

/-! ## Dropping networks

A network that identified itself by nothing that another does not have as well is covered by that
one.  Radios and talkgroups known through it alone go with it. -/

/-- Is everything this network identified itself by on another, strong network?  (A short code only
resolves to its system on P25.) -/
def covered (F : Family) (fam key : Bytes) (n : Network) : Bool :=
  let mine := n.ids.entries.filter fun id => isAnchor fam id.1
  !(mine.isEmpty || (n.confidence ≠ lit "strong" && fam ≠ lit "p25")) &&
    F.networks.entries.any fun o =>
      o.1 ≠ key && o.2.confidence = lit "strong" &&
        mine.all fun id => o.2.ids.find? id.1 = some id.2

namespace Family

/-- Drop a network, and the radios and talkgroups known only through it. -/
def dropNetwork (F : Family) (key : Bytes) : Family :=
  { F with
    networks := F.networks.erase key
    radios := (F.radios.mapVal fun _ r => { r with networks := r.networks.erase key }).filter
      fun _ r => !(r.networks.isEmpty && r.calls = 0 && r.tgs.isEmpty && r.peers.isEmpty)
    tgs := (F.tgs.mapVal fun _ t => { t with networks := t.networks.erase key }).filter
      fun _ t => !(t.networks.isEmpty && t.calls = 0 && t.radios.isEmpty) }

/-- Is nothing left? -/
def isBlank (F : Family) : Bool :=
  F.networks.isEmpty && F.radios.isEmpty && F.tgs.isEmpty && F.calls.isEmpty

end Family

end DsdServer
