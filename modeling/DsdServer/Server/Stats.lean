import DsdServer.Assoc.Audio
import DsdServer.Data.Total
import DsdServer.Json.Value

/-!
# Server/Stats — the registry of client sessions

What the status page shows: the connections, the protocols asked for and run, the sessions that
ended and the frames sent last.  Decode time is banked when a pipeline stops and added up live while
it runs.
-/

open Bytes

namespace DsdServer

/-! ## Rows

A row is what the page shows of a session.  Beside the rows there are figures for each protocol,
which outlive the sessions. -/

/-- A moment: by the wall clock, for display, and by the steady one, for durations. -/
structure Moment where
  wall : ℤ
  mono : ℤ
  deriving DecidableEq

/-- One row in the live-session table. -/
structure SessionRow where
  id : ℕ := 0
  remote : Bytes := []
  protocol : Bytes := lit "-"
  chain : Bytes := []
  /-- a decode pipeline is running now -/
  active : Bool := false
  connected : ℤ := 0
  connectedMono : ℤ := 0
  protocolsUsed : List Bytes := []
  protocolsRequested : List Bytes := []
  activeSince : ℤ := 0
  lastDataMono : ℤ := 0
  gotData : Bool := false
  /-- 0 = not known -/
  freqHz : Double := .finite 0
  deriving DecidableEq

/-- Run-wide usage of one protocol. -/
structure ProtocolUsage where
  protocol : Bytes := []
  chain : Bytes := []
  requests : ℕ := 0
  starts : ℕ := 0
  sessions : ℕ := 0
  activeNow : ℕ := 0
  /-- pipeline run time, in ticks of the steady clock -/
  decode : ℤ := 0
  firstRequested : ℤ := 0
  lastRequested : ℤ := 0
  deriving DecidableEq

/-- A client that has disconnected. -/
structure FinishedRow where
  id : ℕ := 0
  remote : Bytes := []
  protocol : Bytes := lit "-"
  chain : Bytes := []
  connected : ℤ := 0
  ended : ℤ := 0
  duration : ℤ := 0
  protocolsUsed : List Bytes := []
  protocolsRequested : List Bytes := []
  freqHz : Double := .finite 0
  deriving DecidableEq

/-- One buffered outbound frame. -/
structure LogEntry where
  sessionId : ℕ := 0
  ts : ℤ := 0
  text : Bytes := []
  freqHz : Double := .finite 0
  deriving DecidableEq

structure ServerStats where
  usage : SortedMap Bytes ProtocolUsage := ∅
  sessions : SortedMap ℕ SessionRow := ∅
  /-- oldest first -/
  history : List FinishedRow := []
  log : List LogEntry := []
  iqLogging : Bool := false
  /-- sessions whose capture the switch reaches -/
  iqControls : SortedSet ℕ := ∅
  /-- sessions that restart for new keys -/
  keyReloads : SortedSet ℕ := ∅
  assoc : AssocModel := {}
  historyLimit : ℕ := 50
  logLimit : ℕ := 300
  lastId : ℕ := 0
  totalSessions : ℕ := 0
  bytesIn : ℕ := 0
  bytesOut : ℕ := 0
  started : Moment := ⟨0, 0⟩
  deriving DecidableEq

namespace ServerStats

variable (s : ServerStats)

/-- A list with `a`, unless it is there. -/
def noted (l : List Bytes) (a : Bytes) : List Bytes := if a ∈ l then l else l ++ [a]

/-- The row of a session, changed, if there is one. -/
def onRow (id : ℕ) (g : SessionRow → SessionRow) : ServerStats :=
  { s with sessions := s.sessions.modify id g }

/-- A row, in place of the one that was there. -/
def putRow (id : ℕ) (row : SessionRow) : ServerStats :=
  { s with sessions := s.sessions.insert id row }

/-- A protocol's usage, changed; a blank one if there is none. -/
def onUsage (p : Bytes) (g : ProtocolUsage → ProtocolUsage) : ServerStats :=
  { s with usage := s.usage.insert p (g (s.usage.getD p {})) }

/-! ## The log -/

/-- The longest frame that is logged whole. -/
def kMaxLine : ℕ := 2048

/-- An oversized frame is cut, and an ellipsis says so. -/
def logText (text : Bytes) : Bytes :=
  if kMaxLine < text.length then text.take kMaxLine ++ [0xE2, 0x80, 0xA6] else text

/-- A frame as it is logged, with the frequency of its session. -/
def logEntry (t : Moment) (id : ℕ) (text : Bytes) : LogEntry where
  sessionId := id
  ts := t.wall
  text := logText text
  freqHz := match s.sessions.find? id with
    | none => .finite 0
    | some row => row.freqHz

/-- **Record an outbound frame.** -/
def addLog (t : Moment) (id : ℕ) (text : Bytes) : ServerStats :=
  if s.logLimit = 0 then s
  else { s with log := Recent.trim s.logLimit (s.log ++ [s.logEntry t id text]) }

def clearLog : ServerStats := { s with log := [] }

/-- The buffered log, newest first. -/
def logSnapshot : List LogEntry := s.log.reverse

/-! ## Switches -/

/-- A session wants to be told of the capture switch. -/
def registerIqControl (id : ℕ) : ServerStats := { s with iqControls := s.iqControls.add id }

def unregisterIqControl (id : ℕ) : ServerStats :=
  { s with iqControls := SortedMap.erase s.iqControls id }

/-- A session wants to be told of new keys. -/
def registerKeyReload (id : ℕ) : ServerStats := { s with keyReloads := s.keyReloads.add id }

def unregisterKeyReload (id : ℕ) : ServerStats :=
  { s with keyReloads := SortedMap.erase s.keyReloads id }

/-- Flip the switch; the sessions told. -/
def setIqLogging (on : Bool) : ServerStats × List ℕ :=
  ({ s with iqLogging := on }, s.iqControls.keys)

/-! ## Sessions and their pipelines

The time of a pipeline is banked with its protocol when the pipeline ends, or when it is turned to
another protocol.  While it runs only its beginning is known. -/

/-- **A client connected.** -/
def addSession (t : Moment) (remote : Bytes) : ServerStats × ℕ :=
  let id := s.lastId + 1
  let row : SessionRow :=
    { id := id, remote := remote, connected := t.wall, connectedMono := t.mono,
      lastDataMono := t.mono }
  ({ s with
    lastId := id
    sessions := s.sessions.insert id row
    totalSessions := s.totalSessions + 1 }, id)

/-- A decoder event came across. -/
def noteData (t : Moment) (id : ℕ) : ServerStats :=
  s.onRow id fun row => { row with lastDataMono := t.mono, gotData := true }

/-- Bytes that came in; the count wraps. -/
def addBytesIn (n : ℕ) : ServerStats := { s with bytesIn := (s.bytesIn + n) % 2 ^ 64 }

/-- Bytes that went out; the count wraps. -/
def addBytesOut (n : ℕ) : ServerStats := { s with bytesOut := (s.bytesOut + n) % 2 ^ 64 }

/-- A protocol is asked for. -/
def request (t : Moment) (protocol chain : Bytes) (u : ProtocolUsage) : ProtocolUsage :=
  { u with
    protocol := if u.requests = 0 then protocol else u.protocol
    firstRequested := if u.requests = 0 then t.wall else u.firstRequested
    requests := u.requests + 1
    chain := chain
    lastRequested := t.wall }

/-- **A client asked for a protocol.** -/
def noteRequest (t : Moment) (id : ℕ) (protocol chain : Bytes) : ServerStats :=
  if protocol = [] then s
  else
    (s.onRow id fun row =>
      { row with protocolsRequested := noted row.protocolsRequested protocol }).onUsage
      protocol (request t protocol chain)

/-- A pipeline's run is over. -/
def bank (t : Moment) (row : SessionRow) (u : ProtocolUsage) : ProtocolUsage :=
  { u with
    protocol := if u.protocol = [] then row.protocol else u.protocol
    decode := u.decode + (t.mono - row.activeSince) }

/-- **Bank a running pipeline's time.** -/
def closeActive (t : Moment) (row : SessionRow) : ServerStats := s.onUsage row.protocol (bank t row)

/-- The row of a session whose pipeline comes up, or goes down. -/
def turned (row : SessionRow) (protocol chain : Bytes) (active : Bool) : SessionRow :=
  { row with
    protocol := if protocol = [] then row.protocol else protocol
    chain := chain
    active := active }

/-- Does a row say which protocol it is? -/
def named (row : SessionRow) : Bool := row.protocol ≠ [] && row.protocol ≠ lit "-"

/-- A pipeline came up, for a session that had not run the protocol or had. -/
def comeUp (row : SessionRow) (chain : Bytes) (u : ProtocolUsage) : ProtocolUsage :=
  { u with
    protocol := if u.protocol = [] then row.protocol else u.protocol
    chain := if u.chain = [] then chain else u.chain
    starts := u.starts + 1
    sessions := if row.protocol ∈ row.protocolsUsed then u.sessions else u.sessions + 1 }

/-- **A pipeline started**, or stopped. -/
def setProtocol (t : Moment) (id : ℕ) (protocol chain : Bytes) (active : Bool) : ServerStats :=
  match s.sessions.find? id with
  | none => s
  | some old =>
    -- a restart without a stop banks the old run
    let s := if old.active then s.closeActive t old else s
    let row := turned old protocol chain active
    if active && named row then
      (s.onUsage row.protocol (comeUp row chain)).putRow id
        { row with protocolsUsed := noted row.protocolsUsed row.protocol, activeSince := t.mono }
    else s.putRow id row

/-- A session is tuned; a frequency that is not positive is none. -/
def setFreq (id : ℕ) (hz : Double) : ServerStats :=
  s.onRow id fun row => { row with freqHz := if hz.isPos then hz else .finite 0 }

/-- A pipeline runs, or no longer; the time of one that ends is banked. -/
def setPipelineActive (t : Moment) (id : ℕ) (active : Bool) : ServerStats :=
  match s.sessions.find? id with
  | none => s
  | some row =>
    let s := if row.active && !active then s.closeActive t row else s
    s.onRow id fun row => { row with active := active }

/-- A row for the history. -/
def finished (t : Moment) (row : SessionRow) : FinishedRow where
  id := row.id
  remote := row.remote
  protocol := row.protocol
  chain := row.chain
  connected := row.connected
  ended := t.wall
  duration := t.mono - row.connectedMono
  protocolsUsed := row.protocolsUsed
  protocolsRequested := row.protocolsRequested
  freqHz := row.freqHz

/-- **A client disconnected.** -/
def removeSession (t : Moment) (id : ℕ) : ServerStats :=
  let s := { s with assoc := s.assoc.step (.remove id t.wall) }
  match s.sessions.find? id with
  | none => s
  | some row =>
    let s := if row.active then s.closeActive t row else s
    { s with
      iqControls := SortedMap.erase s.iqControls id
      keyReloads := SortedMap.erase s.keyReloads id
      history := Recent.trim s.historyLimit (s.history ++ [finished t row])
      sessions := s.sessions.erase id }

/-! ## What the status page is given

The figures of a protocol are those banked, and those of the pipelines that run now, up to the
moment of the snapshot. -/

/-- What the status page shows. -/
structure Snapshot where
  totalSessions : ℕ
  currentSessions : ℕ
  activePipelines : ℕ
  uptime : ℤ
  bytesIn : ℕ
  bytesOut : ℕ
  iqLogging : Bool
  started : ℤ
  /-- by id -/
  rows : List SessionRow
  byProtocol : SortedMap Bytes ℕ
  /-- newest first -/
  history : List FinishedRow
  logLines : ℕ
  /-- most recently requested first -/
  protocols : List ProtocolUsage
  deriving DecidableEq

/-- A running pipeline is added to its protocol's usage. -/
def addRunning (now : ℤ) (usage : SortedMap Bytes ProtocolUsage) (r : SessionRow) :
    SortedMap Bytes ProtocolUsage :=
  if r.active then
    let u := usage.getD r.protocol {}
    usage.insert r.protocol
      { u with
        protocol := if u.protocol = [] then r.protocol else u.protocol
        activeNow := u.activeNow + 1
        decode := u.decode + (now - r.activeSince) }
  else usage

/-- The rows, by session. -/
def rows : List SessionRow := s.sessions.entries.map Prod.snd

/-- The usage of every protocol, with the pipelines that run. -/
def usageNow (now : ℤ) : SortedMap Bytes ProtocolUsage := s.rows.foldl (addRunning now) s.usage

/-- **What the status page shows now.** -/
def snapshot (now : ℤ) : Snapshot where
  totalSessions := s.totalSessions
  currentSessions := s.sessions.size
  activePipelines := s.rows.countP (·.active)
  uptime := now - s.started.mono
  bytesIn := s.bytesIn
  bytesOut := s.bytesOut
  iqLogging := s.iqLogging
  started := s.started.wall
  rows := s.rows
  byProtocol := (s.rows.filter (·.active)).foldl (fun m r =>
    let p := if r.protocol = [] then lit "-" else r.protocol
    m.insert p (m.count p + 1)) ∅
  history := s.history.reverse
  logLines := s.log.length
  protocols := ((s.usageNow now).entries.map Prod.snd).mergeSort fun a b => b.lastRequested ≤
    a.lastRequested

/-! ## Runs

The calls come from many sessions, but each is made under the registry's lock.  So a run is a list
of reports, each at its moment. -/

/-- **What is reported to the registry.** -/
inductive Report
  | log (id : ℕ) (text : Bytes)
  | clearLog
  | iqControl (id : ℕ) (on : Bool)
  | keyReload (id : ℕ) (on : Bool)
  | iqLogging (on : Bool)
  | connect (remote : Bytes)
  | data (id : ℕ)
  | bytesIn (n : ℕ)
  | bytesOut (n : ℕ)
  | request (id : ℕ) (protocol chain : Bytes)
  | protocol (id : ℕ) (protocol chain : Bytes) (active : Bool)
  | freq (id : ℕ) (hz : Double)
  | pipeline (id : ℕ) (active : Bool)
  | disconnect (id : ℕ)
  /-- the explorer has its own lock -/
  | assoc (op : Op)

/-- **One report** at a moment. -/
def step (t : Moment) : Report → ServerStats
  | .log id text => s.addLog t id text
  | .clearLog => s.clearLog
  | .iqControl id on => if on then s.registerIqControl id else s.unregisterIqControl id
  | .keyReload id on => if on then s.registerKeyReload id else s.unregisterKeyReload id
  | .iqLogging on => (s.setIqLogging on).1
  | .connect remote => (s.addSession t remote).1
  | .data id => s.noteData t id
  | .bytesIn n => s.addBytesIn n
  | .bytesOut n => s.addBytesOut n
  | .request id protocol chain => s.noteRequest t id protocol chain
  | .protocol id protocol chain active => s.setProtocol t id protocol chain active
  | .freq id hz => s.setFreq id hz
  | .pipeline id active => s.setPipelineActive t id active
  | .disconnect id => s.removeSession t id
  | .assoc op => { s with assoc := s.assoc.step op }

def run (l : List (Moment × Report)) : ServerStats := l.foldl (fun s tr => s.step tr.1 tr.2) s

end ServerStats

end DsdServer
