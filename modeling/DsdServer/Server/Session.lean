import DsdServer.Assoc.Audio
import DsdServer.Json.Flat
import DsdServer.Server.Hints

/-!
# Server/Session — client sessions and their pipelines

A session runs at most one decode pipeline: the FM discriminator with the DSD decoder, TETRA, or
paging.  A start takes, in this order, a stream of the explorer, an audio port, a file with the keys
for the decoder, and the decoder itself, and may fail on the way; a stop gives back what the
pipeline that runs holds.  A restart starts again with the parameters of the last start that
succeeded, on the same port.  What the outside world answers during a start is its `Launch`.
-/

open Bytes

namespace DsdServer

/-! ## Frequencies -/

namespace Double

/-- The sum of two numbers, rounded. -/
def add : Double → Double → Double
  | .finite a, .finite b => ofRat (a + b)
  | .nan, _ | _, .nan => .nan
  | .inf a, .inf b => if a = b then .inf a else .nan
  | .inf a, .finite _ => .inf a
  | .finite _, .inf b => .inf b

/-- A quotient by a positive number. -/
def divBy (n : ℕ) : Double → Double
  | .finite q => ofRat (q / n)
  | d => d

/-- **Single precision.** -/
def toSingle : Double → Double
  | .finite q =>
    let e : ℤ := max (Int.log 2 |q| - 23) (-149)
    let x : ℚ := roundEven (q / 2 ^ e) * 2 ^ e
    if 2 ^ 128 ≤ |x| then .inf (q < 0) else .finite x
  | d => d

end Double

/-- A channel frequency as the explorer keys it, on a raster of `step` hertz; zero when unknown. -/
def channelHz (hz : Double) (step : ℕ) : ℤ :=
  if !hz.isPos then 0
  else if step ≤ 1 then (hz.add (.finite (1 / 2))).toI64
  else ((hz.divBy step).add (.finite (1 / 2))).toI64 * step

/-! ## Sessions

Of a session there is what its pipeline is started and stopped with: the port, the file of keys, the
discriminators, and the parameters of the last start, from which a restart works. -/

/-- The three kinds of pipelines. -/
inductive Chain
  | fm | tetra | pager
  deriving DecidableEq

/-- The parameters of a start. -/
structure StartParams where
  sampleRate : Double
  channelBw : Double
  freqOffset : Double
  gain : Double
  afc : Bool := false
  protocol : Bytes := []
  keyType : Bytes := []
  key : Bytes := []
  matchedFilter : Bool := false
  pocsagMode : Bytes := []
  invert : Bool := false
  iqLog : Bool := false
  deriving DecidableEq

/-- The protocol that a start names. -/
def StartParams.hint (p : StartParams) : ProtocolHint := parseProtocolHint p.protocol

/-- The FM discriminator. -/
structure FmDemod where
  inputSampleRate : Double
  channelBandwidth : Double
  freqOffset : Double
  discGain : Double
  afcEnabled : Bool
  matchedFilterEnabled : Bool
  deriving DecidableEq

/-- The discriminator of the paging chain. -/
structure PagerDemod where
  inputSampleRate : Double
  channelBandwidth : Double
  freqOffset : Double
  afcEnabled : Bool
  invert : Bool
  deriving DecidableEq

/-- The discriminator of an FM start. -/
def StartParams.fmDemod (p : StartParams) : FmDemod :=
  ⟨p.sampleRate, p.channelBw, p.freqOffset, p.gain, p.afc, p.matchedFilter⟩

/-- The discriminator of a paging start. -/
def StartParams.pagerDemod (p : StartParams) : PagerDemod :=
  ⟨p.sampleRate, p.channelBw, p.freqOffset, p.afc, p.invert⟩

/-- **A client session.** -/
structure Session where
  centerFreq : Double := .finite 0
  pipelineActive : Bool := false
  chain : Chain := .fm
  demod : Option FmDemod := none
  pagerDemod : Option PagerDemod := none
  /-- the port decoded audio comes in on; zero for none -/
  udpAudioPort : ℕ := 0
  /-- the port to keep across a restart; zero for none -/
  pendingUdpPort : ℕ := 0
  /-- the file with the keys for the decoder; empty for none -/
  klistPath : Bytes := []
  lastStart : Option StartParams := none
  deriving DecidableEq

instance : Inhabited Session := ⟨{}⟩

instance neZeroPorts : NeZero 19001 := ⟨by decide⟩

/-- What the outside world answers during a start. -/
structure Launch where
  now : ℤ := 0
  /-- the numbers drawn for a port, below the size of the range -/
  draws : List (Fin 19001) := []
  /-- the file with the stream's keys, when there are any and it can be written -/
  klist : Option Bytes := none
  tetraOk : Bool := false
  pagerOk : Bool := false
  dsdOk : Bool := false
  deriving DecidableEq

/-- **The server**: the ports in use, the key-list files, the network explorer and the sessions. -/
structure Server where
  udpPortsInUse : SortedSet ℕ := ∅
  klistFiles : SortedSet Bytes := ∅
  explorer : AssocModel := {}
  sessions : SortedMap ℕ Session := ∅
  lastId : ℕ := 0
  freqStep : ℕ := 1250
  deriving DecidableEq

namespace Session

/-- The frequency of the session's channel at an offset; zero when the client gave none. -/
def channelFreq (x : Session) (step : ℕ) (offset : Double) : ℤ :=
  if x.centerFreq.isPos then channelHz (x.centerFreq.add offset) step else 0

/-- The pipeline is torn down. -/
def halted (x : Session) : Session :=
  { x with
    pipelineActive := false
    chain := .fm
    demod := if x.chain = .fm then none else x.demod
    pagerDemod := if x.chain = .pager then none else x.pagerDemod
    udpAudioPort := 0
    klistPath := [] }

/-- The pipeline runs. -/
def launched (x : Session) (p : StartParams) (c : Chain) : Session :=
  { x with lastStart := some p, pipelineActive := true, chain := c }

/-- The session with another centre frequency. -/
def tuneTo (x : Session) (center : Double) : Session := { x with centerFreq := center }

/-- The FM chain takes a port, the one kept for it or a fresh one. -/
def listen (x : Session) (port : ℕ) : Session :=
  { x with udpAudioPort := port, pendingUdpPort := 0 }

/-- The session with another discriminator, or none. -/
def withDemod (x : Session) (d : Option FmDemod) : Session := { x with demod := d }

/-- The session with another paging discriminator, or none. -/
def withPager (x : Session) (d : Option PagerDemod) : Session := { x with pagerDemod := d }

/-- The session with another file of keys. -/
def withKlist (x : Session) (path : Bytes) : Session := { x with klistPath := path }

/-- Keep the port across a restart. -/
def keepPort (x : Session) : Session := { x with pendingUdpPort := x.udpAudioPort }

/-- Set the gain of the discriminator. -/
def setGain (x : Session) (gain : Double) : Session :=
  if x.chain = .fm then { x with demod := x.demod.map fun d => { d with discGain := gain } } else x

/-- Set the frequency offset of the discriminator. -/
def setFreqOffset (x : Session) (hz : Double) : Session :=
  match x.chain with
  | .fm => { x with demod := x.demod.map fun d => { d with freqOffset := hz } }
  | .pager => { x with pagerDemod := x.pagerDemod.map fun d => { d with freqOffset := hz } }
  | .tetra => x

end Session

namespace Server

/-- A session by its number; blank if there is none. -/
def session (s : Server) (sid : ℕ) : Session := s.sessions.getD sid {}

/-- The server with one session changed. -/
def setSession (s : Server) (sid : ℕ) (x : Session) : Server :=
  { s with sessions := s.sessions.insert sid x }

/-- The server with its explorer changed. -/
def explore (s : Server) (g : AssocModel → AssocModel) : Server :=
  { s with explorer := g s.explorer }

/-! ## Ports

Ports are drawn at random until a free one comes up.  The draws are an input of the step, so a
result holds for whatever is drawn. -/

/-- **Take a free port**: the first one drawn that is not in use; nothing while none is drawn. -/
def acquireUdpPort (s : Server) (draws : List (Fin 19001)) : Option (ℕ × Server) :=
  (draws.find? fun d => 40000 + d.val ∉ s.udpPortsInUse).map fun d =>
    (40000 + d.val, { s with udpPortsInUse := s.udpPortsInUse.add (40000 + d.val) })

/-- Give a port back; zero is none. -/
def releaseUdpPort (s : Server) (port : ℕ) : Server :=
  if port = 0 then s else { s with udpPortsInUse := s.udpPortsInUse.erase port }

/-! ## Stopping

A stop releases the port unless one is kept for a restart, removes the file of keys and ends the
stream of the explorer.  It does nothing for a session without a pipeline. -/

/-- Remove a file of keys; an empty path is none. -/
def removeKlist (s : Server) (path : Bytes) : Server :=
  if path = [] then s else { s with klistFiles := s.klistFiles.erase path }

/-- **Stop the session's pipeline**, if it runs one. -/
def stopPipeline (s : Server) (sid : ℕ) (now : ℤ) : Server :=
  let x := s.session sid
  if !x.pipelineActive then s
  else
    let s := if x.pendingUdpPort = 0 then s.releaseUdpPort x.udpAudioPort else s
    let s := (s.removeKlist x.klistPath).setSession sid x.halted
    s.explore fun m => m.step (.finish sid now)

/-! ## Starting

A start stops what runs and opens a stream; then a port is taken and the keys are written; and last
the decoder is started, which may fail.  A failure returns at once. -/

/-- The port of an FM pipeline: the one kept for a restart, or a fresh one. -/
def takePort (s : Server) (sid : ℕ) (draws : List (Fin 19001)) : Option Server :=
  let x := s.session sid
  if x.pendingUdpPort ≠ 0 then some (s.setSession sid (x.listen x.pendingUdpPort))
  else (s.acquireUdpPort draws).map fun p => p.2.setSession sid (x.listen p.1)

/-- Write the keys for the decoder to a new file. -/
def writeKlist (s : Server) (sid : ℕ) (klist : Option Bytes) : Server :=
  match klist with
  | none => s
  | some path =>
    if path = [] ∨ path ∈ s.klistFiles then s
    else { s with klistFiles := s.klistFiles.add path }.setSession sid
      ((s.session sid).withKlist path)

/-- The pipeline of the session runs from here on. -/
def launch (s : Server) (sid : ℕ) (p : StartParams) (c : Chain) : Server :=
  s.setSession sid ((s.session sid).launched p c)

/-- A TETRA pipeline. -/
def startTetra (s : Server) (sid : ℕ) (p : StartParams) (l : Launch) : Server :=
  if l.tetraOk then s.launch sid p .tetra else s

/-- A paging pipeline. -/
def startPager (s : Server) (sid : ℕ) (p : StartParams) (l : Launch) : Server :=
  if !pocsagModeIsKnown p.pocsagMode then s
  else if !l.pagerOk then s
  else (s.setSession sid ((s.session sid).withPager (some p.pagerDemod))).launch sid p .pager

/-- An FM pipeline. -/
def startFm (s : Server) (sid : ℕ) (p : StartParams) (l : Launch) : Option Server :=
  if parseKeyType p.keyType ≠ .none ∧ !keyValueIsValid p.key then some s
  else
    let s := s.setSession sid ((s.session sid).withDemod (some p.fmDemod))
    (s.takePort sid l.draws).map fun s =>
      let s := s.writeKlist sid l.klist
      if l.dsdOk then s.launch sid p .fm
      else s.setSession sid ((s.session sid).withDemod none)

/-- The explorer opens a stream for the session. -/
def openStream (s : Server) (sid : ℕ) (p : StartParams) (now : ℤ) : Server :=
  s.explore fun m =>
    m.step (.begin sid p.hint.label now [] ((s.session sid).channelFreq s.freqStep p.freqOffset))

/-- **Start a pipeline**; nothing when it looks for a free port in vain. -/
def startPipeline (s : Server) (sid : ℕ) (p : StartParams) (l : Launch) : Option Server :=
  let s := (s.stopPipeline sid l.now).openStream sid p l.now
  if p.hint.isTetra then some (s.startTetra sid p l)
  else if p.hint.isPager then some (s.startPager sid p l)
  else s.startFm sid p l

/-- **Restart a running FM pipeline** with the parameters of its start, on its port. -/
def restartPipeline (s : Server) (sid : ℕ) (l : Launch) : Option Server :=
  let x := s.session sid
  match x.lastStart with
  | none => some s
  | some p =>
    if !x.pipelineActive then some s
    else if x.chain ≠ .fm then some s
    else (s.setSession sid x.keepPort).startPipeline sid p l

/-! ## Control messages

A message is a flat object with a type.  One that cannot be read throws, and a type that is not
known is ignored. -/

end Server

/-- A control message, as it is understood. -/
inductive Request
  | start (center : Double) (p : StartParams)
  | setGain (gain : Double)
  | setFreqOffset (hz : Double)
  | stop
  | unknown (type : Bytes)
  deriving DecidableEq

/-- **Read a control message.** -/
def readRequest (msg : Bytes) : Except Thrown Request :=
  (json.parseFlatObject msg).map fun o =>
    let type := json.getString o "type" []
    if type = lit "start" then
      .start (json.getNumber o "center_freq" (.finite 0))
        { sampleRate := json.getNumber o "sample_rate" (.finite 2000000)
          channelBw := json.getNumber o "channel_bandwidth" (.finite 12500)
          freqOffset := json.getNumber o "freq_offset" (.finite 0)
          gain := (json.getNumber o "gain" (.finite 26000)).toSingle
          afc := json.getBool o "afc" false
          protocol := json.getString o "protocol" []
          keyType := json.getString o "key_type" []
          key := json.getString o "key" []
          matchedFilter := json.getBool o "matched_filter" false
          pocsagMode := json.getString o "pocsag_mode" []
          invert := json.getBool o "invert" false
          iqLog := json.getBool o "iq_log" false }
    else if type = lit "set_gain" then .setGain (json.getNumber o "gain" (.finite 26000)).toSingle
    else if type = lit "set_freq_offset" then .setFreqOffset (json.getNumber o "hz" (.finite 0))
    else if type = lit "stop" then .stop
    else .unknown type

namespace Server

/-- The channel of the session moved. -/
def setFreqOffset (s : Server) (sid : ℕ) (hz : Double) (now : ℤ) : Server :=
  let x := s.session sid
  let s := s.setSession sid (x.setFreqOffset hz)
  if x.chain = .fm ∧ x.centerFreq.isPos then
    s.explore fun m => m.step (.retune sid (channelHz (x.centerFreq.add hz) s.freqStep) now)
  else s

/-- Carry out a request. -/
def serve (s : Server) (sid : ℕ) (l : Launch) : Request → Option Server
  | .start center p => (s.setSession sid ((s.session sid).tuneTo center)).startPipeline sid p l
  | .setGain gain => some (s.setSession sid ((s.session sid).setGain gain))
  | .setFreqOffset hz => some (s.setFreqOffset sid hz l.now)
  | .stop => some (s.stopPipeline sid l.now)
  | .unknown _ => some s

/-- **A control message of a session**; what cannot be read is answered, and changes nothing. -/
def handleTextMessage (s : Server) (sid : ℕ) (msg : Bytes) (l : Launch) : Option Server :=
  match readRequest msg with
  | .error _ => some s
  | .ok r => s.serve sid l r

/-! ## Steps

A step is a connection that opens or closes, a message, or a restart after a change of the keys. -/

/-- What happens to the server. -/
inductive Op
  | connect
  | message (sid : ℕ) (msg : Bytes) (l : Launch)
  | restart (sid : ℕ) (l : Launch)
  | decoded (sid : ℕ) (ev : DsdEvent) (now : ℤ)
  | disconnect (sid : ℕ) (now : ℤ)

/-- A client connects. -/
def connect (s : Server) : Server := { s with lastId := s.lastId + 1 }.setSession (s.lastId + 1) {}

/-- A client disconnects: its pipeline stops, and the explorer forgets the session. -/
def disconnect (s : Server) (sid : ℕ) (now : ℤ) : Server :=
  let s := s.stopPipeline sid now
  { s with sessions := s.sessions.erase sid }.explore fun m => m.step (.remove sid now)

/-- **A step of the server**; there is none of a session that is not connected. -/
def step (s : Server) : Op → Option Server
  | .connect => some s.connect
  | .message sid msg l => if sid ∈ s.sessions then s.handleTextMessage sid msg l else none
  | .restart sid l => if sid ∈ s.sessions then s.restartPipeline sid l else none
  | .decoded sid ev now =>
    if (s.session sid).pipelineActive then
      some (s.explore fun m => m.step (.event sid ev now)) else none
  | .disconnect sid now => if sid ∈ s.sessions then some (s.disconnect sid now) else none

/-- **The states a server gets into.** -/
inductive Reachable : Server → Prop
  | fresh (freqStep : ℕ) (m : AssocModel) : m.sess = ∅ →
      Reachable { explorer := m, freqStep := freqStep }
  | step {s s' : Server} (op : Op) : Reachable s → s.step op = some s' → Reachable s'

end Server

end DsdServer
