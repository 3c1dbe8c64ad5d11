import DsdServer.Assoc.Audio
import DsdServer.Assoc.LogLine

/-!
# Assoc/Replay — recording the model's inputs, and replaying a recording

Every line of a recording but the snapshots is an input, applied again with its recorded time.  A
file is taken as its lines: the recorder's have no newline in them.
-/

open Bytes

namespace DsdServer

open assoclog (parseLine lineEvent stoll stoull)

namespace AssocModel

/-! ## Recording

A recording may begin with a cleared model or in the middle of a run.  In the second case the
streams that run are written first, so that their events find them. -/

section Recording

-- the model's JSON at a time, as a snapshot holds it
variable (snapshot : AssocModel → ℤ → Bytes)

/-- A stream already running when the recording starts. -/
def recordResumed (now : ℤ) (s : AssocModel) (e : ℕ × Ctx) : AssocModel :=
  if e.2.running then s.record (assoclog.resumedLine now e.1 e.2.label e.2.family e.2.freq) else s

/-- **Start recording every input**; `clearFirst` wipes the model first, `created` is false when the
file cannot be created. -/
def startRecording (s : AssocModel) (created : Bool) (maxBytes : ℕ) (clearFirst : Bool) (now : ℤ) :
    AssocModel :=
  if s.log.on then s
  else
    let s := if clearFirst then s.clearLocked now else s
    if !created then s
    else
      let fresh := s.fams.isEmpty && s.nextCall = 0
      let s := { s with log := .start maxBytes }
      let s := s.record (assoclog.headerLine now fresh s.instanceId s.name s.since s.maxCalls)
      let s := s.sess.entries.foldl (recordResumed now) s
      (s.record (assoclog.snapshotLine now "start" (snapshot s now))).bumpVersion

/-- **Stop recording**; the file ends with a snapshot of the model. -/
def stopRecording (s : AssocModel) (now : ℤ) : AssocModel :=
  if !s.log.on then s
  else
    let s := s.record (assoclog.snapshotLine now "stop" (snapshot s now))
    bumpVersion { s with log := s.log.stop }

end Recording

/-! ## What only a replay does

A replay takes on the identity of the server that recorded, so that what it shows can be compared
with what was shown then. -/

/-- The identity of the server that recorded. -/
def setIdentity (s : AssocModel) (instanceId name : Bytes) : AssocModel :=
  { s with instanceId := if instanceId = [] then s.instanceId else instanceId, name := name }

/-- The time of its first data. -/
def setSince (s : AssocModel) (since : ℤ) : AssocModel := { s with since := since }

/-- The size of its call lists, ten at least. -/
def setMaxCalls (s : AssocModel) (n : ℕ) : AssocModel := { s with maxCalls := max n 10 }

/-- A call got or lost audio, so that it rolls off the list as it did live. -/
def markKeep (s : AssocModel) (f : Bytes) (id : ℕ) (on : Bool) : AssocModel :=
  match s.fams.find? f with
  | none => s
  | some F =>
    match F.calls.findIdx? fun k => k.id = id with
    | none => s
    | some i => s.setFamily f { F with calls := F.calls.modify i fun k => k.setKeep on }

end AssocModel

/-! ## Replaying

Lines are applied one by one, until a time if one is given.  A line that makes no sense is counted
and skipped; numbers that do not read are no reason to stop. -/

/-- What is told of a replay: what it read, and whether it was complete. -/
structure ReplayResult where
  lines : ℕ := 0
  events : ℕ := 0
  begins : ℕ := 0
  ends : ℕ := 0
  removes : ℕ := 0
  clears : ℕ := 0
  bad : ℕ := 0
  tFirst : ℤ := 0
  tLast : ℤ := 0
  header : Bool := false
  fresh : Bool := false
  truncated : Bool := false
  startModel : Bytes := []
  stopModel : Bytes := []
  startT : ℤ := 0
  stopT : ℤ := 0
  deriving DecidableEq

/-- A replay in progress. -/
structure Replay where
  model : AssocModel
  result : ReplayResult := {}
  /-- the time to stop at is past -/
  stopped : Bool := false

/-- What follows the first occurrence of a text. -/
def textAfter (needle : Bytes) : Bytes → Option Bytes
  | [] => if needle = [] then some [] else none
  | b :: s => if needle.isPrefixOf (b :: s) then
    some ((b :: s).drop needle.length) else textAfter needle s

/-- The model and the time of a snapshot line. -/
def replaySnapshot (line model : Bytes) (t : ℤ) : Bytes × ℤ :=
  (match textAfter (lit "\"model\":") line with
    | some m => if 1 < m.length then m.dropLast else model
    | none => model,
   match textAfter (lit "\"t\":") line with
    | some s => (stoll s).getD t
    | none => t)

namespace Replay

/-- The model changes. -/
def onModel (x : Replay) (g : AssocModel → AssocModel) : Replay := { x with model := g x.model }

/-- What is told of the replay changes. -/
def onResult (x : Replay) (g : ReplayResult → ReplayResult) : Replay :=
  { x with result := g x.result }

/-- A line that makes no sense. -/
def bad (x : Replay) : Replay := x.onResult fun r => { r with bad := r.bad + 1 }

/-- A number of a line, `d` when it is not there; `none` when it is no number. -/
def num {α : Type} (read : Bytes → Option α) (k : SortedMap Bytes Bytes) (key : String) (d : α) :
    Option α :=
  match k.find? (lit key) with
  | none => some d
  | some v => read v

/-- The replayed model is that server run's data: same identity and span, and the same list size. -/
def readHeader (x : Replay) (k : SortedMap Bytes Bytes) (t : ℤ) : Replay :=
  let x :=
    x.onResult fun r => { r with header := true, fresh := k.getD (lit "fresh") [] = lit "true" }
  let x := match k.find? (lit "instance") with
    | none => x
    | some i => x.onModel fun m => m.setIdentity i (k.getD (lit "name") [])
  match num stoll k "since" t with
  | none => x.bad
  | some since =>
    let x := x.onModel fun m => m.setSince since
    match num stoull k "max_calls" 400 with
    | none => x.bad
    | some n => x.onModel fun m => m.setMaxCalls n

/-- An input of the recording. -/
def readInput (x : Replay) (k : SortedMap Bytes Bytes) (op : Bytes) (t : ℤ) (sid : ℕ) : Replay :=
  if op = lit "ev" then
    (x.onModel fun m => m.step (.event sid (lineEvent k) t)).onResult fun r =>
      { r with events := r.events + 1 }
  else if op = lit "begin" then
    match num stoll k "freq" 0 with
    | none => x.bad
    | some freq =>
      (x.onModel fun m => m.step
        (.begin sid (k.getD (lit "label") []) t (k.getD (lit "family") []) freq)).onResult fun r =>
          { r with begins := r.begins + 1 }
  else if op = lit "tune" then
    match stoll (k.getD (lit "freq") []) with
    | none => x.bad
    | some freq => x.onModel fun m => m.step (.retune sid freq t)
  else if op = lit "keep" then
    match stoull (k.getD (lit "c") []) with
    | none => x.bad
    | some id => x.onModel fun m => m.markKeep (k.getD (lit "f") []) id
      (k.getD (lit "on") [] = lit "1")
  else if op = lit "end" then
    (x.onModel fun m => m.step (.finish sid t)).onResult fun r => { r with ends := r.ends + 1 }
  else if op = lit "remove" then
    (x.onModel fun m => m.step (.remove sid t)).onResult fun r =>
      { r with removes := r.removes + 1 }
  else if op = lit "clear" then
    (x.onModel fun m => m.step (.clear t)).onResult fun r => { r with clears := r.clears + 1 }
  else x.bad

/-- A line's fields. -/
def readFields (until' : Option ℤ) (x : Replay) (k : SortedMap Bytes Bytes) : Replay :=
  let op := k.getD (lit "op") []
  if op = lit "truncated" then x.onResult fun r => { r with truncated := true }
  else
    match num stoll k "t" 0 with
    | none => x.bad
    | some t =>
      if op = lit "header" then x.readHeader k t
      else if until'.any (· < t) then { x with stopped := true }
      else
        let x := x.onResult fun r =>
          { r with tFirst := if r.tFirst = 0 then t else r.tFirst, tLast := t }
        match num stoull k "s" 0 with
        | none => x.bad
        | some sid => x.readInput k op t sid

/-- A line. -/
def readLine (until' : Option ℤ) (x : Replay) (l : Bytes) : Replay :=
  if x.stopped ∨ l = [] then x
  else
    let x := x.onResult fun r => { r with lines := r.lines + 1 }
    if (lit "\x7b\"op\":\"snapshot\",").isPrefixOf l then
      if has l (lit "\"why\":\"stop\"") then
        let p := replaySnapshot l x.result.stopModel x.result.stopT
        x.onResult fun r => { r with stopModel := p.1, stopT := p.2 }
      else
        let p := replaySnapshot l x.result.startModel x.result.startT
        x.onResult fun r => { r with startModel := p.1, startT := p.2 }
    else
      match parseLine l with
      | none => x.bad
      | some k => x.readFields until' k

end Replay

/-- **Replay a recording** into a model, up to a time. -/
def replayLog (until' : Option ℤ) (lines : List Bytes) (m : AssocModel) : Replay :=
  lines.foldl (Replay.readLine until') { model := m }

end DsdServer
