import DsdServer.Assoc.Types

/-!
# Assoc/Recorder — the recording's text lines

A recording is one flat JSON object a line, its first key `op`.  Strings escape every byte outside
printable ASCII, so a line is printable and holds no newline.
-/

open Bytes

namespace DsdServer

namespace assoclog

/-- A nibble in lower-case hexadecimal. -/
def hexDigit (n : ℕ) : UInt8 :=
  if n < 10 then ch '0' + UInt8.ofNat n else ch 'a' + UInt8.ofNat (n - 10)

/-- One byte, escaped. -/
def escByte (b : UInt8) : Bytes :=
  if b = ch '"' then [ch '\\', ch '"']
  else if b = ch '\\' then [ch '\\', ch '\\']
  else if b < 0x20 ∨ 0x7f ≤ b then
    lit "\\u00" ++ [hexDigit (b.toNat / 16), hexDigit (b.toNat % 16)]
  else [b]

/-- A string as it stands between quotes. -/
def esc (s : Bytes) : Bytes := s.flatMap escByte

def q (s : Bytes) : Bytes := lit "\"" ++ esc s ++ lit "\""

/-! ## Lines

Each operation of the model has a line of its own.  They all begin with the operation and the time,
and go on with the stream where there is one; a field that is empty is not written. -/

/-- The start every line with a time has. -/
def opening (op : String) (t : ℤ) : Bytes :=
  lit "\x7b\"op\":\"" ++ lit op ++ lit "\",\"t\":" ++ decInt t

/-- …with the session it is about. -/
def openingFor (op : String) (t : ℤ) (sid : ℕ) : Bytes := opening op t ++ lit ",\"s\":" ++ dec sid

/-- The end of every line. -/
def closing : Bytes := lit "\x7d"

/-- A string field, left out when empty. -/
def field (key : String) (v : Bytes) : Bytes :=
  if v = [] then [] else lit ",\"" ++ lit key ++ lit "\":" ++ q v

/-- The channel frequency, left out when unknown. -/
def freqField (freq : ℤ) : Bytes := if freq = 0 then [] else lit ",\"freq\":" ++ decInt freq

def beginLine (t : ℤ) (sid : ℕ) (label : Bytes) (freq : ℤ) : Bytes :=
  openingFor "begin" t sid ++ lit ",\"label\":" ++ q label ++ freqField freq ++ closing

/-- A stream already running when the recording starts. -/
def resumedLine (t : ℤ) (sid : ℕ) (label family : Bytes) (freq : ℤ) : Bytes :=
  openingFor "begin" t sid ++ lit ",\"label\":" ++ q label ++ lit ",\"family\":" ++ q family ++
    freqField freq ++ lit ",\"resumed\":true" ++ closing

/-- A stream is tuned to another frequency. -/
def tuneLine (t : ℤ) (sid : ℕ) (freq : ℤ) : Bytes :=
  openingFor "tune" t sid ++ lit ",\"freq\":" ++ decInt freq ++ closing

def endLine (t : ℤ) (sid : ℕ) : Bytes := openingFor "end" t sid ++ closing

/-- A stream is removed. -/
def removeLine (t : ℤ) (sid : ℕ) : Bytes := openingFor "remove" t sid ++ closing

/-- The model is cleared. -/
def clearLine (t : ℤ) : Bytes := opening "clear" t ++ closing

/-- A call is marked to be kept, or the mark is taken off. -/
def keepLine (t : ℤ) (family : Bytes) (id : ℕ) (on : Bool) : Bytes :=
  opening "keep" t ++ lit ",\"f\":" ++ q family ++ lit ",\"c\":" ++ dec id ++ lit ",\"on\":" ++
    (if on then lit "1" else lit "0") ++ closing

/-- **An event**: the fields that are not empty, each under its key. -/
def eventLine (t : ℤ) (sid : ℕ) (e : DsdEvent) : Bytes :=
  openingFor "ev" t sid ++ field "kind" e.kind ++ field "tg" e.talkgroup ++
    field "src" e.sourceId ++
    field "slot" e.slot ++ field "cc" e.colorCode ++ field "ran" e.ran ++ field "nac" e.nac ++
    field "em" e.emergency ++ field "alias" e.talkerAlias ++ field "crc" e.crcError ++
    field "msg" e.message ++ field "extra" e.extra ++ field "raw" e.rawLine ++ closing

/-- The first line of a recording. -/
def headerLine (t : ℤ) (fresh : Bool) (instanceId name : Bytes) (since : ℤ) (maxCalls : ℕ) :
    Bytes :=
  lit "\x7b\"op\":\"header\",\"v\":1,\"t\":" ++ decInt t ++ lit ",\"fresh\":" ++
    (if fresh then lit "true" else lit "false") ++ lit ",\"instance\":" ++ q instanceId ++
    lit ",\"name\":" ++ q name ++ lit ",\"since\":" ++ decInt since ++ lit ",\"max_calls\":" ++
    dec maxCalls ++ closing

/-- A snapshot of the model, as its JSON text. -/
def snapshotLine (t : ℤ) (why : String) (model : Bytes) : Bytes :=
  opening "snapshot" t ++ lit ",\"why\":\"" ++ lit why ++ lit "\",\"model\":" ++ model ++ closing

/-- The last line of a recording that became too long. -/
def truncatedLine : Bytes := lit "\x7b\"op\":\"truncated\"\x7d"

end assoclog

/-! ## The recorder

Lines are appended while the recording is on and its size stays below the limit; in place of the
first line that does not fit stands one that says so, and nothing is written after it. -/

/-- A recording in progress: its lines so far and their size against the cap (0 = none). -/
structure AssocRecorder where
  on : Bool := false
  lines : List Bytes := []
  bytes : ℕ := 0
  max : ℕ := 0
  truncated : Bool := false
  deriving DecidableEq

namespace AssocRecorder

/-- Append one line.  Past the cap a final marker is written, and no more. -/
def write (r : AssocRecorder) (line : Bytes) : AssocRecorder :=
  if !r.on || r.truncated then r
  else if r.max ≠ 0 ∧ r.max < r.bytes + line.length + 1 then
    { r with truncated := true, lines := r.lines ++ [assoclog.truncatedLine] }
  else { r with lines := r.lines ++ [line], bytes := r.bytes + line.length + 1 }

/-- A recording begins, with nothing in it. -/
def start (maxBytes : ℕ) : AssocRecorder := { on := true, max := maxBytes }

/-- A recording ends; its lines stay. -/
def stop (r : AssocRecorder) : AssocRecorder := { r with on := false }

end AssocRecorder

end DsdServer
