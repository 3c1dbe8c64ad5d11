import DsdServer.Assoc.Types

/-!
# Assoc/Text — reading a decoder line

What the model takes from the text of an event: the `key=value` tokens of its extra field, ids in a
normal form, and the marks of a private, data or encrypted call, of a roster and of call traffic.
`up` is the line in upper case.

The decoder's lines are free text.  Each test below looks for a word anywhere in the line, in the
order the source does, so that where two match the earlier one decides.
-/

open Bytes

namespace DsdServer

/-- The protocol family of a session's protocol label. -/
def assocFamily (label : Bytes) : Bytes :=
  if label = lit "dmr" then lit "dmr"
  else if label ∈ [lit "p25p1", lit "p25p2", lit "p25"] then lit "p25"
  else if label ∈ [lit "nxdn48", lit "nxdn96", lit "nxdn"] then lit "nxdn"
  else if label = lit "dpmr" then lit "dpmr"
  else if label = lit "dstar" then lit "dstar"
  else if label = lit "ysf" then lit "ysf"
  else if label ∈ [lit "tetra", lit "tetrakit"] then lit "tetra"
  else if label = lit "provoice" ∨ (lit "edacs").isPrefixOf label then lit "edacs"
  else if label = lit "x2tdma" then lit "x2tdma"
  else if label = lit "auto" then lit "auto"
  else if label = lit "pager-auto" ∨ (lit "pocsag").isPrefixOf label ∨ label = lit "flex" then []
  else label

/-- Does the voice-quality metric apply to a family? -/
def qualityAmbe2Family (fam : Bytes) : Bool :=
  fam ∈ [lit "dmr", lit "nxdn", lit "p25", lit "dpmr", lit "ysf", lit "x2tdma"]

/-- The `key=value` tokens of an extra field; a repeated key keeps its last value. -/
def parseExtra (extra : Bytes) : SortedMap Bytes Bytes :=
  (split (ch ';') extra).foldl (fun m tok =>
    match cut (ch '=') (trim (ch ' ') tok) with
    | some (k, v) => if k = [] then m else m.insert k v
    | none => m) ∅

/-- An id without leading zeros; empty when blank, all zero or a placeholder.  Callsigns are kept
as they are. -/
def normId (s : Bytes) : Bytes :=
  let t := trim (ch ' ') s
  if t = [] then []
  else if t.all isDigit then t.dropWhile (· == ch '0')
  else if t.any fun b => b == ch '*' || b == ch '?' then []
  else t

/-- The protocol family named in a line; the first that is found counts. -/
def inferFamily (raw : Bytes) : Bytes :=
  let up := upper raw
  if has up (lit "P25") then lit "p25"
  else if has up (lit "NXDN") then lit "nxdn"
  else if has up (lit "DPMR") then lit "dpmr"
  else if has up (lit "DSTAR") || has up (lit "D-STAR") then lit "dstar"
  else if has up (lit "YSF") then lit "ysf"
  else if has up (lit "EDACS") || has up (lit "PROVOICE") then lit "edacs"
  else if has up (lit "X2-TDMA") || has up (lit "X2TDMA") then lit "x2tdma"
  else if has up (lit "DMR") then lit "dmr"
  else []

/-- Is the call one from a radio to a radio? -/
def isPrivate (up : Bytes) (x : SortedMap Bytes Bytes) : Bool :=
  (x.find? (lit "unit_target")).any (fun v => v ≠ lit "0" && v ≠ []) ||
    has up (lit "PRIVATE") || has up (lit "UNIT TO UNIT") || has up (lit "UNIT-TO-UNIT") ||
    has up (lit "INDIV") || has up (lit "I-CALL") || has up (lit "U2U")

/-- A trunking roster lists what the site's other channels carry. -/
def isRoster (up : Bytes) : Bool := has up (lit "CALL(S)") && has up (lit "LSN")

/-- Does the line speak of data? -/
def isData (up : Bytes) : Bool :=
  has up (lit " DATA") || has up (lit "SMS") || has up (lit "UDT") || has up (lit "SHORT DATA") ||
    has up (lit "TEXT:")

/-- Is the call encrypted? An algorithm other than none, a flag, or the word for it. -/
def isEncrypted (up : Bytes) (x : SortedMap Bytes Bytes) : Bool :=
  (x.find? (lit "alg_id")).any (fun a =>
    let v := (upper a).dropWhile (· == ch '0')
    v ≠ [] && v ≠ lit "80") ||
  (x.find? (lit "encr")).any (fun e => e ≠ [] && e ≠ lit "0") ||
  has up (lit "ENCRYPTED")

/-- Sync lines that carry voice. -/
def isVoiceSync (up : Bytes) : Bool :=
  has up (lit "| VC") || has up (lit "VOICE") || has up (lit "LDU") || has up (lit "HDU") ||
    has up (lit "V/D")

/-- Sync lines that belong to call traffic. -/
def isTrafficSync (up : Bytes) : Bool :=
  !has up (lit "IDLE") &&
    (isVoiceSync up || has up (lit "| DATA") || has up (lit "R12") || has up (lit "R34") ||
      has up (lit "R1_") || has up (lit "RTCH"))

/-- An algorithm or key id as counted: uppercase hex, no leading zeros, at least two digits. -/
def hexid (v : Bytes) : Bytes :=
  let d := (upper v).dropWhile (· == ch '0')
  List.replicate (2 - d.length) (ch '0') ++ d

/-! ## What one event says

The line of an event is put in upper case and its extra field taken apart once; all that follows
asks the reading.  The tests are on words that the decoder prints, with the spelling and the spaces
it prints them with. -/

/-- **An event as the call handling reads it.** -/
structure Reading where
  ev : DsdEvent
  up : Bytes
  extra : SortedMap Bytes Bytes

namespace Reading

/-- The reading of an event. -/
def ofEvent (ev : DsdEvent) : Reading := ⟨ev, upper ev.rawLine, parseExtra ev.extra⟩

variable (r : Reading)

/-- The radio that speaks. -/
def src : Bytes := normId r.ev.sourceId
/-- The talkgroup or radio spoken to. -/
def tgt : Bytes := normId r.ev.talkgroup
/-- The slot of the event, as printed. -/
def slot : Bytes := r.ev.slot
def priv : Bool := isPrivate r.up r.extra
def data : Bool := r.ev.kind = lit "message" || isData r.up
def enc : Bool := isEncrypted r.up r.extra
def emerg : Bool := r.ev.emergency = lit "1"

/-- Does the event belong to a call, so that it may open one? -/
def callish : Bool :=
  r.ev.kind ∈ [lit "call", lit "voice", lit "message", lit "burst"]

/-- Does the event extend a call? -/
def extends' : Bool := r.callish || (r.ev.kind = lit "sync" && isTrafficSync r.up)

/-- Does the event carry voice?  A call header printed on a voice frame does too. -/
def voicey : Bool :=
  r.ev.kind = lit "voice" || (r.ev.kind = lit "sync" && isVoiceSync r.up) ||
    (r.ev.kind = lit "call" && has (lit " " ++ r.up) (lit " AMBE "))

end Reading

end DsdServer
