import DsdServer.Assoc.Types
import DsdServer.Data.Regex
import DsdServer.Json.Flat
import DsdServer.Server.Extras
import DsdServer.Server.Hints
import DsdServer.Server.KeyList

/-!
# Server/DsdFme — the lines of the decoder, classified

The decoder prints for people.  What a line says is found by searching all of it for the labels the
decoder uses: the numbers of the digital modes, the callsigns of the amateur ones, the identifiers
of a trunking system.  None of the searches knows where a field of the line ends for another, and
texts from the air are on the line as well.

`classifyDsdFmeLine` is the event of a line, and `lineTokens` are the tokens of its extra field
(`extra_event`).  The ones that are not text from the air are plain, whatever the line
(`fields_tokens`): what a number's pattern captures is digits.
-/

open Bytes

namespace DsdServer

namespace dsdFme

/-! ## Patterns

Each pattern is the source's own, in the syntax it has there; the flag says whether case matters
not.  What it finds is in its first group, unless said otherwise. -/

def tgRe := Regex.compile true "TGT?[:=]?\\s*(\\d+)"
def srcRe := Regex.compile true "(?:SRC|RID|Source)[:=]?\\s*(\\d+)"
def slotBracketRe := Regex.compile true "\\[slot\\s*(\\d)\\]"
def slotRe := Regex.compile true "\\b(?:TS|Slot)[:=]?\\s*(\\d)"
def ccRe := Regex.compile true "(?:Colou?r|Channel)\\s*Code[:=]?\\s*(\\d+)"
/-- A line that reports an error of a checksum. -/
def errRe := Regex.compile true "(CRC|FEC|EMB)\\s*ERR"
/-- A line about synchronisation. -/
def syncRe := Regex.compile true "sync|no sync|nosync"
def voiceRe := Regex.compile true "voice|ambe"
def ranRe := Regex.compile true "\\bRAN\\s+(\\d+)"
def siteRe := Regex.compile true "Site\\s*Code:?\\s*(\\d+)"
def sysRe := Regex.compile true "Sys(?:tem)?\\s*Code:?\\s*(\\d+)"
def locRe := Regex.compile true "Location\\s*ID\\s*\\[?\\s*([0-9A-Fa-f]+)\\s*\\]?"
def catRe := Regex.compile true "\\bCat(?:egory)?\\s*:\\s*([A-Za-z]+)"
def netidRe := Regex.compile true "Net\\s*ID:\\s*(\\d+)"
def siteidRe := Regex.compile true "\\bSite(?:\\s*ID)?\\s*(?::\\s*|\\[\\s*)(\\d+(?:\\.\\d+)?)"
def restRe := Regex.compile true "Rest\\s*LSN:\\s*(\\d+)"
def lcnRe := Regex.compile true "\\bLP?CN:\\s*(\\d+)"
/-- A line that says there is an emergency. -/
def emergRe := Regex.compile true "\\bEmergency\\b(?!\\s*[:=])"
/-- The same, as a flag. -/
def emergValRe := Regex.compile true "\\bEmergency\\s*=\\s*1\\b"
def aliasRe := Regex.compile true "\\bAlias:\\s*(\\S.*?)\\s*$"
def smsRe := Regex.compile true "\\b(?:UTF-?8|UTF-?16|ISO\\s?7|ISO\\s?8)\\s*Text:\\s*(.*\\S)?\\s*$"
def nacRe := Regex.compile true "\\bNAC(?:/CC)?:\\s*([0-9A-Fa-f]+)"
def algidRe := Regex.compile true "\\bALG(?:\\s*ID)?:\\s*(?:0x)?([0-9A-Fa-f]\x7b1,2\x7d)\\b"
def keyidRe := Regex.compile true "\\b(?:KEY\\s*ID|KID):\\s*(?:0x)?([0-9A-Fa-f]\x7b1,4\x7d)\\b"
def nxdnCipherRe := Regex.compile false "\\b(Scrambler|DES|AES)\\s*-\\s*Key ID (\\d\x7b1,3\x7d)\\b"
def rfssRe := Regex.compile true "\\bRFSS\\s*(?::\\s*|\\[\\s*)([0-9A-Fa-f]+)"
def sysidRe := Regex.compile true "\\bSYS\\s*(?:ID\\s*)?(?::\\s*|\\[\\s*)([0-9A-Fa-f]+)"
def wacnRe := Regex.compile true "\\bWACN\\s*(?::\\s*|\\[\\s*)([0-9A-Fa-f]+)"
/-- A line of D-STAR, by name. -/
def dstarCtxRe := Regex.compile true "DSTAR"
/-- A line of D-STAR, by its header. -/
def dstarHdrRe := Regex.compile true "\\bRPT\\s*2:.*\\bRPT\\s*1:.*\\bDST:"
def ysfCtxRe := Regex.compile true "\\bYSF\\b"
def csSrcRe := Regex.compile true
  ("\\bSRC:\\s*(.*?)\\s*" ++
  "(?:DST:|U/?L:|D/?L:|RM\\d|DATA\\b|REPEATER\\b|INTERRUPTED\\b|CONTROL\\b|URGENT\\b|$)")
def csDstRe :=
  Regex.compile true "\\bDST:\\s*(.*?)\\s*(?:SRC:|U/?L:|D/?L:|RPT|DATA\\b|REPEATER\\b|$)"
def csRpt2Re := Regex.compile true "RPT\\s*2:\\s*(.*?)\\s*(?:RPT\\s*1:|DST:|SRC:|$)"
def csRpt1Re := Regex.compile true "RPT\\s*1:\\s*(.*?)\\s*(?:DST:|SRC:|$)"
def dstarTextRe := Regex.compile true "\\bTEXT:\\s*(\\S.*?)\\s*$"
def ysfUlRe := Regex.compile true "\\bU/?L:\\s*(.*?)\\s*(?:D/?L:|RM\\d|$)"
def ysfDlRe := Regex.compile true "\\bD/?L:\\s*(.*?)\\s*(?:RM\\d|$)"
def ysfDstridRe := Regex.compile true "\\bDST\\s*RID:\\s*(\\S+)"
def ysfSrcridRe := Regex.compile true "\\bSRC\\s*RID:\\s*(\\S+)"
def targetRe := Regex.compile true "\\bTarget:?\\s*(\\d+)"
def lcwGroupRe := Regex.compile true "Voice Channel User\\b.*?\\bGroup\\s+(\\d+)"
/-- A line that names slots without being of one. -/
def otherTsRe := Regex.compile true "Capacity Plus Channel Status|\\bLCN\\b"
/-- A status behind a text. -/
def trailingStatusRe := Regex.compile true "\\s*\\(?\\s*(?:CRC|FEC|EMB)\\s*ERR\\s*\\)?\\s*$"
def mnisRe := Regex.compile false "\\bMNIS\\s+([A-Za-z]\x7b2,8\x7d)\\s*;"
def mnisTypeRe := Regex.compile true "MNIS\\s+Type:\\s*([0-9A-Fa-f]+)"
def pairRe :=
  Regex.compile false "\\(\\s*(-?\\d\x7b1,2\x7d\\.\\d+)\\s*,\\s*(-?\\d\x7b1,3\x7d\\.\\d+)\\s*\\)"
def latlonRe := Regex.compile false
  ("Lat\\w*\\s*:?\\s*(-?\\d\x7b1,2\x7d\\.\\d+)[^NSns\\d-]\x7b0,4\x7d([NSns])?.*?" ++
  "Lon\\w*\\s*:?\\s*(-?\\d\x7b1,3\x7d\\.\\d+)[^EWew\\d-]\x7b0,4\x7d([EWew])?")
def edCtxRe := Regex.compile true
  ("\\bLCN\\s*[\\[:]|\\bAFS\\b|\\bCall(?:er|ee)\\b|" ++
  "(?:Digital|Analog|Data)\\s+(?:Group|System|I-|Individual)")
def edSrcRe := Regex.compile true "\\b(?:Source|Caller)\\D\x7b0,4\x7d(\\d+)"
def edGrpRe := Regex.compile true "\\b(?:Group|Target|Callee)\\D\x7b0,4\x7d(\\d+)"
def edLcnRe := Regex.compile true "\\bLCN\\D\x7b0,4\x7d(\\d+)"
def edAfsRe := Regex.compile true "\\bAFS\\D\x7b0,4\x7d(\\d+)"
def edLidRe := Regex.compile true "\\bLID\\D\x7b0,4\x7d(\\d+)"
def edSysRe := Regex.compile true "\\bSystem\\s*ID\\s*\\[?\\s*([0-9A-Fa-f]+)"
def ambeRe :=
  Regex.compile true "\\bAMBE\\s+([0-9A-Fa-f]+)\\s+err\\s*=\\s*\\[(\\d+)\\]\\s*\\[(\\d+)\\]"

/-! ## Values

What a pattern captures is tidied before it is used: numbers lose their zeros in front, callsigns
their stars and outer blanks. -/

/-- A number without the zeros in front. -/
def stripLeadingZeros (s : Bytes) : Bytes :=
  let t := s.dropWhile (· = ch '0')
  if t = [] then [ch '0'] else t

/-- One more byte: blanks are put off until something follows, and stars are watched for. -/
def tidyStep (a : Bytes × Bool × Bool) (c : UInt8) : Bytes × Bool × Bool :=
  let c := if c < 0x20 ∨ 0x7e < c then ch ' ' else c
  if c = ch ' ' then (a.1, a.2.1 || !a.1.isEmpty, a.2.2)
  else ((if a.2.1 then a.1 ++ [ch ' '] else a.1) ++ [c], false, a.2.2 && c = ch '*')

/-- A captured text without unprintable bytes and outer blanks; nothing when it is all stars. -/
def tidyCallsign (s : Bytes) : Bytes :=
  let a := s.foldl tidyStep ([], false, true)
  if a.1 = [] ∨ a.2.2 then [] else a.1

/-- The codeword of a voice frame. -/
def frameOf (hex : Bytes) : ℕ :=
  if hex = [] ∨ 16 < hex.length ∨ !hex.all isXdigit then 0 else mjson.natOf 16 hex

/-- A count, as 32 bits take it; more than 63 bits are cut off before. -/
def atoi (s : Bytes) : ℤ := Int.bmod (min (mjson.natOf 10 s) (2 ^ 63 - 1) : ℕ) (2 ^ 32)

/-- The first group of a pattern's match, if there is one. -/
def found (r : Regex) (line : Bytes) : Option Bytes := r.capture 1 line

/-- A token, where there is a value for it. -/
def token (key : String) (v : Option Bytes) : List (Bytes × Bytes) :=
  v.toList.map fun v => (lit key, v)

/-- A token of a text, unless it is empty. -/
def textToken (key : String) (v : Bytes) : List (Bytes × Bytes) :=
  if v = [] then [] else [(lit key, v)]

/-! ## Positions

A position is a pair of signed numbers, or two coordinates each with the letter of its hemisphere.
It is written with five digits after the point. -/

/-- A coordinate: whether it is negative, and its size. -/
def coordinate (s : Bytes) : Except Thrown (Bool × ℚ) :=
  (json.stod s).map fun d => (s.head? = some (ch '-'), match d with
    | .finite q => |q|
    | _ => 0)

/-- A coordinate on a hemisphere's side: `mark` turns one that is not negative. -/
def sided (marks : List Char) (mark : Bytes) (x : Bool × ℚ) : Bool × ℚ :=
  (x.1 || (mark ∈ marks.map fun c => [ch c]) && 0 < x.2, x.2)

/-- Five digits after the point. -/
def fixed5 (x : Bool × ℚ) : Bytes :=
  let n := (roundEven (x.2 * 10 ^ 5)).toNat
  (if x.1 then [ch '-'] else []) ++ dec (n / 10 ^ 5) ++ ch '.' :: padded 5 (dec (n % 10 ^ 5))

/-- A position's token, if it is on the earth and not at its origin. -/
def position (lat lon : Bool × ℚ) : List (Bytes × Bytes) :=
  if lat.2 ≤ 90 ∧ lon.2 ≤ 180 ∧ (lat.2 ≠ 0 ∨ lon.2 ≠ 0) then
    [(lit "gps", fixed5 lat ++ ch ',' :: fixed5 lon)]
  else []

/-- A group of a match; empty if it took no part. -/
def group (m : Bytes × List (ℕ × Bytes)) (i : ℕ) : Bytes := (m.2.lookup i).getD []

/-- **The position that a line reports.** -/
def gpsTokens (line : Bytes) : Except Thrown (List (Bytes × Bytes)) :=
  if has line (lit "Lat") && has line (lit "Lon") then
    match pairRe.search line with
    | some m => do
      let lat ← coordinate (group m 1)
      let lon ← coordinate (group m 2)
      return position lat lon
    | none =>
      match latlonRe.search line with
      | some m => do
        let lat ← coordinate (group m 1)
        let lon ← coordinate (group m 3)
        return position (sided ['S', 's'] (group m 2) lat) (sided ['W', 'w'] (group m 4) lon)
      | none => return []
  else return []

/-! ## Tokens of the digital modes -/

/-- The cipher and the key id that a line of NXDN names. -/
def cipherTokens (line : Bytes) : List (Bytes × Bytes) :=
  match nxdnCipherRe.search line with
  | none => []
  | some m =>
    let c := group m 1
    [(lit "alg_id",
        if c = lit "Scrambler" then lit "1" else if c = lit "DES" then lit "2" else lit "3"),
      (lit "key_id", shortId (mjson.natOf 10 (group m 2) % 256))]

/-- What a data call carries. -/
def service (line : Bytes) : Option Bytes :=
  let hdr := has line (lit "Data Header")
  if has line (lit "Preamble CSBK") && has line (lit "Data") then some (lit "preamble")
  else if hdr && has line (lit "Response Packet") then some (lit "ack")
  else if hdr && has line (lit "Delivery") then some (lit "data")
  else
    match found mnisTypeRe line with
    | some t => some (lit "mnis:" ++ upper t)
    | none =>
      match (found mnisRe line).filter (· ≠ lit "Type") with
      | some s => some (lower s)
      | none => if has line (lit "LRRP") then some (lit "lrrp") else none

/-- The type of a trunked network. -/
def networkType (line : Bytes) : Option Bytes :=
  if has line (lit "Connect Plus") then some (lit "con+")
  else if has line (lit "Capacity Plus") then some (lit "cap+")
  else none

/-- **What the digital modes say of trunking, encryption and data**, but for a position. -/
def detailTokens (line : Bytes) : List (Bytes × Bytes) :=
  token "site_code" (found siteRe line) ++ token "system_code" (found sysRe line) ++
    token "location_id" (found locRe line) ++ token "category" (found catRe line) ++
    token "network_type" (networkType line) ++ token "network_id" (found netidRe line) ++
    token "site_id" ((found siteidRe line).map stripLeadingZeros) ++
    token "rest_channel" (found restRe line) ++
    token "lcn" (found lcnRe line) ++ token "rfss" ((found rfssRe line).map stripLeadingZeros) ++
    token "system_id" ((found sysidRe line).map upper) ++
    token "wacn" ((found wacnRe line).map upper) ++
    -- a supergroup's key is not this call's
    (if has line (lit "SG:") then []
      else token "alg_id" (found algidRe line) ++ token "key_id" (found keyidRe line)) ++
    cipherTokens line ++ token "svc" (service line)

/-! ## Callsigns

D-STAR and YSF identify stations by callsign.  Every pattern is searched in the whole line, so the
label of one field may also be found in the text of another. -/

/-- Is the line of D-STAR? -/
def isDstar (line : Bytes) : Bool := dstarCtxRe.hits line || dstarHdrRe.hits line

def isYsf (line : Bytes) : Bool := ysfCtxRe.hits line

/-- A callsign or text that a pattern captures. -/
def tidied (r : Regex) (line : Bytes) : Bytes := tidyCallsign ((found r line).getD [])

/-- The call mode and data type a YSF line names. -/
def markers (line : Bytes) : List (Bytes × Bytes) :=
  if isYsf line then
    (if has line (lit "Group/CQ") then [(lit "call_mode", lit "group_cq")]
      else if has line (lit "RID Mode") then [(lit "call_mode", lit "radio_id")]
      else if has line (lit "Private") then [(lit "call_mode", lit "individual")]
      else []) ++
    (if has line (lit "V/D1") then [(lit "data_type", lit "vd1")]
      else if has line (lit "V/D2") then [(lit "data_type", lit "vd2")]
      else if has line (lit "VWFR") then [(lit "data_type", lit "voice_full")]
      else [])
  else []

/-- **The texts from the air** that a D-STAR or YSF line has. -/
def texts (line : Bytes) : List (Bytes × Bytes) :=
  (if isDstar line then
    textToken "rpt1" (tidied csRpt1Re line) ++ textToken "rpt2" (tidied csRpt2Re line) ++
      textToken "radio_text" (tidied dstarTextRe line)
    else []) ++
  if isYsf line then
    textToken "uplink" (tidied ysfUlRe line) ++ textToken "downlink" (tidied ysfDlRe line) ++
      textToken "src_rid" (tidied ysfSrcridRe line) ++ textToken "dst_rid" (tidied ysfDstridRe line)
  else []

/-- Does the line identify anyone by callsign? -/
def csCall (line : Bytes) : Bool :=
  (isDstar line || isYsf line) &&
    (tidied csSrcRe line ≠ [] || tidied csDstRe line ≠ [] || !(texts line).isEmpty)

/-- The tokens of a line that identifies by callsign. -/
def csTokens (line : Bytes) : List (Bytes × Bytes) :=
  if csCall line then markers line ++ texts line else []

/-! ## Trunking of the last kind

EDACS lines are searched last, and what is found replaces the talkgroup and the source found before.
-/

/-- Is the line of EDACS? -/
def isEdacs (line : Bytes) : Bool := edCtxRe.hits line

/-- The tokens of a line of EDACS. -/
def edTokens (line : Bytes) : List (Bytes × Bytes) :=
  if isEdacs line then
    token "lcn" ((found edLcnRe line).map stripLeadingZeros) ++
      token "afs" ((found edAfsRe line).map stripLeadingZeros) ++
      token "lid" ((found edLidRe line).map stripLeadingZeros) ++
      token "system_id" ((found edSysRe line).map upper)
  else []

/-- The tokens of a line with a position's. -/
def tokens (line : Bytes) (gps : List (Bytes × Bytes)) : List (Bytes × Bytes) :=
  detailTokens line ++ gps ++ csTokens line ++ edTokens line

/-- **All the tokens of a line**, in order. -/
def lineTokens (line : Bytes) : Except Thrown (List (Bytes × Bytes)) :=
  (gpsTokens line).map (tokens line)

/-! ## The event

The event is put together in the order of the source: numbers, callsigns, EDACS, the kind, and the
voice frame. -/

/-- The talkgroup, by the first of three patterns that finds one. -/
def talkgroup (line : Bytes) : Bytes :=
  ((found tgRe line <|> found targetRe line <|> found lcwGroupRe line).map stripLeadingZeros).getD
    []

/-- The slot, in brackets or else by name. -/
def slot (line : Bytes) : Bytes :=
  match found slotBracketRe line with
  | some s => s
  | none => if otherTsRe.hits line then [] else (found slotRe line).getD []

/-- Did a checksum fail? -/
def crcError (line : Bytes) : Bytes := if errRe.hits line then lit "1" else []

/-- The text of a short message: without a status behind it, blanks in front and padding at its
end. -/
def message (line : Bytes) : Bytes :=
  if crcError line = lit "1" then []
  else
    let msg := (found smsRe line).getD []
    let msg := match trailingStatusRe.search msg with
      | some m => m.1
      | none => msg
    let blank (b : UInt8) : Bool := b = ch ' ' || b = 9
    ((msg.dropWhile blank).reverse.dropWhile fun b => blank b || b = ch '_' || b = ch '-').reverse

/-- The event of the digital modes. -/
def numericEvent (line : Bytes) (tokens : List (Bytes × Bytes)) : DsdEvent where
  rawLine := line
  kind := lit "unknown"
  talkgroup := talkgroup line
  sourceId := ((found srcRe line).map stripLeadingZeros).getD []
  slot := slot line
  colorCode := ((found ccRe line).map stripLeadingZeros).getD []
  ran := ((found ranRe line).map stripLeadingZeros).getD []
  nac := upper ((found nacRe line).getD [])
  emergency := if emergRe.hits line || emergValRe.hits line then lit "1" else []
  talkerAlias := (found aliasRe line).getD []
  crcError := crcError line
  message := message line
  extra := joined tokens

/-- Callsigns take the place of numbers. -/
def withCallsigns (line : Bytes) (ev : DsdEvent) : DsdEvent :=
  if csCall line then
    { ev with
      sourceId := tidied csSrcRe line
      talkgroup := tidied csDstRe line
      extra := (csTokens line).foldl addToken ev.extra }
  else ev

/-- A trunking system's identifiers come last. -/
def withEdacs (line : Bytes) (ev : DsdEvent) : DsdEvent :=
  if isEdacs line then
    { ev with
      sourceId := ((found edSrcRe line).map stripLeadingZeros).getD ev.sourceId
      talkgroup := ((found edGrpRe line).map stripLeadingZeros).getD ev.talkgroup
      extra := (edTokens line).foldl addToken ev.extra }
  else ev

/-- What kind of event it is. -/
def kind (line : Bytes) (ev : DsdEvent) : Bytes :=
  let identified := ev.sourceId ≠ [] || ev.talkgroup ≠ []
  if csCall line then lit "call"
  else if voiceRe.hits line then lit "voice"
  else if syncRe.hits line then lit "sync"
  else if isEdacs line && (identified || has line (lit "Call")) then lit "call"
  else if ev.message ≠ [] then lit "message"
  else if identified then lit "call"
  else ev.kind

/-- The voice frame that a line shows. -/
def withFrame (line : Bytes) (ev : DsdEvent) : DsdEvent :=
  match ambeRe.search line with
  | none => ev
  | some m =>
    { ev with
      voiceFrame := frameOf (group m 1)
      voiceErr := Int.bmod (atoi (group m 2) + atoi (group m 3)) (2 ^ 32) }

/-- The event of a line with a position's tokens. -/
def event (line : Bytes) (gps : List (Bytes × Bytes)) : DsdEvent :=
  let ev := withEdacs line (withCallsigns line (numericEvent line (detailTokens line ++ gps)))
  withFrame line { ev with kind := kind line ev }

end dsdFme

open dsdFme in
/-- **The event of a line of the decoder.**  A position with too small a number in it throws. -/
def classifyDsdFmeLine (line : Bytes) : Except Thrown DsdEvent := (gpsTokens line).map (event line)

/-! ## The tokens of a line

The extra field is its tokens, joined.  All but the texts hold what their patterns' classes let in:
digits and letters, and few marks. -/

namespace dsdFme

variable {line v : Bytes} {r : Regex} {e : Bytes × Bytes}

/-- The voice frame is not in the extra field. -/
theorem extra_withFrame (line : Bytes) (ev : DsdEvent) : (withFrame line ev).extra = ev.extra := by
  rw [withFrame]
  split <;> rfl

/-- The tokens of EDACS come last in it. -/
theorem extra_withEdacs (line : Bytes) (ev : DsdEvent) :
    (withEdacs line ev).extra = (edTokens line).foldl addToken ev.extra := by
  rw [withEdacs, edTokens]
  split_ifs <;> rfl

/-- Those of callsigns come after the numbers. -/
theorem extra_withCallsigns (line : Bytes) (ev : DsdEvent) :
    (withCallsigns line ev).extra = (csTokens line).foldl addToken ev.extra := by
  rw [withCallsigns, csTokens]
  split_ifs <;> rfl

theorem extra_numericEvent (line : Bytes) (ts : List (Bytes × Bytes)) :
    (numericEvent line ts).extra = joined ts := rfl

/-- **The extra field of a line's event is its tokens, joined.** -/
theorem extra_event (line : Bytes) (gps : List (Bytes × Bytes)) :
    (event line gps).extra = joined (tokens line gps) := by
  have hkind : (event line gps).extra =
      (withEdacs line (withCallsigns line (numericEvent line (detailTokens line ++ gps)))).extra :=
    extra_withFrame line _
  rw [hkind, extra_withEdacs, extra_withCallsigns, extra_numericEvent]
  simp only [joined, tokens, List.foldl_append]

/-! ### The tables of keys, words and patterns

What has to be checked of each is computable, and is checked once for all of them. -/

/-- Bytes of numbers and names. -/
def isValue (b : UInt8) : Bool :=
  isAlnum b || b == ch '_' || b == ch '.' || b == ch ',' || b == ch '+' ||
    b == ch '-' || b == ch ':'

/-- The keys of the texts from the air, in the order they are written in. -/
def textKeys : List Bytes :=
  [lit "rpt1", lit "rpt2", lit "radio_text", lit "uplink", lit "downlink", lit "src_rid",
    lit "dst_rid"]

/-- The keys of all other tokens. -/
def ownKeys : List String :=
  ["site_code", "system_code", "location_id", "category", "network_type", "network_id", "site_id",
    "rest_channel", "lcn", "rfss", "system_id", "wacn", "alg_id", "key_id", "svc", "gps",
    "call_mode", "data_type", "afs", "lid"]

/-- A key of the decoder's that is not a text's. -/
def isOwnKey (key : Bytes) : Bool :=
  key ≠ [] && key.all isValue && !key.contains (ch '=') && !textKeys.contains key

/-- The words that are values of their own. -/
def words : List String :=
  ["preamble", "ack", "data", "lrrp", "mnis:", "con+", "cap+", "1", "2", "3",
    "group_cq", "radio_id", "individual", "vd1", "vd2", "voice_full"]

/-- The patterns of numbers and names. -/
def numberRes : List Regex :=
  [siteRe, sysRe, locRe, catRe, netidRe, siteidRe, restRe, lcnRe, rfssRe, sysidRe, wacnRe,
    algidRe, keyidRe, mnisTypeRe, mnisRe, edLcnRe, edAfsRe, edLidRe, edSysRe]

/-- What is checked of the tables: keys have the form of keys, words are of the bytes of values, and
the patterns of numbers let no other bytes into their groups. -/
theorem tables_checked :
    ((∀ k ∈ textKeys, KeyForm k) ∧ textKeys.Nodup ∧ ∀ key ∈ ownKeys, isOwnKey (lit key) = true) ∧
      (∀ w ∈ words, (lit w).all isValue = true) ∧ (∀ r ∈ numberRes, r.groupsTake isValue = true) ∧
      (∀ d < 16, isValue (hexDigitUpper d) = true) ∧
      ∀ n < 256, isValue (.ofNat n) = true →
        isValue (if isLower (.ofNat n) then .ofNat n - 32 else .ofNat n) = true ∧
        isValue (if isUpper (.ofNat n) then .ofNat n + 32 else .ofNat n) = true := by
  decide +kernel

/-! ### Values

The bytes that the patterns of numbers let in are closed under what is made of the values. -/

theorem tame_of_isValue (h : ∀ b ∈ v, isValue b = true) : Tame v := by
  refine ⟨fun hm => absurd (h _ hm) (by decide), fun hl => ?_⟩
  exact absurd (h _ (List.mem_of_mem_getLast? hl)) (by decide)

theorem isValue_word {w : String} (hw : w ∈ words) : ∀ b ∈ lit w, isValue b = true :=
  List.all_eq_true.1 (tables_checked.2.1 w hw)

/-- What a pattern of numbers finds is of their bytes. -/
theorem isValue_found (hr : r ∈ numberRes) (hv : found r line = some v) :
    ∀ b ∈ v, isValue b = true :=
  Regex.mem_capture (tables_checked.2.2.1 r hr) hv

/-- Either case of a value's byte is a value's. -/
theorem isValue_cases {c : UInt8} (h : isValue c = true) :
    isValue (if isLower c then c - 32 else c) = true ∧
      isValue (if isUpper c then c + 32 else c) = true := by
  revert h
  exact forall_byte (P := fun c => isValue c = true →
    isValue (if isLower c then c - 32 else c) = true ∧
    isValue (if isUpper c then c + 32 else c) = true) tables_checked.2.2.2.2 c

theorem isValue_upper (h : ∀ b ∈ v, isValue b = true) : ∀ b ∈ upper v, isValue b = true := by
  intro b hb
  obtain ⟨c, hc, rfl⟩ := List.mem_map.1 hb
  exact (isValue_cases (h c hc)).1

theorem isValue_lower (h : ∀ b ∈ v, isValue b = true) : ∀ b ∈ lower v, isValue b = true := by
  intro b hb
  obtain ⟨c, hc, rfl⟩ := List.mem_map.1 hb
  exact (isValue_cases (h c hc)).2

theorem isValue_stripLeadingZeros (h : ∀ b ∈ v, isValue b = true) :
    ∀ b ∈ stripLeadingZeros v, isValue b = true := by
  intro b hb
  dsimp only [stripLeadingZeros] at hb
  split_ifs at hb
  · rw [List.mem_singleton.1 hb]
    decide
  · exact h b ((List.dropWhile_sublist _).subset hb)

theorem isValue_dec (n : ℕ) : ∀ b ∈ dec n, isValue b = true := by
  intro b hb
  have hd := mjson.isDigit_dec hb
  have hdigit : isDigit b = true := by
    simp only [isDigit, Bool.and_eq_true, decide_eq_true_eq, UInt8.le_iff_toNat_le]
    exact hd
  rw [isValue, isAlnum, hdigit]
  rfl

theorem isValue_fixed5 (x : Bool × ℚ) : ∀ b ∈ fixed5 x, isValue b = true := by
  intro b hb
  simp only [fixed5, padded, List.mem_append, List.mem_cons, List.mem_replicate] at hb
  rcases hb with (hb | hb) | rfl | ⟨-, rfl⟩ | hb
  · split_ifs at hb
    · rw [List.mem_singleton.1 hb]
      decide
    · exact absurd hb List.not_mem_nil
  · exact isValue_dec _ b hb
  · decide
  · decide
  · exact isValue_dec _ b hb

theorem isValue_shortId (n : ℕ) : ∀ b ∈ shortId (n % 256), isValue b = true := by
  have hdigit := tables_checked.2.2.2.1
  intro b hb
  rcases List.mem_cons.1 hb with rfl | hb
  · exact hdigit _ (by omega)
  · rw [List.mem_singleton.1 hb]
    exact hdigit _ (by omega)

/-! ### Tokens

Part by part: every token but a text has a key of the decoder's own and a value of such bytes. -/

/-- A token that is not a text from the air. -/
def Decoded (e : Bytes × Bytes) : Prop := Plain e ∧ e.1 ∉ textKeys

variable {key : String} {f : Bytes → Bytes}

/-- A value of such bytes, under a key of the decoder's own. -/
theorem decoded (hk : key ∈ ownKeys) (hv : ∀ b ∈ v, isValue b = true) : Decoded (lit key, v) := by
  have hk := tables_checked.1.2.2 key hk
  simp only [isOwnKey, Bool.and_eq_true, decide_eq_true_eq, Bool.not_eq_true',
    List.all_eq_true] at hk
  obtain ⟨⟨⟨hne, hall⟩, heq⟩, htext⟩ := hk
  refine ⟨⟨⟨hne, (tame_of_isValue hall).1, by simpa using heq, fun hh => ?_⟩, tame_of_isValue hv⟩,
    by simpa using htext⟩
  exact absurd (hall _ (List.mem_of_mem_head? hh)) (by decide)

/-- The same for a token that may be missing. -/
theorem decoded_token (hk : key ∈ ownKeys) {o : Option Bytes}
    (h : ∀ v, o = some v → ∀ b ∈ v, isValue b = true) : ∀ e ∈ token key o, Decoded e := by
  intro e he
  obtain ⟨v, hv, rfl⟩ := List.mem_map.1 he
  exact decoded hk (h v (Option.mem_toList.1 hv))

/-- What a pattern of numbers finds, as it is or in the decoder's way of writing it. -/
theorem decoded_found (hk : key ∈ ownKeys) (hr : r ∈ numberRes) :
    ∀ e ∈ token key (found r line), Decoded e :=
  decoded_token hk fun _ hv => isValue_found hr hv

/-- **What a pattern of numbers captures**, and what is made of it, is such a value. -/
theorem decoded_found_map (hk : key ∈ ownKeys) (hr : r ∈ numberRes)
    (hf : ∀ v, (∀ b ∈ v, isValue b = true) → ∀ b ∈ f v, isValue b = true) :
    ∀ e ∈ token key ((found r line).map f), Decoded e := by
  refine decoded_token hk fun v hv => ?_
  obtain ⟨w, hw, rfl⟩ := Option.map_eq_some_iff.1 hv
  exact hf w (isValue_found hr hw)

theorem decoded_cipherTokens (line : Bytes) : ∀ e ∈ cipherTokens line, Decoded e := by
  rw [cipherTokens]
  split
  · simp
  · intro e he
    rcases List.mem_cons.1 he with rfl | he
    · refine decoded (by simp [ownKeys]) ?_
      split_ifs <;> exact isValue_word (by simp [words])
    · rw [List.mem_singleton.1 he]
      exact decoded (by simp [ownKeys]) (isValue_shortId _)

theorem isValue_service {v : Bytes} (hv : service line = some v) : ∀ b ∈ v, isValue b = true := by
  dsimp only [service] at hv
  split at hv
  · cases hv
    exact isValue_word (by simp [words])
  split at hv
  · cases hv
    exact isValue_word (by simp [words])
  split at hv
  · cases hv
    exact isValue_word (by simp [words])
  rcases ht : found mnisTypeRe line with _ | t
  · rw [ht] at hv
    dsimp only at hv
    rcases hs : (found mnisRe line).filter (· ≠ lit "Type") with _ | w
    · rw [hs] at hv
      dsimp only at hv
      split_ifs at hv
      cases hv
      exact isValue_word (by simp [words])
    · rw [hs] at hv
      cases hv
      exact isValue_lower (isValue_found (by simp [numberRes]) (Option.filter_eq_some_iff.1 hs).1)
  · rw [ht] at hv
    cases hv
    intro b hb
    rcases List.mem_append.1 hb with hb | hb
    · exact isValue_word (w := "mnis:") (by simp [words]) b hb
    · exact isValue_upper (isValue_found (by simp [numberRes]) ht) b hb

theorem isValue_networkType {v : Bytes} (hv : networkType line = some v) :
    ∀ b ∈ v, isValue b = true := by
  rw [networkType] at hv
  split_ifs at hv
  · cases hv
    exact isValue_word (by simp [words])
  · cases hv
    exact isValue_word (by simp [words])

/-- The digital modes' tokens are no texts from the air. -/
theorem decoded_detailTokens (line : Bytes) : ∀ e ∈ detailTokens line, Decoded e := by
  simp only [detailTokens, List.forall_mem_append, and_assoc]
  refine ⟨decoded_found (by simp [ownKeys]) (by simp [numberRes]),
    decoded_found (by simp [ownKeys]) (by simp [numberRes]),
    decoded_found (by simp [ownKeys]) (by simp [numberRes]),
    decoded_found (by simp [ownKeys]) (by simp [numberRes]),
    decoded_token (by simp [ownKeys]) fun _ => isValue_networkType,
    decoded_found (by simp [ownKeys]) (by simp [numberRes]),
    decoded_found_map (by simp [ownKeys]) (by simp [numberRes]) fun _ => isValue_stripLeadingZeros,
    decoded_found (by simp [ownKeys]) (by simp [numberRes]),
    decoded_found (by simp [ownKeys]) (by simp [numberRes]),
    decoded_found_map (by simp [ownKeys]) (by simp [numberRes]) fun _ => isValue_stripLeadingZeros,
    decoded_found_map (by simp [ownKeys]) (by simp [numberRes]) fun _ => isValue_upper,
    decoded_found_map (by simp [ownKeys]) (by simp [numberRes]) fun _ => isValue_upper,
    ?_, decoded_cipherTokens line, decoded_token (by simp [ownKeys]) fun _ => isValue_service⟩
  split_ifs
  · simp
  · exact List.forall_mem_append.2 ⟨decoded_found (by simp [ownKeys]) (by simp [numberRes]),
      decoded_found (by simp [ownKeys]) (by simp [numberRes])⟩

theorem decoded_position (lat lon : Bool × ℚ) : ∀ e ∈ position lat lon, Decoded e := by
  rw [position]
  split_ifs
  · intro e he
    rw [List.mem_singleton.1 he]
    refine decoded (by simp [ownKeys]) fun b hb => ?_
    rcases List.mem_append.1 hb with hb | hb
    · exact isValue_fixed5 lat b hb
    · rcases List.mem_cons.1 hb with rfl | hb
      · decide
      · exact isValue_fixed5 lon b hb
  · simp

theorem decoded_gpsTokens {gps : List (Bytes × Bytes)} (h : gpsTokens line = .ok gps) :
    ∀ e ∈ gps, Decoded e := by
  have hpair : ∀ (x y : Except Thrown (Bool × ℚ)) (f g : Bool × ℚ → Bool × ℚ),
      (do
        let lat ← x
        let lon ← y
        return position (f lat) (g lon)) = Except.ok gps → ∀ e ∈ gps, Decoded e := by
    intro x y f g h
    rcases x with _ | lat
    · cases h
    · rcases y with _ | lon
      · cases h
      · cases h
        exact decoded_position _ _
  have hnone : Except.ok (ε := Thrown) [] = .ok gps → ∀ e ∈ gps, Decoded e := by
    intro h
    cases h
    simp
  rw [gpsTokens] at h
  split at h
  · split at h
    · exact hpair _ _ id id h
    · split at h
      · exact hpair _ _ (sided _ _) (sided _ _) h
      · exact hnone h
  · exact hnone h

theorem decoded_markers (line : Bytes) : ∀ e ∈ markers line, Decoded e := by
  have hone : ∀ {key w : String}, key ∈ ownKeys → w ∈ words → ∀ e ∈ [(lit key, lit w)],
      Decoded e := by
    intro key w hk hw e he
    rw [List.mem_singleton.1 he]
    exact decoded hk (isValue_word hw)
  rw [markers]
  split
  · refine List.forall_mem_append.2 ⟨?_, ?_⟩
    · split_ifs
      · exact hone (by simp [ownKeys]) (by simp [words])
      · exact hone (by simp [ownKeys]) (by simp [words])
      · exact hone (by simp [ownKeys]) (by simp [words])
      · simp
    · split_ifs
      · exact hone (by simp [ownKeys]) (by simp [words])
      · exact hone (by simp [ownKeys]) (by simp [words])
      · exact hone (by simp [ownKeys]) (by simp [words])
      · simp
  · simp

theorem decoded_edTokens (line : Bytes) : ∀ e ∈ edTokens line, Decoded e := by
  rw [edTokens]
  split_ifs
  · simp only [List.forall_mem_append, and_assoc]
    exact ⟨decoded_found_map (by simp [ownKeys]) (by simp [numberRes]) fun _ =>
      isValue_stripLeadingZeros,
      decoded_found_map (by simp [ownKeys]) (by simp [numberRes]) fun _ =>
      isValue_stripLeadingZeros,
      decoded_found_map (by simp [ownKeys]) (by simp [numberRes]) fun _ =>
      isValue_stripLeadingZeros,
      decoded_found_map (by simp [ownKeys]) (by simp [numberRes]) fun _ => isValue_upper⟩
  · simp

/-- The texts' keys are written in their order. -/
theorem keys_texts (line : Bytes) : ((texts line).map Prod.fst).Sublist textKeys := by
  have htext : ∀ (key : String) (v : Bytes),
      ((textToken key v).map Prod.fst).Sublist [lit key] := by
    intro key v
    rw [textToken]
    split_ifs
    · exact List.nil_sublist _
    · exact List.Sublist.refl _
  have hdstar : ((if isDstar line then textToken "rpt1" (tidied csRpt1Re line) ++
      textToken "rpt2" (tidied csRpt2Re line) ++ textToken "radio_text" (tidied dstarTextRe line)
      else []).map Prod.fst).Sublist [lit "rpt1", lit "rpt2", lit "radio_text"] := by
    split_ifs
    · rw [List.map_append, List.map_append]
      exact ((htext _ _).append (htext _ _)).append (htext _ _)
    · exact List.nil_sublist _
  have hysf : ((if isYsf line then textToken "uplink" (tidied ysfUlRe line) ++
      textToken "downlink" (tidied ysfDlRe line) ++ textToken "src_rid" (tidied ysfSrcridRe line) ++
      textToken "dst_rid" (tidied ysfDstridRe line) else []).map Prod.fst).Sublist
        [lit "uplink", lit "downlink", lit "src_rid", lit "dst_rid"] := by
    split_ifs
    · rw [List.map_append, List.map_append, List.map_append]
      exact (((htext _ _).append (htext _ _)).append (htext _ _)).append (htext _ _)
    · exact List.nil_sublist _
  rw [texts, List.map_append]
  exact hdstar.append hysf

/-- **A line's tokens**: texts from the air under their own keys, among plain ones. -/
theorem fields_tokens {gps : List (Bytes × Bytes)} (hg : gpsTokens line = .ok gps) :
    Fields textKeys (tokens line gps) := by
  have hfront : ∀ e ∈ detailTokens line ++ gps, Decoded e :=
    List.forall_mem_append.2 ⟨decoded_detailTokens line, decoded_gpsTokens hg⟩
  have hfields : ∀ {pre mid : List (Bytes × Bytes)}, (∀ e ∈ pre, Decoded e) →
      (mid.map Prod.fst).Sublist textKeys →
      Fields textKeys (pre ++ mid ++ edTokens line) := fun hpre hmid =>
    Fields.of_parts (List.forall_mem_append.2 ⟨hpre, decoded_edTokens line⟩) hmid
      tables_checked.1.2.1
      tables_checked.1.1
  rw [tokens, csTokens]
  split_ifs
  · rw [← List.append_assoc]
    exact hfields (List.forall_mem_append.2 ⟨hfront, decoded_markers line⟩) (keys_texts line)
  · exact hfields hfront (List.nil_sublist _)

end dsdFme

end DsdServer
