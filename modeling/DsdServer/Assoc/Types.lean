import DsdServer.Data.Bytes
import DsdServer.Data.SortedMap

/-!
# Assoc/Types — what the association model keeps

Everything is kept per protocol family: networks, talkgroups, radios and one record per call, oldest
first.  A session stream has a context of the identity it has seen and the calls it has in progress.
A reference to a call record is its id.

Counters and ids are unbounded naturals, times are integers (milliseconds).
-/

open Bytes

namespace DsdServer

/-! ## Constants and limits

The source has its limits as constants, but for the length of the call list, which is set while the
program runs.  Here a limit is an argument of every update, so that a result about counters can be
stated for runs in which nothing is ever full, and one about sizes for the real limits. -/

/-- Gap that still continues a call. -/
def kContinueMs : ℤ := 4000

/-- Aliases kept per radio. -/
def kMaxAliases : ℕ := 5

/-- Channels listed per network. -/
def kMaxFreqs : ℕ := 64

/-- Position history kept per radio. -/
def kMaxTrack : ℕ := 100

/-- Radios kept per family. -/
def kMaxRadios : ℕ := 3000
/-- Talkgroups kept per family. -/
def kMaxTalkgroups : ℕ := 1500
/-- Networks kept per family. -/
def kMaxNetworks : ℕ := 200
/-- Entries in each table of a talkgroup or a radio. -/
def kMaxEdgesPerNode : ℕ := 300

/-- Keys kept per network, talkgroup and radio. -/
def kMaxKeys : ℕ := 32

/-- **The capacity limits an update works under**; `none` is no limit. -/
structure Limits where
  calls : Option ℕ
  networks : Option ℕ
  tgs : Option ℕ
  radios : Option ℕ
  edges : Option ℕ
  keys : Option ℕ
  deriving DecidableEq

/-- Does a container of size `n` fill the limit? -/
def reached (lim : Option ℕ) (n : ℕ) : Bool := lim.any (· ≤ n)

@[simp] theorem reached_none (n : ℕ) : reached none n = false := rfl

/-- Nothing is ever full. -/
def Limits.unlimited : Limits := ⟨none, none, none, none, none, none⟩

/-- The model's limits, given the size of its call list. -/
def Limits.standard (maxCalls : ℕ) : Limits :=
  ⟨some maxCalls, some kMaxNetworks, some kMaxTalkgroups, some kMaxRadios, some kMaxEdgesPerNode,
    some kMaxKeys⟩

/-! ## Decoder events

All fields are texts as the decoder printed them; none of them is checked before it reaches the
model. -/

/-- A decoded event, as a session's decoder reports it. -/
structure DsdEvent where
  rawLine : Bytes := []
  kind : Bytes := []
  talkgroup : Bytes := []
  sourceId : Bytes := []
  slot : Bytes := []
  colorCode : Bytes := []
  ran : Bytes := []
  nac : Bytes := []
  emergency : Bytes := []
  talkerAlias : Bytes := []
  crcError : Bytes := []
  message : Bytes := []
  extra : Bytes := []
  voiceFrame : ℕ := 0
  voiceErr : ℤ := -1
  deriving DecidableEq

/-! ## Voice quality

A clear call has pauses, and in a pause the encoder sends one and the same frame.  A call decoded
with the wrong key has none of these, and noise has errors. -/

/-- What is thought of the voice of a call. -/
inductive Verdict
  | unknown
  | good
  | marginal
  | unusable
  deriving DecidableEq

/-- A voice-quality summary. -/
structure Summary where
  frames : ℕ := 0
  silence : ℕ := 0
  repeats : ℕ := 0
  sil : ℚ := 0
  rep : ℚ := 0
  errPerFrame : ℚ := 0
  verdict : Verdict := .unknown
  deriving DecidableEq

/-- The analyzer of one call's voice frames. -/
structure VoiceQuality where
  frames : ℕ := 0
  silence : ℕ := 0
  repeats : ℕ := 0
  errSum : ℕ := 0
  errFrames : ℕ := 0
  prev : Option ℕ := none
  deriving DecidableEq

namespace VoiceQuality

/-- The frame an encoder makes of silence. -/
def kSilenceFrame : ℕ := 0xF801A99F8CE080
/-- Frames below which there is no verdict. -/
def kMinFrames : ℕ := 50
/-- Silence frames that show that a call decodes in the clear. -/
def kClearSilenceFrames : ℕ := 2

/-- The default of the mean error count from which a decode is unusable. -/
def unusableErrPerFrame : ℚ := 2

/-- One more frame of the call, with the errors corrected in it when they are known. -/
def feedFrame (v : VoiceQuality) (frame : ℕ) (err : ℤ) : VoiceQuality where
  frames := v.frames + 1
  silence := if frame = kSilenceFrame then v.silence + 1 else v.silence
  repeats := if v.prev = some frame then v.repeats + 1 else v.repeats
  errSum := if 0 ≤ err then v.errSum + err.toNat else v.errSum
  errFrames := if 0 ≤ err then v.errFrames + 1 else v.errFrames
  prev := some frame

/-- **The verdict on a call**: too many errors are noise, and silence in between is speech. -/
def classify (frames silence : ℕ) (errPerFrame : ℚ) : Verdict :=
  if frames < kMinFrames then .unknown
  else if unusableErrPerFrame ≤ errPerFrame then .unusable
  else if kClearSilenceFrames ≤ silence then .good
  else .unknown

/-- The counts so far, and the verdict they come to. -/
def summary (v : VoiceQuality) : Summary :=
  let err : ℚ := if v.errFrames = 0 then 0 else v.errSum / v.errFrames
  { frames := v.frames
    silence := v.silence
    repeats := v.repeats
    sil := if v.frames = 0 then 0 else v.silence / v.frames
    rep := if v.frames = 0 then 0 else v.repeats / v.frames
    errPerFrame := err
    verdict := classify v.frames v.silence err }

end VoiceQuality

/-! ## Call records -/

/-- A call's recording: its file and where the file's audio comes from. -/
structure Recording where
  audio : Bytes := []
  audioSid : ℕ := 0
  audioSlot : ℤ := -1
  audioSamples : ℕ := 0
  /-- encrypted: never record -/
  noAudio : Bool := false
  /-- its recorded audio was decoded with a key -/
  keyedAudio : Bool := false
  deriving DecidableEq

/-- **The record of a call.** -/
structure Call where
  id : ℕ
  session : ℕ
  net : Bytes := []
  site : Bytes := []
  slot : Bytes := []
  src : Bytes := []
  tgt : Bytes := []
  talkerAlias : Bytes := []
  text : Bytes := []
  svc : Bytes := []
  pos : Bytes := []
  priv : Bool := false
  voice : Bool := false
  data : Bool := false
  emergency : Bool := false
  encrypted : Bool := false
  isOpen : Bool := true
  counted : Bool := false
  alg : Bytes := []
  kid : Bytes := []
  /-- its key counted on its network, talkgroup, radio -/
  keyNoted : Bool := false
  sound : Recording := {}
  /-- has audio: rolls off the list last -/
  keep : Bool := false
  startMs : ℤ := 0
  lastMs : ℤ := 0
  /-- talker unkeyed (0 = talking) -/
  txEndMs : ℤ := 0
  frames : ℕ := 0
  /-- receivers that heard it -/
  streams : ℕ := 1
  freq : ℤ := 0
  qual : Summary := {}
  deriving DecidableEq

/-! ## Entities

An entity counts the calls it took part in, and lists who with; each list is itself a table of
counts. -/

/-- What is known of a network. -/
structure Network where
  key : Bytes := []
  label : Bytes := []
  /-- strong | channel | weak | none -/
  confidence : Bytes := []
  ids : SortedMap Bytes Bytes := ∅
  sites : SortedSet Bytes := ∅
  freqs : SortedSet ℤ := ∅
  sessions : SortedSet ℕ := ∅
  calls : ℕ := 0
  firstMs : ℤ := 0
  lastMs : ℤ := 0
  /-- encryption keys its calls used: "alg:kid" → calls -/
  keys : SortedMap Bytes ℕ := ∅
  deriving DecidableEq

/-- What is known of a talkgroup. -/
structure Talkgroup where
  id : Bytes := []
  /-- radio → calls -/
  radios : SortedMap Bytes ℕ := ∅
  networks : SortedSet Bytes := ∅
  calls : ℕ := 0
  emergencies : ℕ := 0
  encrypted : ℕ := 0
  firstMs : ℤ := 0
  lastMs : ℤ := 0
  keys : SortedMap Bytes ℕ := ∅
  deriving DecidableEq

/-- What is known of a radio. -/
structure Radio where
  id : Bytes := []
  aliases : List Bytes := []
  /-- talkgroup → calls -/
  tgs : SortedMap Bytes ℕ := ∅
  /-- radio → private calls (either way) -/
  peers : SortedMap Bytes ℕ := ∅
  keys : SortedMap Bytes ℕ := ∅
  networks : SortedSet Bytes := ∅
  calls : ℕ := 0
  firstMs : ℤ := 0
  lastMs : ℤ := 0
  pos : Bytes := []
  posMs : ℤ := 0
  track : List (ℤ × Bytes) := []
  deriving DecidableEq

/-- **All that is kept of one protocol family.** -/
structure Family where
  networks : SortedMap Bytes Network := ∅
  tgs : SortedMap Bytes Talkgroup := ∅
  radios : SortedMap Bytes Radio := ∅
  /-- oldest at the front -/
  calls : List Call := []
  deriving DecidableEq

instance : Inhabited Family := ⟨{}⟩

/-! ## Stream contexts

What a stream has learned of its network is kept with the stream until enough is known to name the
network. -/

/-- One decoded audio sample.  `keyed` records whether the block that delivered it was decrypted
with a key; no operation reads it. -/
structure Sample where
  value : ℤ
  keyed : Bool := false
  deriving DecidableEq

/-- Audio that arrived on a slot before its call was decoded. -/
structure Preroll where
  pcm : List Sample := []
  last : ℤ := 0
  audible : Bool := false
  deriving DecidableEq

/-- The context of one session stream. -/
structure Ctx where
  family : Bytes := []
  label : Bytes := []
  /-- identity tokens seen -/
  ids : SortedMap Bytes Bytes := ∅
  net : Bytes := []
  site : Bytes := []
  strong : Bool := false
  /-- the lines being read describe a neighbour site -/
  adjacent : Bool := false
  /-- has decoded real traffic yet -/
  live : Bool := false
  running : Bool := false
  freq : ℤ := 0
  startedMs : ℤ := 0
  heardMs : ℤ := 0
  /-- "slot|tgt" → call id -/
  active : SortedMap Bytes ℕ := ∅
  /-- slot → latest call id -/
  lastSlotCall : SortedMap Bytes ℕ := ∅
  /-- weak-anchor values seen but not yet believed: key → (value, times in a row) -/
  pending : SortedMap Bytes (Bytes × ℕ) := ∅
  preroll : SortedMap ℤ Preroll := ∅
  deriving DecidableEq

instance : Inhabited Ctx := ⟨{}⟩

/-! ## Tallies and histories -/

/-- An encryption key as the explorer counts it. -/
def encKey (alg kid : Bytes) : Bytes := alg ++ lit ":" ++ kid

/-- Count a key, unless it is new and the tally is full. -/
def keyAdd (L : Limits) (m : SortedMap Bytes ℕ) (k : Bytes) (n : ℕ := 1) : SortedMap Bytes ℕ :=
  match m.find? k with
  | some v => m.insert k (v + n)
  | none => if reached L.keys m.size then m else m.insert k n

/-- How specific a data call's service label is. -/
def svcRank (s : Bytes) : ℕ :=
  if s = [] then 0 else if s = lit "preamble" then 1 else if s = lit "ack" then 2
  else if s = lit "data" then 3 else 4

/-- Add a fix to a track: the same position as the last one only moves its time on. -/
def trackAdd (tr : List (ℤ × Bytes)) (t : ℤ) (pos : Bytes) : List (ℤ × Bytes) :=
  match tr.getLast? with
  | some e =>
    if e.2 = pos then tr.dropLast ++ [(max e.1 t, e.2)]
    else (tr ++ [(t, pos)]).drop (tr.length + 1 - kMaxTrack)
  | none => [(t, pos)]

end DsdServer
