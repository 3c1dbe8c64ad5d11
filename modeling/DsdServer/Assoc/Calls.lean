import DsdServer.Assoc.Entities
import DsdServer.Assoc.AudioStore
import DsdServer.Assoc.Recorder

/-!
# Assoc/Calls — opening, closing and joining calls

A call's file and its voice-quality analyzer live beside its family (`FamilyState`); the stream a
call is opened on has its context and draws the call's id (`StreamState`).  Within one event these
are all that the call handling touches.
-/

open Bytes

namespace DsdServer

/-- A call's recording starts only with a peak of at least this. -/
def kAudiblePeak : ℤ := 64

/-- A recording shorter than this is deleted when the call ends. -/
def kMinAudioSamples : ℕ := 1600

/-- **A family, with what closing one of its calls touches besides**: the audio files, the recording
and the voice-quality analyzers. -/
structure FamilyState where
  name : Bytes
  fam : Family
  store : CallAudioStore
  log : AssocRecorder
  quality : SortedMap ℕ VoiceQuality
  deriving DecidableEq

/-- **A stream at work on its family.** -/
structure StreamState extends FamilyState where
  ctx : Ctx
  nextCall : ℕ

/-! ## What closing and joining do to a record

These are the parts that change a record and nothing beside it.  Whether a recording is worth
keeping is asked when its call ends. -/

/-- The duplicate's recording goes to a twin that has none. -/
def Recording.take (twin dup : Recording) : Recording :=
  if dup.audio = [] ∨ twin.audio ≠ [] then twin
  else
    { twin with
      audio := dup.audio
      audioSid := dup.audioSid
      audioSlot := dup.audioSlot
      audioSamples := dup.audioSamples }

namespace Call

/-- Is a call's audio deleted when it closes?  Encrypted and not decoded with a key, only data, or
too short. -/
def dropsAudio (k : Call) : Bool :=
  (k.encrypted && !k.sound.keyedAudio) || (k.data && !k.voice) ||
    decide (k.sound.audioSamples < kMinAudioSamples)

/-- A change of the record's recording. -/
def onSound (k : Call) (g : Recording → Recording) : Call := { k with sound := g k.sound }

/-- The record without its recording. -/
def dropSound (k : Call) : Call := k.onSound fun s => { s with audio := [], audioSamples := 0 }

/-- Rolls off the list last, or by count. -/
def setKeep (k : Call) (on : Bool) : Call := { k with keep := on }

/-- The call is over; its verdict is its analyzer's. -/
def shut (k : Call) (v : Option VoiceQuality) : Call :=
  { k with
    isOpen := false
    qual := match v with
      | some v => v.summary
      | none => k.qual }

/-- Is the call still in progress? -/
def fresh (k : Call) (now : ℤ) : Bool := k.isOpen && now - k.lastMs ≤ kContinueMs

/-- Text added once, after a separator. -/
def addText (text more : Bytes) : Bytes :=
  if more = [] ∨ has text more then text
  else if text = [] then more
  else text ++ lit " | " ++ more

/-- **The twin, with what its duplicate adds.** -/
def join (twin dup : Call) : Call :=
  { twin with
    sound := twin.sound.take dup.sound
    voice := twin.voice || dup.voice
    data := twin.data || dup.data
    emergency := twin.emergency || dup.emergency
    encrypted := twin.encrypted || dup.encrypted
    alg := if twin.kid = [] then dup.alg else twin.alg
    kid := if twin.kid = [] then dup.kid else twin.kid
    talkerAlias := if twin.talkerAlias = [] then dup.talkerAlias else twin.talkerAlias
    text := addText twin.text dup.text
    slot := if twin.slot = [] then dup.slot else twin.slot
    site := if twin.site = [] then dup.site else twin.site
    svc := if svcRank twin.svc < svcRank dup.svc then dup.svc else twin.svc
    pos := if twin.pos = [] then dup.pos else twin.pos
    startMs := min twin.startMs dup.startMs
    lastMs := max twin.lastMs dup.lastMs
    streams := twin.streams + 1
    keep := twin.keep || dup.keep }

end Call

/-! ## The slots of a stream

A stream keeps the id of the call it heard last on each slot.  The id may be of a call that has
ended since, so it is only a hint: whoever takes it looks at the record. -/

namespace Ctx

/-- A call in progress under a key. -/
def setActive (c : Ctx) (key : Bytes) (id : ℕ) : Ctx := { c with active := c.active.insert key id }

/-- No call in progress under a key. -/
def dropActive (c : Ctx) (key : Bytes) : Ctx := { c with active := c.active.erase key }

/-- The latest call of a slot. -/
def setLast (c : Ctx) (slot : Bytes) (id : ℕ) : Ctx :=
  { c with lastSlotCall := c.lastSlotCall.insert slot id }

end Ctx

/-- Point a stream's slots at another call. -/
def repoint (dup twin : ℕ) (m : SortedMap Bytes ℕ) : SortedMap Bytes ℕ :=
  m.mapVal fun _ id => if id = dup then twin else id

/-- The slots of a duplicate are its twin's. -/
def Ctx.repoint (c : Ctx) (dup twin : ℕ) (slot : Bytes) : Ctx :=
  { c with
    active := DsdServer.repoint dup twin c.active
    lastSlotCall := (DsdServer.repoint dup twin c.lastSlotCall).insert slot twin }

/-- The call in progress on a stream's slot. -/
def freshCall (c : Ctx) (F : Family) (slot : Bytes) (now : ℤ) : Option Call :=
  match c.lastSlotCall.find? slot with
  | none => none
  | some id => (F.findCall id).filter (·.fresh now)

namespace FamilyState

/-- An operation on the family's records. -/
def onFam (w : FamilyState) (g : Family → Family) : FamilyState := { w with fam := g w.fam }

/-- A call got / lost audio: it rolls off the list last.  Recorded, so a replay keeps the same
calls. -/
def setKeep (w : FamilyState) (id : ℕ) (on : Bool) (now : ℤ) : FamilyState :=
  match w.fam.findCall id with
  | none => w
  | some k =>
    if k.keep = on then w
    else
      { w with
        fam := w.fam.modifyCall id fun k => k.setKeep on
        log := w.log.write (assoclog.keepLine now w.name id on) }

/-! ## Closing

Closing a call stamps its record with the verdict of its analyzer, posts what the call turned out to
be, and settles its recording. -/

/-- The call is over, and its analyzer is done. -/
def shut (w : FamilyState) (id : ℕ) : FamilyState :=
  { w with
    fam := w.fam.modifyCall id fun k => k.shut (w.quality.find? id)
    quality := w.quality.erase id }

/-- Its audio is deleted, or final. -/
def settleSound (w : FamilyState) (id : ℕ) : FamilyState :=
  match w.fam.findCall id with
  | none => w
  | some k =>
    if k.sound.audio = [] then w
    else if k.dropsAudio then
      { w with
        store := w.store.discard k.sound.audio
        fam := w.fam.modifyCall id Call.dropSound }.setKeep id false k.lastMs
    else { w with store := w.store.finish k.sound.audio }

/-- **Close a call**, if it is open. -/
def closeCall (L : Limits) (w : FamilyState) (id : ℕ) : FamilyState :=
  match w.fam.findCall id with
  | none => w
  | some k =>
    if k.isOpen then
      ((w.shut id).settleSound id).onFam fun F => (F.countUnsourced L id).tallyClosed id
    else w

/-- Close every open call of a session. -/
def closeSessionCalls (L : Limits) (w : FamilyState) (sid : ℕ) : FamilyState :=
  (w.fam.calls.filter (·.session = sid)).foldl (fun w k => w.closeCall L k.id) w

/-- Drop the record of a call. -/
def forget (w : FamilyState) (id : ℕ) : FamilyState := w.onFam fun F => F.forget id

/-- When the list of calls without audio is full, its oldest goes. -/
def rollOff (L : Limits) (w : FamilyState) : FamilyState :=
  if reached L.calls (w.fam.calls.countP fun k => !k.keep) then
    match w.fam.calls.find? fun k => !k.keep with
    | none => w
    | some v => (w.closeCall L v.id).forget v.id
  else w

/-! ## Joining

Two streams may decode one call.  The record that is older stays, with what the other had
learned. -/

/-- **Fold a duplicate into its twin**, and drop the duplicate; of two recordings the twin's
stays. -/
def adopt (L : Limits) (w : FamilyState) (dup twin : Call) : FamilyState :=
  let w := w.onFam fun F => F.modifyCall twin.id fun t => t.join dup
  let w := if dup.sound.audio = [] ∨ twin.sound.audio = [] then w
    else { w with store := w.store.discard dup.sound.audio }
  let w := w.forget dup.id
  { w with quality := w.quality.erase dup.id }.onFam fun F => F.noteEncCounts L twin.id

end FamilyState

namespace StreamState

/-- An operation on the family and what is beside it. -/
def onFamily (st : StreamState) (g : FamilyState → FamilyState) : StreamState :=
  { st with toFamilyState := g st.toFamilyState }

/-- An operation on the family alone. -/
def onFam (st : StreamState) (g : Family → Family) : StreamState := st.onFamily fun w => w.onFam g

/-- An operation on the context alone. -/
def onCtx (st : StreamState) (g : Ctx → Ctx) : StreamState := { st with ctx := g st.ctx }

/-- The call in progress on a slot. -/
def freshCall (st : StreamState) (slot : Bytes) (now : ℤ) : Option Call :=
  DsdServer.freshCall st.ctx st.fam slot now

/-- Close a call in progress if it went quiet. -/
def expireOne (L : Limits) (now : ℤ) (st : StreamState) (e : Bytes × ℕ) : StreamState :=
  match st.fam.findCall e.2 with
  | some k =>
    if k.fresh now then st
    else (st.onFamily fun w => w.closeCall L k.id).onCtx fun c => c.dropActive e.1
  | none => st.onCtx fun c => c.dropActive e.1

/-- Close this stream's calls that went quiet. -/
def expire (L : Limits) (st : StreamState) (now : ℤ) : StreamState :=
  st.ctx.active.entries.foldl (expireOne L now) st

/-! ## Opening

A call that is opened takes the next id and a place at the end of the list, and the oldest that is
not kept makes room when the list is full. -/

/-- **Open a call on a slot.**  A real slot carries one call at a time, so its call in progress
ends; and a call rolls off when the list is full. -/
def openCall (L : Limits) (st : StreamState) (sid : ℕ) (slot : Bytes) (now : ℤ) : StreamState × ℕ :=
  let st := if slot = [] then st
    else match st.freshCall slot now with
      | some prev => st.onFamily fun w => w.closeCall L prev.id
      | none => st
  let st := st.onFamily fun w => w.rollOff L
  let id := st.nextCall + 1
  let k : Call :=
    { id := id, session := sid, slot := slot, net := st.ctx.net, site := st.ctx.site
      freq := st.ctx.freq, startMs := now, lastMs := now }
  let st := st.onFam fun F => { F with calls := F.calls ++ [k] }
  let st := st.onCtx fun c => c.setLast slot id
  ({ st with nextCall := id }, id)

/-- **Fold a duplicate into its twin**, point this stream's slots at the twin, and drop the
duplicate. -/
def adoptTwin (L : Limits) (st : StreamState) (dup twin : Call) (slot : Bytes) : StreamState :=
  (st.onFamily fun w => w.adopt L dup twin).onCtx fun c => c.repoint dup.id twin.id slot

end StreamState

end DsdServer
