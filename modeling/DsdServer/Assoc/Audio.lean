import DsdServer.Assoc.Model

/-!
# Assoc/Audio — decoded voice, call by call

A block of audio goes to the call in progress on its slot.  A block that arrives before its call is
decoded is held for a second and put at the start of the call's file.  Nothing is recorded for an
encrypted call unless the stream has a key for it.

A block is routed in several steps: the call is found, the block may be moved to a voice call on
another slot, the gate decides whether the call may be recorded at all, and only then is a file
opened or written.
-/

open Bytes

namespace DsdServer

/-- Audio held before its call is decoded. -/
def kPrerollMs : ℤ := 1000

/-- The same second, in samples. -/
def kPrerollSamples : ℕ := 8000

/-- The loudest sample of a block. -/
def peak (pcm : List Sample) : ℤ := pcm.foldl (fun m x => max m |x.value|) 0

/-- An audio slot, as events name it. -/
def slotName (slot : ℤ) : Bytes := decInt slot

/-- The call of two that was heard later, the first when it is a tie. -/
def later (k x : Option Call) : Option Call :=
  match k, x with
  | none, x => x
  | some k, none => some k
  | some k, some x => if k.lastMs < x.lastMs then some x else some k

namespace AssocModel

/-- The call in progress on a slot of a session's stream. -/
def freshOn (s : AssocModel) (sid : ℕ) (slot : Bytes) (now : ℤ) : Option Call :=
  let c := s.ctx sid
  freshCall c (s.family c.family) slot now

/-- The call a block on an audio slot belongs to. -/
def audioCall (s : AssocModel) (sid : ℕ) (slot now : ℤ) : Option Call :=
  if slot = 1 ∨ slot = 2 then
    match s.freshOn sid (slotName slot) now with
    | some k => some k
    | none => if slot = 1 then s.freshOn sid [] now else none
  else
    later (later (s.freshOn sid [] now) (s.freshOn sid (lit "1") now)) (s.freshOn sid (lit "2") now)

/-- The voice call a block belongs to when it came on a data call's slot: the latest on the other
slots, with its audio slot. -/
def voiceElsewhere (s : AssocModel) (sid : ℕ) (k : Call) (now : ℤ) : Option (Call × ℤ) :=
  [(lit "1", 1), (lit "2", 2), ([], 0)].foldl (fun (v : Option (Call × ℤ)) e =>
    match s.freshOn sid e.1 now with
    | none => v
    | some x =>
      if x.id = k.id ∨ (x.data ∧ ¬x.voice) then v
      else
        match v with
        | none => some (x, e.2)
        | some y => if y.1.lastMs < x.lastMs then some (x, e.2) else v) none

/-- Hold a block whose call is not decoded yet. -/
def hold (s : AssocModel) (sid : ℕ) (slot : ℤ) (pcm : List Sample) (now : ℤ) : AssocModel :=
  let c := s.ctx sid
  let p := c.preroll.getD slot {}
  let p : Preroll := if kPrerollMs < now - p.last then { p with pcm := [], audible := false } else p
  let all := p.pcm ++ pcm
  let p : Preroll :=
    { pcm := all.drop (all.length - kPrerollSamples)
      last := now
      audible := p.audible || decide (kAudiblePeak ≤ peak pcm) }
  s.setCtx sid { c with preroll := c.preroll.insert slot p }

/-- An operation on the family of a session's stream. -/
def onDesk (s : AssocModel) (sid : ℕ) (g : FamilyState → FamilyState) : AssocModel :=
  s.putDesk (g (s.desk (s.ctx sid).family))

/-- Change the recording of a call of the stream's family. -/
def onSound (s : AssocModel) (sid id : ℕ) (g : Recording → Recording) : AssocModel :=
  s.onDesk sid fun w => w.onFam fun F => F.modifyCall id fun k => k.onSound g

/-- Nothing of an encrypted call is recorded without a key, and what was is deleted. -/
def refuse (s : AssocModel) (sid : ℕ) (k : Call) (now : ℤ) : AssocModel :=
  let s := s.onSound sid k.id fun r => { r with noAudio := true }
  let s := if k.sound.audio = [] then s
    else
      let s := { s with store := s.store.discard k.sound.audio }
      (s.onSound sid k.id fun r => { r with audio := [] }).bumpVersion
  s.onDesk sid fun w => w.setKeep k.id false now

/-- The audio held for a slot, and from before the slot was known, oldest first. -/
def heldFor (c : Ctx) (slot now : ℤ) : List Preroll :=
  let usable (ps : ℤ) : Option Preroll :=
    (c.preroll.find? ps).filter fun p => !p.pcm.isEmpty && decide (now - p.last ≤ kPrerollMs)
  if slot = 0 then (usable 0).toList
  else
    match usable 0, usable slot with
    | some x, some y => if y.last < x.last then [y, x] else [x, y]
    | x, y => x.toList ++ y.toList

/-- The held audio of the slots is used up. -/
def clearHeld (c : Ctx) (slot : ℤ) : Ctx :=
  { c with preroll := [0, slot].foldl (fun m ps =>
      m.insert ps { m.getD ps {} with pcm := [], audible := false }) c.preroll }

/-- Append audio to a call's file. -/
def pour (s : AssocModel) (sid id : ℕ) (name : Bytes) (pcm : List Sample) (now : ℤ) : AssocModel :=
  { s with store := s.store.append name pcm now }.onSound sid id fun r =>
    { r with audioSamples := r.audioSamples + pcm.length }

/-- Start a call's file with the audio held for it. -/
def openRecording (s : AssocModel) (sid : ℕ) (k : Call) (slot : ℤ) (store : CallAudioStore)
    (name : Bytes) (held : List Preroll) (now : ℤ) : AssocModel :=
  let s := { s with store := store }
  let s := s.onSound sid k.id fun r => { r with audio := name, audioSid := sid, audioSlot := slot }
  let s := s.onDesk sid fun w => w.setKeep k.id true now
  let s := held.foldl (fun s h => s.pour sid k.id name h.pcm now) s
  (s.setCtx sid (clearHeld (s.ctx sid) slot)).bumpVersion

/-- The call whose audio a file is, with its family. -/
def holder (s : AssocModel) (name : Bytes) : Option (Bytes × Call) :=
  s.fams.entries.findSome? fun f =>
    (f.2.calls.find? fun k => k.sound.audio = name).map fun k => (f.1, k)

/-- The call of a file the store deleted loses its audio, and rolls off by count. -/
def dropEvicted (now : ℤ) (s : AssocModel) (name : Bytes) : AssocModel :=
  match s.holder name with
  | none => s
  | some (f, k) => s.putDesk (((s.desk f).setKeep k.id false now).onFam fun F =>
      F.modifyCall k.id Call.dropSound)

/-- Take note of the files the store deleted. -/
def reconcileEvicted (s : AssocModel) (now : ℤ) : AssocModel :=
  let gone := s.store.evicted
  if gone.isEmpty then s
  else
    let s := { s with store := { s.store with evicted := [] } }
    let changed := gone.any fun name => (s.holder name).isSome
    let s := gone.foldl (dropEvicted now) s
    if changed then s.bumpVersion else s

/-- Append a block to its call's file. -/
def appendBlock (s : AssocModel) (sid id : ℕ) (name : Bytes) (pcm : List Sample) (now : ℤ) :
    AssocModel :=
  (s.pour sid id name pcm now).reconcileEvicted now

/-- Store a block on its call: in the call's file when it comes from the stream and slot recording
it, in a new file when there is none and something is audible. -/
def storeBlock (s : AssocModel) (sid : ℕ) (k : Call) (slot : ℤ) (pcm : List Sample)
    (creatable : Bool) (now : ℤ) : AssocModel :=
  if k.sound.audio = [] then
    let held := heldFor (s.ctx sid) slot now
    if peak pcm < kAudiblePeak ∧ ¬held.any (·.audible) then s
    else
      let name := CallAudioStore.makeName k.startMs s.instanceId k.id
      match s.store.openFile name creatable now with
      | none => s
      | some store =>
        (s.openRecording sid k slot store name held now).appendBlock sid k.id name pcm now
  else if k.sound.audioSid ≠ sid ∨
      (k.sound.audioSlot ≠ slot ∧ k.sound.audioSlot ≠ 0 ∧ slot ≠ 0) then s
  else
    let s := if k.sound.audioSlot = 0 ∧ slot ≠ 0 then
        s.onSound sid k.id fun r => { r with audioSlot := slot }
      else s
    s.appendBlock sid k.id k.sound.audio pcm now

/-- The gate of a call's recording: nothing once it is refused, nothing of an encrypted call without
a key. -/
def gateBlock (s : AssocModel) (sid : ℕ) (k : Call) (slot : ℤ) (pcm : List Sample) (keyed : Bool)
    (creatable : Bool) (now : ℤ) : AssocModel :=
  if k.sound.noAudio then s
  else if k.encrypted ∧ ¬keyed then s.refuse sid k now
  else
    let s := if keyed then
        s.onSound sid k.id fun r => { r with keyedAudio := true }
      else s
    s.storeBlock sid k slot pcm creatable now

/-- A block on its way to its call: held when there is none, and kept off a data call. -/
def routeBlock (s : AssocModel) (sid : ℕ) (slot : ℤ) (pcm : List Sample) (keyed creatable : Bool)
    (now : ℤ) : AssocModel :=
  match s.audioCall sid slot now with
  | none => if peak pcm = 0 then s else s.hold sid slot pcm now
  | some k =>
    if k.data ∧ ¬k.voice then
      if peak pcm = 0 then s
      else
        match s.voiceElsewhere sid k now with
        | none => s
        | some (v, vslot) => s.gateBlock sid v vslot pcm keyed creatable now
    else s.gateBlock sid k slot pcm keyed creatable now

/-- **Decoded voice from a session's decoder**, on an audio slot (0 for a single-channel decoder);
`keyed` when the session has a key, `creatable` when the folder lets a file be created. -/
def audio (s : AssocModel) (sid : ℕ) (slot : ℤ) (pcm : List ℤ) (keyed creatable : Bool)
    (now : ℤ) : AssocModel :=
  if !s.audioOn || pcm.isEmpty || !s.store.on then s
  else
    match s.sess.find? sid with
    | none => s
    | some c =>
      if !c.live || !s.fams.contains c.family then s
      else s.routeBlock sid slot (pcm.map fun x => ⟨x, keyed⟩) keyed creatable now

/-- Record decoded voice per call, into a folder listing these files, oldest first. -/
def startAudio (s : AssocModel) (listing : List AudioEntry) (cap : ℕ) (maxAge now : ℤ) :
    AssocModel :=
  if s.store.on then s
  else
    (({ s with store := s.store.enable listing cap maxAge now, audioOn := true }).reconcileEvicted
      now).bumpVersion

/-- Record no more; the open files are final. -/
def stopAudio (s : AssocModel) : AssocModel :=
  bumpVersion { s with
    audioOn := false
    store := s.store.disable
    sess := s.sess.mapVal fun _ c => { c with preroll := ∅ } }

end AssocModel

/-! ## Inputs and runs

The inputs are what the sessions and the user do to the model.  Every one of them carries its time,
so a run is a fold, and depends on nothing but its inputs. -/

/-- **An input of the model.** -/
inductive Op
  | begin (sid : ℕ) (label : Bytes) (now : ℤ) (family : Bytes) (freq : ℤ)
  | retune (sid : ℕ) (freq : ℤ) (now : ℤ)
  | event (sid : ℕ) (ev : DsdEvent) (now : ℤ)
  | audio (sid : ℕ) (slot : ℤ) (pcm : List ℤ) (keyed creatable : Bool) (now : ℤ)
  | finish (sid : ℕ) (now : ℤ)
  | remove (sid : ℕ) (now : ℤ)
  | clear (now : ℤ)
  | startAudio (listing : List AudioEntry) (cap : ℕ) (maxAge now : ℤ)
  | stopAudio

namespace AssocModel

/-- An input, under given limits. -/
def stepWith (L : Limits) (s : AssocModel) : Op → AssocModel
  | .begin sid label now family freq => s.beginStream L sid label now family freq
  | .retune sid freq now => s.retuneStream L sid freq now
  | .event sid ev now => s.ingest L sid ev now
  | .audio sid slot pcm keyed creatable now => s.audio sid slot pcm keyed creatable now
  | .finish sid now => s.endStream L sid now
  | .remove sid now => s.removeSession L sid now
  | .clear now => s.clear now
  | .startAudio listing cap maxAge now => s.startAudio listing cap maxAge now
  | .stopAudio => s.stopAudio

/-- **An input of the model**, under the model's own limits. -/
def step (s : AssocModel) (op : Op) : AssocModel := s.stepWith s.limits op

/-- A run. -/
def run (s : AssocModel) (ops : List Op) : AssocModel := ops.foldl step s

end AssocModel

end DsdServer
