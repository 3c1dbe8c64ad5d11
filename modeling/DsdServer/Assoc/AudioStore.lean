import DsdServer.Assoc.Types

/-!
# Assoc/AudioStore — the call audio files

One file per call, in one folder.  The store indexes its files, oldest first, tracks their total
size, and deletes the oldest finished ones past its size or age limit; the names of those are kept
until the model takes them.  A file being written is never deleted for space.

`disk` is what the files hold, sample by sample.

A file has a header of 44 bytes and two bytes a sample.  Here a file is its samples, and the sizes
are kept in the index as the source keeps them.
-/

open Bytes

namespace DsdServer

/-- An indexed file. -/
structure AudioEntry where
  name : Bytes
  bytes : ℕ
  mtime : ℤ
  deriving DecidableEq

/-- **The store**: its settings, its index, the files that are open, and the folder. -/
structure CallAudioStore where
  on : Bool := false
  cap : ℕ := 0
  total : ℕ := 0
  maxAge : ℤ := 0
  /-- oldest first -/
  index : List AudioEntry := []
  /-- the files being written, and their samples so far -/
  opened : SortedMap Bytes ℕ := ∅
  /-- finished files the limits deleted -/
  evicted : List Bytes := []
  disk : SortedMap Bytes (List Sample) := ∅
  deriving DecidableEq

namespace CallAudioStore

/-- `call_….wav` with a safe alphabet. -/
def validName (n : Bytes) : Bool :=
  10 ≤ n.length && n.length ≤ 96 && (lit "call_").isPrefixOf n && (lit ".wav").isSuffixOf n &&
    n.all (fun c => isAlnum c || c == ch '_' || c == ch '-' || c == ch '.') && !has n (lit "..")

/-- The name of a call's file. -/
def makeName (startMs : ℤ) (instanceId : Bytes) (callId : ℕ) : Bytes :=
  let inst := (instanceId.filter isAlnum).take 8
  (lit "call_" ++ decInt startMs ++ lit "_" ++ (if inst = [] then lit "x" else inst) ++ lit "_" ++
    dec callId ++ lit ".wav").take 95

/-- Delete the oldest finished files until the rest is within the limits: what stays of the index,
the total, and the names deleted. -/
def sweep (s : CallAudioStore) (now : ℤ) : List AudioEntry → ℕ → List AudioEntry × ℕ × List Bytes
  | [], total => ([], total, [])
  | e :: l, total =>
    if s.cap < total ∨ (0 < s.maxAge ∧ s.maxAge < now - e.mtime) then
      if s.opened.contains e.name then
        let (kept, total, gone) := s.sweep now l total
        (e :: kept, total, gone)
      else
        let (kept, total, gone) := s.sweep now l (total - e.bytes)
        (kept, total, e.name :: gone)
    else (e :: l, total, [])

/-- Apply the limits, oldest file first. -/
def enforce (s : CallAudioStore) (now : ℤ) : CallAudioStore :=
  let (kept, total, gone) := s.sweep now s.index s.total
  { s with
    index := kept
    total := total
    evicted := s.evicted ++ gone
    disk := gone.foldl (fun d n => d.erase n) s.disk }

/-- Start recording: the folder's files, oldest first, join the index. -/
def enable (s : CallAudioStore) (listing : List AudioEntry) (cap : ℕ) (maxAge now : ℤ) :
    CallAudioStore :=
  enforce
    { s with
      on := true
      cap := cap
      maxAge := maxAge
      index := listing
      total := (listing.map AudioEntry.bytes).sum } now

/-- Stop recording: every open file is final. -/
def disable (s : CallAudioStore) : CallAudioStore := { s with on := false, opened := ∅ }

/-- Create the file of a call; `creatable` is whether the folder lets it. -/
def openFile (s : CallAudioStore) (name : Bytes) (creatable : Bool) (now : ℤ) :
    Option CallAudioStore :=
  if !s.on || !validName name || s.opened.contains name || !creatable then none
  else some
    { s with
      opened := s.opened.insert name 0
      index := s.index ++ [⟨name, 44, now⟩]
      total := s.total + 44
      disk := s.disk.insert name [] }

/-- Change the first index entry with a name. -/
def touchEntry (name : Bytes) (g : AudioEntry → AudioEntry) : List AudioEntry → List AudioEntry
  | [] => []
  | e :: l => if e.name = name then g e :: l else e :: touchEntry name g l

/-- **Write a block** to an open file; a total past the cap has the limits applied. -/
def append (s : CallAudioStore) (name : Bytes) (pcm : List Sample) (now : ℤ) : CallAudioStore :=
  if !s.opened.contains name || pcm.isEmpty then s
  else
    let n := pcm.length
    let s := { s with
      disk := s.disk.modify name (· ++ pcm)
      opened := s.opened.modify name (· + n)
      total := s.total + 2 * n
      index :=
        touchEntry name (fun e => { e with bytes := e.bytes + 2 * n, mtime := now }) s.index }
    if s.cap < s.total then s.enforce now else s

/-- The call ended: its file is final. -/
def finish (s : CallAudioStore) (name : Bytes) : CallAudioStore :=
  { s with opened := s.opened.erase name }

/-- Drop a call's audio. -/
def discard (s : CallAudioStore) (name : Bytes) : CallAudioStore :=
  let s := { s with opened := s.opened.erase name }
  match s.index.find? (·.name = name) with
  | none => s
  | some e =>
    { s with
      total := s.total - e.bytes
      index := s.index.eraseP (·.name = name)
      disk := s.disk.erase name }

/-- Delete every finished file. -/
def removeAll (s : CallAudioStore) : CallAudioStore :=
  let gone := s.index.filter fun e => !s.opened.contains e.name
  { s with
    index := s.index.filter fun e => s.opened.contains e.name
    total := gone.foldl (fun t e => t - e.bytes) s.total
    disk := gone.foldl (fun d e => d.erase e.name) s.disk }

end CallAudioStore

end DsdServer
