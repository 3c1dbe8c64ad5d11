import DsdServer.Assoc.Types
import DsdServer.Data.Wrap
import DsdServer.Json.Value

/-!
# Merge/Dataset — the explorer's data in plain form

What an export holds and what the layers of a view are: per family the networks, talkgroups, radios
and calls, the spans of time the data covers, and the rules saying which networks are shown as one.
-/

open Bytes

namespace DsdServer

/-! ## Counters

The counters and the tallies of a dataset are of 64 bits, and an imported file may put any number of
64 bits into one.  Where two are added up, the sum wraps. -/

/-- The sum of two counters. -/
def add64 (a b : ℕ) : ℕ := (a + b) % 2 ^ 64

/-- A sum as counters make it is the sum, up to whole turns. -/
theorem turns_add64 (a b : ℕ) : Turns (2 ^ 64) (add64 a b) (a + b) := Turns.mod ..

theorem add64_of_lt {a b : ℕ} (h : a + b < 2 ^ 64) : add64 a b = a + b := Nat.mod_eq_of_lt h

/-! ## Entities and calls

These are the records of the model without what only a running server needs.  A call of a dataset is
history, but for one thing: its audio may be found under a name. -/

structure DsNetwork where
  key : Bytes := []
  label : Bytes := []
  confidence : Bytes := []
  ids : SortedMap Bytes Bytes := ∅
  sites : SortedSet Bytes := ∅
  freqs : SortedSet ℤ := ∅
  sessions : ℕ := 0
  calls : ℕ := 0
  first : ℤ := 0
  last : ℤ := 0
  keys : SortedMap Bytes ℕ := ∅
  deriving DecidableEq

structure DsTalkgroup where
  id : Bytes := []
  radios : SortedMap Bytes ℕ := ∅
  networks : SortedSet Bytes := ∅
  calls : ℕ := 0
  emerg : ℕ := 0
  enc : ℕ := 0
  first : ℤ := 0
  last : ℤ := 0
  keys : SortedMap Bytes ℕ := ∅
  deriving DecidableEq

structure DsRadio where
  id : Bytes := []
  aliases : List Bytes := []
  tgs : SortedMap Bytes ℕ := ∅
  peers : SortedMap Bytes ℕ := ∅
  networks : SortedSet Bytes := ∅
  keys : SortedMap Bytes ℕ := ∅
  calls : ℕ := 0
  first : ℤ := 0
  last : ℤ := 0
  pos : Bytes := []
  posT : ℤ := 0
  track : List (ℤ × Bytes) := []
  deriving DecidableEq

/-- A voice-quality verdict as exported. -/
structure DsQuality where
  qual : Bytes := []
  qsil : Double := .finite 0
  qrep : Double := .finite 0
  qerr : Double := .finite 0
  qframes : ℕ := 0
  deriving DecidableEq

structure DsCall where
  id : ℕ := 0
  session : ℕ := 0
  streams : ℕ := 1
  net : Bytes := []
  site : Bytes := []
  slot : Bytes := []
  src : Bytes := []
  tgt : Bytes := []
  talkerAlias : Bytes := []
  text : Bytes := []
  svc : Bytes := []
  pos : Bytes := []
  priv : Bool := false
  voice : Bool := false
  data : Bool := false
  emerg : Bool := false
  enc : Bool := false
  isOpen : Bool := false
  alg : Bytes := []
  kid : Bytes := []
  start : ℤ := 0
  last : ℤ := 0
  freq : ℤ := 0
  audio : Bytes := []
  audioMs : ℕ := 0
  quality : DsQuality := {}
  deriving DecidableEq

/-- All that a dataset holds of one protocol. -/
structure DsFamily where
  networks : SortedMap Bytes DsNetwork := ∅
  tgs : SortedMap Bytes DsTalkgroup := ∅
  radios : SortedMap Bytes DsRadio := ∅
  /-- newest first -/
  calls : List DsCall := []
  deriving DecidableEq

instance : Inhabited DsFamily := ⟨{}⟩

/-- One server run's contribution: its data from `since` through `through`. -/
structure DsSource where
  instanceId : Bytes := []
  name : Bytes := []
  since : ℤ := 0
  through : ℤ := 0
  deriving DecidableEq

/-- **Network merge rules**, per family: a network key → the key it is shown under. -/
abbrev NetMerges := SortedMap Bytes (SortedMap Bytes Bytes)

/-- **A dataset**: its protocols, where it comes from, and the rules it is shown by. -/
structure Dataset where
  /-- import id -/
  id : ℕ := 0
  label : Bytes := []
  exported : ℤ := 0
  sources : List DsSource := []
  fams : SortedMap Bytes DsFamily := ∅
  merges : NetMerges := ∅
  deriving DecidableEq

/-! ## Merge rules

A rule leads a network key to the key it is shown under.  The rules of a protocol are kept flat, so
that one lookup leads there. -/

/-- Rules kept per protocol. -/
def kMaxMergesPerFamily : ℕ := 500

/-- The key a network is shown under. -/
def mergeRoot (m : NetMerges) (fam key : Bytes) : Bytes :=
  match m.find? fam with
  | none => key
  | some F => F.getD key key

/-- **Show `frm`, and whatever is merged into it, under the network of `dst`.**  `none` when nothing
changes. -/
def mergesAdd (m : NetMerges) (fam frm dst : Bytes) : Option NetMerges :=
  if fam = [] ∨ frm = [] ∨ dst = [] then none
  else
    let r := mergeRoot m fam dst
    if r = frm ∨ mergeRoot m fam frm = r then none
    else
      let F := m.getD fam ∅
      if frm ∉ F ∧ kMaxMergesPerFamily ≤ F.size then none
      else some (m.insert fam ((F.insert frm r).mapVal fun _ v => if v = frm then r else v))

/-- The rules after an attempt to add one. -/
def mergesAdd' (m : NetMerges) (fam frm dst : Bytes) : NetMerges :=
  (mergesAdd m fam frm dst).getD m

/-- **Undo a merge**: a merged network goes back to being its own; a network others were merged into
lets all of them go.  The rules after, and whether anything changed. -/
def mergesRemove (m : NetMerges) (fam key : Bytes) : NetMerges × Bool :=
  match m.find? fam with
  | none => (m, false)
  | some F =>
    let F' := if key ∈ F then F.erase key else F.filter fun _ v => v ≠ key
    (if F'.isEmpty then m.erase fam else m.insert fam F', decide (key ∈ F ∨ F'.size ≠ F.size))

/-- Add another dataset's rules where these have no say on the network yet. -/
def mergesUnion (m n : NetMerges) : NetMerges :=
  n.entries.foldl (fun m f => f.2.entries.foldl (fun m kv =>
    if kv.1 ∈ m.getD f.1 ∅ then m else mergesAdd' m f.1 kv.1 kv.2) m) m

end DsdServer
