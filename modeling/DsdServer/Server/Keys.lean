import DsdServer.Json.Parse
import DsdServer.Data.SortedMap

/-!
# Server/Keys — the keyring, the Basic Privacy numbers and the per-network keys

Keys entered in the explorer are normalised before they are kept: a key id is upper-case hexadecimal
of at least two digits without leading zeros, a key an even number of digits, a per-network key is
padded to the length of its kind.  What does not normalise is refused and changes nothing.
-/

open Bytes

namespace DsdServer

/-- Is it a hex digit, in either case? -/
def isXdigit (b : UInt8) : Bool := mjson.digitVal b < 16

/-! ## Normal forms

A key may be typed with blanks in it and in lower case, and a key id with `0x` in front.  The normal
form has none of this, so equal keys are equal texts. -/

/-- A number in hexadecimal without its mark. -/
def unmarked (s : Bytes) : Bytes :=
  if 2 < s.length ∧ ([ch '0', ch 'x'].isPrefixOf s ∨ [ch '0', ch 'X'].isPrefixOf s) then
    s.drop 2 else s

/-- At least so many digits. -/
def padded (digits : ℕ) (s : Bytes) : Bytes := List.replicate (digits - s.length) (ch '0') ++ s

/-- **A key id** as the explorer has it; empty when it is not hexadecimal. -/
def keyNormId (s : Bytes) : Bytes :=
  let s := unmarked s
  if s = [] ∨ !s.all isXdigit then [] else padded 2 ((upper s).dropWhile (· = ch '0'))

/-- A text without its white space. -/
def strip (s : Bytes) : Bytes := s.filter fun c => !mjson.isSpace c

/-- **A key**: an even number of hexadecimal digits, at most 64; empty when it is none. -/
def keyNormValue (s : Bytes) : Bytes :=
  let s := strip s
  if s = [] ∨ !s.all isXdigit ∨ s.length % 2 ≠ 0 ∨ 64 < s.length then [] else upper s

/-- A key of at most `digits` digits, padded to them; all-zero is not a key. -/
def hexKeyNorm (s : Bytes) (digits : ℕ) : Bytes :=
  let s := strip s
  if s = [] ∨ !s.all isXdigit ∨ digits < s.length ∨ s.all (· = ch '0') then []
  else padded digits (upper s)

/-! ## Kinds of per-network keys -/

/-- A kind of per-network key; a forced one applies to every voice frame on the channel. -/
structure NetKeyKind where
  id : Bytes
  digits : ℕ
  forced : Bool
  allow256 : Bool
  deriving DecidableEq

/-- The kinds of per-network keys there are. -/
def netKeyKinds : List NetKeyKind :=
  [⟨lit "ep", 10, false, false⟩, ⟨lit "tytep", 32, true, false⟩, ⟨lit "tytbp", 4, true, false⟩,
    ⟨lit "anybp", 4, true, false⟩, ⟨lit "tytap", 32, true, true⟩, ⟨lit "bfap", 32, true, true⟩,
    ⟨lit "rtap", 32, true, true⟩]

def netKeyKind (id : Bytes) : Option NetKeyKind := netKeyKinds.find? fun k => id = k.id

/-- The normal form of a key of a kind; nothing, if it is no such key. -/
def netKeyNorm (k : NetKeyKind) (s : Bytes) : Bytes :=
  if k.allow256 ∧ (strip s).length = 64 then hexKeyNorm (strip s) 64
  else hexKeyNorm (strip s) k.digits

/-! ## The store

Keys are filed by family and network.  The ring has several for a network, by key id; of the other
two stores a network has one number, or one key of each kind. -/

structure KeyEntry where
  alg : Bytes := []
  value : Bytes := []
  added : ℤ := 0
  deriving DecidableEq

/-- Protocol, network and key id to key. -/
abbrev KeyRing := SortedMap Bytes (SortedMap Bytes (SortedMap Bytes KeyEntry))

/-- Protocol and network to key. -/
abbrev NetSecrets := SortedMap Bytes (SortedMap Bytes Bytes)

/-- **The keys the server holds.** -/
structure KeyStore where
  keys : KeyRing := ∅
  bp : SortedMap Bytes (SortedMap Bytes ℤ) := ∅
  netKeys : SortedMap Bytes NetSecrets := ∅
  version : ℕ := 0
  deriving DecidableEq

/-- Put a value under two keys. -/
def put {V : Type} (m : SortedMap Bytes (SortedMap Bytes V)) (fam net : Bytes) (v : V) :
    SortedMap Bytes (SortedMap Bytes V) :=
  m.insert fam ((m.getD fam ∅).insert net v)

/-- Take a key out of a map; none is left empty. -/
def takeOut (m : NetSecrets) (fam net : Bytes) : NetSecrets :=
  let n := (m.getD fam ∅).erase net
  if n.isEmpty then m.erase fam else m.insert fam n

/-- Set a key; nothing when its id or value is malformed. -/
def keyringSet (r : KeyRing) (fam net kid alg value : Bytes) (now : ℤ) : Option KeyRing :=
  if fam = [] ∨ net = [] then none
  else if keyNormId kid = [] ∨ keyNormValue value = [] then none
  else some (put r fam net (((r.getD fam ∅).getD net ∅).insert (keyNormId kid)
    ⟨keyNormId alg, keyNormValue value, now⟩))

namespace KeyStore

/-- Set a key of the keyring. -/
def setKey (st : KeyStore) (fam net kid alg value : Bytes) (now : ℤ) : Option KeyStore :=
  (keyringSet st.keys fam net kid alg value now).map fun r =>
    { st with keys := r, version := st.version + 1 }

/-- Set a Basic Privacy key number. -/
def setBp (st : KeyStore) (fam net : Bytes) (number : ℤ) : Option KeyStore :=
  if fam = [] ∨ net = [] ∨ number < 1 ∨ 255 < number then none
  else some { st with bp := put st.bp fam net number, version := st.version + 1 }

/-- Remove a key; a map that is left empty goes too. -/
def eraseNetKey (st : KeyStore) (kind fam net : Bytes) : KeyStore :=
  match st.netKeys.find? kind with
  | none => st
  | some m =>
    if (m.getD fam ∅).contains net then
      let m := takeOut m fam net
      { st with netKeys := if m.isEmpty then st.netKeys.erase kind else st.netKeys.insert kind m }
    else st

/-- Forget a network's keys of the other forced kinds. -/
def dropForced (st : KeyStore) (kind fam net : Bytes) : KeyStore :=
  (netKeyKinds.filter fun o => o.forced && o.id ≠ kind).foldl
    (fun st o => st.eraseNetKey o.id fam net) st

/-- Set a per-network key; a network has one forced key at most. -/
def setNetKey (st : KeyStore) (kind fam net value : Bytes) : Option KeyStore :=
  match netKeyKind kind with
  | none => none
  | some k =>
    let v := netKeyNorm k value
    if fam = [] ∨ net = [] ∨ v = [] then none
    else
      let st := if k.forced then st.dropForced kind fam net else st
      some { st with
        netKeys := st.netKeys.insert kind (put (st.netKeys.getD kind ∅) fam net v)
        version := st.version + 1 }

end KeyStore

/-! ## What is accepted

A normalisation gives the empty text for what it refuses.  So each lemma here says, of every text,
whether it is accepted. -/

/-- Hexadecimal digits, at least one. -/
def Hex (s : Bytes) : Prop := s ≠ [] ∧ ∀ c ∈ s, isXdigit c

/-- A key the keyring takes: up to 64 digits, an even number of them. -/
def KeyValue (s : Bytes) : Prop := Hex (strip s) ∧ (strip s).length % 2 = 0 ∧ (strip s).length ≤ 64

/-- A key of a kind: up to its digits, or 64 where the kind has such keys, and not all zero. -/
def NetKeyValue (k : NetKeyKind) (s : Bytes) : Prop :=
  Hex (strip s) ∧ (∃ c ∈ strip s, c ≠ ch '0') ∧
    ((strip s).length ≤ k.digits ∨ k.allow256 ∧ (strip s).length = 64)

theorem strip_strip (s : Bytes) : strip (strip s) = strip s := by
  simp [strip, List.filter_filter]

/-- A padded text is empty when it was and no padding is asked for. -/
theorem padded_eq_nil {n : ℕ} {s : Bytes} : padded n s = [] ↔ n = 0 ∧ s = [] := by
  simp only [padded, List.append_eq_nil_iff, List.replicate_eq_nil_iff]
  constructor
  · rintro ⟨h, rfl⟩
    exact ⟨by simpa using h, rfl⟩
  · rintro ⟨rfl, rfl⟩
    exact ⟨rfl, rfl⟩

/-- **A key id is refused** unless it is hex digits. -/
theorem keyNormId_eq_nil {s : Bytes} : keyNormId s = [] ↔ ¬ Hex (unmarked s) := by
  simp only [keyNormId, Hex]
  split_ifs with h
  · simp only [Bool.not_eq_true', List.all_eq_false] at h
    simp only [true_iff]
    rintro ⟨h1, h2⟩
    obtain h | ⟨c, hc, hx⟩ := h
    · exact h1 h
    · exact hx (h2 c hc)
  · simp_all [padded_eq_nil]

/-- **A key is refused** unless it has the form of one. -/
theorem keyNormValue_eq_nil {s : Bytes} : keyNormValue s = [] ↔ ¬ KeyValue s := by
  simp only [keyNormValue, KeyValue, Hex]
  split_ifs with h
  · simp only [true_iff]
    rintro ⟨⟨h1, h2⟩, h3, h4⟩
    rcases h with h | h | h | h
    · exact h1 h
    · simp only [Bool.not_eq_true', List.all_eq_false] at h
      obtain ⟨c, hc, hx⟩ := h
      exact hx (h2 c hc)
    · exact h h3
    · omega
  · push Not at h
    obtain ⟨h1, h2, h3, h4⟩ := h
    simp only [upper, List.map_eq_nil_iff, h1, false_iff, not_not]
    exact ⟨⟨h1, by simpa using h2⟩, h3, h4⟩

/-- A per-network key of hex digits is refused when it is too long or all zeros. -/
theorem hexKeyNorm_eq_nil {s : Bytes} {n : ℕ} : hexKeyNorm s n = [] ↔
    ¬ (Hex (strip s) ∧ (∃ c ∈ strip s, c ≠ ch '0') ∧ (strip s).length ≤ n) := by
  simp only [hexKeyNorm, Hex]
  split_ifs with h
  · simp only [true_iff]
    rintro ⟨⟨h1, h2⟩, ⟨c, hc, h3⟩, h4⟩
    rcases h with h | h | h | h
    · exact h1 h
    · simp only [Bool.not_eq_true', List.all_eq_false] at h
      obtain ⟨d, hd, hx⟩ := h
      exact hx (h2 d hd)
    · omega
    · exact h3 (by simpa using List.all_eq_true.1 h c hc)
  · push Not at h
    obtain ⟨h1, h2, h3, h4⟩ := h
    simp only [padded_eq_nil, upper, List.map_eq_nil_iff, h1, and_false, false_iff, not_not]
    exact ⟨⟨h1, by simpa using h2⟩, by simpa using h4, h3⟩

/-- **A per-network key is refused** unless it has the form of its kind. -/
theorem netKeyNorm_eq_nil {k : NetKeyKind} {s : Bytes} :
    netKeyNorm k s = [] ↔ ¬ NetKeyValue k s := by
  unfold netKeyNorm NetKeyValue
  split_ifs with h
  · rw [hexKeyNorm_eq_nil, strip_strip]
    simp [h]
  · rw [hexKeyNorm_eq_nil, strip_strip]
    simp [h]

end DsdServer
