import DsdServer.Data.SortedMap
import DsdServer.Json.Parse

/-!
# Tetra/KitJson — the reports of the second TETRA decoder, scanned

A scanner goes over a line by its index and keeps the members that are strings or scalars;
containers it skips by counting the brackets of one kind.  Every character it looks at is read with
a check.  Below it the same scanner goes over what is left of the line: `parseTetrakitJson_eq` says
that the two agree on every line, and so that the first ends and reads nothing that is not there.

That the two agree is shown function by function, for an index and what is left of the line from it
on.  The second scanner is by recursion on the text, so it ends by its form; with the agreement the
bounds that the first one is given are shown to be enough.
-/

open Bytes

namespace DsdServer

namespace tetrakit

open mjson (digitVal utf8 unescape)

/-! ## The scanner, by index

Each loop of the source is a function with a bound on its steps, and a read beyond the line is a
fault.  That neither the bound nor a fault is ever met is what is proved. -/

/-- Why the scanner gives no report: it is still going on, or it read a character that is not
there. -/
inductive Fault
  | going
  | badRead
  deriving DecidableEq

/-- The byte at an index; a fault when there is none. -/
def charAt (s : Bytes) (i : ℕ) : Except Fault UInt8 :=
  match s[i]? with
  | some c => .ok c
  | none => .error .badRead

/-- `n` more digits of a number. -/
def hexLoop (s : Bytes) : ℕ → ℕ → ℕ → Except Fault (Option ℕ)
  | 0, _, out => .ok (some out)
  | n + 1, k, out => do
    let h ← charAt s k
    if digitVal h < 16 then hexLoop s n (k + 1) (out * 16 + digitVal h) else return none

/-- Four hex digits from an index on. -/
def hex4 (s : Bytes) (pos : ℕ) : Except Fault (Option ℕ) :=
  if pos + 4 > s.length then .ok none else hexLoop s 4 pos 0

/-- The code point of a surrogate pair. -/
def ofSurrogates (hi lo : ℕ) : ℕ := 0x10000 + (hi - 0xD800) * 0x400 + (lo - 0xDC00)

/-- The first half of a pair. -/
def isHigh (cp : ℕ) : Bool := 0xD800 ≤ cp && cp ≤ 0xDBFF

/-- The second half of a pair. -/
def isLow (cp : ℕ) : Bool := 0xDC00 ≤ cp && cp ≤ 0xDFFF

/-- The second half of a surrogate pair at `i`, if there is one. -/
def lowSurrogate (s : Bytes) (i : ℕ) : Except Fault (Option ℕ) :=
  if i + 1 < s.length then do
    if (← charAt s i) = ch '\\' then
      if (← charAt s (i + 1)) = ch 'u' then return (← hex4 s (i + 2)).filter isLow else return none
    else return none
  else .ok none

/-- The code point of the escape at `i`, and where it ends: of a surrogate pair when there is
one. -/
def codePoint (s : Bytes) (i : ℕ) : Except Fault (Option (ℕ × ℕ)) := do
  match ← hex4 s (i + 2) with
  | none => return none
  | some cp =>
    if isHigh cp then
      match ← lowSurrogate s (i + 6) with
      | some lo => return some (ofSurrogates cp lo, i + 12)
      | none => return some (cp, i + 6)
    else return some (cp, i + 6)

/-- The contents of a string from `i` on, and where it ends. -/
def stringLoop (s : Bytes) : ℕ → ℕ → Bytes → Except Fault (Bytes × ℕ)
  | 0, _, _ => .error .going
  | fuel + 1, i, out =>
    if i < s.length then do
      let c ← charAt s i
      if c = ch '"' then return (out, i + 1)
      else if c = ch '\\' ∧ i + 1 < s.length then
        let e ← charAt s (i + 1)
        if e = ch 'u' then
          match ← codePoint s i with
          | some (cp, j) => stringLoop s fuel j (out ++ utf8 cp)
          | none => stringLoop s fuel (i + 2) (out ++ [e])
        else stringLoop s fuel (i + 2) (out ++ [unescape e])
      else stringLoop s fuel (i + 1) (out ++ [c])
    else return (out, i)

/-- The string whose opening quote is at `i`. -/
def parseString (s : Bytes) (i : ℕ) : Except Fault (Bytes × ℕ) :=
  stringLoop s (s.length + 1) (i + 1) []

/-- The end of a container, from inside so many brackets of its kind. -/
def skipLoop (s : Bytes) (opening closing : UInt8) : ℕ → ℕ → ℕ → Except Fault ℕ
  | 0, _, _ => .error .going
  | fuel + 1, depth, i =>
    if i < s.length then do
      let c ← charAt s i
      if c = ch '"' then
        let r ← parseString s i
        skipLoop s opening closing fuel depth r.2
      else if c = opening then skipLoop s opening closing fuel (depth + 1) (i + 1)
      else if c = closing then
        if depth - 1 = 0 then return i + 1 else skipLoop s opening closing fuel (depth - 1) (i + 1)
      else skipLoop s opening closing fuel depth (i + 1)
    else return i

/-- Skip the container whose opening bracket is at `i`. -/
def skipContainer (s : Bytes) (i : ℕ) : Except Fault ℕ := do
  let opening ← charAt s i
  skipLoop s opening (if opening = ch '\x7b' then ch '\x7d' else ch ']') (s.length + 1) 0 i

/-- Is this the end of a scalar? -/
def endsScalar (c : UInt8) : Bool := c = ch ',' || c = ch '\x7d' || c = ch ']' || mjson.isSpace c

/-- Go on as long as characters have a property. -/
def runLoop (s : Bytes) (p : UInt8 → Bool) : ℕ → ℕ → Except Fault ℕ
  | 0, _ => .error .going
  | fuel + 1, i =>
    if i < s.length then do
      if p (← charAt s i) then runLoop s p fuel (i + 1) else return i
    else return i

/-- The index after the white space. -/
def ws (s : Bytes) (i : ℕ) : Except Fault ℕ := runLoop s mjson.isSpace (s.length + 1) i

/-- The scalar at `i`, as it is written. -/
def parseScalar (s : Bytes) (i : ℕ) : Except Fault (Bytes × ℕ) := do
  let j ← runLoop s (fun c => !endsScalar c) (s.length + 1) i
  return ((s.drop i).take (j - i), j)

/-- A report of the decoder. -/
structure TetraKitReport where
  valid : Bool := false
  fields : SortedMap Bytes Bytes := ∅

/-- A value: what it adds to the fields under a key. -/
def parseValue (s key : Bytes) (fields : SortedMap Bytes Bytes) (i : ℕ) :
    Except Fault (SortedMap Bytes Bytes × ℕ) := do
  let c ← charAt s i
  if c = ch '"' then
    let r ← parseString s i
    return (fields.insert key r.1, r.2)
  else if c = ch '\x7b' ∨ c = ch '[' then
    let j ← skipContainer s i
    return (fields, j)
  else
    let r ← parseScalar s i
    return (fields.insert key r.1, r.2)

/-- Is there this character at `i`? -/
def isAt (s : Bytes) (i : ℕ) (c : UInt8) : Except Fault Bool :=
  if i < s.length then do return (← charAt s i) = c else .ok false

/-- The members from `i` on; what is malformed ends them. -/
def memberLoop (s : Bytes) : ℕ → ℕ → SortedMap Bytes Bytes → Except Fault (SortedMap Bytes Bytes)
  | 0, _, _ => .error .going
  | fuel + 1, i, fields =>
    if i < s.length then do
      let i ← ws s i
      if ← isAt s i (ch '"') then
        let key ← parseString s i
        let i ← ws s key.2
        if ← isAt s i (ch ':') then
          let i ← ws s (i + 1)
          if i < s.length then
            let r ← parseValue s key.1 fields i
            let i ← ws s r.2
            if ← isAt s i (ch ',') then memberLoop s fuel (i + 1) r.1 else return r.1
          else return fields
        else return fields
      else return fields
    else return fields

/-- **The report in a line.** -/
def parseTetrakitJson (line : Bytes) : Except Fault TetraKitReport := do
  let i ← ws line 0
  if ← isAt line i (ch '\x7b') then
    let i ← ws line (i + 1)
    if ← isAt line i (ch '\x7d') then return ⟨true, ∅⟩
    else return ⟨true, ← memberLoop line (line.length + 1) i ∅⟩
  else return {}

/-! ## The scanner, by what is left

The same scanner without indices, by recursion on the text.  Here nothing can fail, and the other
modules reason about this one. -/

namespace Rest

/-- A number of four digits, and what is left. -/
def hex4 : Bytes → Option (ℕ × Bytes)
  | a :: b :: c :: d :: t =>
    if digitVal a < 16 ∧ digitVal b < 16 ∧ digitVal c < 16 ∧ digitVal d < 16 then
      some (((digitVal a * 16 + digitVal b) * 16 + digitVal c) * 16 + digitVal d, t)
    else none
  | _ => none

/-- The second half of a surrogate pair. -/
def low : Bytes → Option (ℕ × Bytes)
  | c :: e :: t => if c = ch '\\' ∧ e = ch 'u' then (hex4 t).filter fun p => isLow p.1 else none
  | _ => none

/-- A code point with the second half that its first asks for, when there is one. -/
def paired (p : ℕ × Bytes) : ℕ × Bytes :=
  if isHigh p.1 then (low p.2).elim p fun q => (ofSurrogates p.1 q.1, q.2) else p

/-- The code point after `\u`, and what is left. -/
def codePoint (t : Bytes) : Option (ℕ × Bytes) := (hex4 t).map paired

theorem hex4_length {t : Bytes} {p : ℕ × Bytes} (h : hex4 t = some p) : p.2.length ≤ t.length := by
  unfold hex4 at h
  split at h
  · split_ifs at h
    obtain rfl := Option.some.inj h
    simp only [List.length_cons]
    omega
  · cases h

/-- The second half of a pair uses text up. -/
theorem low_length {t : Bytes} {p : ℕ × Bytes} (h : low t = some p) : p.2.length ≤ t.length := by
  unfold low at h
  split at h
  · split_ifs at h
    have hlen := hex4_length (Option.filter_eq_some_iff.1 h).1
    simp only [List.length_cons]
    omega
  · cases h

theorem codePoint_length {t : Bytes} {p : ℕ × Bytes} (h : codePoint t = some p) :
    p.2.length ≤ t.length := by
  obtain ⟨q, hq, rfl⟩ := Option.map_eq_some_iff.1 h
  have hlen := hex4_length hq
  rw [paired]
  split_ifs
  · cases hl : low q.2 with
    | none => exact hlen
    | some r =>
      rw [Option.elim_some]
      dsimp only
      exact (low_length hl).trans hlen
  · exact hlen

/-- Put something before what was read. -/
def onto (out : Bytes) (r : Bytes × Bytes) : Bytes × Bytes := (out ++ r.1, r.2)

/-- The contents of a string, and what follows its closing quote. -/
def string : Bytes → Bytes × Bytes
  | [] => ([], [])
  | [c] => if c = ch '"' then ([], []) else ([c], [])
  | c :: e :: t =>
    if c = ch '"' then ([], e :: t)
    else if c = ch '\\' then
      if e = ch 'u' then
        match _h : codePoint t with
        | some p => onto (utf8 p.1) (string p.2)
        | none => onto [e] (string t)
      else onto [unescape e] (string t)
    else onto [c] (string (e :: t))
termination_by t => t.length
decreasing_by
  · have hlen := codePoint_length _h
    simp only [List.length_cons]
    omega
  all_goals
    simp only [List.length_cons]
    omega

section

variable {c e : UInt8} {t : Bytes} {p : ℕ × Bytes}

@[simp] theorem string_nil : string [] = ([], []) := by rw [string]

theorem string_quote (t : Bytes) : string (ch '"' :: t) = ([], t) := by
  rcases t with _ | ⟨e, t⟩
  · rw [string, if_pos rfl]
  · rw [string, if_pos rfl]

/-- A character that is neither a quote nor a backslash stands for itself. -/
theorem string_char (hq : c ≠ ch '"') (hb : c ≠ ch '\\') (t : Bytes) :
    string (c :: t) = onto [c] (string t) := by
  rcases t with _ | ⟨e, t⟩
  · rw [string_nil, string, if_neg hq]
    rfl
  · rw [string, if_neg hq, if_neg hb]

/-- So does a backslash at the end. -/
theorem string_lone : string [ch '\\'] = onto [ch '\\'] (string []) := by
  rw [string_nil, string, if_neg (by decide)]
  rfl

theorem string_escape (he : e ≠ ch 'u') (t : Bytes) :
    string (ch '\\' :: e :: t) = onto [unescape e] (string t) := by
  rw [string, if_neg (by decide), if_pos rfl, if_neg he]

theorem string_unicode (hp : codePoint t = some p) :
    string (ch '\\' :: ch 'u' :: t) = onto (utf8 p.1) (string p.2) := by
  rw [string, if_neg (by decide), if_pos rfl, if_pos rfl]
  split
  · next q hq =>
    rw [hp] at hq
    obtain rfl := Option.some.inj hq
    rfl
  · next hq =>
    rw [hp] at hq
    exact absurd hq (Option.some_ne_none _)

/-- An escape without its digits is its letter. -/
theorem string_noUnicode (hp : codePoint t = none) :
    string (ch '\\' :: ch 'u' :: t) = onto [ch 'u'] (string t) := by
  rw [string, if_neg (by decide), if_pos rfl, if_pos rfl]
  split
  · next q hq =>
    rw [hp] at hq
    exact absurd hq.symm (Option.some_ne_none _)
  · rfl

end

/-- Reading a string makes the text no longer. -/
theorem string_length (t : Bytes) : (string t).2.length ≤ t.length := by
  fun_induction string t with
  | case1 => exact le_rfl
  | case2 => exact Nat.zero_le _
  | case3 => exact Nat.zero_le _
  | case4 e t =>
    simp only [List.length_cons]
    omega
  | case5 t p hp _ ih =>
    have hlen := codePoint_length hp
    simp only [onto, List.length_cons]
    omega
  | case6 t _ _ ih =>
    simp only [onto, List.length_cons]
    omega
  | case7 e t _ _ ih =>
    simp only [onto, List.length_cons]
    omega
  | case8 c e t _ _ ih =>
    simp only [onto, List.length_cons] at ih ⊢
    omega

/-- What follows a container, from inside so many brackets of its kind. -/
def skip (opening closing : UInt8) (depth : ℕ) : Bytes → Bytes
  | [] => []
  | c :: t =>
    if c = ch '"' then skip opening closing depth (string t).2
    else if c = opening then skip opening closing (depth + 1) t
    else if c = closing then if depth - 1 = 0 then t else skip opening closing (depth - 1) t
    else skip opening closing depth t
termination_by t => t.length
decreasing_by
  · have hlen := string_length t
    simp only [List.length_cons]
    omega
  all_goals
    simp only [List.length_cons]
    omega

/-- Passing over a container makes the text no longer. -/
theorem skip_length (opening closing : UInt8) (depth : ℕ) (t : Bytes) :
    (skip opening closing depth t).length ≤ t.length := by
  fun_induction skip opening closing depth t with
  | case1 => exact le_rfl
  | case2 depth t ih =>
    have hlen := string_length t
    simp only [List.length_cons]
    omega
  | case4 depth c t => exact Nat.le_succ _
  | _ =>
    simp only [List.length_cons]
    omega

/-- A value: what it adds to the fields under a key, and what follows. -/
def value (key : Bytes) (fields : SortedMap Bytes Bytes) : Bytes → SortedMap Bytes Bytes × Bytes
  | [] => (fields, [])
  | c :: t =>
    if c = ch '"' then (fields.insert key (string t).1, (string t).2)
    else if c = ch '\x7b' ∨ c = ch '[' then
      (fields, skip c (if c = ch '\x7b' then ch '\x7d' else ch ']') 0 (c :: t))
    else (fields.insert key ((c :: t).takeWhile fun c => !endsScalar c), (c :: t).dropWhile fun c =>
      !endsScalar c)

theorem length_dropWhile_le (p : UInt8 → Bool) (t : Bytes) : (t.dropWhile p).length ≤ t.length :=
  (List.dropWhile_suffix p).length_le

/-- Reading a value makes the text no longer. -/
theorem value_length (key : Bytes) (fields : SortedMap Bytes Bytes) (t : Bytes) :
    (value key fields t).2.length ≤ t.length := by
  cases t with
  | nil => exact le_rfl
  | cons c t =>
    rw [value]
    split_ifs
    · exact (string_length t).trans (Nat.le_succ _)
    · exact skip_length _ _ _ _
    · exact skip_length _ _ _ _
    · exact length_dropWhile_le _ _

/-- The character `c`, after white space, and what follows it. -/
def expect (c : UInt8) (t : Bytes) : Option Bytes :=
  match mjson.ws t with
  | d :: t => if d = c then some t else none
  | [] => none

theorem expect_length {c : UInt8} {t r : Bytes} (h : expect c t = some r) :
    r.length < t.length := by
  rw [expect] at h
  have hws : (mjson.ws t).length ≤ t.length := length_dropWhile_le _ _
  split at h
  · next d t' hd =>
    split_ifs at h
    obtain rfl := Option.some.inj h
    rw [hd, List.length_cons] at hws
    omega
  · cases h

/-- The members, to the end of the object or of what is well formed. -/
def members (fields : SortedMap Bytes Bytes) (t : Bytes) : SortedMap Bytes Bytes :=
  match _hq : expect (ch '"') t with
  | none => fields
  | some k =>
    match _hc : expect (ch ':') (string k).2 with
    | none => fields
    | some u =>
      let r := value (string k).1 fields (mjson.ws u)
      match _hr : expect (ch ',') r.2 with
      | some t' => members r.1 t'
      | none => r.1
termination_by t.length
decreasing_by
  have h1 := expect_length _hq
  have h2 := string_length k
  have h3 := expect_length _hc
  have h4 : (mjson.ws u).length ≤ u.length := length_dropWhile_le _ _
  have h5 : r.2.length ≤ (mjson.ws u).length := value_length (string k).1 fields (mjson.ws u)
  have h6 := expect_length _hr
  omega

section

variable {fields : SortedMap Bytes Bytes} {t k u t' : Bytes}

theorem members_noKey (hq : expect (ch '"') t = none) : members fields t = fields := by
  rw [members]
  split
  · rfl
  · next k hk => exact absurd (hq.symm.trans hk).symm (Option.some_ne_none _)

theorem members_noColon (hq : expect (ch '"') t = some k)
    (hc : expect (ch ':') (string k).2 = none) :
    members fields t = fields := by
  rw [members]
  split
  · rfl
  · next k' hk =>
    obtain rfl := Option.some.inj (hq.symm.trans hk)
    split
    · rfl
    · next u hu => exact absurd (hc.symm.trans hu).symm (Option.some_ne_none _)

theorem members_last (hq : expect (ch '"') t = some k) (hc : expect (ch ':') (string k).2 = some u)
    (hr : expect (ch ',') (value (string k).1 fields (mjson.ws u)).2 = none) :
    members fields t = (value (string k).1 fields (mjson.ws u)).1 := by
  rw [members]
  split
  · next hk => exact absurd (hq.symm.trans hk) (Option.some_ne_none _)
  next k' hk =>
  obtain rfl := Option.some.inj (hq.symm.trans hk)
  split
  · next hu => exact absurd (hc.symm.trans hu) (Option.some_ne_none _)
  next u' hu =>
  obtain rfl := Option.some.inj (hc.symm.trans hu)
  dsimp only
  split
  · next t' ht => exact absurd (hr.symm.trans ht).symm (Option.some_ne_none _)
  · rfl

theorem members_more (hq : expect (ch '"') t = some k) (hc : expect (ch ':') (string k).2 = some u)
    (hr : expect (ch ',') (value (string k).1 fields (mjson.ws u)).2 = some t') :
    members fields t = members (value (string k).1 fields (mjson.ws u)).1 t' := by
  rw [members]
  split
  · next hk => exact absurd (hq.symm.trans hk) (Option.some_ne_none _)
  next k' hk =>
  obtain rfl := Option.some.inj (hq.symm.trans hk)
  split
  · next hu => exact absurd (hc.symm.trans hu) (Option.some_ne_none _)
  next u' hu =>
  obtain rfl := Option.some.inj (hc.symm.trans hu)
  dsimp only
  split
  · next t'' ht =>
    obtain rfl := Option.some.inj (hr.symm.trans ht)
    rfl
  · next ht => exact absurd (hr.symm.trans ht) (Option.some_ne_none _)

/-- White space before what is expected is skipped. -/
theorem expect_ws (c : UInt8) (t : Bytes) : expect c (mjson.ws t) = expect c t := by
  rw [expect, expect, mjson.ws, mjson.ws, List.dropWhile_idempotent]

/-- White space before the members does not matter. -/
theorem members_ws (fields : SortedMap Bytes Bytes) (t : Bytes) :
    members fields (mjson.ws t) = members fields t := by
  cases hq : expect (ch '"') t with
  | none => rw [members_noKey hq, members_noKey ((expect_ws _ _).trans hq)]
  | some k =>
    have hq' := (expect_ws _ _).trans hq
    cases hc : expect (ch ':') (string k).2 with
    | none => rw [members_noColon hq hc, members_noColon hq' hc]
    | some u =>
      cases hr : expect (ch ',') (value (string k).1 fields (mjson.ws u)).2 with
      | none => rw [members_last hq hc hr, members_last hq' hc hr]
      | some t' => rw [members_more hq hc hr, members_more hq' hc hr]

/-- Less is left after a member. -/
theorem members_shorter (hq : expect (ch '"') t = some k)
    (hc : expect (ch ':') (string k).2 = some u)
    (hr : expect (ch ',') (value (string k).1 fields (mjson.ws u)).2 = some t') :
    t'.length < t.length := by
  have h1 := expect_length hq
  have h2 := string_length k
  have h3 := expect_length hc
  have h4 : (mjson.ws u).length ≤ u.length := length_dropWhile_le _ _
  have h5 := value_length (string k).1 fields (mjson.ws u)
  have h6 := expect_length hr
  omega

end

/-- **The report in a line.** -/
def report (line : Bytes) : TetraKitReport :=
  match expect (ch '\x7b') line with
  | none => {}
  | some t =>
    match expect (ch '\x7d') t with
    | some _ => ⟨true, ∅⟩
    | none => ⟨true, members ∅ t⟩

end Rest

/-! ## The two agree

An index and what is left of the line after it belong together (`Left`).  Function by function the
two scanners are shown to go from related places to related places. -/

section

variable {s t : Bytes} {i n : ℕ} {c : UInt8}

/-- The scanner is at `i` when this is left. -/
def Left (s : Bytes) (i : ℕ) (t : Bytes) : Prop := s.drop i = t

/-- At the start the whole line is left. -/
theorem Left.start (s : Bytes) : Left s 0 s := rfl

/-- Where something is left the index is in the line. -/
theorem Left.lt (h : Left s i (c :: t)) : i < s.length := by
  by_contra hle
  rw [Left, List.drop_eq_nil_of_le (not_lt.1 hle)] at h
  cases h

theorem Left.not_lt (h : Left s i []) : ¬i < s.length := Nat.not_lt.2 (List.drop_eq_nil_iff.1 h)

theorem Left.next (h : Left s i (c :: t)) : Left s (i + 1) t := by
  rw [Left, ← List.drop_drop, show s.drop i = c :: t from h]
  rfl

/-- The byte at the index is the first of what is left. -/
theorem Left.charAt (h : Left s i (c :: t)) : charAt s i = .ok c := by
  have hget : s[i]? = some c := by
    rw [← List.head?_drop, show s.drop i = c :: t from h]
    rfl
  rw [tetrakit.charAt, hget]

theorem Left.length_le (h : Left s i t) : t.length ≤ s.length := by
  rw [← show s.drop i = t from h, List.length_drop]
  omega

theorem hexLoop_of_ge (h : Left s i (c :: t)) (hc : ¬digitVal c < 16) (out : ℕ) :
    hexLoop s (n + 1) i out = .ok none := by
  rw [hexLoop, h.charAt]
  exact if_neg hc

theorem hexLoop_of_lt (h : Left s i (c :: t)) (hc : digitVal c < 16) (out : ℕ) :
    hexLoop s (n + 1) i out = hexLoop s n (i + 1) (out * 16 + digitVal c) := by
  rw [hexLoop, h.charAt]
  exact if_pos hc

theorem hex4_short (h : Left s i t) (ht : t.length < 4) : hex4 s i = .ok none := by
  rw [hex4, if_pos]
  have hlen : (s.drop i).length = t.length := congrArg List.length h
  rw [List.length_drop] at hlen
  omega

/-- Nothing is left after what is not read. -/
theorem none_left {P : ℕ × Bytes → Prop} (p : ℕ × Bytes) (h : none = some p) : P p :=
  absurd h.symm (Option.some_ne_none p)

theorem hex4_eq (h : Left s i t) :
    hex4 s i = .ok ((Rest.hex4 t).map Prod.fst) ∧ ∀ p, Rest.hex4 t = some p →
      Left s (i + 4) p.2 := by
  rcases t with _ | ⟨a, _ | ⟨b, _ | ⟨c, _ | ⟨d, t⟩⟩⟩⟩
  · exact ⟨hex4_short h (by simp), none_left⟩
  · exact ⟨hex4_short h (by simp), none_left⟩
  · exact ⟨hex4_short h (by simp), none_left⟩
  · exact ⟨hex4_short h (by simp), none_left⟩
  · have hlt := h.next.next.next.lt
    rw [hex4, if_neg (by omega), Rest.hex4]
    by_cases ha : digitVal a < 16
    · rw [hexLoop_of_lt h ha]
      by_cases hb : digitVal b < 16
      · rw [hexLoop_of_lt h.next hb]
        by_cases hc : digitVal c < 16
        · rw [hexLoop_of_lt h.next.next hc]
          by_cases hd : digitVal d < 16
          · rw [hexLoop_of_lt h.next.next.next hd, if_pos ⟨ha, hb, hc, hd⟩, hexLoop, Nat.zero_mul,
              Nat.zero_add]
            refine ⟨rfl, fun p hp => ?_⟩
            obtain rfl := Option.some.inj hp
            exact h.next.next.next.next
          · rw [hexLoop_of_ge h.next.next.next hd, if_neg fun hall => hd hall.2.2.2]
            exact ⟨rfl, none_left⟩
        · rw [hexLoop_of_ge h.next.next hc, if_neg fun hall => hc hall.2.2.1]
          exact ⟨rfl, none_left⟩
      · rw [hexLoop_of_ge h.next hb, if_neg fun hall => hb hall.2.1]
        exact ⟨rfl, none_left⟩
    · rw [hexLoop_of_ge h ha, if_neg fun hall => ha hall.1]
      exact ⟨rfl, none_left⟩

theorem lowSurrogate_eq (h : Left s i t) : lowSurrogate s i = .ok ((Rest.low t).map Prod.fst) ∧
    ∀ p, Rest.low t = some p → Left s (i + 6) p.2 := by
  rcases t with _ | ⟨a, _ | ⟨e, u⟩⟩
  · rw [lowSurrogate, if_neg fun hc => h.not_lt (Nat.lt_of_succ_lt hc)]
    exact ⟨rfl, none_left⟩
  · rw [lowSurrogate, if_neg h.next.not_lt]
    exact ⟨rfl, none_left⟩
  · rw [lowSurrogate, if_pos h.next.lt, h.charAt, h.next.charAt, Rest.low]
    by_cases ha : a = ch '\\'
    · by_cases he : e = ch 'u'
      · obtain ⟨hhex, hleft⟩ := hex4_eq h.next.next
        rw [hhex, if_pos ⟨ha, he⟩]
        simp only [bind, Except.bind, if_pos ha, if_pos he]
        cases hu : Rest.hex4 u with
        | none => exact ⟨rfl, none_left⟩
        | some q =>
          rw [Option.map_some, Option.filter_some, Option.filter_some]
          split_ifs with hl
          · refine ⟨rfl, fun p hp => ?_⟩
            obtain rfl := Option.some.inj hp
            exact hleft q hu
          · exact ⟨rfl, fun p => False.elim⟩
      · rw [if_neg fun hc => he hc.2]
        simp only [bind, Except.bind, if_pos ha, if_neg he]
        exact ⟨rfl, none_left⟩
    · rw [if_neg fun hc => ha hc.1]
      simp only [bind, Except.bind, if_neg ha]
      exact ⟨rfl, none_left⟩

theorem codePoint_eq (h : Left s (i + 2) t) :
    (Rest.codePoint t = none ∧ codePoint s i = .ok none) ∨
      ∃ p j, Rest.codePoint t = some p ∧ codePoint s i = .ok (some (p.1, j)) ∧ Left s j p.2 := by
  obtain ⟨hhex, hleft⟩ := hex4_eq h
  rw [codePoint, hhex, Rest.codePoint]
  cases hp : Rest.hex4 t with
  | none => exact Or.inl ⟨rfl, rfl⟩
  | some p =>
    right
    have h6 : Left s (i + 6) p.2 := hleft p hp
    obtain ⟨hlow, hleft'⟩ := lowSurrogate_eq h6
    simp only [Option.map_some, bind, Except.bind]
    by_cases hhigh : isHigh p.1 = true
    · rw [if_pos hhigh, hlow, Rest.paired, if_pos hhigh]
      cases hq : Rest.low p.2 with
      | none => exact ⟨p, i + 6, rfl, rfl, h6⟩
      | some q => exact ⟨(ofSurrogates p.1 q.1, q.2), i + 12, rfl, rfl, hleft' q hq⟩
    · rw [if_neg hhigh, Rest.paired, if_neg hhigh]
      exact ⟨p, i + 6, rfl, rfl, h6⟩

/-- **One turn of a string**: it ends, or something is read of it and the loop goes on. -/
theorem stringLoop_turn (h : Left s i (c :: t)) :
    (c = ch '"' ∧ ∀ fuel out, stringLoop s (fuel + 1) i out = .ok (out, i + 1)) ∨
      ∃ o j u, Rest.string (c :: t) = Rest.onto o (Rest.string u) ∧ Left s j u ∧
        u.length ≤ t.length ∧
        ∀ fuel out, stringLoop s (fuel + 1) i out = stringLoop s fuel j (out ++ o) := by
  by_cases hq : c = ch '"'
  · refine Or.inl ⟨hq, fun fuel out => ?_⟩
    simp only [stringLoop, if_pos h.lt, h.charAt, bind, Except.bind, if_pos hq]
    rfl
  right
  by_cases hb : c = ch '\\'
  · subst hb
    rcases t with _ | ⟨e, t⟩
    · refine ⟨[ch '\\'], i + 1, [], Rest.string_lone, h.next, le_rfl, fun fuel out => ?_⟩
      simp only [stringLoop, if_pos h.lt, h.charAt, bind, Except.bind, if_neg hq, true_and,
        if_neg h.next.not_lt]
    by_cases he : e = ch 'u'
    · subst he
      rcases codePoint_eq h.next.next with ⟨hnone, hcp⟩ | ⟨p, j, hsome, hcp, hj⟩
      · refine ⟨[ch 'u'], i + 2, t, Rest.string_noUnicode hnone, h.next.next, Nat.le_succ _,
          fun fuel out => ?_⟩
        simp only [stringLoop, if_pos h.lt, h.charAt, h.next.charAt, bind, Except.bind,
          if_neg hq, true_and, if_pos h.next.lt, if_true, hcp]
      · have hlen := Rest.codePoint_length hsome
        refine ⟨utf8 p.1, j, p.2, Rest.string_unicode hsome, hj, hlen.trans (Nat.le_succ _),
          fun fuel out => ?_⟩
        simp only [stringLoop, if_pos h.lt, h.charAt, h.next.charAt, bind, Except.bind,
          if_neg hq, true_and, if_pos h.next.lt, if_true, hcp]
    · refine ⟨[unescape e], i + 2, t, Rest.string_escape he t, h.next.next, Nat.le_succ _,
        fun fuel out => ?_⟩
      simp only [stringLoop, if_pos h.lt, h.charAt, h.next.charAt, bind, Except.bind,
        if_neg hq, true_and, if_pos h.next.lt, if_neg he]
  · have hplain : ¬(c = ch '\\' ∧ i + 1 < s.length) := fun hc => hb hc.1
    refine ⟨[c], i + 1, t, Rest.string_char hq hb t, h.next, le_rfl, fun fuel out => ?_⟩
    simp only [stringLoop, if_pos h.lt, h.charAt, bind, Except.bind, if_neg hq, if_neg hplain]

/-- **A string is read** to its closing quote, or to the end of the line. -/
theorem stringLoop_eq (fuel : ℕ) :
    ∀ {i : ℕ} {t : Bytes} (out : Bytes), Left s i t → t.length < fuel →
    ∃ j, stringLoop s fuel i out = .ok (out ++ (Rest.string t).1, j) ∧
      Left s j (Rest.string t).2 := by
  induction fuel with
  | zero => exact fun _ _ hf => absurd hf (Nat.not_lt_zero _)
  | succ fuel ih =>
    intro i t out h hf
    rcases t with _ | ⟨c, t⟩
    · rw [stringLoop, if_neg h.not_lt, Rest.string_nil, List.append_nil]
      exact ⟨i, rfl, h⟩
    rw [List.length_cons] at hf
    rcases stringLoop_turn h with ⟨rfl, hloop⟩ | ⟨o, j, u, hstr, hj, hlen, hloop⟩
    · rw [hloop, Rest.string_quote, List.append_nil]
      exact ⟨i + 1, rfl, h.next⟩
    · obtain ⟨k, hk, hkl⟩ := ih (out ++ o) hj (by omega)
      rw [hloop, hk, hstr, List.append_assoc]
      exact ⟨k, rfl, hkl⟩

/-- …so the string behind an opening quote is. -/
theorem parseString_eq (h : Left s i (c :: t)) :
    ∃ j, parseString s i = .ok ((Rest.string t).1, j) ∧ Left s j (Rest.string t).2 := by
  have hlen := h.next.length_le
  obtain ⟨j, hj, hl⟩ := stringLoop_eq (s.length + 1) [] h.next (by omega)
  exact ⟨j, hj, hl⟩

/-- **A container is skipped** to its closing bracket, or to the end of the line. -/
theorem skipLoop_eq (opening closing : UInt8) (fuel : ℕ) : ∀ {depth i : ℕ} {t : Bytes}, Left s i t →
    t.length < fuel → ∃ j, skipLoop s opening closing fuel depth i = .ok j ∧
      Left s j (Rest.skip opening closing depth t) := by
  induction fuel with
  | zero => exact fun _ hf => absurd hf (Nat.not_lt_zero _)
  | succ fuel ih =>
    intro depth i t h hf
    rcases t with _ | ⟨c, t⟩
    · rw [skipLoop, if_neg h.not_lt, Rest.skip]
      exact ⟨i, rfl, h⟩
    · rw [List.length_cons] at hf
      rw [skipLoop, if_pos h.lt, h.charAt, Rest.skip]
      simp only [bind, Except.bind]
      split_ifs
      · obtain ⟨j, hj, hl⟩ := parseString_eq h
        have hlen := Rest.string_length t
        rw [hj]
        exact ih hl (by omega)
      · exact ih h.next (by omega)
      · exact ⟨i + 1, rfl, h.next⟩
      · exact ih h.next (by omega)
      · exact ih h.next (by omega)

/-- Both pass over the same container. -/
theorem skipContainer_eq (h : Left s i (c :: t)) : ∃ j, skipContainer s i = .ok j ∧
    Left s j (Rest.skip c (if c = ch '\x7b' then ch '\x7d' else ch ']') 0 (c :: t)) := by
  have hlen := h.length_le
  rw [skipContainer, h.charAt]
  exact skipLoop_eq _ _ (s.length + 1) h (by omega)

theorem runLoop_eq (p : UInt8 → Bool) (fuel : ℕ) :
    ∀ {i : ℕ} {t : Bytes}, Left s i t → t.length < fuel →
    runLoop s p fuel i = .ok (i + (t.takeWhile p).length) ∧
      Left s (i + (t.takeWhile p).length) (t.dropWhile p) := by
  induction fuel with
  | zero => exact fun _ hf => absurd hf (Nat.not_lt_zero _)
  | succ fuel ih =>
    intro i t h hf
    rcases t with _ | ⟨c, t⟩
    · rw [runLoop, if_neg h.not_lt]
      exact ⟨rfl, h⟩
    · rw [List.length_cons] at hf
      rw [runLoop, if_pos h.lt, h.charAt]
      simp only [bind, Except.bind]
      by_cases hp : p c = true
      · obtain ⟨hrun, hleft⟩ := ih h.next (by omega)
        have hadd : i + (t.takeWhile p).length.succ = i + 1 + (t.takeWhile p).length := by omega
        rw [if_pos hp, List.takeWhile_cons_of_pos hp, List.dropWhile_cons_of_pos hp,
          List.length_cons, hadd]
        exact ⟨hrun, hleft⟩
      · rw [if_neg hp, List.takeWhile_cons_of_neg hp, List.dropWhile_cons_of_neg hp]
        exact ⟨rfl, h⟩

theorem ws_eq (h : Left s i t) : ∃ j, ws s i = .ok j ∧ Left s j (mjson.ws t) := by
  have hlen := h.length_le
  obtain ⟨hrun, hleft⟩ := runLoop_eq mjson.isSpace (s.length + 1) h (by omega)
  exact ⟨_, hrun, hleft⟩

theorem parseScalar_eq (h : Left s i t) : ∃ j,
    parseScalar s i = .ok (t.takeWhile fun c => !endsScalar c, j) ∧
      Left s j (t.dropWhile fun c => !endsScalar c) := by
  have hlen := h.length_le
  obtain ⟨hrun, hleft⟩ := runLoop_eq (fun c => !endsScalar c) (s.length + 1) h (by omega)
  refine ⟨_, ?_, hleft⟩
  have htake : (s.drop i).take (t.takeWhile fun c => !endsScalar c).length = t.takeWhile fun c =>
      !endsScalar c := by
    rw [show s.drop i = t from h]
    exact (List.prefix_iff_eq_take.1 (List.takeWhile_prefix _)).symm
  rw [parseScalar, hrun]
  simp only [bind, Except.bind, Nat.add_sub_cancel_left, htake]
  rfl

/-- **Both read the same value.** -/
theorem parseValue_eq (key : Bytes) (fields : SortedMap Bytes Bytes) (h : Left s i (c :: t)) :
    ∃ j, parseValue s key fields i = .ok ((Rest.value key fields (c :: t)).1, j) ∧
      Left s j (Rest.value key fields (c :: t)).2 := by
  rw [parseValue, h.charAt, Rest.value]
  simp only [bind, Except.bind]
  split_ifs
  · obtain ⟨j, hj, hl⟩ := parseString_eq h
    rw [hj]
    exact ⟨j, rfl, hl⟩
  · obtain ⟨j, hj, hl⟩ := skipContainer_eq h
    rw [hj]
    exact ⟨j, rfl, by simp_all⟩
  · obtain ⟨j, hj, hl⟩ := skipContainer_eq h
    rw [hj]
    exact ⟨j, rfl, by simp_all⟩
  · obtain ⟨j, hj, hl⟩ := parseScalar_eq h
    rw [hj]
    exact ⟨j, rfl, hl⟩

/-- **A character is looked for**, after white space. -/
theorem isAt_eq (c : UInt8) (h : Left s i t) : ∃ j, ws s i = .ok j ∧
    ((Rest.expect c t = none ∧ isAt s j c = .ok false) ∨
      ∃ r, Rest.expect c t = some r ∧ isAt s j c = .ok true ∧ Left s j (c :: r)) := by
  obtain ⟨j, hj, hl⟩ := ws_eq h
  refine ⟨j, hj, ?_⟩
  rw [Rest.expect, isAt]
  rcases hw : mjson.ws t with _ | ⟨d, u⟩
  · rw [hw] at hl
    rw [if_neg hl.not_lt]
    exact Or.inl ⟨rfl, rfl⟩
  · rw [hw] at hl
    rw [if_pos hl.lt, hl.charAt]
    simp only [bind, Except.bind]
    by_cases hd : d = c
    · subst hd
      exact Or.inr ⟨u, if_pos rfl, by rw [decide_eq_true rfl]; rfl, hl⟩
    · exact Or.inl ⟨if_neg hd, by rw [decide_eq_false hd]; rfl⟩

/-- **The members are read** as far as they are well formed. -/
theorem memberLoop_eq (fuel : ℕ) :
    ∀ {i : ℕ} {t : Bytes} (fields : SortedMap Bytes Bytes), Left s i t →
    t.length < fuel → memberLoop s fuel i fields = .ok (Rest.members fields t) := by
  induction fuel with
  | zero => exact fun _ _ hf => absurd hf (Nat.not_lt_zero _)
  | succ fuel ih =>
    intro i t fields h hf
    rcases t with _ | ⟨c, t⟩
    · rw [memberLoop, if_neg h.not_lt, Rest.members_noKey rfl]
      rfl
    rw [memberLoop, if_pos h.lt]
    obtain ⟨i₁, hw₁, ⟨hq, hat⟩ | ⟨k, hq, hat, hl₁⟩⟩ := isAt_eq (ch '"') h
    · simp only [bind, Except.bind, hw₁, hat, Rest.members_noKey hq]
      rfl
    obtain ⟨i₂, hkey, hl₂⟩ := parseString_eq hl₁
    obtain ⟨i₃, hw₃, ⟨hc, hat₃⟩ | ⟨u, hc, hat₃, hl₃⟩⟩ := isAt_eq (ch ':') hl₂
    · simp only [bind, Except.bind, hw₁, hat, if_true, hkey, hw₃, hat₃, Rest.members_noColon hq hc]
      rfl
    obtain ⟨i₄, hw₄, hl₄⟩ := ws_eq hl₃.next
    simp only [bind, Except.bind, hw₁, hat, if_true, hkey, hw₃, hat₃, hw₄]
    rcases hu : mjson.ws u with _ | ⟨d, v⟩
    · rw [hu] at hl₄
      have hend :
          Rest.expect (ch ',') (Rest.value (Rest.string k).1 fields (mjson.ws u)).2 = none := by
        rw [hu]
        rfl
      rw [if_neg hl₄.not_lt, Rest.members_last hq hc hend, hu]
      rfl
    · rw [hu] at hl₄
      rw [if_pos hl₄.lt]
      obtain ⟨i₅, hval, hl₅⟩ := parseValue_eq (Rest.string k).1 fields hl₄
      rw [← hu] at hval hl₅
      obtain ⟨i₆, hw₆, ⟨hr, hat₆⟩ | ⟨t', hr, hat₆, hl₆⟩⟩ := isAt_eq (ch ',') hl₅
      · simp only [hval, hw₆, hat₆, Rest.members_last hq hc hr]
        rfl
      · have hshort := Rest.members_shorter hq hc hr
        simp only [hval, hw₆, hat₆, if_true, Rest.members_more hq hc hr]
        exact ih _ hl₆.next (by omega)

end

/-- **The scanner ends on every line** and reads nothing that is not there: it gives the report. -/
theorem parseTetrakitJson_eq (line : Bytes) : parseTetrakitJson line = .ok (Rest.report line) := by
  obtain ⟨i, hw, ⟨ho, hat⟩ | ⟨t, ho, hat, hl⟩⟩ := isAt_eq (ch '\x7b') (Left.start line)
  · simp only [parseTetrakitJson, bind, Except.bind, hw, hat, Rest.report, ho]
    rfl
  obtain ⟨j, hw', hlw⟩ := ws_eq hl.next
  obtain ⟨j', hw'', ⟨hc, hat'⟩ | ⟨u, hc, hat', -⟩⟩ := isAt_eq (ch '\x7d') hl.next
  · obtain rfl : j = j' := Except.ok.inj (hw'.symm.trans hw'')
    have hlen := hlw.length_le
    have hmem := memberLoop_eq (line.length + 1) ∅ hlw (by omega)
    simp only [parseTetrakitJson, bind, Except.bind, hw, hat, if_true, hw', hat', hmem,
      Rest.report, ho, hc, Rest.members_ws]
    rfl
  · simp only [parseTetrakitJson, bind, Except.bind, hw, hat, if_true, hw'', hat',
      Rest.report, ho, hc]
    rfl

end tetrakit

end DsdServer
