import DsdServer.Assoc.Recorder
import DsdServer.Json.RoundTrip

/-!
# Assoc/LogLine — reading the recording's lines

A line is one flat object: strings are unescaped byte for byte, anything else is kept as its text.
What the recorder writes is read back exactly (`parseLine_render`).

Nothing in a line is nested, so the reader is a loop over its members.  Bytes that are not printable
are written as escapes, so a line has no line break in it whatever the strings hold.
-/

open Bytes

namespace DsdServer

namespace assoclog

open mjson (isSpace isDigitOf natOf)

/-! ## The C library's integers

The source reads numbers with `std::stoll` and `std::stoull`, which skip white space, accept a sign,
stop at the first byte that is no digit, and throw when there is no digit or the value does not fit.
A throw is `none` here. -/

/-- A sign and what follows. -/
def signOf : Bytes → Bool × Bytes
  | [] => (false, [])
  | c :: s => if c = ch '-' then (true, s) else if c = ch '+' then (false, s) else (false, c :: s)

/-- A decimal integer at the start of a text; `none` when there is no digit.  (The texts are of
64-bit values.) -/
def stoll (s : Bytes) : Option ℤ :=
  let (neg, s) := signOf (s.dropWhile isSpace)
  let ds := s.takeWhile (isDigitOf 10)
  if ds = [] then none else some (if neg then -natOf 10 ds else natOf 10 ds)

/-- A natural number at the start of a text. -/
def stoull (s : Bytes) : Option ℕ :=
  let (neg, s) := signOf (s.dropWhile isSpace)
  let ds := s.takeWhile (isDigitOf 10)
  if ds = [] then none else some (if neg then (2 ^ 64 - natOf 10 ds % 2 ^ 64) % 2 ^ 64
  else natOf 10 ds)

/-- A hexadecimal prefix is skipped when a digit follows. -/
def skipHexPrefix : Bytes → Bytes
  | a :: x :: d :: s =>
    if a = ch '0' ∧ (x = ch 'x' ∨ x = ch 'X') ∧ isDigitOf 16 d then d :: s else a :: x :: d :: s
  | s => s

/-- The code unit some text names in hexadecimal. -/
def hexUnit (s : Bytes) : Option ℕ :=
  let (neg, s) := signOf (s.dropWhile isSpace)
  let ds := (skipHexPrefix s).takeWhile (isDigitOf 16)
  if ds = [] then none
  else some (if neg then (2 ^ 32 - natOf 16 ds % 2 ^ 32) % 2 ^ 32 else natOf 16 ds % 2 ^ 32)

/-! ## Strings

The reader goes through a string byte by byte; an escape may stand for a byte, for a letter of its
own, or for a unit of four hex digits.  A string that does not end is refused. -/

/-- The bytes of a code unit: the recorder's own escapes are raw bytes. -/
def unitBytes (cp : ℕ) : Bytes :=
  if cp ≤ 0xff then [UInt8.ofNat cp]
  else if cp < 0x800 then [UInt8.ofNat (0xc0 ||| cp >>> 6), UInt8.ofNat (0x80 ||| (cp &&& 0x3f))]
  else [UInt8.ofNat (0xe0 ||| cp >>> 12), UInt8.ofNat (0x80 ||| (cp >>> 6 &&& 0x3f)),
    UInt8.ofNat (0x80 ||| (cp &&& 0x3f))]

/-- What a letter after a backslash stands for. -/
def unescape (e : UInt8) : UInt8 :=
  if e = ch 'n' then 10 else if e = ch 'r' then 13 else if e = ch 't' then 9
  else if e = ch 'b' then 8 else if e = ch 'f' then 12 else e

/-- More text before what was read. -/
def before (o : Bytes) (r : Option (Bytes × Bytes)) : Option (Bytes × Bytes) :=
  r.map fun p => (o ++ p.1, p.2)

/-- The rest of a string, to its closing quote, and what follows it. -/
def strRest : Bytes → Option (Bytes × Bytes)
  | [] => none
  | c :: s =>
    if c = ch '"' then some ([], s)
    else if c ≠ ch '\\' then before [c] (strRest s)
    else
      match s with
      | [] => none
      | e :: s =>
        if e ≠ ch 'u' then before [unescape e] (strRest s)
        else
          match s with
          | a :: b :: c :: d :: s =>
            match hexUnit [a, b, c, d] with
            | none => none
            | some cp => before (unitBytes cp) (strRest s)
          | _ => none

/-! ## Lines

A line is an object of members, and a value that is no string is taken as the word up to the next
separator.  Nothing is nested, so the reader is a loop. -/

/-- Blanks between the parts of a line. -/
def isBlank (b : UInt8) : Bool := b = ch ' ' || b = 9 || b = 13

/-- What follows the blanks. -/
def skip (s : Bytes) : Bytes := s.dropWhile isBlank

/-- Does a byte end a value that is no string? -/
def endsWord (b : UInt8) : Bool := b = ch ',' || b = ch '\x7d' || b = ch ' '

/-- A value: a string, or the text up to the next separator. -/
def valueOf : Bytes → Option (Bytes × Bytes)
  | [] => none
  | c :: s =>
    if c = ch '"' then strRest s
    else
      let w := (c :: s).takeWhile fun b => !endsWord b
      if w = [] then none else some (w, (c :: s).dropWhile fun b => !endsWord b)

/-- A key and its value, and what follows them. -/
def memberOf (s : Bytes) : Option (Bytes × Bytes × Bytes) :=
  match skip s with
  | [] => none
  | c :: s =>
    if c ≠ ch '"' then none
    else
      match strRest s with
      | none => none
      | some (k, s) =>
        match skip s with
        | [] => none
        | c :: s => if c ≠ ch ':' then none else (valueOf (skip s)).map fun p => (k, p)

/-- The members of an object; `fuel` exceeds their number. -/
def membersOf : ℕ → SortedMap Bytes Bytes → Bytes → Option (SortedMap Bytes Bytes)
  | 0, _, _ => none
  | fuel + 1, m, s =>
    match memberOf s with
    | none => none
    | some (k, v, s) =>
      match skip s with
      | [] => none
      | c :: s =>
        if c = ch ',' then membersOf fuel (m.insert k v) s
        else if c = ch '\x7d' then some (m.insert k v)
        else none

/-- **Parse one line**: its fields by key. -/
def parseLine (s : Bytes) : Option (SortedMap Bytes Bytes) :=
  match skip s with
  | [] => none
  | c :: s =>
    if c ≠ ch '\x7b' then none
    else
      match skip s with
      | [] => none
      | c :: s => if c = ch '\x7d' then some ∅ else membersOf (s.length + 1) ∅ (c :: s)

/-- **The event of a line's fields.** -/
def lineEvent (m : SortedMap Bytes Bytes) : DsdEvent :=
  let g (k : String) : Bytes := m.getD (lit k) []
  { kind := g "kind", talkgroup := g "tg", sourceId := g "src", slot := g "slot"
    colorCode := g "cc", ran := g "ran", nac := g "nac", emergency := g "em"
    talkerAlias := g "alias", crcError := g "crc", message := g "msg", extra := g "extra"
    rawLine := g "raw" }

/-! ## What is written is read back

The writer escapes every byte that is not plain, so a written string holds no quote of its own.
From that the theorem goes up: a byte, a string, a value, a member, a line. -/

/-- The four digits of an escaped byte name it. -/
theorem hexUnit_byte : ∀ n : Fin 256,
    hexUnit [ch '0', ch '0', hexDigit (n / 16 : ℕ), hexDigit (n % 16 : ℕ)] = some n := by
      decide +kernel

theorem strRest_quote (s : Bytes) : strRest (ch '"' :: s) = some ([], s) := by
  rw [strRest.eq_def]
  exact if_pos rfl

theorem strRest_plain {c : UInt8} (hq : c ≠ ch '"') (hb : c ≠ ch '\\') (s : Bytes) :
    strRest (c :: s) = before [c] (strRest s) := by
  rw [strRest.eq_def]
  exact (if_neg hq).trans (if_pos hb)

theorem strRest_letter {e : UInt8} (he : e ≠ ch 'u') (s : Bytes) :
    strRest (ch '\\' :: e :: s) = before [unescape e] (strRest s) := by
  rw [strRest.eq_def]
  exact (if_neg (by decide)).trans ((if_neg fun h => h rfl).trans (if_pos he))

theorem strRest_unit {a b c d : UInt8} {cp : ℕ} (h : hexUnit [a, b, c, d] = some cp) (s : Bytes) :
    strRest (ch '\\' :: ch 'u' :: a :: b :: c :: d :: s) = before (unitBytes cp) (strRest s) := by
  rw [strRest.eq_def]
  refine (if_neg (by decide)).trans
    ((if_neg fun h => h rfl).trans ((if_neg fun h => h rfl).trans ?_))
  dsimp only
  rw [h]

/-- An escaped byte is read back. -/
theorem strRest_escByte (b : UInt8) (s : Bytes) :
    strRest (escByte b ++ s) = before [b] (strRest s) := by
  rw [escByte]
  split_ifs with hq hb hp
  · subst hq
    exact strRest_letter (by decide) s
  · subst hb
    exact strRest_letter (by decide) s
  · have hn : b.toNat < 256 := b.toNat_lt
    refine (strRest_unit (hexUnit_byte ⟨b.toNat, hn⟩) s).trans ?_
    rw [unitBytes, if_pos (Nat.le_of_lt_succ hn), UInt8.ofNat_toNat]
  · exact strRest_plain hq hb s

/-- **A string is read back.** -/
theorem strRest_esc (v s : Bytes) : strRest (esc v ++ ch '"' :: s) = some (v, s) := by
  induction v with
  | nil =>
    exact strRest_quote s
  | cons b v ih =>
    rw [esc, List.flatMap_cons, List.append_assoc, strRest_escByte]
    change before [b] (strRest (esc v ++ ch '"' :: s)) = _
    rw [ih]
    rfl

/-- A value as written: quoted, or a plain word. -/
inductive Field
  | str (v : Bytes)
  | word (v : Bytes)

namespace Field

/-- The text of a value. -/
def text : Field → Bytes
  | str v => v
  | word v => v

/-- The value as it is written. -/
def render : Field → Bytes
  | str v => q v
  | word v => v

/-- A word holds no separator, and is no string. -/
def Ok : Field → Prop
  | str _ => True
  | word v => v ≠ [] ∧ ∀ b ∈ v, endsWord b = false ∧ isBlank b = false ∧ b ≠ ch '"'

end Field

/-- A separator follows. -/
def Stop (s : Bytes) : Prop := ∃ c t, s = c :: t ∧ (c = ch ',' ∨ c = ch '\x7d')

/-- A value is read back, up to where it stops. -/
theorem valueOf_render {f : Field} (hf : f.Ok) {s : Bytes} (hs : Stop s) :
    valueOf (skip (f.render ++ s)) = some (f.text, s) := by
  cases f with
  | str v =>
    have h : skip (q v ++ s) = ch '"' :: (esc v ++ ch '"' :: s) := by
      rw [q, List.append_assoc, List.append_assoc]
      rfl
    change valueOf (skip (q v ++ s)) = some (v, s)
    rw [h, valueOf, if_pos rfl]
    exact strRest_esc v s
  | word v =>
    obtain ⟨hne, hv⟩ := hf
    obtain ⟨c, t, rfl, hc⟩ := hs
    cases v with
    | nil => exact absurd rfl hne
    | cons b v =>
      obtain ⟨hb₁, hb₂, hb₃⟩ := hv b List.mem_cons_self
      have hc' : endsWord c = true := by rcases hc with rfl | rfl <;> rfl
      have hskip : skip ((b :: v) ++ c :: t) = (b :: v) ++ c :: t := by
        rw [skip, List.cons_append,
          List.dropWhile_cons_of_neg (by rw [hb₂]; exact Bool.false_ne_true)]
      have hall : ∀ x ∈ b :: v, (!endsWord x) = true := fun x hx => by rw [(hv x hx).1]; rfl
      have htake : ((b :: v) ++ c :: t).takeWhile (fun b => !endsWord b) = b :: v := by
        rw [List.takeWhile_append_of_pos hall,
          List.takeWhile_cons_of_neg (by rw [hc']; exact Bool.false_ne_true), List.append_nil]
      have hdrop : ((b :: v) ++ c :: t).dropWhile (fun b => !endsWord b) = c :: t := by
        rw [List.dropWhile_append_of_pos hall,
          List.dropWhile_cons_of_neg (by rw [hc']; exact Bool.false_ne_true)]
      change valueOf (skip ((b :: v) ++ c :: t)) = some (b :: v, c :: t)
      rw [hskip]
      rw [List.cons_append] at htake hdrop ⊢
      rw [valueOf, if_neg hb₃]
      dsimp only
      rw [htake, hdrop, if_neg (List.cons_ne_nil b v)]

/-- A key of the recorder: nothing in it is escaped. -/
def Plain (k : Bytes) : Prop := esc k = k

/-- `"key":value`. -/
def member (e : Bytes × Field) : Bytes := lit "\"" ++ e.1 ++ lit "\":" ++ e.2.render

theorem memberOf_member {e : Bytes × Field} (hk : Plain e.1) (hf : e.2.Ok) {s : Bytes}
    (hs : Stop s) :
    memberOf (member e ++ s) = some (e.1, e.2.text, s) := by
  have h : member e ++ s = ch '"' :: (esc e.1 ++ ch '"' :: (ch ':' :: (e.2.render ++ s))) := by
    rw [hk, member]
    simp only [List.append_assoc]
    rfl
  have hskip : skip (ch '"' :: (esc e.1 ++ ch '"' :: (ch ':' :: (e.2.render ++ s)))) =
      ch '"' :: (esc e.1 ++ ch '"' :: (ch ':' :: (e.2.render ++ s))) := rfl
  have hcolon : skip (ch ':' :: (e.2.render ++ s)) = ch ':' :: (e.2.render ++ s) := rfl
  rw [h, memberOf, hskip]
  dsimp only
  rw [if_neg (fun h => h rfl), strRest_esc]
  dsimp only
  rw [hcolon]
  dsimp only
  rw [if_neg (fun h => h rfl), valueOf_render hf hs]
  rfl

/-- A line of some members. -/
def renderRest (es : List (Bytes × Field)) : Bytes :=
  es.flatMap (fun e => lit "," ++ member e) ++ closing

/-- **A line of members**, the first without a comma before it. -/
def render (e : Bytes × Field) (es : List (Bytes × Field)) : Bytes :=
  lit "\x7b" ++ member e ++ renderRest es

/-- The fields by key. -/
def fieldsOf (m : SortedMap Bytes Bytes) (es : List (Bytes × Field)) : SortedMap Bytes Bytes :=
  es.foldl (fun m e => m.insert e.1 e.2.text) m

/-- The members of a line are read back, by induction on them. -/
theorem membersOf_render {es : List (Bytes × Field)} :
    ∀ {e : Bytes × Field} {m : SortedMap Bytes Bytes}
    {fuel : ℕ}, (∀ x ∈ e :: es, Plain x.1 ∧ x.2.Ok) → es.length < fuel →
    membersOf fuel m (member e ++ renderRest es) = some (fieldsOf m (e :: es)) := by
  induction es with
  | nil =>
    intro e m fuel h hfuel
    obtain ⟨fuel, rfl⟩ := Nat.exists_eq_succ_of_ne_zero (Nat.ne_zero_of_lt hfuel)
    obtain ⟨hk, hf⟩ := h e List.mem_cons_self
    have hstop : Stop (renderRest []) := ⟨ch '\x7d', [], rfl, Or.inr rfl⟩
    rw [membersOf, memberOf_member hk hf hstop]
    rfl
  | cons e' es ih =>
    intro e m fuel h hfuel
    obtain ⟨fuel, rfl⟩ := Nat.exists_eq_succ_of_ne_zero (Nat.ne_zero_of_lt hfuel)
    obtain ⟨hk, hf⟩ := h e List.mem_cons_self
    have hrest : renderRest (e' :: es) = ch ',' :: (member e' ++ renderRest es) := by
      rw [renderRest, List.flatMap_cons, renderRest]
      simp only [List.append_assoc]
      rfl
    have hskip : skip (ch ',' :: (member e' ++ renderRest es)) =
        ch ',' :: (member e' ++ renderRest es) :=
      rfl
    rw [membersOf, hrest, memberOf_member hk hf ⟨_, _, rfl, Or.inl rfl⟩]
    dsimp only
    rw [hskip]
    dsimp only
    rw [if_pos rfl, ih (fun x hx => h x (List.mem_cons_of_mem e hx)) (Nat.lt_of_succ_lt_succ hfuel)]
    rfl

/-- **A line is read back**, field by field. -/
theorem parseLine_render {e : Bytes × Field} {es : List (Bytes × Field)}
    (h : ∀ x ∈ e :: es, Plain x.1 ∧ x.2.Ok) :
    parseLine (render e es) = some (fieldsOf ∅ (e :: es)) := by
  have hopen : skip (render e es) = ch '\x7b' :: (member e ++ renderRest es) := by
    rw [render, List.append_assoc]
    rfl
  have hmem : skip (member e ++ renderRest es) = member e ++ renderRest es := rfl
  have hcons : member e ++ renderRest es =
      ch '"' :: (e.1 ++ lit "\":" ++ e.2.render ++ renderRest es) := by
    rw [member]
    simp only [List.append_assoc]
    rfl
  have hlen : es.length < (e.1 ++ lit "\":" ++ e.2.render ++ renderRest es).length + 1 := by
    have : es.length ≤ (renderRest es).length := by
      clear h hopen hmem hcons
      induction es with
      | nil => exact Nat.zero_le _
      | cons e' es ih =>
        rw [renderRest, List.flatMap_cons, List.append_assoc, List.length_append]
        have : 1 ≤ (lit "," ++ member e').length := by
          rw [List.length_append]
          exact Nat.le_add_right 1 _
        rw [renderRest] at ih
        rw [List.length_cons]
        omega
    rw [List.length_append]
    omega
  rw [parseLine, hopen]
  dsimp only
  rw [if_neg (fun h => h rfl), hmem]
  have hrun := membersOf_render (m := ∅) h hlen
  rw [hcons] at hrun ⊢
  dsimp only
  rw [if_neg (by decide), hrun]

end assoclog

end DsdServer
