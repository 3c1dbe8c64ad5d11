import DsdServer.Json.Value

/-!
# Json/Parse — the JSON reader

A recursive descent over the text that is left.  It takes what a strict reader would not — raw
control bytes in strings, numbers in any notation of the C library — and stops at the first error,
which it reports with its place.
-/

open Bytes

namespace DsdServer

namespace mjson

/-- White space, as the C library has it. -/
def isSpace (b : UInt8) : Bool := b = 32 || (9 ≤ b && b ≤ 13)

/-- What follows the white space. -/
def ws (s : Bytes) : Bytes := s.dropWhile isSpace

/-! ## Numbers

The source hands the text to `strtod`, so every notation the C library knows is a number:
hexadecimal ones, infinities, and what is not a number, with or without more in brackets. -/

/-- The value of a byte as a digit; 36 and above for one that is none. -/
def digitVal (b : UInt8) : ℕ :=
  if isDigit b then b.toNat - 48
  else if isLower b then b.toNat - 87
  else if isUpper b then b.toNat - 55
  else 36

def isDigitOf (base : ℕ) (b : UInt8) : Bool := digitVal b < base

/-- The number some digits spell. -/
def natOf (base : ℕ) (ds : Bytes) : ℕ := ds.foldl (fun n b => n * base + digitVal b) 0

/-- The digits after a point, if there is one. -/
def fraction (base : ℕ) : Bytes → Bytes × Bytes
  | c :: t => if c = ch '.' then t.span (isDigitOf base) else ([], c :: t)
  | [] => ([], [])

/-- A digit sequence with a point, at least one digit in it; its value and what is left. -/
def mantissa (base : ℕ) (s : Bytes) : Option (ℚ × Bytes) :=
  let ip := s.span (isDigitOf base)
  let fp := fraction base ip.2
  if ip.1 = [] ∧ fp.1 = [] then none
  else some (natOf base (ip.1 ++ fp.1) / base ^ fp.1.length, fp.2)

/-- An exponent after one of two marks; zero, with nothing taken, when there is none. -/
def exponent (lower upper : Char) (s : Bytes) : ℤ × Bytes :=
  match s with
  | [] => (0, [])
  | c :: t =>
    if c = ch lower ∨ c = ch upper then
      let (neg, t) := match t with
        | d :: t' => if d = ch '-' then (true, t') else if d = ch '+' then
          (false, t') else (false, t)
        | [] => (false, [])
      let ds := t.span (isDigitOf 10)
      if ds.1 = [] then (0, s)
      else (if neg then -natOf 10 ds.1 else natOf 10 ds.1, ds.2)
    else (0, s)

/-- What is left after the name of what is no number: a word in brackets may belong to it. -/
def nanTail (s : Bytes) : Bytes :=
  match s with
  | c :: t =>
    if c = ch '(' then
      match t.dropWhile fun b => isAlnum b || b = ch '_' with
      | d :: u => if d = ch ')' then u else s
      | [] => s
    else s
  | [] => []

/-- A number without its sign. -/
def unsigned (s : Bytes) : Option ((ℚ ⊕ Double) × Bytes) :=
  let up := upper s
  if (lit "INFINITY").isPrefixOf up then some (.inr (.inf false), s.drop 8)
  else if (lit "INF").isPrefixOf up then some (.inr (.inf false), s.drop 3)
  else if (lit "NAN").isPrefixOf up then some (.inr .nan, nanTail (s.drop 3))
  else
    let hex := if (lit "0X").isPrefixOf up then
        (mantissa 16 (s.drop 2)).map fun m =>
          let e := exponent 'p' 'P' m.2
          (Sum.inl (m.1 * 2 ^ e.1), e.2)
      else none
    hex <|> (mantissa 10 s).map fun m =>
      let e := exponent 'e' 'E' m.2
      (Sum.inl (m.1 * 10 ^ e.1), e.2)

/-- Give a number its sign. -/
def signed (neg : Bool) : ℚ ⊕ Double → Double
  | .inl q => .ofRat (if neg then -q else q)
  | .inr (.inf _) => .inf neg
  | .inr d => d

/-- **The longest start of the text that is a number**, and what is left. -/
def strtod (s : Bytes) : Option (Double × Bytes) :=
  let s := ws s
  let (neg, t) := match s with
    | c :: t => if c = ch '-' then (true, t) else if c = ch '+' then (false, t) else (false, s)
    | [] => (false, [])
  (unsigned t).map fun r => (signed neg r.1, r.2)

/-! ## Strings

An escape of four hex digits may be the first half of a pair; without its second half it stands for
itself.  Raw bytes are copied, whatever they are. -/

/-- The UTF-8 bytes of a code point. -/
def utf8 (cp : ℕ) : Bytes :=
  if cp < 0x80 then [.ofNat cp]
  else if cp < 0x800 then [.ofNat (0xc0 ||| cp >>> 6), .ofNat (0x80 ||| cp &&& 0x3f)]
  else if cp < 0x10000 then
    [.ofNat (0xe0 ||| cp >>> 12), .ofNat (0x80 ||| (cp >>> 6) &&& 0x3f),
      .ofNat (0x80 ||| cp &&& 0x3f)]
  else
    [.ofNat (0xf0 ||| cp >>> 18), .ofNat (0x80 ||| (cp >>> 12) &&& 0x3f),
      .ofNat (0x80 ||| (cp >>> 6) &&& 0x3f), .ofNat (0x80 ||| cp &&& 0x3f)]

/-- Some hexadecimal digits; the text after the last byte looked at. -/
def hexDigits : ℕ → ℕ → Bytes → Option ℕ × Bytes
  | 0, cp, s => (some cp, s)
  | _ + 1, _, [] => (none, [])
  | n + 1, cp, c :: s =>
    if digitVal c < 16 then hexDigits n (cp * 16 + digitVal c) s else (none, s)

/-- Four hex digits, if they are there. -/
def hex4 (s : Bytes) : Option ℕ × Bytes := if s.length < 4 then (none, s) else hexDigits 4 0 s

/-- The code point after `\u`: of a surrogate pair when there is one. -/
def codePoint (s : Bytes) : Option ℕ × Bytes :=
  match hex4 s with
  | (none, rest) => (none, rest)
  | (some cp, rest) =>
    if 0xd800 ≤ cp ∧ cp < 0xdc00 ∧ 6 ≤ rest.length ∧ [ch '\\', ch 'u'].isPrefixOf rest then
      match hex4 (rest.drop 2) with
      | (some lo, rest') =>
        if 0xdc00 ≤ lo ∧ lo < 0xe000 then
          (some (0x10000 + (cp - 0xd800) * 0x400 + (lo - 0xdc00)), rest')
        else (some cp, rest)
      | (none, _) => (some cp, rest)
    else (some cp, rest)

/-- An error and its place, in a text of `n` bytes with `rest` left. -/
def fail {α : Type} (n : ℕ) (m : String) (rest : Bytes) : Except Bytes α :=
  .error (lit m ++ lit " at byte " ++ dec (n - rest.length))

/-- What an escape of one letter stands for. -/
def unescape (e : UInt8) : UInt8 :=
  if e = ch 'n' then 10
  else if e = ch 'r' then 13
  else if e = ch 't' then 9
  else if e = ch 'b' then 8
  else if e = ch 'f' then 12
  else e

/-- What the text after a backslash stands for, and what is left. -/
def escape (n : ℕ) : Bytes → Except Bytes (Bytes × Bytes)
  | [] => fail n "bad escape" []
  | e :: t =>
    if e = ch 'u' then
      match codePoint t with
      | (none, rest) => fail n "bad \\u escape" rest
      | (some cp, rest) => .ok (utf8 cp, rest)
    else .ok ([unescape e], t)

/-- Bytes read before the rest of a string. -/
def prepend (o : Bytes) (r : Except Bytes (Bytes × Bytes)) : Except Bytes (Bytes × Bytes) :=
  r.map fun p => (o ++ p.1, p.2)

/-- The rest of a string, to its closing quote; `fuel` exceeds the length of the text. -/
def strRest (n : ℕ) : ℕ → Bytes → Except Bytes (Bytes × Bytes)
  | 0, s => fail n "unterminated string" s
  | _ + 1, [] => fail n "unterminated string" []
  | fuel + 1, c :: s =>
    if c = ch '"' then .ok ([], s)
    else if c ≠ ch '\\' then prepend [c] (strRest n fuel s)
    else
      match escape n s with
      | .error e => .error e
      | .ok (o, rest) => prepend o (strRest n fuel rest)

/-- A string. -/
def str (n : ℕ) (s : Bytes) : Except Bytes (Bytes × Bytes) :=
  match s with
  | c :: t => if c = ch '"' then strRest n (t.length + 1) t else fail n "expected string" s
  | [] => fail n "expected string" []

/-! ## Values

Nesting is bounded, and so is the fuel of the descent, by the length of the text.  An error has the
place where it was found. -/

/-- What follows an element: the next one after a comma, or the closing bracket. -/
inductive After
  | more (rest : Bytes)
  | done (rest : Bytes)
  | other (rest : Bytes)

/-- What follows an element: another one, the end, or neither. -/
def after (close : Char) (s : Bytes) : After :=
  match ws s with
  | c :: t => if c = ch ',' then .more t else if c = ch close then .done t else .other (c :: t)
  | [] => .other []

/-- The text after a closing bracket that comes at once. -/
def closes (close : Char) (s : Bytes) : Option Bytes :=
  match ws s with
  | c :: t => if c = ch close then some t else none
  | [] => none

mutual

/-- **A value**, nested at most 64 deep. -/
def value (n : ℕ) : ℕ → ℕ → Bytes → Except Bytes (V × Bytes)
  | 0, _, s => fail n "unexpected end" s
  | fuel + 1, depth, s =>
    if 64 < depth then fail n "nested too deeply" s
    else
      match ws s with
      | [] => fail n "unexpected end" []
      | c :: t =>
        if c = ch '\x7b' then
          match closes '\x7d' t with
          | some rest => .ok (.obj [], rest)
          | none => (membersOf n fuel depth t).map fun p => (.obj p.1, p.2)
        else if c = ch '[' then
          match closes ']' t with
          | some rest => .ok (.arr [], rest)
          | none => (elementsOf n fuel depth t).map fun p => (.arr p.1, p.2)
        else if c = ch '"' then (str n (c :: t)).map fun p => (.str p.1, p.2)
        else if (lit "true").isPrefixOf (c :: t) then .ok (.bool true, (c :: t).drop 4)
        else if (lit "false").isPrefixOf (c :: t) then .ok (.bool false, (c :: t).drop 5)
        else if (lit "null").isPrefixOf (c :: t) then .ok (.null, (c :: t).drop 4)
        else
          match strtod (c :: t) with
          | none => fail n "unexpected character" (c :: t)
          | some (d, rest) => .ok (.num d, rest)

/-- The members of an object, to its closing brace. -/
def membersOf (n : ℕ) : ℕ → ℕ → Bytes → Except Bytes (List (Bytes × V) × Bytes)
  | 0, _, s => fail n "unexpected end" s
  | fuel + 1, depth, s =>
    match str n (ws s) with
    | .error e => .error e
    | .ok (k, s) =>
      match closes ':' s with
      | none => fail n "expected ':'" (ws s)
      | some s =>
        match value n fuel (depth + 1) s with
        | .error e => .error e
        | .ok (v, s) =>
          match after '\x7d' s with
          | .more s => (membersOf n fuel depth s).map fun p => ((k, v) :: p.1, p.2)
          | .done s => .ok ([(k, v)], s)
          | .other s => fail n "expected ',' or '\x7d'" s

/-- The elements of an array, to its closing bracket. -/
def elementsOf (n : ℕ) : ℕ → ℕ → Bytes → Except Bytes (List V × Bytes)
  | 0, _, s => fail n "unexpected end" s
  | fuel + 1, depth, s =>
    match value n fuel (depth + 1) s with
    | .error e => .error e
    | .ok (v, s) =>
      match after ']' s with
      | .more s => (elementsOf n fuel depth s).map fun p => (v :: p.1, p.2)
      | .done s => .ok ([v], s)
      | .other s => fail n "expected ',' or ']'" s

end

/-- **Parse a text**: a value and nothing after it. -/
def parse (text : Bytes) : Except Bytes V :=
  match value text.length (2 * text.length + 2) 0 text with
  | .error e => .error (if e = [] then lit "malformed JSON" else e)
  | .ok (v, rest) =>
    if ws rest = [] then .ok v
    else .error (lit "trailing data after JSON at byte " ++ dec (text.length - (ws rest).length))

end mjson

end DsdServer
