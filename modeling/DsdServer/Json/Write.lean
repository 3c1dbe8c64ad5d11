import DsdServer.Data.SortedMap
import DsdServer.Json.Value

/-!
# Json/Write — how JSON text is written

The pieces every serializer of the explorer is made of.  Only quotes, backslashes and control bytes
are escaped: any other byte goes out as it is.
-/

open Bytes

namespace DsdServer

namespace assocjson

/-- A nibble in lower-case hexadecimal. -/
def hexDigit (n : ℕ) : UInt8 :=
  if n < 10 then ch '0' + UInt8.ofNat n else ch 'a' + UInt8.ofNat (n - 10)

/-- One byte of a string. -/
def escByte (c : UInt8) : Bytes :=
  if c = ch '"' then [ch '\\', ch '"']
  else if c = ch '\\' then [ch '\\', ch '\\']
  else if c = 10 then [ch '\\', ch 'n']
  else if c = 13 then [ch '\\', ch 'r']
  else if c = 9 then [ch '\\', ch 't']
  else if c < 0x20 then lit "\\u00" ++ [hexDigit (c.toNat / 16), hexDigit (c.toNat % 16)]
  else [c]

/-- **A string.** -/
def q (s : Bytes) : Bytes := lit "\"" ++ s.flatMap escByte ++ lit "\""

def b (v : Bool) : Bytes := if v then lit "true" else lit "false"

/-- Pieces with commas between. -/
def commas : List Bytes → Bytes
  | [] => []
  | x :: l => x ++ l.flatMap fun y => ch ',' :: y

/-- Something between braces. -/
def braces (s : Bytes) : Bytes := lit "\x7b" ++ s ++ lit "\x7d"

/-- Something between brackets. -/
def brackets (s : Bytes) : Bytes := lit "[" ++ s ++ lit "]"

/-- A member of an object. -/
def member (k v : Bytes) : Bytes := q k ++ lit ":" ++ v

/-- An array of numbers. -/
def nums (c : List ℤ) : Bytes := brackets (commas (c.map decInt))

def arr (c : List Bytes) : Bytes := brackets (commas (c.map q))

def obj (m : SortedMap Bytes Bytes) : Bytes :=
  braces (commas (m.entries.map fun kv => member kv.1 (q kv.2)))

def counts (m : SortedMap Bytes ℕ) : Bytes :=
  braces (commas (m.entries.map fun kv => member kv.1 (dec kv.2)))

/-! ## Numbers with a fraction

A double is printed as an output stream prints it: with six significant digits, without zeros at
their end, and with an exponent when it is far from one. -/

/-- The number of decimal digits before the point, less one. -/
def exponent10 (q : ℚ) : ℤ := Int.log 10 |q|

/-- The six digits a stream prints a number with, as an integer, and their exponent. -/
def sixDigits (q : ℚ) : ℕ × ℤ :=
  let e := exponent10 q
  let m := (roundEven (|q| / 10 ^ (e - 5))).toNat
  if m = 1000000 then (100000, e + 1) else (m, e)

/-- A number without its trailing zeros. -/
def trimZeros (s : Bytes) : Bytes := (s.reverse.dropWhile (· == ch '0')).reverse

/-- A whole part and a fraction, if any is left. -/
def pointed (whole frac : Bytes) : Bytes :=
  if trimZeros frac = [] then whole else whole ++ lit "." ++ trimZeros frac

/-- **A double as a stream prints it**: six significant digits, with an exponent when it is far from
one. -/
def double : Double → Bytes
  | .nan => lit "nan"
  | .inf neg => if neg then lit "-inf" else lit "inf"
  | .finite q =>
    if q = 0 then lit "0"
    else
      let (m, e) := sixDigits q
      let ds := dec m
      let sign := if q < 0 then lit "-" else []
      if e < -4 ∨ 6 ≤ e then
        let ex := dec e.natAbs
        sign ++ pointed (ds.take 1) (ds.drop 1) ++ lit "e" ++
          (if e < 0 then lit "-" else lit "+") ++
          List.replicate (2 - ex.length) (ch '0') ++ ex
      else if e < 0 then
        sign ++ pointed (lit "0") (List.replicate (e.natAbs - 1) (ch '0') ++ ds)
      else sign ++ pointed (ds.take (e.toNat + 1)) (ds.drop (e.toNat + 1))

end assocjson

end DsdServer
