import DsdServer.Json.RoundTrip

/-!
# Server/Ranges — the part of a call's audio that is asked for

A player asks for a call's audio whole or by a range of bytes.  Of ranges the server reads one, from
a first byte, to a last one or of the last bytes, by hand: `range_answered` says what it answers to
any text, and that a range as HTTP has it is answered with the bytes it means.
-/

open Bytes

namespace DsdServer

/-! ## The numbers

The library's function reads a sign too, and saturates.  A minus sign gives a number near the
greatest, which no file has as its length. -/

/-- The sign a number starts with, and the rest. -/
def signOf (s : Bytes) : Bool × Bytes :=
  match s with
  | [] => (false, [])
  | c :: t => if c = ch '-' then (true, t) else if c = ch '+' then (false, t) else (false, s)

/-- **The library's string to unsigned**, to the base of ten: a number of more than 64 bits gives
the greatest, and a minus sign counts down from zero. -/
def strtoull (s : Bytes) : ℕ :=
  let (neg, t) := signOf (mjson.ws s)
  let n := mjson.natOf 10 (t.takeWhile isDigit)
  if 2 ^ 64 ≤ n then 2 ^ 64 - 1 else if neg then (2 ^ 64 - n) % 2 ^ 64 else n

/-! ## The answer

Positions are unsigned words of 64 bits in the source.  They do not wrap here, because each is
brought below the length before anything is added to it. -/

/-- A response, with its headers. -/
structure AudioResponse where
  status : ℕ
  headers : List (Bytes × Bytes)
  body : Bytes
  deriving DecidableEq

/-- The first and the last byte that a range asks for, if it is one. -/
def askedRange (range : Bytes) (size : ℕ) : Option (ℕ × ℕ) :=
  if (lit "bytes=").isPrefixOf range && !range.contains (ch ',') then
    (cut (ch '-') (range.drop 6)).map fun p =>
      if p.1 = [] ∧ p.2 ≠ [] then (size - min (strtoull p.2) size, size - 1)
      else (strtoull p.1, if p.2 ≠ [] then min (strtoull p.2) (size - 1) else size - 1)
  else none

/-- **A call's audio**, the data of its file, as a `Range` header asks for it. -/
def serveAudio (file : Option Bytes) (range : Bytes) : AudioResponse :=
  let data := file.getD []
  if file = none ∨ data.length < 44 then
    { status := 404
      headers := [(lit "Content-Type", lit "text/plain; charset=utf-8")]
      body := lit "no such audio\n" }
  else
    let asked := askedRange range data.length
    let (a, z) := asked.getD (0, data.length - 1)
    if asked.isSome ∧ (a > z ∨ a ≥ data.length) then
      { status := 416
        headers := [(lit "Content-Range", lit "bytes */" ++ dec data.length)]
        body := [] }
    else
      { status := if asked.isSome then 206 else 200
        headers := [(lit "Content-Type", lit "audio/wav"), (lit "Accept-Ranges", lit "bytes"),
            (lit "Cache-Control", lit "no-store")] ++
          if asked.isSome then
            [(lit "Content-Range", lit "bytes " ++ dec a ++ lit "-" ++ dec z ++ lit "/" ++
              dec data.length)]
          else []
        body := if asked.isSome then (data.drop a).take (z - a + 1) else data }

/-! ## Ranges as HTTP has them

There are three forms of one range: from a first byte to a last, from a byte on, and the last so
many bytes.  A list of ranges is not read, and is answered with the whole file. -/

/-- A decimal number, of any length. -/
def Digits (s : Bytes) : Prop := s ≠ [] ∧ s.all isDigit

instance (s : Bytes) : Decidable (Digits s) := inferInstanceAs (Decidable (_ ∧ _))

/-- A range, by the digits of its numbers. -/
inductive ByteRange
  | between (first last : Bytes)
  | since (first : Bytes)
  | suffix (count : Bytes)

namespace ByteRange

/-- Its numbers are of digits, at least one. -/
def Valid : ByteRange → Prop
  | between first last => Digits first ∧ Digits last
  | since first => Digits first
  | suffix count => Digits count

/-- The header of a range. -/
def text : ByteRange → Bytes
  | between first last => lit "bytes=" ++ (first ++ ch '-' :: last)
  | since first => lit "bytes=" ++ (first ++ ch '-' :: [])
  | suffix count => lit "bytes=" ++ ([] ++ ch '-' :: count)

/-- **The bytes a range means**, of so many: the last is at most the last there is, and a suffix at
most all there are. -/
def interval (size : ℕ) : ByteRange → Option (ℕ × ℕ)
  | between first last =>
    let a := mjson.natOf 10 first
    let z := mjson.natOf 10 last
    if a ≤ z ∧ a < size then some (a, min z (size - 1)) else none
  | since first =>
    let a := mjson.natOf 10 first
    if a < size then some (a, size - 1) else none
  | suffix count =>
    let n := mjson.natOf 10 count
    if 0 < n ∧ 0 < size then some (size - min n size, size - 1) else none

end ByteRange

/-- **The bytes from `a` to `z`**, and said to be those. -/
structure Partial (data : Bytes) (a z : ℕ) (res : AudioResponse) : Prop where
  status : res.status = 206
  le : a ≤ z
  lt : z < data.length
  named : (lit "Content-Range", lit "bytes " ++ dec a ++ lit "-" ++ dec z ++ lit "/" ++
    dec data.length) ∈ res.headers
  body : res.body = (data.drop a).take (z - a + 1)
  size : res.body.length = z - a + 1

/-- The whole file. -/
structure Whole (data : Bytes) (res : AudioResponse) : Prop where
  status : res.status = 200
  body : res.body = data

/-! ## What is answered -/

section

variable {data range : Bytes}

theorem serveAudio_of_some (h : 44 ≤ data.length) {a z : ℕ}
    (hr : askedRange range data.length = some (a, z)) :
    serveAudio (some data) range =
      if a > z ∨ a ≥ data.length then
        ⟨416, [(lit "Content-Range", lit "bytes */" ++ dec data.length)], []⟩
      else
        ⟨206, [(lit "Content-Type", lit "audio/wav"), (lit "Accept-Ranges", lit "bytes"),
          (lit "Cache-Control", lit "no-store"),
          (lit "Content-Range", lit "bytes " ++ dec a ++ lit "-" ++ dec z ++ lit "/" ++
            dec data.length)],
          (data.drop a).take (z - a + 1)⟩ := by
  have hdata : ¬ (some data = none ∨ data.length < 44) := by simpa using h
  rw [serveAudio]
  simp only [Option.getD_some, if_neg hdata, hr]
  simp

/-- **Without a range the whole file is sent.** -/
theorem whole_of_none (h : 44 ≤ data.length) (hr : askedRange range data.length = none) :
    Whole data (serveAudio (some data) range) := by
  have hdata : ¬ (some data = none ∨ data.length < 44) := by simpa using h
  rw [serveAudio]
  simp only [Option.getD_some, if_neg hdata, hr]
  exact ⟨rfl, rfl⟩

/-- **A range beyond the file is refused.** -/
theorem unsatisfiable_of_some (h : 44 ≤ data.length) {a z : ℕ}
    (hr : askedRange range data.length = some (a, z)) (haz : a > z ∨ a ≥ data.length) :
    (serveAudio (some data) range).status = 416 := by
  rw [serveAudio_of_some h hr, if_pos haz]

/-- The last byte asked for is one of the file. -/
theorem askedRange_lt {size a z : ℕ} (hsize : 0 < size) (hr : askedRange range size = some (a, z)) :
    z < size := by
  rw [askedRange] at hr
  split_ifs at hr
  obtain ⟨p, -, hp⟩ := Option.map_eq_some_iff.1 hr
  split_ifs at hp
  · obtain ⟨-, rfl⟩ := Prod.mk.inj hp
    omega
  · obtain ⟨-, rfl⟩ := Prod.mk.inj hp
    omega
  · obtain ⟨-, rfl⟩ := Prod.mk.inj hp
    omega

/-- **Any other range is sent**, and no more. -/
theorem partial_of_some (h : 44 ≤ data.length) {a z : ℕ}
    (hr : askedRange range data.length = some (a, z)) (haz : a ≤ z ∧ a < data.length) :
    Partial data a z (serveAudio (some data) range) := by
  have hlt := askedRange_lt (by omega) hr
  rw [serveAudio_of_some h hr, if_neg (by omega)]
  refine ⟨rfl, haz.1, hlt, ?_, rfl, ?_⟩
  · exact List.mem_cons_of_mem _
      (List.mem_cons_of_mem _ (List.mem_cons_of_mem _ List.mem_cons_self))
  · rw [List.length_take, List.length_drop]
    omega

end

/-! ## What is asked for

For each form, which bytes it stands for in a file of a given length.  Numbers beyond 64 bits are no
exception, since no file is that long. -/

/-- A number of digits is read, up to the greatest. -/
theorem strtoull_digits {s : Bytes} (h : Digits s) :
    strtoull s = min (mjson.natOf 10 s) (2 ^ 64 - 1) := by
  have hplain : ∀ c : UInt8, isDigit c → mjson.isSpace c = false ∧ c ≠ ch '-' ∧ c ≠ ch '+' :=
    fun c hc => by
    revert hc
    exact forall_byte (P := fun c => isDigit c → mjson.isSpace c = false ∧ c ≠ ch '-' ∧ c ≠ ch '+')
      (by decide +kernel) c
  obtain ⟨hne, hall⟩ := h
  obtain ⟨c, t, rfl⟩ := List.exists_cons_of_ne_nil hne
  obtain ⟨hspace, hminus, hplus⟩ := hplain c (List.all_eq_true.1 hall c List.mem_cons_self)
  have hdigits : (c :: t).takeWhile isDigit = c :: t :=
    List.takeWhile_eq_self_iff.2 (List.all_eq_true.1 hall)
  rw [strtoull, mjson.ws_cons hspace, signOf, if_neg hminus, if_neg hplus]
  simp only [hdigits, Bool.false_eq_true, if_false]
  split_ifs <;> omega

theorem not_mem_digits {s : Bytes} (h : s.all isDigit) {c : UInt8} (hc : isDigit c = false) :
    c ∉ s := fun hm => by
  have hd := List.all_eq_true.1 h c hm
  rw [hc] at hd
  exact Bool.false_ne_true hd

/-- **One range is read as its two sides.** -/
theorem askedRange_eq {lo hi : Bytes} (hlo : lo.all isDigit) (hhi : hi.all isDigit) (size : ℕ) :
    askedRange (lit "bytes=" ++ (lo ++ ch '-' :: hi)) size = some
      (if lo = [] ∧ hi ≠ [] then (size - min (strtoull hi) size, size - 1)
      else (strtoull lo, if hi ≠ [] then min (strtoull hi) (size - 1) else size - 1)) := by
  have hprefix : (lit "bytes=").isPrefixOf (lit "bytes=" ++ (lo ++ ch '-' :: hi)) = true :=
    List.isPrefixOf_iff_prefix.2 (List.prefix_append ..)
  have hcomma : (lit "bytes=" ++ (lo ++ ch '-' :: hi)).contains (ch ',') = false := by
    rw [← Bool.not_eq_true, List.contains_iff_mem, List.mem_append, List.mem_append, List.mem_cons,
      not_or, not_or, not_or]
    exact ⟨by decide, not_mem_digits hlo (by decide), by decide, not_mem_digits hhi (by decide)⟩
  have hdrop : (lit "bytes=" ++ (lo ++ ch '-' :: hi)).drop 6 = lo ++ ch '-' :: hi := rfl
  rw [askedRange, hprefix, hcomma, hdrop, cut_of_not_mem (not_mem_digits hlo (by decide))]
  rfl

/-- **A range is asked for as HTTP has it**: no byte of the file is beyond 64 bits, so a greater
number makes no difference. -/
theorem askedRange_text {r : ByteRange} (hr : r.Valid) {size : ℕ} (hsize : 0 < size)
    (hfits : size < 2 ^ 64) :
    ∃ a z, askedRange r.text size = some (a, z) ∧
      r.interval size = if a ≤ z ∧ a < size then some (a, z) else none := by
  cases r with
  | between first last =>
    rw [ByteRange.text, askedRange_eq hr.1.2 hr.2.2, if_neg (fun h => hr.1.1 h.1), if_pos hr.2.1,
      strtoull_digits hr.1, strtoull_digits hr.2, ByteRange.interval]
    refine ⟨_, _, rfl, ?_⟩
    generalize mjson.natOf 10 first = a
    generalize mjson.natOf 10 last = z
    split_ifs
    · congr 2 <;> omega
    · omega
    · omega
    · rfl
  | since first =>
    have hnil : ¬ ((first = [] ∧ ([] : Bytes) ≠ [])) := fun h => h.2 rfl
    rw [ByteRange.text, askedRange_eq hr.2 rfl, if_neg hnil, if_neg (not_not.2 rfl),
      strtoull_digits hr, ByteRange.interval]
    refine ⟨_, _, rfl, ?_⟩
    generalize mjson.natOf 10 first = a
    split_ifs
    · congr 2
      omega
    · omega
    · omega
    · rfl
  | suffix count =>
    rw [ByteRange.text, askedRange_eq rfl hr.2, if_pos ⟨rfl, hr.1⟩, strtoull_digits hr,
      ByteRange.interval]
    refine ⟨_, _, rfl, ?_⟩
    generalize mjson.natOf 10 count = n
    split_ifs
    · congr 2
      omega
    · omega
    · omega
    · rfl

/-- **What is answered for a call's audio**, whatever the header says: that the range cannot be
satisfied, the whole file, or the bytes from one to another and which those are; and for a range as
HTTP has it the bytes it means, if there are any. -/
theorem range_answered {data : Bytes} (h : 44 ≤ data.length) (hfits : data.length < 2 ^ 64)
    (range : Bytes) :
    ((serveAudio (some data) range).status = 416 ∨ Whole data (serveAudio (some data) range) ∨
      ∃ a z, Partial data a z (serveAudio (some data) range)) ∧
    ∀ r : ByteRange, r.Valid → range = r.text →
      match r.interval data.length with
      | some p => Partial data p.1 p.2 (serveAudio (some data) range)
      | none => (serveAudio (some data) range).status = 416 := by
  constructor
  · cases hr : askedRange range data.length with
    | none => exact Or.inr (Or.inl (whole_of_none h hr))
    | some p =>
      by_cases haz : p.1 ≤ p.2 ∧ p.1 < data.length
      · exact Or.inr (Or.inr ⟨p.1, p.2, partial_of_some h hr haz⟩)
      · exact Or.inl (unsatisfiable_of_some h hr (by omega))
  · rintro r hvalid rfl
    obtain ⟨a, z, hr, hi⟩ := askedRange_text hvalid (by omega : 0 < data.length) hfits
    rw [hi]
    by_cases haz : a ≤ z ∧ a < data.length
    · rw [if_pos haz]
      exact partial_of_some h hr haz
    · rw [if_neg haz]
      exact unsatisfiable_of_some h hr (by omega)

/-- A last byte beyond the end. -/
theorem range_answered_clamped :
    Partial (List.replicate 44 7) 40 43
      (serveAudio (some (List.replicate 44 7)) (lit "bytes=40-99")) :=
  (@range_answered (List.replicate 44 7) (by decide) (by decide) (lit "bytes=40-99")).2
    (.between (lit "40") (lit "99"))
    ⟨by decide, by decide⟩ rfl

end DsdServer
