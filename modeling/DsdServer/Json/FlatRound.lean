import DsdServer.Data.Inserted
import DsdServer.Json.Flat
import DsdServer.Json.RoundTrip

/-!
# Json/FlatRound — flat objects, written and read

The writer of flat objects escapes quotes, backslashes and control bytes.  The reader takes the byte
after a backslash as it is, so that it undoes the first two and not the third.

* `parseFlatObject_writeObject` — what the reader makes of what was written.
* `flat_round_trip_iff` — **an object is read back as it was exactly when it has no control bytes.**

That the two sides differ is no matter for what the server itself writes and a browser reads.  It
matters for a text that goes through both, and the condition says for which texts it does.
-/

open Bytes

namespace DsdServer

namespace json

open assocjson (escByte hexDigit)

/-! ## The writer

The writer is used field by field, so it keeps whether one was written yet. -/

/-- What is written so far, but for the closing brace. -/
structure Writer where
  buf : Bytes := lit "\x7b"
  first : Bool := true

/-- A value that is no number. -/
inductive Field
  | str (s : Bytes)
  | boolean (b : Bool)
  deriving DecidableEq

namespace Writer

def escape (s : Bytes) : Bytes := s.flatMap escByte

/-- A comma before every field but the first. -/
def sep (w : Writer) : Writer :=
  { buf := if w.first then w.buf else w.buf ++ lit ",", first := false }

def field (w : Writer) (key : Bytes) : Field → Writer
  | .str value =>
    { w.sep with
      buf := w.sep.buf ++ (lit "\"" ++ escape key ++ lit "\":\"" ++ escape value ++ lit "\"") }
  | .boolean value =>
    { w.sep with
      buf := w.sep.buf ++
      (lit "\"" ++ escape key ++ lit "\":" ++ if value then lit "true" else lit "false") }

/-- The text of the object. -/
def str (w : Writer) : Bytes := w.buf ++ lit "\x7d"

end Writer

/-- **The object of some fields**, as the writer makes it. -/
def writeObject (fields : List (Bytes × Field)) : Bytes :=
  (fields.foldl (fun w kv => w.field kv.1 kv.2) ({} : Writer)).str

/-! ## Read back as it was

What should come back is the last value of every key. -/

/-- The value a field should have. -/
def Field.value : Field → Value
  | .str s => .str s
  | .boolean b => .boolean b

/-- **An object is read back as it was**: the keys that were written, and no others, with their
values. -/
def ReadBack (fields : List (Bytes × Field)) : Prop :=
  ∃ o, parseFlatObject (writeObject fields) = .ok o ∧
    ∀ k v, o.find? k = some v ↔ ∃ x, (k, x) ∈ fields ∧ x.value = v

/-- No control bytes. -/
def Printable (s : Bytes) : Prop := ∀ c ∈ s, 0x20 ≤ c

instance (s : Bytes) : Decidable (Printable s) := List.decidableBAll _ s

/-- A field without control bytes. -/
def Field.Printable : Field → Prop
  | .str s => json.Printable s
  | .boolean _ => True

instance : DecidablePred Field.Printable
  | .str s => inferInstanceAs (Decidable (json.Printable s))
  | .boolean _ => .isTrue trivial

/-! ## What is read of a text

An escaped control byte begins with a backslash and a letter, and the reader takes the letter: of a
line break it gives an `n`.  That is the one loss. -/

/-- A byte as it is read back: of the escape of a control byte the backslash is gone. -/
def readByte (c : UInt8) : Bytes :=
  if c = 10 then [ch 'n']
  else if c = 13 then [ch 'r']
  else if c = 9 then [ch 't']
  else if c < 0x20 then lit "u00" ++ [hexDigit (c.toNat / 16), hexDigit (c.toNat % 16)]
  else [c]

/-- What the reader makes of a text that was escaped. -/
def readText (s : Bytes) : Bytes := s.flatMap readByte

/-- What the reader makes of a field. -/
def Field.read : Field → Value
  | .str s => .str (readText s)
  | .boolean b => .boolean b

/-- A byte that is read back is no control byte… -/
theorem printable_readByte (c : UInt8) : Printable (readByte c) :=
  forall_byte (P := fun c => Printable (readByte c)) (by decide +kernel) c

/-- …so it is read back as it was exactly when it is none. -/
theorem readByte_of_printable {c : UInt8} (h : 0x20 ≤ c) : readByte c = [c] := by
  revert h
  exact forall_byte (P := fun c => 0x20 ≤ c → readByte c = [c]) (by decide +kernel) c

/-- What is read has no control bytes. -/
theorem printable_readText (s : Bytes) : Printable (readText s) := by
  intro c hc
  obtain ⟨d, -, hd⟩ := List.mem_flatMap.1 hc
  exact printable_readByte d c hd

/-- A text without control bytes is read as it was. -/
theorem readText_of_printable {s : Bytes} (h : Printable s) : readText s = s := by
  induction s with
  | nil => rfl
  | cons c s ih =>
    rw [readText, List.flatMap_cons, readByte_of_printable (h c List.mem_cons_self), ← readText,
      ih fun d hd => h d (List.mem_cons_of_mem c hd)]
    rfl

/-- A field without control bytes is read as it was. -/
theorem Field.read_of_printable {x : Field} (h : x.Printable) : x.read = x.value := by
  cases x with
  | str s => exact congrArg Value.str (readText_of_printable h)
  | boolean b => rfl

/-- A byte after a backslash is taken as it is. -/
theorem quoted_escape (e : UInt8) (s : Bytes) :
    quoted (ch '\\' :: e :: s) = (e :: (quoted s).1, (quoted s).2) := by
  rw [quoted, if_neg (by decide), if_pos rfl]

theorem quoted_plain {c : UInt8} (hq : c ≠ ch '"') (hb : c ≠ ch '\\') (s : Bytes) :
    quoted (c :: s) = (c :: (quoted s).1, (quoted s).2) := by
  cases s with
  | nil => exact if_neg hq
  | cons e s => rw [quoted, if_neg hq, if_neg hb]

theorem quoted_close (s : Bytes) : quoted (ch '"' :: s) = ([], s) := by
  cases s with
  | nil => rw [quoted, if_pos rfl]
  | cons e s => rw [quoted, if_pos rfl]

/-- The escape of a control byte by its code point is read as plain text. -/
theorem quoted_control {c : UInt8} (hc : c < 0x20) (s : Bytes) :
    quoted (lit "\\u00" ++ [hexDigit (c.toNat / 16), hexDigit (c.toNat % 16)] ++ s) =
      (lit "u00" ++ [hexDigit (c.toNat / 16), hexDigit (c.toNat % 16)] ++ (quoted s).1,
        (quoted s).2) := by
  have hdigit : ∀ k < 16, hexDigit k ≠ ch '"' ∧ hexDigit k ≠ ch '\\' := by decide +kernel
  have hlt : c.toNat < 32 := UInt8.lt_iff_toNat_lt.1 hc
  obtain ⟨hq, hb⟩ := hdigit (c.toNat / 16) (by omega)
  obtain ⟨hq', hb'⟩ := hdigit (c.toNat % 16) (by omega)
  change quoted (ch '\\' :: ch 'u' :: ch '0' :: ch '0' :: hexDigit (c.toNat / 16) :: hexDigit
    (c.toNat % 16) :: s) = _
  rw [quoted_escape, quoted_plain (by decide) (by decide), quoted_plain (by decide) (by decide),
    quoted_plain hq hb, quoted_plain hq' hb']
  rfl

/-- **An escaped byte is read** as the byte, or as the letters of its escape. -/
theorem quoted_escByte (c : UInt8) (s : Bytes) :
    quoted (escByte c ++ s) = (readByte c ++ (quoted s).1, (quoted s).2) := by
  rw [escByte]
  split_ifs with h1 h2 h3 h4 h5 h6
  · rw [h1]
    exact quoted_escape _ s
  · rw [h2]
    exact quoted_escape _ s
  · rw [h3]
    exact quoted_escape _ s
  · rw [h4]
    exact quoted_escape _ s
  · rw [h5]
    exact quoted_escape _ s
  · rw [quoted_control h6, readByte, if_neg h3, if_neg h4, if_neg h5, if_pos h6]
  · rw [readByte, if_neg h3, if_neg h4, if_neg h5, if_neg h6]
    exact quoted_plain h1 h2 s

/-- **A text is read up to its closing quote.** -/
theorem quoted_escaped (s rest : Bytes) :
    quoted (Writer.escape s ++ ch '"' :: rest) = (readText s, rest) := by
  induction s with
  | nil => exact quoted_close rest
  | cons c s ih =>
    rw [Writer.escape, List.flatMap_cons, List.append_assoc, quoted_escByte, ← Writer.escape, ih]
    rfl

/-! ## What is read of an object

The text of the object is taken apart again into its members.  Nothing that was written can end a
text early, as quotes are escaped. -/

/-- A field's value, as it is written. -/
def Field.text : Field → Bytes
  | .str s => ch '"' :: (Writer.escape s ++ [ch '"'])
  | .boolean b => if b then lit "true" else lit "false"

/-- A member, as it is written. -/
def memberText (kv : Bytes × Field) : Bytes :=
  ch '"' :: (Writer.escape kv.1 ++ ch '"' :: ch ':' :: kv.2.text)

/-- Writing a field is writing its member. -/
theorem field_eq (w : Writer) (kv : Bytes × Field) :
    w.field kv.1 kv.2 = { buf := w.sep.buf ++ memberText kv, first := false } := by
  obtain ⟨k, x⟩ := kv
  cases x with
  | str value => simp [Writer.field, Writer.sep, memberText, Field.text, lit]
  | boolean value => simp [Writer.field, Writer.sep, memberText, Field.text, lit]

/-- Writing several fields, one after another. -/
theorem foldl_field (fields : List (Bytes × Field)) : ∀ buf,
    (fields.foldl (fun w kv => w.field kv.1 kv.2) ({ buf := buf, first := false } : Writer)).str =
      buf ++ (fields.flatMap fun kv => ch ',' :: memberText kv) ++ lit "\x7d" := by
  induction fields with
  | nil => exact fun buf => by simp [Writer.str]
  | cons kv fields ih =>
    intro buf
    rw [List.foldl_cons, field_eq, ih]
    simp [Writer.sep, lit]

/-- An object, its first member without a comma. -/
theorem writeObject_cons (kv : Bytes × Field) (fields : List (Bytes × Field)) :
    writeObject (kv :: fields) =
      ch '{' ::
        (memberText kv ++ ((fields.flatMap fun kv => ch ',' :: memberText kv) ++ [ch '}'])) := by
  rw [writeObject, List.foldl_cons, field_eq, foldl_field]
  simp [Writer.sep, lit, ch]

theorem ws_text (x : Field) (rest : Bytes) : mjson.ws (x.text ++ rest) = x.text ++ rest := by
  cases x with
  | str s => exact mjson.ws_cons (by decide) _
  | boolean b => cases b <;> exact mjson.ws_cons (by decide) _

/-- **A value is read**, as the reader makes of it. -/
theorem value_text (x : Field) (rest : Bytes) : value (x.text ++ rest) = .ok (x.read, rest) := by
  cases x with
  | str s =>
    have hquote : [ch '"'].isPrefixOf (ch '"' :: (Writer.escape s ++ ch '"' :: rest)) = true := rfl
    rw [Field.text, List.cons_append, List.append_assoc, List.singleton_append, value,
      if_pos hquote]
    simp only [List.drop_succ_cons, List.drop_zero, quoted_escaped]
    rfl
  | boolean b => cases b <;> rfl

/-- **A member is read**, as the reader makes of it. -/
theorem member_memberText (kv : Bytes × Field) (rest : Bytes) :
    member (memberText kv ++ rest) = .ok ((readText kv.1, kv.2.read), rest) := by
  have htext : memberText kv ++ rest =
      ch '"' :: (Writer.escape kv.1 ++ ch '"' :: ch ':' :: (kv.2.text ++ rest)) := by
    rw [memberText, List.cons_append, List.append_assoc, List.cons_append, List.cons_append]
  rw [htext, member, mjson.ws_cons (by decide)]
  simp only [ne_eq, not_true_eq_false, if_false, quoted_escaped,
    mjson.ws_cons (show mjson.isSpace (ch ':') = false by decide), ws_text, value_text]
  rfl

/-- The members, each after a comma, and the closing brace. -/
def restText (fields : List (Bytes × Field)) : Bytes :=
  (fields.flatMap fun kv => ch ',' :: memberText kv) ++ [ch '}']

/-- The entries of an object, as they are read. -/
def readFields (fields : List (Bytes × Field)) : List (Bytes × Value) :=
  fields.map fun kv => (readText kv.1, kv.2.read)

/-- **The members are read one after another.** -/
theorem members_text (fields : List (Bytes × Field)) :
    ∀ (kv : Bytes × Field) (o : FlatObject) (n : ℕ),
    fields.length < n → members n o (memberText kv ++ restText fields) =
      .ok ((readFields (kv :: fields)).foldl (fun o kv => o.insert kv.1 kv.2) o) := by
  induction fields with
  | nil =>
    intro kv o n hn
    obtain ⟨n, rfl⟩ := Nat.exists_eq_succ_of_ne_zero (Nat.ne_zero_of_lt hn)
    rw [members, member_memberText]
    rfl
  | cons kv' fields ih =>
    intro kv o n hn
    obtain ⟨n, rfl⟩ := Nat.exists_eq_succ_of_ne_zero (Nat.ne_zero_of_lt hn)
    have hrest : restText (kv' :: fields) = ch ',' :: (memberText kv' ++ restText fields) := by
      rw [restText, List.flatMap_cons, List.append_assoc, List.cons_append, ← restText]
    rw [members, member_memberText]
    simp only [hrest, mjson.ws_cons (show mjson.isSpace (ch ',') = false by decide), if_true,
      ih kv' _ n (Nat.lt_of_succ_lt_succ hn)]
    rfl

/-- There are no more members than bytes. -/
theorem length_restText (fields : List (Bytes × Field)) :
    fields.length < (restText fields).length := by
  induction fields with
  | nil => exact Nat.zero_lt_one
  | cons kv fields ih =>
    have hrest : restText (kv :: fields) = ch ',' :: (memberText kv ++ restText fields) := by
      rw [restText, List.flatMap_cons, List.append_assoc, List.cons_append, ← restText]
    rw [hrest, List.length_cons, List.length_cons, List.length_append]
    omega

/-- **What the reader makes of an object that was written**: its fields as they are read back. -/
theorem parseFlatObject_writeObject (fields : List (Bytes × Field)) :
    parseFlatObject (writeObject fields) =
    .ok ((readFields fields).foldl (fun o kv => o.insert kv.1 kv.2) ∅) := by
  cases fields with
  | nil => rfl
  | cons kv fields =>
    have hlength : fields.length <
        (Writer.escape kv.1 ++ ch '"' :: ch ':' :: kv.2.text ++ restText fields).length + 2 := by
      have := length_restText fields
      rw [List.length_append]
      omega
    have hmembers := members_text fields kv ∅ _ hlength
    rw [writeObject_cons, ← restText, parseFlatObject, mjson.ws_cons (by decide)]
    simp only [ne_eq, not_true_eq_false, if_false]
    rw [memberText, List.cons_append] at hmembers ⊢
    rw [mjson.ws_cons (by decide)]
    simp only [show ¬ (ch '"' = ch '\x7d') by decide, if_false]
    exact hmembers

/-! ## What the object holds

Two objects are equal when they have the same value under every key, so a key or a value with a
control byte in it makes a difference that can be told. -/

/-- Fields without control bytes are read as they were. -/
theorem readFields_of_printable {fields : List (Bytes × Field)}
    (h : ∀ kv ∈ fields, Printable kv.1 ∧ kv.2.Printable) :
    readFields fields = fields.map fun kv => (kv.1, kv.2.value) :=
  List.map_congr_left fun kv hkv =>
    Prod.ext (readText_of_printable (h kv hkv).1) (Field.read_of_printable (h kv hkv).2)

/-- A field that is read as it was has no control bytes. -/
theorem Field.printable_of_value_eq_read {x y : Field} (h : x.value = y.read) : x.Printable := by
  cases x with
  | str s => cases y with
    | str t =>
      obtain rfl : s = readText t := Value.str.inj h
      exact printable_readText t
    | boolean b => cases h
  | boolean b => trivial

/-- **The round trip of a flat object**: its keys and values come back, those and no others, exactly
when there is no control byte in them. -/
theorem flat_round_trip_iff {fields : List (Bytes × Field)} (hkeys : (fields.map (·.1)).Nodup) :
    ReadBack fields ↔ ∀ kv ∈ fields, Printable kv.1 ∧ kv.2.Printable := by
  constructor
  · rintro ⟨o, ho, hfind⟩ ⟨k, x⟩ hkv
    obtain rfl := Except.ok.inj ((parseFlatObject_writeObject fields).symm.trans ho)
    -- what is read has no control bytes
    rcases SortedMap.find?_of_insertEach ((hfind k x.value).2 ⟨x, hkv, rfl⟩) with
      h | ⟨kv, h, rfl, hvalue⟩
    · cases h
    · obtain ⟨⟨k', x'⟩, -, rfl⟩ := List.mem_map.1 h
      exact ⟨printable_readText k', Field.printable_of_value_eq_read hvalue.symm⟩
  · intro h
    refine ⟨_, parseFlatObject_writeObject fields, fun k v => ?_⟩
    rw [readFields_of_printable h]
    constructor
    · intro hv
      rcases SortedMap.find?_of_insertEach hv with hnone | ⟨kv, hkv, rfl, rfl⟩
      · cases hnone
      · obtain ⟨⟨k', x⟩, hx, rfl⟩ := List.mem_map.1 hkv
        exact ⟨x, hx, rfl⟩
    · rintro ⟨x, hx, rfl⟩
      refine SortedMap.find?_insertEach_of_mem (a := (k, x.value)) ?_
        (List.mem_map.2 ⟨(k, x), hx, rfl⟩)
      rw [List.map_map]
      exact hkeys

/-- A line feed comes back as a letter. -/
theorem flat_round_trip_newline : ¬ ReadBack [(lit "net", .str [10])] := by
  rintro ⟨o, ho, hfind⟩
  obtain rfl := Except.ok.inj ((parseFlatObject_writeObject _).symm.trans ho)
  exact absurd ((hfind (lit "net") (.str [10])).2 ⟨.str [10], List.mem_cons_self, rfl⟩) (by decide)

/-- A quote and a backslash come back, and so does no control byte. -/
theorem flat_round_trip_iff_quoted :
    ReadBack [(lit "a\\b", .str (lit "say \"hi\"")), (lit "on", .boolean true)] :=
  (flat_round_trip_iff (by decide)).2 (by decide +kernel)

end json

end DsdServer
