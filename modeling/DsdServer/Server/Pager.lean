import DsdServer.Data.Stripped
import DsdServer.Server.Extras
import DsdServer.Tetra.KitJson

/-!
# Server/Pager — pages as events

One line of the paging decoder becomes one event: its fields go into the event's extra field as
`key=value` tokens, with the separators taken out of the values, and the padding goes from the end
of the text.

* `fields_read` — **the explorer reads what was written**, and no value writes a token of its own.
* `trimPagerPadding_iff` — **what trimming leaves** is the only way to take all padding off.
-/

open Bytes

namespace DsdServer

/-! ## The end of a page

The decoder fills the last word of a page with control characters, and prints them by name.  They go
from the end together with blanks, in rounds, until a round takes nothing. -/

/-- What the decoder renders as padding. -/
def kPad : List Bytes := [lit "<NUL>", lit "<EOT>", lit "<ETX>", lit "<ETB>"]

def isBlank (c : UInt8) : Bool := c = ch ' ' || c = ch '\t'

/-- Blanks go from the end. -/
def dropBlanks (s : Bytes) : Bytes := s.rdropWhile isBlank

/-- One padding goes from the end, if it is there. -/
def dropPad (s pad : Bytes) : Bytes :=
  if pad.isSuffixOf s then s.take (s.length - pad.length) else s

/-- One round: blanks go, and then each padding once. -/
def trimRound (s : Bytes) : Bytes := kPad.foldl dropPad (dropBlanks s)

/-- Rounds, as long as they shorten the text. -/
def trimLoop : ℕ → Bytes → Bytes
  | 0, s => s
  | fuel + 1, s => if (trimRound s).length = s.length then s else trimLoop fuel (trimRound s)

/-- **A message without its padding.** -/
def trimPagerPadding (s : Bytes) : Bytes := trimLoop (s.length + 1) s

namespace multimon

open tetrakit

/-! ## Text that looks like ciphertext

A page that was encrypted, or is binary, shows as text with many control characters, or as digits
with many of the rare symbols.  The share is compared in integers here, where the source divides;
the two comparisons agree. -/

/-- Control characters as the decoder renders them. -/
def controlNames : List Bytes :=
  [lit "NUL", lit "SOH", lit "STX", lit "ETX", lit "EOT", lit "ENQ", lit "ACK", lit "BEL", lit "BS",
    lit "HT", lit "LF",
    lit "VT", lit "FF", lit "CR", lit "SO", lit "SI", lit "DLE", lit "DC1", lit "DC2", lit "DC3",
    lit "DC4", lit "NAK",
    lit "SYN", lit "ETB", lit "CAN", lit "EM", lit "SUB", lit "ESC", lit "FS", lit "GS", lit "RS",
    lit "US", lit "DEL"]

/-- The control character rendered at a text's beginning, after its bracket. -/
def controlName (s : Bytes) : Option Bytes :=
  match cut (ch '>') s with
  | none => none
  | some (name, _) => if name.length + 1 ≤ 4 ∧ name ∈ controlNames then some name else none

/-- The characters of a text, and how many of them are suspicious; the first `skip` bytes are a
name's. -/
def scan (numeric : Bool) : ℕ → Bytes → ℕ × ℕ
  | _, [] => (0, 0)
  | skip + 1, _ :: s => scan numeric skip s
  | 0, c :: s =>
    match if numeric = false ∧ c = ch '<' then controlName s else none with
    | some name =>
      let r := scan numeric (name.length + 1) s
      (r.1 + 1, if name = lit "LF" ∨ name = lit "CR" ∨ name = lit "HT" then r.2 else r.2 + 1)
    | none =>
      let r := scan numeric 0 s
      (r.1 + 1, if numeric ∧ (c = ch 'U' ∨ c = ch '[' ∨ c = ch ']') then r.2 + 1 else r.2)

/-- **Does a text look like ciphertext?**  The share of suspicious characters is compared
exactly. -/
def looksEncrypted (text : Bytes) (numeric : Bool) : Bool :=
  let r := scan numeric 0 text
  if r.1 < (if numeric then 16 else 8) then false
  else if numeric then decide (12 * r.1 ≤ 100 * r.2) else decide (10 * r.1 ≤ 100 * r.2)

/-! ## Fields

The object of the decoder is flat, as is that of the second TETRA decoder, whose reader is used. -/

/-- The fields of the paging decoder's object. -/
abbrev Fields := SortedMap Bytes Bytes

/-- A field; one that is null is empty. -/
def get (f : Fields) (key : Bytes) : Bytes :=
  match f.find? key with
  | none => []
  | some v => if v = lit "null" then [] else v

/-- A value without separators. -/
def clean (value : Bytes) : Bytes :=
  value.map fun c => if c = ch ';' ∨ c = ch '=' then ch ',' else c

/-- **One more token**, unless it has no value. -/
def addToken (extra : Bytes) (e : Bytes × Bytes) : Bytes :=
  if e.2 = [] then extra else DsdServer.addToken extra (e.1, clean e.2)

/-- The tokens of an extra field, one after another. -/
def write (ts : List (Bytes × Bytes)) : Bytes := ts.foldl addToken []

/-- What kind of page a FLEX message is, if it is one. -/
def flexMessageType (mt : Bytes) : Option Bytes :=
  if mt = lit "alphanumeric" then some (lit "alpha")
  else if mt = lit "numeric" ∨ mt = lit "special_numeric" ∨
    mt = lit "numbered_numeric" then some (lit "numeric")
  else if mt = lit "tone_only" then some (lit "tone")
  else if mt = lit "binary" then some (lit "binary")
  else if mt = lit "secure" then some (lit "secure")
  else if mt = lit "instruction" then some (lit "instruction")
  else if mt = lit "short_msg" then some (lit "short_message")
  else none

/-- The token of a page that looks like ciphertext. -/
def encryptedToken (b : Bool) : List (Bytes × Bytes) :=
  if b then [(lit "payload", lit "encrypted_or_binary")] else []

/-! ## POCSAG -/

/-- What kind of page it is, and its text. -/
def pocsagText (f : Fields) : Bytes × Bytes :=
  match [lit "alpha", lit "numeric", lit "skyper"].find? fun k => (f.find? k).isSome with
  | some k => (k, f.getD k [])
  | none => (lit "tone", [])

/-- The tokens of a POCSAG page. -/
def pocsagTokens (f : Fields) (demod : Bytes) : List (Bytes × Bytes) :=
  let t := pocsagText f
  [(lit "protocol", lit "pocsag"), (lit "baud", demod.drop 6), (lit "message_type", t.1),
    (lit "function", get f (lit "function"))] ++
    encryptedToken (t.1 ≠ lit "tone" && looksEncrypted (trimPagerPadding t.2) (t.1 = lit "numeric"))

/-- **The event of a POCSAG page.** -/
def pocsagEvent (f : Fields) (demod rawLine : Bytes) : DsdEvent where
  rawLine := rawLine
  kind := lit "page"
  talkgroup := get f (lit "address")
  message := trimPagerPadding (pocsagText f).2
  extra := write (pocsagTokens f demod)

/-! ## FLEX

A FLEX line is a page if it has an address and a type of message.  What else it says is of the
system, and is passed on only where that is wanted. -/

/-- The tokens of a FLEX page. -/
def flexPageTokens (f : Fields) (mt pageType : Bytes) : List (Bytes × Bytes) :=
  let group := get f (lit "is_group")
  [(lit "protocol", lit "flex"), (lit "baud", get f (lit "baud")), (lit "message_type", pageType),
    (lit "flex_type", mt),
    (lit "levels", get f (lit "level")), (lit "phase", get f (lit "phase")),
    (lit "cycle", get f (lit "cycle")),
    (lit "frame", get f (lit "frame")), (lit "addr_type", get f (lit "addr_type"))] ++
    (if group = [] then [] else [(lit "group", if group = lit "true" then lit "1" else lit "0")]) ++
    [(lit "fragment", get f (lit "fragment"))] ++
    encryptedToken (pageType = lit "secure" || pageType = lit "binary" ||
      ((pageType = lit "alpha" || pageType = lit "numeric") &&
        looksEncrypted (get f (lit "message")) (pageType = lit "numeric")))

/-- Fields of a system line that are said elsewhere. -/
def kSkip : List Bytes :=
  [lit "timestamp", lit "msg_type", lit "type_tag", lit "baud", lit "level", lit "phase",
    lit "cycle", lit "frame", lit "biw_position"]

/-- The tokens of any other FLEX line: all its fields but those said elsewhere. -/
def flexSystemTokens (f : Fields) (mt : Bytes) : List (Bytes × Bytes) :=
  [(lit "protocol", lit "flex"), (lit "baud", get f (lit "baud")),
    (lit "info_type", if mt = [] then lit "unknown" else mt)] ++
    f.entries.filter fun e => e.1 ∉ kSkip && e.2 ≠ lit "null"

/-- **The event of a FLEX line**: a page, or what the system says if that is wanted. -/
def flexEvent (f : Fields) (rawLine : Bytes) (forwardSystem : Bool) : Option DsdEvent :=
  let mt := get f (lit "msg_type")
  if mt = lit "bch_stats" then none
  else
    match if (f.find? (lit "capcode")).isSome then flexMessageType mt else none with
    | some pageType =>
      some
        { rawLine := rawLine
          kind := lit "page"
          talkgroup := get f (lit "capcode")
          message := get f (lit "message")
          emergency := if get f (lit "is_priority") = lit "true" then lit "1" else []
          crcError := if get f (lit "k_ok") = lit "false" then lit "1" else []
          extra := write (flexPageTokens f mt pageType) }
    | none =>
      if forwardSystem then
        some { rawLine := rawLine, kind := lit "sync", extra := write (flexSystemTokens f mt) }
      else none

/-! ## A line -/

/-- The event of a decoder's object. -/
def event (f : Fields) (rawLine : Bytes) (forwardSystem : Bool) : Option DsdEvent :=
  let demod := get f (lit "demod_name")
  if (lit "POCSAG").isPrefixOf demod then some (pocsagEvent f demod rawLine)
  else if demod = [] ∧ ((f.find? (lit "phase")).isSome ∨ (f.find? (lit "cycle")).isSome) then
    flexEvent f rawLine forwardSystem
  else none

/-- **A line's event**, if it is one. -/
def multimonLineToEvent (line : Bytes) (forwardSystem : Bool) : Except Fault (Option DsdEvent) := do
  let rep ← parseTetrakitJson line
  return if rep.valid then event rep.fields line forwardSystem else none

/-! ## Tokens read as they were written

Values are cleaned of separators before they are written, so none makes up a field.  What a value
loses is said exactly: its separators become commas, and blanks at its ends are trimmed by the
reader. -/

/-- A value as it is read: without separators, and without blanks at its end. -/
def legible (value : Bytes) : Bytes := (clean value).rdropWhile (· == ch ' ')

/-- What a reader finds in tokens. -/
def readable (ts : List (Bytes × Bytes)) : SortedMap Bytes Bytes :=
  written ((ts.filter fun e => e.2 ≠ []).map fun e => (e.1, legible e.2))

/-- Tokens with a value are written, each without separators. -/
theorem write_eq (ts : List (Bytes × Bytes)) :
    write ts = joined ((ts.filter fun e => e.2 ≠ []).map fun e => (e.1, clean e.2)) := by
  have h : ∀ (ts : List (Bytes × Bytes)) (extra : Bytes), ts.foldl addToken extra =
      ((ts.filter fun e => e.2 ≠ []).map fun e => (e.1, clean e.2)).foldl
      DsdServer.addToken extra := by
    intro ts
    induction ts with
    | nil => exact fun _ => rfl
    | cons e ts ih =>
      intro extra
      rw [List.foldl_cons, ih, addToken]
      by_cases he : e.2 = []
      · rw [if_pos he, List.filter_cons_of_neg (by simp [he])]
      · rw [if_neg he, List.filter_cons_of_pos (by simp [he]), List.map_cons, List.foldl_cons]
  exact h ts []

theorem not_mem_clean (v : Bytes) : ch ';' ∉ clean v := by
  rw [clean, List.mem_map]
  rintro ⟨c, -, hc⟩
  split_ifs at hc with h
  · exact absurd hc (by decide)
  · exact h (Or.inl hc)

/-- Trimming a token takes blanks from the end of its value. -/
theorem trim_keyText {k : Bytes} (hk : KeyForm k) (v : Bytes) :
    trim (ch ' ') (keyText (k, v)) = keyText (k, v.rdropWhile (· == ch ' ')) := by
  have hfront : (keyText (k, v)).dropWhile (· == ch ' ') = keyText (k, v) := by
    rcases k with _ | ⟨b, k⟩
    · exact absurd rfl hk.1
    · have hb : b ≠ ch ' ' := fun h => hk.2.2.2 (congrArg some h)
      exact List.dropWhile_cons_of_neg (by simpa using hb)
  have hstop : ∀ r : Bytes, (([ch '='] : Bytes) ++ r).dropWhile (· == ch ' ') = [ch '='] ++ r :=
    fun r => List.dropWhile_cons_of_neg (by decide)
  rw [trim, hfront, keyText, keyText, List.rdropWhile, List.reverse_append, List.reverse_cons,
    List.append_assoc, List.dropWhile_append]
  split_ifs with he
  · rw [List.isEmpty_iff.1 he, hstop]
    simp
  · simp

/-- **A clean value writes no token of its own.** -/
theorem assignAll_clean {k : Bytes} (hk : KeyForm k) (v : Bytes) (m : SortedMap Bytes Bytes) :
    assignAll m (keyText (k, clean v)) = m.insert k (legible v) := by
  have hsep : ch ';' ∉ keyText (k, clean v) := by
    rw [keyText, List.mem_append, List.mem_cons]
    rintro (hm | hm | hm)
    · exact hk.2.1 hm
    · exact absurd hm (by decide)
    · exact not_mem_clean v hm
  rw [assignAll, split_of_not_mem hsep, List.foldl_cons, List.foldl_nil, assign,
    trim_keyText hk, keyText, cut_of_not_mem hk.2.2.1]
  exact if_neg hk.1

/-- **Tokens are read as they were written**, up to what a value loses. -/
theorem parseExtra_write {ts : List (Bytes × Bytes)} (h : ∀ e ∈ ts, e.2 ≠ [] → KeyForm e.1) :
    parseExtra (write ts) = readable ts := by
  have hfold : ∀ (l : List (Bytes × Bytes)) (m : SortedMap Bytes Bytes), (∀ e ∈ l, KeyForm e.1) →
      (l.map fun e => (e.1, clean e.2)).foldl (fun m e => assignAll m (keyText e)) m =
        (l.map fun e => (e.1, legible e.2)).foldl (fun m e => m.insert e.1 e.2) m := by
    intro l
    induction l with
    | nil => exact fun _ _ => rfl
    | cons e l ih =>
      intro m hl
      rw [List.map_cons, List.foldl_cons, List.map_cons, List.foldl_cons,
        assignAll_clean (hl e List.mem_cons_self),
        ih _ fun x hx => hl x (List.mem_cons_of_mem e hx)]
  rw [write_eq, parseExtra_joined, readable, written]
  exact hfold _ ∅ fun e he => h e (List.mem_of_mem_filter he)
    (by simpa using (List.mem_filter.1 he).2)

/-- The tokens of a line's event. -/
def tokens (f : Fields) : List (Bytes × Bytes) :=
  let demod := get f (lit "demod_name")
  let mt := get f (lit "msg_type")
  if (lit "POCSAG").isPrefixOf demod then pocsagTokens f demod
  else
    match if (f.find? (lit "capcode")).isSome then flexMessageType mt else none with
    | some pageType => flexPageTokens f mt pageType
    | none => flexSystemTokens f mt

/-- The keys of the tokens, a system line's own aside. -/
def tokenKeys : List Bytes :=
  [lit "protocol", lit "baud", lit "message_type", lit "function", lit "payload", lit "flex_type",
    lit "levels",
    lit "phase", lit "cycle", lit "frame", lit "addr_type", lit "group", lit "fragment",
    lit "info_type"]

set_option maxRecDepth 4000 in
/-- The keys of tokens have the form of keys. -/
theorem keyForm_tokenKeys : ∀ k ∈ tokenKeys, KeyForm k := by
  unfold KeyForm
  decide

theorem mem_encryptedToken {b : Bool} {e : Bytes × Bytes} (he : e ∈ encryptedToken b) :
    e.1 ∈ tokenKeys := by
  rw [encryptedToken] at he
  split_ifs at he
  · rw [List.mem_singleton.1 he]
    decide
  · exact absurd he List.not_mem_nil

theorem mem_pocsagTokens {f : Fields} {demod : Bytes} {e : Bytes × Bytes}
    (he : e ∈ pocsagTokens f demod) :
    e.1 ∈ tokenKeys := by
  rw [pocsagTokens] at he
  rcases List.mem_append.1 he with he | he
  · have hk := List.mem_map_of_mem (f := Prod.fst) he
    revert hk
    generalize e.1 = k
    exact (by decide :
      ∀ k ∈ [lit "protocol", lit "baud", lit "message_type", lit "function"], k ∈ tokenKeys) k
  · exact mem_encryptedToken he

theorem mem_flexPageTokens {f : Fields} {mt pageType : Bytes} {e : Bytes × Bytes}
    (he : e ∈ flexPageTokens f mt pageType) : e.1 ∈ tokenKeys := by
  simp only [flexPageTokens] at he
  rcases List.mem_append.1 he with he | he
  · rcases List.mem_append.1 he with he | he
    · rcases List.mem_append.1 he with he | he
      · have hk := List.mem_map_of_mem (f := Prod.fst) he
        revert hk
        generalize e.1 = k
        exact (by decide :
          ∀ k ∈ [lit "protocol", lit "baud", lit "message_type", lit "flex_type", lit "levels",
            lit "phase", lit "cycle", lit "frame", lit "addr_type"], k ∈ tokenKeys) k
      · split_ifs at he
        · exact absurd he List.not_mem_nil
        · rw [List.mem_singleton.1 he]
          exact (by decide : lit "group" ∈ tokenKeys)
        · rw [List.mem_singleton.1 he]
          exact (by decide : lit "group" ∈ tokenKeys)
    · rw [List.mem_singleton.1 he]
      exact (by decide : lit "fragment" ∈ tokenKeys)
  · exact mem_encryptedToken he

/-- The keys of a system line are its own, or the tokens'. -/
theorem mem_flexSystemTokens {f : Fields} {mt : Bytes} {e : Bytes × Bytes}
    (he : e ∈ flexSystemTokens f mt) :
    e.1 ∈ tokenKeys ∨ f.find? e.1 = some e.2 := by
  rw [flexSystemTokens] at he
  rcases List.mem_append.1 he with he | he
  · have hk := List.mem_map_of_mem (f := Prod.fst) he
    left
    revert hk
    generalize e.1 = k
    exact (by decide : ∀ k ∈ [lit "protocol", lit "baud", lit "info_type"], k ∈ tokenKeys) k
  · exact Or.inr (SortedMap.find?_eq_some_iff.2 (List.mem_filter.1 he).1)

/-- **The explorer reads what was written**: of every page, and of a system line if the decoder's
keys have the form of keys, it finds the tokens of the line's fields, each cleaned value under its
own key, and nothing else. -/
theorem fields_read {line : Bytes} {forwardSystem : Bool} {ev : DsdEvent}
    (h : multimonLineToEvent line forwardSystem = .ok (some ev)) :
    ∃ rep, parseTetrakitJson line = .ok rep ∧ ev.rawLine = line ∧
      (ev.kind = lit "page" ∨ (∀ k v, rep.fields.find? k = some v → KeyForm k) →
        parseExtra ev.extra = readable (tokens rep.fields)) := by
  rw [multimonLineToEvent] at h
  cases hp : parseTetrakitJson line with
  | error e =>
    rw [hp] at h
    exact nomatch h
  | ok rep =>
    rw [hp] at h
    have hev : (if rep.valid then event rep.fields line forwardSystem else none) = some ev :=
      Except.ok.inj h
    split_ifs at hev
    rw [event] at hev
    refine ⟨rep, rfl, ?_⟩
    rw [tokens]
    by_cases hpoc : (lit "POCSAG").isPrefixOf (get rep.fields (lit "demod_name")) = true
    · rw [if_pos hpoc, Option.some.injEq] at hev
      rw [if_pos hpoc, ← hev]
      exact ⟨rfl, fun _ => parseExtra_write fun e he _ => keyForm_tokenKeys _ (mem_pocsagTokens he)⟩
    · rw [if_neg hpoc] at hev ⊢
      split_ifs at hev
      rw [flexEvent] at hev
      by_cases hstats : get rep.fields (lit "msg_type") = lit "bch_stats"
      · rw [if_pos hstats] at hev
        exact nomatch hev
      rw [if_neg hstats] at hev
      generalize (if (rep.fields.find? (lit "capcode")).isSome then
        flexMessageType (get rep.fields (lit "msg_type")) else none) = kind at hev ⊢
      cases kind with
      | some pageType =>
        rw [← Option.some.inj hev]
        exact ⟨rfl, fun _ =>
          parseExtra_write fun e he _ => keyForm_tokenKeys _ (mem_flexPageTokens he)⟩
      | none =>
        by_cases hforward : forwardSystem = true
        · rw [hforward] at hev
          rw [← Option.some.inj hev]
          refine ⟨rfl, fun hk => parseExtra_write fun e he _ => ?_⟩
          rcases mem_flexSystemTokens he with hkey | hfield
          · exact keyForm_tokenKeys _ hkey
          · exact hk.resolve_left (by decide : ¬lit "sync" = lit "page") _ _ hfield
        · rw [Bool.not_eq_true] at hforward
          rw [hforward] at hev
          exact nomatch hev

/-- A page with separators in a field. -/
def pageLine : Bytes :=
  lit ("\x7b\"demod_name\":\"POCSAG1200\",\"address\":7," ++
    "\"function\":\"3; tg=9\",\"alpha\":\"hi<NUL>\"\x7d")

theorem fields_read_pageLine : ∃ ev, multimonLineToEvent pageLine true = .ok (some ev) ∧
    ∃ rep, parseTetrakitJson pageLine = .ok rep ∧ ev.rawLine = pageLine ∧
      (ev.kind = lit "page" ∨ (∀ k v, rep.fields.find? k = some v → KeyForm k) →
        parseExtra ev.extra = readable (tokens rep.fields)) := by
  have hsome : (multimonLineToEvent pageLine true).toOption.join.isSome = true := by decide +kernel
  obtain ⟨ev, hev⟩ := Option.isSome_iff_exists.1 hsome
  have h : multimonLineToEvent pageLine true = .ok (some ev) := by
    cases hr : multimonLineToEvent pageLine true with
    | error e =>
      rw [hr] at hev
      exact nomatch hev
    | ok o =>
      rw [hr] at hev
      exact congrArg _ hev
  exact ⟨ev, h, fields_read h⟩

example : ((multimonLineToEvent pageLine true).toOption.join.map fun ev => (ev.message, ev.extra)) =
    some (lit "hi", lit "protocol=pocsag; baud=1200; message_type=alpha; function=3, tg,9") := by
      decide +kernel

end multimon

/-! ## What trimming leaves -/

/-- What is taken off the end of a page. -/
def paddings : List Bytes := [[ch ' '], [ch '\t']] ++ kPad

theorem strips_dropBlanks (s : Bytes) : Strips paddings s (dropBlanks s) := by
  induction s using List.reverseRecOn with
  | nil => exact Strips.refl []
  | append_singleton s c ih =>
    cases hc : isBlank c with
    | false =>
      rw [dropBlanks, List.rdropWhile_concat_neg _ _ _ (by rw [hc]; exact Bool.false_ne_true)]
      exact Strips.refl _
    | true =>
      have hpad : [c] ∈ paddings := by
        rcases (by simpa [isBlank] using hc : c = ch ' ' ∨ c = ch '\t') with rfl | rfl <;> decide
      rw [dropBlanks, List.rdropWhile_concat_pos _ _ _ hc]
      exact (Strips.word hpad s).trans ih

theorem strips_dropPad {pad : Bytes} (hp : pad ∈ paddings) (s : Bytes) :
    Strips paddings s (dropPad s pad) := by
  rw [dropPad]
  split_ifs with h
  · obtain ⟨t, rfl⟩ := List.isSuffixOf_iff_suffix.1 h
    rw [List.length_append, Nat.add_sub_cancel, List.take_left']
    · exact Strips.word hp t
    · rfl
  · exact Strips.refl s

theorem strips_foldl {pads : List Bytes} (hp : ∀ p ∈ pads, p ∈ paddings) : ∀ s,
    Strips paddings s (pads.foldl dropPad s) := by
  induction pads with
  | nil => exact Strips.refl
  | cons p pads ih =>
    intro s
    exact (strips_dropPad (hp p List.mem_cons_self) s).trans
      (ih (fun q hq => hp q (List.mem_cons_of_mem p hq)) _)

/-- A round takes nothing but padding. -/
theorem strips_trimRound (s : Bytes) : Strips paddings s (trimRound s) :=
  (strips_dropBlanks s).trans (strips_foldl (fun _ hp => List.mem_append_right _ hp) _)

/-- A round that takes nothing finds no padding. -/
theorem done_of_trimRound {s : Bytes} (h : (trimRound s).length = s.length) :
    ∀ p ∈ paddings, ¬p <:+ s := by
  have hblank := (strips_dropBlanks s).length_le
  have hfold : ∀ {pads : List Bytes} {s : Bytes}, (∀ p ∈ pads, p ∈ paddings) →
      (pads.foldl dropPad s).length = s.length → ∀ p ∈ pads, p ≠ [] → ¬p <:+ s := by
    intro pads
    induction pads with
    | nil => exact fun _ _ _ hp => absurd hp List.not_mem_nil
    | cons q pads ih =>
      intro s hpads hlen p hp hne
      have hq := strips_dropPad (hpads q List.mem_cons_self) s
      have hrest := strips_foldl (fun p hp => hpads p (List.mem_cons_of_mem q hp)) (dropPad s q)
      rw [List.foldl_cons] at hlen
      have hs : dropPad s q = s :=
        hq.eq_of_length (by have := hq.length_le; have := hrest.length_le; omega)
      rcases List.mem_cons.1 hp with rfl | hp
      · intro hsuf
        rw [dropPad, if_pos (List.isSuffixOf_iff_suffix.2 hsuf)] at hs
        have hlen := congrArg List.length hs
        have := hsuf.length_le
        have := List.length_pos_of_ne_nil hne
        rw [List.length_take] at hlen
        omega
      · rw [hs] at hlen
        exact ih (fun p hp => hpads p (List.mem_cons_of_mem q hp)) hlen p hp hne
  have hpads := strips_foldl (fun p (hp : p ∈ kPad) => List.mem_append_right _ hp) (dropBlanks s)
  have hsame : dropBlanks s = s := by
    refine (strips_dropBlanks s).eq_of_length ?_
    have := hpads.length_le
    rw [trimRound] at h
    omega
  rw [trimRound, hsame] at h
  intro p hp
  rcases List.mem_append.1 hp with hp | hp
  · rintro ⟨t, rfl⟩
    have hb : ∃ c, p = [c] ∧ isBlank c = true :=
      (by decide : ∀ p ∈ [[ch ' '], [ch '\t']], p = [p.headD 0] ∧ isBlank (p.headD 0) = true) p
        hp |> fun h => ⟨_, h⟩
    obtain ⟨c, rfl, hc⟩ := hb
    rw [dropBlanks, List.rdropWhile_concat_pos _ _ _ hc] at hsame
    have := (strips_dropBlanks t).length_le
    have := congrArg List.length hsame
    rw [List.length_append, List.length_singleton] at this
    rw [dropBlanks] at *
    omega
  · exact hfold (fun _ hp => List.mem_append_right _ hp) h p hp
      ((by decide : ∀ p ∈ kPad, p ≠ []) p hp)

/-- **The loop leaves no padding**, when it may go on long enough. -/
theorem stripped_trimLoop :
    ∀ fuel (s : Bytes), s.length < fuel → Stripped paddings s (trimLoop fuel s)
  | 0, s, h => absurd h (Nat.not_lt_zero _)
  | fuel + 1, s, h => by
    rw [trimLoop]
    split_ifs with hround
    · exact ⟨Strips.refl s, done_of_trimRound hround⟩
    · have hle := (strips_trimRound s).length_le
      have ih := stripped_trimLoop fuel (trimRound s) (by omega)
      exact ⟨(strips_trimRound s).trans ih.strips, ih.done⟩

/-- No padding ends in another, so what is stripped does not depend on the order. -/
theorem suffixFree_paddings : SuffixFree paddings := by
  have hall : ∀ p ∈ paddings, ∀ q ∈ paddings, p.isSuffixOf q = true → p = q := by decide
  exact fun p hp q hq h => hall p hp q hq (List.isSuffixOf_iff_suffix.2 h)

/-- **What trimming leaves**: the one text that comes of taking paddings off the end, in any order,
until none is left there. -/
theorem trimPagerPadding_iff {s t : Bytes} : trimPagerPadding s = t ↔ Stripped paddings s t := by
  have h : Stripped paddings s (trimPagerPadding s) :=
    stripped_trimLoop (s.length + 1) s (Nat.lt_succ_self _)
  exact ⟨fun he => he ▸ h, fun ht => h.unique suffixFree_paddings ht⟩

example : trimPagerPadding (lit "hi <EOT><NUL> ") = lit "hi" := by decide

end DsdServer
