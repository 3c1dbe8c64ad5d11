import DsdServer.Assoc.LogLine

/-!
# Assoc/EventLine — the lines of the inputs, and an event's line read back

Each line the recorder writes, as its fields; of an event, the texts that are not empty.

* `eventLine_codec` — **an event's line is one line of printable ASCII and is read back as the
  event's texts**, whatever bytes they hold.

A field that is empty is not written, and one that is not in a line is read as empty, so that
leaving it out loses nothing.  The fields are read by name, and no name comes twice.
-/

open Bytes

namespace DsdServer

open assoclog

/-! ## Numbers are read back

Numbers stand in a line without quotes.  The reader takes them as words and then as the C library
does, skipping blanks and stopping at the first byte that is no digit, which in a line written by
the recorder is the end of the word. -/

theorem digit_word {b : UInt8} (h : 48 ≤ b.toNat ∧ b.toNat ≤ 57) :
    endsWord b = false ∧ isBlank b = false ∧ b ≠ ch '"' := by
  have hne : ∀ c : UInt8, c.toNat < 48 ∨ 57 < c.toNat → b ≠ c := fun c hc he => by
    subst he
    omega
  have h₁ := hne (ch ',') (Or.inl (by decide))
  have h₂ := hne (ch '\x7d') (Or.inr (by decide))
  have h₃ := hne (ch ' ') (Or.inl (by decide))
  have h₄ := hne 9 (Or.inl (by decide))
  have h₅ := hne 13 (Or.inl (by decide))
  refine ⟨?_, ?_, hne (ch '"') (Or.inl (by decide))⟩
  · rw [endsWord, decide_eq_false h₁, decide_eq_false h₂, decide_eq_false h₃]
    rfl
  · rw [isBlank, decide_eq_false h₃, decide_eq_false h₄, decide_eq_false h₅]
    rfl

theorem word_dec (n : ℕ) : (Field.word (dec n)).Ok :=
  ⟨mjson.dec_ne_nil n, fun _ hb => digit_word (mjson.isDigit_dec hb)⟩

theorem word_decInt (t : ℤ) : (Field.word (decInt t)).Ok := by
  rw [decInt]
  split_ifs
  · refine ⟨List.cons_ne_nil _ _, fun b hb => ?_⟩
    rcases List.mem_cons.1 hb with rfl | hb
    · exact ⟨rfl, rfl, by decide⟩
    · exact digit_word (mjson.isDigit_dec hb)
  · exact word_dec _

/-- The digits of a number, with its sign before. -/
theorem takeWhile_dec (n : ℕ) : (dec n).takeWhile (mjson.isDigitOf 10) = dec n :=
  List.takeWhile_eq_self_iff.2 fun _ hb => mjson.isDigitOf_ten (mjson.isDigit_dec hb)

theorem signOf_dec (n : ℕ) : signOf ((dec n).dropWhile mjson.isSpace) = (false, dec n) := by
  cases hd : dec n with
  | nil => exact absurd hd (mjson.dec_ne_nil n)
  | cons b s =>
    have hb := mjson.isDigit_dec (m := n) (c := b) (by rw [hd]; exact List.mem_cons_self)
    have hsp : mjson.isSpace b = false := by
      have h₁ : b ≠ 32 := fun he => by subst he; revert hb; decide
      have h₂ : ¬(9 ≤ b ∧ b ≤ 13) := fun he => by
        have := UInt8.le_iff_toNat_le.1 he.2
        have h13 : (13 : UInt8).toNat = 13 := rfl
        omega
      simp only [mjson.isSpace, Bool.or_eq_false_iff, Bool.and_eq_false_imp,
        decide_eq_false_iff_not, decide_eq_true_eq]
      exact ⟨h₁, fun h9 h13 => h₂ ⟨h9, h13⟩⟩
    rw [List.dropWhile_cons_of_neg (by rw [hsp]; exact Bool.false_ne_true), signOf,
      if_neg (fun he => by subst he; revert hb; decide),
      if_neg (fun he => by subst he; revert hb; decide)]

/-- **An unsigned number is read back.** -/
theorem stoull_dec (n : ℕ) : stoull (dec n) = some n := by
  rw [stoull, signOf_dec]
  dsimp only
  rw [takeWhile_dec, if_neg (mjson.dec_ne_nil n), mjson.natOf_dec]
  rfl

/-- **A signed number is read back.** -/
theorem stoll_decInt (t : ℤ) : stoll (decInt t) = some t := by
  rw [stoll, decInt]
  split_ifs with ht
  · rw [show signOf ((ch '-' :: dec t.natAbs).dropWhile mjson.isSpace) =
      (true, dec t.natAbs) from rfl]
    dsimp only
    rw [takeWhile_dec, if_neg (mjson.dec_ne_nil _), mjson.natOf_dec, if_pos rfl]
    exact congrArg some (by omega)
  · rw [signOf_dec]
    dsimp only
    rw [takeWhile_dec, if_neg (mjson.dec_ne_nil _), mjson.natOf_dec, if_neg Bool.false_ne_true]
    exact congrArg some (by omega)

/-! ## The lines of the inputs

The recorder builds each line from left to right.  Here it is shown to be the rendering of a list of
members, so that one theorem about rendered members says how every line is read. -/

/-- Fields left out when empty. -/
def optionals (kvs : List (Bytes × Bytes)) : List (Bytes × Field) :=
  (kvs.filter fun e => e.2 ≠ []).map fun e => (e.1, .str e.2)

/-- A key that is not in the line keeps what it had. -/
theorem find?_fieldsOf {es : List (Bytes × Field)} {k : Bytes} : ∀ {m : SortedMap Bytes Bytes},
    k ∉ es.map Prod.fst → (fieldsOf m es).find? k = m.find? k := by
  induction es with
  | nil => exact fun _ => rfl
  | cons e es ih =>
    intro m hk
    rw [List.map_cons, List.mem_cons, not_or] at hk
    exact (ih hk.2).trans (SortedMap.find?_insert_ne m e.2.text hk.1)

/-- Only keys that were given are written. -/
theorem keys_optionals (kvs : List (Bytes × Bytes)) :
    (optionals kvs).map Prod.fst ⊆ kvs.map Prod.fst := fun k hk => by
  rw [optionals, List.map_map] at hk
  obtain ⟨e, he, rfl⟩ := List.mem_map.1 hk
  exact List.mem_map_of_mem (List.mem_of_mem_filter he)

/-- **A field left out reads as empty**, so every field is read back. -/
theorem getD_optionals {kvs : List (Bytes × Bytes)} : ∀ {m : SortedMap Bytes Bytes},
    (kvs.map Prod.fst).Nodup → (∀ e ∈ kvs, m.find? e.1 = none) →
    ∀ e ∈ kvs, (fieldsOf m (optionals kvs)).getD e.1 [] = e.2 := by
  induction kvs with
  | nil => exact fun _ _ _ he => absurd he List.not_mem_nil
  | cons e₀ kvs ih =>
    intro m hnd hm e he
    rw [List.map_cons, List.nodup_cons] at hnd
    have hnot : e₀.1 ∉ (optionals kvs).map Prod.fst := fun h => hnd.1 (keys_optionals kvs h)
    by_cases h₀ : e₀.2 = []
    · have hopt : optionals (e₀ :: kvs) = optionals kvs := by
        rw [optionals, List.filter_cons_of_neg (by simpa using h₀)]
        rfl
      rw [hopt]
      rcases List.mem_cons.1 he with rfl | he
      · rw [SortedMap.getD, find?_fieldsOf hnot, hm e List.mem_cons_self, h₀]
        rfl
      · exact ih hnd.2 (fun e he => hm e (List.mem_cons_of_mem e₀ he)) e he
    · have hopt : fieldsOf m (optionals (e₀ :: kvs)) = fieldsOf (m.insert e₀.1 e₀.2)
          (optionals kvs) := by
        rw [optionals, List.filter_cons_of_pos (by simpa using h₀)]
        rfl
      rw [hopt]
      rcases List.mem_cons.1 he with rfl | he
      · rw [SortedMap.getD, find?_fieldsOf hnot, SortedMap.find?_insert, if_pos rfl]
        rfl
      · refine ih hnd.2 (fun e' he' => ?_) e he
        have hne : e'.1 ≠ e₀.1 := fun h => hnd.1 (h ▸ List.mem_map_of_mem he')
        rw [SortedMap.find?_insert_ne m e₀.2 hne]
        exact hm e' (List.mem_cons_of_mem e₀ he')

/-- The texts of an event. -/
def eventTexts (e : DsdEvent) : List (Bytes × Bytes) :=
  [(lit "kind", e.kind), (lit "tg", e.talkgroup), (lit "src", e.sourceId), (lit "slot", e.slot),
   (lit "cc", e.colorCode), (lit "ran", e.ran), (lit "nac", e.nac), (lit "em", e.emergency),
   (lit "alias", e.talkerAlias), (lit "crc", e.crcError), (lit "msg", e.message),
   (lit "extra", e.extra), (lit "raw", e.rawLine)]

/-- **What a recording keeps of an event**: everything but the voice frame. -/
def DsdEvent.logged (e : DsdEvent) : DsdEvent := { e with voiceFrame := 0, voiceErr := -1 }

theorem flatMap_optional (kvs : List (Bytes × Bytes)) :
    (optionals kvs).flatMap (fun e => lit "," ++ member e) =
      kvs.flatMap fun e => if e.2 = [] then [] else lit ",\"" ++ e.1 ++ lit "\":" ++ q e.2 := by
  induction kvs with
  | nil => rfl
  | cons e kvs ih =>
    rw [List.flatMap_cons]
    by_cases he : e.2 = []
    · rw [if_pos he, List.nil_append, ← ih, optionals, List.filter_cons_of_neg (by simpa using he)]
      rfl
    · rw [if_neg he, ← ih, optionals, List.filter_cons_of_pos (by simpa using he), List.map_cons,
        List.flatMap_cons]
      rfl

/-- A field as it is written: nothing at all, when it is empty. -/
theorem field_eq (k : String) (v : Bytes) :
    field k v = if v = [] then [] else lit ",\"" ++ lit k ++ lit "\":" ++ q v := rfl

/-- The start of a line: what it is, when, and of which session. -/
theorem openingFor_append {op : String} (h : Plain (lit op)) (t : ℤ) (sid : ℕ) (rest : Bytes) :
    openingFor op t sid ++ rest = lit "\x7b" ++ (member (lit "op", .str (lit op)) ++
      (lit "," ++ (member (lit "t", .word (decInt t)) ++
        (lit "," ++ (member (lit "s", .word (dec sid)) ++ rest))))) := by
  simp only [openingFor, opening, member, Field.render, q, show esc (lit op) = lit op from h,
    List.append_assoc]
  rfl

/-- **The line of an event**, as its members. -/
theorem eventLine_eq (t : ℤ) (sid : ℕ) (e : DsdEvent) : eventLine t sid e =
    render (lit "op", .str (lit "ev"))
      ([(lit "t", .word (decInt t)), (lit "s", .word (dec sid))] ++ optionals (eventTexts e)) := by
  rw [render, renderRest, List.flatMap_append, flatMap_optional, eventLine]
  simp only [eventTexts, List.flatMap_cons, List.flatMap_nil, List.append_nil, List.append_assoc,
    field_eq]
  exact @openingFor_append "ev" rfl t sid _

/-- A begin line without a family. -/
theorem beginLine_eq (t : ℤ) (sid : ℕ) (label : Bytes) (freq : ℤ) : beginLine t sid label freq =
    render (lit "op", .str (lit "begin"))
      ([(lit "t", .word (decInt t)), (lit "s", .word (dec sid)), (lit "label", .str label)] ++
        if freq = 0 then [] else [(lit "freq", .word (decInt freq))]) := by
  rw [render, renderRest, List.flatMap_append, beginLine, freqField]
  split_ifs
  · simp only [List.flatMap_cons, List.flatMap_nil, List.append_nil, List.append_assoc]
    exact @openingFor_append "begin" rfl t sid _
  · simp only [List.flatMap_cons, List.flatMap_nil, List.append_nil, List.append_assoc]
    exact @openingFor_append "begin" rfl t sid _

/-- The line of a retuned stream, as its members. -/
theorem tuneLine_eq (t : ℤ) (sid : ℕ) (freq : ℤ) : tuneLine t sid freq =
    render (lit "op", .str (lit "tune")) [(lit "t", .word (decInt t)), (lit "s", .word (dec sid)),
      (lit "freq", .word (decInt freq))] := by
  rw [render, renderRest, tuneLine]
  simp only [List.flatMap_cons, List.flatMap_nil, List.append_nil, List.append_assoc]
  exact @openingFor_append "tune" rfl t sid _

/-- An end or a remove line. -/
theorem openingFor_eq {op : String} (h : Plain (lit op)) (t : ℤ) (sid : ℕ) :
    openingFor op t sid ++ closing = render (lit "op", .str (lit op))
      [(lit "t", .word (decInt t)), (lit "s", .word (dec sid))] := by
  rw [render, renderRest]
  simp only [List.flatMap_cons, List.flatMap_nil, List.append_nil, List.append_assoc]
  exact openingFor_append h t sid _

/-- The line of a cleared model, as its members. -/
theorem clearLine_eq (t : ℤ) : clearLine t =
    render (lit "op", .str (lit "clear")) [(lit "t", .word (decInt t))] := by
  rw [render, renderRest, clearLine, opening]
  simp only [List.flatMap_cons, List.flatMap_nil, List.append_nil, List.append_assoc, member]
  rfl

/-- The first line of a recording, as its members. -/
theorem headerLine_eq (t : ℤ) (fresh : Bool) (instanceId name : Bytes) (since : ℤ) (n : ℕ) :
    headerLine t fresh instanceId name since n = render (lit "op", .str (lit "header"))
      [(lit "v", .word (lit "1")), (lit "t", .word (decInt t)),
       (lit "fresh", .word (if fresh then lit "true" else lit "false")),
       (lit "instance", .str instanceId), (lit "name", .str name),
         (lit "since", .word (decInt since)),
       (lit "max_calls", .word (dec n))] := by
  rw [render, renderRest, headerLine]
  simp only [List.flatMap_cons, List.flatMap_nil, List.append_nil, List.append_assoc, member]
  rfl

/-! ## An event's line is read back

Texts that are empty leave no member, and a member that is missing is read as an empty text.  So the
event comes back as it was logged; the fields that are no texts are not written at all, and are not
read. -/

/-- **The event of its own line**: everything but the voice frame. -/
theorem lineEvent_fieldsOf (e : DsdEvent) {m : SortedMap Bytes Bytes}
    (hm : ∀ x ∈ eventTexts e, m.find? x.1 = none) :
    lineEvent (fieldsOf m (optionals (eventTexts e))) = e.logged := by
  have h := getD_optionals (m := m) (show ((eventTexts e).map Prod.fst).Nodup by
    change [lit "kind", lit "tg", lit "src", lit "slot", lit "cc", lit "ran", lit "nac", lit "em",
      lit "alias", lit "crc", lit "msg", lit "extra", lit "raw"].Nodup
    decide) hm
  have hget : ∀ (i : ℕ) (x : Bytes × Bytes), (eventTexts e)[i]? = some x →
      (fieldsOf m (optionals (eventTexts e))).getD x.1 [] = x.2 := fun i x hx =>
    h x (List.mem_of_getElem? hx)
  rw [lineEvent]
  dsimp only
  rw [hget 0 (lit "kind", e.kind) rfl, hget 1 (lit "tg", e.talkgroup) rfl,
    hget 2 (lit "src", e.sourceId) rfl, hget 3 (lit "slot", e.slot) rfl,
    hget 4 (lit "cc", e.colorCode) rfl, hget 5 (lit "ran", e.ran) rfl,
    hget 6 (lit "nac", e.nac) rfl,
    hget 7 (lit "em", e.emergency) rfl, hget 8 (lit "alias", e.talkerAlias) rfl,
    hget 9 (lit "crc", e.crcError) rfl, hget 10 (lit "msg", e.message) rfl,
    hget 11 (lit "extra", e.extra) rfl, hget 12 (lit "raw", e.rawLine) rfl]
  rfl

namespace assoclog

/-- The fields of an event's line. -/
def eventFields (t : ℤ) (sid : ℕ) (e : DsdEvent) : SortedMap Bytes Bytes :=
  fieldsOf (fieldsOf ∅ [(lit "op", .str (lit "ev")), (lit "t", .word (decInt t)),
    (lit "s", .word (dec sid))]) (optionals (eventTexts e))

variable (t : ℤ) (sid : ℕ) (e : DsdEvent)

/-- The texts of an event have keys of their own. -/
theorem not_mem_eventTexts {key : Bytes} (hk : key ∈ [lit "op", lit "t", lit "s"]) :
    key ∉ (eventTexts e).map Prod.fst := by
  have hall : ∀ key ∈ [lit "op", lit "t", lit "s"],
      key ∉ [lit "kind", lit "tg", lit "src", lit "slot",
      lit "cc", lit "ran", lit "nac", lit "em", lit "alias", lit "crc", lit "msg", lit "extra",
      lit "raw"] := by decide
  exact hall key hk

/-- A member before the texts is found as it was written. -/
theorem find?_eventFields {key v : Bytes} (hk : key ∈ [lit "op", lit "t", lit "s"])
    (hv : (fieldsOf ∅ [(lit "op", .str (lit "ev")), (lit "t", .word (decInt t)),
      (lit "s", .word (dec sid))]).find? key = some v) :
    (eventFields t sid e).find? key = some v := by
  rw [eventFields, find?_fieldsOf fun h => not_mem_eventTexts e hk (keys_optionals _ h)]
  exact hv

theorem find?_eventFields_op : (eventFields t sid e).find? (lit "op") = some (lit "ev") :=
  find?_eventFields t sid e (by decide) rfl

theorem find?_eventFields_t : (eventFields t sid e).find? (lit "t") = some (decInt t) :=
  find?_eventFields t sid e (by decide) rfl

theorem find?_eventFields_s : (eventFields t sid e).find? (lit "s") = some (dec sid) :=
  find?_eventFields t sid e (by decide) rfl

/-- The members give the event that was logged. -/
theorem lineEvent_eventFields : lineEvent (eventFields t sid e) = e.logged :=
  lineEvent_fieldsOf e fun _ hy => find?_fieldsOf fun h =>
    not_mem_eventTexts e h (List.mem_map_of_mem hy)

/-- The keys need no escapes, and the numbers are words. -/
theorem plain_eventLine : ∀ y ∈ (lit "op", Field.str (lit "ev")) ::
    ([(lit "t", .word (decInt t)), (lit "s", .word (dec sid))] ++ optionals (eventTexts e)),
    Plain y.1 ∧ y.2.Ok := by
  intro y hy
  rcases List.mem_cons.1 hy with rfl | hy
  · exact ⟨rfl, trivial⟩
  rcases List.mem_append.1 hy with hy | hy
  · rcases List.mem_cons.1 hy with rfl | hy
    · exact ⟨rfl, word_decInt t⟩
    · obtain rfl := List.mem_singleton.1 hy
      exact ⟨rfl, word_dec sid⟩
  · obtain ⟨z, hz, rfl⟩ := List.mem_map.1 hy
    refine ⟨?_, trivial⟩
    have hz₁ : z.1 ∈ (eventTexts e).map Prod.fst := List.mem_map_of_mem (List.mem_of_mem_filter hz)
    have hall : ∀ key ∈ [lit "kind", lit "tg", lit "src", lit "slot", lit "cc",
        lit "ran", lit "nac",
      lit "em", lit "alias", lit "crc", lit "msg", lit "extra", lit "raw"],
        esc key = key := by decide
    exact hall z.1 hz₁

/-- **The line is read back** as its members. -/
theorem parseLine_eventLine : parseLine (eventLine t sid e) = some (eventFields t sid e) := by
  rw [eventLine_eq, parseLine_render (plain_eventLine t sid e)]
  rfl

/-! ## Printable ASCII

Bytes from 0x20 to 0x7e are printable.  Everything that a string may contain beyond those is
escaped, and what the recorder adds itself is printable. -/

/-- Printable ASCII. -/
def Printable (s : Bytes) : Prop := ∀ b ∈ s, 0x20 ≤ b ∧ b < 0x7f

instance (s : Bytes) : Decidable (Printable s) :=
  inferInstanceAs (Decidable (∀ b ∈ s, 0x20 ≤ b ∧ b < 0x7f))

theorem Printable.append {s s' : Bytes} (h : Printable s) (h' : Printable s') :
    Printable (s ++ s') :=
  List.forall_mem_append.2 ⟨h, h'⟩

theorem printable_hexDigit : ∀ n : Fin 16, 0x20 ≤ hexDigit n ∧ hexDigit n < 0x7f := by
  decide +kernel

/-- The escape of any byte is printable. -/
theorem printable_escByte (b : UInt8) : Printable (escByte b) := by
  have hb : b.toNat < 256 := b.toNat_lt
  rw [escByte]
  split_ifs with hq hs hx
  · decide +kernel
  · decide +kernel
  · refine (show Printable (lit "\\u00") by decide +kernel).append fun c hc => ?_
    rcases List.mem_cons.1 hc with rfl | hc
    · exact printable_hexDigit ⟨b.toNat / 16, by omega⟩
    · obtain rfl := List.mem_singleton.1 hc
      exact printable_hexDigit ⟨b.toNat % 16, by omega⟩
  · rw [not_or, not_lt, not_le] at hx
    intro c hc
    rwa [List.mem_singleton.1 hc]

/-- What is escaped is printable, whatever it was. -/
theorem printable_esc (s : Bytes) : Printable (esc s) := fun b hb => by
  obtain ⟨c, -, hc⟩ := List.mem_flatMap.1 hb
  exact printable_escByte c b hc

theorem printable_dec (n : ℕ) : Printable (dec n) := fun b hb => by
  obtain ⟨h₁, h₂⟩ := mjson.isDigit_dec hb
  have h32 : (0x20 : UInt8).toNat = 32 := rfl
  have h127 : (0x7f : UInt8).toNat = 127 := rfl
  rw [UInt8.le_iff_toNat_le, UInt8.lt_iff_toNat_lt]
  omega

/-- A number with its sign is printable. -/
theorem printable_decInt (i : ℤ) : Printable (decInt i) := by
  rw [decInt]
  split_ifs
  · exact (show Printable [ch '-'] by decide +kernel).append (printable_dec _)
  · exact printable_dec _

/-- A field under a printable key is printable, whatever its text. -/
theorem printable_field {k : String} (hk : Printable (lit k)) (v : Bytes) :
    Printable (field k v) := by
  rw [field]
  split_ifs
  · decide +kernel
  · have hq : Printable (q v) :=
      ((show Printable (lit "\"") by decide +kernel).append (printable_esc v)).append
      (by decide +kernel)
    exact (((show Printable (lit ",\"") by decide +kernel).append hk).append
      (by decide +kernel)).append hq

/-- The beginning of a line is printable. -/
theorem printable_openingFor {op : String} (h : Printable (lit op)) :
    Printable (openingFor op t sid) :=
  ((((show Printable (lit "\x7b\"op\":\"") by decide +kernel).append h).append
    (by decide +kernel)).append
    (printable_decInt t)).append (by decide +kernel) |>.append (printable_dec sid)

/-- **The line of an event is printable.** -/
theorem printable_eventLine : Printable (eventLine t sid e) := by
  have hf := fun (k : String) (v : Bytes) (hk : Printable (lit k)) => printable_field hk v
  refine Printable.append ?_ (by decide +kernel)
  refine .append (.append (.append (.append (.append (.append (.append (.append (.append (.append
    (.append (.append (.append (printable_openingFor t sid (by decide +kernel)) ?_) ?_) ?_) ?_)
      ?_) ?_) ?_) ?_)
    ?_) ?_) ?_) ?_) ?_
  all_goals exact hf _ _ (by decide +kernel)

end assoclog

/-- **An event's line is one line of printable ASCII, is accepted, and is read back**: the thirteen
texts, and what it is, when, and of which session. -/
theorem eventLine_codec (t : ℤ) (sid : ℕ) (e : DsdEvent) :
    (∀ b ∈ eventLine t sid e, 0x20 ≤ b ∧ b < 0x7f ∧ b ≠ ch '\n') ∧
      ∃ m, parseLine (eventLine t sid e) = some m ∧
        eventTexts (lineEvent m) = eventTexts e ∧
        m.find? (lit "op") = some (lit "ev") ∧
        m.find? (lit "t") = some (decInt t) ∧ stoll (decInt t) = some t ∧
        m.find? (lit "s") = some (dec sid) ∧ stoull (dec sid) = some sid := by
  refine ⟨fun b hb => ?_, eventFields t sid e, parseLine_eventLine t sid e, ?_,
    find?_eventFields_op t sid e, find?_eventFields_t t sid e, stoll_decInt t,
    find?_eventFields_s t sid e, stoull_dec sid⟩
  · obtain ⟨h₁, h₂⟩ := printable_eventLine t sid e b hb
    refine ⟨h₁, h₂, ?_⟩
    rintro rfl
    exact absurd h₁ (by decide)
  · rw [lineEvent_eventFields]
    rfl

end DsdServer
