import DsdServer.Data.SortedMap
import DsdServer.Json.Parse

/-!
# Json/Flat — flat objects

The reader of control messages and request bodies: one object of quoted keys whose values are
strings, numbers or booleans.  It stops at the closing brace, takes a quoted text to the end of
the input when the quote is never closed, and throws at everything else it does not know; the
library's number conversion throws by itself.

* `parseFlatObject_ok_iff` — **it returns exactly on the well-formed bodies**.

The form of a body is put down by itself, and does not mention the reader.  Each part of the reader
is shown to return exactly on the texts of its part of the form, so that both directions are proved
at once.
-/

open Bytes

namespace DsdServer

/-! ## What is thrown

The reader throws with a message of its own; the library throws what its number conversion throws.
Both reach whoever called the reader. -/

/-- An exception of the standard library, with its text. -/
inductive Thrown
  | runtimeError (what : Bytes)
  | invalidArgument (what : Bytes)
  | outOfRange (what : Bytes)
  deriving DecidableEq

/-- The message of what was thrown. -/
def Thrown.what : Thrown → Bytes
  | .runtimeError w => w
  | .invalidArgument w => w
  | .outOfRange w => w

/-! ## Numbers

A number is all that stands there of digits, signs, points and exponents, given to the library as
one text.  It may be no number, or one that no double holds. -/

namespace Double

/-- The exponent of the last of 53 bits, however small. -/
def ulpAny (q : ℚ) : ℤ := Int.log 2 |q| - 52

/-- **Does the conversion report a range error?**  The double is infinite, or it is not exact and
less than the least normal one. -/
def outOfRange (q : ℚ) : Bool :=
  match ofRat q with
  | .finite x => x ≠ q && |(roundEven (q / 2 ^ ulpAny q) : ℚ) * 2 ^ ulpAny q| < 2 ^ (-1022 : ℤ)
  | _ => true

end Double

namespace json

/-- **The library's string to double**: the longest start of the text that is a number. -/
def stod (s : Bytes) : Except Thrown Double :=
  let s := mjson.ws s
  let (neg, t) := match s with
    | c :: t => if c = ch '-' then (true, t) else if c = ch '+' then (false, t) else (false, s)
    | [] => (false, [])
  match mjson.unsigned t with
  | none => .error (.invalidArgument (lit "stod"))
  | some (.inl q, _) =>
    if Double.outOfRange q then .error (.outOfRange (lit "stod"))
    else .ok (mjson.signed neg (.inl q))
  | some (d, _) => .ok (mjson.signed neg d)

/-- A byte a number may be made of. -/
def isNumeric (b : UInt8) : Bool :=
  isDigit b || b = ch '-' || b = ch '+' || b = ch '.' || b = ch 'e' || b = ch 'E'

/-! ## The reader

The text is read from the left, and each part gives back what is left.  A key that comes twice has
the later value. -/

/-- A value of a flat object. -/
inductive Value
  | str (s : Bytes)
  | num (d : Double)
  | boolean (b : Bool)
  deriving DecidableEq

/-- An object as the reader gives it: the last value of each key. -/
abbrev FlatObject := SortedMap Bytes Value

/-- The text up to the closing quote, with the escaped bytes as they are, and what follows the
quote. -/
def quoted : Bytes → Bytes × Bytes
  | [] => ([], [])
  | [c] => if c = ch '"' then ([], []) else ([c], [])
  | c :: e :: s =>
    if c = ch '"' then ([], e :: s)
    else if c = ch '\\' then (e :: (quoted s).1, (quoted s).2)
    else (c :: (quoted (e :: s)).1, (quoted (e :: s)).2)

/-- A value and what follows it. -/
def value (s : Bytes) : Except Thrown (Value × Bytes) :=
  if [ch '"'].isPrefixOf s then
    let q := quoted (s.drop 1)
    .ok (.str q.1, q.2)
  else if (lit "true").isPrefixOf s then .ok (.boolean true, s.drop 4)
  else if (lit "false").isPrefixOf s then .ok (.boolean false, s.drop 5)
  else
    let t := s.span isNumeric
    if t.1 = [] then .error (.runtimeError (lit "json: expected value"))
    else (stod t.1).map fun d => (.num d, t.2)

/-- A key, its value and what follows. -/
def member (s : Bytes) : Except Thrown ((Bytes × Value) × Bytes) :=
  match mjson.ws s with
  | [] => .error (.runtimeError (lit "json: expected key string"))
  | c :: t =>
    if c ≠ ch '"' then .error (.runtimeError (lit "json: expected key string"))
    else
      let k := quoted t
      match mjson.ws k.2 with
      | [] => .error (.runtimeError (lit "json: expected ':'"))
      | d :: u =>
        if d ≠ ch ':' then .error (.runtimeError (lit "json: expected ':'"))
        else (value (mjson.ws u)).map fun v => ((k.1, v.1), v.2)

/-- The members up to the closing brace; a repeated key keeps its last value.  Each takes at least
one byte. -/
def members : ℕ → FlatObject → Bytes → Except Thrown FlatObject
  | 0, _, _ => .error (.runtimeError (lit "json: expected key string"))
  | n + 1, o, s =>
    match member s with
    | .error e => .error e
    | .ok (kv, rest) =>
      match mjson.ws rest with
      | [] => .error (.runtimeError (lit "json: expected ',' or '\x7d'"))
      | c :: t =>
        if c = ch ',' then members n (o.insert kv.1 kv.2) t
        else if c = ch '}' then .ok (o.insert kv.1 kv.2)
        else .error (.runtimeError (lit "json: expected ',' or '\x7d'"))

/-- **Read a flat object.** -/
def parseFlatObject (s : Bytes) : Except Thrown FlatObject :=
  match mjson.ws s with
  | [] => .error (.runtimeError (lit "json: expected '\x7b'"))
  | c :: t =>
    if c ≠ ch '{' then .error (.runtimeError (lit "json: expected '\x7b'"))
    else match mjson.ws t with
      | d :: u => if d = ch '}' then .ok ∅ else members (u.length + 2) ∅ (d :: u)
      | [] => members 1 ∅ []

/-- The string under a key; anything else is the default. -/
def getString (o : FlatObject) (k : String) (dflt : Bytes) : Bytes :=
  match o.find? (lit k) with
  | some (.str s) => s
  | _ => dflt

/-- The number under a key; anything else is the default. -/
def getNumber (o : FlatObject) (k : String) (dflt : Double) : Double :=
  match o.find? (lit k) with
  | some (.num d) => d
  | _ => dflt

/-- A boolean; a number stands for whether it is not zero. -/
def getBool (o : FlatObject) (k : String) (dflt : Bool) : Bool :=
  match o.find? (lit k) with
  | some (.boolean b) => b
  | some (.num d) => d ≠ .finite 0
  | _ => dflt

/-! ## The well-formed bodies

The grammar says what a body looks like on which the reader returns: it may go on after the closing
brace in any way, and a quoted text may run to the end. -/

/-- A quoted text with its closing quote, and what follows. -/
inductive Quoted : Bytes → Bytes → Prop
  | close (r : Bytes) : Quoted (ch '"' :: r) r
  | escape {s r : Bytes} (e : UInt8) : Quoted s r → Quoted (ch '\\' :: e :: s) r
  | byte {s r : Bytes} {c : UInt8} : c ≠ ch '"' → c ≠ ch '\\' → Quoted s r → Quoted (c :: s) r

/-- A value, and what follows: a quoted text, a boolean, or as many bytes as can be of a number, the
first of which spell one a double can hold. -/
def Spelled (s r : Bytes) : Prop :=
  (∃ t, s = ch '"' :: t ∧ Quoted t r) ∨ s = lit "true" ++ r ∨ s = lit "false" ++ r ∨
    ((s.span isNumeric).1 ≠ [] ∧ (∃ d, stod (s.span isNumeric).1 = .ok d) ∧
      (s.span isNumeric).2 = r)

/-- A key, a colon and a value, and what follows. -/
def Paired (s r : Bytes) : Prop :=
  ∃ t u v, mjson.ws s = ch '"' :: t ∧ Quoted t u ∧ mjson.ws u = ch ':' :: v ∧ Spelled (mjson.ws v) r

/-- Members with commas between them and a closing brace after the last. -/
inductive Closed : Bytes → Prop
  | last {s r t : Bytes} : Paired s r → mjson.ws r = ch '}' :: t → Closed s
  | more {s r t : Bytes} : Paired s r → mjson.ws r = ch ',' :: t → Closed t → Closed s

/-- **A well-formed body**: an object of keys and flat values; anything may follow it. -/
def WellFormed (s : Bytes) : Prop :=
  ∃ t, mjson.ws s = ch '{' :: t ∧ ((∃ r, mjson.ws t = ch '}' :: r) ∨ Closed t)

/-! ## What the reader takes

Each part of the reader is compared with its part of the grammar, in both directions; for the loop
over the members the text that is left gets shorter. -/

/-- White space that is skipped makes the text no longer. -/
theorem length_ws (s : Bytes) : (mjson.ws s).length ≤ s.length :=
  (List.dropWhile_sublist _).length_le

/-- A quoted text starts with its closing quote, an escape or another byte. -/
theorem quoted_cons_iff {c : UInt8} {s r : Bytes} : Quoted (c :: s) r ↔
    if c = ch '"' then s = r
    else if c = ch '\\' then ∃ e t, s = e :: t ∧ Quoted t r
    else Quoted s r := by
  constructor
  · intro h
    cases h with
    | close => simp
    | escape e h =>
      rw [if_neg (by decide), if_pos rfl]
      exact ⟨e, _, rfl, h⟩
    | byte hq hb h => rwa [if_neg hq, if_neg hb]
  · intro h
    split_ifs at h with hq hb
    · exact hq ▸ h ▸ .close s
    · obtain ⟨e, t, rfl, h⟩ := h
      exact hb ▸ .escape e h
    · exact .byte hq hb h

theorem not_quoted_nil (r : Bytes) : ¬ Quoted [] r := nofun

/-- Reading a quoted text makes the text no longer. -/
theorem length_quoted (s : Bytes) : (quoted s).2.length ≤ s.length := by
  fun_induction quoted s with
  | case1 => exact Nat.le_refl 0
  | case2 => exact Nat.zero_le _
  | case3 => exact Nat.zero_le _
  | case4 e s => simp
  | case5 e s hq ih => exact ih.trans (by simp; omega)
  | case6 c e s hq hb ih => exact ih.trans (by simp)

/-- The reader of a quoted text leaves something only after a closing quote. -/
theorem quoted_iff {s : Bytes} {c : UInt8} {r : Bytes} :
    (quoted s).2 = c :: r ↔ Quoted s (c :: r) := by
  fun_induction quoted s with
  | case1 => exact ⟨nofun, fun h => (not_quoted_nil _ h).elim⟩
  | case2 => simp [quoted_cons_iff]
  | case3 d hq => simp [quoted_cons_iff, hq, not_quoted_nil]
  | case4 e s => simp [quoted_cons_iff]
  | case5 e s hq ih =>
    rw [quoted_cons_iff, if_neg hq, if_pos rfl, ih]
    exact ⟨fun h => ⟨e, s, rfl, h⟩, fun ⟨_, _, hs, h⟩ => by cases hs; exact h⟩
  | case6 c e s hq hb ih =>
    rw [quoted_cons_iff, if_neg hq, if_neg hb]
    exact ih

/-- Something is left after a quoted text exactly when it is closed and something follows it. -/
theorem ws_quoted_iff {s : Bytes} {c : UInt8} {r : Bytes} :
    mjson.ws (quoted s).2 = c :: r ↔ ∃ u, Quoted s u ∧ mjson.ws u = c :: r := by
  constructor
  · intro h
    rcases hu : (quoted s).2 with - | ⟨d, u⟩
    · rw [hu] at h
      exact absurd h (by simp [mjson.ws])
    · exact ⟨d :: u, quoted_iff.1 hu, hu ▸ h⟩
  · rintro ⟨u, hq, h⟩
    obtain - | ⟨d, u⟩ := u
    · exact absurd h (by simp [mjson.ws])
    · rwa [quoted_iff.2 hq]

/-- A number uses up what it is made of. -/
theorem span_snd_length (s : Bytes) : (s.span isNumeric).2.length ≤ s.length := by
  rw [List.span_eq_takeWhile_dropWhile]
  exact (List.dropWhile_sublist _).length_le

/-- Reading a value makes the text no longer. -/
theorem length_value {s r : Bytes} {v : Value} (h : value s = .ok (v, r)) :
    r.length ≤ s.length := by
  simp only [value] at h
  split_ifs at h
  · cases h
    exact (length_quoted _).trans (by simp)
  · cases h
    simp
  · cases h
    simp
  · cases hd : stod (s.span isNumeric).1 with
    | error e =>
      rw [hd] at h
      cases h
    | ok d =>
      rw [hd] at h
      cases h
      exact span_snd_length s

/-- A text that starts as a word does not start as a number or a quoted text. -/
theorem span_of_word {c : UInt8} (t : Bytes) (hc : isNumeric c = false) :
    ((c :: t).span isNumeric).1 = [] := by
  rw [List.span_eq_takeWhile_dropWhile]
  simp [hc]

/-- Texts that begin otherwise are different. -/
theorem head_ne {c d : UInt8} {s t : Bytes} (hs : s.head? = some c) (ht : t.head? = some d)
    (hc : c ≠ d) : s ≠ t := by
  rintro rfl
  exact hc (Option.some.inj (hs.symm.trans ht))

/-- **The reader of a value takes the spelled ones**, if something follows. -/
theorem value_iff {s : Bytes} {c : UInt8} {t : Bytes} :
    (∃ v r, value s = .ok (v, r) ∧ mjson.ws r = c :: t) ↔ ∃ r, Spelled s r ∧
      mjson.ws r = c :: t := by
  simp only [value]
  split_ifs with hs ht hf hn
  · obtain ⟨u, rfl⟩ := List.isPrefixOf_iff_prefix.1 hs
    have hsp : ∀ r, Spelled ([ch '"'] ++ u) r ↔ Quoted u r := fun r => by
      constructor
      · rintro (⟨w, hw, hq⟩ | h | h | ⟨h, -⟩)
        · cases hw
          exact hq
        · exact (head_ne rfl rfl (by decide) h).elim
        · exact (head_ne rfl rfl (by decide) h).elim
        · exact absurd (span_of_word u (by decide)) h
      · exact fun h => .inl ⟨u, rfl, h⟩
    simp only [hsp, ← ws_quoted_iff]
    constructor
    · rintro ⟨v, r, h, hr⟩
      cases h
      exact hr
    · exact fun h => ⟨_, _, rfl, h⟩
  · obtain ⟨u, rfl⟩ := List.isPrefixOf_iff_prefix.1 ht
    have hsp : ∀ r, Spelled (lit "true" ++ u) r ↔ u = r := fun r => by
      constructor
      · rintro (⟨w, hw, -⟩ | h | h | ⟨h, -⟩)
        · exact (head_ne rfl rfl (by decide) hw).elim
        · exact List.append_cancel_left h
        · exact (head_ne rfl rfl (by decide) h).elim
        · exact absurd (span_of_word (lit "rue" ++ u) (by decide)) h
      · exact fun h => .inr (.inl (h ▸ rfl))
    simp only [hsp]
    constructor
    · rintro ⟨v, r, h, hr⟩
      cases h
      exact ⟨_, rfl, hr⟩
    · rintro ⟨r, rfl, h⟩
      exact ⟨_, _, rfl, h⟩
  · obtain ⟨u, rfl⟩ := List.isPrefixOf_iff_prefix.1 hf
    have hsp : ∀ r, Spelled (lit "false" ++ u) r ↔ u = r := fun r => by
      constructor
      · rintro (⟨w, hw, -⟩ | h | h | ⟨h, -⟩)
        · exact (head_ne rfl rfl (by decide) hw).elim
        · exact (head_ne rfl rfl (by decide) h).elim
        · exact List.append_cancel_left h
        · exact absurd (span_of_word (lit "alse" ++ u) (by decide)) h
      · exact fun h => .inr (.inr (.inl (h ▸ rfl)))
    simp only [hsp]
    constructor
    · rintro ⟨v, r, h, hr⟩
      cases h
      exact ⟨_, rfl, hr⟩
    · rintro ⟨r, rfl, h⟩
      exact ⟨_, _, rfl, h⟩
  · constructor
    · rintro ⟨v, r, h, -⟩
      cases h
    · rintro ⟨r, ⟨w, rfl, -⟩ | rfl | rfl | ⟨h, -⟩, -⟩
      · exact absurd (List.isPrefixOf_iff_prefix.2 ⟨w, rfl⟩) hs
      · exact absurd (List.isPrefixOf_iff_prefix.2 ⟨r, rfl⟩) ht
      · exact absurd (List.isPrefixOf_iff_prefix.2 ⟨r, rfl⟩) hf
      · exact absurd hn h
  · have hsp : ∀ r, Spelled s r ↔
        (∃ d, stod (s.span isNumeric).1 = .ok d) ∧ (s.span isNumeric).2 = r := fun r => by
      constructor
      · rintro (⟨w, rfl, -⟩ | rfl | rfl | ⟨-, h⟩)
        · exact absurd (List.isPrefixOf_iff_prefix.2 ⟨w, rfl⟩) hs
        · exact absurd (List.isPrefixOf_iff_prefix.2 ⟨r, rfl⟩) ht
        · exact absurd (List.isPrefixOf_iff_prefix.2 ⟨r, rfl⟩) hf
        · exact h
      · exact fun h => .inr (.inr (.inr ⟨hn, h⟩))
    simp only [hsp]
    constructor
    · rintro ⟨v, r, h, hr⟩
      cases hd : stod (s.span isNumeric).1 with
      | error e =>
        rw [hd] at h
        cases h
      | ok d =>
        rw [hd] at h
        cases h
        exact ⟨_, ⟨⟨d, rfl⟩, rfl⟩, hr⟩
    · rintro ⟨r, ⟨⟨d, hd⟩, rfl⟩, hr⟩
      exact ⟨.num d, _, by rw [hd]; rfl, hr⟩

/-- **Reading a member makes the text shorter**, so the loop ends. -/
theorem length_member {s r : Bytes} {kv : Bytes × Value} (h : member s = .ok (kv, r)) :
    r.length ≤ s.length := by
  unfold member at h
  split at h
  · cases h
  · next c t hs =>
    split_ifs at h
    simp only at h
    split at h
    · cases h
    · next d u hu =>
      split_ifs at h
      cases hv : value (mjson.ws u) with
      | error e =>
        rw [hv] at h
        cases h
      | ok v =>
        rw [hv] at h
        cases h
        have h1 := length_value hv
        have h2 := length_ws u
        have h3 : u.length + 1 ≤ (quoted t).2.length := by
          simpa [hu] using length_ws (quoted t).2
        have h4 := length_quoted t
        have h5 : t.length + 1 ≤ s.length := by simpa [hs] using length_ws s
        omega

/-- **The reader of a member takes the paired ones**, if something follows. -/
theorem member_iff {s : Bytes} {c : UInt8} {t : Bytes} :
    (∃ kv r, member s = .ok (kv, r) ∧ mjson.ws r = c :: t) ↔ ∃ r, Paired s r ∧
      mjson.ws r = c :: t := by
  unfold member
  constructor
  · rintro ⟨kv, r, h, hr⟩
    split at h
    · cases h
    · next d w hs =>
      split_ifs at h with hd
      simp only at h
      split at h
      · cases h
      · next e v hu =>
        split_ifs at h with he
        cases hv : value (mjson.ws v) with
        | error e =>
          rw [hv] at h
          cases h
        | ok x =>
          rw [hv] at h
          cases h
          obtain ⟨u, hq, hw⟩ := ws_quoted_iff.1 hu
          obtain ⟨r', hsp, hr'⟩ := value_iff.1 ⟨x.1, x.2, hv, hr⟩
          rw [not_not.1 hd] at hs
          rw [not_not.1 he] at hw
          exact ⟨r', ⟨w, u, v, hs, hq, hw, hsp⟩, hr'⟩
  · rintro ⟨r, ⟨w, u, v, hs, hq, hw, hsp⟩, hr⟩
    obtain ⟨x, r', hv, hr'⟩ := value_iff.2 ⟨r, hsp, hr⟩
    refine ⟨((quoted w).1, x), r', ?_, hr'⟩
    simp only [hs, ne_eq, not_true_eq_false, if_false, ws_quoted_iff.2 ⟨u, hq, hw⟩, hv]
    rfl

/-- **The reader of the members takes the closed ones.** -/
theorem members_iff {n : ℕ} : ∀ {o : FlatObject} {s : Bytes}, s.length < n →
    ((∃ o', members n o s = .ok o') ↔ Closed s) := by
  induction n with
  | zero => exact fun h => absurd h (Nat.not_lt_zero _)
  | succ n ih =>
    intro o s hn
    have hdrop : ∀ {kv r c t}, member s = .ok (kv, r) → mjson.ws r = c :: t → t.length < n :=
      fun {kv r c t} hm hr => by
        have h1 := length_member hm
        have h2 : t.length + 1 ≤ r.length := by simpa [hr] using length_ws r
        omega
    constructor
    · rintro ⟨o', h⟩
      simp only [members] at h
      split at h
      · cases h
      · next kv r hm =>
        split at h
        · cases h
        · next c t hr =>
          obtain ⟨r', hp, hr'⟩ := member_iff.1 ⟨kv, r, hm, hr⟩
          split_ifs at h with hc hb
          · exact .more hp (hc ▸ hr') ((ih (hdrop hm hr)).1 ⟨o', h⟩)
          · exact .last hp (hb ▸ hr')
    · intro h
      cases h with
      | last hp hr =>
        obtain ⟨kv, r, hm, hr'⟩ := member_iff.2 ⟨_, hp, hr⟩
        refine ⟨o.insert kv.1 kv.2, ?_⟩
        simp only [members, hm, hr', if_true]
        rw [if_neg (by decide)]
      | more hp hr ht =>
        obtain ⟨kv, r, hm, hr'⟩ := member_iff.2 ⟨_, hp, hr⟩
        obtain ⟨o', ho⟩ := (ih (o := o.insert kv.1 kv.2) (hdrop hm hr')).2 ht
        refine ⟨o', ?_⟩
        simp only [members, hm, hr', if_true, ho]

/-- White space in front of members makes no difference. -/
theorem closed_ws {s t : Bytes} (h : mjson.ws s = mjson.ws t) : Closed s ↔ Closed t := by
  have hp : ∀ {r}, Paired s r ↔ Paired t r := fun {r} => by rw [Paired, Paired, h]
  constructor
  · rintro (⟨h1, h2⟩ | ⟨h1, h2, h3⟩)
    · exact .last (hp.1 h1) h2
    · exact .more (hp.1 h1) h2 h3
  · rintro (⟨h1, h2⟩ | ⟨h1, h2, h3⟩)
    · exact .last (hp.2 h1) h2
    · exact .more (hp.2 h1) h2 h3

theorem ws_ws (s : Bytes) : mjson.ws (mjson.ws s) = mjson.ws s :=
  List.dropWhile_idempotent mjson.isSpace s

/-- **The reader returns exactly on the well-formed bodies.** -/
theorem parseFlatObject_ok_iff {s : Bytes} : (∃ o, parseFlatObject s = .ok o) ↔ WellFormed s := by
  unfold parseFlatObject WellFormed
  split
  · next hs => simp [hs]
  · next c t hs =>
    split_ifs with hc
    · simp [hs, hc]
    · rw [not_not] at hc
      subst hc
      have hw : ∀ {P : Bytes → Prop}, (∃ t', mjson.ws s = ch '{' :: t' ∧ P t') ↔ P t := by simp [hs]
      rw [hw]
      split
      · next d u ht =>
        split_ifs with hd
        · simp [ht, hd]
        · rw [members_iff (by simp),
            closed_ws (show mjson.ws (d :: u) = mjson.ws t by rw [← ht, ws_ws])]
          simp [ht, hd]
      · next ht =>
        rw [members_iff (by simp), closed_ws (by rw [ht]; rfl : mjson.ws [] = mjson.ws t)]
        simp [ht]

end json

end DsdServer
