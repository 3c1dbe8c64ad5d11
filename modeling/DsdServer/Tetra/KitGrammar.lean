import DsdServer.Tetra.KitJson
import DsdServer.Json.RoundTrip

/-!
# Tetra/KitGrammar — the reports as JSON has them

JSON objects as a grammar of texts: strings with their escapes, words for the numbers and the three
names, arrays and objects nested in any way.  On the text of an object the scanner gives its members
that are strings or words (`object_read`):

* a string is read as what its escapes stand for (`Contents.read`);
* a container is passed over, whatever is in its strings, since the brackets of one kind are
  balanced in every text outside of them (`Grammar.passes`).

The grammar is an inductive predicate, and the texts of a part are the index of its derivations.  So
what the scanner does on a text is shown by induction on how the text was made.  Objects inside
objects are passed over in one step, and need no induction of their own.
-/

open Bytes

namespace DsdServer

namespace tetrakit

open mjson (digitVal utf8 unescape ws_cons)

/-! ## Strings

A string is a sequence of pieces: plain bytes, short escapes, and escapes of four hex digits, alone
or in pairs.  What is read of it is put together from the pieces. -/

/-- The character a short escape stands for. -/
def shortEscapes : List (UInt8 × UInt8) :=
  [(ch '"', ch '"'), (ch '\\', ch '\\'), (ch '/', ch '/'), (ch 'b', 8), (ch 'f', 12), (ch 'n', 10),
    (ch 'r', 13), (ch 't', 9)]

/-- Four digits and the number they spell. -/
inductive Hex4 : Bytes → ℕ → Prop
  | digits {a b c d : UInt8} (ha : digitVal a < 16) (hb : digitVal b < 16) (hc : digitVal c < 16)
    (hd : digitVal d < 16) : Hex4 [a, b, c, d] (mjson.natOf 16 [a, b, c, d])

/-- **The contents of a string**: what is written between its quotes, and what it stands for. -/
inductive Contents : Bytes → Bytes → Prop
  | nil : Contents [] []
  | plain {c : UInt8} {t v : Bytes} (hq : c ≠ ch '"') (hb : c ≠ ch '\\') : Contents t v →
    Contents (c :: t) (c :: v)
  | short {e c : UInt8} {t v : Bytes} (he : (e, c) ∈ shortEscapes) :
    Contents t v → Contents (ch '\\' :: e :: t) (c :: v)
  | unicode {ds t v : Bytes} {c : Char} (hd : Hex4 ds c.toNat) :
    Contents t v → Contents (ch '\\' :: ch 'u' :: (ds ++ t)) (String.utf8EncodeChar c ++ v)
  | pair {ds ds' t v : Bytes} {hi lo : ℕ} {c : Char} (hd : Hex4 ds hi) (hd' : Hex4 ds' lo)
    (hhi : 0xD800 ≤ hi ∧ hi ≤ 0xDBFF) (hlo : 0xDC00 ≤ lo ∧ lo ≤ 0xDFFF)
    (hc : c.toNat = 0x10000 + (hi - 0xD800) * 0x400 + (lo - 0xDC00)) :
    Contents t v →
      Contents (ch '\\' :: ch 'u' :: (ds ++ ch '\\' :: ch 'u' :: (ds' ++ t)))
      (String.utf8EncodeChar c ++ v)

section

variable {ds t k v r : Bytes} {e c : UInt8} {n : ℕ}

/-- The bits of a byte beside the ones above them. -/
theorem or_of_lt {x : ℕ} (k a : ℕ) (hx : x < 2 ^ k) : 2 ^ k * a ||| x = x + 2 ^ k * a := by
  rw [Nat.add_comm, Nat.two_pow_add_eq_or_of_lt hx]

/-- A byte of six bits more. -/
theorem continuation (x : ℕ) : 0x80 ||| x &&& 0x3f = x % 0x40 + 0x80 := by
  have hx : x % 0x40 < 2 ^ 6 := Nat.mod_lt _ (by decide)
  rw [Nat.and_two_pow_sub_one_eq_mod x 6]
  exact or_of_lt 6 2 hx

/-- The first byte: the bits that are left under its mark, none of which reaches it. -/
theorem leading {n k m : ℕ} (a b : ℕ) (hn : n / 2 ^ k < m) (hm : m ≤ 2 ^ b) :
    2 ^ b * a ||| n / 2 ^ k = n / 2 ^ k % m + 2 ^ b * a := by
  rw [Nat.mod_eq_of_lt hn]
  exact or_of_lt b a (hn.trans_le hm)

theorem toNat_char_lt (c : Char) : c.toNat < 0x110000 := by
  rcases c.valid with h | h
  · exact Nat.lt_trans h (by decide)
  · exact h.2

/-- **The bytes written for a code point are those of UTF-8.** -/
theorem utf8_char (c : Char) : utf8 c.toNat = String.utf8EncodeChar c := by
  have hmax := toNat_char_lt c
  rw [utf8, String.utf8EncodeChar]
  simp only [continuation, Nat.shiftRight_eq_div_pow]
  by_cases h1 : c.toNat < 0x80
  · rw [if_pos h1]
    exact (if_pos (Nat.le_of_lt_succ h1)).symm
  have h1' : ¬c.val.toNat ≤ 0x7f := fun h => h1 (Nat.lt_succ_of_le h)
  by_cases h2 : c.toNat < 0x800
  · have hb : 0xc0 ||| c.toNat / 2 ^ 6 = c.toNat / 2 ^ 6 % 32 + 0xc0 :=
      leading 3 6 (by omega) (by decide)
    rw [if_neg h1, if_pos h2, hb]
    exact ((if_neg h1').trans (if_pos (Nat.le_of_lt_succ h2))).symm
  have h2' : ¬c.val.toNat ≤ 0x7ff := fun h => h2 (Nat.lt_succ_of_le h)
  by_cases h3 : c.toNat < 0x10000
  · have hb : 0xe0 ||| c.toNat / 2 ^ 12 = c.toNat / 2 ^ 12 % 16 + 0xe0 :=
      leading 7 5 (by omega) (by decide)
    rw [if_neg h1, if_neg h2, if_pos h3, hb]
    exact ((if_neg h1').trans ((if_neg h2').trans (if_pos (Nat.le_of_lt_succ h3)))).symm
  · have h3' : ¬c.val.toNat ≤ 0xffff := fun h => h3 (Nat.lt_succ_of_le h)
    have hb : 0xf0 ||| c.toNat / 2 ^ 18 = c.toNat / 2 ^ 18 % 8 + 0xf0 :=
      leading 15 4 (by omega) (by decide)
    rw [if_neg h1, if_neg h2, if_neg h3, hb]
    exact ((if_neg h1').trans ((if_neg h2').trans (if_neg h3'))).symm

theorem Hex4.read (h : Hex4 ds n) (t : Bytes) : Rest.hex4 (ds ++ t) = some (n, t) := by
  cases h with
  | digits ha hb hc hd =>
    rw [List.cons_append, List.cons_append, List.cons_append, List.cons_append, Rest.hex4,
      if_pos ⟨ha, hb, hc, hd⟩]
    simp only [mjson.natOf, List.foldl_cons, List.foldl_nil, Nat.zero_mul, Nat.zero_add,
      List.nil_append]

/-- A short escape is read as what it stands for. -/
theorem unescape_short (he : (e, c) ∈ shortEscapes) : e ≠ ch 'u' ∧ unescape e = c := by
  simp only [shortEscapes, List.mem_cons, List.not_mem_nil, or_false, Prod.mk.injEq] at he
  rcases he with ⟨rfl, rfl⟩ | ⟨rfl, rfl⟩ | ⟨rfl, rfl⟩ | ⟨rfl, rfl⟩ | ⟨rfl, rfl⟩ | ⟨rfl, rfl⟩ |
    ⟨rfl, rfl⟩ | ⟨rfl, rfl⟩
  all_goals decide

/-- No character is half of a surrogate pair. -/
theorem isHigh_char (c : Char) : isHigh c.toNat = false := by
  rw [isHigh, Bool.and_eq_false_iff, decide_eq_false_iff_not, decide_eq_false_iff_not]
  rcases c.valid with h | h
  · exact Or.inl (Nat.not_le.2 h)
  · have hlt : 0xDFFF < c.toNat := h.1
    exact Or.inr (by omega)

/-- **A string is read as it was meant**, up to its closing quote. -/
theorem Contents.read (h : Contents k v) (r : Bytes) : Rest.string (k ++ ch '"' :: r) = (v, r) := by
  induction h with
  | nil => exact Rest.string_quote r
  | plain hq hb _ ih =>
    rw [List.cons_append, Rest.string_char hq hb, ih]
    rfl
  | short he _ ih =>
    obtain ⟨hu, hc⟩ := unescape_short he
    rw [List.cons_append, List.cons_append, Rest.string_escape hu, ih, hc]
    rfl
  | @unicode ds t v c hd _ ih =>
    have hcp : Rest.codePoint (ds ++ (t ++ ch '"' :: r)) = some (c.toNat, t ++ ch '"' :: r) := by
      rw [Rest.codePoint, hd.read, Option.map_some, Rest.paired, isHigh_char,
        if_neg Bool.false_ne_true]
    rw [List.cons_append, List.cons_append, List.append_assoc, Rest.string_unicode hcp,
      ih, utf8_char]
    rfl
  | @pair ds ds' t v hi lo c hd hd' hhi hlo hc _ ih =>
    have hlow : Rest.low (ch '\\' :: ch 'u' :: (ds' ++ (t ++ ch '"' :: r))) =
        some (lo, t ++ ch '"' :: r) := by
      rw [Rest.low, if_pos ⟨rfl, rfl⟩, hd'.read, Option.filter_some, if_pos]
      rw [isLow, Bool.and_eq_true, decide_eq_true_iff, decide_eq_true_iff]
      exact hlo
    have hcp : Rest.codePoint (ds ++ ch '\\' :: ch 'u' :: (ds' ++ (t ++ ch '"' :: r))) =
        some (c.toNat, t ++ ch '"' :: r) := by
      have hhigh : isHigh hi = true := by
        rw [isHigh, Bool.and_eq_true, decide_eq_true_iff, decide_eq_true_iff]
        exact hhi
      rw [Rest.codePoint, hd.read, Option.map_some, Rest.paired, if_pos hhigh, hlow,
        Option.elim_some, hc]
      rfl
    rw [List.cons_append, List.cons_append, List.append_assoc, List.cons_append, List.cons_append,
      List.append_assoc, Rest.string_unicode hcp, ih, utf8_char]
    rfl

end

/-! ## The grammar

The grammar has no meaning of its own; it says which texts are values, with white space wherever
JSON allows it. -/

def Blank (b : Bytes) : Prop := ∀ c ∈ b, mjson.isSpace c = true

/-- A character of a number or of `true`, `false` and `null`. -/
def isWordChar (c : UInt8) : Bool := isAlnum c || c = ch '+' || c = ch '-' || c = ch '.'

/-- A number or a name, as it is written. -/
structure Word (t : Bytes) : Prop where
  ne_nil : t ≠ []
  chars : ∀ c ∈ t, isWordChar c = true

/-- The two kinds of brackets. -/
inductive Bracket
  | square
  | curly

/-- The bracket that opens. -/
def Bracket.opening : Bracket → UInt8
  | square => ch '['
  | curly => ch '\x7b'

/-- The bracket that closes. -/
def Bracket.closing : Bracket → UInt8
  | square => ch ']'
  | curly => ch '\x7d'

/-- What a text can be part of. -/
inductive Part
  | value
  | padded
  | member
  | list (p : Part)

/-- What stands between brackets. -/
def Bracket.item : Bracket → Part
  | square => .padded
  | curly => .member

/-- A text between the brackets of a kind. -/
def Bracket.around (k : Bracket) (t : Bytes) : Bytes := k.opening :: (t ++ [k.closing])

/-- The text of a string. -/
def quoted (k : Bytes) : Bytes := ch '"' :: (k ++ [ch '"'])

/-- **The texts of JSON**: values, values with blanks around them, members of objects, and lists of
one of these with commas between them. -/
inductive Grammar : Part → Bytes → Prop
  | string {k v : Bytes} : Contents k v → Grammar .value (quoted k)
  | word {t : Bytes} : Word t → Grammar .value t
  | empty (k : Bracket) {b : Bytes} : Blank b → Grammar .value (k.around b)
  | container (k : Bracket) {t : Bytes} : Grammar (.list k.item) t → Grammar .value (k.around t)
  | padded {b t b' : Bytes} : Blank b → Grammar .value t → Blank b' → Grammar .padded (b ++ t ++ b')
  | member {b k v b' t : Bytes} : Blank b → Contents k v → Blank b' → Grammar .padded t →
    Grammar .member (b ++ quoted k ++ b' ++ ch ':' :: t)
  | one {p : Part} {t : Bytes} : Grammar p t → Grammar (.list p) t
  | more {p : Part} {t u : Bytes} : Grammar p t → Grammar (.list p) u →
    Grammar (.list p) (t ++ ch ',' :: u)

/-! ## Containers are passed over

The scanner counts the brackets of the kind that opened, and takes no notice of the others.  That is
enough because in a text of the grammar each kind is balanced by itself, strings aside. -/

/-- From inside brackets of a kind, a text leads past itself at the same depth. -/
def Passes (k : Bracket) (t : Bytes) : Prop :=
  ∀ (depth : ℕ) (r : Bytes), 0 < depth →
    Rest.skip k.opening k.closing depth (t ++ r) = Rest.skip k.opening k.closing depth r

section

variable {k k' : Bracket} {t u v b : Bytes} {c : UInt8} {p : Part}

/-- Texts that are passed over, one after the other. -/
theorem Passes.append (ht : Passes k t) (hu : Passes k u) : Passes k (t ++ u) := by
  intro depth r hd
  rw [List.append_assoc, ht depth _ hd, hu depth r hd]

/-- A character that is no quote and no bracket of the kind. -/
def Plain (k : Bracket) (c : UInt8) : Prop := c ≠ ch '"' ∧ c ≠ k.opening ∧ c ≠ k.closing

theorem Passes.cons (hc : Plain k c) (ht : Passes k t) : Passes k (c :: t) := by
  intro depth r hd
  rw [List.cons_append, Rest.skip, if_neg hc.1, if_neg hc.2.1, if_neg hc.2.2, ht depth r hd]

theorem Passes.chars (h : ∀ c ∈ t, Plain k c) : Passes k t := by
  induction t with
  | nil => exact fun _ _ _ => rfl
  | cons c t ih =>
    rw [List.forall_mem_cons] at h
    exact Passes.cons h.1 (ih h.2)

/-- A string is passed over, whatever is in it. -/
theorem Passes.quoted (h : Contents t v) : Passes k (quoted t) := by
  intro depth r _
  rw [tetrakit.quoted, List.cons_append, Rest.skip, if_pos rfl, List.append_assoc]
  exact congrArg (Rest.skip k.opening k.closing depth) (congrArg Prod.snd (h.read r))

/-- What is between brackets that are not of the kind… -/
theorem Passes.around_ne (hk : k' ≠ k) (ht : Passes k t) : Passes k (k'.around t) := by
  have hopen : Plain k k'.opening := by
    cases k <;> cases k' <;> first | exact absurd rfl hk | (unfold Plain; decide)
  have hclose : Plain k k'.closing := by
    cases k <;> cases k' <;> first | exact absurd rfl hk | (unfold Plain; decide)
  exact Passes.cons hopen (ht.append (Passes.cons hclose fun _ _ _ => rfl))

theorem Bracket.opening_ne_quote (k : Bracket) : k.opening ≠ ch '"' := by
  cases k
  · decide
  · decide

theorem Bracket.closing_ne_quote (k : Bracket) : k.closing ≠ ch '"' := by
  cases k
  · decide
  · decide

theorem Bracket.closing_ne_opening (k : Bracket) : k.closing ≠ k.opening := by
  cases k
  · decide
  · decide

/-- A bracket that opens goes one deeper. -/
theorem skip_opening (k : Bracket) (depth : ℕ) (r : Bytes) :
    Rest.skip k.opening k.closing depth (k.opening :: r) = Rest.skip k.opening k.closing
      (depth + 1) r := by
  rw [Rest.skip, if_neg k.opening_ne_quote, if_pos rfl]

/-- A bracket that closes comes out by one. -/
theorem skip_closing (k : Bracket) (depth : ℕ) (r : Bytes) :
    Rest.skip k.opening k.closing depth (k.closing :: r) =
    if depth - 1 = 0 then r else Rest.skip k.opening k.closing (depth - 1) r := by
  rw [Rest.skip, if_neg k.closing_ne_quote, if_neg k.closing_ne_opening, if_pos rfl]

/-- …or between brackets that are. -/
theorem Passes.around_self (ht : Passes k t) : Passes k (k.around t) := by
  intro depth r hd
  rw [Bracket.around, List.cons_append, skip_opening, List.append_assoc, ht _ _ (Nat.succ_pos _),
    List.singleton_append, skip_closing, Nat.succ_sub_one, if_neg hd.ne']

/-- **A text in brackets is passed over**, of the kind that is counted or of the other. -/
theorem Passes.around (k' : Bracket) (ht : Passes k t) : Passes k (k'.around t) := by
  by_cases hk : k' = k
  · subst hk
    exact ht.around_self
  · exact ht.around_ne hk

/-- **The end of a container is found**: the closing bracket of the first opening one. -/
theorem skip_around (ht : Passes k t) (r : Bytes) :
    Rest.skip k.opening k.closing 0 (k.around t ++ r) = r := by
  rw [Bracket.around, List.cons_append, skip_opening, List.append_assoc, ht _ _ (Nat.succ_pos _),
    List.singleton_append, skip_closing, if_pos rfl]

/-- No character of a word is one of those that have a meaning of their own. -/
theorem ne_of_isWordChar {d : UInt8} (hc : isWordChar c = true) (hd : isWordChar d = false) :
    c ≠ d := by
  rintro rfl
  exact Bool.false_ne_true (hd.symm.trans hc)

theorem Bracket.plain_of_isWordChar (k : Bracket) (hc : isWordChar c = true) : Plain k c := by
  cases k
  · exact ⟨ne_of_isWordChar hc (by decide), ne_of_isWordChar hc (by decide),
      ne_of_isWordChar hc (by decide)⟩
  · exact ⟨ne_of_isWordChar hc (by decide), ne_of_isWordChar hc (by decide),
      ne_of_isWordChar hc (by decide)⟩

theorem ne_of_isSpace {d : UInt8} (hc : mjson.isSpace c = true) (hd : mjson.isSpace d = false) :
    c ≠ d := by
  rintro rfl
  exact Bool.false_ne_true (hd.symm.trans hc)

theorem Bracket.plain_of_isSpace (k : Bracket) (hc : mjson.isSpace c = true) : Plain k c := by
  cases k
  · exact ⟨ne_of_isSpace hc (by decide), ne_of_isSpace hc (by decide), ne_of_isSpace hc (by decide)⟩
  · exact ⟨ne_of_isSpace hc (by decide), ne_of_isSpace hc (by decide), ne_of_isSpace hc (by decide)⟩

theorem Blank.passes (hb : Blank b) : Passes k b :=
  Passes.chars fun c hc => k.plain_of_isSpace (hb c hc)

/-- **Every text of JSON is passed over**: outside its strings, its brackets are balanced. -/
theorem Grammar.passes (h : Grammar p t) : Passes k t := by
  have hcolon : Plain k (ch ':') := by cases k <;> (unfold Plain; decide)
  have hcomma : Plain k (ch ',') := by cases k <;> (unfold Plain; decide)
  induction h with
  | string hs => exact Passes.quoted hs
  | word hw => exact Passes.chars fun c hc => k.plain_of_isWordChar (hw.chars c hc)
  | empty k' hb => exact hb.passes.around k'
  | container k' _ ih => exact ih.around k'
  | padded hb _ hb' ih => exact (hb.passes.append ih).append hb'.passes
  | member hb hs hb' _ ih =>
    exact ((hb.passes.append (Passes.quoted hs)).append hb'.passes).append (Passes.cons hcolon ih)
  | one _ ih => exact ih
  | more _ _ iht ihu => exact iht.append (Passes.cons hcomma ihu)

end

/-! ## Objects

A member that is a string or a word is kept, one that is a container is passed over, and the scan
goes on after it. -/

/-- **A value of a member**: what it is read as, if it is a string or a word. -/
inductive Value : Bytes → Option Bytes → Prop
  | string {k v : Bytes} : Contents k v → Value (quoted k) (some v)
  | word {t : Bytes} : Word t → Value t (some t)
  | empty (k : Bracket) {b : Bytes} : Blank b → Value (k.around b) none
  | container (k : Bracket) {t : Bytes} : Grammar (.list k.item) t → Value (k.around t) none

/-- A member, with its key and what its value is read as. -/
inductive Member : Bytes × Option Bytes → Bytes → Prop
  | mk {b k v b₁ b₂ t b₃ : Bytes} {o : Option Bytes} : Blank b → Contents k v → Blank b₁ →
    Blank b₂ → Value t o →
    Blank b₃ → Member (v, o) (b ++ quoted k ++ b₁ ++ ch ':' :: (b₂ ++ t ++ b₃))

/-- The members of an object, with what is read of each. -/
inductive Members : List (Bytes × Option Bytes) → Bytes → Prop
  | one {m : Bytes × Option Bytes} {t : Bytes} : Member m t → Members [m] t
  | more {m : Bytes × Option Bytes} {ms : List (Bytes × Option Bytes)} {t u : Bytes} :
    Member m t → Members ms u → Members (m :: ms) (t ++ ch ',' :: u)

/-- **An object**, with its members. -/
inductive Object : List (Bytes × Option Bytes) → Bytes → Prop
  | empty {b : Bytes} : Blank b → Object [] (Bracket.curly.around b)
  | members {ms : List (Bytes × Option Bytes)} {t : Bytes} : Members ms t →
    Object ms (Bracket.curly.around t)

/-- What a member adds to the fields. -/
def put (fields : SortedMap Bytes Bytes) (m : Bytes × Option Bytes) : SortedMap Bytes Bytes :=
  m.2.elim fields (fields.insert m.1)

section

variable {b t u r : Bytes} {c : UInt8} {o : Option Bytes} {m : Bytes × Option Bytes}
  {ms : List (Bytes × Option Bytes)} {key : Bytes} {fields : SortedMap Bytes Bytes}

theorem Grammar.value (h : Grammar .value t) : ∃ o, Value t o := by
  cases h with
  | string hs => exact ⟨_, .string hs⟩
  | word hw => exact ⟨_, .word hw⟩
  | empty k hb => exact ⟨_, .empty k hb⟩
  | container k ht => exact ⟨_, .container k ht⟩

/-- Every member of the grammar has a key and a value. -/
theorem Grammar.member_of (h : Grammar .member t) : ∃ m, Member m t := by
  cases h with
  | member hb hs hb₁ hp =>
    cases hp with
    | padded hb₂ hv hb₃ =>
      obtain ⟨o, ho⟩ := hv.value
      exact ⟨_, .mk hb hs hb₁ hb₂ ho hb₃⟩

theorem Grammar.members_of {p : Part} (h : Grammar p t) :
    p = .list .member → ∃ ms, Members ms t := by
  induction h with
  | one ht _ =>
    intro hp
    obtain rfl := Part.list.inj hp
    obtain ⟨m, hm⟩ := ht.member_of
    exact ⟨_, .one hm⟩
  | more ht _ _ ihu =>
    intro hp
    obtain ⟨ms, hms⟩ := ihu hp
    obtain rfl := Part.list.inj hp
    obtain ⟨m, hm⟩ := ht.member_of
    exact ⟨_, .more hm hms⟩
  | _ => exact fun hp => Part.noConfusion hp

theorem Blank.ws (hb : Blank b) (t : Bytes) : mjson.ws (b ++ t) = mjson.ws t :=
  List.dropWhile_append_of_pos hb

/-- What is expected stands after white space. -/
theorem Blank.expect (hb : Blank b) (hc : mjson.isSpace c = false) (t : Bytes) :
    Rest.expect c (b ++ c :: t) = some t := by
  rw [Rest.expect, hb.ws, ws_cons hc]
  exact if_pos rfl

/-- Something else stands after white space. -/
theorem Blank.expect_ne {d : UInt8} (hb : Blank b) (hc : mjson.isSpace c = false) (hd : c ≠ d)
    (t : Bytes) :
    Rest.expect d (b ++ c :: t) = none := by
  rw [Rest.expect, hb.ws, ws_cons hc]
  exact if_neg hd

/-- What can follow a value. -/
def Follows (r : Bytes) : Prop := ∃ c u, r = c :: u ∧ endsScalar c = true

/-- White space may stand before what follows. -/
theorem Blank.follows (hb : Blank b) (hr : Follows r) : Follows (b ++ r) := by
  rcases b with _ | ⟨c, b⟩
  · exact hr
  · refine ⟨c, b ++ r, rfl, ?_⟩
    rw [endsScalar, hb c List.mem_cons_self, Bool.or_true]

theorem endsScalar_of_isWordChar (hc : isWordChar c = true) :
    endsScalar c = false ∧ mjson.isSpace c = false := by
  have hall : ∀ n : Fin 256, isWordChar (.ofFin n) = true →
      endsScalar (.ofFin n) = false ∧ mjson.isSpace (.ofFin n) = false := by decide +kernel
  exact hall c.toFin hc

/-- A container is not read. -/
theorem value_around {k : Bracket} (ht : Passes k t) (key : Bytes) (fields : SortedMap Bytes Bytes)
    (r : Bytes) :
    Rest.value key fields (k.around t ++ r) = (fields, r) := by
  have hskip := skip_around ht r
  rw [Bracket.around, List.cons_append] at hskip ⊢
  have hkind : k.opening = ch '\x7b' ∨ k.opening = ch '[' := by
    cases k
    · exact Or.inr rfl
    · exact Or.inl rfl
  have hclose : (if k.opening = ch '\x7b' then ch '\x7d' else ch ']') = k.closing := by
    cases k
    · exact if_neg (by decide)
    · exact if_pos rfl
  rw [Rest.value, if_neg k.opening_ne_quote, if_pos hkind, hclose, hskip]

/-- A word is read to its end. -/
theorem value_word (hw : Word t) (hr : Follows r) (key : Bytes) (fields : SortedMap Bytes Bytes) :
    Rest.value key fields (t ++ r) = (fields.insert key t, r) := by
  obtain ⟨d, u, rfl, hd⟩ := hr
  have hstop : ¬(!endsScalar d) = true := by
    rw [hd]
    exact Bool.false_ne_true
  have hgo : ∀ c ∈ t, (!endsScalar c) = true := by
    intro c hc
    rw [(endsScalar_of_isWordChar (hw.chars c hc)).1]
    rfl
  have htake : (t ++ d :: u).takeWhile (fun c => !endsScalar c) = t := by
    rw [List.takeWhile_append_of_pos hgo, List.takeWhile_cons, if_neg hstop, List.append_nil]
  have hdrop : (t ++ d :: u).dropWhile (fun c => !endsScalar c) = d :: u := by
    rw [List.dropWhile_append_of_pos hgo, List.dropWhile_cons, if_neg hstop]
  rcases t with _ | ⟨c, t⟩
  · exact absurd rfl hw.ne_nil
  · have hc := hw.chars c List.mem_cons_self
    rw [List.cons_append] at htake hdrop ⊢
    rw [Rest.value, if_neg (ne_of_isWordChar hc (by decide)), if_neg, htake, hdrop]
    rintro (hb | hb)
    · exact ne_of_isWordChar hc (by decide) hb
    · exact ne_of_isWordChar hc (by decide) hb

/-- **A value is read**, and what follows it is left. -/
theorem Value.read (h : Value t o) (hr : Follows r) (key : Bytes) (fields : SortedMap Bytes Bytes) :
    Rest.value key fields (t ++ r) = (put fields (key, o), r) := by
  cases h with
  | @string k v hs =>
    have hread : Rest.string (k ++ [ch '"'] ++ r) = (v, r) := by
      rw [List.append_assoc]
      exact hs.read r
    rw [quoted, List.cons_append, Rest.value, if_pos rfl, hread]
    rfl
  | word hw => exact value_word hw hr key fields
  | empty k hb => exact value_around hb.passes key fields r
  | container k ht => exact value_around ht.passes key fields r

/-- No value begins with a blank. -/
theorem Value.ws (h : Value t o) (r : Bytes) : mjson.ws (t ++ r) = t ++ r := by
  have hopen : ∀ k : Bracket, mjson.isSpace k.opening = false := by
    intro k
    cases k
    · decide
    · decide
  cases h with
  | string hs => exact ws_cons (by decide) _
  | word hw =>
    rcases t with _ | ⟨c, t⟩
    · exact absurd rfl hw.ne_nil
    · exact ws_cons (endsScalar_of_isWordChar (hw.chars c List.mem_cons_self)).2 _
  | empty k hb => exact ws_cons (hopen k) _
  | container k ht => exact ws_cons (hopen k) _

/-- **A member is read**: its key, a colon, its value, and blanks behind it. -/
theorem Member.read (h : Member m t) (hr : Follows r) (fields : SortedMap Bytes Bytes) :
    ∃ k u b, Rest.expect (ch '"') (t ++ r) = some k ∧
      Rest.expect (ch ':') (Rest.string k).2 = some u ∧ Blank b ∧
      Rest.value (Rest.string k).1 fields (mjson.ws u) = (put fields m, b ++ r) := by
  cases h with
  | @mk b k v b₁ b₂ t b₃ o hb hs hb₁ hb₂ hv hb₃ =>
    have hkey := hs.read (b₁ ++ ch ':' :: (b₂ ++ (t ++ (b₃ ++ r))))
    refine ⟨k ++ ch '"' :: (b₁ ++ ch ':' :: (b₂ ++ (t ++ (b₃ ++ r)))), b₂ ++ (t ++ (b₃ ++ r)), b₃,
      ?_, ?_, hb₃, ?_⟩
    · simp only [quoted, List.append_assoc, List.cons_append, List.nil_append]
      exact hb.expect (by decide) _
    · rw [hkey]
      exact hb₁.expect (by decide) _
    · rw [hkey, hb₂.ws, hv.ws]
      exact hv.read (hb₃.follows hr) v fields

/-- **The members are read** to the closing bracket. -/
theorem Members.read (h : Members ms t) (r : Bytes) : ∀ fields : SortedMap Bytes Bytes,
    Rest.members fields (t ++ ch '\x7d' :: r) = ms.foldl put fields := by
  induction h with
  | one hm =>
    intro fields
    obtain ⟨k, u, b, hq, hc, hb, hv⟩ := hm.read ⟨ch '\x7d', r, rfl, by decide⟩ fields
    rw [Rest.members_last hq hc, hv]
    · rfl
    · rw [hv]
      exact hb.expect_ne (by decide) (by decide) r
  | @more m ms t u hm _ ih =>
    intro fields
    obtain ⟨k, w, b, hq, hc, hb, hv⟩ := hm.read ⟨ch ',', u ++ ch '\x7d' :: r, rfl, by decide⟩ fields
    have hr : Rest.expect (ch ',') (Rest.value (Rest.string k).1 fields (mjson.ws w)).2 =
        some (u ++ ch '\x7d' :: r) := by
      rw [hv]
      exact hb.expect (by decide) _
    rw [List.append_assoc, List.cons_append, Rest.members_more hq hc hr, hv, ih]
    rfl

/-- A member is not the end of the object. -/
theorem Members.not_closing (h : Members ms t) (r : Bytes) :
    Rest.expect (ch '\x7d') (t ++ r) = none := by
  have hone : ∀ {m : Bytes × Option Bytes} {t : Bytes} (r : Bytes), Member m t →
      Rest.expect (ch '\x7d') (t ++ r) = none := by
    intro m t r hm
    cases hm with
    | mk hb =>
      simp only [quoted, List.append_assoc, List.cons_append]
      exact hb.expect_ne (by decide) (by decide) _
  cases h with
  | one hm => exact hone r hm
  | more hm =>
    rw [List.append_assoc]
    exact hone _ hm

/-- A member with a new key adds itself. -/
theorem find?_put (hm : fields.find? m.1 = none) (k v : Bytes) :
    (put fields m).find? k = some v ↔ (k, some v) = m ∨ fields.find? k = some v := by
  obtain ⟨key, o⟩ := m
  cases o with
  | none =>
    exact ⟨Or.inr, fun h => h.resolve_left fun he => Option.some_ne_none v (congrArg Prod.snd he)⟩
  | some w =>
    rw [put, Option.elim_some, SortedMap.find?_insert]
    by_cases hk : k = key
    · subst hk
      rw [if_pos rfl, show fields.find? k = none from hm, Option.some.injEq, Prod.mk.injEq,
        Option.some.injEq]
      exact ⟨fun h => Or.inl ⟨rfl, h.symm⟩,
        fun h => h.elim (fun he => he.2.symm) fun hn => absurd hn.symm (Option.some_ne_none v)⟩
    · rw [if_neg hk]
      exact ⟨Or.inr, fun h => h.resolve_left fun he => hk (congrArg Prod.fst he)⟩

/-- **The fields are the members that are strings or words**, when the keys are distinct. -/
theorem find?_foldl_put (hkeys : (ms.map Prod.fst).Nodup) (k v : Bytes) :
    ∀ {fields : SortedMap Bytes Bytes},
    (∀ m ∈ ms, fields.find? m.1 = none) →
      ((ms.foldl put fields).find? k = some v ↔ (k, some v) ∈ ms ∨ fields.find? k = some v) := by
  induction ms with
  | nil =>
    intro fields _
    rw [List.foldl_nil]
    exact ⟨Or.inr, fun h => h.resolve_left List.not_mem_nil⟩
  | cons m ms ih =>
    intro fields hnew
    rw [List.map_cons, List.nodup_cons] at hkeys
    rw [List.forall_mem_cons] at hnew
    have hnew' : ∀ m' ∈ ms, (put fields m).find? m'.1 = none := by
      intro m' hm'
      have hne : m'.1 ≠ m.1 := fun he => hkeys.1 (he ▸ List.mem_map_of_mem hm')
      rw [← hnew.2 m' hm', put]
      cases m.2 with
      | none => rfl
      | some w => exact SortedMap.find?_insert_ne fields w hne
    rw [List.foldl_cons, ih hkeys.2 hnew', find?_put hnew.1, List.mem_cons]
    tauto

end

/-- **The report of an object** is its members that are strings or words: whatever is around it, and
however what it contains is nested. -/
theorem object_read {b t : Bytes} {ms : List (Bytes × Option Bytes)} (hb : Blank b)
    (h : Object ms t) (hkeys : (ms.map Prod.fst).Nodup) (r : Bytes) :
    (Rest.report (b ++ (t ++ r))).valid = true ∧
      ∀ k v, (Rest.report (b ++ (t ++ r))).fields.find? k = some v ↔ (k, some v) ∈ ms := by
  have hopen : ∀ u : Bytes, Rest.expect (ch '\x7b') (b ++ (Bracket.curly.around u ++ r)) =
      some (u ++ ch '\x7d' :: r) := by
    intro u
    rw [Bracket.around, List.cons_append, List.append_assoc]
    exact hb.expect (by decide) _
  cases h with
  | @empty b' hb' =>
    have hclose : Rest.expect (ch '\x7d') (b' ++ ch '\x7d' :: r) = some r :=
      hb'.expect (by decide) r
    simp only [Rest.report, hopen, hclose]
    refine ⟨trivial, fun k v => ?_⟩
    rw [SortedMap.find?_empty]
    exact ⟨fun hn => absurd hn.symm (Option.some_ne_none v), fun hm => absurd hm List.not_mem_nil⟩
  | @members _ t hms =>
    simp only [Rest.report, hopen, hms.not_closing, hms.read]
    refine ⟨trivial, fun k v => ?_⟩
    rw [find?_foldl_put hkeys k v fun m _ => SortedMap.find?_empty m.1, SortedMap.find?_empty]
    exact or_iff_left fun hn => Option.some_ne_none v hn.symm

/-- Every object of the grammar has such members. -/
theorem Grammar.object {t : Bytes} (h : Grammar .value (Bracket.curly.around t)) :
    ∃ ms, Object ms (Bracket.curly.around t) := by
  generalize ht : Bracket.curly.around t = x at h
  have hhead : ∀ {c : UInt8} {u : Bytes}, Bracket.curly.around t = c :: u →
      c = ch '\x7b' := fun hx =>
    (List.cons.inj hx).1.symm
  have hcurly : ∀ {k : Bracket} {u : Bytes}, Bracket.curly.around t = k.around u → k = .curly := by
    intro k u hx
    cases k
    · exact absurd (hhead hx) (by decide)
    · rfl
  cases h with
  | string => exact absurd (hhead ht) (by decide)
  | @word _ hw =>
    have hword := hw.chars (ch '\x7b') (ht ▸ List.mem_cons_self)
    exact absurd hword (by decide)
  | empty k hb =>
    obtain rfl := hcurly ht
    exact ⟨[], .empty hb⟩
  | container k hl =>
    obtain rfl := hcurly ht
    obtain ⟨ms, hms⟩ := hl.members_of rfl
    exact ⟨ms, .members hms⟩

/-- **The reports, scanned.**  The scanner ends on every line and reads no character that is not
there.  Every object of JSON has members, and when their keys are distinct the report holds those
that are strings, with their escapes resolved, and those that are numbers or names, as they are
written; the others leave no trace. -/
theorem report_scanned :
    (∀ line, ∃ rep, parseTetrakitJson line = .ok rep) ∧
      (∀ t, Grammar .value (Bracket.curly.around t) → ∃ ms, Object ms (Bracket.curly.around t)) ∧
        ∀ {b t : Bytes} {ms : List (Bytes × Option Bytes)} (r : Bytes), Blank b → Object ms t →
          (ms.map Prod.fst).Nodup → ∃ rep, parseTetrakitJson (b ++ (t ++ r)) = .ok rep ∧
            rep.valid = true ∧
            ∀ k v, rep.fields.find? k = some v ↔ (k, some v) ∈ ms :=
  ⟨fun line => ⟨_, parseTetrakitJson_eq line⟩, fun _ h => h.object, fun r hb h hkeys =>
    ⟨_, parseTetrakitJson_eq _, object_read hb h hkeys r⟩⟩

/-- An object with an array in it whose strings look like the end of the array. -/
theorem nested_scanned : ∃ rep,
    parseTetrakitJson
      (lit " \x7b\"a\":\"\\u00e9\",\"b\":[\x7b\"c\":\"]\\\"\"\x7d], \"n\" : -1 \x7d") = .ok rep ∧
      rep.valid = true ∧ ∀ k v, rep.fields.find? k = some v ↔
        (k, some v) ∈ [(lit "a", some (String.utf8EncodeChar 'é' ++ [])), (lit "b", none),
          (lit "n", some (lit "-1"))] := by
  have hnone : Blank [] := fun _ hc => absurd hc List.not_mem_nil
  have hone : Blank [32] := fun c hc => by rw [List.mem_singleton.1 hc]; rfl
  have ha : Contents (lit "a") (lit "a") := .plain (by decide) (by decide) .nil
  have hb : Contents (lit "b") (lit "b") := .plain (by decide) (by decide) .nil
  have hc : Contents (lit "c") (lit "c") := .plain (by decide) (by decide) .nil
  have hn : Contents (lit "n") (lit "n") := .plain (by decide) (by decide) .nil
  have hhex : Hex4 [ch '0', ch '0', ch 'e', ch '9'] 'é'.toNat :=
    .digits (by decide) (by decide) (by decide) (by decide)
  have he : Value (quoted (ch '\\' :: ch 'u' :: ([ch '0', ch '0', ch 'e', ch '9'] ++ [])))
      (some (String.utf8EncodeChar 'é' ++ [])) := .string (.unicode hhex .nil)
  have hs : Contents (lit "]\\\"") (lit "]\"") :=
    .plain (by decide) (by decide) (.short List.mem_cons_self .nil)
  have hin : Grammar .member (quoted (lit "c") ++ ch ':' :: quoted (lit "]\\\"")) :=
    .member hnone hc hnone (.padded hnone (.string hs) hnone)
  have hvb : Value (Bracket.square.around
      (Bracket.curly.around (quoted (lit "c") ++ ch ':' :: quoted (lit "]\\\""))))
      none := .container .square (.one (.padded hnone (.container .curly (.one hin)) hnone))
  have hvn : Value (lit "-1") (some (lit "-1")) :=
    .word ⟨by decide, List.forall_mem_cons.2 ⟨by decide, List.forall_mem_singleton.2 (by decide)⟩⟩
  exact report_scanned.2.2 [] hone (.members (.more (.mk hnone ha hnone hnone he hnone)
    (.more (.mk hnone hb hnone hnone hvb hnone) (.one (.mk hone hn hone hone hvn hone)))))
      (by decide +kernel)

end tetrakit

end DsdServer
