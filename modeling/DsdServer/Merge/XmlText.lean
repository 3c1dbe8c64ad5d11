import DsdServer.Data.Bytes

/-!
# Merge/XmlText — text in XML

Names come from the air, and an export in XML must be well formed whatever they hold.  Markup is
escaped, and what does not look like UTF-8 is replaced; `wellEscaped_iff` says for which texts that
is enough.

A byte sequence is taken for UTF-8 if its bytes have the shape of one: the first byte says how many
follow.  XML also excludes some characters that have that shape, surrogates among them.  So there
are two questions about a text, of its bytes and of its characters, and they are treated one after
the other.
-/

open Bytes

namespace DsdServer

/-! ## The escaping

Markup is written as references, bytes below the space are replaced but for the three that XML
allows, and a byte beyond ASCII is looked at with those that follow. -/

/-- The bytes of the sequence that a byte starts, or 0. -/
def seqLen (c : UInt8) : ℕ :=
  if c &&& 0xe0 = 0xc0 then 2 else if c &&& 0xf0 = 0xe0 then 3
  else if c &&& 0xf8 = 0xf0 then 4 else 0

/-- A byte that goes on with a sequence. -/
def isCont (c : UInt8) : Bool := c &&& 0xc0 = 0x80

/-- Does a byte start a sequence that goes on as one? -/
def seqOk (c : UInt8) (s : Bytes) : Bool :=
  seqLen c ≠ 0 && 0xc2 ≤ c && seqLen c ≤ s.length + 1 && (s.take (seqLen c - 1)).all isCont

/-- What stands for a byte of ASCII. -/
def escAscii (c : UInt8) : Bytes :=
  if c = ch '&' then lit "&amp;"
  else if c = ch '<' then lit "&lt;"
  else if c = ch '>' then lit "&gt;"
  else if c = ch '"' then lit "&quot;"
  else if c = 39 then lit "&apos;"
  else if c < 0x20 ∧ c ≠ 9 ∧ c ≠ 10 ∧ c ≠ 13 then lit "?"
  else [c]

/-- The text from here on; the first `pass` bytes are left of a sequence. -/
def xescFrom : ℕ → Bytes → Bytes
  | _, [] => []
  | pass + 1, c :: s => c :: xescFrom pass s
  | 0, c :: s =>
    if c < 0x80 then escAscii c ++ xescFrom 0 s
    else if seqOk c s then c :: xescFrom (seqLen c - 1) s
    else ch '?' :: xescFrom 0 s

/-- **A text, escaped for XML.** -/
def xesc (s : Bytes) : Bytes := xescFrom 0 s

/-! ## Texts as XML has them

A text is well escaped when it is the writing of a list of characters that XML allows, each as a
reference or in UTF-8. -/

/-- The characters XML allows. -/
def XmlChar (x : Char) : Prop :=
  x.toNat = 9 ∨ x.toNat = 10 ∨ x.toNat = 13 ∨ 0x20 ≤ x.toNat ∧ x.toNat ≠ 0xfffe ∧ x.toNat ≠ 0xffff

/-- The characters that are written as references. -/
def entities : List (Char × Bytes) :=
  [('&', lit "&amp;"), ('<', lit "&lt;"), ('>', lit "&gt;"), ('"', lit "&quot;"),
    (Char.ofNat 39, lit "&apos;")]

instance (x : Char) : Decidable (XmlChar x) := inferInstanceAs (Decidable (_ ∨ _ ∨ _ ∨ _))

/-- A character, as an entity when it is one of markup. -/
def xmlPiece (x : Char) : Bytes :=
  ((entities.find? fun e => e.1 = x).map (·.2)).getD (String.utf8EncodeChar x)

/-- **UTF-8 of allowed characters.** -/
def IsText (s : Bytes) : Prop :=
  ∃ l : List Char, (∀ x ∈ l, XmlChar x) ∧ s = l.flatMap String.utf8EncodeChar

/-- …with the markup escaped. -/
def IsEscaped (s : Bytes) : Prop := ∃ l : List Char, (∀ x ∈ l, XmlChar x) ∧ s = l.flatMap xmlPiece

/-- The text from here on with its entities undone; of one of them `pass` bytes are left. -/
def xunescFrom : ℕ → Bytes → Bytes
  | _, [] => []
  | pass + 1, _ :: s => xunescFrom pass s
  | 0, c :: s =>
    match entities.find? fun e => e.2.isPrefixOf (c :: s) with
    | some e => ch e.1 :: xunescFrom (e.2.length - 1) s
    | none => c :: xunescFrom 0 s

/-- The text a reader of XML has. -/
def xunesc (s : Bytes) : Bytes := xunescFrom 0 s

/-- **The escaping does what it is for**: what it gives is escaped text, and text is what that
stands for. -/
def WellEscaped (s : Bytes) : Prop := IsEscaped (xesc s) ∧ (IsText s → xunesc (xesc s) = s)

/-- **Starts with a sequence that no allowed character has**: one too long for what it holds, of a
surrogate, of what is no character, or beyond the last. -/
def Irregular : Bytes → Prop
  | c :: b :: d :: s =>
    isCont b ∧ isCont d ∧
      (c.toNat = 0xe0 ∧ b.toNat < 0xa0 ∨ c.toNat = 0xed ∧ 0xa0 ≤ b.toNat ∨
        c.toNat = 0xef ∧ b.toNat = 0xbf ∧ 0xbe ≤ d.toNat ∨
        s.head?.any isCont ∧ (c.toNat = 0xf0 ∧ b.toNat < 0x90 ∨ c.toNat = 0xf4 ∧ 0x90 ≤ b.toNat ∨
          0xf5 ≤ c.toNat ∧ c.toNat < 0xf8))
  | _ => False

/-- No such sequence anywhere. -/
def Regular (s : Bytes) : Prop := ∀ t, t <:+ s → ¬ Irregular t

/-! ## Sequences

The length of a sequence is told by its first byte.  The escaping checks that enough bytes follow
and that each goes on with the sequence, and nothing else. -/

/-- What a byte says about its sequence. -/
theorem seqLen_eq (c : UInt8) : seqLen c =
    if c.toNat < 0xc0 then 0 else if c.toNat < 0xe0 then 2 else if c.toNat < 0xf0 then 3
    else if c.toNat < 0xf8 then 4 else 0 :=
  forall_byte (P := fun c => seqLen c = if c.toNat < 0xc0 then 0 else if c.toNat < 0xe0 then 2
    else if c.toNat < 0xf0 then 3 else if c.toNat < 0xf8 then 4 else 0) (by decide +kernel) c

/-- The bytes that go on with a sequence, as numbers. -/
theorem isCont_iff {c : UInt8} : isCont c = true ↔ 0x80 ≤ c.toNat ∧ c.toNat < 0xc0 :=
  forall_byte (P := fun c => isCont c = true ↔ 0x80 ≤ c.toNat ∧ c.toNat < 0xc0)
    (by decide +kernel) c

/-- **The escaping, step by step.** -/
inductive Scanned : Bytes → Bytes → Prop
  | nil : Scanned [] []
  | ascii {c : UInt8} {s o : Bytes} : c.toNat < 0x80 → Scanned s o →
    Scanned (c :: s) (escAscii c ++ o)
  | two {c b : UInt8} {s o : Bytes} : 0xc2 ≤ c.toNat → c.toNat < 0xe0 → isCont b → Scanned s o →
      Scanned (c :: b :: s) (c :: b :: o)
  | three {c b d : UInt8} {s o : Bytes} : 0xe0 ≤ c.toNat → c.toNat < 0xf0 → isCont b → isCont d →
    Scanned s o →
      Scanned (c :: b :: d :: s) (c :: b :: d :: o)
  | four {c b d e : UInt8} {s o : Bytes} : 0xf0 ≤ c.toNat → c.toNat < 0xf8 → isCont b →
    isCont d → isCont e →
      Scanned s o → Scanned (c :: b :: d :: e :: s) (c :: b :: d :: e :: o)
  | replaced {c : UInt8} {s o : Bytes} : 0x80 ≤ c.toNat → seqOk c s = false → Scanned s o →
      Scanned (c :: s) (ch '?' :: o)

/-- A byte of ASCII is escaped for itself. -/
theorem xesc_ascii {c : UInt8} (h : c.toNat < 0x80) (s : Bytes) :
    xesc (c :: s) = escAscii c ++ xesc s :=
  if_pos (UInt8.lt_iff_toNat_lt.2 h)

/-- A sequence that looks right is copied. -/
theorem xesc_sequence {c : UInt8} (h : 0x80 ≤ c.toNat) {s : Bytes} (hs : seqOk c s = true) :
    xesc (c :: s) = c :: xescFrom (seqLen c - 1) s := by
  rw [xesc, xescFrom, if_neg (by rw [UInt8.lt_iff_toNat_lt]; exact Nat.not_lt.2 h), if_pos hs]

/-- What does not look right is replaced. -/
theorem xesc_replaced {c : UInt8} (h : 0x80 ≤ c.toNat) {s : Bytes} (hs : seqOk c s = false) :
    xesc (c :: s) = ch '?' :: xesc s := by
  rw [xesc, xescFrom, if_neg (by rw [UInt8.lt_iff_toNat_lt]; exact Nat.not_lt.2 h),
    if_neg (by rw [hs]; exact Bool.false_ne_true)]
  rfl

theorem seqOk_iff {c : UInt8} {s : Bytes} : seqOk c s = true ↔
    seqLen c ≠ 0 ∧ 0xc2 ≤ c.toNat ∧ seqLen c ≤ s.length + 1 ∧ ∀ b ∈ s.take (seqLen c - 1),
      isCont b := by
  rw [seqOk, Bool.and_eq_true, Bool.and_eq_true, Bool.and_eq_true, decide_eq_true_eq,
    decide_eq_true_eq,
    decide_eq_true_eq, List.all_eq_true, UInt8.le_iff_toNat_le, and_assoc, and_assoc]
  rfl

/-- A sequence that goes on is one of two, three or four bytes. -/
theorem seqOk_cases {c : UInt8} {s : Bytes} (h : seqOk c s = true) :
    (0xc2 ≤ c.toNat ∧ c.toNat < 0xe0 ∧ ∃ b t, s = b :: t ∧ isCont b) ∨
    (0xe0 ≤ c.toNat ∧ c.toNat < 0xf0 ∧ ∃ b d t, s = b :: d :: t ∧ isCont b ∧ isCont d) ∨
    (0xf0 ≤ c.toNat ∧ c.toNat < 0xf8 ∧ ∃ b d e t, s = b :: d :: e :: t ∧ isCont b ∧ isCont d ∧
      isCont e) := by
  rw [seqOk_iff, seqLen_eq] at h
  obtain ⟨hlen, hlead, hroom, hcont⟩ := h
  split_ifs at hlen hroom hcont with h0 h2 h3 h4
  · exact absurd rfl hlen
  · rcases s with _ | ⟨b, t⟩
    · exact absurd hroom (by simp)
    · exact Or.inl ⟨hlead, h2, b, t, rfl, hcont b (by simp)⟩
  · rcases s with _ | ⟨b, _ | ⟨d, t⟩⟩
    · exact absurd hroom (by simp)
    · exact absurd hroom (by simp)
    · exact Or.inr
        (Or.inl ⟨Nat.not_lt.1 h2, h3, b, d, t, rfl, hcont b (by simp), hcont d (by simp)⟩)
  · rcases s with _ | ⟨b, _ | ⟨d, _ | ⟨e, t⟩⟩⟩
    · exact absurd hroom (by simp)
    · exact absurd hroom (by simp)
    · exact absurd hroom (by simp)
    · exact Or.inr
        (Or.inr ⟨Nat.not_lt.1 h3, h4, b, d, e, t, rfl, hcont b (by simp), hcont d (by simp),
        hcont e (by simp)⟩)
  · exact absurd rfl hlen

/-- The escaping as a scan, piece by piece. -/
theorem scanned (s : Bytes) : Scanned s (xesc s) := by
  induction hn : s.length using Nat.strong_induction_on generalizing s with
  | _ n ih =>
  cases s with
  | nil => exact .nil
  | cons c s =>
    subst hn
    have hrest : ∀ t : Bytes, t.length ≤ s.length → Scanned t (xesc t) := fun t ht =>
      ih t.length (Nat.lt_succ_of_le ht) t rfl
    rcases Nat.lt_or_ge c.toNat 0x80 with hc | hc
    · exact xesc_ascii hc s ▸ .ascii hc (hrest s le_rfl)
    · cases hok : seqOk c s with
      | false => exact xesc_replaced hc hok ▸ .replaced hc hok (hrest s le_rfl)
      | true =>
        rw [xesc_sequence hc hok, seqLen_eq]
        rcases seqOk_cases hok with ⟨h, h', b, t, rfl, hb⟩ | ⟨h, h', b, d, t, rfl, hb, hd⟩ |
          ⟨h, h', b, d, e, t, rfl, hb, hd, he⟩
        · rw [if_neg (by omega), if_pos h']
          exact .two h h' hb (hrest t (by simp))
        · rw [if_neg (by omega), if_neg (by omega), if_pos h']
          exact .three h h' hb hd (hrest t (by simp; omega))
        · rw [if_neg (by omega), if_neg (by omega), if_neg (by omega), if_pos h']
          exact .four h h' hb hd he (hrest t (by simp; omega))

theorem xesc_two {c b : UInt8} (h : 0xc2 ≤ c.toNat) (h' : c.toNat < 0xe0) (hb : isCont b)
    (s : Bytes) :
    xesc (c :: b :: s) = c :: b :: xesc s := by
  have hlen : seqLen c = 2 := by rw [seqLen_eq, if_neg (by omega), if_pos h']
  have hok : seqOk c (b :: s) = true := by
    rw [seqOk_iff, hlen]
    exact ⟨by decide, h, by simp, by simpa using hb⟩
  rw [xesc_sequence (by omega) hok, hlen]
  rfl

theorem xesc_three {c b d : UInt8} (h : 0xe0 ≤ c.toNat) (h' : c.toNat < 0xf0) (hb : isCont b)
    (hd : isCont d) (s : Bytes) : xesc (c :: b :: d :: s) = c :: b :: d :: xesc s := by
  have hlen : seqLen c = 3 := by rw [seqLen_eq, if_neg (by omega), if_neg (by omega), if_pos h']
  have hok : seqOk c (b :: d :: s) = true := by
    rw [seqOk_iff, hlen]
    exact ⟨by decide, by omega, by simp, by simpa using ⟨hb, hd⟩⟩
  rw [xesc_sequence (by omega) hok, hlen]
  rfl

theorem xesc_four {c b d e : UInt8} (h : 0xf0 ≤ c.toNat) (h' : c.toNat < 0xf8) (hb : isCont b)
    (hd : isCont d) (he : isCont e) (s : Bytes) :
    xesc (c :: b :: d :: e :: s) = c :: b :: d :: e :: xesc s := by
  have hlen : seqLen c = 4 := by
    rw [seqLen_eq, if_neg (by omega), if_neg (by omega), if_neg (by omega), if_pos h']
  have hok : seqOk c (b :: d :: e :: s) = true := by
    rw [seqOk_iff, hlen]
    exact ⟨by decide, by omega, by simp, by simpa using ⟨hb, hd, he⟩⟩
  rw [xesc_sequence (by omega) hok, hlen]
  rfl

/-- No sequence reaches into what goes on with no byte of one. -/
theorem seqOk_append {c x : UInt8} {s : Bytes} (h : seqOk c s = false) (hx : isCont x = false)
    (t : Bytes) :
    seqOk c (s ++ x :: t) = false := by
  by_contra hok
  rw [Bool.not_eq_false, seqOk_iff, List.length_append, List.length_cons] at hok
  obtain ⟨hlen, hlead, -, hcont⟩ := hok
  rcases Nat.lt_or_ge s.length (seqLen c - 1) with hs | hs
  · have hmem : x ∈ (s ++ x :: t).take (seqLen c - 1) := by
      rw [List.take_append, List.mem_append]
      obtain ⟨k, hk⟩ : ∃ k, seqLen c - 1 - s.length = k + 1 :=
        ⟨seqLen c - 1 - s.length - 1, by omega⟩
      exact Or.inr (by rw [hk]; exact List.mem_cons_self)
    rw [hcont x hmem] at hx
    exact Bool.noConfusion hx
  · rw [List.take_append_of_le_length hs] at hcont
    rw [seqOk_iff.2 ⟨hlen, hlead, by omega, hcont⟩] at h
    exact Bool.noConfusion h

/-- **A text is escaped up to where no sequence goes on, and from there.** -/
theorem xesc_append {x : UInt8} (hx : isCont x = false) (s t : Bytes) :
    xesc (s ++ x :: t) = xesc s ++ xesc (x :: t) := by
  have hsteps : ∀ o, Scanned s o → xesc (s ++ x :: t) = o ++ xesc (x :: t) := by
    intro o ho
    induction ho with
    | nil => rfl
    | ascii hc _ ih => rw [List.cons_append, xesc_ascii hc, ih, List.append_assoc]
    | two h h' hb _ ih =>
      rw [List.cons_append, List.cons_append, xesc_two h h' hb, ih]
      rfl
    | three h h' hb hd _ ih =>
      rw [List.cons_append, List.cons_append, List.cons_append, xesc_three h h' hb hd, ih]
      rfl
    | four h h' hb hd he _ ih =>
      rw [List.cons_append, List.cons_append, List.cons_append, List.cons_append,
        xesc_four h h' hb hd he, ih]
      rfl
    | replaced hc hok _ ih =>
      rw [List.cons_append, xesc_replaced hc (seqOk_append hok hx t), ih]
      rfl
  exact hsteps _ (scanned s)

/-! ## Characters

A sequence of the right form may still be no character: it may be too long for its number, or stand
for a number that is none of Unicode, or for one that XML does not allow. -/

/-- **A character is spelled by one to four bytes.** -/
theorem utf8_cases (x : Char) :
    (x.toNat < 0x80 ∧ String.utf8EncodeChar x = [UInt8.ofNat x.toNat]) ∨
    (0x80 ≤ x.toNat ∧ x.toNat < 0x800 ∧ ∃ c b, String.utf8EncodeChar x = [c, b] ∧
      c.toNat = x.toNat / 64 + 0xc0 ∧ b.toNat = x.toNat % 64 + 0x80) ∨
    (0x800 ≤ x.toNat ∧ x.toNat < 0x10000 ∧ ∃ c b d, String.utf8EncodeChar x = [c, b, d] ∧
      c.toNat = x.toNat / 4096 + 0xe0 ∧ b.toNat = x.toNat / 64 % 64 + 0x80 ∧
        d.toNat = x.toNat % 64 + 0x80) ∨
    (0x10000 ≤ x.toNat ∧ x.toNat < 0x110000 ∧ ∃ c b d e, String.utf8EncodeChar x = [c, b, d, e] ∧
      c.toNat = x.toNat / 262144 + 0xf0 ∧ b.toNat = x.toNat / 4096 % 64 + 0x80 ∧
      d.toNat = x.toNat / 64 % 64 + 0x80 ∧ e.toNat = x.toNat % 64 + 0x80) := by
  have hvalid : x.val.toNat < 0x110000 := by
    have := x.valid
    rw [UInt32.isValidChar, Nat.isValidChar] at this
    omega
  have hbyte : ∀ n < 256, (UInt8.ofNat n).toNat = n := fun n hn => by
    rw [UInt8.toNat_ofNat', Nat.mod_eq_of_lt hn]
  change (x.val.toNat < _ ∧ _) ∨
    (_ ≤ x.val.toNat ∧ x.val.toNat < _ ∧ ∃ c b, _ ∧ _ = x.val.toNat / _ + _ ∧ _) ∨ _ ∨ _
  rw [String.utf8EncodeChar]
  split_ifs with h1 h2 h3
  · exact Or.inl ⟨by omega, rfl⟩
  · refine Or.inr (Or.inl ⟨by omega, by omega, _, _, rfl, ?_, ?_⟩)
    · rw [hbyte _ (by omega)]
      omega
    · exact hbyte _ (by omega)
  · refine Or.inr (Or.inr (Or.inl ⟨?_, ?_, _, _, _, rfl, ?_, ?_, ?_⟩))
    · exact Nat.not_le.1 h2
    · exact Nat.lt_succ_of_le h3
    · rw [hbyte _ (by omega)]
      change _ = x.val.toNat / 4096 + 0xe0
      omega
    · exact hbyte _ (by omega)
    · exact hbyte _ (by omega)
  · refine Or.inr (Or.inr (Or.inr ⟨?_, hvalid, _, _, _, _, rfl, ?_, ?_, ?_, ?_⟩))
    · exact Nat.not_le.1 h3
    · rw [hbyte _ (by omega)]
      change _ = x.val.toNat / 262144 + 0xf0
      omega
    · exact hbyte _ (by omega)
    · exact hbyte _ (by omega)
    · exact hbyte _ (by omega)

/-- Beyond ASCII all bytes are. -/
theorem utf8_high {x : Char} (h : 0x80 ≤ x.toNat) :
    ∀ c ∈ String.utf8EncodeChar x, 0x80 ≤ c.toNat := by
  rcases utf8_cases x with ⟨h', -⟩ | ⟨-, -, c, b, he, hc, hb⟩ | ⟨-, -, c, b, d, he, hc, hb, hd⟩ |
    ⟨-, -, c, b, d, e, he, hc, hb, hd, he'⟩
  · omega
  · rw [he, List.forall_mem_cons, List.forall_mem_singleton]
    omega
  · rw [he, List.forall_mem_cons, List.forall_mem_cons, List.forall_mem_singleton]
    omega
  · rw [he, List.forall_mem_cons, List.forall_mem_cons, List.forall_mem_cons,
      List.forall_mem_singleton]
    omega

/-- The bytes of an allowed ASCII character. -/
theorem piece_ascii {x : Char} (h : x.toNat < 0x80) (hx : XmlChar x) :
    xmlPiece x = escAscii (UInt8.ofNat x.toNat) ∧ ∀ c ∈ xmlPiece x, c.toNat < 0x80 := by
  have hall : ∀ n < 128, XmlChar (Char.ofNat n) →
      xmlPiece (Char.ofNat n) = escAscii (UInt8.ofNat n) ∧
        (xmlPiece (Char.ofNat n)).all (fun c => c.toNat < 0x80) = true := by
    decide +kernel
  obtain ⟨hpiece, hbytes⟩ := hall x.toNat h (by rwa [Char.ofNat_toNat])
  rw [Char.ofNat_toNat] at hpiece hbytes
  exact ⟨hpiece, fun c hc => of_decide_eq_true (List.all_eq_true.1 hbytes c hc)⟩

/-- A character beyond ASCII stands for itself. -/
theorem piece_of_le {x : Char} (h : 0x80 ≤ x.toNat) : xmlPiece x = String.utf8EncodeChar x := by
  have hascii : ∀ e ∈ entities, e.1.toNat < 0x80 := by decide
  rw [xmlPiece, List.find?_eq_none.2 fun e he hx => ?_]
  · rfl
  · have := hascii e he
    rw [of_decide_eq_true hx] at this
    exact absurd this (Nat.not_lt.2 h)

/-- What is given for an ASCII byte is the piece of an allowed character. -/
theorem escAscii_piece {c : UInt8} (h : c.toNat < 0x80) :
    ∃ x, XmlChar x ∧ escAscii c = xmlPiece x := by
  have hall : ∀ n < 128, XmlChar (Char.ofNat n) ∨ escAscii (UInt8.ofNat n) = xmlPiece '?' := by
    decide +kernel
  rcases hall c.toNat h with hx | hx
  · refine ⟨_, hx, ?_⟩
    have hchar : (Char.ofNat c.toNat).toNat = c.toNat := by
      rw [Char.toNat_ofNat, if_pos (Or.inl (by omega))]
    rw [(piece_ascii (by rwa [hchar]) hx).1, hchar, UInt8.ofNat_toNat]
  · rw [UInt8.ofNat_toNat] at hx
    exact ⟨'?', by decide, hx⟩

/-! ## Regular texts

The exceptions are told by the first bytes of a sequence.  A text is regular when none of its
sequences begins so, which is a condition on the bytes alone. -/

/-- Sequences of one and two bytes are regular. -/
theorem not_irregular_of_lt {c : UInt8} (h : c.toNat < 0xe0) (s : Bytes) :
    ¬ Irregular (c :: s) := by
  rcases s with _ | ⟨b, _ | ⟨d, s⟩⟩
  · exact id
  · exact id
  · rintro ⟨-, -, hc | hc | hc | ⟨-, hc | hc | hc⟩⟩ <;> omega

theorem regular_nil : Regular [] := fun t ht => by
  rw [List.suffix_nil.1 ht]
  exact id

/-- A text is regular when each of its bytes begins nothing irregular. -/
theorem regular_cons {c : UInt8} {s : Bytes} :
    Regular (c :: s) ↔ ¬ Irregular (c :: s) ∧ Regular s := by
  constructor
  · exact fun h => ⟨h _ List.suffix_rfl, fun t ht => h t (ht.trans (List.suffix_cons c s))⟩
  · rintro ⟨hc, hs⟩ t ht
    rcases List.suffix_cons_iff.1 ht with rfl | ht
    · exact hc
    · exact hs t ht

/-- A byte of a short sequence may stand in front. -/
theorem regular_cons_of_lt {c : UInt8} (h : c.toNat < 0xe0) {s : Bytes} :
    Regular (c :: s) ↔ Regular s :=
  regular_cons.trans (and_iff_right (not_irregular_of_lt h s))

/-- Bytes of short sequences may stand in front. -/
theorem regular_append_of_lt {p : Bytes} (h : ∀ c ∈ p, c.toNat < 0xe0) (s : Bytes) :
    Regular (p ++ s) ↔ Regular s := by
  induction p with
  | nil => exact Iff.rfl
  | cons c p ih =>
    rw [List.cons_append, regular_cons_of_lt (h c List.mem_cons_self)]
    exact ih fun d hd => h d (List.mem_cons_of_mem c hd)

theorem isCont_lt {c : UInt8} (h : isCont c = true) : c.toNat < 0xe0 := by
  have := isCont_iff.1 h
  omega

/-- A sequence of three bytes is irregular by itself. -/
theorem irregular_three {c b d : UInt8} (h : c.toNat < 0xf0) (s : Bytes) :
    Irregular (c :: b :: d :: s) ↔ isCont b ∧ isCont d ∧ (c.toNat = 0xe0 ∧ b.toNat < 0xa0 ∨
      c.toNat = 0xed ∧ 0xa0 ≤ b.toNat ∨ c.toNat = 0xef ∧ b.toNat = 0xbf ∧ 0xbe ≤ d.toNat) := by
  constructor
  · rintro ⟨hb, hd, hc | hc | hc | ⟨-, hc⟩⟩
    · exact ⟨hb, hd, Or.inl hc⟩
    · exact ⟨hb, hd, Or.inr (Or.inl hc)⟩
    · exact ⟨hb, hd, Or.inr (Or.inr hc)⟩
    · omega
  · rintro ⟨hb, hd, hc | hc | hc⟩
    · exact ⟨hb, hd, Or.inl hc⟩
    · exact ⟨hb, hd, Or.inr (Or.inl hc)⟩
    · exact ⟨hb, hd, Or.inr (Or.inr (Or.inl hc))⟩

/-- …and so is one of four. -/
theorem irregular_four {c b d e : UInt8} (h : 0xf0 ≤ c.toNat) (s : Bytes) :
    Irregular (c :: b :: d :: e :: s) ↔ isCont b ∧ isCont d ∧ isCont e ∧
      (c.toNat = 0xf0 ∧ b.toNat < 0x90 ∨ c.toNat = 0xf4 ∧ 0x90 ≤ b.toNat ∨ 0xf5 ≤ c.toNat ∧
        c.toNat < 0xf8) := by
  constructor
  · rintro ⟨hb, hd, hc | hc | hc | ⟨he, hc⟩⟩
    · omega
    · omega
    · omega
    · exact ⟨hb, hd, he, hc⟩
  · rintro ⟨hb, hd, he, hc⟩
    exact ⟨hb, hd, Or.inr (Or.inr (Or.inr ⟨he, hc⟩))⟩

/-- A sequence that is irregular goes on as one. -/
theorem seqOk_of_irregular {c : UInt8} {s : Bytes} (h : Irregular (c :: s)) : seqOk c s = true := by
  rcases s with _ | ⟨b, _ | ⟨d, s⟩⟩
  · exact h.elim
  · exact h.elim
  · rw [seqOk_iff, seqLen_eq]
    rcases Nat.lt_or_ge c.toNat 0xf0 with hc | hc
    · obtain ⟨hb, hd, hlead⟩ := (irregular_three hc s).1 h
      rw [if_neg (by omega), if_neg (by omega), if_pos hc]
      simp [hb, hd]
      omega
    · rcases s with _ | ⟨e, s⟩
      · obtain ⟨-, -, hlead | hlead | hlead | ⟨he, -⟩⟩ := h
        · omega
        · omega
        · omega
        · cases he
      · obtain ⟨hb, hd, he, hlead⟩ := (irregular_four hc s).1 h
        rw [if_neg (by omega), if_neg (by omega), if_neg (by omega), if_pos (by omega)]
        simp [hb, hd, he]
        omega

/-- **The escaping removes no irregular sequence.** -/
theorem Scanned.regular {s o : Bytes} (h : Scanned s o) (ho : Regular o) : Regular s := by
  induction h with
  | nil => exact regular_nil
  | ascii hc _ ih =>
    rw [regular_cons_of_lt (by omega)]
    exact ih fun t ht => ho t (ht.trans (List.suffix_append ..))
  | two _ hc hb _ ih =>
    rw [regular_cons_of_lt hc, regular_cons_of_lt (isCont_lt hb)] at ho ⊢
    exact ih ho
  | three _ hc hb hd _ ih =>
    rw [regular_cons, irregular_three hc, regular_cons_of_lt (isCont_lt hb),
      regular_cons_of_lt (isCont_lt hd)] at ho ⊢
    exact ⟨ho.1, ih ho.2⟩
  | four hc _ hb hd he _ ih =>
    rw [regular_cons, irregular_four hc, regular_cons_of_lt (isCont_lt hb),
      regular_cons_of_lt (isCont_lt hd), regular_cons_of_lt (isCont_lt he)] at ho ⊢
    exact ⟨ho.1, ih ho.2⟩
  | @replaced c s o _ hok _ ih =>
    refine regular_cons.2 ⟨fun hi => ?_, ih (regular_cons.1 ho).2⟩
    rw [seqOk_of_irregular hi] at hok
    cases hok

/-- **Escaped text is regular.** -/
theorem IsEscaped.regular {o : Bytes} (h : IsEscaped o) : Regular o := by
  obtain ⟨l, hl, rfl⟩ := h
  induction l with
  | nil => exact regular_nil
  | cons x l ih =>
    have hrest := ih fun y hy => hl y (List.mem_cons_of_mem x hy)
    have hx := hl x List.mem_cons_self
    have hvalid := x.valid
    rw [UInt32.isValidChar, Nat.isValidChar] at hvalid
    change x.toNat < _ ∨ _ < x.toNat ∧ x.toNat < _ at hvalid
    rw [List.flatMap_cons]
    rcases utf8_cases x with ⟨hx', -⟩ | ⟨h1, h2, c, b, he, hc, hb⟩ |
      ⟨h1, h2, c, b, d, he, hc, hb, hd⟩ |
      ⟨h1, h2, c, b, d, e, he, hc, hb, hd, he'⟩
    · rw [regular_append_of_lt fun c hc => ((piece_ascii hx' hx).2 c hc).trans (by decide)]
      exact hrest
    · rw [piece_of_le h1, he, List.cons_append, List.cons_append, List.nil_append,
        regular_cons_of_lt (by omega), regular_cons_of_lt (by omega)]
      exact hrest
    · rw [piece_of_le (by omega), he, List.cons_append, List.cons_append, List.cons_append,
        List.nil_append,
        regular_cons, irregular_three (by omega), regular_cons_of_lt (by omega),
        regular_cons_of_lt (by omega)]
      refine ⟨?_, hrest⟩
      rintro ⟨-, -, hlead⟩
      rcases hx with hx | hx | hx | hx <;> omega
    · rw [piece_of_le (by omega), he, List.cons_append, List.cons_append, List.cons_append,
        List.cons_append,
        List.nil_append, regular_cons, irregular_four (by omega), regular_cons_of_lt (by omega),
        regular_cons_of_lt (by omega), regular_cons_of_lt (by omega)]
      refine ⟨?_, hrest⟩
      rintro ⟨-, -, -, hlead⟩
      omega

/-! ## What the escaping gives

Piece by piece, what is copied or written is a character, unless the piece is irregular. -/

theorem IsEscaped.cons {x : Char} (hx : XmlChar x) {o : Bytes} (h : IsEscaped o) :
    IsEscaped (xmlPiece x ++ o) := by
  obtain ⟨l, hl, rfl⟩ := h
  exact ⟨x :: l, List.forall_mem_cons.2 ⟨hx, hl⟩, rfl⟩

/-- A character beyond ASCII, from its bytes. -/
theorem IsEscaped.sequence {x : Char} (h : 0x80 ≤ x.toNat)
    (hne : x.toNat ≠ 0xfffe ∧ x.toNat ≠ 0xffff) {p o : Bytes} (hp : String.utf8EncodeChar x = p)
    (ho : IsEscaped o) : IsEscaped (p ++ o) := by
  have hx : XmlChar x := Or.inr (Or.inr (Or.inr ⟨le_trans (by decide) h, hne⟩))
  rw [← hp, ← piece_of_le h]
  exact ho.cons hx

theorem exists_char {v : ℕ} (hv : v.isValidChar) : ∃ x : Char, x.toNat = v :=
  ⟨Char.ofNatAux v hv, rfl⟩

/-- A sequence of two bytes is a character. -/
theorem IsEscaped.two {c b : UInt8} (h : 0xc2 ≤ c.toNat) (h' : c.toNat < 0xe0) (hb : isCont b)
    {o : Bytes} (ho : IsEscaped o) : IsEscaped (c :: b :: o) := by
  have hb' := isCont_iff.1 hb
  obtain ⟨x, hx⟩ := exists_char (v := (c.toNat - 0xc0) * 64 + (b.toNat - 0x80)) (Or.inl (by omega))
  refine IsEscaped.sequence (x := x) (p := [c, b]) (by omega) (by omega) ?_ ho
  rcases utf8_cases x with ⟨h, -⟩ | ⟨-, -, c', b', he, hc₁, hb₁⟩ | ⟨h, -⟩ | ⟨h, -⟩
  · omega
  · rw [he, UInt8.toNat_inj.1 (show c'.toNat = c.toNat by omega),
      UInt8.toNat_inj.1 (show b'.toNat = b.toNat by omega)]
  · omega
  · omega

/-- A sequence of three bytes is a character, but for a few. -/
theorem IsEscaped.three {c b d : UInt8} (h : 0xe0 ≤ c.toNat) (h' : c.toNat < 0xf0) (hb : isCont b)
    (hd : isCont d)
    (hlead : ¬ (c.toNat = 0xe0 ∧ b.toNat < 0xa0 ∨ c.toNat = 0xed ∧ 0xa0 ≤ b.toNat ∨ c.toNat = 0xef ∧
      b.toNat = 0xbf ∧ 0xbe ≤ d.toNat))
    {o : Bytes} (ho : IsEscaped o) :
    IsEscaped (c :: b :: d :: o) := by
  have hb' := isCont_iff.1 hb
  have hd' := isCont_iff.1 hd
  obtain ⟨x, hx⟩ := exists_char
    (v := (c.toNat - 0xe0) * 4096 + (b.toNat - 0x80) * 64 + (d.toNat - 0x80))
      (by rw [Nat.isValidChar]; omega)
  refine IsEscaped.sequence (x := x) (p := [c, b, d]) (by omega) (by omega) ?_ ho
  rcases utf8_cases x with ⟨h, -⟩ | ⟨-, h, -⟩ | ⟨-, -, c', b', d', he, hc₁, hb₁, hd₁⟩ | ⟨h, -⟩
  · omega
  · omega
  · rw [he, UInt8.toNat_inj.1 (show c'.toNat = c.toNat by omega),
      UInt8.toNat_inj.1 (show b'.toNat = b.toNat by omega),
      UInt8.toNat_inj.1 (show d'.toNat = d.toNat by omega)]
  · omega

/-- A sequence of four bytes is a character, but for a few. -/
theorem IsEscaped.four {c b d e : UInt8} (h : 0xf0 ≤ c.toNat) (h' : c.toNat < 0xf8) (hb : isCont b)
    (hd : isCont d) (he : isCont e)
    (hlead : ¬ (c.toNat = 0xf0 ∧ b.toNat < 0x90 ∨ c.toNat = 0xf4 ∧ 0x90 ≤ b.toNat ∨ 0xf5 ≤ c.toNat ∧
      c.toNat < 0xf8))
    {o : Bytes} (ho : IsEscaped o) : IsEscaped (c :: b :: d :: e :: o) := by
  have hb' := isCont_iff.1 hb
  have hd' := isCont_iff.1 hd
  have he' := isCont_iff.1 he
  obtain ⟨x, hx⟩ :=
    exists_char (v := (c.toNat - 0xf0) * 262144 + (b.toNat - 0x80) * 4096 + (d.toNat - 0x80) * 64 +
    (e.toNat - 0x80)) (by rw [Nat.isValidChar]; omega)
  refine IsEscaped.sequence (x := x) (p := [c, b, d, e]) (by omega) (by omega) ?_ ho
  rcases utf8_cases x with ⟨h, -⟩ | ⟨-, h, -⟩ | ⟨-, h, -⟩ |
    ⟨-, -, c', b', d', e', hx', hc₁, hb₁, hd₁, he₁⟩
  · omega
  · omega
  · omega
  · rw [hx', UInt8.toNat_inj.1 (show c'.toNat = c.toNat by omega),
      UInt8.toNat_inj.1 (show b'.toNat = b.toNat by omega),
      UInt8.toNat_inj.1 (show d'.toNat = d.toNat by omega),
      UInt8.toNat_inj.1 (show e'.toNat = e.toNat by omega)]

/-- **What is given for a regular text is escaped text.** -/
theorem Scanned.isEscaped {s o : Bytes} (h : Scanned s o) (hs : Regular s) : IsEscaped o := by
  induction h with
  | nil => exact ⟨[], List.forall_mem_nil _, rfl⟩
  | ascii hc _ ih =>
    obtain ⟨x, hx, he⟩ := escAscii_piece hc
    rw [he]
    exact (ih (regular_cons.1 hs).2).cons hx
  | two hlow hhigh hb _ ih =>
    rw [regular_cons_of_lt hhigh, regular_cons_of_lt (isCont_lt hb)] at hs
    exact (ih hs).two hlow hhigh hb
  | three hlow hhigh hb hd _ ih =>
    rw [regular_cons, irregular_three hhigh, regular_cons_of_lt (isCont_lt hb),
      regular_cons_of_lt (isCont_lt hd)] at hs
    exact (ih hs.2).three hlow hhigh hb hd fun hlead => hs.1 ⟨hb, hd, hlead⟩
  | four hlow hhigh hb hd he _ ih =>
    rw [regular_cons, irregular_four hlow, regular_cons_of_lt (isCont_lt hb),
      regular_cons_of_lt (isCont_lt hd), regular_cons_of_lt (isCont_lt he)] at hs
    exact (ih hs.2).four hlow hhigh hb hd he fun hlead => hs.1 ⟨hb, hd, he, hlead⟩
  | replaced _ _ _ ih => exact (ih (regular_cons.1 hs).2).cons (x := '?') (by decide)

/-! ## What is read back

Reading undoes the references.  What was a text before is so again. -/

/-- **A character of a text is given as its piece.** -/
theorem xesc_char {x : Char} (hx : XmlChar x) (s : Bytes) :
    xesc (String.utf8EncodeChar x ++ s) = xmlPiece x ++ xesc s := by
  rcases utf8_cases x with ⟨h, he⟩ | ⟨h1, h2, c, b, he, hc, hb⟩ |
    ⟨h1, h2, c, b, d, he, hc, hb, hd⟩ |
    ⟨h1, h2, c, b, d, e, he, hc, hb, hd, he'⟩
  · have hbyte : (UInt8.ofNat x.toNat).toNat = x.toNat := by
      rw [UInt8.toNat_ofNat', Nat.mod_eq_of_lt (by omega)]
    rw [he, (piece_ascii h hx).1]
    exact xesc_ascii (by omega) s
  · rw [piece_of_le h1, he]
    exact xesc_two (by omega) (by omega) (isCont_iff.2 (by omega)) s
  · rw [piece_of_le (by omega), he]
    exact xesc_three (by omega) (by omega) (isCont_iff.2 (by omega)) (isCont_iff.2 (by omega)) s
  · rw [piece_of_le (by omega), he]
    exact xesc_four (by omega) (by omega) (isCont_iff.2 (by omega)) (isCont_iff.2 (by omega))
      (isCont_iff.2 (by omega)) s

/-- Bytes that start no entity are read as they are. -/
theorem xunesc_plain {p : Bytes} (h : ∀ c ∈ p, c ≠ ch '&') (s : Bytes) :
    xunesc (p ++ s) = p ++ xunesc s := by
  induction p with
  | nil => rfl
  | cons c p ih =>
    have hnone : (entities.find? fun e => e.2.isPrefixOf (c :: (p ++ s))) = none := by
      have hc := h c List.mem_cons_self
      have hamp : ∀ e ∈ entities, e.2.head? = some (ch '&') := by decide
      refine List.find?_eq_none.2 fun e he hprefix => ?_
      obtain ⟨t, ht⟩ := List.isPrefixOf_iff_prefix.1 hprefix
      have hhead := hamp e he
      rcases hcase : e.2 with _ | ⟨d, l⟩
      · rw [hcase] at hhead
        cases hhead
      · rw [hcase] at ht hhead
        exact hc ((List.cons.inj ht).1.symm.trans (Option.some.inj hhead))
    rw [List.cons_append, xunesc, xunescFrom, hnone]
    exact congrArg (c :: ·) (ih fun d hd => h d (List.mem_cons_of_mem c hd))

/-- Only the ampersand is written with its byte. -/
theorem utf8_ne_amp {x : Char} (hx : x ≠ '&') : ∀ c ∈ String.utf8EncodeChar x, c ≠ ch '&' := by
  rintro _ hc rfl
  have hbyte : (ch '&').toNat = 38 := rfl
  rcases Nat.lt_or_ge x.toNat 0x80 with h | h
  · rcases utf8_cases x with ⟨-, he⟩ | ⟨h', -⟩ | ⟨h', -⟩ | ⟨h', -⟩
    · rw [he, List.mem_singleton] at hc
      have hn : (38 : ℕ) = x.toNat := by
        have := congrArg UInt8.toNat hc
        rwa [UInt8.toNat_ofNat', Nat.mod_eq_of_lt (by omega)] at this
      exact hx (Char.toNat_inj.1 hn.symm)
    · omega
    · omega
    · omega
  · have := utf8_high h _ hc
    omega

/-- **A piece is read as its character.** -/
theorem xunesc_piece (x : Char) (s : Bytes) :
    xunesc (xmlPiece x ++ s) = String.utf8EncodeChar x ++ xunesc s := by
  rcases hfind : (entities.find? fun e => e.1 = x) with _ | e
  · have hamp : x ≠ '&' := fun h => by
      have := List.find?_eq_none.1 hfind ('&', lit "&amp;") List.mem_cons_self
      exact this (decide_eq_true h.symm)
    have hpiece : xmlPiece x = String.utf8EncodeChar x := by rw [xmlPiece, hfind]; rfl
    rw [hpiece]
    exact xunesc_plain (utf8_ne_amp hamp) s
  · have hx : e.1 = x := by simpa using List.find?_some hfind
    have hmem := List.mem_of_find?_eq_some hfind
    have hpiece : xmlPiece x = e.2 := by rw [xmlPiece, hfind]; rfl
    rw [hpiece, ← hx]
    simp only [entities, List.mem_cons, List.not_mem_nil, or_false] at hmem
    rcases hmem with rfl | rfl | rfl | rfl | rfl <;> rfl

/-- **A text is read back as it was.** -/
theorem xunesc_xesc {s : Bytes} (h : IsText s) : xunesc (xesc s) = s := by
  obtain ⟨l, hl, rfl⟩ := h
  induction l with
  | nil => rfl
  | cons x l ih =>
    rw [List.flatMap_cons, xesc_char (hl x List.mem_cons_self), xunesc_piece,
      ih fun y hy => hl y (List.mem_cons_of_mem x hy)]

/-- **The escaping does what it is for exactly on regular texts**; what is text is always read
back. -/
theorem wellEscaped_iff (s : Bytes) : WellEscaped s ↔ Regular s :=
  ⟨fun h => (scanned s).regular h.1.regular, fun h => ⟨(scanned s).isEscaped h, xunesc_xesc⟩⟩

/-- A surrogate, which is passed on. -/
theorem wellEscaped_surrogate : ¬ WellEscaped [0xed, 0xa0, 0x80] := fun h =>
  (wellEscaped_iff _).1 h [0xed, 0xa0, 0x80] List.suffix_rfl ⟨by decide, by
    decide, Or.inr (Or.inl (by decide))⟩

end DsdServer
