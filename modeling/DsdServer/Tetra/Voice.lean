import DsdServer.Data.Bytes

/-!
# Tetra/Voice — the Base64 of a speech frame

The speech of the second TETRA decoder comes as Base64 text, of which the decoder takes what it can:
`base64Decode_encode` says that it gives back what was encoded, padded or not, whatever stray
characters stand between.
-/

open Bytes

namespace DsdServer

/-! ## The encoding

Three bytes are four digits of six bits; one or two bytes at the end are two or three, filled up
with padding where it is written. -/

namespace base64

/-- The digits of Base64. -/
def alphabet : Bytes := lit "ABCDEFGHIJKLMNOPQRSTUVWXYZabcdefghijklmnopqrstuvwxyz0123456789+/"

/-- The character of six bits. -/
def digit (v : ℕ) : UInt8 := alphabet.getD v 0

/-- The padding, if it is written. -/
def pads (padded : Bool) (n : ℕ) : Bytes := if padded then List.replicate n (ch '=') else []

/-- **The encoding**: six bits a character, three bytes at a time. -/
def encode (padded : Bool) : Bytes → Bytes
  | [] => []
  | [a] => digit (a.toNat / 4) :: digit (a.toNat % 4 * 16) :: pads padded 2
  | [a, b] =>
    digit (a.toNat / 4) :: digit (a.toNat % 4 * 16 + b.toNat / 16) :: digit (b.toNat % 16 * 4) ::
      pads padded 1
  | a :: b :: c :: s =>
    digit (a.toNat / 4) :: digit (a.toNat % 4 * 16 + b.toNat / 16) :: digit
      (b.toNat % 16 * 4 + c.toNat / 64) ::
      digit (c.toNat % 64) :: encode padded s

/-- The characters an encoding is made of; all others are stray. -/
def isSymbol (c : UInt8) : Bool := alphabet.contains c || c == ch '='

end base64

/-! ## The decoder

Digits are shifted into an accumulator, and a byte is taken out when there are eight bits.  The
accumulator is cut to the bits that are left, as the source does. -/

/-- The value of a character, or -1. -/
def b64val (c : UInt8) : ℤ :=
  if isUpper c then c.toNat - (ch 'A').toNat
  else if isLower c then c.toNat - (ch 'a').toNat + 26
  else if isDigit c then c.toNat - (ch '0').toNat + 52
  else if c = ch '+' then 62
  else if c = ch '/' then 63
  else -1

/-- The bytes from here on: `bits` bits of `acc` are still to be given out. -/
def base64Loop : Bytes → ℕ → ℕ → Bytes
  | [], _, _ => []
  | c :: s, acc, bits =>
    if c = ch '=' then []
    else if b64val c < 0 then base64Loop s acc bits
    else
      -- 14 bits before and 20 within, so that 32 hold them
      let acc := (acc <<< 6 ||| (b64val c).toNat) &&& 0x3FFF
      let bits := bits + 6
      if 8 ≤ bits then UInt8.ofNat (acc >>> (bits - 8) &&& 0xFF) :: base64Loop s acc (bits - 8)
      else base64Loop s acc bits

/-- **The bytes of a Base64 text.** -/
def base64Decode (s : Bytes) : Bytes := base64Loop s 0 0

open base64

/-! ## What is decoded

The bits that go in come out in the same order; of the last digit those that are left over are
dropped. -/

set_option maxRecDepth 8000 in
/-- The alphabet's characters, by their codes. -/
theorem digit_toNat : ∀ v < 64, (digit v).toNat =
    if v < 26 then v + 65 else if v < 52 then v + 71 else if v < 62 then v - 4
      else if v = 62 then 43 else 47 := by
  decide

/-- The value of a digit, by its range. -/
theorem b64val_eq (c : UInt8) : b64val c =
    if 65 ≤ c.toNat ∧ c.toNat ≤ 90 then (c.toNat : ℤ) - 65
    else if 97 ≤ c.toNat ∧ c.toNat ≤ 122 then (c.toNat : ℤ) - 71
    else if 48 ≤ c.toNat ∧ c.toNat ≤ 57 then (c.toNat : ℤ) + 4
    else if c.toNat = 43 then 62 else if c.toNat = 47 then 63 else -1 := by
  have hch : ∀ k < 256, c = UInt8.ofNat k ↔ c.toNat = k := fun k hk => by
    rw [← UInt8.toNat_inj, UInt8.toNat_ofNat_of_lt' hk]
  have hplus : c = ch '+' ↔ c.toNat = 43 := hch 43 (by decide)
  have hslash : c = ch '/' ↔ c.toNat = 47 := hch 47 (by decide)
  simp only [b64val, isUpper, isLower, isDigit, Bool.and_eq_true, decide_eq_true_eq,
    UInt8.le_iff_toNat_le, hplus, hslash,
    show (ch 'A').toNat = 65 from rfl, show (ch 'Z').toNat = 90 from rfl,
    show (ch 'a').toNat = 97 from rfl,
    show (ch 'z').toNat = 122 from rfl, show (ch '0').toNat = 48 from rfl,
    show (ch '9').toNat = 57 from rfl]
  split_ifs <;> omega

theorem b64val_digit {v : ℕ} (h : v < 64) : digit v ≠ ch '=' ∧ b64val (digit v) = v := by
  have hd := digit_toNat v h
  refine ⟨fun he => ?_, ?_⟩
  · rw [he, show (ch '=').toNat = 61 from rfl] at hd
    split_ifs at hd <;> omega
  · rw [b64val_eq, hd]
    split_ifs <;> omega

theorem digit_mem {v : ℕ} (h : v < 64) : digit v ∈ alphabet := by
  have hlen : alphabet.length = 64 := by decide
  rw [digit, List.getD_eq_getElem _ _ (by omega)]
  exact List.getElem_mem _

/-- A character that has a value is in the alphabet. -/
theorem mem_alphabet {c : UInt8} (h : 0 ≤ b64val c) : c ∈ alphabet := by
  have hdigit : ∀ {v : ℕ}, v < 64 → (digit v).toNat = c.toNat → c ∈ alphabet :=
    fun hv he => UInt8.toNat_inj.1 he ▸ digit_mem hv
  rw [b64val_eq] at h
  split_ifs at h with h1 h2 h3 h4 h5
  · exact hdigit (v := c.toNat - 65) (by omega)
      (by rw [digit_toNat _ (by omega)]; split_ifs <;> omega)
  · exact hdigit (v := c.toNat - 71) (by omega)
      (by rw [digit_toNat _ (by omega)]; split_ifs <;> omega)
  · exact hdigit (v := c.toNat + 4) (by omega)
      (by rw [digit_toNat _ (by omega)]; split_ifs <;> omega)
  · exact hdigit (v := 62) (by omega) (by rw [digit_toNat _ (by omega), h4]; rfl)
  · exact hdigit (v := 63) (by omega) (by rw [digit_toNat _ (by omega), h5]; rfl)
  · omega

/-- A stray character is passed over. -/
theorem b64val_stray {c : UInt8} (h : isSymbol c = false) : c ≠ ch '=' ∧ b64val c < 0 := by
  rw [isSymbol, Bool.or_eq_false_iff] at h
  refine ⟨by simpa using h.2, ?_⟩
  by_contra hval
  have hmem := mem_alphabet (not_lt.1 hval)
  exact absurd (List.contains_iff_mem.2 hmem) (by rw [h.1]; exact Bool.false_ne_true)

theorem base64Loop_filter (s : Bytes) : ∀ acc bits,
    base64Loop (s.filter isSymbol) acc bits = base64Loop s acc bits := by
  induction s with
  | nil => exact fun _ _ => rfl
  | cons c s ih =>
    intro acc bits
    cases h : isSymbol c with
    | false =>
      obtain ⟨hpad, hval⟩ := b64val_stray h
      rw [List.filter_cons_of_neg (by rw [h]; exact Bool.false_ne_true), ih, base64Loop,
        if_neg hpad, if_pos hval]
    | true =>
      rw [List.filter_cons_of_pos h, base64Loop, base64Loop]
      simp only [ih]

/-- Six bits more, of which the mask drops none that is still to be given out. -/
theorem accumulated (acc : ℕ) {v : ℕ} (h : v < 64) :
    (acc <<< 6 ||| v) &&& 0x3FFF = (acc * 64 + v) % 0x4000 := by
  rw [show 0x3FFF = 2 ^ 14 - 1 from rfl, Nat.and_two_pow_sub_one_eq_mod, Nat.shiftLeft_eq,
    Nat.mul_comm, ← Nat.two_pow_add_eq_or_of_lt h, Nat.mul_comm]

/-- A character that gives no byte yet… -/
theorem base64Loop_first {v : ℕ} (h : v < 64) (s : Bytes) (acc : ℕ) :
    base64Loop (digit v :: s) acc 0 = base64Loop s ((acc * 64 + v) % 0x4000) 6 := by
  obtain ⟨hpad, hval⟩ := b64val_digit h
  rw [base64Loop, if_neg hpad, hval, if_neg (by omega), Int.toNat_natCast, accumulated acc h]
  rfl

/-- …and one that completes a byte: `bits` bits are left of it. -/
theorem base64Loop_next {v : ℕ} (h : v < 64) (s : Bytes) (acc bits : ℕ) :
    base64Loop (digit v :: s) acc (bits + 2) =
      UInt8.ofNat ((acc * 64 + v) % 0x4000 / 2 ^ bits) :: base64Loop s
        ((acc * 64 + v) % 0x4000) bits := by
  obtain ⟨hpad, hval⟩ := b64val_digit h
  rw [base64Loop, if_neg hpad, hval, if_neg (by omega), Int.toNat_natCast, accumulated acc h]
  simp only [if_pos (by omega : 8 ≤ bits + 2 + 6), show bits + 2 + 6 - 8 = bits by omega]
  rw [Nat.shiftRight_eq_div_pow, show 0xFF = 2 ^ 8 - 1 from rfl, Nat.and_two_pow_sub_one_eq_mod,
    UInt8.ofNat_mod_size]

theorem base64Loop_pads (padded : Bool) (n acc bits : ℕ) :
    base64Loop (pads padded n) acc bits = [] := by
  cases padded with
  | false => rfl
  | true => cases n with
    | zero => rfl
    | succ n => rw [pads, if_pos rfl, List.replicate_succ, base64Loop, if_pos rfl]

/-- **What was encoded comes back**, from any state in which no bits are left. -/
theorem base64Loop_encode (padded : Bool) (data : Bytes) :
    ∀ acc, base64Loop (encode padded data) acc 0 = data := by
  induction data using encode.induct with
  | case1 => exact fun _ => rfl
  | case2 a =>
    intro acc
    have ha := a.toNat_lt
    rw [encode, base64Loop_first (by omega), base64Loop_next (by omega) _ _ 4, base64Loop_pads]
    congr 1
    exact ofNat_of_mod (by omega)
  | case3 a b =>
    intro acc
    have ha := a.toNat_lt
    have hb := b.toNat_lt
    rw [encode, base64Loop_first (by omega), base64Loop_next (by omega) _ _ 4,
      base64Loop_next (by omega) _ _ 2, base64Loop_pads]
    congr 1
    · exact ofNat_of_mod (by omega)
    · congr 1
      exact ofNat_of_mod (by omega)
  | case4 a b c s ih =>
    intro acc
    have ha := a.toNat_lt
    have hb := b.toNat_lt
    have hc := c.toNat_lt
    rw [encode, base64Loop_first (by omega), base64Loop_next (by omega) _ _ 4,
      base64Loop_next (by omega) _ _ 2, base64Loop_next (by omega) _ _ 0, ih]
    congr 1
    · exact ofNat_of_mod (by omega)
    · congr 1
      · exact ofNat_of_mod (by omega)
      · congr 1
        exact ofNat_of_mod (by omega)

/-- **Decoding gives back what was encoded**, padded or not, with stray characters anywhere in the
text. -/
theorem base64Decode_encode {s data : Bytes} {padded : Bool}
    (h : s.filter isSymbol = encode padded data) :
    base64Decode s = data := by
  rw [base64Decode, ← base64Loop_filter, h, base64Loop_encode]

/-- A frame wrapped over two lines. -/
theorem base64Decode_encode_wrapped : base64Decode (lit "SG kh\r\nS_A=\n=") = lit "Hi!H" :=
  @base64Decode_encode _ _ true (by decide +kernel)

end DsdServer
