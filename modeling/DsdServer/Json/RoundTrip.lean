import DsdServer.Json.Parse
import DsdServer.Json.Write

/-!
# Json/RoundTrip — what is written is read back

`render` is the text of a value as the serializers write it.  The reader accepts it and returns the
value, whatever bytes its strings hold, when its numbers are integers of up to 53 bits and it is not
nested too deeply (`parse_render`).

The reader goes through a text with what is left of it, so each lemma says what is left after one
part of a rendered value: a string, an integer, the members of an object.  The value is then read by
induction on it, with the depth counted along.  Nothing here knows what a value is for; the files of
the explorer are instances.
-/

open Bytes

namespace DsdServer

namespace mjson

open assocjson

/-! ## Strings

The writer escapes quotes, backslashes and control bytes; all three are read back, the control bytes
through their hex digits.  So strings may hold any bytes. -/

/-- A hex digit is read as it was written. -/
theorem digitVal_hexDigit {k : ℕ} (hk : k < 16) : digitVal (hexDigit k) = k := by
  have h : ∀ k : Fin 16, digitVal (hexDigit k) = k := by decide +kernel
  exact h ⟨k, hk⟩

theorem strRest_plain (n fuel : ℕ) {c : UInt8} (hq : c ≠ ch '"') (hb : c ≠ ch '\\') (s : Bytes) :
    strRest n (fuel + 1) (c :: s) = prepend [c] (strRest n fuel s) := by
  rw [strRest, if_neg hq, if_pos hb]

/-- An escaped letter is read for what it stands. -/
theorem strRest_escape (n fuel : ℕ) {e : UInt8} (he : e ≠ ch 'u') (s : Bytes) :
    strRest n (fuel + 1) (ch '\\' :: e :: s) = prepend [unescape e] (strRest n fuel s) := by
  rw [strRest, if_neg (by decide), if_neg (not_not.2 rfl), escape, if_neg he]

/-- A control byte, as its code point. -/
theorem strRest_control (n fuel : ℕ) {c : UInt8} (hc : c < 0x20) (s : Bytes) :
    strRest n (fuel + 1)
      (lit "\\u00" ++ [hexDigit (c.toNat / 16), hexDigit (c.toNat % 16)] ++ s) =
    prepend [c] (strRest n fuel s) := by
  have hlt : c.toNat < 32 := UInt8.lt_iff_toNat_lt.1 hc
  have h0 : digitVal (ch '0') = 0 := by decide
  have hhex : hex4 (ch '0' :: ch '0' :: hexDigit (c.toNat / 16) :: hexDigit (c.toNat % 16) :: s) =
      (some c.toNat, s) := by
    have hd := digitVal_hexDigit (k := c.toNat / 16) (by omega)
    have hm := digitVal_hexDigit (k := c.toNat % 16) (by omega)
    rw [hex4, if_neg (by simp)]
    simp only [hexDigits, h0, hd, hm]
    rw [if_pos (by omega), if_pos (by omega), if_pos (by omega), if_pos (by omega)]
    exact congrArg (fun k => (some k, s)) (by omega)
  have hcp : codePoint (ch '0' :: ch '0' :: hexDigit (c.toNat / 16) ::
      hexDigit (c.toNat % 16) :: s) = (some c.toNat, s) := by
    rw [codePoint, hhex]
    exact if_neg fun h => by omega
  have hutf : utf8 c.toNat = [c] := by
    rw [utf8, if_pos (by omega), UInt8.ofNat_toNat]
  change strRest n (fuel + 1) (ch '\\' :: ch 'u' :: ch '0' :: ch '0' ::
    hexDigit (c.toNat / 16) :: hexDigit (c.toNat % 16) :: s) = _
  rw [strRest, if_neg (by decide), if_neg (not_not.2 rfl), escape, if_pos rfl, hcp]
  dsimp only
  rw [hutf]

/-- **Every byte of a string is read back as it was.** -/
theorem strRest_escByte (n fuel : ℕ) (c : UInt8) (s : Bytes) :
    strRest n (fuel + 1) (escByte c ++ s) = prepend [c] (strRest n fuel s) := by
  rw [escByte]
  split_ifs with h1 h2 h3 h4 h5 h6
  · rw [h1]
    exact strRest_escape n fuel (by decide) s
  · rw [h2]
    exact strRest_escape n fuel (by decide) s
  · rw [h3]
    exact strRest_escape n fuel (by decide) s
  · rw [h4]
    exact strRest_escape n fuel (by decide) s
  · rw [h5]
    exact strRest_escape n fuel (by decide) s
  · exact strRest_control n fuel h6 s
  · exact strRest_plain n fuel h1 h2 s

/-- **An escaped text is read back**, byte by byte. -/
theorem strRest_escaped (n : ℕ) (s rest : Bytes) {fuel : ℕ} (hf : s.length < fuel) :
    strRest n fuel (s.flatMap escByte ++ (ch '"' :: rest)) = .ok (s, rest) := by
  induction s generalizing fuel with
  | nil =>
    obtain ⟨fuel, rfl⟩ := Nat.exists_eq_succ_of_ne_zero (Nat.ne_zero_of_lt hf)
    exact if_pos rfl
  | cons c s ih =>
    obtain ⟨fuel, rfl⟩ := Nat.exists_eq_succ_of_ne_zero (Nat.ne_zero_of_lt hf)
    rw [List.flatMap_cons, List.append_assoc, strRest_escByte,
      ih (Nat.lt_of_succ_lt_succ hf)]
    rfl

theorem length_le_flatMap_escByte (s : Bytes) : s.length ≤ (s.flatMap escByte).length := by
  have h : ∀ c : UInt8, 1 ≤ (escByte c).length := fun c => by
    rw [escByte]
    split_ifs <;> simp
  induction s with
  | nil => exact Nat.le_refl 0
  | cons c s ih =>
    have := h c
    rw [List.flatMap_cons, List.length_append, List.length_cons]
    omega

theorem q_append (s rest : Bytes) :
    q s ++ rest = ch '"' :: (s.flatMap escByte ++ (ch '"' :: rest)) := by
  rw [q, List.append_assoc, List.append_assoc]
  rfl

/-- **A string is read back as it was written**, whatever its bytes. -/
theorem str_q (n : ℕ) (s rest : Bytes) : str n (q s ++ rest) = .ok (s, rest) := by
  have h := length_le_flatMap_escByte s
  rw [q_append, str]
  refine (if_pos rfl).trans (strRest_escaped n s rest ?_)
  rw [List.length_append]
  omega

/-! ## Integers

An integer is written without point and exponent, and what follows it is a comma, a bracket or the
end of a line.  The reader goes exactly as far as the digits. -/

/-- What may follow a value in a text: nothing, a comma or a closing bracket, or a line's end. -/
def Follow (rest : Bytes) : Prop :=
  ∀ c ∈ rest.head?, c = ch ',' ∨ c = ch ']' ∨ c = ch '\x7d' ∨ c = 10

theorem follow_nil : Follow [] := fun _ h => by cases h

theorem follow_cons {c : UInt8} (hc : c = ch ',' ∨ c = ch ']' ∨ c = ch '\x7d' ∨ c = 10)
    (rest : Bytes) : Follow (c :: rest) := fun d hd => by
  obtain rfl : c = d := by simpa using hd
  exact hc

/-- The digits of a number: at least one, and nothing else. -/
theorem isDigit_dec {m : ℕ} {c : UInt8} (hc : c ∈ dec m) : 48 ≤ c.toNat ∧ c.toNat ≤ 57 := by
  obtain ⟨d, hd, rfl⟩ := List.mem_map.1 hc
  have h := Nat.isDigit_of_mem_toDigits (by norm_num) (by norm_num) hd
  rw [Char.isDigit_iff_toNat] at h
  have h0 : '0'.toNat = 48 := rfl
  have h9 : '9'.toNat = 57 := rfl
  rw [ch, UInt8.toNat_ofNat']
  omega

theorem dec_ne_nil (m : ℕ) : dec m ≠ [] := by
  rw [dec, Ne, List.map_eq_nil_iff]
  exact Nat.toDigits_ne_nil

theorem natOf_dec (m : ℕ) : natOf 10 (dec m) = m := by
  have h : ∀ (l : List Char) (k : ℕ), (∀ c ∈ l, c.isDigit) →
      (l.map ch).foldl (fun n b => n * 10 + digitVal b) k = Nat.ofDigitChars 10 l k := fun l => by
    induction l with
    | nil => exact fun k _ => by simp
    | cons c l ih =>
      intro k hl
      have hc := Char.isDigit_iff_toNat.1 (hl c List.mem_cons_self)
      have h0 : '0'.toNat = 48 := rfl
      have h9 : '9'.toNat = 57 := rfl
      have hv : digitVal (ch c) = c.toNat - 48 := by
        have hn : (ch c).toNat = c.toNat := by
          rw [ch, UInt8.toNat_ofNat']
          omega
        rw [digitVal, if_pos (by
          simp only [isDigit, Bool.and_eq_true, decide_eq_true_eq, UInt8.le_iff_toNat_le, hn]
          exact ⟨hc.1, hc.2⟩), hn]
      rw [List.map_cons, List.foldl_cons, ih _ fun d hd => hl d (List.mem_cons_of_mem _ hd),
        Nat.ofDigitChars_cons, hv, Nat.mul_comm]
      rfl
  rw [natOf, dec, h _ _ fun c hc => Nat.isDigit_of_mem_toDigits (by norm_num) (by norm_num) hc,
    Nat.ofDigitChars_ten_toDigits]

theorem Follow.head {c : UInt8} {rest : Bytes} (h : Follow (c :: rest)) :
    c = ch ',' ∨ c = ch ']' ∨ c = ch '\x7d' ∨ c = 10 := h c rfl

theorem isDigitOf_ten {c : UInt8} (h : 48 ≤ c.toNat ∧ c.toNat ≤ 57) : isDigitOf 10 c = true := by
  have hd : isDigit c = true := by
    simp only [isDigit, Bool.and_eq_true, decide_eq_true_eq, UInt8.le_iff_toNat_le]
    exact h
  rw [isDigitOf, digitVal, if_pos hd, decide_eq_true_eq]
  omega

/-- The digits end where the number does. -/
theorem span_dec (m : ℕ) {rest : Bytes} (hr : Follow rest) :
    (dec m ++ rest).span (isDigitOf 10) = (dec m, rest) := by
  have hstop : rest.dropWhile (isDigitOf 10) = rest ∧ rest.takeWhile (isDigitOf 10) = [] := by
    cases rest with
    | nil => exact ⟨rfl, rfl⟩
    | cons c rest =>
      have hc : isDigitOf 10 c = false := by
        rcases hr.head with rfl | rfl | rfl | rfl <;> decide
      simp [hc]
  have hall : ∀ c ∈ dec m, isDigitOf 10 c = true := fun c hc => isDigitOf_ten (isDigit_dec hc)
  rw [List.span_eq_takeWhile_dropWhile, List.takeWhile_append_of_pos hall,
    List.dropWhile_append_of_pos hall, hstop.1, hstop.2, List.append_nil]

theorem mantissa_dec (m : ℕ) {rest : Bytes} (hr : Follow rest) :
    mantissa 10 (dec m ++ rest) = some ((m : ℚ), rest) := by
  have hfp : fraction 10 rest = ([], rest) := by
    cases rest with
    | nil => rfl
    | cons c rest =>
      refine if_neg ?_
      rcases hr.head with rfl | rfl | rfl | rfl <;> decide
  rw [mantissa, span_dec m hr]
  dsimp only
  rw [hfp, if_neg fun h => dec_ne_nil m h.1, List.append_nil, natOf_dec]
  simp

theorem exponent_follow {rest : Bytes} (hr : Follow rest) : exponent 'e' 'E' rest = (0, rest) := by
  cases rest with
  | nil => rfl
  | cons c rest =>
    refine if_neg ?_
    rcases hr.head with rfl | rfl | rfl | rfl <;> decide

theorem upper_of_digit {c : UInt8} (h : 48 ≤ c.toNat ∧ c.toNat ≤ 57) :
    (if isLower c then c - 32 else c) = c := by
  refine if_neg ?_
  have h97 : (ch 'a').toNat = 97 := rfl
  simp only [isLower, Bool.and_eq_true, decide_eq_true_eq, UInt8.le_iff_toNat_le, h97]
  omega

/-- No hexadecimal prefix starts with the digits of a number. -/
theorem not_hex_dec (m : ℕ) {rest : Bytes} (hr : Follow rest) :
    (lit "0X").isPrefixOf (upper (dec m ++ rest)) = false := by
  have hd : ∀ c ∈ dec m, 48 ≤ c.toNat ∧ c.toNat ≤ 57 := fun c hc => isDigit_dec hc
  have hX : ∀ c : UInt8, 48 ≤ c.toNat ∧ c.toNat ≤ 57 → c ≠ ch 'X' := fun c h he => by
    have h88 : (ch 'X').toNat = 88 := rfl
    rw [he] at h
    omega
  cases hm : dec m with
  | nil => exact absurd hm (dec_ne_nil m)
  | cons c l =>
    rw [hm] at hd
    cases l with
    | nil =>
      cases rest with
      | nil => simp [upper, lit, List.isPrefixOf]
      | cons e rest =>
        have : (ch 'X' == if isLower e then e - 32 else e) = false := by
          rcases hr.head with rfl | rfl | rfl | rfl <;> decide
        simp [upper, lit, List.isPrefixOf, this]
    | cons e l =>
      have he := hd e (by simp)
      have : (ch 'X' == if isLower e then e - 32 else e) = false := by
        rw [upper_of_digit he]
        exact beq_false_of_ne (hX e he).symm
      simp [upper, lit, List.isPrefixOf, this]

/-- No word starts with a digit. -/
theorem not_word {w : UInt8} {ws : Bytes} (hw : 58 ≤ w.toNat) {c : UInt8}
    (hc : 48 ≤ c.toNat ∧ c.toNat ≤ 57) (s : Bytes) :
    (w :: ws).isPrefixOf (upper (c :: s)) = false := by
  have : (w == if isLower c then c - 32 else c) = false := by
    rw [upper_of_digit hc]
    exact beq_false_of_ne fun he => by
      rw [he] at hw
      omega
  simp [upper, List.isPrefixOf, this]

/-- **A number is read back.** -/
theorem unsigned_dec (m : ℕ) {rest : Bytes} (hr : Follow rest) :
    unsigned (dec m ++ rest) = some (.inl (m : ℚ), rest) := by
  have hex := not_hex_dec m hr
  have hman := mantissa_dec m hr
  obtain ⟨c, l, hm⟩ := List.exists_cons_of_ne_nil (dec_ne_nil m)
  have hc : 48 ≤ c.toNat ∧ c.toNat ≤ 57 :=
    isDigit_dec (m := m) (by rw [hm]; exact List.mem_cons_self)
  rw [hm, List.cons_append] at hex hman ⊢
  have hinfinity : (lit "INFINITY").isPrefixOf (upper (c :: (l ++ rest))) = false :=
    not_word (w := ch 'I') (by decide) hc _
  have hinf : (lit "INF").isPrefixOf (upper (c :: (l ++ rest))) = false :=
    not_word (w := ch 'I') (by decide) hc _
  have hnan : (lit "NAN").isPrefixOf (upper (c :: (l ++ rest))) = false :=
    not_word (w := ch 'N') (by decide) hc _
  simp [unsigned, hinfinity, hinf, hnan, hex, hman, exponent_follow hr]

/-- The first byte of an integer. -/
def NumStart (c : UInt8) : Prop := c.toNat = 45 ∨ 48 ≤ c.toNat ∧ c.toNat ≤ 57

theorem decInt_eq_cons (i : ℤ) : ∃ c l, decInt i = c :: l ∧ NumStart c := by
  rw [decInt]
  split_ifs
  · exact ⟨_, _, rfl, Or.inl rfl⟩
  · obtain ⟨c, l, hm⟩ := List.exists_cons_of_ne_nil (dec_ne_nil i.natAbs)
    exact ⟨c, l, hm, Or.inr (isDigit_dec (m := i.natAbs) (by rw [hm]; exact List.mem_cons_self))⟩

theorem NumStart.not_space {c : UInt8} (h : NumStart c) : isSpace c = false := by
  simp only [isSpace, Bool.or_eq_false_iff, Bool.and_eq_false_iff, decide_eq_false_iff_not,
    ← UInt8.toNat_inj, UInt8.le_iff_toNat_le]
  rcases h with h | h
  · simp [h]
  · refine ⟨fun he => ?_, Or.inr fun hle => ?_⟩
    · simp at he
      omega
    · simp at hle
      omega

theorem ws_cons {c : UInt8} (hc : isSpace c = false) (s : Bytes) : ws (c :: s) = c :: s := by
  rw [ws, List.dropWhile_cons, hc]
  rfl

/-- **An integer of up to 53 bits is read back as it was written.** -/
theorem strtod_decInt {i : ℤ} (hi : |i| < 2 ^ 53) {rest : Bytes} (hr : Follow rest) :
    strtod (decInt i ++ rest) = some (.finite i, rest) := by
  obtain ⟨c, l, hc, hs⟩ := decInt_eq_cons i
  have hws : ws (decInt i ++ rest) = decInt i ++ rest := by
    rw [hc, List.cons_append, ws_cons hs.not_space]
  have hofRat := Double.ofRat_intCast hi
  rw [strtod]
  dsimp only
  rw [hws, decInt]
  split_ifs with hneg
  · have hi' : ((i.natAbs : ℤ) : ℚ) = -i := by
      rw [Int.ofNat_natAbs_of_nonpos hneg.le, Int.cast_neg]
    rw [List.cons_append]
    simp only [if_true, unsigned_dec _ hr, Option.map_some, signed]
    rw [← Int.cast_natCast, hi', neg_neg, hofRat]
  · have hi' : ((i.natAbs : ℤ) : ℚ) = i := by
      rw [Int.natAbs_of_nonneg (not_lt.1 hneg)]
    obtain ⟨d, t, hd⟩ := List.exists_cons_of_ne_nil (dec_ne_nil i.natAbs)
    have hdig : 48 ≤ d.toNat ∧ d.toNat ≤ 57 :=
      isDigit_dec (m := i.natAbs) (by rw [hd]; exact List.mem_cons_self)
    have hun := unsigned_dec i.natAbs hr
    rw [hd, List.cons_append] at hun ⊢
    have h1 : d ≠ ch '-' := fun e => by
      have : (ch '-').toNat = 45 := rfl
      rw [e] at hdig
      omega
    have h2 : d ≠ ch '+' := fun e => by
      have : (ch '+').toNat = 43 := rfl
      rw [e] at hdig
      omega
    simp only [if_neg h1, if_neg h2, hun, Option.map_some, signed]
    rw [← Int.cast_natCast, hi']
    exact congrArg (fun x => some (x, rest)) hofRat

/-! ## Values

The proof follows the value: an array is read element by element, and each element is a value with
something after it.  Fuel is counted along, two for every byte. -/

/-- A number as it is written: an integer in full. -/
def number : Double → Bytes
  | .finite q => if q.den = 1 then decInt q.num else double (.finite q)
  | d => double d

theorem number_intCast (i : ℤ) : number (.finite i) = decInt i := by
  rw [number, if_pos (Rat.den_intCast i), Rat.num_intCast]

mutual

/-- **The text of a value.** -/
def render : V → Bytes
  | .null => lit "null"
  | .bool x => b x
  | .num d => number d
  | .str s => q s
  | .arr [] => brackets []
  | .arr (v :: l) => brackets (render v ++ renderElements l)
  | .obj [] => braces []
  | .obj ((k, v) :: o) => braces (member k (render v) ++ renderMembers o)

/-- The elements after the first. -/
def renderElements : List V → Bytes
  | [] => []
  | v :: l => ch ',' :: render v ++ renderElements l

/-- The members after the first. -/
def renderMembers : List (Bytes × V) → Bytes
  | [] => []
  | (k, v) :: o => ch ',' :: member k (render v) ++ renderMembers o

end

/-- The text of a member. -/
def memberOf (kv : Bytes × V) : Bytes := member kv.1 (render kv.2)

/-- The elements of an array, with commas before them. -/
theorem renderElements_eq (l : List V) :
    renderElements l = (l.map render).flatMap fun y => ch ',' :: y := by
  induction l with
  | nil => rw [renderElements]; rfl
  | cons v l ih =>
    rw [renderElements, ih]
    rfl

/-- The members of an object, with commas before them. -/
theorem renderMembers_eq (o : List (Bytes × V)) :
    renderMembers o = (o.map memberOf).flatMap fun y => ch ',' :: y := by
  induction o with
  | nil => rw [renderMembers]; rfl
  | cons e o ih =>
    rw [renderMembers, ih]
    rfl

/-- An array is its elements between brackets. -/
theorem render_arr (l : List V) : render (.arr l) = brackets (commas (l.map render)) := by
  cases l with
  | nil => rw [render]; rfl
  | cons v l =>
    rw [render, renderElements_eq]
    rfl

/-- An object is its members between braces. -/
theorem render_obj (o : List (Bytes × V)) :
    render (.obj o) = braces (commas (o.map memberOf)) := by
  cases o with
  | nil => rw [render]; rfl
  | cons e o =>
    rw [render, renderMembers_eq]
    rfl

mutual

/-- **A value the reader reads back**, at a depth: its numbers are integers of up to 53 bits, and
nothing in it is nested too deeply. -/
def Fits : ℕ → V → Prop
  | d, .num x => d ≤ 64 ∧ ∃ i : ℤ, |i| < 2 ^ 53 ∧ x = .finite i
  | d, .arr l => d ≤ 64 ∧ FitsAll (d + 1) l
  | d, .obj o => d ≤ 64 ∧ FitsMembers (d + 1) o
  | d, .null => d ≤ 64
  | d, .bool _ => d ≤ 64
  | d, .str _ => d ≤ 64

/-- All elements are taken by the reader. -/
def FitsAll : ℕ → List V → Prop
  | _, [] => True
  | d, v :: l => Fits d v ∧ FitsAll d l

/-- All members are taken by the reader. -/
def FitsMembers : ℕ → List (Bytes × V) → Prop
  | _, [] => True
  | d, (_, v) :: o => Fits d v ∧ FitsMembers d o

end

theorem commas_cons_cons (x y : Bytes) (l : List Bytes) :
    commas (x :: y :: l) = x ++ ch ',' :: commas (y :: l) := rfl

/-- The first byte of a value's text. -/
def Start (c : UInt8) : Prop := isSpace c = false ∧ c ≠ ch ']' ∧ c ≠ ch '\x7d'

theorem NumStart.start {c : UInt8} (h : NumStart c) : Start c := by
  refine ⟨h.not_space, fun he => ?_, fun he => ?_⟩
  · have : (ch ']').toNat = 93 := rfl
    rw [he, NumStart] at h
    omega
  · have : (ch '\x7d').toNat = 125 := rfl
    rw [he, NumStart] at h
    omega

/-- What is written begins as a value does. -/
theorem render_eq_cons {d : ℕ} {v : V} (hv : Fits d v) : ∃ c t, render v = c :: t ∧ Start c := by
  cases v with
  | null => exact ⟨_, _, by rw [render]; rfl, by decide, by decide, by decide⟩
  | bool x => cases x <;> exact ⟨_, _, by rw [render]; rfl, by decide, by decide, by decide⟩
  | num x =>
    rw [Fits] at hv
    obtain ⟨-, i, -, rfl⟩ := hv
    obtain ⟨c, l, hc, hs⟩ := decInt_eq_cons i
    exact ⟨c, l, by rw [render, number_intCast, hc], hs.start⟩
  | str s => exact ⟨_, _, by rw [render]; rfl, by decide, by decide, by decide⟩
  | arr l => exact ⟨_, _, by rw [render_arr]; rfl, by decide, by decide, by decide⟩
  | obj o => exact ⟨_, _, by rw [render_obj]; rfl, by decide, by decide, by decide⟩

theorem closes_start {close : Char} {c : UInt8} (hs : isSpace c = false) (hc : c ≠ ch close)
    (t : Bytes) : closes close (c :: t) = none := by
  rw [closes, ws_cons hs]
  exact if_neg hc

theorem after_comma (close : Char) (rest : Bytes) : after close (ch ',' :: rest) = .more rest := by
  rw [after, ws_cons (by decide)]
  exact if_pos rfl

theorem after_close {close : Char} (hs : isSpace (ch close) = false) (hc : ch close ≠ ch ',')
    (rest : Bytes) : after close (ch close :: rest) = .done rest := by
  rw [after, ws_cons hs]
  exact (if_neg hc).trans (if_pos rfl)

/-- An integer, where a value is expected. -/
theorem value_decInt (n fuel : ℕ) {d : ℕ} (hd : d ≤ 64) {i : ℤ} (hi : |i| < 2 ^ 53) {rest : Bytes}
    (hr : Follow rest) :
    value n (fuel + 1) d (decInt i ++ rest) = .ok (.num (.finite i), rest) := by
  obtain ⟨c, l, hc, hs⟩ := decInt_eq_cons i
  have hnum := strtod_decInt hi hr
  rw [hc, List.cons_append] at hnum ⊢
  have hne (w : Char) (hw : 58 ≤ (ch w).toNat ∨ (ch w).toNat < 45) : c ≠ ch w := fun he => by
    rw [he, NumStart] at hs
    omega
  have hword (w : UInt8) (ws : Bytes) (hw : 58 ≤ w.toNat) :
      (w :: ws).isPrefixOf (c :: (l ++ rest)) = false := by
    have : (w == c) = false := beq_false_of_ne fun he => by
      rw [he] at hw
      rw [NumStart] at hs
      omega
    simp [List.isPrefixOf, this]
  have htrue : (lit "true").isPrefixOf (c :: (l ++ rest)) = false := hword (ch 't') _ (by decide)
  have hfalse : (lit "false").isPrefixOf (c :: (l ++ rest)) = false := hword (ch 'f') _ (by decide)
  have hnull : (lit "null").isPrefixOf (c :: (l ++ rest)) = false := hword (ch 'n') _ (by decide)
  rw [value, if_neg (by omega), ws_cons hs.not_space]
  dsimp only
  rw [if_neg (hne '\x7b' (by decide)), if_neg (hne '[' (by decide)), if_neg (hne '"' (by decide)),
    htrue, hfalse, hnull, hnum]
  rfl

/-- Reading an array, from its bracket on. -/
theorem value_bracket (n fuel : ℕ) {d : ℕ} (hd : d ≤ 64) (t : Bytes) :
    value n (fuel + 1) d (ch '[' :: t) =
      match closes ']' t with
      | some rest => .ok (.arr [], rest)
      | none => (elementsOf n fuel d t).map fun p => (.arr p.1, p.2) := by
  rw [value, if_neg (by omega), ws_cons (by decide)]
  rfl

/-- Reading an object, from its brace on. -/
theorem value_brace (n fuel : ℕ) {d : ℕ} (hd : d ≤ 64) (t : Bytes) :
    value n (fuel + 1) d (ch '\x7b' :: t) =
      match closes '\x7d' t with
      | some rest => .ok (.obj [], rest)
      | none => (membersOf n fuel d t).map fun p => (.obj p.1, p.2) := by
  rw [value, if_neg (by omega), ws_cons (by decide)]
  rfl

theorem Fits.depth {d : ℕ} {v : V} (hv : Fits d v) : d ≤ 64 := by
  cases v with
  | num | arr | obj => rw [Fits] at hv; exact hv.1
  | _ => rwa [Fits] at hv

/-- A member's text starts with a quote. -/
theorem member_eq_cons (k x : Bytes) : ∃ t, member k x = ch '"' :: t :=
  ⟨_, by rw [member, List.append_assoc, q_append]⟩

/-- A value that is not a number, where one is expected. -/
theorem value_word (n fuel : ℕ) {d : ℕ} (hd : d ≤ 64) (rest : Bytes) :
    value n (fuel + 1) d (lit "null" ++ rest) = .ok (.null, rest) ∧
      ∀ x, value n (fuel + 1) d (b x ++ rest) = .ok (.bool x, rest) := by
  have hd' : ¬64 < d := by omega
  refine ⟨?_, fun x => ?_⟩
  · rw [value, if_neg hd']
    rfl
  · rw [value, if_neg hd']
    cases x <;> rfl

theorem value_q (n fuel : ℕ) {d : ℕ} (hd : d ≤ 64) (s rest : Bytes) :
    value n (fuel + 1) d (q s ++ rest) = .ok (.str s, rest) := by
  have h := str_q n s rest
  rw [q_append] at h ⊢
  rw [value, if_neg (by omega), ws_cons (by decide)]
  dsimp only
  rw [if_neg (by decide), if_neg (by decide), if_pos rfl, h]
  rfl

/-- A member, where one is expected. -/
theorem membersOf_member (n fuel d : ℕ) (k : Bytes) {v : V} {x rest : Bytes}
    (hv : value n fuel (d + 1) (x ++ rest) = .ok (v, rest)) :
    membersOf n (fuel + 1) d (member k x ++ rest) =
      match after '\x7d' rest with
      | .more s => (membersOf n fuel d s).map fun p => ((k, v) :: p.1, p.2)
      | .done s => .ok ([(k, v)], s)
      | .other s => fail n "expected ',' or '\x7d'" s := by
  have hstr : str n (ws (member k x ++ rest)) = .ok (k, lit ":" ++ (x ++ rest)) := by
    have h := str_q n k (lit ":" ++ (x ++ rest))
    rw [member, List.append_assoc, List.append_assoc]
    rw [q_append] at h ⊢
    rwa [ws_cons (by decide)]
  have hcolon : closes ':' (lit ":" ++ (x ++ rest)) = some (x ++ rest) := by
    change closes ':' (ch ':' :: (x ++ rest)) = _
    rw [closes, ws_cons (by decide)]
    exact if_pos rfl
  rw [membersOf, hstr]
  dsimp only
  rw [hcolon]
  dsimp only
  generalize value n fuel (d + 1) (x ++ rest) = r at hv ⊢
  subst hv
  rfl

mutual

/-- **A value is read back from its text**, whatever follows. -/
theorem value_render (n : ℕ) : (v : V) → ∀ (fuel d : ℕ), Fits d v →
    2 * (render v).length ≤ fuel → ∀ {rest : Bytes}, Follow rest →
    value n fuel d (render v ++ rest) = .ok (v, rest)
  | v, 0, d, hv, hf, rest, hr => by
    obtain ⟨c, t, hc, -⟩ := render_eq_cons hv
    rw [hc, List.length_cons] at hf
    omega
  | .null, fuel + 1, d, hv, _, rest, _ => by
    rw [render]
    exact (value_word n fuel hv.depth rest).1
  | .bool x, fuel + 1, d, hv, _, rest, _ => by
    rw [render]
    exact (value_word n fuel hv.depth rest).2 x
  | .num x, fuel + 1, d, hv, _, rest, hr => by
    rw [Fits] at hv
    obtain ⟨hd, i, hi, rfl⟩ := hv
    rw [render, number_intCast]
    exact value_decInt n fuel hd hi hr
  | .str s, fuel + 1, d, hv, _, rest, _ => by
    rw [render]
    exact value_q n fuel hv.depth s rest
  | .arr [], fuel + 1, d, hv, _, rest, _ => by
    rw [render]
    exact value_bracket n fuel hv.depth (ch ']' :: rest)
  | .arr (v :: l), fuel + 1, d, hv, hf, rest, _ => by
    rw [Fits] at hv
    have helems := elementsOf_render n (v :: l) fuel d (List.cons_ne_nil v l) hv.2
      (by rw [render_arr, brackets] at hf; simp [lit] at hf ⊢; omega) rest
    obtain ⟨c, t, hc, hs⟩ := render_eq_cons hv.2.1
    have hcloses : closes ']' (commas ((v :: l).map render) ++ ch ']' :: rest) = none := by
      rw [List.map_cons, commas, hc]
      exact closes_start hs.1 hs.2.1 _
    have htext : render (.arr (v :: l)) ++ rest =
        ch '[' :: (commas ((v :: l).map render) ++ ch ']' :: rest) := by
      rw [render_arr, brackets, List.append_assoc, List.append_assoc]
      rfl
    rw [htext, value_bracket n fuel hv.1, hcloses, helems]
    rfl
  | .obj [], fuel + 1, d, hv, _, rest, _ => by
    rw [render]
    exact value_brace n fuel hv.depth (ch '\x7d' :: rest)
  | .obj ((k, v) :: o), fuel + 1, d, hv, hf, rest, _ => by
    rw [Fits] at hv
    have hmembers := membersOf_render n ((k, v) :: o) fuel d (List.cons_ne_nil _ o) hv.2
      (by rw [render_obj, braces] at hf; simp [lit] at hf ⊢; omega) rest
    obtain ⟨t, ht⟩ := member_eq_cons k (render v)
    have hcloses : closes '\x7d' (commas (((k, v) :: o).map memberOf) ++
        ch '\x7d' :: rest) = none := by
      rw [List.map_cons, commas, memberOf, ht]
      exact closes_start (by decide) (by decide) _
    have htext : render (.obj ((k, v) :: o)) ++ rest = ch '\x7b' ::
        (commas (((k, v) :: o).map memberOf) ++ ch '\x7d' :: rest) := by
      rw [render_obj, braces, List.append_assoc, List.append_assoc]
      rfl
    rw [htext, value_brace n fuel hv.1, hcloses, hmembers]
    rfl

/-- **The elements of an array are read back.** -/
theorem elementsOf_render (n : ℕ) : (a : List V) → ∀ (fuel d : ℕ), a ≠ [] → FitsAll (d + 1) a →
    2 * (commas (a.map render)).length + 1 ≤ fuel → ∀ rest : Bytes,
    elementsOf n fuel d (commas (a.map render) ++ ch ']' :: rest) = .ok (a, rest)
  | [], _, _, h, _, _, _ => absurd rfl h
  | _ :: _, 0, _, _, _, hf, _ => absurd hf (Nat.not_succ_le_zero _)
  | [v], fuel + 1, d, _, hv, hf, rest => by
    have hval := value_render n v fuel (d + 1) hv.1 (by simp [commas] at hf; omega)
      (follow_cons (Or.inr (Or.inl rfl)) rest)
    rw [elementsOf]
    change (match value n fuel (d + 1) (render v ++ [] ++ ch ']' :: rest) with
      | .error e => _ | .ok (v, s) => _) = _
    rw [List.append_nil, hval]
    dsimp only
    rw [after_close (by decide) (by decide)]
  | v :: w :: l, fuel + 1, d, _, hv, hf, rest => by
    rw [FitsAll] at hv
    rw [List.map_cons, List.map_cons, commas_cons_cons, ← List.map_cons] at hf ⊢
    rw [List.length_append, List.length_cons] at hf
    have hval := value_render n v fuel (d + 1) hv.1 (by omega)
      (follow_cons (Or.inl rfl) (commas ((w :: l).map render) ++ ch ']' :: rest))
    have hrest := elementsOf_render n (w :: l) fuel d (List.cons_ne_nil w l) hv.2 (by omega) rest
    rw [elementsOf, List.append_assoc, List.cons_append, hval]
    dsimp only
    rw [after_comma]
    dsimp only
    rw [hrest]
    rfl

/-- **The members of an object are read back.** -/
theorem membersOf_render (n : ℕ) : (o : List (Bytes × V)) → ∀ (fuel d : ℕ), o ≠ [] →
    FitsMembers (d + 1) o →
    2 * (commas (o.map memberOf)).length + 1 ≤ fuel → ∀ rest : Bytes,
    membersOf n fuel d (commas (o.map memberOf) ++ ch '\x7d' :: rest) =
      .ok (o, rest)
  | [], _, _, h, _, _, _ => absurd rfl h
  | _ :: _, 0, _, _, _, hf, _ => absurd hf (Nat.not_succ_le_zero _)
  | [(k, v)], fuel + 1, d, _, hv, hf, rest => by
    rw [List.map_singleton, commas, List.flatMap_nil, List.append_nil] at hf ⊢
    have hval := value_render n v fuel (d + 1) hv.1 (by simp [memberOf, member] at hf; omega)
      (follow_cons (Or.inr (Or.inr (Or.inl rfl))) rest)
    rw [memberOf, membersOf_member n fuel d k hval, after_close (by decide) (by decide)]
  | (k, v) :: e :: o, fuel + 1, d, _, hv, hf, rest => by
    rw [FitsMembers] at hv
    rw [List.map_cons, List.map_cons, commas_cons_cons, ← List.map_cons] at hf ⊢
    rw [List.length_append, List.length_cons] at hf
    have hval := value_render n v fuel (d + 1) hv.1 (by simp [memberOf, member] at hf; omega)
      (follow_cons (Or.inl rfl)
        (commas ((e :: o).map memberOf) ++ ch '\x7d' :: rest))
    have hrest := membersOf_render n (e :: o) fuel d (List.cons_ne_nil e o) hv.2 (by omega) rest
    rw [List.append_assoc, List.cons_append, memberOf, membersOf_member n fuel d k hval,
      after_comma]
    dsimp only
    rw [hrest]
    rfl

end

/-- **A text is read back as the value it was written from**; a line's end may follow. -/
theorem parse_render {v : V} (hv : Fits 0 v) {tail : Bytes} (ht : tail = [] ∨ tail = [10]) :
    parse (render v ++ tail) = .ok v := by
  have hfollow : Follow tail := by
    rcases ht with rfl | rfl
    · exact follow_nil
    · exact follow_cons (Or.inr (Or.inr (Or.inr rfl))) []
  have hws : ws tail = [] := by
    rcases ht with rfl | rfl <;> rfl
  have hval := value_render (render v ++ tail).length v (2 * (render v ++ tail).length + 2) 0 hv
    (by rw [List.length_append]; omega) hfollow
  rw [parse, hval]
  exact if_pos hws

end mjson

end DsdServer
