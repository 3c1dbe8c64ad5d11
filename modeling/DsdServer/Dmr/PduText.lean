import DsdServer.Data.Runs
import DsdServer.Server.Reader

/-!
# Dmr/PduText — the text in a data PDU

A PDU's bytes come as a hex dump.  Text in it is a run of characters, as UTF-16 code units or as
they are, and the longer run wins; a scan for code units goes two bytes at a time from the payload's
start, and sees those at an even offset only: `longest_text_iff` says when that loses none.

Nothing marks where text begins in a payload, or in which coding it is, so it has to be found by its
look.  Both readings are runs of a list, one of the bytes and one of pairs of bytes; so one notion
of a longest run serves both, and what the scan misses are the runs of pairs at an odd offset.
-/

open Bytes

namespace DsdServer

/-! ## Hex dumps

The decoder prints the bytes of a PDU in hex.  An odd digit at the end is left out, and a dump with
anything else in it gives nothing. -/

/-- The digit of a nibble. -/
def nibChar (n : UInt8) : UInt8 := if n < 10 then ch '0' + n else ch 'A' + (n - 10)

/-- The dump of a payload. -/
def hexDump (b : Bytes) : Bytes := b.flatMap fun c => [nibChar (c / 16), nibChar (c % 16)]

/-- The value of a hex digit. -/
def nib (c : UInt8) : Option UInt8 :=
  if ch '0' ≤ c && c ≤ ch '9' then some (c - ch '0')
  else if ch 'A' ≤ c && c ≤ ch 'F' then some (c - ch 'A' + 10)
  else if ch 'a' ≤ c && c ≤ ch 'f' then some (c - ch 'a' + 10)
  else none

/-- The bytes of a dump, from its pairs of digits. -/
def hexBytes : Bytes → Option Bytes
  | hi :: lo :: s => do
    let h ← nib hi
    let l ← nib lo
    return (h <<< 4 ||| l) :: (← hexBytes s)
  | _ => some []

theorem nib_nibChar : ∀ c : UInt8, nib (nibChar (c / 16)) = some (c / 16) ∧
    nib (nibChar (c % 16)) = some (c % 16) ∧ (c / 16) <<< 4 ||| c % 16 = c := by
  have h : ∀ n : Fin 256, nib (nibChar (UInt8.ofNat n / 16)) = some (UInt8.ofNat n / 16) ∧
      nib (nibChar (UInt8.ofNat n % 16)) = some (UInt8.ofNat n % 16) ∧
      (UInt8.ofNat n / 16) <<< 4 ||| UInt8.ofNat n % 16 = UInt8.ofNat n := by decide +kernel
  intro c
  have hc := h ⟨c.toNat, c.toNat_lt⟩
  rwa [UInt8.ofNat_toNat] at hc

/-- **A dump is read back** as the payload. -/
@[simp] theorem hexBytes_hexDump (b : Bytes) : hexBytes (hexDump b) = some b := by
  induction b with
  | nil => rfl
  | cons c b ih =>
    obtain ⟨hh, hl, hc⟩ := nib_nibChar c
    have hcons : hexDump (c :: b) = nibChar (c / 16) :: nibChar (c % 16) :: hexDump b := rfl
    rw [hcons, hexBytes, hh, hl, ih]
    exact congrArg (fun d => some (d :: b)) hc

theorem hexDump_length (b : Bytes) : (hexDump b).length = 2 * b.length := by
  induction b with
  | nil => rfl
  | cons c b ih =>
    have hcons : hexDump (c :: b) = nibChar (c / 16) :: nibChar (c % 16) :: hexDump b := rfl
    rw [hcons, List.length_cons, List.length_cons, List.length_cons, ih]
    omega

/-! ## The longest run

Both readings look for a longest run of characters in a list, the one of pairs of bytes and the
other of bytes.  A run of fewer than four bytes, or of fewer than two code units, is taken for
chance. -/

/-- A byte that is shown. -/
def printable (c : UInt8) : Bool := 0x20 ≤ c && c ≤ 0x7E

/-- The bytes two by two, from the first; a last odd one is left out. -/
def pairs : Bytes → List (UInt8 × UInt8)
  | x :: y :: b => (x, y) :: pairs b
  | _ => []

/-- A character as a UTF-16LE code unit. -/
def unit16 (u : UInt8 × UInt8) : Option UInt8 := if printable u.1 && u.2 = 0 then some u.1 else none

/-- A character as it is. -/
def char8 (c : UInt8) : Option UInt8 := if printable c then some c else none

/-- The text in some bytes. -/
def textOf (b : Bytes) : Bytes :=
  let best16 := Runs.longest unit16 (pairs b)
  let best8 := Runs.longest char8 b
  if best16.length ≥ 2 ∧ best16.length ≥ best8.length then best16
  else if best8.length ≥ 4 then best8
  else if best16.length ≥ 2 then best16
  else []

/-- **The text in a PDU**, given in hex. -/
def decodeDmrPduText (hex : Bytes) : Bytes :=
  if hex.length < 2 then []
  else match hexBytes hex with
    | none => []
    | some b => textOf b

/-- The bytes of a text in UTF-16LE. -/
def utf16 (r : Bytes) : Bytes := r.flatMap fun c => [c, 0]

/-- A run of UTF-16LE characters at an offset. -/
def Run16 (b : Bytes) (o : ℕ) (r : Bytes) : Prop :=
  2 ≤ r.length ∧ (∀ c ∈ r, printable c) ∧ utf16 r <+: b.drop o

/-- A run of printable bytes. -/
def Run8 (b r : Bytes) : Prop := 4 ≤ r.length ∧ (∀ c ∈ r, printable c) ∧ r <:+: b

/-- The text is as long as every run of code units, and empty when there is no run at all. -/
def LongestText (b : Bytes) : Prop :=
  (∀ o r, Run16 b o r → r.length ≤ (decodeDmrPduText (hexDump b)).length) ∧
    (decodeDmrPduText (hexDump b) = [] ↔ (¬∃ o r, Run16 b o r) ∧ ¬∃ r, Run8 b r)

/-- Every run of code units at an odd offset is matched, by one at an even offset or by a run of
printable bytes. -/
def OddMatched (b : Bytes) : Prop :=
  ∀ o r, Run16 b (2 * o + 1) r →
    (∃ o' r', Run16 b (2 * o') r' ∧ r.length ≤ r'.length) ∨ ∃ r', Run8 b r' ∧ r.length ≤ r'.length

/-- The text in the dump of some bytes is the text in them. -/
theorem decode_hexDump (b : Bytes) : decodeDmrPduText (hexDump b) = textOf b := by
  rw [decodeDmrPduText, hexBytes_hexDump, hexDump_length]
  cases b with
  | nil => rfl
  | cons c b =>
    rw [if_neg]
    rw [List.length_cons]
    omega

theorem map_unit16 {l : List (UInt8 × UInt8)} {r : Bytes} :
    l.map unit16 = r.map some ↔ l = r.map (fun c => (c, 0)) ∧ ∀ c ∈ r, printable c := by
  induction l generalizing r with
  | nil => cases r <;> simp
  | cons u l ih =>
    rcases r with _ | ⟨c, r⟩
    · simp
    · rw [List.map_cons, List.map_cons, List.map_cons, List.cons.injEq, List.cons.injEq, ih,
        List.forall_mem_cons]
      have hu : unit16 u = some c ↔ u = (c, 0) ∧ printable c = true := by
        obtain ⟨x, y⟩ := u
        rw [unit16]
        split_ifs with h
        · rw [Bool.and_eq_true, decide_eq_true_eq] at h
          simp only [Option.some.injEq, Prod.mk.injEq]
          constructor
          · rintro rfl
            exact ⟨⟨rfl, h.2⟩, h.1⟩
          · exact fun hx => hx.1.1
        · simp only [false_iff, not_and]
          rintro hx hp
          obtain ⟨rfl, rfl⟩ := Prod.mk.inj hx
          exact h (by rw [hp]; rfl)
      rw [hu]
      tauto

theorem map_char8 {l r : Bytes} : l.map char8 = r.map some ↔ l = r ∧ ∀ c ∈ r, printable c := by
  induction l generalizing r with
  | nil => cases r <;> simp
  | cons u l ih =>
    rcases r with _ | ⟨c, r⟩
    · simp
    · rw [List.map_cons, List.map_cons, List.cons.injEq, List.cons.injEq, ih,
        List.forall_mem_cons, char8]
      split_ifs with h
      · rw [Option.some.injEq]
        constructor
        · rintro ⟨rfl, rfl, hr⟩
          exact ⟨⟨rfl, rfl⟩, h, hr⟩
        · exact fun hx => ⟨hx.1.1, hx.1.2, hx.2.2⟩
      · simp only [false_and, false_iff, not_and]
        rintro ⟨rfl, -⟩ hp
        exact absurd hp h

/-- Code units from the front are the pairs from the front. -/
theorem prefix_pairs {r : Bytes} :
    ∀ {b : Bytes}, utf16 r <+: b ↔ r.map (fun c => (c, 0)) <+: pairs b := by
  induction r with
  | nil => exact fun {b} => iff_of_true List.nil_prefix List.nil_prefix
  | cons c r ih =>
    intro b
    have hcons : utf16 (c :: r) = c :: 0 :: utf16 r := rfl
    rw [hcons, List.map_cons]
    rcases b with _ | ⟨x, _ | ⟨y, b⟩⟩
    · simp [pairs]
    · simp [pairs]
    · rw [pairs, List.cons_prefix_cons, List.cons_prefix_cons, List.cons_prefix_cons, ih,
        Prod.mk.injEq]
      tauto

theorem drop_pairs : ∀ (o : ℕ) (b : Bytes), (pairs b).drop o = pairs (b.drop (2 * o)) := by
  intro o
  induction o with
  | zero => exact fun b => rfl
  | succ o ih =>
    intro b
    rcases b with _ | ⟨x, _ | ⟨y, b⟩⟩
    · simp [pairs]
    · rw [List.drop_eq_nil_of_le (by rw [List.length_singleton]; omega : [x].length ≤ 2 * (o + 1))]
      exact List.drop_nil
    · rw [pairs, List.drop_succ_cons, ih, Nat.mul_add, Nat.mul_one]
      rfl

/-- A stretch of a list begins somewhere. -/
theorem infix_iff_drop {α : Type*} {l l' : List α} : l <:+: l' ↔ ∃ o, l <+: l'.drop o := by
  rw [List.infix_iff_prefix_suffix]
  constructor
  · rintro ⟨t, ht, s, rfl⟩
    exact ⟨s.length, by rwa [List.drop_left]⟩
  · rintro ⟨o, ho⟩
    exact ⟨_, ho, List.drop_suffix o l'⟩

/-- **The scan for code units** sees those at the even offsets. -/
theorem isRun_unit16 {b r : Bytes} (hr : 2 ≤ r.length) :
    Runs.IsRun unit16 (pairs b) r ↔ ∃ o, Run16 b (2 * o) r := by
  rw [Runs.IsRun]
  constructor
  · rintro ⟨seg, hseg, hmap⟩
    obtain ⟨rfl, hp⟩ := map_unit16.1 hmap
    obtain ⟨o, ho⟩ := infix_iff_drop.1 hseg
    rw [drop_pairs, ← prefix_pairs] at ho
    exact ⟨o, hr, hp, ho⟩
  · rintro ⟨o, -, hp, ho⟩
    rw [prefix_pairs, ← drop_pairs] at ho
    exact ⟨_, infix_iff_drop.2 ⟨o, ho⟩, map_unit16.2 ⟨rfl, hp⟩⟩

theorem isRun_char8 {b r : Bytes} (hr : 4 ≤ r.length) : Runs.IsRun char8 b r ↔ Run8 b r := by
  rw [Runs.IsRun, Run8]
  constructor
  · rintro ⟨seg, hseg, hmap⟩
    obtain ⟨rfl, hp⟩ := map_char8.1 hmap
    exact ⟨hr, hp, hseg⟩
  · rintro ⟨-, hp, hseg⟩
    exact ⟨r, hseg, map_char8.2 ⟨rfl, hp⟩⟩

/-- The lengths of text that a payload gives. -/
theorem le_textOf_iff {b : Bytes} {n : ℕ} (hn : 2 ≤ n) : n ≤ (textOf b).length ↔
    (∃ o r, Run16 b (2 * o) r ∧ n ≤ r.length) ∨ ∃ r, Run8 b r ∧ n ≤ r.length := by
  have h16 : n ≤ (Runs.longest unit16 (pairs b)).length ↔ ∃ o r, Run16 b (2 * o) r ∧
      n ≤ r.length := by
    rw [Runs.le_longest_iff]
    constructor
    · rintro ⟨r, hr, hnr⟩
      obtain ⟨o, ho⟩ := (isRun_unit16 (hn.trans hnr)).1 hr
      exact ⟨o, r, ho, hnr⟩
    · rintro ⟨o, r, hr, hnr⟩
      exact ⟨r, (isRun_unit16 (hn.trans hnr)).2 ⟨o, hr⟩, hnr⟩
  have h8 : (4 ≤ (Runs.longest char8 b).length ∧ n ≤ (Runs.longest char8 b).length) ↔
      ∃ r, Run8 b r ∧ n ≤ r.length := by
    rw [← max_le_iff, Runs.le_longest_iff]
    constructor
    · rintro ⟨r, hr, hnr⟩
      exact ⟨r, (isRun_char8 (max_le_iff.1 hnr).1).1 hr, (max_le_iff.1 hnr).2⟩
    · rintro ⟨r, hr, hnr⟩
      exact ⟨r, (isRun_char8 hr.1).2 hr, max_le hr.1 hnr⟩
  rw [← h16, ← h8, textOf]
  split_ifs with h1 h2 h3
  · omega
  · omega
  · omega
  · rw [List.length_nil]
    omega

/-- **The longest text is found** unless a run at an odd offset is longer than all that the scan
sees. -/
theorem longest_text_iff (b : Bytes) : LongestText b ↔ OddMatched b := by
  rw [LongestText, decode_hexDump, ← List.length_eq_zero_iff]
  constructor
  · rintro ⟨hlen, -⟩ o r hr
    exact (le_textOf_iff hr.1).1 (hlen _ r hr)
  · intro h
    have hlen : ∀ o r, Run16 b o r → r.length ≤ (textOf b).length := by
      intro o r hr
      rw [le_textOf_iff hr.1]
      obtain ⟨o, rfl | rfl⟩ := Nat.even_or_odd' o
      · exact Or.inl ⟨o, r, hr, le_rfl⟩
      · exact h o r hr
    refine ⟨hlen, fun h0 => ⟨?_, ?_⟩, ?_⟩
    · rintro ⟨o, r, hr⟩
      have hle := hlen o r hr
      have h2 := hr.1
      omega
    · rintro ⟨r, hr⟩
      have hle := (le_textOf_iff (b := b) (n := r.length) (by have := hr.1; omega)).2
        (Or.inr ⟨r, hr, le_rfl⟩)
      have h4 := hr.1
      omega
    · rintro ⟨h16, h8⟩
      by_contra h0
      have h2 : 2 ≤ (textOf b).length := by
        rw [textOf] at h0 ⊢
        split_ifs at h0 ⊢ with h1 h2 h3
        · omega
        · omega
        · omega
        · exact absurd rfl h0
      obtain ⟨o, r, hr, -⟩ | ⟨r, hr, -⟩ := (le_textOf_iff h2).1 le_rfl
      · exact h16 ⟨_, r, hr⟩
      · exact h8 ⟨r, hr⟩

/-- A header byte and then "hi": its code units are at odd offsets. -/
def oddHi : Bytes := [1, ch 'h', 0, ch 'i', 0]

/-- **The text after an odd header is lost.** -/
theorem oddHi_lost : ¬LongestText oddHi := by
  intro h
  have hrun : Run16 oddHi 1 [ch 'h', ch 'i'] := ⟨le_rfl, List.all_eq_true.1 (by decide), [], rfl⟩
  have hlen := h.1 1 _ hrun
  have htext : textOf oddHi = [] := by decide
  rw [decode_hexDump, htext] at hlen
  exact absurd hlen (by decide)

end DsdServer
