import Mathlib

/-!
# Data/Bytes — byte strings

A string is a list of bytes: no encoding is assumed, any byte may occur, and comparison is
lexicographic by unsigned byte.  Literals are written as ASCII and read by `lit`; numbers are
printed in decimal.

Everything here is computable, and small enough for the kernel to evaluate: a concrete text is read
or written by `decide`.
-/

instance instLinearOrderUInt8 : LinearOrder UInt8 where
  le_refl := UInt8.le_refl
  le_trans _ _ _ := UInt8.le_trans
  le_antisymm _ _ := UInt8.le_antisymm
  le_total := UInt8.le_total
  lt_iff_le_not_ge a b := by simp only [UInt8.lt_iff_toNat_lt, UInt8.le_iff_toNat_le]; omega
  toDecidableLE := inferInstance
  toDecidableLT := inferInstance
  toDecidableEq := inferInstance

/-- A string: its bytes. -/
abbrev Bytes := List UInt8

instance instLawfulBEqBytes : LawfulBEq (List UInt8) := inferInstance

namespace Bytes

/-- The byte of an ASCII character. -/
def ch (c : Char) : UInt8 := UInt8.ofNat c.toNat

/-- What is checked of each of the 256 bytes holds of a byte. -/
theorem forall_byte {P : UInt8 → Prop} (h : ∀ n < 256, P (UInt8.ofNat n)) (c : UInt8) : P c :=
  UInt8.ofNat_toNat (x := c) ▸ h c.toNat c.toNat_lt

/-- A byte is given by its number up to a multiple of 256. -/
theorem ofNat_of_mod {n : ℕ} {b : UInt8} (h : n % 256 = b.toNat) : UInt8.ofNat n = b := by
  rw [← UInt8.ofNat_mod_size, h, UInt8.ofNat_toNat]

/-- The bytes of an ASCII literal. -/
def lit (s : String) : Bytes := s.toList.map ch

def isDigit (b : UInt8) : Bool := ch '0' ≤ b && b ≤ ch '9'

def isLower (b : UInt8) : Bool := ch 'a' ≤ b && b ≤ ch 'z'

def isUpper (b : UInt8) : Bool := ch 'A' ≤ b && b ≤ ch 'Z'

/-- A letter or a digit, of ASCII. -/
def isAlnum (b : UInt8) : Bool := isDigit b || isLower b || isUpper b

/-- ASCII upper case. -/
def upper (s : Bytes) : Bytes := s.map fun b => if isLower b then b - 32 else b

/-- Does the needle occur in the string? -/
def has : Bytes → Bytes → Bool
  | [], needle => needle.isEmpty
  | b :: s, needle => needle.isPrefixOf (b :: s) || has s needle

/-- The string without the leading and trailing bytes equal to `b`. -/
def trim (b : UInt8) (s : Bytes) : Bytes :=
  ((s.dropWhile (· == b)).reverse.dropWhile (· == b)).reverse

/-- The pieces between the occurrences of a separator. -/
def split (sep : UInt8) : Bytes → List Bytes
  | [] => [[]]
  | b :: s =>
    if b = sep then [] :: split sep s
    else match split sep s with
      | [] => [[b]]
      | p :: ps => (b :: p) :: ps

/-- The two sides of the first occurrence of a byte. -/
def cut (sep : UInt8) : Bytes → Option (Bytes × Bytes)
  | [] => none
  | b :: s => if b = sep then some ([], s) else (cut sep s).map fun p => (b :: p.1, p.2)

/-- What is put together around a separator is cut there again. -/
theorem cut_of_not_mem {sep : UInt8} {s : Bytes} (h : sep ∉ s) (t : Bytes) :
    cut sep (s ++ sep :: t) = some (s, t) := by
  induction s with
  | nil => exact if_pos rfl
  | cons b s ih =>
    rw [List.mem_cons, not_or] at h
    rw [List.cons_append, cut, if_neg (Ne.symm h.1), ih h.2]
    rfl

/-- The two sides of the last occurrence of a byte. -/
def cutLast (sep : UInt8) (s : Bytes) : Option (Bytes × Bytes) :=
  (cut sep s.reverse).map fun p => (p.2.reverse, p.1.reverse)

/-- A middle dot between blanks. -/
def dot : Bytes := [0x20, 0xC2, 0xB7, 0x20]

/-! ## Decimal numbers

Numbers go into texts without leading zeros, and with a minus sign where they are negative.  Reading
them back is a matter of the formats that hold them. -/

/-- A natural number in decimal. -/
def dec (n : ℕ) : Bytes := (Nat.toDigits 10 n).map ch

/-- An integer in decimal, with a minus sign when negative. -/
def decInt (i : ℤ) : Bytes := if i < 0 then ch '-' :: dec i.natAbs else dec i.natAbs

end Bytes
