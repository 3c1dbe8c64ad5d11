import DsdServer.Data.Bytes

/-!
# Json/Value — JSON values, and the numbers in them

A value as the reader sees it: numbers are doubles, and an object keeps the order of its members.
-/

open Bytes

namespace DsdServer

/-! ## Doubles

A double is a rational number, an infinity, or not a number.  Conversions to integers cut the
fraction off; out of range the source's compiler may do anything, and the value here is one it may
choose. -/

/-- **A double**; the two zeros are one. -/
inductive Double
  | finite (q : ℚ)
  | inf (neg : Bool)
  | nan
  deriving DecidableEq

/-- The nearest integer, the even one of two. -/
def roundEven (q : ℚ) : ℤ :=
  let f := ⌊q⌋
  if q - f < 1 / 2 then f else if 1 / 2 < q - f then f + 1 else if f % 2 = 0 then f else f + 1

namespace Double

/-- The exponent of the last of 53 bits. -/
def ulp (q : ℚ) : ℤ := max (Int.log 2 |q| - 52) (-1074)

/-- **The double nearest to a rational.** -/
def ofRat (q : ℚ) : Double :=
  let x : ℚ := roundEven (q / 2 ^ ulp q) * 2 ^ ulp q
  if 2 ^ 1024 ≤ |x| then .inf (q < 0) else .finite x

/-- Is it more than zero? -/
def isPos : Double → Bool
  | .finite q => 0 < q
  | .inf neg => !neg
  | .nan => false

/-- Without the fraction. -/
def trunc (q : ℚ) : ℤ := if 0 ≤ q then ⌊q⌋ else ⌈q⌉

/-- A 64-bit integer; the value a conversion out of range gives is the hardware's. -/
def toI64 : Double → ℤ
  | .finite q => if -2 ^ 63 ≤ trunc q ∧ trunc q < 2 ^ 63 then trunc q else -2 ^ 63
  | _ => -2 ^ 63

/-- An unsigned 64-bit integer, of a positive double. -/
def toU64 : Double → ℕ
  | .finite q => if trunc q < 2 ^ 64 then (trunc q).toNat else 0
  | _ => 0

theorem roundEven_intCast (i : ℤ) : roundEven i = i := by
  simp [roundEven]

/-- An integer has nothing to cut off. -/
theorem trunc_intCast (i : ℤ) : trunc i = i := by
  rw [trunc]
  split_ifs
  · exact Int.floor_intCast i
  · exact Int.ceil_intCast i

/-- **Integers of up to 53 bits are doubles.** -/
theorem ofRat_intCast {i : ℤ} (hi : |i| < 2 ^ 53) : ofRat i = .finite i := by
  have hulp : ulp i ≤ 0 := by
    refine max_le ?_ (by norm_num)
    rcases eq_or_ne i 0 with rfl | h0
    · simp
    · have hpos : (0 : ℚ) < |(i : ℚ)| := abs_pos.2 (Int.cast_ne_zero.2 h0)
      have hlt : |(i : ℚ)| < ((2 : ℕ) : ℚ) ^ (53 : ℤ) := by
        rw [← Int.cast_abs]
        exact_mod_cast hi
      have := (Int.lt_zpow_iff_log_lt one_lt_two hpos).1 hlt
      omega
  obtain ⟨n, hn⟩ := Int.eq_ofNat_of_zero_le (neg_nonneg.2 hulp)
  have hp : ulp i = -(n : ℤ) := by omega
  have hdiv : (i : ℚ) / 2 ^ ulp i = ((i * 2 ^ n : ℤ) : ℚ) := by
    rw [hp, zpow_neg, zpow_natCast, div_inv_eq_mul]
    push_cast
    rfl
  have hx : ((i * 2 ^ n : ℤ) : ℚ) * 2 ^ ulp i = i := by
    rw [← hdiv]
    exact div_mul_cancel₀ _ (zpow_ne_zero _ two_ne_zero)
  rw [ofRat, hdiv, roundEven_intCast, hx, if_neg]
  rw [not_le, ← Int.cast_abs]
  have hlt := (Int.cast_lt (R := ℚ)).2
    (hi.trans (pow_lt_pow_right₀ one_lt_two (show 53 < 1024 by norm_num)))
  rwa [Int.cast_pow, Int.cast_ofNat] at hlt

end Double

/-! ## Values

The readers below ask an object for a member of a type, and get the type's empty value when it has
none or one of another type. -/

namespace mjson

/-- **A JSON value**; an object keeps its members' order. -/
inductive V
  | null
  | bool (b : Bool)
  | num (n : Double)
  | str (s : Bytes)
  | arr (a : List V)
  | obj (o : List (Bytes × V))

instance : Inhabited V := ⟨.null⟩

namespace V

/-- The value of a member of an object: of the first, when there are several. -/
def get (v : V) (k : String) : Option V :=
  match v with
  | .obj o => (o.find? fun kv => kv.1 = lit k).map Prod.snd
  | _ => none

/-- The string under a key, empty when there is none. -/
def strOf (v : V) (k : String) : Bytes :=
  match v.get k with
  | some (.str s) => s
  | _ => []

/-- The number under a key, zero when there is none. -/
def numOf (v : V) (k : String) : Double :=
  match v.get k with
  | some (.num n) => n
  | _ => .finite 0

/-- The truth value under a key, false when there is none. -/
def boolean (v : V) (k : String) : Bool :=
  match v.get k with
  | some (.bool b) => b
  | _ => false

/-- The members of an object. -/
def members : V → List (Bytes × V)
  | .obj o => o
  | _ => []

/-- The elements of an array. -/
def elements : V → List V
  | .arr a => a
  | _ => []

/-- Is the value an object? -/
def isObj : V → Bool
  | .obj _ => true
  | _ => false

/-- A count, zero when it is not positive. -/
def u (v : V) (k : String) : ℕ := if (v.numOf k).isPos then (v.numOf k).toU64 else 0

/-- The signed integer under a key. -/
def i64 (v : V) (k : String) : ℤ := (v.numOf k).toI64

end V

end mjson

end DsdServer
