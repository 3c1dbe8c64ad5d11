import DsdServer.Merge.Import

/-!
# Merge/Conversions — the integers an import is made of

The numbers of a document are doubles, of any size, and an import makes integers of them.
`conversions` lists what is converted, as the readers come to it; `conversions_inRange_iff` says for
which documents each is a number of the type it is converted to.

A list of conversions is a list of pairs of a type and a number.  What is converted depends on other
members of the document, as when a count is read only if it is positive; so the list of a record is
computed from the document, and is as long as it needs to be.
-/

open Bytes

namespace DsdServer

open mjson

/-! ## Conversions

A conversion is a double and the type it is converted to.  It is in range when the double, with its
fraction cut off, is a number of the type. -/

/-- The integer types of a dataset. -/
inductive IntType
  | i64
  | u64
  | u32
  deriving DecidableEq

/-- The numbers of each type. -/
def IntType.Holds : IntType → ℤ → Prop
  | i64, n => -2 ^ 63 ≤ n ∧ n < 2 ^ 63
  | u64, n => 0 ≤ n ∧ n < 2 ^ 64
  | u32, n => 0 ≤ n ∧ n < 2 ^ 32

/-- A number, and the type it is converted to. -/
structure Conversion where
  target : IntType
  value : Double

/-- **The number, without its fraction, is one of the type.** -/
def Conversion.InRange (c : Conversion) : Prop :=
  ∃ q, c.value = .finite q ∧ c.target.Holds (Double.trunc q)

/-! ## What is converted

The lists follow the readers: a field that is missing is zero, and converted as zero where the
reader does not ask first; a record without an id is skipped with all its numbers. -/

/-- A count: only one that is positive is converted. -/
def countConv (n : Double) : List Conversion := if n.isPos then [⟨.u64, n⟩] else []

/-- A counter is converted only when it is positive. -/
def uConv (v : V) (k : String) : List Conversion := countConv (v.numOf k)

/-- A signed number is converted whatever it is. -/
def i64Conv (v : V) (k : String) : List Conversion := [⟨.i64, v.numOf k⟩]

/-- The conversions of a table of counts. -/
def countmapConv (o : Option V) : List Conversion :=
  (o.getD .null).members.flatMap fun kv => match kv.2 with
    | .num n => countConv n
    | _ => []

/-- The conversions of a set of frequencies. -/
def freqsetConv (a : Option V) : List Conversion :=
  (a.getD .null).elements.flatMap fun e => match e with
    | .num n => if n.isPos then [⟨.i64, n⟩] else []
    | _ => []

/-- The conversions of a track. -/
def trackConv (a : Option V) : List Conversion :=
  (a.getD .null).elements.flatMap fun e => match e with
    | .arr [.num t, .str _] => [⟨.i64, t⟩]
    | _ => []

/-- The conversions of a network. -/
def networkConv (e : V) : List Conversion :=
  freqsetConv (e.get "freqs") ++ (uConv e "sessions" ++ (uConv e "calls" ++ (i64Conv e "first" ++
    (i64Conv e "last" ++ countmapConv (e.get "keys")))))

/-- The conversions of a talkgroup. -/
def talkgroupConv (e : V) : List Conversion :=
  countmapConv (e.get "radios") ++ (uConv e "calls" ++ (uConv e "emerg" ++ (uConv e "enc" ++
    (countmapConv (e.get "keys") ++ (i64Conv e "first" ++ i64Conv e "last")))))

/-- The conversions of a radio. -/
def radioConv (e : V) : List Conversion :=
  countmapConv (e.get "tgs") ++ (countmapConv (e.get "peers") ++ (countmapConv (e.get "keys") ++
    (uConv e "calls" ++ (i64Conv e "first" ++ (i64Conv e "last" ++ (i64Conv e "pos_t" ++
      trackConv (e.get "track")))))))

/-- The frames of a call's verdict are made 32 bits of the 64 they are read as. -/
def callConv (e : V) : List Conversion :=
  uConv e "id" ++
    (uConv e "session" ++ (uConv e "streams" ++ (uConv e "audio_ms" ++ (uConv e "qn" ++
    ([⟨.u32, .finite (e.u "qn")⟩] ++
      (i64Conv e "start" ++ (i64Conv e "last" ++ i64Conv e "freq")))))))

/-- A list of records; one without an id is left out before its numbers are read. -/
def tableConv (conv : V → List Conversion) (id : String) (a : Option V) : List Conversion :=
  (a.getD .null).elements.flatMap fun e => if e.strOf id = [] then [] else conv e

/-- The conversions of a family. -/
def familyConv (F : V) : List Conversion :=
  tableConv networkConv "key" (F.get "networks") ++
    (tableConv talkgroupConv "id" (F.get "talkgroups") ++
    (tableConv radioConv "id" (F.get "radios") ++
      ((F.get "calls").getD .null).elements.flatMap callConv))

/-- The conversions of a source. -/
def sourceConv (e : V) : List Conversion := i64Conv e "since" ++ i64Conv e "through"

/-- **What an import converts**: `now` only when there is no `exported`. -/
def conversions (root : V) : List Conversion :=
  i64Conv root "exported" ++
    (i64Conv root (if root.i64 "exported" ≠ 0 then "exported" else "now") ++
    ((((root.get "families").getD .null).members.flatMap fun fk => if fk.2.isObj then
      familyConv fk.2 else []) ++
      ((root.get "sources").getD .null).elements.flatMap sourceConv))

/-! ## Documents whose numbers fit

The same in words of the document: which of its numbers have to be in which range.  Nothing is said
of members that no reader looks at. -/

/-- A time, a frequency or the like. -/
def FitsI64 : Double → Prop
  | .finite q => -2 ^ 63 - 1 < q ∧ q < 2 ^ 63
  | _ => False

/-- A count below a bound; what is not positive is none. -/
def FitsBelow (bound : ℚ) : Double → Prop
  | .finite q => q < bound
  | .inf neg => neg
  | .nan => True

/-- Counts that fit 64 bits. -/
def CountsFit (o : Option V) : Prop :=
  ∀ k n, (k, V.num n) ∈ (o.getD .null).members → FitsBelow (2 ^ 64) n

/-- A network whose numbers fit. -/
structure NetworkFits (e : V) : Prop where
  freqs : ∀ n, V.num n ∈ ((e.get "freqs").getD .null).elements → n.isPos → FitsI64 n
  counts : ∀ k ∈ ["sessions", "calls"], FitsBelow (2 ^ 64) (e.numOf k)
  times : ∀ k ∈ ["first", "last"], FitsI64 (e.numOf k)
  keys : CountsFit (e.get "keys")

/-- A talkgroup whose numbers fit. -/
structure TalkgroupFits (e : V) : Prop where
  counts : ∀ k ∈ ["calls", "emerg", "enc"], FitsBelow (2 ^ 64) (e.numOf k)
  times : ∀ k ∈ ["first", "last"], FitsI64 (e.numOf k)
  tallies : ∀ k ∈ ["radios", "keys"], CountsFit (e.get k)

/-- A radio whose numbers fit. -/
structure RadioFits (e : V) : Prop where
  calls : FitsBelow (2 ^ 64) (e.numOf "calls")
  times : ∀ k ∈ ["first", "last", "pos_t"], FitsI64 (e.numOf k)
  tallies : ∀ k ∈ ["tgs", "peers", "keys"], CountsFit (e.get k)
  track : ∀ t pos, V.arr [.num t, .str pos] ∈ ((e.get "track").getD .null).elements → FitsI64 t

/-- A call whose numbers fit. -/
structure CallFits (e : V) : Prop where
  counts : ∀ k ∈ ["id", "session", "streams", "audio_ms"], FitsBelow (2 ^ 64) (e.numOf k)
  frames : FitsBelow (2 ^ 32) (e.numOf "qn")
  times : ∀ k ∈ ["start", "last", "freq"], FitsI64 (e.numOf k)

/-- A table all of whose records fit. -/
def TableFits (Fits : V → Prop) (id : String) (a : Option V) : Prop :=
  ∀ e ∈ (a.getD .null).elements, e.strOf id ≠ [] → Fits e

/-- A family all of whose tables fit. -/
structure FamilyFits (F : V) : Prop where
  networks : TableFits NetworkFits "key" (F.get "networks")
  tgs : TableFits TalkgroupFits "id" (F.get "talkgroups")
  radios : TableFits RadioFits "id" (F.get "radios")
  calls : ∀ e ∈ ((F.get "calls").getD .null).elements, CallFits e

/-- **The numbers that a document gives fit**, those of what is not read apart. -/
structure DocumentFits (root : V) : Prop where
  exported : FitsI64 (root.numOf "exported")
  now : root.i64 "exported" = 0 → FitsI64 (root.numOf "now")
  families : ∀ fk ∈ ((root.get "families").getD .null).members, fk.2.isObj → FamilyFits fk.2
  sources : ∀ e ∈ ((root.get "sources").getD .null).elements,
    FitsI64 (e.numOf "since") ∧ FitsI64 (e.numOf "through")

/-! ## What is in range

From single numbers to whole families, each condition on conversions is turned into the condition on
the document. -/

namespace Double

/-- Cutting the fraction off stays below a positive bound. -/
theorem trunc_lt_iff {q : ℚ} {n : ℤ} (hn : 0 < n) : trunc q < n ↔ q < n := by
  rw [trunc]
  split_ifs with hq
  · exact Int.floor_lt
  · have hceil : ⌈q⌉ ≤ 0 := Int.ceil_le.2 (by rw [Int.cast_zero]; exact (not_le.1 hq).le)
    have hcast : (0 : ℚ) < n := Int.cast_pos.2 hn
    exact ⟨fun _ => (not_le.1 hq).trans hcast, fun _ => hceil.trans_lt hn⟩

/-- Cutting the fraction off stays above a bound that is not positive, if less than one is missing.
-/
theorem le_trunc_iff {q : ℚ} {n : ℤ} (hn : n ≤ 0) : n ≤ trunc q ↔ (n : ℚ) - 1 < q := by
  rw [trunc]
  split_ifs with hq
  · have hcast : (n : ℚ) ≤ 0 := Int.cast_nonpos.2 hn
    exact ⟨fun _ => by linarith, fun _ => hn.trans (Int.floor_nonneg.2 hq)⟩
  · exact Int.le_ceil_iff

theorem trunc_lt_pow {q : ℚ} (n : ℕ) : trunc q < 2 ^ n ↔ q < 2 ^ n := by
  have h := trunc_lt_iff (q := q) (n := 2 ^ n) (by positivity)
  rwa [Int.cast_pow, Int.cast_ofNat] at h

theorem neg_pow_le_trunc {q : ℚ} (n : ℕ) : -2 ^ n ≤ trunc q ↔ -2 ^ n - 1 < q := by
  have h := le_trunc_iff (q := q) (n := -2 ^ n) (neg_nonpos.2 (by positivity))
  rwa [Int.cast_neg, Int.cast_pow, Int.cast_ofNat] at h

/-- A positive number is not cut below zero. -/
theorem trunc_nonneg_of_pos {q : ℚ} (h : 0 < q) : 0 ≤ trunc q := by
  rw [trunc, if_pos h.le]
  exact Int.floor_nonneg.2 h.le

end Double

/-- An infinity is of no integer type. -/
theorem not_inRange_inf {t : IntType} {neg : Bool} : ¬ Conversion.InRange ⟨t, .inf neg⟩ := by
  rintro ⟨q, hq, -⟩
  cases hq

/-- Not a number is of no integer type. -/
theorem not_inRange_nan {t : IntType} : ¬ Conversion.InRange ⟨t, .nan⟩ := by
  rintro ⟨q, hq, -⟩
  cases hq

/-- A finite number is in range when its integer part is of the type. -/
theorem inRange_finite {t : IntType} {q : ℚ} :
    Conversion.InRange ⟨t, .finite q⟩ ↔ t.Holds (Double.trunc q) := by
  constructor
  · rintro ⟨q', hq', h⟩
    obtain rfl := Double.finite.inj hq'
    exact h
  · exact fun h => ⟨q, rfl, h⟩

/-- The doubles that convert to 64 bits with a sign. -/
theorem inRange_i64_iff {d : Double} : Conversion.InRange ⟨.i64, d⟩ ↔ FitsI64 d := by
  cases d with
  | finite q =>
    rw [inRange_finite, IntType.Holds, Double.neg_pow_le_trunc, Double.trunc_lt_pow]
    exact Iff.rfl
  | inf neg => exact iff_of_false not_inRange_inf id
  | nan => exact iff_of_false not_inRange_nan id

theorem all_i64Conv {v : V} {k : String} :
    (∀ c ∈ i64Conv v k, c.InRange) ↔ FitsI64 (v.numOf k) := by
  rw [i64Conv, List.forall_mem_singleton]
  exact inRange_i64_iff

/-- When a counter is in range: one that is not positive is not converted. -/
theorem all_countConv {n : Double} : (∀ c ∈ countConv n, c.InRange) ↔ FitsBelow (2 ^ 64) n := by
  rw [countConv]
  cases n with
  | finite q =>
    by_cases hq : 0 < q
    · have hpos : (Double.finite q).isPos = true := decide_eq_true hq
      rw [if_pos hpos, List.forall_mem_singleton, inRange_finite, IntType.Holds,
        Double.trunc_lt_pow, and_iff_right (Double.trunc_nonneg_of_pos hq)]
      exact Iff.rfl
    · rw [if_neg (by rw [Double.isPos, decide_eq_true_eq]; exact hq)]
      refine iff_of_true (List.forall_mem_nil _) ?_
      exact (not_lt.1 hq).trans_lt (by norm_num)
  | inf neg => cases neg with
    | false =>
      have hpos : (Double.inf false).isPos = true := rfl
      rw [if_pos hpos, List.forall_mem_singleton]
      exact iff_of_false not_inRange_inf Bool.false_ne_true
    | true => exact iff_of_true (List.forall_mem_nil _) rfl
  | nan => exact iff_of_true (List.forall_mem_nil _) trivial

theorem all_uConv {v : V} {k : String} :
    (∀ c ∈ uConv v k, c.InRange) ↔ FitsBelow (2 ^ 64) (v.numOf k) :=
  all_countConv

/-- A count of 64 bits that is made one of 32. -/
theorem all_framesConv {v : V} {k : String} :
    ((∀ c ∈ uConv v k, c.InRange) ∧ Conversion.InRange ⟨.u32, .finite (v.u k)⟩) ↔
      FitsBelow (2 ^ 32) (v.numOf k) := by
  rw [all_uConv, inRange_finite, IntType.Holds, V.u]
  have hcast : ∀ n : ℕ, Double.trunc (n : ℚ) = n := fun n => by
    rw [← Int.cast_natCast, Double.trunc_intCast]
  rw [hcast]
  cases v.numOf k with
  | finite q =>
    by_cases hq : 0 < q
    · have hpos : (Double.finite q).isPos = true := decide_eq_true hq
      have hnonneg := Double.trunc_nonneg_of_pos hq
      rw [if_pos hpos, Double.toU64]
      change q < 2 ^ 64 ∧ _ ↔ q < 2 ^ 32
      rw [← Double.trunc_lt_pow, ← Double.trunc_lt_pow]
      split_ifs <;> omega
    · rw [if_neg (by rw [Double.isPos, decide_eq_true_eq]; exact hq)]
      have hle := not_lt.1 hq
      exact iff_of_true ⟨hle.trans_lt (by norm_num), by norm_num⟩ (hle.trans_lt (by norm_num))
  | inf neg => cases neg with
    | false => exact iff_of_false (fun h => Bool.false_ne_true h.1) Bool.false_ne_true
    | true => exact iff_of_true ⟨rfl, by norm_num [Double.isPos]⟩ rfl
  | nan => exact iff_of_true ⟨trivial, by norm_num [Double.isPos]⟩ trivial

/-- When a table of counts is in range. -/
theorem all_countmapConv {o : Option V} : (∀ c ∈ countmapConv o, c.InRange) ↔ CountsFit o := by
  rw [countmapConv, List.forall_mem_flatMap]
  constructor
  · exact fun h k n hn => all_countConv.1 (h (k, .num n) hn)
  · rintro h ⟨k, x⟩ hx
    cases x with
    | num n => exact all_countConv.2 (h k n hx)
    | _ => exact List.forall_mem_nil _

/-- When a set of frequencies is in range. -/
theorem all_freqsetConv {a : Option V} : (∀ c ∈ freqsetConv a, c.InRange) ↔
    ∀ n, V.num n ∈ (a.getD .null).elements → n.isPos → FitsI64 n := by
  rw [freqsetConv, List.forall_mem_flatMap]
  constructor
  · intro h n hn hpos
    have hc := h (.num n) hn
    dsimp only at hc
    rw [if_pos hpos, List.forall_mem_singleton] at hc
    exact inRange_i64_iff.1 hc
  · intro h x hx
    cases x with
    | num n =>
      dsimp only
      split_ifs with hpos
      · rw [List.forall_mem_singleton]
        exact inRange_i64_iff.2 (h n hx hpos)
      · exact List.forall_mem_nil _
    | _ => exact List.forall_mem_nil _

/-- When a track is in range: only what is a fix is converted. -/
theorem all_trackConv {a : Option V} : (∀ c ∈ trackConv a, c.InRange) ↔
    ∀ t pos, V.arr [.num t, .str pos] ∈ (a.getD .null).elements → FitsI64 t := by
  rw [trackConv, List.forall_mem_flatMap]
  constructor
  · intro h t pos ht
    have hc := h (.arr [.num t, .str pos]) ht
    dsimp only at hc
    rw [List.forall_mem_singleton] at hc
    exact inRange_i64_iff.1 hc
  · intro h x hx
    split
    · next t pos =>
      rw [List.forall_mem_singleton]
      exact inRange_i64_iff.2 (h t pos hx)
    · exact List.forall_mem_nil _

/-- When a table of records is in range. -/
theorem all_tableConv {conv : V → List Conversion} {Fits : V → Prop}
    (h : ∀ e, (∀ c ∈ conv e, c.InRange) ↔ Fits e) {id : String} {a : Option V} :
    (∀ c ∈ tableConv conv id a, c.InRange) ↔ TableFits Fits id a := by
  rw [tableConv, List.forall_mem_flatMap, TableFits]
  refine forall₂_congr fun e he => ?_
  split_ifs with hid
  · exact iff_of_true (List.forall_mem_nil _) fun hne => absurd hid hne
  · rw [h]
    exact ⟨fun hf _ => hf, fun hf => hf hid⟩

theorem all_networkConv (e : V) : (∀ c ∈ networkConv e, c.InRange) ↔ NetworkFits e := by
  rw [networkConv, List.forall_mem_append, List.forall_mem_append, List.forall_mem_append,
    List.forall_mem_append,
    List.forall_mem_append, all_freqsetConv, all_uConv, all_uConv, all_i64Conv, all_i64Conv,
    all_countmapConv]
  constructor
  · rintro ⟨hfreqs, hsessions, hcalls, hfirst, hlast, hkeys⟩
    exact ⟨hfreqs, by simp [hsessions, hcalls], by simp [hfirst, hlast], hkeys⟩
  · intro h
    exact ⟨h.freqs, h.counts _ (by simp), h.counts _ (by simp), h.times _ (by simp),
      h.times _ (by simp), h.keys⟩

theorem all_talkgroupConv (e : V) : (∀ c ∈ talkgroupConv e, c.InRange) ↔ TalkgroupFits e := by
  rw [talkgroupConv, List.forall_mem_append, List.forall_mem_append, List.forall_mem_append,
    List.forall_mem_append,
    List.forall_mem_append, List.forall_mem_append, all_countmapConv, all_uConv, all_uConv,
    all_uConv, all_countmapConv, all_i64Conv, all_i64Conv]
  constructor
  · rintro ⟨hradios, hcalls, hemerg, henc, hkeys, hfirst, hlast⟩
    exact ⟨by simp [hcalls, hemerg, henc], by simp [hfirst, hlast], by simp [hradios, hkeys]⟩
  · intro h
    exact ⟨h.tallies _ (by simp), h.counts _ (by simp), h.counts _ (by simp), h.counts _ (by simp),
      h.tallies _ (by simp), h.times _ (by simp), h.times _ (by simp)⟩

theorem all_radioConv (e : V) : (∀ c ∈ radioConv e, c.InRange) ↔ RadioFits e := by
  rw [radioConv, List.forall_mem_append, List.forall_mem_append, List.forall_mem_append,
    List.forall_mem_append,
    List.forall_mem_append, List.forall_mem_append, List.forall_mem_append, all_countmapConv,
    all_countmapConv,
    all_countmapConv, all_uConv, all_i64Conv, all_i64Conv, all_i64Conv, all_trackConv]
  constructor
  · rintro ⟨htgs, hpeers, hkeys, hcalls, hfirst, hlast, hpos, htrack⟩
    exact ⟨hcalls, by simp [hfirst, hlast, hpos], by simp [htgs, hpeers, hkeys], htrack⟩
  · intro h
    exact ⟨h.tallies _ (by simp), h.tallies _ (by simp), h.tallies _ (by simp), h.calls,
      h.times _ (by simp), h.times _ (by simp), h.times _ (by simp), h.track⟩

theorem all_callConv (e : V) : (∀ c ∈ callConv e, c.InRange) ↔ CallFits e := by
  rw [callConv, List.forall_mem_append, List.forall_mem_append, List.forall_mem_append,
    List.forall_mem_append,
    List.forall_mem_append, List.forall_mem_append, List.forall_mem_append, List.forall_mem_append,
    List.forall_mem_singleton, ← and_assoc (a := ∀ c ∈ uConv e "qn", c.InRange), all_framesConv,
    all_uConv, all_uConv, all_uConv, all_uConv, all_i64Conv, all_i64Conv, all_i64Conv]
  constructor
  · rintro ⟨hid, hsession, hstreams, haudio, hframes, hstart, hlast, hfreq⟩
    exact ⟨by simp [hid, hsession, hstreams, haudio], hframes, by simp [hstart, hlast, hfreq]⟩
  · intro h
    exact ⟨h.counts _ (by simp), h.counts _ (by simp), h.counts _ (by simp),
      h.counts _ (by simp), h.frames, h.times _ (by simp), h.times _ (by simp), h.times _ (by simp)⟩

/-- **When a family is in range.** -/
theorem all_familyConv (F : V) : (∀ c ∈ familyConv F, c.InRange) ↔ FamilyFits F := by
  rw [familyConv, List.forall_mem_append, List.forall_mem_append, List.forall_mem_append,
    all_tableConv all_networkConv,
    all_tableConv all_talkgroupConv, all_tableConv all_radioConv, List.forall_mem_flatMap]
  constructor
  · rintro ⟨hnetworks, htgs, hradios, hcalls⟩
    exact ⟨hnetworks, htgs, hradios, fun e he => (all_callConv e).1 (hcalls e he)⟩
  · intro h
    exact ⟨h.networks, h.tgs, h.radios, fun e he => (all_callConv e).2 (h.calls e he)⟩

/-- **Every conversion of an import is in range exactly when the numbers of the document fit.** -/
theorem conversions_inRange_iff (root : V) :
    (∀ c ∈ conversions root, c.InRange) ↔ DocumentFits root := by
  rw [conversions, List.forall_mem_append, List.forall_mem_append, List.forall_mem_append,
    all_i64Conv, all_i64Conv, List.forall_mem_flatMap, List.forall_mem_flatMap]
  constructor
  · rintro ⟨hexported, hnow, hfamilies, hsources⟩
    refine ⟨hexported, fun hzero => ?_, fun fk hfk hobj => ?_, fun e he => ?_⟩
    · rwa [if_neg (not_not.2 hzero)] at hnow
    · have hF := hfamilies fk hfk
      rw [if_pos hobj] at hF
      exact (all_familyConv fk.2).1 hF
    · have hS := hsources e he
      rw [sourceConv, List.forall_mem_append, all_i64Conv, all_i64Conv] at hS
      exact hS
  · intro h
    refine ⟨h.exported, ?_, fun fk hfk => ?_, fun e he => ?_⟩
    · split_ifs with hzero
      · exact h.exported
      · exact h.now (not_not.1 hzero)
    · split_ifs with hobj
      · exact (all_familyConv fk.2).2 (h.families fk hfk hobj)
      · exact List.forall_mem_nil _
    · rw [sourceConv, List.forall_mem_append, all_i64Conv, all_i64Conv]
      exact h.sources e he

/-- An accepted document that was exported at a time beyond 64 bits. -/
theorem conversions_out_of_range :
    ∃ (root : V) (d : Dataset), datasetFromExport root [] {} = .ok d ∧ ¬ ∀ c ∈ conversions root,
      c.InRange := by
  let root : V := .obj [(lit "families", .obj []), (lit "exported", .num (.finite (10 ^ 30)))]
  have hrefused : refused root = none := by decide +kernel
  refine ⟨root, _, by rw [datasetFromExport, hrefused], fun h => ?_⟩
  have hexported := ((conversions_inRange_iff root).1 h).exported
  exact absurd hexported.2 (by norm_num)

end DsdServer
