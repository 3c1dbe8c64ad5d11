import Mathlib.Algebra.Order.Archimedean.Basic
import Mathlib.Algebra.Order.Floor.Ring
import Mathlib.Data.Rat.Floor
import Mathlib.Tactic.Linarith

/-!
# Signal/Resampler — linear interpolation to the output rate, block by block

The position of the next output sample is kept in samples of the current block; index `-1` is the
last sample of the block before.  With a positive step the blocks make no difference:
`resampled_blocks`.

The position is a rational number here, and time is measured from the block that is being read.  To
go on to the next block is to subtract the length of this one, and the sample before it is carried
along.
-/

namespace Signal

/-! ## The loop

Every output lies between two samples, and the loop ends when the second is not in the block.  The
position is then moved back by the length of the block. -/

/-- Why a loop gives no result: it is still going on, or it read a sample that is not there. -/
inductive Stop
  | going
  | badRead
  deriving DecidableEq

/-- What is carried from block to block. -/
structure Resampler where
  pos : ℚ := 0
  prev : ℚ := 0
  deriving DecidableEq

/-- The sample at an index of the block; before the first one is the one carried over. -/
def sampleAt (prev : ℚ) (block : List ℚ) (i : ℤ) : Except Stop ℚ :=
  if i < 0 then if i = -1 then .ok prev else .error .badRead
  else match block[i.toNat]? with
    | some x => .ok x
    | none => .error .badRead

/-- The output samples from a position on, and where the loop stops, in so many turns. -/
def resampleLoop (step prev : ℚ) (block : List ℚ) : ℕ → ℚ → Except Stop (List ℚ × ℚ)
  | 0, _ => .error .going
  | fuel + 1, pos =>
    let i0 := ⌊pos⌋
    let i1 := i0 + 1
    if i1 ≥ block.length ∨ i0 < -1 then .ok ([], pos)
    else do
      let s0 ← sampleAt prev block i0
      let s1 ← sampleAt prev block i1
      let rest ← resampleLoop step prev block fuel (pos + step)
      return ((s0 + (s1 - s0) * (pos - i0)) :: rest.1, rest.2)

/-- **A block is resampled**: the position is rebased to the next one. -/
def resampleToOutput (step : ℚ) (fuel : ℕ) (s : Resampler) (block : List ℚ) :
    Except Stop (List ℚ × Resampler) := do
  let r ← resampleLoop step s.prev block fuel s.pos
  return (r.1, ⟨r.2 - block.length, block.getLast?.getD s.prev⟩)

/-- Blocks one after another. -/
def resampled (step : ℚ) (fuel : ℕ) : Resampler → List (List ℚ) → Except Stop (List ℚ × Resampler)
  | s, [] => .ok ([], s)
  | s, block :: blocks => do
    let r ← resampleToOutput step fuel s block
    let rest ← resampled step fuel r.2 blocks
    return (r.1 ++ rest.1, rest.2)

/-! ## Runs of the loop

The loop is a relation between the position it starts from and what it gives; a bound on its steps
is only needed to compute it. -/

section

variable {step prev pos last : ℚ} {block xs ys out out' : List ℚ} {i : ℤ}

/-- The loop is over: the next sample it needs has not come. -/
def Over (block : List ℚ) (pos : ℚ) : Prop := ⌊pos⌋ + 1 ≥ block.length ∨ ⌊pos⌋ < -1

/-- The loop runs from a position to its end, and gives these samples. -/
inductive Emits (step prev : ℚ) (block : List ℚ) : ℚ → List ℚ → ℚ → Prop
  | stop {pos : ℚ} (h : Over block pos) : Emits step prev block pos [] pos
  | next {pos s0 s1 last : ℚ} {out : List ℚ} (h : ¬Over block pos)
      (h0 : sampleAt prev block ⌊pos⌋ = .ok s0) (h1 : sampleAt prev block (⌊pos⌋ + 1) = .ok s1)
      (h2 : Emits step prev block (pos + step) out last) :
      Emits step prev block pos ((s0 + (s1 - s0) * (pos - ⌊pos⌋)) :: out) last

/-- A run takes some turns, and more do no harm. -/
theorem Emits.loop (h : Emits step prev block pos out last) :
    ∃ turns, ∀ fuel ≥ turns, resampleLoop step prev block fuel pos = .ok (out, last) := by
  induction h with
  | stop h =>
    refine ⟨1, fun fuel hf => ?_⟩
    obtain ⟨fuel, rfl⟩ := Nat.exists_eq_add_of_le' hf
    rw [resampleLoop]
    exact if_pos h
  | next h h0 h1 _ ih =>
    obtain ⟨turns, ih⟩ := ih
    refine ⟨turns + 1, fun fuel hf => ?_⟩
    obtain ⟨fuel, rfl⟩ := Nat.exists_eq_add_of_le' (Nat.le_of_add_left_le hf)
    rw [resampleLoop]
    refine (if_neg h).trans ?_
    rw [h0, h1, ih fuel (by omega)]
    rfl

/-! ## The samples read

A sample is read by an index, which may lie before the block by one.  Any other index outside would
be an error. -/

theorem sampleAt_neg_one (prev : ℚ) (block : List ℚ) : sampleAt prev block (-1) = .ok prev := by
  rw [sampleAt, if_pos (by decide), if_pos rfl]

theorem sampleAt_nat (prev : ℚ) (block : List ℚ) {n : ℕ} (hn : n < block.length) :
    sampleAt prev block n = .ok block[n] := by
  rw [sampleAt, if_neg (by omega), Int.toNat_natCast, List.getElem?_eq_getElem hn]

/-- **A sample is there** at every index from `-1` up to the block's last. -/
theorem sampleAt_ok (prev : ℚ) (block : List ℚ) (hi : -1 ≤ i) (hn : i < block.length) :
    ∃ x, sampleAt prev block i = .ok x := by
  obtain rfl | h0 : i = -1 ∨ 0 ≤ i := by omega
  · exact ⟨prev, sampleAt_neg_one prev block⟩
  · obtain ⟨n, rfl⟩ := Int.eq_ofNat_of_zero_le h0
    exact ⟨_, sampleAt_nat prev block (by omega)⟩

/-- A longer block has the same samples at its front. -/
theorem sampleAt_append_left (ys : List ℚ) (hi : -1 ≤ i) (hn : i < xs.length) :
    sampleAt prev (xs ++ ys) i = sampleAt prev xs i := by
  obtain rfl | h0 : i = -1 ∨ 0 ≤ i := by omega
  · rw [sampleAt_neg_one, sampleAt_neg_one]
  · obtain ⟨n, rfl⟩ := Int.eq_ofNat_of_zero_le h0
    have hx : n < xs.length := by omega
    rw [sampleAt_nat prev xs hx, sampleAt_nat prev (xs ++ ys) (by rw [List.length_append]; omega),
      List.getElem_append_left hx]

/-- **The sample carried over** is the last one before the block. -/
theorem sampleAt_append_right (prev : ℚ) (xs ys : List ℚ) (hi : (xs.length : ℤ) - 1 ≤ i) :
    sampleAt prev (xs ++ ys) i = sampleAt (xs.getLast?.getD prev) ys (i - xs.length) := by
  rcases List.eq_nil_or_concat' xs with rfl | ⟨l, x, rfl⟩
  · rw [List.nil_append, List.length_nil, Nat.cast_zero, sub_zero]
    rfl
  · have hlen : (l ++ [x]).length = l.length + 1 := by
      rw [List.length_append, List.length_singleton]
    rw [hlen] at hi ⊢
    push_cast at hi ⊢
    obtain ⟨n, rfl⟩ := Int.eq_ofNat_of_zero_le (by omega : 0 ≤ i)
    obtain hn | ⟨m, rfl⟩ : n = l.length ∨ ∃ m, n = l.length + 1 + m := by
      rcases Nat.lt_or_ge n (l.length + 1) with h | h
      · left
        omega
      · exact Or.inr ⟨n - (l.length + 1), by omega⟩
    · subst hn
      have hback : (l.length : ℤ) - (l.length + 1) = -1 := by omega
      rw [hback, sampleAt_neg_one, sampleAt_nat _ _ (by simp), List.getLast?_concat,
        Option.getD_some]
      simp
    · have hshift : ((l.length + 1 + m : ℕ) : ℤ) - (l.length + 1) = (m : ℕ) := by
        push_cast
        omega
      have hget : (l ++ [x] ++ ys)[l.length + 1 + m]? = ys[m]? := by
        rw [List.getElem?_append_right (by rw [hlen]; omega), hlen, Nat.add_sub_cancel_left]
      have h0 : ∀ n : ℕ, ¬(n : ℤ) < 0 := fun n => by omega
      rw [hshift, sampleAt, sampleAt, if_neg (h0 _), if_neg (h0 _), Int.toNat_natCast,
        Int.toNat_natCast, hget]

/-! ## A positive step gets through

Every step moves the position on, so the loop ends after as many steps as the block has room for. -/

/-- While the loop goes on both samples are there. -/
theorem not_over (h : ¬Over block pos) : -1 ≤ ⌊pos⌋ ∧ ⌊pos⌋ + 1 < block.length := by
  rw [Over, not_or, not_le, not_lt] at h
  exact ⟨h.2, h.1⟩

theorem over_iff (hpos : -1 ≤ pos) : Over block pos ↔ (block.length : ℤ) ≤ ⌊pos⌋ + 1 := by
  have hfloor : -1 ≤ ⌊pos⌋ := Int.le_floor.2 (by exact_mod_cast hpos)
  rw [Over]
  constructor
  · rintro (h | h)
    · exact h
    · omega
  · exact Or.inl

/-- **The loop ends** when its step is positive. -/
theorem exists_emits (prev : ℚ) (hs : 0 < step) (block : List ℚ) (pos : ℚ) :
    ∃ out last, Emits step prev block pos out last := by
  have h : ∀ (n : ℕ) (pos : ℚ), (block.length : ℚ) ≤ pos + n * step →
      ∃ out last, Emits step prev block pos out last := by
    intro n
    induction n with
    | zero =>
      intro pos hpos
      rw [Nat.cast_zero, zero_mul, add_zero] at hpos
      refine ⟨[], pos, .stop (Or.inl ?_)⟩
      have hfloor : (block.length : ℤ) ≤ ⌊pos⌋ := Int.le_floor.2 (by exact_mod_cast hpos)
      omega
    | succ n ih =>
      intro pos hpos
      by_cases hover : Over block pos
      · exact ⟨[], pos, .stop hover⟩
      · obtain ⟨hlo, hhi⟩ := not_over hover
        obtain ⟨s0, h0⟩ := sampleAt_ok prev block hlo (by omega)
        obtain ⟨s1, h1⟩ := sampleAt_ok prev block (by omega : -1 ≤ ⌊pos⌋ + 1) hhi
        obtain ⟨out, last, hrest⟩ := ih (pos + step) (by push_cast at hpos; linarith)
        exact ⟨_, last, .next hover h0 h1 hrest⟩
  obtain ⟨n, hn⟩ := exists_nat_ge ((block.length - pos) / step)
  refine h n pos ?_
  have hmul := (div_le_iff₀ hs).1 hn
  linarith

/-- **Where the loop ends**, the last sample of the block is the one to carry on. -/
theorem Emits.last_ge (h : Emits step prev block pos out last) (hs : 0 < step) (hpos : -1 ≤ pos) :
    (block.length : ℚ) - 1 ≤ last ∧ -1 ≤ last := by
  induction h with
  | @stop pos h =>
    have hover := (over_iff hpos).1 h
    have hfloor : ((block.length : ℤ) - 1 : ℤ) ≤ ⌊pos⌋ := by omega
    exact ⟨by exact_mod_cast Int.le_floor.1 hfloor, hpos⟩
  | next _ _ _ _ ih => exact ih (by linarith)

/-! ## Two blocks and one

What comes of two blocks is compared with what comes of both as one: the loop over the first stops
where the loop over both crosses into the second. -/

/-- Past the first of two lists, the loop runs as on the second. -/
theorem Emits.shift {n : ℤ} (hn : n = xs.length)
    (h : Emits step (xs.getLast?.getD prev) ys pos out last) (hs : 0 < step) (hpos : -1 ≤ pos) :
    Emits step prev (xs ++ ys) (pos + n) out (last + n) := by
  have hover : ∀ {pos : ℚ}, -1 ≤ pos → (Over (xs ++ ys) (pos + n) ↔ Over ys pos) := by
    intro pos hpos
    have hn0 : (0 : ℚ) ≤ n := by rw [hn]; exact_mod_cast Nat.zero_le _
    rw [over_iff hpos, over_iff (by linarith), Int.floor_add_intCast, List.length_append]
    push_cast
    omega
  induction h with
  | stop h => exact .stop ((hover hpos).2 h)
  | @next pos s0 s1 last out h h0 h1 _ ih =>
    obtain ⟨hlo, -⟩ := not_over h
    have hread : ∀ {i : ℤ}, -1 ≤ i →
        sampleAt prev (xs ++ ys) (i + n) = sampleAt (xs.getLast?.getD prev) ys i := by
      intro i hi
      rw [sampleAt_append_right prev xs ys (by omega), hn, add_sub_cancel_right]
    have hrest := ih (by linarith)
    rw [add_right_comm] at hrest
    have hnext := Emits.next (by rwa [hover hpos] : ¬Over (xs ++ ys) (pos + n))
      (by rw [Int.floor_add_intCast, hread hlo, h0])
      (by rw [Int.floor_add_intCast, add_right_comm, hread (by omega), h1]) hrest
    rwa [Int.floor_add_intCast, Int.cast_add, add_sub_add_right_eq_sub] at hnext

/-- **The loop goes on** in the second list where it stopped in the first. -/
theorem Emits.append {mid : ℚ} (h : Emits step prev xs pos out mid) (hs : 0 < step)
    (hpos : -1 ≤ pos) (h' : Emits step (xs.getLast?.getD prev) ys (mid - xs.length) out' last) :
    Emits step prev (xs ++ ys) pos (out ++ out') (last + xs.length) := by
  induction h with
  | @stop pos h =>
    have hover := (over_iff hpos).1 h
    have hfloor : ((xs.length : ℤ) - 1 : ℤ) ≤ ⌊pos⌋ := by omega
    have hge : (xs.length : ℚ) - 1 ≤ pos := by exact_mod_cast Int.le_floor.1 hfloor
    have hshift := h'.shift (n := xs.length) rfl hs (by linarith)
    rwa [Int.cast_natCast, sub_add_cancel] at hshift
  | @next pos s0 s1 mid out h h0 h1 _ ih =>
    obtain ⟨hlo, hhi⟩ := not_over h
    have hopen : ¬Over (xs ++ ys) pos := by
      rw [Over, List.length_append]
      push_cast
      omega
    exact .next hopen (by rw [sampleAt_append_left ys hlo (by omega), h0])
      (by rw [sampleAt_append_left ys (by omega) hhi, h1]) (ih (by linarith) h')

/-! ## Blocks

By induction, any way to cut a signal into blocks gives the same. -/

/-- **Blocks are resampled as their samples are**, in enough turns. -/
theorem resampled_eq (hs : 0 < step) : ∀ (blocks : List (List ℚ)) {s : Resampler}, -1 ≤ s.pos →
    ∃ out last, Emits step s.prev blocks.flatten s.pos out last ∧
      ∃ turns, ∀ fuel ≥ turns, resampled step fuel s blocks =
        .ok (out, ⟨last - blocks.flatten.length, blocks.flatten.getLast?.getD s.prev⟩) := by
  intro blocks
  induction blocks with
  | nil =>
    intro s hpos
    refine ⟨[], s.pos, .stop ((over_iff hpos).2 ?_), 0, fun fuel _ => ?_⟩
    · have hfloor : -1 ≤ ⌊s.pos⌋ := Int.le_floor.2 (by exact_mod_cast hpos)
      rw [List.flatten_nil, List.length_nil]
      push_cast
      omega
    · rw [resampled, List.flatten_nil, List.length_nil, Nat.cast_zero, sub_zero]
      rfl
  | cons block blocks ih =>
    intro s hpos
    obtain ⟨out, mid, h⟩ := exists_emits s.prev hs block s.pos
    obtain ⟨hmid, hmid'⟩ := h.last_ge hs hpos
    obtain ⟨turns, hloop⟩ := h.loop
    obtain ⟨out', last, h', turns', hrun⟩ := ih
      (s := ⟨mid - block.length, block.getLast?.getD s.prev⟩) (by dsimp only; linarith)
    refine ⟨out ++ out', last + block.length, h.append hs hpos h', max turns turns',
      fun fuel hf => ?_⟩
    have hblock : resampleToOutput step fuel s block =
        .ok (out, ⟨mid - block.length, block.getLast?.getD s.prev⟩) := by
      rw [resampleToOutput, hloop fuel (le_trans (le_max_left _ _) hf)]
      rfl
    have hlast : (block ++ blocks.flatten).getLast?.getD s.prev =
        blocks.flatten.getLast?.getD (block.getLast?.getD s.prev) := by
      rw [List.getLast?_append]
      cases blocks.flatten.getLast? <;> rfl
    have hrebase : last + (block.length : ℚ) - ((block ++ blocks.flatten).length : ℕ) =
        last - blocks.flatten.length := by
      rw [List.length_append]
      push_cast
      ring
    rw [resampled, hblock, List.flatten_cons, hlast, hrebase]
    change (do let rest ← resampled step fuel _ blocks; return (out ++ rest.1, rest.2)) = _
    rw [hrun fuel (le_trans (le_max_right _ _) hf)]
    rfl

/-- The loop gives one result. -/
theorem Emits.unique {out' : List ℚ} {last' : ℚ} (h : Emits step prev block pos out last)
    (h' : Emits step prev block pos out' last') : out = out' ∧ last = last' := by
  obtain ⟨turns, hloop⟩ := h.loop
  obtain ⟨turns', hloop'⟩ := h'.loop
  have heq := (hloop _ (le_max_left turns turns')).symm.trans (hloop' _ (le_max_right turns turns'))
  exact ⟨congrArg Prod.fst (Except.ok.inj heq), congrArg Prod.snd (Except.ok.inj heq)⟩

end

/-- **The blocks make no difference**: the samples come out as if they came whole, every read is in
the block or of the sample carried over, and the position carried on is at least `-1`. -/
theorem resampled_blocks (step : ℚ) (hs : 0 < step) (blocks : List (List ℚ)) :
    ∃ out s turns, -1 ≤ s.pos ∧ ∀ fuel ≥ turns, resampled step fuel {} blocks = .ok (out, s) ∧
      resampled step fuel {} [blocks.flatten] = .ok (out, s) := by
  have hinit : -1 ≤ ({} : Resampler).pos := by decide
  obtain ⟨out, last, h, turns, hrun⟩ := resampled_eq hs blocks hinit
  obtain ⟨out', last', h', turns', hrun'⟩ := resampled_eq hs [blocks.flatten] hinit
  have hflat : [blocks.flatten].flatten = blocks.flatten := List.append_nil _
  rw [hflat] at h' hrun'
  obtain ⟨rfl, rfl⟩ := h.unique h'
  refine ⟨out, _, max turns turns', ?_, fun fuel hf => ⟨hrun fuel (le_trans (le_max_left _ _) hf),
    hrun' fuel (le_trans (le_max_right _ _) hf)⟩⟩
  have hge := h.last_ge hs hinit
  dsimp only
  linarith

/-- Two samples for three, from a block of one, an empty one and a block of three. -/
theorem resampled_two_thirds : ∃ out s turns, -1 ≤ s.pos ∧ ∀ fuel ≥ turns,
    resampled (3 / 2) fuel {} [[1], [], [2, 4, 8]] = .ok (out, s) ∧
      resampled (3 / 2) fuel {} [[1, 2, 4, 8]] = .ok (out, s) :=
  resampled_blocks (3 / 2) (by norm_num) [[1], [], [2, 4, 8]]

end Signal
