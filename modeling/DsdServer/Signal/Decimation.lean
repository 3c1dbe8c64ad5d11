import Mathlib.Algebra.BigOperators.Group.List.Basic
import Mathlib.Algebra.Module.Defs
import Mathlib.Data.List.SplitLengths
import DsdServer.Data.Stride

/-!
# Signal/Decimation — filtering and thinning out, block by block

The discriminators filter the samples as they come and keep every `d`-th result.  The filter's
memory goes on from block to block in both.  The paging chain also carries where its grid stands;
the FM chain starts a grid of its own in each block: `fm_decimation_iff` says on which blocks that
is the same.

The mixer is off, and the arithmetic exact.

Convolution is treated by positions: the result at a position depends on the samples before it,
whichever blocks they came in.  So the filter is a function of the whole signal, and what is left to
compare are the positions that are kept.
-/

namespace Signal

open Stride

variable {K M : Type*} [Semiring K] [AddCommMonoid M] [Module K M]

/-! ## The stages

A stage filters the samples of its buffer, the history of the last block and the block, and keeps
every `d`-th result. -/

/-- A window of samples with the taps; the first tap goes with the oldest sample. -/
def accumulate (taps : List K) (window : List M) : M := (List.zipWith (· • ·) taps window).sum

/-- The filter's result at a position of the buffer. -/
def firAt (taps : List K) (buf : List M) (i : ℕ) : M :=
  accumulate taps ((buf.drop (i + 1 - taps.length)).take taps.length)

/-- **The FM chain's stage**: what it keeps of a block, and the samples it carries on. -/
def mixAndFilterDecimate (taps : List K) (d : ℕ) (history block : List M) : List M × List M :=
  let buf := history ++ block
  ((visit d buf.length history.length).1.map (firAt taps buf),
    buf.drop (buf.length - history.length))

/-- What the paging chain carries on. -/
structure PagerState (M : Type*) where
  history : List M
  /-- how far into the next block its grid goes on -/
  phase : ℕ := 0

/-- **The paging chain's stage.** -/
def pagerMixAndFilterDecimate (taps : List K) (d : ℕ) (s : PagerState M) (block : List M) :
    List M × PagerState M :=
  let buf := s.history ++ block
  let v := visit d buf.length (s.history.length + s.phase)
  (v.1.map (firAt taps buf), ⟨buf.drop (buf.length - s.history.length), v.2 - buf.length⟩)

/-- The filter's memory before the first sample. -/
def silence (taps : List K) : List M := List.replicate (taps.length - 1) 0

/-- What the FM chain keeps of the blocks. -/
def fmDecimated (taps : List K) (d : ℕ) : List M → List (List M) → List M
  | _, [] => []
  | history, block :: blocks =>
    let r := mixAndFilterDecimate taps d history block
    r.1 ++ fmDecimated taps d r.2 blocks

/-- What the paging chain keeps of the blocks. -/
def pagerDecimated (taps : List K) (d : ℕ) : PagerState M → List (List M) → List M
  | _, [] => []
  | s, block :: blocks =>
    let r := pagerMixAndFilterDecimate taps d s block
    r.1 ++ pagerDecimated taps d r.2 blocks

/-! ## What they are for

The filter is meant to run over the whole signal, and to be thinned out on one grid. -/

/-- The filtered sample of a global index, with silence before the first. -/
def filtered (taps : List K) (samples : List M) (g : ℕ) : M :=
  accumulate taps (((silence taps ++ samples).drop g).take taps.length)

/-- The filtered samples with the indices `0, d, 2d, …`. -/
def grid (taps : List K) (d : ℕ) (samples : List M) : List M :=
  (visit d samples.length 0).1.map (filtered taps samples)

/-- Every block that has samples starts at a multiple of the decimation. -/
def Aligned (d : ℕ) : ℕ → List ℕ → Prop
  | _, [] => True
  | o, n :: ns => (n = 0 ∨ d ∣ o) ∧ Aligned d (o + n) ns

instance decidableAligned (d : ℕ) : ∀ o ns, Decidable (Aligned d o ns)
  | _, [] => isTrue trivial
  | o, n :: ns => by
    have := decidableAligned d (o + n) ns
    exact inferInstanceAs (Decidable (_ ∧ _))

/-! ## The buffer is a window of the signal

Where the signal began with silence, history and block together are always a stretch of it, and the
history is just long enough for the taps. -/

section

variable {α : Type*} {hist o : ℕ} {z history block : List α} {blocks : List (List α)}

/-- The signal from `o` on: what the filter remembers, and the blocks to come. -/
structure Window (hist : ℕ) (z : List α) (o : ℕ) (history : List α) (blocks : List (List α)) :
    Prop where
  history : history = (z.drop o).take hist
  rest : z.drop (o + hist) = blocks.flatten
  length : o + hist + blocks.flatten.length = z.length

/-- The history is as long as it should be. -/
theorem Window.length_history (h : Window hist z o history blocks) : history.length = hist := by
  have hl := h.length
  rw [h.history, List.length_take, List.length_drop]
  omega

/-- History and block are a window of the signal. -/
theorem Window.buf (h : Window hist z o history (block :: blocks)) :
    history ++ block = (z.drop o).take (hist + block.length) := by
  rw [List.take_add, ← h.history, List.drop_drop, h.rest, List.flatten_cons, List.take_left]

/-- **After a block the window has moved on.** -/
theorem Window.next (h : Window hist z o history (block :: blocks)) :
    Window hist z (o + block.length)
      ((history ++ block).drop ((history ++ block).length - history.length))
      blocks := by
  have hl := h.length
  have hz := h.rest
  rw [List.flatten_cons] at hl hz
  rw [List.length_append] at hl
  constructor
  · rw [List.length_append, Nat.add_sub_cancel_left, h.buf, List.drop_take, List.drop_drop,
      Nat.add_sub_cancel_right]
  · have hcomm : o + block.length + hist = (o + hist) + block.length := by omega
    rw [hcomm, ← List.drop_drop, hz, List.drop_left]
  · omega

end

section

variable {taps : List K} {d o k : ℕ} {z history block : List M} {blocks : List (List M)}

/-- **What the filter reads in the buffer** it would read in the signal. -/
theorem Window.firAt (h : Window (taps.length - 1) z o history (block :: blocks)) (ht : taps ≠ [])
    (hk : k < block.length) :
    firAt taps (history ++ block) (history.length + k) = accumulate taps
      ((z.drop (o + k)).take taps.length) := by
  have hpos := List.length_pos_iff.2 ht
  have hfrom : taps.length - 1 + k + 1 - taps.length = k := by omega
  have hlen : min taps.length (taps.length - 1 + block.length - k) = taps.length := by omega
  rw [Signal.firAt, h.buf, h.length_history, hfrom, List.drop_take, List.drop_drop,
    List.take_take, hlen]

/-- A block's positions, in the buffer and in the signal. -/
theorem Window.kept (h : Window (taps.length - 1) z o history (block :: blocks)) (ht : taps ≠ [])
    (hd : 0 < d) (p : ℕ) :
    (visit d (history ++ block).length (history.length + p)).1.map
      (Signal.firAt taps (history ++ block)) =
      (visit d (o + block.length) (o + p)).1.map fun g =>
        accumulate taps ((z.drop g).take taps.length) := by
  rw [List.length_append, visit_shift hd, visit_shift hd, List.map_map, List.map_map]
  refine List.map_congr_left fun k hk => ?_
  exact h.firAt ht ((mem_visit hd p).1 hk).2.1

end

/-! ## The paging chain keeps one grid

The position of the next output is carried from block to block, so the grid goes on. -/

section

variable {taps : List K} {d o : ℕ} {z history block : List M} {blocks : List (List M)}

/-- **The paging chain's grid goes on** from where its phase puts it. -/
theorem pagerDecimated_eq (ht : taps ≠ []) (hd : 0 < d) :
    ∀ {blocks : List (List M)} {o : ℕ} {s : PagerState M},
    Window (taps.length - 1) z o s.history blocks → s.phase < d → pagerDecimated taps d s blocks =
      (visit d (o + blocks.flatten.length) (o + s.phase)).1.map fun g =>
        accumulate taps ((z.drop g).take taps.length) := by
  intro blocks
  induction blocks with
  | nil =>
    intro o s h hp
    rw [pagerDecimated, visit_of_le]
    · rfl
    · rw [List.flatten_nil, List.length_nil]
      omega
  | cons block blocks ih =>
    intro o s h hp
    have hstop := visit_stop (n := block.length) hd s.phase (by omega)
    have hshift := visit_shift (n := block.length) hd o s.phase
    have hphase : (visit d (s.history ++ block).length (s.history.length + s.phase)).2 -
        (s.history ++ block).length = (visit d block.length s.phase).2 - block.length := by
      rw [List.length_append, visit_shift hd]
      dsimp only
      omega
    have hrest := ih (s := ⟨_, (visit d block.length s.phase).2 - block.length⟩) h.next (by
      dsimp only
      omega)
    have hcut := visit_append hd (n := o + block.length) (m := o + (block ++ blocks.flatten).length)
      (by rw [List.length_append]; omega) (o + s.phase)
    rw [pagerDecimated, pagerMixAndFilterDecimate]
    dsimp only
    rw [hphase, hrest, h.kept ht hd, ← List.map_append, List.flatten_cons, hcut]
    have hfrom : o + block.length + ((visit d block.length s.phase).2 - block.length) =
        (visit d (o + block.length) (o + s.phase)).2 := by
      rw [hshift]
      dsimp only
      omega
    have hto : o + block.length + blocks.flatten.length = o + (block ++ blocks.flatten).length := by
      rw [List.length_append]
      omega
    rw [hfrom, hto]

omit [Semiring K] [Module K M] in
/-- The silence before the first block. -/
theorem window_start (taps : List K) (blocks : List (List M)) :
    Window (taps.length - 1) (silence taps ++ blocks.flatten) 0 (silence taps) blocks := by
  have hl : (silence taps : List M).length = taps.length - 1 := List.length_replicate
  constructor
  · rw [List.drop_zero, ← hl, List.take_left]
  · rw [Nat.zero_add, ← hl, List.drop_left]
  · rw [List.length_append, hl, Nat.zero_add]

/-- **The paging chain keeps the grid**, however the samples come. -/
theorem pagerDecimated_grid (ht : taps ≠ []) (hd : 0 < d) (blocks : List (List M)) :
    pagerDecimated taps d ⟨silence taps, 0⟩ blocks = grid taps d blocks.flatten := by
  rw [pagerDecimated_eq ht hd (window_start taps blocks) hd, Nat.zero_add]
  rfl

/-! ## The FM chain starts its grid anew

The grid begins with every block.  It is the same as one grid when the blocks begin on it, and an
impulse tells any other case from it. -/

/-- The indices that the FM chain keeps, of blocks of these lengths. -/
def fmKept (d : ℕ) : ℕ → List ℕ → List ℕ
  | _, [] => []
  | o, n :: ns => (visit d (o + n) o).1 ++ fmKept d (o + n) ns

/-- What the FM chain gives, block by block. -/
theorem fmDecimated_eq (ht : taps ≠ []) (hd : 0 < d) :
    ∀ {blocks : List (List M)} {o : ℕ} {history : List M},
    Window (taps.length - 1) z o history blocks → fmDecimated taps d history blocks =
      (fmKept d o (blocks.map List.length)).map fun g =>
        accumulate taps ((z.drop g).take taps.length) := by
  intro blocks
  induction blocks with
  | nil => exact fun _ => rfl
  | cons block blocks ih =>
    intro o history h
    have hkept := h.kept ht hd 0
    rw [Nat.add_zero, Nat.add_zero] at hkept
    rw [fmDecimated, mixAndFilterDecimate]
    dsimp only
    rw [hkept, ih h.next, ← List.map_append]
    rfl

/-- On aligned blocks the grids are one. -/
theorem fmKept_aligned (hd : 0 < d) :
    ∀ {ns : List ℕ} {o p : ℕ}, Aligned d o ns → p < d → d ∣ o + p →
    fmKept d o ns = (visit d (o + ns.sum) (o + p)).1 := by
  intro ns
  induction ns with
  | nil =>
    intro o p _ hp _
    rw [fmKept, visit_of_le (by rw [List.sum_nil]; omega)]
  | cons n ns ih =>
    intro o p ⟨hn, hns⟩ hp hop
    have hsame : (visit d (o + n) o).1 = (visit d (o + n) (o + p)).1 := by
      rcases hn with rfl | ho
      · rw [visit_of_le (by omega), visit_of_le (by omega)]
      · have hp0 : p = 0 := Nat.eq_zero_of_dvd_of_lt ((Nat.dvd_add_right ho).1 hop) hp
        rw [hp0, Nat.add_zero]
    have hstop := visit_stop (n := o + n) hd (o + p) (by omega)
    have hdvd : d ∣ o + n + ((visit d (o + n) (o + p)).2 - (o + n)) := by
      have hsum : o + n + ((visit d (o + n) (o + p)).2 - (o + n)) =
          ((visit d (o + n) (o + p)).2 - (o + p)) + (o + p) := by omega
      rw [hsum]
      exact Nat.dvd_add hstop.2.2.2 hop
    have hrest := ih hns (p := (visit d (o + n) (o + p)).2 - (o + n)) (by omega) hdvd
    have hfrom : o + n + ((visit d (o + n) (o + p)).2 - (o + n)) =
        (visit d (o + n) (o + p)).2 := by omega
    have hto : o + n + ns.sum = o + (n :: ns).sum := by
      rw [List.sum_cons]
      omega
    have hcut := visit_append hd (n := o + n) (m := o + (n :: ns).sum)
      (by rw [List.sum_cons]; omega) (o + p)
    rw [fmKept, hsame, hrest, hfrom, hto, hcut]

/-- Where blocks are not aligned, an index off the grid is kept. -/
theorem fmKept_off (hd : 0 < d) : ∀ {ns : List ℕ} {o : ℕ}, ¬Aligned d o ns →
    ∃ g ∈ fmKept d o ns, g < o + ns.sum ∧ ¬d ∣ g := by
  intro ns
  induction ns with
  | nil => exact fun h => absurd trivial h
  | cons n ns ih =>
    intro o h
    rw [List.sum_cons]
    by_cases hn : n = 0 ∨ d ∣ o
    · obtain ⟨g, hg, hlt, hdvd⟩ := ih fun hns => h ⟨hn, hns⟩
      exact ⟨g, List.mem_append_right _ hg, by omega, hdvd⟩
    · obtain ⟨hn, ho⟩ := not_or.1 hn
      refine ⟨o, List.mem_append_left _ ?_, by omega, ho⟩
      rw [mem_visit hd, Nat.sub_self]
      exact ⟨le_rfl, by omega, dvd_zero d⟩

end

/-- With the one tap, the filter passes the samples on. -/
theorem accumulate_one (z : List M) (g : ℕ) :
    accumulate [(1 : K)] ((z.drop g).take 1) = z.getD g 0 := by
  cases h : z.drop g with
  | nil =>
    have hle := List.drop_eq_nil_iff.1 h
    rw [List.getD_eq_getElem?_getD, List.getElem?_eq_none hle]
    rfl
  | cons x l =>
    have hx : z[g]? = some x := by rw [← List.head?_drop, h]; rfl
    rw [List.getD_eq_getElem?_getD, hx, accumulate]
    simp

/-- A signal that is silent but at `g`. -/
def impulse (n g : ℕ) (x : M) : List M := (List.replicate n 0).set g x

theorem length_impulse (n g : ℕ) (x : M) : (impulse n g x).length = n := by
  rw [impulse, List.length_set, List.length_replicate]

theorem getD_impulse {n g : ℕ} (hg : g < n) (x : M) (j : ℕ) :
    (impulse n g x).getD j 0 = if j = g then x else 0 := by
  have hset : g < (List.replicate n (0 : M)).length := by rwa [List.length_replicate]
  rw [impulse, List.getD_eq_getElem?_getD, List.getElem?_set, if_pos hset]
  by_cases hj : j = g
  · rw [if_pos hj, if_pos hj.symm]
    rfl
  · rw [if_neg hj, if_neg (Ne.symm hj), List.getElem?_replicate]
    split_ifs <;> rfl

/-- The tap of weight one keeps a signal as it is. -/
theorem filtered_one (z : List M) (j : ℕ) : filtered [(1 : K)] z j = z.getD j 0 :=
  accumulate_one z j

/-- **The FM chain keeps the grid, whatever the samples**, exactly when each block that has some
starts at a multiple of the decimation. -/
theorem fm_decimation_iff [Nontrivial M] (d : ℕ) (hd : 0 < d) (ns : List ℕ) :
    (∀ (taps : List K) (blocks : List (List M)), taps ≠ [] → blocks.map List.length = ns →
      fmDecimated taps d (silence taps) blocks = grid taps d blocks.flatten) ↔ Aligned d 0 ns := by
  constructor
  · intro h
    by_contra hno
    obtain ⟨g, hg, hlt, hdvd⟩ := fmKept_off hd hno
    rw [Nat.zero_add] at hlt
    obtain ⟨x, hx⟩ := exists_ne (0 : M)
    have hz : (impulse ns.sum g x).length = ns.sum := length_impulse _ _ _
    have hget := getD_impulse hlt x
    -- an impulse at `g`, in blocks of these lengths
    have hflat : (ns.splitLengths (impulse ns.sum g x)).flatten = impulse ns.sum g x :=
      List.flatten_splitLengths _ _ hz.le
    have hlens : (ns.splitLengths (impulse ns.sum g x)).map List.length = ns :=
      List.map_splitLengths_length _ _ hz.ge
    have heq := h [1] (ns.splitLengths (impulse ns.sum g x)) (List.cons_ne_nil _ _) hlens
    rw [fmDecimated_eq (List.cons_ne_nil _ _) hd (window_start _ _), hlens, grid, hflat] at heq
    have hmem : x ∈ (fmKept d 0 ns).map fun g' => filtered [(1 : K)] (impulse ns.sum g x) g' := by
      refine List.mem_map.2 ⟨g, hg, ?_⟩
      rw [filtered_one, hget, if_pos rfl]
    obtain ⟨j, hj, hjx⟩ := List.mem_map.1 (heq ▸ hmem)
    have hjd := ((mem_visit hd 0).1 hj).2.2
    rw [filtered_one, hget] at hjx
    split_ifs at hjx with hjg
    · exact hdvd (hjg ▸ hjd)
    · exact hx hjx.symm
  · rintro hal taps blocks ht rfl
    rw [fmDecimated_eq ht hd (window_start taps blocks),
      fmKept_aligned hd hal hd (dvd_zero d), grid, List.length_flatten, Nat.zero_add, Nat.add_zero]
    rfl

/-- Blocks of two and three samples, two kept of each pair. -/
theorem fm_decimation_even : (∀ (taps : List ℤ) (blocks : List (List ℤ)), taps ≠ [] →
    blocks.map List.length = [2, 3] →
      fmDecimated taps 2 (silence taps) blocks = grid taps 2 blocks.flatten) ↔ Aligned 2 0 [2, 3] :=
  fm_decimation_iff 2 (by decide) [2, 3]

/-- **Two blocks of one sample each**, of which the second starts off the grid. -/
theorem fm_decimation_odd :
    ¬∀ (taps : List ℤ) (blocks : List (List ℤ)), taps ≠ [] →
      fmDecimated taps 2 (silence taps) blocks = grid taps 2 blocks.flatten := by
  intro h
  have hodd := h [1] [[5], [7]] (by decide)
  have hgrid : grid [(1 : ℤ)] 2 [[5], [7]].flatten = [(5 : ℤ)] := by
    rw [grid, visit_of_lt (by decide) (by decide), visit_of_le (by decide)]
    rfl
  have hfm : fmDecimated [(1 : ℤ)] 2 (silence [(1 : ℤ)]) [[5], [7]] = [(5 : ℤ), 7] := by
    have hvisit : visit 2 1 0 = ([0], 2) := by
      rw [visit_of_lt (by decide) (by decide), visit_of_le (by decide)]
    simp only [fmDecimated, mixAndFilterDecimate, silence]
    change (visit 2 1 0).1.map _ ++ ((visit 2 1 0).1.map _ ++ []) = _
    rw [hvisit]
    rfl
  rw [hgrid, hfm] at hodd
  exact absurd hodd (by decide)

end Signal
