import Mathlib.Algebra.Order.Group.Nat
import DsdServer.Data.Source

/-!
# Tetra/Frontend — two candidates, one bitstream

The coherent front end runs two demodulators side by side, one for each parity of the symbol grid,
and holds their bits back until the burst synchronizer locks on one of them.  That one's bits are
then released and it goes on alone; without a lock within the acquisition limit a differential
demodulator takes over.  `frontend_conserves` says what comes out, whenever that happens.

The demodulators are streaming sources, and the synchronizer any function of the bits.
-/

namespace TetraFrontend

/-! ## The front end

While neither candidate has locked their bits are held back.  At the lock the winner's bits are
released; at the limit both are given up, and their bits with them. -/

/-- What the synchronizer says of some bits. -/
structure TetraLock where
  locked : Bool
  confirmations : ℕ

/-- The parity of the symbol grid. -/
inductive Parity
  | even
  | odd
  deriving DecidableEq

/-- The demodulators a front end makes, its synchronizer and its configuration. -/
structure Config (σ β : Type*) where
  demod : Source σ β Bool
  /-- a fresh coherent demodulator of a parity -/
  coherentDemod : Parity → σ
  /-- a fresh differential demodulator -/
  differentialDemod : σ
  synchronize : List Bool → TetraLock
  coherent : Bool := true
  coherentAcquireBits : ℕ := 510 * 12

variable {σ β : Type*}

/-- The front end's state; a demodulator that it no longer has is `none`. -/
structure TetraDemodFrontend (σ : Type*) where
  diff : Option σ := none
  cohA : Option σ := none
  cohB : Option σ := none
  winner : Option σ := none
  accA : List Bool := []
  accB : List Bool := []
  selected : Option Parity := none
  gaveUp : Bool := false

variable (c : Config σ β)

/-- A front end before its first block. -/
def fresh : TetraDemodFrontend σ :=
  if !c.coherent then { diff := some c.differentialDemod }
  else { cohA := some (c.coherentDemod .even), cohB := some (c.coherentDemod .odd) }

/-- The grid that a lock on one of them selects, the better confirmed one of two. -/
def win (la lb : TetraLock) : Parity :=
  if lb.locked && (!la.locked || lb.confirmations > la.confirmations) then .odd else .even

/-- The candidates' bits of a block, and what is released. -/
def acquire (f : TetraDemodFrontend σ) (a b : List Bool) (finalizing : Bool) :
    List Bool × TetraDemodFrontend σ :=
  let f := { f with accA := f.accA ++ a, accB := f.accB ++ b }
  let la := c.synchronize f.accA
  let lb := c.synchronize f.accB
  if la.locked || lb.locked then
    let w := win la lb
    (if w = .even then f.accA else f.accB,
      { f with
        selected := some w, winner := if w = .even then f.cohA else f.cohB
        cohA := none, cohB := none, accA := [], accB := [] })
  else if finalizing then (f.accA, { f with accA := [], accB := [] })
  else if f.accA.length ≥ c.coherentAcquireBits then
    ([], { f with
      gaveUp := true, cohA := none, cohB := none, accA := [], accB := []
      diff := some c.differentialDemod })
  else ([], f)

/-- A block of samples; there is no result from a demodulator that is not there. -/
def demodulate (f : TetraDemodFrontend σ) (iq : β) : Option (List Bool × TetraDemodFrontend σ) :=
  if !c.coherent then f.diff.map fun s =>
    ((c.demod.step s iq).2, { f with diff := some (c.demod.step s iq).1 })
  else if f.selected.isSome then
    f.winner.map fun s => ((c.demod.step s iq).2, { f with winner := some (c.demod.step s iq).1 })
  else if f.gaveUp then
    f.diff.map fun s => ((c.demod.step s iq).2, { f with diff := some (c.demod.step s iq).1 })
  else f.cohA.bind fun a => f.cohB.map fun b =>
    acquire c { f with cohA := some (c.demod.step a iq).1, cohB := some (c.demod.step b iq).1 }
      (c.demod.step a iq).2 (c.demod.step b iq).2 false

/-- The end of the stream. -/
def flush (f : TetraDemodFrontend σ) : Option (List Bool) :=
  if !c.coherent then f.diff.map c.demod.flush
  else if f.selected.isSome then f.winner.map c.demod.flush
  else if f.gaveUp then f.diff.map c.demod.flush
  else f.cohA.bind fun a => f.cohB.map fun b =>
    (acquire c f (c.demod.flush a) (c.demod.flush b) true).1

/-- All that comes out for some blocks and the flush after them. -/
def emitted (f : TetraDemodFrontend σ) : List β → Option (List Bool)
  | [] => flush c f
  | iq :: rest => (demodulate c f iq).bind fun r => (emitted r.2 rest).map (r.1 ++ ·)

/-! ## What it is for

What comes out should be what one demodulator gives: the one that locked, from the beginning, or the
differential one, from where the two were given up. -/

/-- A candidate's bits of some blocks. -/
def candidate (w : Parity) (p : List β) : List Bool := c.demod.output (c.coherentDemod w) p

/-- How an acquisition ends. -/
inductive Verdict
  | lock (w : Parity)
  | giveUp
  deriving DecidableEq

/-- The parity that the synchronizer locks on, given the bits of both candidates. -/
def lockOn (a b : List Bool) : Option Parity :=
  let la := c.synchronize a
  let lb := c.synchronize b
  if la.locked || lb.locked then some (win la lb) else none

/-- Does the acquisition end with these blocks, and how? -/
def verdict (p : List β) : Option Verdict :=
  match lockOn c (candidate c .even p) (candidate c .odd p) with
  | some w => some (.lock w)
  | none => if (candidate c .even p).length ≥ c.coherentAcquireBits then some .giveUp else none

/-- The first block at which the acquisition ends is the `k`-th. -/
def EndsAt (blocks : List β) (k : ℕ) (v : Verdict) : Prop :=
  1 ≤ k ∧ k ≤ blocks.length ∧ verdict c (blocks.take k) = some v ∧
    ∀ j, 1 ≤ j → j < k → verdict c (blocks.take j) = none

/-! ## The three states

The front end is acquiring, has locked, or has given up; the last two are for good. -/

/-- Acquiring, after some blocks. -/
def acquiring (p : List β) : TetraDemodFrontend σ where
  cohA := some (c.demod.after (c.coherentDemod .even) p)
  cohB := some (c.demod.after (c.coherentDemod .odd) p)
  accA := candidate c .even p
  accB := candidate c .odd p

/-- A front end that has locked. -/
def locked (w : Parity) (s : σ) : TetraDemodFrontend σ := { winner := some s, selected := some w }

/-- A front end that has given up. -/
def fellBack (s : σ) : TetraDemodFrontend σ := { diff := some s, gaveUp := true }

variable {c} (hc : c.coherent = true)

include hc

/-- After the lock the winner goes on alone. -/
theorem emitted_locked (w : Parity) : ∀ (bs : List β) (s : σ),
    emitted c (locked w s) bs = some (c.demod.complete s bs) := by
  intro bs
  induction bs with
  | nil =>
    intro s
    rw [emitted, flush, hc]
    rfl
  | cons iq bs ih =>
    intro s
    have hstep : demodulate c (locked w s) iq = some ((c.demod.step s iq).2,
        locked w (c.demod.step s iq).1) := by
      rw [demodulate, hc]
      rfl
    rw [emitted, hstep, Source.complete_cons]
    simp only [Option.bind_some, ih]
    rfl

/-- After giving up the differential demodulator goes on alone. -/
theorem emitted_fellBack : ∀ (bs : List β) (s : σ),
    emitted c (fellBack s) bs = some (c.demod.complete s bs) := by
  intro bs
  induction bs with
  | nil =>
    intro s
    rw [emitted, flush, hc]
    rfl
  | cons iq bs ih =>
    intro s
    have hstep : demodulate c (fellBack s) iq = some ((c.demod.step s iq).2,
        fellBack (c.demod.step s iq).1) := by
      rw [demodulate, hc]
      rfl
    rw [emitted, hstep, Source.complete_cons]
    simp only [Option.bind_some, ih]
    rfl

/-- **A block while acquiring** ends the acquisition or not, as the candidates' bits so far say. -/
theorem demodulate_acquiring (p : List β) (iq : β) :
    demodulate c (acquiring c p) iq = some (match verdict c (p ++ [iq]) with
      | some (.lock w) => (candidate c w (p ++ [iq]),
          locked w (c.demod.after (c.coherentDemod w) (p ++ [iq])))
      | some .giveUp => ([], fellBack c.differentialDemod)
      | none => ([], acquiring c (p ++ [iq]))) := by
  have hcand : ∀ w, candidate c w (p ++ [iq]) =
      candidate c w p ++ (c.demod.step (c.demod.after (c.coherentDemod w) p) iq).2 :=
    fun w => Source.output_concat _ _ _ _
  have hafter : ∀ w, c.demod.after (c.coherentDemod w) (p ++ [iq]) =
      (c.demod.step (c.demod.after (c.coherentDemod w) p) iq).1 :=
        fun w => Source.after_concat _ _ _ _
  rw [demodulate, hc]
  simp only [acquiring, acquire, Bool.not_true, Bool.false_eq_true, if_false, Option.isSome_none,
    Option.bind_some, Option.map_some, verdict, lockOn, ← hcand, ← hafter]
  cases hw : win (c.synchronize (candidate c .even (p ++ [iq])))
    (c.synchronize (candidate c .odd (p ++ [iq])))
  all_goals
    split_ifs <;> simp_all [locked, fellBack]

/-- **The flush while acquiring** releases the candidate that locks on all its bits, or else the
first. -/
theorem flush_acquiring (p : List β) : flush c (acquiring c p) =
    some (c.demod.complete (c.coherentDemod ((lockOn c (c.demod.complete (c.coherentDemod .even) p)
      (c.demod.complete (c.coherentDemod .odd) p)).getD .even)) p) := by
  have hcomp : ∀ w, c.demod.complete (c.coherentDemod w) p =
      c.demod.output (c.coherentDemod w) p ++ c.demod.flush (c.demod.after (c.coherentDemod w) p) :=
        fun _ => rfl
  rw [flush, hc]
  simp only [acquiring, acquire, candidate, Bool.not_true, Bool.false_eq_true, if_false,
    Option.isSome_none, Option.bind_some, Option.map_some, lockOn, ← hcomp]
  cases hw : win (c.synchronize (c.demod.complete (c.coherentDemod .even) p))
      (c.synchronize (c.demod.complete (c.coherentDemod .odd) p))
  all_goals
    split_ifs <;> simp_all

/-- The acquisition after `p` ends first at the `k`-th block of the rest. -/
def EndsAfter (c : Config σ β) (p bs : List β) (k : ℕ) (v : Verdict) : Prop :=
  1 ≤ k ∧ k ≤ bs.length ∧ verdict c (p ++ bs.take k) = some v ∧
    ∀ j, 1 ≤ j → j < k → verdict c (p ++ bs.take j) = none

omit hc in
/-- It ends at the next block, or later. -/
theorem EndsAfter.cases {p bs : List β} {iq : β} {k : ℕ} {v : Verdict}
    (h : EndsAfter c p (iq :: bs) k v) :
    (k = 1 ∧ verdict c (p ++ [iq]) = some v) ∨
      ∃ k', k = k' + 1 ∧ verdict c (p ++ [iq]) = none ∧ EndsAfter c (p ++ [iq]) bs k' v := by
  obtain ⟨h1, hk, hv, hno⟩ := h
  obtain ⟨k, rfl⟩ := Nat.exists_eq_add_of_le' h1
  rcases Nat.eq_zero_or_pos k with rfl | hpos
  · exact Or.inl ⟨rfl, hv⟩
  · refine Or.inr ⟨k, rfl, hno 1 le_rfl (by omega), hpos, Nat.le_of_succ_le_succ hk, ?_,
      fun j hj hjk => ?_⟩
    · rwa [List.append_assoc]
    · have hprev := hno (j + 1) (by omega) (by omega)
      rwa [List.take_succ_cons, List.append_cons] at hprev

/-- What comes out from the middle of an acquisition that a lock ends. -/
theorem emitted_lock {w : Parity} :
    ∀ (bs : List β) {p : List β} {k : ℕ}, EndsAfter c p bs k (.lock w) →
    emitted c (acquiring c p) bs = some (c.demod.complete (c.coherentDemod w) (p ++ bs)) := by
  intro bs
  induction bs with
  | nil => exact fun h => absurd (h.1.trans h.2.1) (by simp)
  | cons iq bs ih =>
    intro p k h
    rw [List.append_cons, emitted, demodulate_acquiring hc]
    rcases h.cases with ⟨-, hv⟩ | ⟨k, -, hv, hrest⟩
    · rw [hv, Source.complete_append]
      simp only [Option.bind_some, emitted_locked hc]
      rfl
    · rw [hv]
      simp only [Option.bind_some, ih hrest]
      rfl

/-- …and that ends at the limit. -/
theorem emitted_giveUp : ∀ (bs : List β) {p : List β} {k : ℕ}, EndsAfter c p bs k .giveUp →
    emitted c (acquiring c p) bs = some (c.demod.complete c.differentialDemod (bs.drop k)) := by
  intro bs
  induction bs with
  | nil => exact fun h => absurd (h.1.trans h.2.1) (by simp)
  | cons iq bs ih =>
    intro p k h
    rw [emitted, demodulate_acquiring hc]
    rcases h.cases with ⟨rfl, hv⟩ | ⟨k, rfl, hv, hrest⟩
    · rw [hv]
      simp only [Option.bind_some, emitted_fellBack hc]
      rfl
    · rw [hv]
      simp only [Option.bind_some, ih hrest]
      rfl

/-- …and that goes on until the flush. -/
theorem emitted_open : ∀ (bs : List β) {p : List β},
    (∀ j, 1 ≤ j → j ≤ bs.length → verdict c (p ++ bs.take j) = none) →
    emitted c (acquiring c p) bs = flush c (acquiring c (p ++ bs)) := by
  intro bs
  induction bs with
  | nil =>
    intro p _
    rw [emitted, List.append_nil]
  | cons iq bs ih =>
    intro p h
    have hnext : verdict c (p ++ [iq]) = none := h 1 le_rfl (by simp)
    have hrest := ih (p := p ++ [iq]) fun j hj hjl => by
      have hj' := h (j + 1) (by omega) (Nat.succ_le_succ hjl)
      rwa [List.take_succ_cons, List.append_cons] at hj'
    rw [emitted, demodulate_acquiring hc, hnext]
    simp only [Option.bind_some, hrest, ← List.append_cons, flush_acquiring hc]
    rfl

/-- **The front end conserves the bits**: all of the candidate that locks, or those of a fresh
differential demodulator from where the acquisition was given up, or all of the first candidate. -/
theorem frontend_conserves (blocks : List β) :
    (∀ k w, EndsAt c blocks k (.lock w) →
      emitted c (fresh c) blocks = some (c.demod.complete (c.coherentDemod w) blocks)) ∧
    (∀ k, EndsAt c blocks k .giveUp →
      emitted c (fresh c) blocks = some (c.demod.complete c.differentialDemod (blocks.drop k))) ∧
    ((¬∃ k v, EndsAt c blocks k v) → emitted c (fresh c) blocks =
      some (c.demod.complete
        (c.coherentDemod ((lockOn c (c.demod.complete (c.coherentDemod .even) blocks)
        (c.demod.complete (c.coherentDemod .odd) blocks)).getD .even)) blocks)) := by
  have hfresh : fresh c = acquiring c [] := by
    rw [fresh, hc]
    rfl
  rw [hfresh]
  refine ⟨fun k w h => emitted_lock hc blocks (p := []) h,
    fun k h => emitted_giveUp hc blocks (p := []) h, fun hno => ?_⟩
  have hopen : ∀ j, 1 ≤ j → j ≤ blocks.length → verdict c (blocks.take j) = none := by
    intro j
    induction j using Nat.strongRecOn with
    | ind j ih =>
      intro h1 hj
      cases hv : verdict c (blocks.take j) with
      | none => rfl
      | some v => exact absurd ⟨j, v, h1, hj, hv, fun i hi hij => ih i hij hi (by omega)⟩ hno
  rw [emitted_open hc blocks (p := []) hopen, List.nil_append, flush_acquiring hc]

omit hc

/-- Demodulators that pass bits on, the odd one inverted, and a synchronizer that locks on two set
bits. -/
def passing (limit : ℕ) : Config Bool Bool where
  demod := ⟨fun s b => (s, [xor s b]), fun s => [s]⟩
  coherentDemod := fun w => w = .odd
  differentialDemod := false
  synchronize := fun bits => ⟨bits.count true ≥ 2, bits.count true⟩
  coherentAcquireBits := limit

/-- A lock at the second block, the limit reached there, and a flush before either. -/
theorem passing_conserves :
    emitted (passing 9) (fresh (passing 9)) [true, true, false] = some [true, true, false, false] ∧
      emitted (passing 2) (fresh (passing 2)) [true, false, true] = some [true, false] ∧
      emitted (passing 9) (fresh (passing 9)) [true] = some [true, false] :=
  ⟨(frontend_conserves (c := passing 9) rfl [true, true, false]).1 2 .even
      ⟨by decide, by decide, by decide, fun j h1 h2 => by
        obtain rfl : j = 1 := by omega
        decide⟩,
    (frontend_conserves (c := passing 2) rfl [true, false, true]).2.1 2
      ⟨by decide, by decide, by decide, fun j h1 h2 => by
        obtain rfl : j = 1 := by omega
        decide⟩,
    (frontend_conserves (c := passing 9) rfl [true]).2.2 fun h => by
      obtain ⟨k, v, h1, h2, h3, -⟩ := h
      obtain rfl : k = 1 := Nat.le_antisymm h2 h1
      have hv : verdict (passing 9) [true] = none := by decide
      exact absurd (hv.symm.trans h3) (Option.some_ne_none v).symm⟩

end TetraFrontend
