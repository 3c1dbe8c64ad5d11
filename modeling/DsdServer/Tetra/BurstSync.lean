import Mathlib.Data.List.Range
import Mathlib.Tactic.Ring
import DsdServer.Data.Bytes

/-!
# Tetra/BurstSync — training sequences and the burst grid

The training sequences are looked for at every bit, within a Hamming distance each, and the bursts
they imply vote for one phase of the slot length.  `mem_findAll` — **a position matches the one
sequence that is within its tolerance**, as the sequences are further from each other than the
tolerances of two; `downlink_locks` — **a run of bursts locks**, wherever it begins and whatever is
around it.

Both results rest on one property of the sequences, that any two of them are far apart, and it is
checked by computing.  The votes are counted by phase: noise may match a sequence anywhere, but a
run of bursts votes again and again for one phase.
-/

namespace DsdServer

/-- Bits of a TDMA slot. -/
def kTetraBitsPerTs : ℕ := 510

/-- The kinds of training sequences. -/
inductive TetraTrain
  | norm1
  | norm2
  | sync
  | ext
  deriving DecidableEq

/-- A detection. -/
structure TrainMatch where
  pos : ℕ
  type : TetraTrain
  errors : ℤ
  burstStart : ℤ
  hasBurstStart : Bool
  deriving DecidableEq

/-- How many errors are tolerated in each, and how many votes lock. -/
structure TetraSyncConfig where
  maxErrorsSync : ℤ := 4
  maxErrorsNorm : ℤ := 2
  maxErrorsExt : ℤ := 3
  minConfirmations : ℤ := 3
  deriving DecidableEq

/-- What the synchronizer says. -/
structure TetraLock where
  locked : Bool := false
  phase : ℕ := 0
  confirmations : ℕ := 0
  deriving DecidableEq

namespace TetraBurstSync

/-! ## The sequences

The sequences are given bit by bit, each with its place in a burst.  The extended one has no place,
and does not say where its burst began. -/

/-- The first normal training sequence. -/
def nBits : List ℕ := [1, 1, 0, 1, 0, 0, 0, 0, 1, 1, 1, 0, 1, 0, 0, 1, 1, 1, 0, 1, 0, 0]

/-- The second normal training sequence. -/
def pBits : List ℕ := [0, 1, 1, 1, 1, 0, 1, 0, 0, 1, 0, 0, 0, 0, 1, 1, 0, 1, 1, 1, 1, 0]

/-- The synchronization training sequence. -/
def yBits : List ℕ :=
  [1, 1, 0, 0, 0, 0, 0, 1, 1, 0, 0, 1, 1, 1, 0, 0, 1, 1, 1, 0, 1, 0, 0, 1, 1, 1, 0, 0, 0, 0, 0, 1,
    1, 0, 0, 1, 1, 1]

/-- The extended training sequence. -/
def xBits : List ℕ :=
  [1, 0, 0, 1, 1, 1, 0, 1, 0, 0, 0, 0, 1, 1, 1, 0, 1, 0, 0, 1, 1, 1, 0, 1, 0, 0, 0, 0, 1, 1]

/-- A sequence, its place in the burst (-1 if unknown) and its tolerance. -/
structure SeqDef where
  bits : List ℕ
  type : TetraTrain
  offset : ℤ
  maxErr : ℤ
  deriving DecidableEq

/-- Where the sequence stands in a synchronization burst. -/
def kOffsetSync : ℤ := 214
/-- Where the sequence stands in a normal burst. -/
def kOffsetNorm : ℤ := 244

/-- The sequences that are looked for. -/
def defs (cfg : TetraSyncConfig) : List SeqDef :=
  [⟨yBits, .sync, kOffsetSync, cfg.maxErrorsSync⟩, ⟨nBits, .norm1, kOffsetNorm, cfg.maxErrorsNorm⟩,
    ⟨pBits, .norm2, kOffsetNorm, cfg.maxErrorsNorm⟩, ⟨xBits, .ext, -1, cfg.maxErrorsExt⟩]

/-! ## Finding them

Every position is compared with every sequence, and the best one within its tolerance is reported.
-/

/-- **The Hamming distance** of a template from a stream, no further than past the limit. -/
def hamming (limit : ℤ) : ℤ → List ℕ → List ℕ → ℤ
  | e, s :: stream, t :: templ =>
    if s = t then hamming limit e stream templ
    else if limit < e + 1 then e + 1 else hamming limit (e + 1) stream templ
  | e, _, _ => e

/-- A sequence tried at a bit, against the best one so far. -/
def tryDef (bits : List ℕ) (i : ℕ) (best : Option (SeqDef × ℤ)) (d : SeqDef) :
    Option (SeqDef × ℤ) :=
  if bits.length < i + d.bits.length then best
  else
    let e := hamming d.maxErr 0 (bits.drop i) d.bits
    if e ≤ d.maxErr ∧ ∀ b ∈ best, e < b.2 then some (d, e) else best

/-- The sequence with the fewest errors that starts at a bit. -/
def bestAt (cfg : TetraSyncConfig) (bits : List ℕ) (i : ℕ) : Option (SeqDef × ℤ) :=
  (defs cfg).foldl (tryDef bits i) none

/-- What is told of a match. -/
def report (i : ℕ) (d : SeqDef) (e : ℤ) : TrainMatch where
  pos := i
  type := d.type
  errors := e
  burstStart := if 0 ≤ d.offset then i - d.offset else -2 ^ 63
  hasBurstStart := decide (0 ≤ d.offset)

/-- **Every match in the stream**, in order. -/
def findAll (cfg : TetraSyncConfig) (bits : List ℕ) : List TrainMatch :=
  (List.range bits.length).filterMap fun i => (bestAt cfg bits i).map fun b => report i b.1 b.2

/-! ## Voting for a phase

Bursts come every 510 bits, so the place of a burst modulo that is the same for all.  The phase with
the most votes wins, the first of them when there are several. -/

/-- The phase of a burst in the grid. -/
def phase (m : TrainMatch) : ℕ :=
  let ph := m.burstStart.tmod kTetraBitsPerTs
  (if ph < 0 then ph + kTetraBitsPerTs else ph).toNat

/-- A match votes for the phase of its burst. -/
def vote (votes : ℕ → ℕ) (m : TrainMatch) : ℕ → ℕ :=
  if m.hasBurstStart then Function.update votes (phase m) (votes (phase m) + 1) else votes

/-- The votes of all matches. -/
def votes (found : List TrainMatch) : ℕ → ℕ := found.foldl vote fun _ => 0

/-- **The dominant grid**: the phase of most bursts, the first of them. -/
def findLock (cfg : TetraSyncConfig) (found : List TrainMatch) : TetraLock :=
  let v := votes found
  let lock := (List.range kTetraBitsPerTs).foldl (fun lock ph =>
    if lock.confirmations < v ph then { lock with confirmations := v ph, phase := ph } else lock)
      ({} : TetraLock)
  { lock with locked := decide (cfg.minConfirmations ≤ lock.confirmations) }

/-- **Where the bursts are**, if enough of them agree. -/
def synchronize (cfg : TetraSyncConfig) (bits : List ℕ) : TetraLock :=
  findLock cfg (findAll cfg bits)

/-! ## Distances

A distance counts the bits that differ, over the length of the sequence.  It is a metric on
sequences of one length. -/

/-- In how many places a stream and a template differ. -/
def dist (s t : List ℕ) : ℕ := (s.zip t).countP fun p => p.1 ≠ p.2

theorem dist_cons (a b : ℕ) (s t : List ℕ) :
    dist (a :: s) (b :: t) = dist s t + if a = b then 0 else 1 := by
  rw [dist, List.zip_cons_cons, List.countP_cons, dist]
  by_cases h : a = b <;> simp [h]

/-- **What is within the limit is the distance.** -/
theorem hamming_spec (limit : ℤ) : ∀ (s t : List ℕ) (e : ℤ),
    (hamming limit e s t ≤ limit ↔ e + dist s t ≤ limit) ∧
      (hamming limit e s t ≤ limit → hamming limit e s t = e + dist s t)
  | [], t, e => by simp [hamming, dist]
  | _ :: _, [], e => by simp [hamming, dist]
  | a :: s, b :: t, e => by
    obtain ⟨h, h'⟩ := hamming_spec limit s t e
    obtain ⟨g, g'⟩ := hamming_spec limit s t (e + 1)
    rw [hamming, dist_cons]
    by_cases hab : a = b
    · rw [if_pos hab, if_pos hab, add_zero]
      exact ⟨h, h'⟩
    · rw [if_neg hab, if_neg hab]
      push_cast
      by_cases hlim : limit < e + 1
      · rw [if_pos hlim]
        omega
      · rw [if_neg hlim]
        refine ⟨g.trans (by omega), fun hle => ?_⟩
        have := g' hle
        omega

/-- Two templates differ in no more places than a stream does from both. -/
theorem dist_triangle : ∀ (s t u : List ℕ), t.length ≤ s.length → u.length ≤ s.length →
    dist t u ≤ dist s t + dist s u
  | _, [], _, _, _ => by simp [dist]
  | _, _ :: _, [], _, _ => by simp [dist]
  | [], _ :: _, _ :: _, h, _ => absurd h (by simp)
  | a :: s, b :: t, c :: u, ht, hu => by
    have := dist_triangle s t u (Nat.le_of_succ_le_succ ht) (Nat.le_of_succ_le_succ hu)
    rw [dist_cons, dist_cons, dist_cons]
    split_ifs <;> omega

/-! ## One sequence at a bit

If two sequences were within their tolerances at one bit, their distance would be no more than both
tolerances together.  They are further apart than that. -/

/-- The sequence is at a bit, within its tolerance. -/
def At (bits : List ℕ) (i : ℕ) (d : SeqDef) : Prop :=
  i + d.bits.length ≤ bits.length ∧ (dist (bits.drop i) d.bits : ℤ) ≤ d.maxErr

instance (bits : List ℕ) (i : ℕ) : DecidablePred (At bits i) :=
  fun _ => inferInstanceAs (Decidable (_ ∧ _))

/-- Two sequences are further apart than both tolerances. -/
def Apart (d d' : SeqDef) : Prop := d.maxErr + d'.maxErr < (dist d.bits d'.bits : ℤ)

instance : DecidableRel Apart := fun _ _ => inferInstanceAs (Decidable (_ < _))

/-- **The sequences are far apart.** -/
def Separated (cfg : TetraSyncConfig) : Prop := (defs cfg).Pairwise Apart

instance (cfg : TetraSyncConfig) : Decidable (Separated cfg) :=
  inferInstanceAs (Decidable (List.Pairwise _ _))

/-- The default tolerances keep the sequences apart. -/
theorem separated_default : Separated {} := by decide

variable {cfg : TetraSyncConfig} {bits : List ℕ} {i : ℕ}

/-- **No two sequences are at one bit.** -/
theorem At.unique {d d' : SeqDef} (hsep : Apart d d') (h : At bits i d)
    (h' : At bits i d') : False := by
  have hlen : ∀ d : SeqDef, At bits i d → d.bits.length ≤ (bits.drop i).length := fun d hd => by
    have := hd.1
    rw [List.length_drop]
    omega
  have htri := dist_triangle (bits.drop i) d.bits d'.bits (hlen d h) (hlen d' h')
  have he := h.2
  have he' := h'.2
  rw [Apart] at hsep
  omega

/-- **One sequence at a bit**, at most. -/
theorem eq_of_at {d d' : SeqDef} : ∀ l : List SeqDef,
    l.Pairwise Apart → d ∈ l → d' ∈ l → At bits i d →
      At bits i d' → d = d' := by
  intro l
  induction l with
  | nil => exact fun _ h => absurd h List.not_mem_nil
  | cons x l ih =>
    intro hl hd hd' h h'
    rw [List.pairwise_cons] at hl
    rcases List.mem_cons.1 hd with hx | hm
    · rcases List.mem_cons.1 hd' with hx' | hm'
      · rw [hx, hx']
      · exact (h.unique (hx ▸ hl.1 d' hm') h').elim
    · rcases List.mem_cons.1 hd' with hx' | hm'
      · exact (h'.unique (hx' ▸ hl.1 d hm) h).elim
      · exact ih hl.2 hm hm' h h'

/-- What trying a sequence gives. -/
theorem tryDef_none (d : SeqDef) :
    tryDef bits i none d = if At bits i d then some (d, (dist (bits.drop i) d.bits : ℤ))
      else none := by
  obtain ⟨hle, heq⟩ := hamming_spec d.maxErr (bits.drop i) d.bits 0
  rw [zero_add] at hle heq
  rw [tryDef]
  by_cases hlen : bits.length < i + d.bits.length
  · rw [if_pos hlen, if_neg fun h : At bits i d => absurd h.1 (by omega)]
  · rw [if_neg hlen]
    dsimp only
    by_cases hd : hamming d.maxErr 0 (bits.drop i) d.bits ≤ d.maxErr
    · rw [if_pos ⟨hd, fun b hb => (Option.not_mem_none b hb).elim⟩,
        if_pos ⟨not_lt.1 hlen, hle.1 hd⟩, heq hd]
    · rw [if_neg fun h => hd h.1, if_neg fun h : At bits i d => hd (hle.2 h.2)]

/-- A sequence that is not there changes nothing. -/
theorem tryDef_of_not_at {d : SeqDef} (h : ¬ At bits i d) (best : Option (SeqDef × ℤ)) :
    tryDef bits i best d = best := by
  have hle := (hamming_spec d.maxErr (bits.drop i) d.bits 0).1
  rw [zero_add] at hle
  rw [tryDef]
  by_cases hlen : bits.length < i + d.bits.length
  · rw [if_pos hlen]
  · rw [if_neg hlen]
    exact if_neg fun hd => h ⟨not_lt.1 hlen, hle.1 hd.1⟩

/-- **Of sequences far apart the best is the one that is there.** -/
theorem foldl_tryDef : ∀ l : List SeqDef,
    l.Pairwise Apart →
      l.foldl (tryDef bits i) none =
        (l.find? fun d => At bits i d).map fun d => (d, (dist (bits.drop i) d.bits : ℤ))
  | [], _ => rfl
  | d :: l, h => by
    rw [List.pairwise_cons] at h
    rw [List.foldl_cons, tryDef_none]
    by_cases hd : At bits i d
    · have hrest : ∀ (l : List SeqDef) (best : Option (SeqDef × ℤ)), (∀ d' ∈ l, ¬ At bits i d') →
          l.foldl (tryDef bits i) best = best := by
        intro l
        induction l with
        | nil => exact fun _ _ => rfl
        | cons d' l ih =>
          intro best hl
          rw [List.foldl_cons, tryDef_of_not_at (hl d' List.mem_cons_self),
            ih best fun x hx => hl x (List.mem_cons_of_mem _ hx)]
      rw [if_pos hd, List.find?_cons_of_pos (p := fun d => decide (At bits i d))
        (decide_eq_true hd), hrest l _ fun d' hd' h' => hd.unique (h.1 d' hd') h']
      rfl
    · rw [if_neg hd, foldl_tryDef l h.2, List.find?_cons_of_neg (by simpa using hd)]

/-- **What is found**: the matches are the sequences within their tolerance, each with its distance,
and a position has one at most. -/
theorem mem_findAll (hsep : Separated cfg) (bits : List ℕ) :
    (∀ m, m ∈ findAll cfg bits ↔ ∃ i < bits.length, ∃ d ∈ defs cfg, At bits i d ∧
      m = report i d (dist (bits.drop i) d.bits)) ∧
    (findAll cfg bits).Pairwise fun m m' => m.pos < m'.pos := by
  have hbest : ∀ i, bestAt cfg bits i =
      ((defs cfg).find? fun d => At bits i d).map fun d => (d, (dist (bits.drop i) d.bits : ℤ)) :=
    fun i => foldl_tryDef (defs cfg) hsep
  constructor
  · intro m
    rw [findAll, List.mem_filterMap]
    refine exists_congr fun i => ?_
    rw [List.mem_range, hbest, Option.map_map, Option.map_eq_some_iff]
    refine and_congr_right fun _ => ⟨?_, ?_⟩
    · rintro ⟨d, hd, rfl⟩
      exact ⟨d, List.mem_of_find?_eq_some hd, by simpa using List.find?_some hd, rfl⟩
    · rintro ⟨d, hd, hat, rfl⟩
      obtain ⟨d', hd'⟩ : ∃ d', (defs cfg).find? (fun d => At bits i d) = some d' :=
        Option.isSome_iff_exists.1 (List.find?_isSome.2 ⟨d, hd, decide_eq_true hat⟩)
      have hat' : At bits i d' := by simpa using List.find?_some hd'
      have hdd := eq_of_at (defs cfg) hsep (List.mem_of_find?_eq_some hd') hd hat' hat
      exact ⟨d, hdd ▸ hd', rfl⟩
  · rw [findAll, List.pairwise_filterMap]
    refine List.pairwise_lt_range.imp fun {i j} hij m hm m' hm' => ?_
    obtain ⟨b, -, rfl⟩ := Option.map_eq_some_iff.1 hm
    obtain ⟨b', -, rfl⟩ := Option.map_eq_some_iff.1 hm'
    exact hij

/-- A synchronization burst, otherwise blank. -/
def syncBurst : List ℕ := List.replicate 214 0 ++ yBits ++ List.replicate 258 0

theorem mem_findAll_syncBurst :
    report 214 ⟨yBits, .sync, kOffsetSync, 4⟩ 0 ∈ findAll {} syncBurst :=
  ((mem_findAll separated_default syncBurst).1 _).2
    ⟨214, by decide +kernel, ⟨yBits, .sync, kOffsetSync, 4⟩, by decide, by decide +kernel, by
      decide +kernel⟩

/-! ## Votes

The votes of a phase are the matches that imply it, whatever their order. -/

/-- The phase of a match, as the source computes it. -/
theorem phase_eq (m : TrainMatch) : (phase m : ℤ) = m.burstStart % kTetraBitsPerTs := by
  rw [phase, kTetraBitsPerTs, Int.tmod_eq_emod]
  split_ifs <;> omega

/-- A phase has as many votes as matches. -/
theorem foldl_vote (ph : ℕ) : ∀ (found : List TrainMatch) (v : ℕ → ℕ),
    found.foldl vote v ph = v ph + found.countP fun m => m.hasBurstStart && phase m = ph
  | [], v => rfl
  | m :: found, v => by
    rw [List.foldl_cons, foldl_vote ph found, List.countP_cons, vote]
    rcases m.hasBurstStart with _ | _
    · simp
    · by_cases hp : phase m = ph
      · subst hp
        simp only [if_true, Function.update_self, Bool.true_and, decide_true]
        omega
      · simp [Function.update_of_ne (Ne.symm hp), hp]

/-- A burst of the phase begins so that one of its sequences is at the bit. -/
def Hit (cfg : TetraSyncConfig) (bits : List ℕ) (ph i : ℕ) : Prop :=
  ∃ d ∈ defs cfg, 0 ≤ d.offset ∧ At bits i d ∧ ((i : ℤ) - d.offset) % kTetraBitsPerTs = ph

instance (cfg : TetraSyncConfig) (bits : List ℕ) (ph : ℕ) : DecidablePred (Hit cfg bits ph) :=
  fun _ => inferInstanceAs (Decidable (∃ d ∈ defs cfg, _))

/-- The bursts of a phase. -/
def hits (cfg : TetraSyncConfig) (bits : List ℕ) (ph : ℕ) : ℕ :=
  (List.range bits.length).countP fun i => Hit cfg bits ph i

/-- **Each burst has one vote.** -/
theorem votes_findAll (hsep : Separated cfg) (bits : List ℕ) (ph : ℕ) :
    votes (findAll cfg bits) ph = hits cfg bits ph := by
  rw [votes, foldl_vote, zero_add, findAll, List.countP_filterMap, hits]
  refine List.countP_congr fun i _ => ?_
  have hbest : bestAt cfg bits i =
      ((defs cfg).find? fun d => At bits i d).map fun d => (d, (dist (bits.drop i) d.bits : ℤ)) :=
    foldl_tryDef (defs cfg) hsep
  rw [hbest, decide_eq_true_iff]
  rcases hf : (defs cfg).find? fun d => At bits i d with _ | d
  · refine iff_of_false (by simp) ?_
    rintro ⟨d, hd, -, hat, -⟩
    exact absurd hat (by simpa using List.find?_eq_none.1 hf d hd)
  · have hat : At bits i d := by simpa using List.find?_some hf
    have hph : ((phase (report i d (dist (bits.drop i) d.bits)) : ℕ) : ℤ) =
        (report i d (dist (bits.drop i) d.bits)).burstStart % kTetraBitsPerTs := phase_eq _
    simp only [Option.map_some, Option.getD_some, Bool.and_eq_true, decide_eq_true_eq]
    constructor
    · rintro ⟨hb, hp⟩
      have hoff : 0 ≤ d.offset := of_decide_eq_true hb
      refine ⟨d, List.mem_of_find?_eq_some hf, hoff, hat, ?_⟩
      have hstart : (report i d (dist (bits.drop i) d.bits)).burstStart =
          i - d.offset := if_pos hoff
      rw [hp, hstart] at hph
      exact hph.symm
    · rintro ⟨d', hd', hoff, hat', hp⟩
      obtain rfl := eq_of_at (defs cfg) hsep (List.mem_of_find?_eq_some hf) hd' hat hat'
      refine ⟨decide_eq_true hoff, ?_⟩
      have hstart : (report i d (dist (bits.drop i) d.bits)).burstStart =
          i - d.offset := if_pos hoff
      rw [hstart, hp] at hph
      exact_mod_cast hph

/-! ## The lock

The synchronizer locks when some phase has enough votes, and then says which. -/

/-- **The lock is on the phase of most votes**, the first of them. -/
theorem findLock_spec (cfg : TetraSyncConfig) (found : List TrainMatch) :
    (∀ ph < kTetraBitsPerTs, votes found ph ≤ (findLock cfg found).confirmations) ∧
    ((findLock cfg found).confirmations = 0 ∨ (findLock cfg found).phase < kTetraBitsPerTs ∧
      votes found (findLock cfg found).phase = (findLock cfg found).confirmations) ∧
    ((findLock cfg found).locked = true ↔
      cfg.minConfirmations ≤ (findLock cfg found).confirmations) := by
  have hloop : ∀ n : ℕ, ∃ lock, (List.range n).foldl (fun (lock : TetraLock) ph =>
      if lock.confirmations < votes found ph then
        { lock with confirmations := votes found ph, phase := ph }
      else lock) {} = lock ∧ (∀ ph < n, votes found ph ≤ lock.confirmations) ∧
        (lock.confirmations = 0 ∨
          lock.phase < n ∧ votes found lock.phase = lock.confirmations) := by
    intro n
    induction n with
    | zero => exact ⟨_, rfl, fun ph h => absurd h (Nat.not_lt_zero ph), Or.inl rfl⟩
    | succ n ih =>
      obtain ⟨lock, heq, hle, hmax⟩ := ih
      rw [List.range_succ, List.foldl_append, heq, List.foldl_cons, List.foldl_nil]
      by_cases hn : lock.confirmations < votes found n
      · rw [if_pos hn]
        refine ⟨_, rfl, fun ph h => ?_, Or.inr ⟨Nat.lt_succ_self n, rfl⟩⟩
        rcases Nat.lt_succ_iff_lt_or_eq.1 h with h | rfl
        · exact (hle ph h).trans hn.le
        · exact le_rfl
      · rw [if_neg hn]
        refine ⟨_, rfl, fun ph h => ?_, hmax.imp id fun h => ⟨h.1.trans (Nat.lt_succ_self n), h.2⟩⟩
        rcases Nat.lt_succ_iff_lt_or_eq.1 h with h | rfl
        · exact hle ph h
        · exact not_lt.1 hn
  obtain ⟨lock, heq, hle, hmax⟩ := hloop kTetraBitsPerTs
  have hlock : findLock cfg found =
      { lock with locked := decide (cfg.minConfirmations ≤ lock.confirmations) } := by
    rw [← heq]
    rfl
  rw [hlock]
  exact ⟨hle, hmax, decide_eq_true_iff⟩

/-- **When it locks**: there are bursts enough of one phase. -/
theorem synchronize_locked_iff (hsep : Separated cfg) (bits : List ℕ) :
    (synchronize cfg bits).locked = true ↔
      cfg.minConfirmations ≤ 0 ∨ ∃ ph < kTetraBitsPerTs,
        cfg.minConfirmations ≤ hits cfg bits ph := by
  obtain ⟨hle, hmax, hlocked⟩ := findLock_spec cfg (findAll cfg bits)
  rw [synchronize, hlocked]
  constructor
  · intro h
    rcases hmax with h0 | ⟨hp, hv⟩
    · exact Or.inl (by rwa [h0] at h)
    · exact Or.inr ⟨_, hp, by rwa [← votes_findAll hsep, hv]⟩
  · rintro (h | ⟨ph, hp, h⟩)
    · exact h.trans (Int.natCast_nonneg _)
    · rw [← votes_findAll hsep] at h
      exact h.trans (Int.ofNat_le.2 (hle ph hp))

/-! ## A downlink

In a run of bursts each has a sequence where its kind says, which votes for the run's phase.  Bits
around the run may vote too, for any phase; they can change which phase wins, and no vote is lost by
them. -/

theorem bits_pos : ∀ d ∈ defs cfg, 0 < d.bits.length := by
  simp only [defs, List.mem_cons, List.not_mem_nil, or_false]
  rintro d (rfl | rfl | rfl | rfl) <;> exact Nat.zero_lt_succ _

/-- A burst with one of its training sequences in its place, within the tolerance. -/
def Carries (cfg : TetraSyncConfig) (b : List ℕ) : Prop :=
  b.length = kTetraBitsPerTs ∧ ∃ d ∈ defs cfg, 0 ≤ d.offset ∧
    d.offset.toNat + d.bits.length ≤ b.length ∧
    (dist (b.drop d.offset.toNat) d.bits : ℤ) ≤ d.maxErr

instance (cfg : TetraSyncConfig) : DecidablePred (Carries cfg) :=
  fun _ => inferInstanceAs (Decidable (_ ∧ ∃ d ∈ defs cfg, _))

/-- What is beyond the sequence does not count. -/
theorem dist_append : ∀ (s t r : List ℕ), t.length ≤ s.length → dist (s ++ r) t = dist s t
  | _, [], _, _ => by simp [dist]
  | [], _ :: _, _, h => absurd h (by simp)
  | a :: s, b :: t, r, h => by
    rw [List.cons_append, dist_cons, dist_cons, dist_append s t r (Nat.le_of_succ_le_succ h)]

/-- **Every burst is found** in its slot, at the phase of the first. -/
theorem exists_hit (cfg : TetraSyncConfig) (post : List ℕ) :
    ∀ (bursts : List (List ℕ)) (pre : List ℕ),
    (∀ b ∈ bursts, Carries cfg b) → ∀ j < bursts.length, ∃ x < kTetraBitsPerTs,
      Hit cfg (pre ++ bursts.flatten ++ post) (pre.length % kTetraBitsPerTs)
        (pre.length + kTetraBitsPerTs * j + x) := by
  intro bursts
  induction bursts with
  | nil => exact fun _ _ j hj => absurd hj (Nat.not_lt_zero j)
  | cons b bs ih =>
    intro pre hb j hj
    obtain ⟨hlen, d, hd, hoff, hfit, hdist⟩ := hb b List.mem_cons_self
    rcases j with _ | j
    · obtain ⟨o, ho⟩ := Int.eq_ofNat_of_zero_le hoff
      rw [ho, Int.toNat_natCast] at hfit hdist
      have hpos := bits_pos d hd
      refine ⟨o, by omega, d, hd, hoff, ⟨?_, ?_⟩, ?_⟩
      · rw [List.flatten_cons]
        simp only [List.length_append]
        omega
      · have hdrop : (pre ++ (b :: bs).flatten ++ post).drop
            (pre.length + kTetraBitsPerTs * 0 + o) =
            b.drop o ++ (bs.flatten ++ post) := by
          rw [Nat.mul_zero, Nat.add_zero, List.append_assoc, List.flatten_cons, List.append_assoc,
            ← List.drop_drop, List.drop_left]
          exact List.drop_append_of_le_length (by omega)
        rw [hdrop, dist_append _ _ _ (by rw [List.length_drop]; omega)]
        exact hdist
      · rw [ho, Nat.mul_zero, Nat.add_zero]
        push_cast
        rw [add_sub_cancel_right]
    · obtain ⟨x, hx, hhit⟩ := ih (pre ++ b) (fun c hc => hb c (List.mem_cons_of_mem b hc)) j
        (Nat.lt_of_succ_lt_succ hj)
      refine ⟨x, hx, ?_⟩
      have hbits : pre ++ b ++ bs.flatten ++ post = pre ++ (b :: bs).flatten ++ post := by
        rw [List.flatten_cons, List.append_assoc pre b]
      rw [hbits, List.length_append, hlen, Nat.add_mod_right] at hhit
      have hi : pre.length + kTetraBitsPerTs + kTetraBitsPerTs * j + x =
          pre.length + kTetraBitsPerTs * (j + 1) + x := by ring
      rwa [hi] at hhit

/-- What happens in each of `k` windows happens `k` times. -/
theorem le_countP_windows (p : ℕ → Bool) (a w : ℕ) :
    ∀ k : ℕ, (∀ j < k, ∃ x < w, p (a + w * j + x)) →
    k ≤ (List.range (a + w * k)).countP p
  | 0, _ => Nat.zero_le _
  | k + 1, h => by
    have ih := le_countP_windows p a w k fun j hj => h j (hj.trans (Nat.lt_succ_self k))
    obtain ⟨x, hx, hp⟩ := h k (Nat.lt_succ_self k)
    have hsplit : a + w * (k + 1) = a + w * k + w := by ring
    rw [hsplit, List.range_add, List.countP_append]
    have hone : 0 < ((List.range w).map (a + w * k + ·)).countP p :=
      List.countP_pos_iff.2 ⟨_, List.mem_map_of_mem (List.mem_range.2 hx), hp⟩
    omega

/-- **A run of bursts locks**: whatever is before and after it, and whichever sequence each of them
has, the synchronizer locks once there are bursts enough — on the phase the run begins at, unless
another has as many. -/
theorem downlink_locks (hsep : Separated cfg) (pre post : List ℕ) {bursts : List (List ℕ)}
    (hb : ∀ b ∈ bursts, Carries cfg b) (hmin : cfg.minConfirmations ≤ bursts.length) :
    let lock := synchronize cfg (pre ++ bursts.flatten ++ post)
    lock.locked = true ∧ bursts.length ≤ lock.confirmations ∧
      ((∀ ph < kTetraBitsPerTs, ph ≠ pre.length % kTetraBitsPerTs →
        hits cfg (pre ++ bursts.flatten ++ post) ph < bursts.length) → bursts ≠ [] →
          lock.phase = pre.length % kTetraBitsPerTs) := by
  obtain ⟨bits, hbits⟩ : ∃ bits, pre ++ bursts.flatten ++ post = bits := ⟨_, rfl⟩
  have hph : pre.length % kTetraBitsPerTs < kTetraBitsPerTs := Nat.mod_lt _ (by decide)
  have hcount : bursts.length ≤ hits cfg bits (pre.length % kTetraBitsPerTs) := by
    have hlen : pre.length + kTetraBitsPerTs * bursts.length ≤ bits.length := by
      have hflat : ∀ l : List (List ℕ), (∀ b ∈ l, Carries cfg b) →
          l.flatten.length = kTetraBitsPerTs * l.length := by
        intro l
        induction l with
        | nil => exact fun _ => rfl
        | cons b l ih =>
          intro h
          rw [List.flatten_cons, List.length_append, (h b List.mem_cons_self).1,
            ih fun c hc => h c (List.mem_cons_of_mem b hc), List.length_cons]
          ring
      rw [← hbits, List.length_append, List.length_append, hflat bursts hb]
      exact Nat.le_add_right ..
    have hwin := le_countP_windows (fun i => Hit cfg bits (pre.length % kTetraBitsPerTs) i)
      pre.length kTetraBitsPerTs
      bursts.length fun j hj => by
        obtain ⟨x, hx, hhit⟩ := exists_hit cfg post bursts pre hb j hj
        exact ⟨x, hx, decide_eq_true (hbits ▸ hhit)⟩
    exact hwin.trans ((List.range_sublist.2 hlen).countP_le)
  obtain ⟨hle, hmax, -⟩ := findLock_spec cfg (findAll cfg bits)
  simp only [votes_findAll hsep] at hle hmax
  dsimp only
  rw [hbits]
  refine ⟨(synchronize_locked_iff hsep bits).2
    (Or.inr ⟨_, hph, hmin.trans (Int.ofNat_le.2 hcount)⟩),
    hcount.trans (hle _ hph), fun hother hne => ?_⟩
  have hpos : 0 < bursts.length := List.length_pos_iff.2 hne
  have hconf := hcount.trans (hle _ hph)
  change (findLock cfg (findAll cfg bits)).phase = _
  rcases hmax with h0 | ⟨hp, hv⟩
  · omega
  · by_contra hph'
    have := hother _ hp hph'
    omega

theorem downlink_locks_syncBursts :
    (synchronize {} ([1, 0] ++ (List.replicate 3 syncBurst).flatten ++ [])).locked = true :=
  (downlink_locks separated_default [1, 0] [] (by decide +kernel) (by decide)).1

end TetraBurstSync

end DsdServer
