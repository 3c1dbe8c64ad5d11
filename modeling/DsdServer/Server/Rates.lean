import DsdServer.Server.Requests
import DsdServer.Server.Tuning
import DsdServer.Signal.Resampler

/-!
# Server/Rates — from a client's sample rate to the step of the resampler

A start takes the sample rate as the client gives it.  Both discriminators choose their decimation
from it and step through what is left at the rate that results; `start_resamples_iff` says from
which rates the loop that does so gets anywhere.
-/

open Bytes

namespace DsdServer

/-! ## The rates of a discriminator

The input is first decimated by a whole number to about twice the output rate, and then resampled.
The factor is at least one, so the step has the sign of the rate. -/

/-- The decimation, for an input rate close to twice the output rate but not below. -/
def decimFactor (rate out : ℚ) : ℤ := max 1 (Double.toI32 (.finite (rate / (out * 2))))

/-- The rate after the decimation. -/
def decimatedRateHz (rate out : ℚ) : ℚ := rate / decimFactor rate out

/-- Input samples for each output sample. -/
def resampleStep (rate out : ℚ) : ℚ := decimatedRateHz rate out / out

/-- The input and output rates of the discriminator that runs. -/
def Session.rates (x : Session) : Option (Double × ℚ) :=
  match x.chain with
  | .fm => x.demod.map fun d => (d.inputSampleRate, 48000)
  | .pager => x.pagerDemod.map fun d => (d.inputSampleRate, 22050)
  | .tetra => none

/-- The resampler steps forward, and so gets to the end of every block. -/
def Terminates (step : ℚ) : Prop :=
  0 < step ∧ ∀ blocks : List (List ℚ), ∃ fuel r, Signal.resampled step fuel {} blocks = .ok r

/-- Whatever samples a session gets, its resampler ends. -/
def Session.Resamples (x : Session) : Prop :=
  ∃ rate out, x.rates = some (.finite rate, out) ∧ Terminates (resampleStep rate out)

/-- **The step has the sign of the rate.** -/
theorem resampleStep_pos {rate out : ℚ} (ho : 0 < out) : 0 < resampleStep rate out ↔ 0 < rate := by
  have hd : (0 : ℚ) < decimFactor rate out := by
    have h1 : 1 ≤ decimFactor rate out := le_max_left _ _
    exact_mod_cast lt_of_lt_of_le Int.zero_lt_one h1
  rw [resampleStep, decimatedRateHz, div_pos_iff_of_pos_right ho, div_pos_iff_of_pos_right hd]

/-- The resampler's loop ends exactly when the rate is positive. -/
theorem terminates_iff {rate out : ℚ} (ho : 0 < out) :
    Terminates (resampleStep rate out) ↔ 0 < rate := by
  rw [← resampleStep_pos ho]
  refine ⟨And.left, fun hs => ⟨hs, fun blocks => ?_⟩⟩
  obtain ⟨out, s, turns, -, h⟩ := Signal.resampled_blocks _ hs blocks
  exact ⟨turns, _, (h turns le_rfl).1⟩

/-! ## Starts

Neither the request nor the discriminator's constructor checks the rate.  What a start accepts is
therefore not always what its resampler can work with. -/

namespace Server

variable {s s' : Server} {sid : ℕ} {p : StartParams} {l : Launch}

/-- A paging start that succeeds gives the discriminator its parameters. -/
theorem startPager_session (hi : (s.session sid).pipelineActive = false)
    (ha : ((s.startPager sid p l).session sid).pipelineActive = true) :
    ((s.startPager sid p l).session sid).chain = .pager ∧
      ((s.startPager sid p l).session sid).pagerDemod = some p.pagerDemod := by
  rw [startPager] at ha ⊢
  split_ifs at ha ⊢
  · exact absurd (hi.symm.trans ha) Bool.false_ne_true
  · exact absurd (hi.symm.trans ha) Bool.false_ne_true
  · rw [launch, session_setSession_self, session_setSession_self]
    exact ⟨rfl, rfl⟩

/-- A TETRA start that succeeds launches with its own rate. -/
theorem startTetra_session (hi : (s.session sid).pipelineActive = false)
    (ha : ((s.startTetra sid p l).session sid).pipelineActive = true) :
    ((s.startTetra sid p l).session sid).chain = .tetra := by
  rw [startTetra] at ha ⊢
  split_ifs at ha ⊢
  · rw [launch, session_setSession_self]
    rfl
  · exact absurd (hi.symm.trans ha) Bool.false_ne_true

/-- **A start that leaves a discriminator running** leaves it with the rate it says. -/
theorem startPipeline_rates (hs : s.startPipeline sid p l = some s')
    (ha : (s'.session sid).pipelineActive = true) (hc : (s'.session sid).chain ≠ .tetra) :
    ∃ out, 0 < out ∧ (s'.session sid).rates = some (p.sampleRate, out) := by
  have hoff :
      (((s.stopPipeline sid l.now).openStream sid p l.now).session sid).pipelineActive = false :=
    (stopPipeline_session s sid l.now).1
  rw [startPipeline] at hs
  split_ifs at hs
  · cases hs
    exact absurd (startTetra_session hoff ha) hc
  · cases hs
    obtain ⟨hch, hd⟩ := startPager_session hoff ha
    exact ⟨22050, by norm_num, by rw [Session.rates, hch, hd]; rfl⟩
  · obtain ⟨-, hch, hd, -, -⟩ := startFm_session hoff hs ha
    exact ⟨48000, by norm_num, by rw [Session.rates, hch, hd]; rfl⟩

/-- **The resampler of an accepted start ends** on every block exactly when the start gives a
positive sample rate. -/
theorem start_resamples_iff {msg : Bytes} {center : Double}
    (hr : readRequest msg = .ok (.start center p)) (hs : s.handleTextMessage sid msg l = some s')
    (ha : (s'.session sid).pipelineActive = true) (hc : (s'.session sid).chain ≠ .tetra) :
    (s'.session sid).Resamples ↔ ∃ r, p.sampleRate = .finite r ∧ 0 < r := by
  rw [handleTextMessage, hr] at hs
  obtain ⟨out, ho, hrates⟩ := startPipeline_rates hs ha hc
  rw [Session.Resamples, hrates]
  constructor
  · rintro ⟨rate, out', heq, hterm⟩
    obtain ⟨hrate, rfl⟩ := Prod.mk.inj (Option.some.inj heq)
    exact ⟨rate, hrate, (terminates_iff ho).1 hterm⟩
  · rintro ⟨r, hrate, hpos⟩
    exact ⟨r, out, by rw [hrate], (terminates_iff ho).2 hpos⟩

/-! ### A rate of nought -/

/-- A start with a sample rate. -/
def rateStart (rate : String) : Bytes :=
  lit "\x7b\"type\":\"start\",\"sample_rate\":" ++ lit rate ++ lit "\x7d"

/-- The state after a session connects and sends such a start. -/
def rateRun (rate : String) : Option Server :=
  (step {} .connect).bind fun s => s.handleTextMessage 1 (rateStart rate)
    { draws := [7], dsdOk := true }

/-- Does the run end with a pipeline of this rate? -/
def rateCheck (rate : String) (q : ℚ) : Bool :=
  (rateRun rate).any fun s => (s.session 1).pipelineActive &&
    (s.session 1).rates = some (.finite q, 48000) &&
    (s.session 1).chain ≠ .tetra

/-- The rate that a start asks for. -/
def sampleRate? (r : Except Thrown Request) : Option Double :=
  match r with
  | .ok (.start _ p) => some p.sampleRate
  | _ => none

theorem rateStart_resamples :
    ∃ s center p s', readRequest (rateStart "2400000") = .ok (.start center p) ∧
    handleTextMessage s 1 (rateStart "2400000") { draws := [7], dsdOk := true } = some s' ∧
    ((s'.session 1).Resamples ↔ ∃ r, p.sampleRate = .finite r ∧ 0 < r) := by
  have hcheck : rateCheck "2400000" 2400000 = true := by decide +kernel
  obtain ⟨s', hrun, hv⟩ := (Option.any_eq_true _ _).1 hcheck
  obtain ⟨s, -, hs⟩ := Option.bind_eq_some_iff.1 hrun
  simp only [Bool.and_eq_true, decide_eq_true_eq] at hv
  have hread : (sampleRate? (readRequest (rateStart "2400000"))).isSome = true := by decide +kernel
  cases hr : readRequest (rateStart "2400000") with
  | error e => rw [hr] at hread; cases hread
  | ok r =>
    cases r with
    | start center p => exact ⟨s, center, p, s', rfl, hs, start_resamples_iff hr hs hv.1.1 hv.2⟩
    | _ => rw [hr] at hread; cases hread

/-- **With a sample rate of nought**, which a start may give, the loop stays where it is for ever:
there is no number of turns after which two samples are done. -/
theorem rateStart_nought : ∃ s s' rate out,
    handleTextMessage s 1 (rateStart "0") { draws := [7], dsdOk := true } = some s' ∧
    (s'.session 1).pipelineActive = true ∧ (s'.session 1).rates = some (.finite rate, out) ∧
    ¬(s'.session 1).Resamples ∧ resampleStep rate out = 0 ∧
    ∀ fuel, Signal.resampled (resampleStep rate out) fuel {} [[0, 0]] = .error .going := by
  have hcheck : rateCheck "0" 0 = true := by decide +kernel
  obtain ⟨s', hrun, hv⟩ := (Option.any_eq_true _ _).1 hcheck
  obtain ⟨s, -, hs⟩ := Option.bind_eq_some_iff.1 hrun
  simp only [Bool.and_eq_true, decide_eq_true_eq] at hv
  have hstep : resampleStep 0 48000 = 0 := by rw [resampleStep, decimatedRateHz, zero_div, zero_div]
  have hloop : ∀ fuel, Signal.resampleLoop 0 0 [0, 0] fuel 0 = .error .going := by
    intro fuel
    induction fuel with
    | zero => rfl
    | succ fuel ih =>
      rw [Signal.resampleLoop, add_zero, ih]
      rfl
  refine ⟨s, s', 0, 48000, hs, hv.1.1, hv.1.2, ?_, hstep, fun fuel => ?_⟩
  · rintro ⟨rate, out, hrates, hpos, -⟩
    obtain ⟨hrate, rfl⟩ := Prod.mk.inj (Option.some.inj (hv.1.2.symm.trans hrates))
    obtain rfl := (Double.finite.inj hrate).symm
    rw [hstep] at hpos
    exact lt_irrefl _ hpos
  · rw [hstep, Signal.resampled, Signal.resampleToOutput, hloop fuel]
    rfl

end Server

end DsdServer
