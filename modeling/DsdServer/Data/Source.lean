import Mathlib.Data.List.Basic

/-!
# Data/Source — streaming sources

A source turns blocks into output, one after another, and has a last word when it is flushed.  What
it gives for blocks is what it gives for the first of them, and then goes on to give for the others.
-/

/-- A streaming source, with states `σ`, blocks `β` and output `α`. -/
structure Source (σ β α : Type*) where
  step : σ → β → σ × List α
  flush : σ → List α

namespace Source

variable {σ β α : Type*} (S : Source σ β α)

/-- The state after some blocks. -/
def after (s : σ) (bs : List β) : σ := bs.foldl (fun s b => (S.step s b).1) s

/-- What a source gives for blocks. -/
def output : σ → List β → List α
  | _, [] => []
  | s, b :: bs => (S.step s b).2 ++ output (S.step s b).1 bs

/-- …and with its last word. -/
def complete (s : σ) (bs : List β) : List α := S.output s bs ++ S.flush (S.after s bs)

theorem after_concat (s : σ) (bs : List β) (b : β) :
    S.after s (bs ++ [b]) = (S.step (S.after s bs) b).1 :=
  List.foldl_append

/-- What comes of blocks in two portions is what comes of them one after the other. -/
theorem output_append (bs cs : List β) : ∀ s : σ,
    S.output s (bs ++ cs) = S.output s bs ++ S.output (S.after s bs) cs := by
  induction bs with
  | nil => exact fun _ => rfl
  | cons b bs ih =>
    intro s
    rw [List.cons_append, output, output, ih, List.append_assoc]
    rfl

/-- A last block adds what its step gives. -/
theorem output_concat (s : σ) (bs : List β) (b : β) :
    S.output s (bs ++ [b]) = S.output s bs ++ (S.step (S.after s bs) b).2 := by
  rw [output_append, output, output, List.append_nil]

/-- The first block is done, and the rest goes on from there. -/
theorem complete_cons (s : σ) (b : β) (bs : List β) :
    S.complete s (b :: bs) = (S.step s b).2 ++ S.complete (S.step s b).1 bs := by
  rw [complete, output, complete, List.append_assoc]
  rfl

/-- The state after two portions is that of the second from that of the first. -/
theorem after_append (s : σ) (bs cs : List β) : S.after s (bs ++ cs) = S.after (S.after s bs) cs :=
  List.foldl_append

/-- What a source gives after some blocks completes what it has given for them. -/
theorem complete_append (s : σ) (bs cs : List β) :
    S.complete s (bs ++ cs) = S.output s bs ++ S.complete (S.after s bs) cs := by
  rw [complete, output_append, complete, List.append_assoc, after_append]

end Source
