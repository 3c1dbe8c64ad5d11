import DsdServer.Merge.Fold

/-!
# Merge/Capping — which calls a merge keeps

The calls of a family are put newest first, and those without audio are bounded in number:
`calls_capped` says that none with audio goes, and that of the others the newest stay.
-/

open Bytes

namespace DsdServer

/-! ## Calls with and without audio

A recording is what makes a call worth keeping; a record without one is bounded in number. -/

/-- A call without audio. -/
def DsCall.audioless (c : DsCall) : Bool := c.audio = []

/-- The newest calls come first. -/
def NewestFirst (calls : List DsCall) : Prop := calls.Pairwise fun a b => b.start ≤ a.start

instance (calls : List DsCall) : Decidable (NewestFirst calls) :=
  inferInstanceAs (Decidable (List.Pairwise _ _))

/-- **The calls kept of a list**: in order, all that have audio, and of the others the first
`cap`. -/
structure Capped (cap : ℕ) (calls kept : List DsCall) : Prop where
  sublist : kept.Sublist calls
  audio : kept.filter (!·.audioless) = calls.filter (!·.audioless)
  audioless : kept.filter (·.audioless) = (calls.filter (·.audioless)).take cap
  /-- What goes has no audio, and none of it is newer than a call without audio that stays. -/
  newest : ∃ dropped : List DsCall, (kept ++ dropped).Perm calls ∧
    ∀ c ∈ dropped, c.audioless ∧ ∀ c' ∈ kept, c'.audioless → c.start ≤ c'.start

/-! ## What is dropped

The source walks the list from its end, the oldest call, and drops calls without audio until few
enough are left.  `dropAudioless` is the walk, over the list turned around. -/

/-- A call without audio is one that is dropped. -/
theorem dropAudioless_of_audioless {c : DsCall} (h : c.audioless) (n : ℕ) (l : List DsCall) :
    dropAudioless (n + 1) (c :: l) = dropAudioless n l :=
  if_pos (of_decide_eq_true h)

theorem dropAudioless_of_audio {c : DsCall} (h : c.audioless = false) (n : ℕ) (l : List DsCall) :
    dropAudioless n (c :: l) = c :: dropAudioless n l := by
  cases n with
  | zero => cases l <;> rfl
  | succ n => exact if_neg (of_decide_eq_false h)

/-- When none is to be dropped all stay. -/
theorem dropAudioless_zero (l : List DsCall) : dropAudioless 0 l = l := by
  cases l <;> rfl

theorem sublist_dropAudioless (l : List DsCall) : ∀ n, (dropAudioless n l).Sublist l := by
  induction l with
  | nil => exact fun n => by cases n <;> exact List.Sublist.refl []
  | cons c l ih =>
    intro n
    cases h : c.audioless with
    | false => exact dropAudioless_of_audio h n l ▸ (ih n).cons_cons c
    | true => cases n with
      | zero => exact dropAudioless_zero (c :: l) ▸ List.Sublist.refl _
      | succ n => exact dropAudioless_of_audioless h n l ▸ (ih n).cons c

/-- The calls with audio stay. -/
theorem filter_audio_dropAudioless (l : List DsCall) :
    ∀ n, (dropAudioless n l).filter (!·.audioless) = l.filter (!·.audioless) := by
  induction l with
  | nil => exact fun n => by cases n <;> rfl
  | cons c l ih =>
    intro n
    cases h : c.audioless with
    | false =>
      rw [dropAudioless_of_audio h, List.filter_cons_of_pos (by rw [h]; rfl),
        List.filter_cons_of_pos (by rw [h]; rfl), ih]
    | true => cases n with
      | zero => rw [dropAudioless_zero]
      | succ n =>
        rw [dropAudioless_of_audioless h,
          List.filter_cons_of_neg (by rw [h]; exact Bool.false_ne_true), ih]

/-- Of the others the first go. -/
theorem filter_audioless_dropAudioless (l : List DsCall) :
    ∀ n, (dropAudioless n l).filter (·.audioless) = (l.filter (·.audioless)).drop n := by
  induction l with
  | nil => exact fun n => by cases n <;> rfl
  | cons c l ih =>
    intro n
    cases h : c.audioless with
    | false =>
      rw [dropAudioless_of_audio h, List.filter_cons_of_neg (by rw [h]; exact Bool.false_ne_true),
        List.filter_cons_of_neg (by rw [h]; exact Bool.false_ne_true), ih]
    | true => cases n with
      | zero => rw [dropAudioless_zero, List.drop_zero]
      | succ n =>
        rw [dropAudioless_of_audioless h, List.filter_cons_of_pos h, List.drop_succ_cons, ih]

/-! ## What is kept

The list is sorted before, so the first of its calls are the newest. -/

/-- **Of the calls without audio the first stay**, as many as the cap allows. -/
theorem filter_audioless_capCalls (calls : List DsCall) (cap : ℕ) :
    (capCalls calls cap).filter (·.audioless) = (calls.filter (·.audioless)).take cap := by
  rw [capCalls, List.filter_reverse, filter_audioless_dropAudioless, List.filter_reverse,
    List.reverse_drop, List.reverse_reverse, List.length_reverse]
  have hcount : calls.countP (fun c => c.audio = []) = (calls.filter (·.audioless)).length :=
    List.countP_eq_length_filter
  rw [hcount]
  generalize calls.filter (·.audioless) = l
  rcases le_total l.length cap with h | h
  · rw [Nat.sub_eq_zero_of_le h, Nat.sub_zero, List.take_length, List.take_of_length_le h]
  · rw [Nat.sub_sub_self h]

/-- **Of the calls with audio all stay.** -/
theorem filter_audio_capCalls (calls : List DsCall) (cap : ℕ) :
    (capCalls calls cap).filter (!·.audioless) = calls.filter (!·.audioless) := by
  rw [capCalls, List.filter_reverse, filter_audio_dropAudioless, List.filter_reverse,
    List.reverse_reverse]

/-- **What is kept of a list with the newest first.** -/
theorem capped_capCalls {calls : List DsCall} (h : NewestFirst calls) (cap : ℕ) :
    Capped cap calls (capCalls calls cap) where
  sublist := List.reverse_sublist.1 <| by
    rw [capCalls, List.reverse_reverse]
    exact sublist_dropAudioless ..
  audio := filter_audio_capCalls calls cap
  audioless := filter_audioless_capCalls calls cap
  newest := by
    refine ⟨(calls.filter (·.audioless)).drop cap, ?_, fun c hc => ⟨?_, fun c' hc' ha => ?_⟩⟩
    · -- with audio, and without
      have hparts : ∀ l : List DsCall,
          (l.filter (!·.audioless) ++ l.filter (·.audioless)).Perm l := fun l =>
        List.perm_append_comm.trans (List.filter_append_perm _ l)
      have hkept :=
        (hparts (capCalls calls cap)).symm.append_right ((calls.filter (·.audioless)).drop cap)
      rw [filter_audio_capCalls, filter_audioless_capCalls, List.append_assoc,
        List.take_append_drop] at hkept
      exact hkept.trans (hparts calls)
    · exact (List.mem_filter.1 (List.mem_of_mem_drop hc)).2
    · have hsorted :
          ((calls.filter (·.audioless)).take cap ++ (calls.filter (·.audioless)).drop cap).Pairwise
          fun a b => b.start ≤ a.start := by
        rw [List.take_append_drop]
        exact h.filter _
      refine (List.pairwise_append.1 hsorted).2.2 c' ?_ c hc
      rw [← filter_audioless_capCalls]
      exact List.mem_filter.2 ⟨hc', ha⟩

/-- **Which calls a merge keeps**: of a list with the newest first, and of every family it merged,
all calls with audio stay, and as many of the others as the cap has room for, the newest. -/
theorem calls_capped (cap : ℕ) :
    (∀ calls, NewestFirst calls → Capped cap calls (capCalls calls cap)) ∧
      ∀ (d : Dataset) (renumber : Bool) (f : Bytes) (F : DsFamily), d.fams.find? f = some F →
        ∃ sorted kept, sorted.Perm F.calls ∧ NewestFirst sorted ∧ Capped cap sorted kept ∧
          (finalizeMerge d renumber cap).fams.find? f = some { F with
            calls := if renumber then kept.mapIdx fun i c =>
            { c with id := kept.length - i } else kept } := by
  refine ⟨fun calls h => capped_capCalls h cap, fun d renumber f F hF => ?_⟩
  have hsorted : NewestFirst (F.calls.mergeSort fun a b => b.start ≤ a.start) := by
    have h : (F.calls.mergeSort fun a b => b.start ≤ a.start).Pairwise fun a b =>
        decide (b.start ≤ a.start) := by
      refine List.pairwise_mergeSort
        (fun a b c h h' => decide_eq_true ((of_decide_eq_true h').trans (of_decide_eq_true h)))
        (fun a b => by simpa using le_total b.start a.start) F.calls
    exact h.imp of_decide_eq_true
  refine ⟨_, _, List.mergeSort_perm .., hsorted, capped_capCalls hsorted cap, ?_⟩
  rw [finalizeMerge, SortedMap.find?_mapVal, hF]
  rfl

/-- Two calls with audio among four: the older of the others goes. -/
theorem calls_capped_some :
    let call (start : ℤ) (audio : Bytes) : DsCall := { start, audio }
    let calls := [call 4 [], call 3 (lit "a.wav"), call 2 [], call 1 (lit "b.wav")]
    Capped 1 calls [call 4 [], call 3 (lit "a.wav"), call 1 (lit "b.wav")] :=
  (calls_capped 1).1 _ (by decide)

end DsdServer
