import DsdServer.Assoc.EventLine
import DsdServer.Assoc.Recorded
import DsdServer.Assoc.Replay
import DsdServer.Assoc.Silent

/-!
# Assoc/Faithful — what a replay rebuilds

A replay applies the recorded inputs again: all of them, at their times, and with all they say but
an event's voice frame, which the recording leaves out.

* `replay_rebuilds` — **a recording whose frames nobody reads is replayed to the same families**.

The run and the replay are compared line by line.  A line that is read back gives the input it was
written for, without the frame of an event; and an input without its frame does the same to
everything but the analyzers.
-/

open Bytes

namespace DsdServer

open assoclog

/-! ## What a line does to a replay

A replay that stops at no time reads every line.  What a line does depends on its members alone, and
its time is taken from the line. -/

namespace Replay

/-- A line that is no snapshot is read by its fields. -/
theorem readLine_render {x : Replay} (hx : x.stopped = false) {e : Bytes × Field}
    {es : List (Bytes × Field)} (h : ∀ y ∈ e :: es, Plain y.1 ∧ y.2.Ok)
    (hs : (lit "\x7b\"op\":\"snapshot\",").isPrefixOf (render e es) = false) :
    x.readLine none (render e es) =
      (x.onResult fun r => { r with lines := r.lines + 1 }).readFields none
        (fieldsOf ∅ (e :: es)) := by
  have hne : ¬(x.stopped = true ∨ render e es = []) := fun hor => by
    rcases hor with hor | hor
    · rw [hx] at hor
      exact Bool.false_ne_true hor
    · exact nomatch hor
  rw [readLine, if_neg hne, hs, parseLine_render h]
  rfl

end Replay

/-! ## An input is applied again

For each input: the line it writes is read back into members, and the members give the input with
what was logged of it.  Labels and texts come back byte for byte; the family of a stream is found
from its label again. -/

/-- **What a recording keeps of an input**: not a voice frame, nor a family given beside the
label. -/
def Op.logged : Op → Op
  | .begin sid label now _ freq => .begin sid label now [] freq
  | .event sid ev now => .event sid ev.logged now
  | op => op

namespace Replay

/-- The fields every line of a session has. -/
def opened (op : String) (t : ℤ) (sid : ℕ) : List (Bytes × Field) :=
  [(lit "op", .str (lit op)), (lit "t", .word (decInt t)), (lit "s", .word (dec sid))]

/-- A line of a session, by its fields. -/
theorem readFields_input (x : Replay) {k : SortedMap Bytes Bytes} (op : Bytes) {t : ℤ} {sid : ℕ}
    (ho : k.find? (lit "op") = some op) (ht : k.find? (lit "t") = some (decInt t))
    (hs : k.find? (lit "s") = some (dec sid)) (h₁ : op ≠ lit "truncated") (h₂ : op ≠ lit "header") :
    x.readFields none k = (x.onResult fun r =>
      { r with tFirst := if r.tFirst = 0 then t else r.tFirst, tLast := t }).readInput k
        op t sid := by
  have hop : k.getD (lit "op") [] = op := SortedMap.getD_of_find? ho []
  rw [readFields, hop]
  dsimp only
  rw [if_neg h₁, num, ht]
  dsimp only
  rw [stoll_decInt]
  dsimp only
  rw [if_neg h₂, if_neg (by exact Bool.false_ne_true), num, hs]
  dsimp only
  rw [stoull_dec]

/-- An event's line. -/
theorem readLine_event {x : Replay} (hx : x.stopped = false) (t : ℤ) (sid : ℕ) (e : DsdEvent) :
    (x.readLine none (eventLine t sid e)).model = x.model.step (.event sid e.logged t) ∧
      (x.readLine none (eventLine t sid e)).stopped = false := by
  rw [eventLine_eq, readLine_render hx (plain_eventLine t sid e) rfl]
  change (readFields none _ (eventFields t sid e)).model = _ ∧
    (readFields none _ (eventFields t sid e)).stopped = false
  rw [readFields_input _ _ (find?_eventFields_op t sid e) (find?_eventFields_t t sid e)
    (find?_eventFields_s t sid e) (by decide) (by decide), readInput, if_pos rfl,
    lineEvent_eventFields]
  exact ⟨rfl, hx⟩

/-- A begin line. -/
theorem readLine_begin {x : Replay} (hx : x.stopped = false) (t : ℤ) (sid : ℕ) (label : Bytes)
    (freq : ℤ) : (x.readLine none (beginLine t sid label freq)).model =
        x.model.step (.begin sid label t [] freq) ∧
      (x.readLine none (beginLine t sid label freq)).stopped = false := by
  rw [beginLine_eq]
  have hw := word_decInt freq
  by_cases hf : freq = 0
  · rw [if_pos hf]
    have hplain : ∀ y ∈ (lit "op", Field.str (lit "begin")) :: ([(lit "t", .word (decInt t)),
        (lit "s", .word (dec sid)), (lit "label", .str label)] ++ []), Plain y.1 ∧ y.2.Ok := by
      simp only [List.append_nil, List.forall_mem_cons]
      exact ⟨⟨rfl, trivial⟩, ⟨rfl, word_decInt t⟩, ⟨rfl, word_dec sid⟩, ⟨rfl, trivial⟩,
        fun _ h => absurd h List.not_mem_nil⟩
    rw [readLine_render hx hplain rfl, readFields_input _ (lit "begin") rfl rfl rfl (by decide)
      (by decide), readInput, if_neg (by decide), if_pos rfl, hf]
    exact ⟨rfl, hx⟩
  · rw [if_neg hf]
    have hplain : ∀ y ∈ (lit "op", Field.str (lit "begin")) :: ([(lit "t", .word (decInt t)),
        (lit "s", .word (dec sid)), (lit "label", .str label)] ++
          [(lit "freq", .word (decInt freq))]),
        Plain y.1 ∧ y.2.Ok := by
      simp only [List.cons_append, List.nil_append, List.forall_mem_cons]
      exact ⟨⟨rfl, trivial⟩, ⟨rfl, word_decInt t⟩, ⟨rfl, word_dec sid⟩, ⟨rfl, trivial⟩, ⟨rfl, hw⟩,
        fun _ h => absurd h List.not_mem_nil⟩
    rw [readLine_render hx hplain rfl, readFields_input _ (lit "begin") rfl rfl rfl (by decide)
      (by decide), readInput, if_neg (by decide), if_pos rfl, num]
    rw [show (fieldsOf ∅ ((lit "op", Field.str (lit "begin")) :: ([(lit "t", .word (decInt t)),
      (lit "s", .word (dec sid)), (lit "label", .str label)] ++
        [(lit "freq", .word (decInt freq))]))).find? (lit "freq") = some (decInt freq) from rfl]
    dsimp only
    rw [stoll_decInt]
    exact ⟨rfl, hx⟩

/-- A tune line. -/
theorem readLine_tune {x : Replay} (hx : x.stopped = false) (t : ℤ) (sid : ℕ) (freq : ℤ) :
    (x.readLine none (tuneLine t sid freq)).model = x.model.step (.retune sid freq t) ∧
      (x.readLine none (tuneLine t sid freq)).stopped = false := by
  have hplain : ∀ y ∈ [(lit "op", Field.str (lit "tune")), (lit "t", .word (decInt t)),
      (lit "s", .word (dec sid)), (lit "freq", .word (decInt freq))], Plain y.1 ∧ y.2.Ok := by
    simp only [List.forall_mem_cons]
    exact ⟨⟨rfl, trivial⟩, ⟨rfl, word_decInt t⟩, ⟨rfl, word_dec sid⟩, ⟨rfl, word_decInt freq⟩,
      fun _ h => absurd h List.not_mem_nil⟩
  rw [tuneLine_eq, readLine_render hx hplain rfl, readFields_input _ (lit "tune") rfl rfl rfl
    (by decide) (by decide), readInput, if_neg (by decide), if_neg (by decide), if_pos rfl]
  rw [show (fieldsOf ∅ [(lit "op", Field.str (lit "tune")), (lit "t", .word (decInt t)),
    (lit "s", .word (dec sid)), (lit "freq", .word (decInt freq))]).getD (lit "freq")
      [] = decInt freq
    from rfl, stoll_decInt]
  exact ⟨rfl, hx⟩

/-- The members at the front of a session's line are plain. -/
theorem plain_session (op : String) (t : ℤ) (sid : ℕ) :
    ∀ y ∈ [(lit "op", Field.str (lit op)), (lit "t", .word (decInt t)), (lit "s", .word (dec sid))],
      Plain y.1 ∧ y.2.Ok := by
  simp only [List.forall_mem_cons]
  exact ⟨⟨rfl, trivial⟩, ⟨rfl, word_decInt t⟩, ⟨rfl, word_dec sid⟩,
    fun _ h => absurd h List.not_mem_nil⟩

/-- An end line. -/
theorem readLine_end {x : Replay} (hx : x.stopped = false) (t : ℤ) (sid : ℕ) :
    (x.readLine none (endLine t sid)).model = x.model.step (.finish sid t) ∧
      (x.readLine none (endLine t sid)).stopped = false := by
  rw [endLine, @openingFor_eq "end" rfl, readLine_render hx (plain_session "end" t sid) rfl,
    readFields_input _ (lit "end") rfl rfl rfl (by decide) (by decide), readInput,
    if_neg (by decide), if_neg (by decide), if_neg (by decide), if_neg (by decide), if_pos rfl]
  exact ⟨rfl, hx⟩

/-- A remove line. -/
theorem readLine_remove {x : Replay} (hx : x.stopped = false) (t : ℤ) (sid : ℕ) :
    (x.readLine none (removeLine t sid)).model = x.model.step (.remove sid t) ∧
      (x.readLine none (removeLine t sid)).stopped = false := by
  rw [removeLine, @openingFor_eq "remove" rfl,
    readLine_render hx (plain_session "remove" t sid) rfl,
    readFields_input _ (lit "remove") rfl rfl rfl (by decide) (by decide), readInput,
    if_neg (by decide), if_neg (by decide), if_neg (by decide), if_neg (by decide),
    if_neg (by decide), if_pos rfl]
  exact ⟨rfl, hx⟩

/-- A clear line. -/
theorem readLine_clear {x : Replay} (hx : x.stopped = false) (t : ℤ) :
    (x.readLine none (clearLine t)).model = x.model.step (.clear t) ∧
      (x.readLine none (clearLine t)).stopped = false := by
  have hplain : ∀ y ∈ [(lit "op", Field.str (lit "clear")), (lit "t", .word (decInt t))],
      Plain y.1 ∧ y.2.Ok := by
    simp only [List.forall_mem_cons]
    exact ⟨⟨rfl, trivial⟩, ⟨rfl, word_decInt t⟩, fun _ h => absurd h List.not_mem_nil⟩
  rw [clearLine_eq, readLine_render hx hplain rfl, readFields]
  set k := fieldsOf ∅ [(lit "op", Field.str (lit "clear")), (lit "t", Field.word (decInt t))]
  rw [show k.getD (lit "op") [] = lit "clear" from rfl, if_neg (by decide), num,
    show k.find? (lit "t") = some (decInt t) from rfl]
  dsimp only
  rw [stoll_decInt]
  dsimp only
  rw [if_neg (by decide), if_neg (by exact Bool.false_ne_true), num,
    show k.find? (lit "s") = none from rfl]
  dsimp only
  rw [readInput, if_neg (by decide), if_neg (by decide), if_neg (by decide), if_neg (by decide),
    if_neg (by decide), if_neg (by decide), if_pos rfl]
  exact ⟨rfl, hx⟩

/-- **The line of an input is the input again**, as far as the recording keeps it. -/
theorem readLine_lines {x : Replay} (hx : x.stopped = false) {s : AssocModel} {op : Op} {l : Bytes}
    (hl : l ∈ op.lines s) : (x.readLine none l).model = x.model.step op.logged ∧
      (x.readLine none l).stopped = false := by
  cases op with
  | begin sid label now family freq =>
    obtain rfl := List.mem_singleton.1 hl
    exact readLine_begin hx now sid label freq
  | retune sid freq now =>
    rw [Op.lines] at hl
    split at hl
    · exact absurd hl List.not_mem_nil
    · split_ifs at hl
      · exact absurd hl List.not_mem_nil
      · obtain rfl := List.mem_singleton.1 hl
        exact readLine_tune hx now sid freq
  | event sid ev now =>
    obtain rfl := List.mem_singleton.1 hl
    exact readLine_event hx now sid ev
  | finish sid now =>
    obtain rfl := List.mem_singleton.1 hl
    exact readLine_end hx now sid
  | remove sid now =>
    obtain rfl := List.mem_singleton.1 hl
    exact readLine_remove hx now sid
  | clear now =>
    obtain rfl := List.mem_singleton.1 hl
    exact readLine_clear hx now
  | audio => exact absurd hl List.not_mem_nil
  | startAudio => exact absurd hl List.not_mem_nil
  | stopAudio => exact absurd hl List.not_mem_nil

end Replay

/-! ## A frame nobody reads

The one part of an input that its line leaves out is the voice frame of an event.  It is read by the
analyzer of a call, and only for the protocols whose frames can be graded, while quality is on; in
all other cases it makes no difference. -/

namespace StreamState

variable {L : Limits} {on : Bool} {st : StreamState} {ev : DsdEvent}

/-- Is an event's voice frame graded, in a family? -/
def Graded (on : Bool) (fam : Bytes) (ev : DsdEvent) : Prop :=
  0 ≤ ev.voiceErr ∧ on ∧ qualityAmbe2Family fam

instance (on : Bool) (fam : Bytes) (ev : DsdEvent) : Decidable (Graded on fam ev) :=
  inferInstanceAs (Decidable (_ ∧ _))

/-- The event without its frame. -/
def unframed (r : Reading) : Reading := { r with ev := r.ev.logged }

/-- A frame that is not graded feeds no analyzer. -/
theorem feedQuality_unread {r : Reading} (h : ¬Graded on st.ctx.family r.ev) (i : ℕ) :
    st.feedQuality on r i = st := if_neg h

/-- What folding an event into its call does after the frame. -/
def foldRest (L : Limits) (r : Reading) (i : ℕ) (now : ℤ) (st : StreamState) : StreamState :=
  let st := st.onFam fun F => F.noteService i r.extra now
  let st := if r.enc then st.onFam fun F => F.noteEncrypted L i r.extra else st
  let st := st.onFam fun F => F.modifyCall i fun k => k.heard now
  let st := st.onCtx fun c => c.setLast r.slot i
  let st := if r.priv then st.onFam fun F => F.setPrivate L i now else st
  st.countOrJoin L i r.slot now

/-- **An event whose frame is not graded is folded in as it was logged.** -/
theorem foldEvent_logged {r : Reading} (h : ¬Graded on st.ctx.family r.ev) (i : ℕ) (now : ℤ) :
    st.foldEvent L on (unframed r) i now = st.foldEvent L on r i now := by
  rcases hk : st.fam.findCall i with _ | k
  · rw [foldEvent, foldEvent, hk]
  · set st₂ := if k.tgt = [] ∧ r.tgt ≠ [] then
      (st.onFam fun F => F.modifyCall i fun k => k.hear r st.ctx).onCtx
        fun c => c.setActive (activeKey r.slot r.tgt) i
      else st.onFam fun F => F.modifyCall i fun k => k.hear r st.ctx
    have hfam : st₂.ctx.family = st.ctx.family := by
      simp only [st₂]
      split_ifs <;> rfl
    have h₁ : st₂.feedQuality on r i = st₂ := feedQuality_unread (by rw [hfam]; exact h) i
    have h₂ : st₂.feedQuality on (unframed r) i = st₂ := feedQuality_unread
      (fun hg => absurd hg.1 (show ¬(0 : ℤ) ≤ -1 by decide)) i
    have hr : st.foldEvent L on r i now = foldRest L r i now (st₂.feedQuality on r i) := by
      rw [foldEvent, hk]
      rfl
    have hr' : st.foldEvent L on (unframed r) i now =
        foldRest L r i now (st₂.feedQuality on (unframed r) i) := by
      rw [foldEvent, hk]
      rfl
    rw [hr, hr', h₁, h₂]

/-- **An ungraded frame makes no difference to the handling of its event.** -/
theorem handle_logged {r : Reading} (h : ¬Graded on st.ctx.family r.ev) (sid : ℕ) (now : ℤ) :
    st.handle L on sid (unframed r) now = st.handle L on sid r now := by
  have hcall : ∀ t : StreamState, t.ctx.family = st.ctx.family →
      t.handleCall L on sid (unframed r) now = t.handleCall L on sid r now := fun t ht => by
    have hm := works_matchCall L t r now
    have heq : t.matchCall L (unframed r) now = t.matchCall L r now := rfl
    rw [handleCall, handleCall, heq]
    rcases hmt : t.matchCall L r now with ⟨t', _ | i⟩
    · rw [hmt] at hm
      obtain ⟨a, l, hc⟩ := hm.1.ctx
      dsimp only
      change (if (!r.callish || (r.src = [] && r.tgt = [] && r.ev.kind ≠ lit "message")) =
        true then t'
        else _) = if (!r.callish || (r.src = [] && r.tgt = [] && r.ev.kind ≠ lit "message")) = true
          then t' else _
      split_ifs
      · rfl
      · obtain ⟨a', l', hc'⟩ := (works_openCall L t' sid r.slot now).1.ctx
        refine foldEvent_logged ?_ _ now
        change ¬Graded on (t'.openCall L sid r.slot now).1.ctx.family r.ev
        rw [hc', hc, ht]
        exact h
    · rw [hmt] at hm
      obtain ⟨a, l, hc⟩ := hm.1.ctx
      refine foldEvent_logged ?_ i now
      rw [hc, ht]
      exact h
  have hear : (st.hearRadio L r now).ctx.family = st.ctx.family := by
    rw [hearRadio]
    split_ifs <;> rfl
  have hc := hcall (st.hearRadio L r now) hear
  rw [handle, handle]
  change (if _ then _ else if _ then _ else if _ then st.refine L r now else if _ then
    st.hearRadio L r now else (st.hearRadio L r now).handleCall L on sid (unframed r) now) = _
  rw [hc]
  rfl

end StreamState

namespace AssocModel

variable {L : Limits} {s : AssocModel} {sid : ℕ} {ev : DsdEvent} {now : ℤ}

/-- The family a stream is of once an event is let in. -/
def familyOn (s : AssocModel) (sid : ℕ) (ev : DsdEvent) (now : ℤ) : Bytes :=
  ((s.ctx sid).gate (.ofEvent ev) now).1.family

/-- **No voice frame is read**: the input carries none, or it reaches no stream whose calls are
graded. -/
def FramesUnread (s : AssocModel) : Op → Prop
  | .event sid ev now => ¬StreamState.Graded s.qualityOn (s.familyOn sid ev now) ev
  | _ => True

instance (s : AssocModel) : (op : Op) → Decidable (FramesUnread s op)
  | .event .. => inferInstanceAs (Decidable (¬_))
  | .begin .. | .retune .. | .audio .. | .finish .. | .remove .. | .clear .. | .startAudio ..
  | .stopAudio => isTrue trivial

/-- The identity of a stream keeps its family, and the settings. -/
theorem family_identify (s : AssocModel) (sid : ℕ) (r : Reading) (now : ℤ) :
    ((s.identify L sid r now).ctx sid).family = (s.ctx sid).family ∧
      (s.identify L sid r now).qualityOn = s.qualityOn := by
  rw [identify]
  set f := (s.ctx sid).family
  set s₁ := (s.setFamily f (s.family f)).bumpVersion
  set a := absorbIdentity (s₁.ctx sid) r
  set s₂ := (s₁.setCtx sid a.ctx).noteNeighbour sid a.neighbour
  have hc₂ : (s₂.ctx sid).family = (s.ctx sid).family := by
    rw [ctx_noteNeighbour, ctx_setCtx]
    exact absorbIdentity_family _ r
  have hq₂ : s₂.qualityOn = s.qualityOn := by
    simp only [s₂, noteNeighbour]
    split_ifs <;> rfl
  have h₃ : ((s₂.resolveNetwork L sid now).ctx sid).family = (s.ctx sid).family ∧
      (s₂.resolveNetwork L sid now).qualityOn = s.qualityOn := by
    rw [resolveNetwork]
    refine ⟨?_, ?_⟩
    · rw [ctx_setCtx]
      exact hc₂
    · split_ifs
      · rw [mergeNetwork]
        split_ifs <;> exact hq₂
      · exact hq₂
  split_ifs
  · exact h₃
  · exact ⟨hc₂, hq₂⟩

/-- **An event whose frame nobody reads is the event a recording keeps.** -/
theorem ingest_logged (h : FramesUnread s (.event sid ev now)) :
    s.ingest L sid ev now = s.ingest L sid ev.logged now := by
  rcases hc : s.sess.find? sid with _ | c
  · have hnone : ∀ line, (s.record line).sess.find? sid = none := fun _ => hc
    rw [ingest, ingest]
    dsimp only
    rw [hnone, hnone]
    rfl
  · have hsome : ∀ line, (s.record line).sess.find? sid = some c := fun _ => hc
    set r := Reading.ofEvent ev
    set s₂ := (s.record (assoclog.eventLine now sid ev)).setCtx sid (c.gate r now).1
    set s₃ := s₂.identify L sid r now
    have h₁ : s.ingest L sid ev now = if (c.gate r now).2 then
        s₃.putStream sid (((s₃.stream sid).expire L now).handle L s₃.qualityOn sid r now)
          else s₂ := by
      rw [ingest]
      dsimp only
      rw [hsome]
    have h₂ : s.ingest L sid ev.logged now = if (c.gate r now).2 then
        s₃.putStream sid (((s₃.stream sid).expire L now).handle L s₃.qualityOn sid
          (StreamState.unframed r) now) else s₂ := by
      rw [ingest]
      dsimp only
      rw [hsome]
      rfl
    rw [h₁, h₂]
    split_ifs
    · obtain ⟨hf, hq⟩ := family_identify (L := L) s₂ sid r now
      obtain ⟨a, l, he⟩ := (StreamState.works_expire L (s₃.stream sid) now).ctx
      refine congrArg (s₃.putStream sid) (StreamState.handle_logged ?_ sid now).symm
      rw [he]
      change ¬StreamState.Graded s₃.qualityOn (s₃.ctx sid).family ev
      rw [hq, hf, ctx_setCtx]
      rw [FramesUnread, familyOn, ctx_of_find? hc] at h
      exact h
    · rfl

end AssocModel

/-! ## A whole recording

The lines of a recording are the lines of its inputs, so the replay applies the inputs in turn.  Two
models that are alike but for their recordings stay so. -/

namespace AssocRecorder

/-- A line that did not hit the cap is there. -/
theorem write_untruncated {r : AssocRecorder} {l : Bytes} (hon : r.on = true)
    (h : (r.write l).truncated = false) :
    r.truncated = false ∧ (r.write l).on = true ∧ (r.write l).lines = r.lines ++ [l] := by
  have ht : r.truncated = false := by
    by_contra ht
    rw [write, if_pos (by rw [Bool.eq_true_of_not_eq_false ht, Bool.or_true])] at h
    exact ht h
  rw [write, hon, ht] at h ⊢
  rw [if_neg (by exact Bool.false_ne_true)] at h ⊢
  split_ifs at h ⊢
  exact ⟨rfl, rfl, rfl⟩

/-- A line does not stop the recording. -/
theorem on_write (r : AssocRecorder) (l : Bytes) : (r.write l).on = r.on := by
  rw [write]
  split_ifs <;> rfl

theorem on_writes (ls : List Bytes) : ∀ r : AssocRecorder, (ls.foldl write r).on = r.on := by
  induction ls with
  | nil => exact fun _ => rfl
  | cons l ls ih => exact fun r => (ih _).trans (r.on_write l)

/-- A recording that is not cut short at its end never was. -/
theorem writes_untruncated {ls : List Bytes} : ∀ {r : AssocRecorder}, r.on = true →
    (ls.foldl write r).truncated = false →
    r.truncated = false ∧ (ls.foldl write r).on = true ∧
      (ls.foldl write r).lines = r.lines ++ ls := by
  induction ls with
  | nil => exact fun hon h => ⟨h, hon, (List.append_nil _).symm⟩
  | cons l ls ih =>
    intro r hon h
    obtain ⟨h₁, h₂, h₃⟩ := ih ((r.on_write l).trans hon) h
    obtain ⟨h₄, -, h₆⟩ := write_untruncated hon h₁
    refine ⟨h₄, h₂, h₃.trans ?_⟩
    rw [h₆, List.append_assoc]
    rfl

end AssocRecorder

/-- A stream's family follows from its label, as every stream's of the server does. -/
def Op.Labelled : Op → Prop
  | .begin _ _ _ family _ => family = []
  | _ => True

namespace AssocModel

variable {L : Limits} {s : AssocModel} {sid : ℕ}

/-- **An input does the same as the input that was logged**, when its frame is not read and its
family is what its label says. -/
theorem step_logged {op : Op} (hf : FramesUnread s op) (hl : op.Labelled) :
    s.stepWith L op = s.stepWith L op.logged := by
  cases op with
  | event sid ev now => exact ingest_logged hf
  | begin sid label now family freq =>
    obtain rfl : family = [] := hl
    rfl
  | _ => rfl

/-- An input writes its line, or is none. -/
theorem lines_cases (s : AssocModel) {op : Op} (ho : op.Soundless) :
    (∃ l, op.lines s = [l]) ∨ op.lines s = [] ∧ ∀ L, s.stepWith L op = s := by
  cases op with
  | retune sid freq now =>
    rw [Op.lines]
    rcases hf : s.sess.find? sid with _ | c
    · refine Or.inr ⟨rfl, fun L => ?_⟩
      rw [stepWith, retuneStream, hf]
    · dsimp only
      split_ifs with hfr
      · refine Or.inr ⟨rfl, fun L => ?_⟩
        rw [stepWith, retuneStream, hf]
        exact if_pos hfr
      · exact Or.inl ⟨_, rfl⟩
  | audio => exact ho.elim
  | startAudio => exact ho.elim
  | stopAudio => exact ho.elim
  | _ => exact Or.inl ⟨_, rfl⟩

/-- **Along a run, the replay of what is written keeps up.** -/
theorem replay_run {ops : List Op} : ∀ {s : AssocModel}, s.Inv s.limits → s.Mute →
    (∀ op ∈ ops, op.Soundless ∧ op.Labelled ∧ op.session ≠ some sid) → Along FramesUnread s ops →
    ∃ ls : List Bytes, (s.run ops).log = ls.foldl AssocRecorder.write s.log ∧
      ∀ x : Replay, x.stopped = false → Shadow sid s x.model →
        (ls.foldl (Replay.readLine none) x).stopped = false ∧
          Shadow sid (s.run ops) (ls.foldl (Replay.readLine none) x).model := by
  induction ops with
  | nil => exact fun _ _ _ _ => ⟨[], rfl, fun _ hx h => ⟨hx, h⟩⟩
  | cons op ops ih =>
    intro s hi hm hops ha
    obtain ⟨hsound, hlab, hsid⟩ := hops op List.mem_cons_self
    obtain ⟨hm', htape⟩ := writes_step hi hm hsound
    have hlog : (s.step op).log = (op.lines s).foldl AssocRecorder.write s.log :=
      congrArg Prod.fst htape
    have hlim : (s.step op).limits = s.limits :=
      congrArg (fun t : AssocRecorder × ℕ => Limits.standard t.2) htape
    have hi' : (s.step op).Inv (s.step op).limits := by
      rw [hlim]
      exact hi.step op
    obtain ⟨ls, hls, hrun⟩ := ih hi' hm' (fun o ho => hops o (List.mem_cons_of_mem op ho)) ha.2
    rcases lines_cases s hsound with ⟨l, hl⟩ | ⟨hl, hsame⟩
    · refine ⟨l :: ls, ?_, fun x hx h => ?_⟩
      · change ((s.step op).run ops).log = ls.foldl AssocRecorder.write (s.log.write l)
        rw [hls, hlog, hl]
        rfl
      · obtain ⟨hmod, hst⟩ := Replay.readLine_lines hx (show l ∈ op.lines s by
          rw [hl]
          exact List.mem_singleton_self l)
        refine hrun _ hst ?_
        have hlimits : s.limits = x.model.limits := congrArg (fun s => s.limits) h.core
        rw [hmod, step, step_logged ha.1 hlab, step, hlimits]
        refine h.step ?_
        cases op <;> exact hsid
    · refine ⟨ls, ?_, fun x hx h => hrun x hx ?_⟩
      · change ((s.step op).run ops).log = ls.foldl AssocRecorder.write s.log
        rw [hls, hlog, hl]
        rfl
      · rw [step, hsame]
        exact h

end AssocModel

/-! ## Recording from the start

A recording that starts with a cleared model begins with its header.  From there the two runs start
in one state: the header carries the identity, the time of the first data and the size of the call
lists. -/

namespace Replay

/-- A snapshot is no input. -/
theorem readLine_of_isPrefixOf (x : Replay) {l : Bytes}
    (h : (lit "\x7b\"op\":\"snapshot\",").isPrefixOf l = true) :
    (x.readLine none l).model = x.model ∧ (x.readLine none l).stopped = x.stopped := by
  rw [readLine]
  by_cases hx : x.stopped = true ∨ l = []
  · rw [if_pos hx]
    exact ⟨rfl, rfl⟩
  · rw [if_neg hx]
    dsimp only
    rw [if_pos h]
    by_cases hs : has l (lit "\"why\":\"stop\"") = true
    · rw [if_pos hs]
      exact ⟨rfl, rfl⟩
    · rw [if_neg hs]
      exact ⟨rfl, rfl⟩

theorem readLine_snapshot (x : Replay) (t : ℤ) (why : String) (model : Bytes) :
    (x.readLine none (snapshotLine t why model)).model = x.model ∧
      (x.readLine none (snapshotLine t why model)).stopped = x.stopped :=
  x.readLine_of_isPrefixOf rfl

set_option maxRecDepth 4000 in
/-- The header gives the model its identity, its span and its list size. -/
theorem readLine_header {x : Replay} (hx : x.stopped = false) (t : ℤ) (fresh : Bool)
    (instanceId name : Bytes) (since : ℤ) (n : ℕ) :
    (x.readLine none (headerLine t fresh instanceId name since n)).model =
        ((x.model.setIdentity instanceId name).setSince since).setMaxCalls n ∧
      (x.readLine none (headerLine t fresh instanceId name since n)).stopped = false := by
  have hb : (Field.word (if fresh then lit "true" else lit "false")).Ok := by
    cases fresh <;> exact ⟨by decide, by decide⟩
  have hplain : ∀ y ∈ [(lit "op", Field.str (lit "header")), (lit "v", .word (lit "1")),
      (lit "t", .word (decInt t)), (lit "fresh", .word (if fresh then lit "true" else lit "false")),
      (lit "instance", .str instanceId), (lit "name", .str name),
      (lit "since", .word (decInt since)),
      (lit "max_calls", .word (dec n))], Plain y.1 ∧ y.2.Ok := by
    simp only [List.forall_mem_cons]
    exact ⟨⟨rfl, trivial⟩, ⟨rfl, ⟨by decide, by decide⟩⟩, ⟨rfl, word_decInt t⟩, ⟨rfl, hb⟩,
      ⟨rfl, trivial⟩,
      ⟨rfl, trivial⟩, ⟨rfl, word_decInt since⟩, ⟨rfl, word_dec n⟩,
      fun _ h => absurd h List.not_mem_nil⟩
  rw [headerLine_eq, readLine_render hx hplain rfl, readFields]
  set k := fieldsOf ∅ _
  rw [show k.getD (lit "op") [] = lit "header" from rfl, if_neg (by decide), num,
    show k.find? (lit "t") = some (decInt t) from rfl]
  dsimp only
  rw [stoll_decInt]
  dsimp only
  rw [if_pos rfl, readHeader, show k.find? (lit "instance") = some instanceId from rfl,
    show k.getD (lit "name") [] = name from rfl, num,
    show k.find? (lit "since") = some (decInt since) from rfl]
  dsimp only
  rw [stoll_decInt]
  dsimp only
  rw [num, show k.find? (lit "max_calls") = some (dec n) from rfl]
  dsimp only
  rw [stoull_dec]
  exact ⟨rfl, hx⟩

end Replay

namespace AssocModel

/-- A model that was just started, with its settings. -/
def started (instanceId name : Bytes) (since : ℤ) (n : ℕ) (qualityOn : Bool) : AssocModel :=
  { instanceId := instanceId, name := name, since := since, maxCalls := max n 10,
    qualityOn := qualityOn }

section Rebuilding

variable (snapshot : AssocModel → ℤ → Bytes) (instanceId name : Bytes) (since : ℤ) (n : ℕ)
  (qualityOn : Bool) (maxBytes : ℕ) (clearFirst : Bool) (t₀ : ℤ)

/-- A model recorded from the start. -/
def recordedFromStart : AssocModel :=
  (started instanceId name since n qualityOn).startRecording snapshot true maxBytes clearFirst t₀

/-- A recording of a model without streams begins with its header and a snapshot. -/
theorem startRecording_idle {s : AssocModel} (hl : s.log.on = false) (hs : s.sess = ∅) :
    ∃ fresh text v, s.startRecording snapshot true maxBytes false t₀ =
      { s with
        version := v
        log := ((AssocRecorder.start maxBytes).write
          (headerLine t₀ fresh s.instanceId s.name s.since s.maxCalls)).write
            (snapshotLine t₀ "start" text) } := by
  set fresh := s.fams.isEmpty && decide (s.nextCall = 0)
  set s₁ := AssocModel.record { s with log := AssocRecorder.start maxBytes }
    (headerLine t₀ fresh s.instanceId s.name s.since s.maxCalls) with hs₁
  refine ⟨fresh, snapshot s₁ t₀, s.version + 1, ?_⟩
  rw [startRecording, hl, if_neg (by exact Bool.false_ne_true),
    if_neg (by exact Bool.false_ne_true)]
  dsimp only
  have hnone : s₁.sess.entries = [] := by
    rw [hs₁, record, hs]
    rfl
  rw [if_neg (by decide), ← hs₁, hnone]
  rfl

/-- The state of such a model when the recording has begun, and what is written by then. -/
theorem recordedFromStart_eq : ∃ fresh text since',
    (recordedFromStart snapshot instanceId name since n qualityOn maxBytes clearFirst t₀).core =
        (started instanceId name since' n qualityOn).core ∧
      (recordedFromStart snapshot instanceId name since n qualityOn maxBytes clearFirst t₀).sess =
        ∅ ∧
      (recordedFromStart snapshot instanceId name since n qualityOn maxBytes clearFirst t₀).log =
        ((AssocRecorder.start maxBytes).write
          (headerLine t₀ fresh instanceId name since' (max n 10))).write
            (snapshotLine t₀ "start" text) := by
  set s₀ := started instanceId name since n qualityOn
  have hclear : s₀.startRecording snapshot true maxBytes true t₀ =
      (s₀.clearLocked t₀).startRecording snapshot true maxBytes false t₀ := by
    rw [startRecording, startRecording]
    rfl
  cases clearFirst
  · obtain ⟨fresh, text, v, h⟩ := startRecording_idle snapshot maxBytes t₀ (s := s₀) rfl rfl
    refine ⟨fresh, text, since, ?_⟩
    rw [recordedFromStart, h]
    exact ⟨rfl, rfl, rfl⟩
  · obtain ⟨fresh, text, v, h⟩ :=
      startRecording_idle snapshot maxBytes t₀ (s := s₀.clearLocked t₀) rfl rfl
    refine ⟨fresh, text, t₀, ?_⟩
    rw [recordedFromStart, hclear, h]
    exact ⟨rfl, rfl, rfl⟩

/-- The header makes a blank model the recorded one. -/
theorem core_header (since' : ℤ) :
    (((((started [] [] 0 0 qualityOn).setIdentity instanceId name).setSince since').setMaxCalls
      (max n 10))).core = (started instanceId name since' n qualityOn).core := by
  have hi : (if instanceId = [] then ([] : Bytes) else instanceId) = instanceId := by
    split_ifs with h
    · exact h.symm
    · rfl
  simp only [setIdentity, setSince, setMaxCalls, started, AssocModel.core, hi, max_assoc, max_self]

/-- The file of a recording that did not hit its cap: every line of it. -/
theorem lines_stopRecording {s₁ live : AssocModel} {header first : Bytes} {ls : List Bytes}
    (hlog : s₁.log = ((AssocRecorder.start maxBytes).write header).write first)
    (hls : live.log = ls.foldl AssocRecorder.write s₁.log) (t₁ : ℤ)
    (ht : (live.stopRecording snapshot t₁).log.truncated = false) :
    (live.stopRecording snapshot t₁).log.lines =
      [header, first] ++ (ls ++ [snapshotLine t₁ "stop" (snapshot live t₁)]) := by
  have hon : live.log.on = true := by
    rw [hls, AssocRecorder.on_writes, hlog, AssocRecorder.on_write, AssocRecorder.on_write]
    rfl
  have hstop : (live.stopRecording snapshot t₁).log =
      (live.log.write (snapshotLine t₁ "stop" (snapshot live t₁))).stop := by
    rw [stopRecording, if_neg (by rw [hon]; exact Bool.false_ne_true)]
    rfl
  generalize snapshotLine t₁ "stop" (snapshot live t₁) = last at hstop ⊢
  have hall : live.log.write last =
      ([header, first] ++ (ls ++ [last])).foldl AssocRecorder.write (.start maxBytes) := by
    rw [hls, hlog, List.foldl_append, List.foldl_append]
    rfl
  rw [hstop, hall] at ht ⊢
  exact (AssocRecorder.writes_untruncated rfl ht).2.2

/-- A replay of a whole file: the header, a snapshot, the inputs, a snapshot. -/
theorem replay_file {s₁ live m₀ m₁ : AssocModel} {sid : ℕ} {header first last : Bytes}
    {ls : List Bytes}
    (hheader : (Replay.readLine none { model := m₀ } header).model = m₁ ∧
      (Replay.readLine none { model := m₀ } header).stopped = false)
    (hfirst : ∀ x : Replay, (x.readLine none first).model = x.model ∧
      (x.readLine none first).stopped = x.stopped)
    (hlast : ∀ x : Replay, (x.readLine none last).model = x.model) (hs : Shadow sid s₁ m₁)
    (hrun : ∀ x : Replay, x.stopped = false → Shadow sid s₁ x.model →
      (ls.foldl (Replay.readLine none) x).stopped = false ∧
        Shadow sid live (ls.foldl (Replay.readLine none) x).model) :
    Shadow sid live (replayLog none ([header, first] ++ (ls ++ [last])) m₀).model := by
  rw [replayLog, List.foldl_append, List.foldl_append]
  change Shadow sid live (Replay.readLine none (ls.foldl (Replay.readLine none)
    ((Replay.readLine none { model := m₀ } header).readLine none first)) last).model
  rw [hlast]
  obtain ⟨hm, hx⟩ := hfirst (Replay.readLine none { model := m₀ } header)
  refine (hrun _ (hx.trans hheader.2) ?_).2
  rw [hm, hheader.1]
  exact hs

/-- **A recording from the start whose frames nobody reads is replayed to the same families**, with
the same voice-quality verdicts of their calls. -/
theorem replay_rebuilds {ops : List Op} (hops : ∀ op ∈ ops, op.Soundless ∧ op.Labelled)
    (hu : Along FramesUnread
      (recordedFromStart snapshot instanceId name since n qualityOn maxBytes clearFirst t₀) ops)
    (t₁ : ℤ)
    (ht : (((recordedFromStart snapshot instanceId name since n qualityOn maxBytes clearFirst
      t₀).run ops).stopRecording snapshot t₁).log.truncated = false) :
    let live :=
      (recordedFromStart snapshot instanceId name since n qualityOn maxBytes clearFirst t₀).run ops
    let replayed := (replayLog none (live.stopRecording snapshot t₁).log.lines
      (started [] [] 0 0 qualityOn)).model
    replayed.fams = live.fams ∧ replayed.quality = live.quality := by
  -- a session no input is of
  obtain ⟨sid, hsid⟩ := Infinite.exists_notMem_finset (ops.filterMap Op.session).toFinset
  have hnone : ∀ op ∈ ops, op.session ≠ some sid := fun op hop hs =>
    hsid (List.mem_toFinset.2 (List.mem_filterMap.2 ⟨op, hop, hs⟩))
  obtain ⟨fresh, text, since', hcore, hsess, hlog⟩ :=
    recordedFromStart_eq snapshot instanceId name since n qualityOn maxBytes clearFirst t₀
  generalize recordedFromStart snapshot instanceId name since n qualityOn maxBytes clearFirst
    t₀ = s₁ at *
  have hfams : s₁.fams = ∅ := congrArg (·.fams) hcore
  have hfam : ∀ f, s₁.family f = {} := fun f => by
    rw [family, hfams]
    rfl
  obtain ⟨ls, hls, hrun⟩ := replay_run (.blank hfams _)
    (fun f => by rw [hfam]; exact .blank)
    (fun op hop => ⟨(hops op hop).1, (hops op hop).2, hnone op hop⟩) hu
  have hshadow :
      Shadow sid s₁ ((((started [] [] 0 0 qualityOn).setIdentity instanceId name).setSince
      since').setMaxCalls (max n 10)) := by
    refine ⟨hcore.trans (core_header instanceId name n qualityOn since').symm, fun i _ => ?_, rfl,
      fun c hc => ?_, fun _ => .blank sid⟩
    · rw [hsess]
      rfl
    · rw [hsess] at hc
      cases hc
  intro live replayed
  have hend : Shadow sid live replayed := by
    simp only [replayed]
    rw [lines_stopRecording snapshot maxBytes hlog hls t₁ ht]
    exact replay_file (Replay.readLine_header rfl t₀ fresh instanceId name since' (max n 10))
      (fun x => x.readLine_snapshot t₀ "start" text) (fun x => (x.readLine_snapshot t₁ "stop" _).1)
      hshadow hrun
  exact ⟨hend.fams_eq.symm, (congrArg (·.quality) hend.core).symm⟩

end Rebuilding

/-! ### A voice frame is lost

With quality on, a graded frame is counted live, and not in the replay.  The run below has one such
frame in it. -/

/-- A voice call on DMR, its event with a voice frame of so many errors (−1: none). -/
def framedRun (err : ℤ) : List Op :=
  [.begin 1 (lit "dmr") 1000 [] 434425000,
   .event 1
    { kind := lit "voice", talkgroup := lit "9", sourceId := lit "100", voiceErr := err } 2000,
   .finish 1 3000]

/-- Recorded from the start, run, and stopped. -/
def recordedRun (ops : List Op) : AssocModel :=
  ((recordedFromStart (fun _ _ => lit "\x7b\x7d") (lit "a") [] 0 100 true 0 false 500).run
    ops).stopRecording (fun _ _ => lit "\x7b\x7d") 4000

/-- Its replay. -/
def replayedRun (ops : List Op) : AssocModel :=
  (replayLog none (recordedRun ops).log.lines (started [] [] 0 0 true)).model

theorem replay_rebuilds_framedRun : (replayedRun (framedRun (-1))).fams =
    ((recordedFromStart (fun _ _ => lit "\x7b\x7d") (lit "a") [] 0 100 true 0 false 500).run
      (framedRun (-1))).fams := by
  have hops : ∀ op ∈ framedRun (-1), op.Soundless ∧ op.Labelled := by
    rw [framedRun]
    simp only [List.forall_mem_cons]
    exact ⟨⟨trivial, rfl⟩, ⟨trivial, trivial⟩, ⟨trivial, trivial⟩,
      fun _ h => absurd h List.not_mem_nil⟩
  have hunread : Along FramesUnread
      (recordedFromStart (fun _ _ => lit "\x7b\x7d") (lit "a") [] 0 100 true 0 false 500)
      (framedRun (-1)) := by decide +kernel
  have hwhole : (recordedRun (framedRun (-1))).log.truncated = false := by decide +kernel
  rw [replayedRun]
  rw [recordedRun] at hwhole ⊢
  generalize framedRun (-1) = ops at *
  have h := replay_rebuilds (fun _ _ => lit "\x7b\x7d") (lit "a") [] 0 100 true 0 false 500 hops
    hunread 4000 hwhole
  exact h.1

/-- **The replay of a call with a voice frame lacks its summary**: the recording has no place for
the frame. -/
theorem replay_loses_verdict : ∃ k ∈ ((recordedRun (framedRun 3)).family (lit "dmr")).calls,
    ∃ k' ∈ ((replayedRun (framedRun 3)).family (lit "dmr")).calls,
      (recordedRun (framedRun 3)).log.truncated = false ∧ k'.id = k.id ∧ k'.qual ≠ k.qual := by
  decide +kernel

end AssocModel

end DsdServer
