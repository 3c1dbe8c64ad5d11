import DsdServer.Assoc.Replay
import DsdServer.Assoc.Streams
import DsdServer.Json.Write

/-!
# Assoc/Listing — the list of running streams

The page shows the streams that run, each with its label, its channel and since when.  What a stream
shows changes with the four operations on it only, and a retune forgets since when it runs: the list
is right exactly as long as no running stream was retuned (`streams_listed`).

The list is written as text, and what it should show is a fold over the operations on each stream,
by itself.  They are compared entry by entry, so that the condition can be read off: it names the
one operation at which they part.
-/

open Bytes

namespace DsdServer

/-! ## What the list shows of a stream

The card of a stream holds what is listed of it and whether it runs.  Everything that is not one of
the four stream operations leaves it, which was proved for steady readings in general. -/

/-- What the list shows of a running stream, its session apart. -/
structure StreamEntry where
  label : Bytes
  freq : ℤ
  since : ℤ
  deriving DecidableEq

/-- The entry of a stream. -/
def Ctx.listed (c : Ctx) : StreamEntry := ⟨c.label, c.freq, c.startedMs⟩

/-- Whether a stream runs, and what the list shows of it. -/
def Ctx.card (c : Ctx) : Bool × StreamEntry := (c.running, c.listed)

theorem Ctx.steady_card : Steady Ctx.card where
  leave c dead := by rw [Ctx.leave]; split_ifs <;> rfl
  moveAlong c frm dst := by rw [Ctx.moveAlong]; split_ifs <;> rfl
  settle _ _ := rfl
  calls _ _ _ := rfl
  preroll _ _ := rfl

theorem Ctx.SameStream.card_eq {c c' : Ctx} (h : SameStream c c') : c'.card = c.card := by
  obtain ⟨_, _, _, _, _, _, rfl⟩ := h
  rfl

theorem Ctx.gate_card (c : Ctx) (r : Reading) (now : ℤ) : (c.gate r now).1.card = c.card := by
  rw [Ctx.gate]
  have h : (if r.ev.kind ≠ lit "unknown" ∧ r.ev.crcError ≠ lit "1" then { c with heardMs := now }
      else c).card = c.card := by split_ifs <;> rfl
  revert h
  generalize (if r.ev.kind ≠ lit "unknown" ∧ r.ev.crcError ≠ lit "1" then { c with heardMs := now }
      else c) = c'
  intro h
  dsimp only
  split_ifs
  all_goals first | exact h | exact (Ctx.SameStream.absorbIdentity _ r).card_eq.trans h

/-- What an event does to the context leaves the card. -/
theorem Ctx.heed_card (c : Ctx) (r : Reading) (now : ℤ) : (c.heed r now).card = c.card := by
  have hg := c.gate_card r now
  rw [Ctx.heed]
  split_ifs
  · exact (Ctx.SameStream.absorbIdentity _ r).card_eq.trans hg
  · exact hg

namespace AssocModel

open assocjson in
/-- One entry of the list, with what the stream shows. -/
def streamJson (sid : ℕ) (x : StreamEntry) (c : Ctx) : Bytes :=
  lit "\x7b\"s\":" ++ dec sid ++ lit ",\"fam\":" ++ q c.family ++ lit ",\"label\":" ++ q x.label ++
    lit ",\"freq\":" ++ decInt x.freq ++ lit ",\"since\":" ++ decInt x.since ++
    lit ",\"heard\":" ++ decInt c.heardMs ++ lit ",\"live\":" ++ b c.live ++ lit "\x7d"

/-- The streams that run. -/
def streams (s : AssocModel) : SortedMap ℕ Ctx := s.sess.filter fun _ c => c.running

/-- **The streams running now**, as the page gets them. -/
def streamsJsonLocked (s : AssocModel) : Bytes :=
  lit "[" ++
    assocjson.commas (s.streams.entries.map fun e => streamJson e.1 e.2.listed e.2) ++ lit "]"

/-- What the list shows, by session. -/
def listing (s : AssocModel) : SortedMap ℕ StreamEntry := s.streams.mapVal fun _ c => c.listed

theorem find?_listing (s : AssocModel) (i : ℕ) :
    s.listing.find? i = if (s.ctx i).running then some (s.ctx i).listed else none := by
  rw [listing, SortedMap.find?_mapVal, streams, SortedMap.find?_filter, ctx, SortedMap.getD]
  rcases s.sess.find? i with _ | c
  · rfl
  · rw [Option.filter_some, Option.getD_some]
    rcases c.running with _ | _ <;> rfl

/-- The text of a list, with what its streams show given. -/
def listText (s : AssocModel) (shown : SortedMap ℕ StreamEntry) : Bytes :=
  lit "[" ++ assocjson.commas (shown.entries.map fun e => streamJson e.1 e.2 (s.ctx e.1)) ++ lit "]"

/-- **The page gets the list as text.** -/
theorem streamsJsonLocked_eq (s : AssocModel) : s.streamsJsonLocked = s.listText s.listing := by
  have hentries : s.listing.entries = s.streams.entries.map fun e => (e.1, e.2.listed) := rfl
  rw [streamsJsonLocked, listText, hentries, List.map_map]
  refine congrArg (fun l => lit "[" ++ assocjson.commas l ++ lit "]")
    (List.map_congr_left fun e he => ?_)
  have hfind : s.sess.find? e.1 = some e.2 :=
    SortedMap.find?_eq_some_iff.2 (List.mem_of_mem_filter he)
  rw [Function.comp_apply, ctx, SortedMap.getD_of_find? hfind]

end AssocModel

/-! ## What it should show

An observer who sees the operations, and nothing of the model, keeps a list of his own: a stream
comes in when it begins, moves when it is retuned, and goes when it ends or is removed.  Retuning a
stream that is not there lists nothing. -/

/-- A stream that should be listed, and whether it moved to another channel since it began. -/
structure Watched where
  entry : StreamEntry
  moved : Bool := false
  deriving DecidableEq

/-- The operations on the model: its inputs, and the start of a recording. -/
inductive StreamOp
  | input (op : Op)
  | startRecording (created : Bool) (maxBytes : ℕ) (clearFirst : Bool) (now : ℤ)

/-- The streams that should be listed after one more operation. -/
def watch (w : SortedMap ℕ Watched) : StreamOp → SortedMap ℕ Watched
  | .input (.begin sid label now _ freq) => w.insert sid ⟨⟨label, freq, now⟩, false⟩
  | .input (.retune sid freq _) => w.modify sid fun x =>
      ⟨⟨x.entry.label, freq, x.entry.since⟩, x.moved || decide (x.entry.freq ≠ freq)⟩
  | .input (.finish sid _) => w.erase sid
  | .input (.remove sid _) => w.erase sid
  | _ => w

namespace AssocModel

variable {s : AssocModel} {w : SortedMap ℕ Watched}

/-- What a session's stream is known to show. -/
def Shows (c : Ctx) : Option Watched → Prop
  | none => c.running = false
  | some x => c.card = (true, ⟨x.entry.label, x.entry.freq, if x.moved then 0 else x.entry.since⟩)

/-- Every stream shows what it should, but for the time when it moved. -/
def Follows (s : AssocModel) (w : SortedMap ℕ Watched) : Prop := ∀ i, Shows (s.ctx i) (w.find? i)

/-- What is shown is a matter of the card. -/
theorem Shows.congr {c c' : Ctx} (h : c'.card = c.card) {o : Option Watched} (hs : Shows c o) :
    Shows c' o := by
  rcases o with _ | x
  · exact (congrArg Prod.fst h).trans hs
  · exact h.trans hs

/-- Where cards stay, the list stays right. -/
theorem Follows.congr {s' : AssocModel} (h : Same Ctx.card s s') (hf : s.Follows w) :
    s'.Follows w :=
  fun i => (hf i).congr (h i)

/-- Nothing is listed of a model without streams. -/
theorem Follows.blank (hs : s.sess = ∅) : s.Follows ∅ := fun i => by
  rw [ctx, hs]
  rfl

variable (snapshot : AssocModel → ℤ → Bytes)

/-- **One more operation.** -/
def operate (s : AssocModel) : StreamOp → AssocModel
  | .input op => s.step op
  | .startRecording created maxBytes clearFirst now =>
    s.startRecording snapshot created maxBytes clearFirst now

variable {snapshot}

/-- Clearing leaves the cards: the streams go on. -/
theorem same_clearLocked (s : AssocModel) (now : ℤ) : Same Ctx.card s (s.clearLocked now) :=
  .mapVal (g := Ctx.forget) (fun _ => rfl) rfl

theorem same_startRecording (s : AssocModel) (created : Bool) (maxBytes : ℕ) (clearFirst : Bool)
    (now : ℤ) : Same Ctx.card s (s.startRecording snapshot created maxBytes clearFirst now) := by
  have hclear : Same Ctx.card s (if clearFirst then s.clearLocked now else s) := by
    split_ifs
    · exact s.same_clearLocked now
    · exact .refl s
  have hresumed : ∀ (l : List (ℕ × Ctx)) (s : AssocModel), (l.foldl (recordResumed now) s).sess =
      s.sess := by
    intro l
    induction l with
    | nil => exact fun _ => rfl
    | cons e l ih =>
      intro s
      rw [List.foldl_cons, ih, recordResumed]
      split_ifs <;> rfl
  rw [startRecording]
  dsimp only
  by_cases hon : s.log.on
  · rw [if_pos hon]
    exact .refl s
  rw [if_neg hon]
  by_cases hc : (!created) = true
  · rw [if_pos hc]
    exact hclear
  · rw [if_neg hc]
    exact hclear.trans (.of_sess (hresumed _ _))

/-- **One more operation, and the list follows.** -/
theorem Follows.after (h : s.Follows w) (op : StreamOp) :
    (s.operate snapshot op).Follows (watch w op) := by
  rcases op with op | ⟨created, maxBytes, clearFirst, now⟩
  swap
  · exact h.congr (s.same_startRecording created maxBytes clearFirst now)
  cases op with
  | begin sid label now family freq =>
    intro i
    have hp := proj_beginStream (L := s.limits) Ctx.steady_card s sid label now family freq i
    change Shows ((s.beginStream s.limits sid label now family freq).ctx i)
      ((w.insert sid _).find? i)
    rw [SortedMap.find?_insert]
    split_ifs with hi
    · rw [if_pos hi] at hp
      exact hp
    · rw [if_neg hi] at hp
      exact (h i).congr hp
  | retune sid freq now =>
    intro i
    have hp := proj_retuneStream (L := s.limits) Ctx.steady_card s sid freq now i
    change Shows ((s.retuneStream s.limits sid freq now).ctx i) ((w.modify sid _).find? i)
    rw [SortedMap.find?_modify]
    by_cases hi : i = sid
    · subst hi
      rw [if_pos rfl]
      have hs := h i
      rcases hx : w.find? i with _ | x
      · -- the stream does not run, and a retune does not start it
        rw [hx] at hs
        have hr : ((s.ctx i).retune freq).card.1 = (s.ctx i).card.1 := rfl
        refine Eq.trans (congrArg Prod.fst hp) ?_
        split_ifs
        · exact hr.trans hs
        · exact hs
      · rw [hx] at hs
        have hcard : (s.ctx i).card = _ := hs
        have hrun : (s.ctx i).running = true := congrArg Prod.fst hcard
        have hfreq : (s.ctx i).freq = x.entry.freq := congrArg (fun e => e.2.freq) hcard
        have hlabel : (s.ctx i).label = x.entry.label := congrArg (fun e => e.2.label) hcard
        have hmem : i ∈ s.sess := by
          by_contra hn
          rw [ctx, SortedMap.getD_of_not_mem hn] at hrun
          cases hrun
        refine Eq.trans hp ?_
        by_cases hf : x.entry.freq = freq
        · rw [if_neg fun hc => hc.2.2 (hfreq.trans hf), hcard]
          subst hf
          simp
        · rw [if_pos ⟨rfl, hmem, fun hc => hf (hfreq.symm.trans hc)⟩]
          simp [Ctx.card, Ctx.listed, Ctx.retune, hrun, hlabel, hf]
    · rw [if_neg hi]
      rw [if_neg fun hc => hi hc.1] at hp
      exact (h i).congr hp
  | event sid ev now =>
    refine h.congr fun i => ?_
    change ((s.ingest s.limits sid ev now).ctx i).card = _
    obtain ⟨o, hc⟩ : ∃ o, s.sess.find? sid = o := ⟨_, rfl⟩
    rcases o with _ | c
    · rw [AssocModel.ingest]
      dsimp only
      rw [show (s.record (assoclog.eventLine now sid ev)).sess.find? sid = none from hc]
      rfl
    · rw [proj_ingest Ctx.steady_card hc ev now i]
      split_ifs with hi
      · rw [Ctx.heed_card, hi, ctx_of_find? hc]
      · rfl
  | audio sid slot pcm keyed creatable now =>
    exact h.congr (same_audio Ctx.steady_card s sid slot pcm keyed creatable now)
  | finish sid now =>
    intro i
    have hp := proj_endStream (L := s.limits) Ctx.steady_card s sid now i
    change Shows ((s.endStream s.limits sid now).ctx i) ((w.erase sid).find? i)
    rw [SortedMap.find?_erase]
    split_ifs with hi
    · rw [if_pos hi] at hp
      exact congrArg Prod.fst hp
    · rw [if_neg hi] at hp
      exact (h i).congr hp
  | remove sid now =>
    intro i
    have hp := proj_removeSession (L := s.limits) Ctx.steady_card s sid now i
    change Shows ((s.removeSession s.limits sid now).ctx i) ((w.erase sid).find? i)
    rw [SortedMap.find?_erase]
    split_ifs with hi
    · rw [if_pos hi] at hp
      exact congrArg Prod.fst hp
    · rw [if_neg hi] at hp
      exact (h i).congr hp
  | clear now =>
    exact h.congr
      ((Same.of_sess rfl).trans (same_clearLocked (s.record (assoclog.clearLine now)) now))
  | startAudio listing cap maxAge now =>
    refine h.congr (.of_sess ?_)
    change (s.startAudio listing cap maxAge now).sess = s.sess
    rw [startAudio]
    split_ifs
    · rfl
    · exact sess_reconcileEvicted _ now
  | stopAudio => exact h.congr (.mapVal (g := fun c => { c with preroll := ∅ }) (fun _ => rfl) rfl)

/-- **The list along a run**, operation by operation. -/
theorem Follows.run {ops : List StreamOp} :
    ∀ {s : AssocModel} {w : SortedMap ℕ Watched}, s.Follows w →
    (ops.foldl (operate snapshot) s).Follows (ops.foldl watch w) := by
  induction ops with
  | nil => exact fun h => h
  | cons op ops ih => exact fun h => ih (h.after op)

/-- The list is right when the streams that moved began at the start of time. -/
theorem Follows.listing_iff (h : s.Follows w) :
    s.listing = (w.mapVal fun _ x => x.entry) ↔
      ∀ i x, w.find? i = some x → x.moved = true → x.entry.since = 0 := by
  have hfind : ∀ i, s.listing.find? i = (w.find? i).map fun x =>
      ⟨x.entry.label, x.entry.freq, if x.moved then 0 else x.entry.since⟩ := by
    intro i
    have hs := h i
    rw [find?_listing]
    rcases hx : w.find? i with _ | x
    · rw [hx] at hs
      rw [show (s.ctx i).running = false from hs]
      rfl
    · rw [hx] at hs
      have hcard : (s.ctx i).card = _ := hs
      rw [show (s.ctx i).running = true from congrArg Prod.fst hcard, if_pos rfl]
      exact congrArg some (congrArg Prod.snd hcard)
  constructor
  · intro heq i x hx hm
    have hi := hfind i
    rw [heq, SortedMap.find?_mapVal, hx, Option.map_some, Option.map_some, Option.some.injEq] at hi
    rw [congrArg StreamEntry.since hi, hm]
    rfl
  · intro hz
    refine SortedMap.ext_find? fun i => ?_
    rw [hfind, SortedMap.find?_mapVal]
    rcases hx : w.find? i with _ | x
    · rfl
    · rw [Option.map_some, Option.map_some]
      refine congrArg some ?_
      split_ifs with hm
      · rw [← hz i x hx hm]
      · rfl

/-- A stream begins at one time and moves to another channel. -/
def movedRun : List StreamOp :=
  [.input (.begin 1 (lit "dmr") 5 [] 100), .input (.retune 1 200 7)]

/-- It is listed as running since the start of time. -/
theorem moved_stream_forgets_since :
    (movedRun.foldl (operate fun _ _ => []) {}).listing ≠
      (movedRun.foldl watch ∅).mapVal fun _ x => x.entry := by decide +kernel

/-- **The list of running streams, after every run**: it shows exactly the streams whose latest
begin no end or removal followed, each with the label of its latest begin, the channel of its latest
begin or retune and the time of its latest begin, exactly when none of these moved to another
channel since it began (but one that began at time 0); and then so does its text. -/
theorem streams_listed (hs : s.sess = ∅) (ops : List StreamOp) :
    let s' := ops.foldl (operate snapshot) s
    let expected := (ops.foldl watch ∅).mapVal fun _ x => x.entry
    (s'.listing = expected ↔ ∀ i x, (ops.foldl watch ∅).find? i = some x → x.moved = true →
      x.entry.since = 0) ∧
      ((∀ i x, (ops.foldl watch ∅).find? i = some x → x.moved = true → x.entry.since = 0) →
        s'.streamsJsonLocked = s'.listText expected) := by
  intro s' expected
  have hfollows : s'.Follows (ops.foldl watch ∅) := Follows.run (.blank hs)
  refine ⟨hfollows.listing_iff, fun h => ?_⟩
  rw [streamsJsonLocked_eq, show s'.listing = expected from hfollows.listing_iff.2 h]

/-- Three streams begin, one moves and starts again, one ends, and everything is cleared. -/
def listedRun : List StreamOp :=
  [.input (.begin 1 (lit "dmr") 5 [] 100), .input (.begin 2 (lit "nxdn") 6 [] 0),
    .input (.retune 1 200 7), .input (.begin 1 (lit "p25") 8 [] 300),
    .input (.begin 3 (lit "ysf") 9 [] 0),
    .input (.finish 2 10), .startRecording true 0 true 11, .input (.clear 12)]

theorem streams_listed_listedRun :
    (listedRun.foldl (operate fun _ _ => []) {}).listing =
      (listedRun.foldl watch ∅).mapVal fun _ x => x.entry :=
  (streams_listed rfl listedRun).1.2 fun i x hx hm => by
    have hw : listedRun.foldl watch ∅ =
        ((∅ : SortedMap ℕ Watched).insert 1 ⟨⟨lit "p25", 300, 8⟩, false⟩).insert 3
        ⟨⟨lit "ysf", 0, 9⟩, false⟩ := by
      decide +kernel
    have hstill : (listedRun.foldl watch ∅).All fun x => x.moved = false := by
      rw [hw]
      have h₁ := SortedMap.all_empty (Q := fun x : Watched => x.moved = false) (K := ℕ)
      exact (h₁.insert 1 rfl).insert 3 rfl
    rw [hstill i x hx] at hm
    cases hm

end AssocModel

end DsdServer
