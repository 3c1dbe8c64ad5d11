import DsdServer.Assoc.Streams
import DsdServer.Data.Nested

/-!
# Assoc/Sightings — a weak anchor is believed when repeated

The short codes printed on every burst are kept as pending until their next sighting; what is
pending is always the last sighting, so a code becomes established only when it was seen twice in a
row.

* `weak_anchor_repeated` — **since a stream's identity last started over, no weak anchor is
  established without two sightings in a row**, and an isolated one leaves no trace in the identity.

A code is printed with every burst and is often received wrong, so one sighting proves nothing.  The
history that the result speaks of is a list of sightings since the identity last started over; the
invariant says what of it the stream still remembers.
-/

open Bytes

namespace DsdServer

/-! ## Weighing the tokens of one line

The anchors are weighed one by one, each against its own pending value.  A strong anchor is believed
at once; a weak one becomes pending, and is believed when it is said again. -/

/-- A value is believed when it is established, or was the last sighting. -/
def Ripe (ids : SortedMap Bytes Bytes) (P : SortedMap Bytes (Bytes × ℕ)) (k v : Bytes) : Prop :=
  ids.find? k = some v ∨ ∃ n, 1 ≤ n ∧ P.find? k = some (v, n)

section

variable {ids : SortedMap Bytes Bytes} {P P' : SortedMap Bytes (Bytes × ℕ)} {k k' : Bytes}

/-- A sighting is believed, or leaves itself pending. -/
theorem sight_cases (ids : SortedMap Bytes Bytes) (P : SortedMap Bytes (Bytes × ℕ)) (k v : Bytes) :
    sight ids P k v = (P.erase k, true) ∧ Ripe ids P k v ∨
      sight ids P k v = (P.insert k (v, 1), false) ∧ ¬Ripe ids P k v := by
  rw [sight, Ripe]
  by_cases hv : ids.find? k = some v
  · rw [if_pos hv]
    exact Or.inl ⟨rfl, Or.inl hv⟩
  rw [if_neg hv]
  dsimp only
  rcases hp : P.find? k with _ | ⟨w, n⟩
  · have hd : P.getD k ([], 0) = ([], 0) := by rw [SortedMap.getD, hp]; rfl
    have hone : (if ([] : Bytes) = v then 0 + 1 else 1) = 1 := by split_ifs <;> rfl
    rw [hd, hone]
    refine Or.inr ⟨rfl, ?_⟩
    rintro (h | ⟨_, _, h⟩)
    · exact hv h
    · cases h
  · have hd : P.getD k ([], 0) = (w, n) := SortedMap.getD_of_find? hp _
    rw [hd]
    by_cases hw : w = v
    · rw [if_pos hw]
      dsimp only
      by_cases hn : 1 ≤ n
      · rw [if_pos (by omega)]
        exact Or.inl ⟨rfl, Or.inr ⟨n, hn, by rw [hw]⟩⟩
      · obtain rfl : n = 0 := by omega
        refine Or.inr ⟨rfl, ?_⟩
        rintro (h | ⟨m, hm, h⟩)
        · exact hv h
        · cases h
          exact hn hm
    · rw [if_neg hw]
      refine Or.inr ⟨rfl, ?_⟩
      rintro (h | ⟨m, -, h⟩)
      · exact hv h
      · cases h
        exact hw rfl

/-- A sighting is weighed against what is pending for its own anchor. -/
theorem sight_congr (h : P.find? k = P'.find? k) (v : Bytes) :
    (sight ids P k v).1.find? k = (sight ids P' k v).1.find? k ∧
      (sight ids P k v).2 = (sight ids P' k v).2 := by
  have hr : Ripe ids P k v ↔ Ripe ids P' k v := by rw [Ripe, Ripe, h]
  rcases sight_cases ids P k v with ⟨h₁, hr₁⟩ | ⟨h₁, hr₁⟩ <;>
    rcases sight_cases ids P' k v with ⟨h₂, hr₂⟩ | ⟨h₂, hr₂⟩
  · rw [h₁, h₂]
    exact ⟨(SortedMap.find?_erase_self P k).trans (SortedMap.find?_erase_self P' k).symm, rfl⟩
  · exact absurd (hr.1 hr₁) hr₂
  · exact absurd (hr.2 hr₂) hr₁
  · rw [h₁, h₂]
    exact ⟨(SortedMap.find?_insert_self P k _).trans (SortedMap.find?_insert_self P' k _).symm, rfl⟩

/-- A sighting of one anchor leaves the others pending. -/
theorem find?_sight_ne (h : k' ≠ k) (v : Bytes) : (sight ids P k v).1.find? k' = P.find? k' := by
  rcases sight_cases ids P k v with ⟨h₁, -⟩ | ⟨h₁, -⟩
  · rw [h₁]
    exact SortedMap.find?_erase_ne P h
  · rw [h₁]
    exact SortedMap.find?_insert_ne P _ h

/-- A sighting leaves at most itself pending. -/
theorem pending_sight {v w : Bytes} {n : ℕ} (h : (sight ids P k v).1.find? k = some (w, n)) :
    w = v := by
  rcases sight_cases ids P k v with ⟨h₁, -⟩ | ⟨h₁, -⟩
  · rw [h₁, SortedMap.find?_erase_self] at h
    cases h
  · rw [h₁, SortedMap.find?_insert_self] at h
    cases h
    rfl

/-- A value that is not established is believed when it is pending. -/
theorem pending_of_sight {v : Bytes} (hb : (sight ids P k v).2 = true) (hv : ids.find? k ≠ some v) :
    ∃ n, P.find? k = some (v, n) := by
  rcases sight_cases ids P k v with ⟨-, hr⟩ | ⟨h₁, -⟩
  · exact (hr.resolve_left hv).imp fun _ h => h.2
  · rw [h₁] at hb
    cases hb

end

/-- One token weighed: what is pending, and what is believed. -/
def weighOne (ids : SortedMap Bytes Bytes)
    (acc : SortedMap Bytes (Bytes × ℕ) × SortedMap Bytes Bytes) (kv : Bytes × Bytes) :
    SortedMap Bytes (Bytes × ℕ) × SortedMap Bytes Bytes :=
  if isWeakAnchor kv.1 then
    let p := sight ids acc.1 kv.1 kv.2
    (p.1, if p.2 then acc.2 else acc.2.erase kv.1)
  else acc

/-- A line's tokens weighed: what is pending after it, and what is believed. -/
def weigh (ids : SortedMap Bytes Bytes) (P : SortedMap Bytes (Bytes × ℕ))
    (got : SortedMap Bytes Bytes) :
    SortedMap Bytes (Bytes × ℕ) × SortedMap Bytes Bytes :=
  got.entries.foldl (weighOne ids) (P, got)

/-- Believing is weighing the tokens of a line. -/
theorem believe_eq (c : Ctx) (got : SortedMap Bytes Bytes) : believe c got =
    ({ c with pending := (weigh c.ids c.pending got).1 }, (weigh c.ids c.pending got).2) := by
  have h : ∀ (l : List (Bytes × Bytes)) (P : SortedMap Bytes (Bytes × ℕ))
      (G : SortedMap Bytes Bytes),
      l.foldl (fun (acc : Ctx × SortedMap Bytes Bytes) kv =>
        if isWeakAnchor kv.1 then
          let p := sight acc.1.ids acc.1.pending kv.1 kv.2
          ({ acc.1 with pending := p.1 }, if p.2 then acc.2 else acc.2.erase kv.1)
        else acc) ({ c with pending := P }, G) =
      ({ c with pending := (l.foldl (weighOne c.ids) (P, G)).1 },
        (l.foldl (weighOne c.ids) (P, G)).2) :=
    fun l => by
      induction l with
      | nil => exact fun _ _ => rfl
      | cons e l ih =>
        intro P G
        rw [List.foldl_cons, List.foldl_cons, weighOne]
        by_cases he : isWeakAnchor e.1 = true
        · rw [if_pos he, if_pos he]
          exact ih _ _
        · rw [if_neg he, if_neg he]
          exact ih P G
  exact h got.entries c.pending got

/-- One token leaves the other anchors. -/
theorem find?_weighOne_ne {ids : SortedMap Bytes Bytes} {k : Bytes} {e : Bytes × Bytes}
    (h : k ≠ e.1) (acc : SortedMap Bytes (Bytes × ℕ) × SortedMap Bytes Bytes) :
    (weighOne ids acc e).1.find? k = acc.1.find? k ∧
      (weighOne ids acc e).2.find? k = acc.2.find? k := by
  rw [weighOne]
  dsimp only
  split_ifs
  · exact ⟨find?_sight_ne h _, rfl⟩
  · exact ⟨find?_sight_ne h _, SortedMap.find?_erase_ne _ h⟩
  · exact ⟨rfl, rfl⟩

/-- Tokens without the anchor leave it. -/
theorem find?_foldl_weighOne {ids : SortedMap Bytes Bytes} {k : Bytes} {l : List (Bytes × Bytes)}
    (h : k ∉ l.map Prod.fst) : ∀ acc : SortedMap Bytes (Bytes × ℕ) × SortedMap Bytes Bytes,
    (l.foldl (weighOne ids) acc).1.find? k = acc.1.find? k ∧
      (l.foldl (weighOne ids) acc).2.find? k = acc.2.find? k := by
  induction l with
  | nil => exact fun _ => ⟨rfl, rfl⟩
  | cons e l ih =>
    intro acc
    rw [List.map_cons, List.mem_cons, not_or] at h
    obtain ⟨h₁, h₂⟩ := ih h.2 (weighOne ids acc e)
    obtain ⟨h₃, h₄⟩ := @find?_weighOne_ne ids k e h.1 acc
    exact ⟨h₁.trans h₃, h₂.trans h₄⟩

section

variable {ids : SortedMap Bytes Bytes} {P : SortedMap Bytes (Bytes × ℕ)}
  {got : SortedMap Bytes Bytes}
  {k v : Bytes}

/-- A token that is not on the line is not touched. -/
theorem find?_weigh_of_none (h : got.find? k = none) :
    (weigh ids P got).1.find? k = P.find? k ∧ (weigh ids P got).2.find? k = none := by
  obtain ⟨h₁, h₂⟩ := find?_foldl_weighOne  (SortedMap.find?_eq_none_iff.1 h) (P, got)
  exact ⟨h₁, h₂.trans h⟩

/-- Each token is weighed by itself. -/
theorem find?_weigh (h : got.find? k = some v) :
    (weigh ids P got).1.find? k =
        (if isWeakAnchor k then (sight ids P k v).1.find? k else P.find? k) ∧
      (weigh ids P got).2.find? k =
        if isWeakAnchor k && !(sight ids P k v).2 then none else some v := by
  obtain ⟨l₁, l₂, he⟩ := List.append_of_mem (SortedMap.find?_eq_some_iff.1 h)
  have hnd : (got.entries.map Prod.fst).Nodup := got.nodup_keys
  rw [he, List.map_append, List.map_cons, List.nodup_middle, List.nodup_cons, List.mem_append,
    not_or] at hnd
  obtain ⟨⟨hk₁, hk₂⟩, -⟩ := hnd
  obtain ⟨h₁, h₂⟩ := find?_foldl_weighOne  hk₁ (P, got)
  rw [weigh, he, List.foldl_append, List.foldl_cons]
  obtain ⟨h₃, h₄⟩ := find?_foldl_weighOne  hk₂
    (weighOne ids (l₁.foldl (weighOne ids) (P, got)) (k, v))
  rw [h₃, h₄, weighOne]
  obtain ⟨hs₁, hs₂⟩ := sight_congr  h₁ v
  by_cases hw : isWeakAnchor k = true
  · dsimp only
    rw [if_pos hw, if_pos hw, hs₁, hs₂, hw]
    refine ⟨rfl, ?_⟩
    cases (sight ids P k v).2 with
    | true => exact h₂.trans h
    | false => exact SortedMap.find?_erase_self _ k
  · dsimp only
    rw [if_neg hw, if_neg hw, Bool.eq_false_iff.2 hw]
    exact ⟨h₁, h₂.trans h⟩

/-- A weak anchor that is not believed weighs as if it were not on the line. -/
theorem weigh_erase (hb : (weigh ids P got).2.find? k = none) :
    (weigh ids P (got.erase k)).2 = (weigh ids P got).2 := by
  refine SortedMap.ext_find? fun j => ?_
  by_cases hj : j = k
  · rw [hj, hb]
    exact (find?_weigh_of_none (SortedMap.find?_erase_self got k)).2
  · have he : (got.erase k).find? j = got.find? j := SortedMap.find?_erase_ne got hj
    rcases hg : got.find? j with _ | w
    · rw [(find?_weigh_of_none hg).2, (find?_weigh_of_none (he.trans hg)).2]
    · rw [(find?_weigh hg).2, (find?_weigh (he.trans hg)).2]

end

/-! ## Taking them in

Tokens that were believed go into the identity.  Where one of them contradicts what is known, the
collection may start over. -/

/-- A line's identity tokens, weighed and taken in. -/
def Ctx.absorb (c : Ctx) (got : SortedMap Bytes Bytes) : Ctx :=
  let b := believe c got
  if b.2.isEmpty then b.1 else ((b.1.startOver b.2).take b.2).1

namespace Ctx

variable {c : Ctx} {got : SortedMap Bytes Bytes} {k v : Bytes}

/-- Starting over keeps the identity or drops it whole. -/
theorem ids_startOver (c : Ctx) (got : SortedMap Bytes Bytes) :
    (c.startOver got).ids = c.ids ∨ (c.startOver got).ids = ∅ := by
  rw [startOver]
  split_ifs
  · exact Or.inr rfl
  · exact Or.inl rfl

/-- Starting over leaves what is pending. -/
theorem pending_startOver (c : Ctx) (got : SortedMap Bytes Bytes) :
    (c.startOver got).pending = c.pending := by
  rw [startOver]
  split_ifs <;> rfl

/-- Taking tokens in leaves what is pending. -/
theorem pending_take (c : Ctx) (got : SortedMap Bytes Bytes) :
    (c.take got).1.pending = c.pending := by
  rw [take]
  split_ifs <;> rfl

/-- What is taken in was said, or was known. -/
theorem find?_ids_take (h : (c.take got).1.ids.find? k = some v) :
    got.find? k = some v ∨ c.ids.find? k = some v := by
  rw [take] at h
  split_ifs at h
  · dsimp only at h
    rw [SortedMap.find?_insertAll] at h
    rcases hg : got.find? k with _ | w
    · rw [hg] at h
      exact Or.inr h
    · rw [hg] at h
      exact Or.inl h
  · exact Or.inr h

/-- After a line, what is pending is what weighing left. -/
theorem pending_absorb (c : Ctx) (got : SortedMap Bytes Bytes) :
    (c.absorb got).pending = (weigh c.ids c.pending got).1 := by
  rw [absorb, believe_eq]
  dsimp only
  split_ifs
  · rfl
  · rw [pending_take, pending_startOver]

/-- A token is established only as it is believed. -/
theorem find?_ids_absorb (h : (c.absorb got).ids.find? k = some v) :
    c.ids.find? k = some v ∨ (weigh c.ids c.pending got).2.find? k = some v := by
  rw [absorb, believe_eq] at h
  dsimp only at h
  split_ifs at h
  · exact Or.inl h
  · rcases find?_ids_take h with h | h
    · exact Or.inr h
    · rcases ids_startOver { c with pending := (weigh c.ids c.pending got).1 }
        (weigh c.ids c.pending got).2 with he | he
      · rw [he] at h
        exact Or.inl h
      · rw [he] at h
        exact nomatch h

/-- What is pending does not matter to the identity, beyond what is believed. -/
theorem ids_absorb_congr {got' : SortedMap Bytes Bytes}
    (h : (weigh c.ids c.pending got').2 = (weigh c.ids c.pending got).2) :
    (c.absorb got').ids = (c.absorb got).ids ∧ (c.absorb got').site = (c.absorb got).site := by
  rw [absorb, absorb, believe_eq, believe_eq]
  dsimp only
  rw [h]
  split_ifs
  · exact ⟨rfl, rfl⟩
  · rw [startOver, startOver]
    dsimp only
    split_ifs <;> (rw [take, take]; dsimp only; split_ifs <;> exact ⟨rfl, rfl⟩)

/-- What a stream remembers of its identity. -/
def memory (c : Ctx) : SortedMap Bytes Bytes × SortedMap Bytes (Bytes × ℕ) × Bytes :=
  (c.ids, c.pending, c.site)

/-- What a stream remembers of its identity is such a reading. -/
theorem steady_memory : Ctx.Steady memory where
  leave c dead := by rw [Ctx.leave]; split_ifs <;> rfl
  moveAlong c frm dst := by rw [Ctx.moveAlong]; split_ifs <;> rfl
  settle _ _ := rfl
  calls _ _ _ := rfl
  preroll _ _ := rfl

/-- What absorbing does to the memory depends on the memory and the family. -/
theorem memory_absorb_congr {c' : Ctx} (hf : c'.family = c.family) (hm : c'.memory = c.memory)
    (got : SortedMap Bytes Bytes) : (c'.absorb got).memory = (c.absorb got).memory := by
  obtain ⟨hi, hp, hs⟩ := Prod.ext_iff.1 hm |>.imp_right Prod.ext_iff.1
  dsimp only [memory] at hi hp hs
  simp only [memory, absorb, believe_eq, startOver, take, hf, hi, hp]
  split_ifs <;> simp only [hs]

/-- A line without tokens teaches nothing. -/
theorem absorb_empty (c : Ctx) : c.absorb ∅ = c := rfl

/-- The family an event is read for; none when its identity tokens are not taken in. -/
def readAs (c : Ctx) (r : Reading) : Bytes :=
  if r.ev.crcError = lit "1" then []
  else if c.family = lit "auto" then
    (if r.ev.kind = lit "unknown" then [] else inferFamily r.ev.rawLine)
  else c.family

/-- **The identity tokens an event shows of its own stream**: none with a failed CRC, nor of a line
about a neighbour. -/
def shown (c : Ctx) (r : Reading) : SortedMap Bytes Bytes :=
  if c.readAs r = [] then ∅
  else if (c.lookAround r).adjacent || namesNeighbour r.up then ∅
  else tokensOf (c.readAs r) r

/-- What an event teaches: its tokens, unless it speaks of a neighbour. -/
theorem memory_absorbIdentity (c : Ctx) (r : Reading) : (absorbIdentity c r).ctx.memory =
    (c.absorb (if (c.lookAround r).adjacent || namesNeighbour r.up then ∅
      else tokensOf c.family r)).memory := by
  have hl : (c.lookAround r).family = c.family ∧ (c.lookAround r).memory = c.memory := by
    rw [lookAround]
    split_ifs <;> exact ⟨rfl, rfl⟩
  rw [absorbIdentity, absorbTokens]
  dsimp only
  rw [hl.1]
  by_cases he : (tokensOf c.family r).isEmpty = true
  · have hemp : tokensOf c.family r = ∅ := SortedMap.ext_find? fun k => SortedMap.isEmpty_iff.1 he k
    rw [if_pos he, hemp, ite_self]
    exact hl.2
  rw [if_neg he]
  by_cases hn : ((c.lookAround r).adjacent || namesNeighbour r.up) = true
  · rw [if_pos hn, if_pos hn]
    exact hl.2
  · rw [if_neg hn, if_neg hn, ← memory_absorb_congr hl.1 hl.2, absorb]
    split_ifs <;> rfl

/-- **An event's tokens are weighed and taken in**, those it shows of its own stream. -/
theorem memory_heed (c : Ctx) (r : Reading) (now : ℤ) :
    (c.heed r now).memory = ({ c with family := c.readAs r }.absorb (c.shown r)).memory := by
  -- the event gets as far as the tokens, for a family
  have habs : ∀ x : Ctx, c.readAs r ≠ [] → x.family = c.readAs r → x.memory = c.memory →
      x.adjacent = c.adjacent → (absorbIdentity x r).ctx.memory =
        ({ c with family := c.readAs r }.absorb (c.shown r)).memory := fun x hr hf hm ha => by
    have hadj : (x.lookAround r).adjacent = (c.lookAround r).adjacent := by
      rw [lookAround, lookAround]
      split_ifs
      · rfl
      · exact ha
    rw [memory_absorbIdentity, shown, if_neg hr, hf, hadj]
    exact memory_absorb_congr (c := { c with family := c.readAs r }) hf hm _
  -- or it does not
  have hnot : ∀ x : Ctx, c.readAs r = [] → x.memory = c.memory →
      x.memory = ({ c with family := c.readAs r }.absorb (c.shown r)).memory := fun x hr hm => by
    rw [shown, if_pos hr, absorb_empty]
    exact hm
  obtain ⟨c₁, hc₁⟩ : ∃ c₁, c₁ = if r.ev.kind ≠ lit "unknown" ∧ r.ev.crcError ≠ lit "1"
    then { c with heardMs := now } else c := ⟨_, rfl⟩
  have h₁ : c₁.family = c.family ∧ c₁.memory = c.memory ∧ c₁.adjacent = c.adjacent := by
    rw [hc₁]
    split_ifs <;> exact ⟨rfl, rfl, rfl⟩
  rw [heed, gate, ← hc₁]
  dsimp only
  rw [h₁.1]
  by_cases hf : c.family = []
  · have hr : c.readAs r = [] := by
      rw [readAs, hf, if_neg (show ([] : Bytes) ≠ lit "auto" by decide), ite_self]
    rw [if_pos hf]
    exact hnot c₁ hr h₁.2.1
  rw [if_neg hf]
  obtain ⟨fam, hfam⟩ : ∃ fam, fam = if c.family = lit "auto" then
    (if r.ev.kind = lit "unknown" then [] else inferFamily r.ev.rawLine) else c.family := ⟨_, rfl⟩
  rw [← hfam]
  have hread : c.readAs r = if r.ev.crcError = lit "1" then [] else fam := by rw [readAs, hfam]
  by_cases hfe : fam = []
  · rw [if_pos hfe]
    exact hnot c₁ (by rw [hread, hfe, ite_self]) h₁.2.1
  rw [if_neg hfe]
  by_cases hcrc : r.ev.crcError = lit "1"
  · rw [if_pos hcrc]
    exact hnot { c₁ with family := fam } (by rw [hread, if_pos hcrc]) h₁.2.1
  rw [if_neg hcrc]
  rw [if_neg hcrc] at hread
  have hne : c.readAs r ≠ [] := by rwa [hread]
  by_cases hlive : c₁.live = true
  · rw [if_pos hlive]
    exact habs { c₁ with family := fam } hne hread.symm h₁.2.1 h₁.2.2
  rw [if_neg hlive]
  by_cases hk : r.ev.kind = lit "unknown"
  · rw [if_pos hk]
    exact habs { c₁ with family := fam } hne hread.symm h₁.2.1 h₁.2.2
  · rw [if_neg hk]
    exact habs { c₁ with family := fam, live := true } hne hread.symm h₁.2.1 h₁.2.2

end Ctx

/-! ## Sightings along a run

A sighting is a value said by an event of the stream that speaks of its own network.  Beginning the
stream, retuning it to another channel and clearing the model make it forget all of them. -/

namespace Op

/-- Does a session's identity start over: a new stream, another channel, or all is forgotten? -/
def restarts (s : AssocModel) (sid : ℕ) : Op → Prop
  | .begin i .. => i = sid
  | .retune i freq _ => i = sid ∧ (s.ctx sid).freq ≠ freq
  | .remove i _ => i = sid
  | .clear _ => True
  | _ => False

instance (s : AssocModel) (sid : ℕ) : (op : Op) → Decidable (op.restarts s sid)
  | .begin i .. => inferInstanceAs (Decidable (i = sid))
  | .retune i freq _ => inferInstanceAs (Decidable (i = sid ∧ (s.ctx sid).freq ≠ freq))
  | .remove i _ => inferInstanceAs (Decidable (i = sid))
  | .clear _ => inferInstanceAs (Decidable True)
  | .event .. | .audio .. | .finish .. | .startAudio .. | .stopAudio =>
    inferInstanceAs (Decidable False)

/-- The identity tokens an input shows of a session's stream. -/
def shows (s : AssocModel) (sid : ℕ) : Op → SortedMap Bytes Bytes
  | .event i ev _ => if i = sid then (s.ctx sid).shown (.ofEvent ev) else ∅
  | _ => ∅

end Op

namespace AssocModel

variable {L : Limits} {s : AssocModel} {sid : ℕ} {a : Bytes}

/-- When a stream's identity starts over nothing is remembered. -/
theorem memory_restart {op : Op} (h : op.restarts s sid) :
    ((s.stepWith L op).ctx sid).memory = (∅, ∅, []) := by
  have hnone : ∀ s' : AssocModel, sid ∉ s'.sess → (s'.ctx sid).memory = (∅, ∅, []) :=
    fun s' hs => by
    rw [ctx, SortedMap.getD_of_not_mem hs]
    rfl
  cases op with
  | begin i label now family freq =>
    rw [stepWith, proj_beginStream Ctx.steady_memory, if_pos (show i = sid from h).symm]
    rfl
  | retune i freq now =>
    obtain ⟨rfl, hf⟩ := h
    rw [stepWith, proj_retuneStream Ctx.steady_memory]
    by_cases hm : i ∈ s.sess
    · rw [if_pos ⟨rfl, hm, hf⟩]
      rfl
    · rw [if_neg fun h => hm h.2.1]
      exact hnone s hm
  | remove i now =>
    rw [stepWith, proj_removeSession Ctx.steady_memory, if_pos (show i = sid from h).symm]
    rfl
  | clear now =>
    change ((s.sess.mapVal fun _ c => c.forget).getD sid {}).memory = _
    rw [SortedMap.getD, SortedMap.find?_mapVal]
    cases s.sess.find? sid <;> rfl
  | _ => exact h.elim

/-- **An event of the session**: the tokens it shows are weighed and taken in. -/
theorem memory_event (s : AssocModel) (sid : ℕ) (ev : DsdEvent) (now : ℤ) :
    ((s.stepWith L (.event sid ev now)).ctx sid).memory =
      (({ s.ctx sid with family := (s.ctx sid).readAs (.ofEvent ev) } : Ctx).absorb
        ((s.ctx sid).shown (.ofEvent ev))).memory := by
  rcases hc : s.sess.find? sid with _ | c
  · have hctx : s.ctx sid = {} := by
      rw [ctx, SortedMap.getD, hc]
      rfl
    have hsame : (s.stepWith L (.event sid ev now)).ctx sid = s.ctx sid := by
      rw [stepWith, ingest]
      dsimp only
      rw [show (s.record (assoclog.eventLine now sid ev)).sess.find? sid = none from hc]
      rfl
    have hread : ∀ r : Reading, ({} : Ctx).readAs r = [] := fun r => by
      rw [Ctx.readAs, if_neg (show ([] : Bytes) ≠ lit "auto" by decide), ite_self]
    rw [hsame, hctx, Ctx.shown, hread, if_pos rfl, Ctx.absorb_empty]
  · rw [stepWith, proj_ingest Ctx.steady_memory hc, if_pos rfl, Ctx.memory_heed, ctx_of_find? hc]

/-- Nothing else is taken in. -/
theorem memory_other {op : Op} (h : ¬op.restarts s sid) (he : ∀ ev now, op ≠ .event sid ev now) :
    ((s.stepWith L op).ctx sid).memory = (s.ctx sid).memory := by
  cases op with
  | begin i label now family freq =>
    rw [stepWith, proj_beginStream Ctx.steady_memory, if_neg fun hi => h hi.symm]
  | retune i freq now =>
    rw [stepWith, proj_retuneStream Ctx.steady_memory, if_neg]
    rintro ⟨rfl, -, hf⟩
    exact h ⟨rfl, hf⟩
  | event i ev now =>
    have hi : sid ≠ i := fun hi => he ev now (hi ▸ rfl)
    rcases hc : s.sess.find? i with _ | c
    · rw [stepWith, ingest]
      dsimp only
      rw [show (s.record (assoclog.eventLine now i ev)).sess.find? i = none from hc]
      rfl
    · rw [stepWith, proj_ingest Ctx.steady_memory hc, if_neg hi]
  | audio i slot pcm keyed creatable now =>
    exact same_audio Ctx.steady_memory s i slot pcm keyed creatable now sid
  | finish i now =>
    rw [stepWith, proj_endStream Ctx.steady_memory]
    split_ifs <;> rfl
  | remove i now =>
    rw [stepWith, proj_removeSession Ctx.steady_memory, if_neg fun hi => h hi.symm]
  | clear now => exact absurd trivial h
  | startAudio listing cap maxAge now =>
    rw [stepWith, startAudio]
    split_ifs
    · rfl
    · exact congrArg Ctx.memory (congrArg (fun m => m.getD sid {})
        (sess_reconcileEvicted
          { s with store := s.store.enable listing cap maxAge now, audioOn := true } now))
  | stopAudio =>
    exact Same.mapVal (p := Ctx.memory) (g := fun c => { c with preroll := ∅ }) (fun _ => rfl) rfl
      sid

/-! ### The sightings of an anchor

The list of sightings is a fold over the run, as an observer would keep it who sees the events and
nothing of the model.  The theorem compares it with what the model believes. -/

/-- An input, and the sightings of an anchor since the session's identity last started over. -/
def sightStep (sid : ℕ) (a : Bytes) (x : AssocModel × List Bytes) (op : Op) :
    AssocModel × List Bytes :=
  (x.1.step op, if op.restarts x.1 sid then [] else x.2 ++ ((op.shows x.1 sid).find? a).toList)

/-- **The sightings of an anchor** along a run, since the session's identity last started over. -/
def sightings (s : AssocModel) (sid : ℕ) (a : Bytes) (ops : List Op) : List Bytes :=
  (ops.foldl (sightStep sid a) (s, [])).2

/-- Collecting sightings follows the run. -/
theorem sightStep_foldl (s : AssocModel) (sid : ℕ) (a : Bytes) (l : List Bytes) (ops : List Op) :
    (ops.foldl (sightStep sid a) (s, l)).1 = s.run ops := by
  induction ops generalizing s l with
  | nil => rfl
  | cons op ops ih =>
    rw [List.foldl_cons, sightStep, ih]
    rfl

/-- The sightings after one input more. -/
theorem sightings_concat (s : AssocModel) (sid : ℕ) (a : Bytes) (ops : List Op) (op : Op) :
    s.sightings sid a (ops ++ [op]) = if op.restarts (s.run ops) sid then []
      else s.sightings sid a ops ++ ((op.shows (s.run ops) sid).find? a).toList := by
  rw [sightings, List.foldl_append, List.foldl_cons, List.foldl_nil, sightStep, sightStep_foldl]
  rfl

end AssocModel

/-- **What is remembered of an anchor, after its sightings**: what is pending is the last one, and
what is established was seen twice in a row. -/
structure Ctx.Recalls (c : Ctx) (a : Bytes) (seen : List Bytes) : Prop where
  pending : ∀ w n, c.pending.find? a = some (w, n) → seen.getLast? = some w
  established : ∀ v, c.ids.find? a = some v → [v, v] <:+: seen

namespace Ctx

variable {c c' : Ctx} {a : Bytes} {seen : List Bytes} {got : SortedMap Bytes Bytes}

/-- What is recalled is a matter of the memory. -/
theorem Recalls.congr (h : c.Recalls a seen) (hm : c'.memory = c.memory) : c'.Recalls a seen := by
  obtain ⟨hi, hp⟩ := Prod.ext_iff.1 hm |>.imp_right Prod.ext_iff.1
  dsimp only [memory] at hi hp
  exact ⟨by rw [hp.1]; exact h.pending, by rw [hi]; exact h.established⟩

/-- A fresh memory recalls nothing, and owes nothing. -/
theorem recalls_fresh (hm : c.memory = (∅, ∅, [])) (seen : List Bytes) : c.Recalls a seen := by
  obtain ⟨hi, hp⟩ := Prod.ext_iff.1 hm |>.imp_right Prod.ext_iff.1
  dsimp only [memory] at hi hp
  refine ⟨fun w n h => ?_, fun v h => ?_⟩
  · rw [hp.1] at h
    cases h
  · rw [hi] at h
    cases h

/-- A weak anchor is newly established when it is shown as it was last seen. -/
theorem Recalls.of_established (h : c.Recalls a seen) (ha : isWeakAnchor a = true) {v : Bytes}
    (hv : (c.absorb got).ids.find? a = some v) (hn : c.ids.find? a ≠ some v) :
    got.find? a = some v ∧ seen.getLast? = some v := by
  have hb := (find?_ids_absorb hv).resolve_left hn
  rcases hg : got.find? a with _ | w
  · rw [(find?_weigh_of_none hg).2] at hb
    cases hb
  · rw [(find?_weigh hg).2, ha, Bool.true_and] at hb
    split_ifs at hb with hs
    cases hb
    rw [Bool.not_eq_true, Bool.not_eq_false'] at hs
    obtain ⟨n, hp⟩ := pending_of_sight hs hn
    exact ⟨rfl, h.pending v n hp⟩

/-- **One line more.** -/
theorem Recalls.absorb (h : c.Recalls a seen) (ha : isWeakAnchor a = true)
    (got : SortedMap Bytes Bytes) : (c.absorb got).Recalls a (seen ++ (got.find? a).toList) where
  pending w n hp := by
    rw [pending_absorb] at hp
    rcases hg : got.find? a with _ | v
    · rw [(find?_weigh_of_none hg).1] at hp
      rw [Option.toList_none, List.append_nil]
      exact h.pending w n hp
    · rw [(find?_weigh hg).1, if_pos ha] at hp
      rw [pending_sight hp, Option.toList_some, List.getLast?_concat]
  established v hv := by
    by_cases hn : c.ids.find? a = some v
    · exact (h.established v hn).trans ⟨[], _, rfl⟩
    · obtain ⟨hg, hl⟩ := h.of_established ha hv hn
      obtain ⟨l, rfl⟩ := List.getLast?_eq_some_iff.1 hl
      rw [hg]
      exact ⟨l, [], by simp⟩

/-- **An isolated value of a weak anchor leaves no trace in the identity**: it is as if the line did
not show it. -/
theorem Recalls.absorb_isolated (h : c.Recalls a seen) (ha : isWeakAnchor a = true) {v : Bytes}
    (hg : got.find? a = some v) (hn : c.ids.find? a ≠ some v) (hl : seen.getLast? ≠ some v) :
    (c.absorb got).ids = (c.absorb (got.erase a)).ids ∧
      (c.absorb got).site = (c.absorb (got.erase a)).site := by
  refine ids_absorb_congr (weigh_erase ?_).symm
  rw [(find?_weigh hg).2, ha, Bool.true_and]
  refine if_pos ?_
  rw [Bool.not_eq_true', ← Bool.not_eq_true]
  intro hs
  obtain ⟨n, hp⟩ := pending_of_sight hs hn
  exact hl (h.pending v n hp)

end Ctx

namespace AssocModel

variable {L : Limits} {s : AssocModel} {sid : ℕ} {a : Bytes}

/-- **One input more.** -/
theorem recalls_stepWith {seen : List Bytes} (ha : isWeakAnchor a = true)
    (h : (s.ctx sid).Recalls a seen) (op : Op) : ((s.stepWith L op).ctx sid).Recalls a
      (if op.restarts s sid then [] else seen ++ ((op.shows s sid).find? a).toList) := by
  by_cases hr : op.restarts s sid
  · rw [if_pos hr]
    exact Ctx.recalls_fresh (memory_restart hr) []
  rw [if_neg hr]
  by_cases he : ∃ ev now, op = .event sid ev now
  · obtain ⟨ev, now, rfl⟩ := he
    rw [Op.shows, if_pos rfl]
    have hf :
        ({ s.ctx sid with family := (s.ctx sid).readAs (.ofEvent ev) } : Ctx).Recalls a seen :=
      h.congr rfl
    exact (hf.absorb ha _).congr (memory_event s sid ev now)
  · have hnone : op.shows s sid = ∅ := by
      cases op with
      | event i ev now => exact if_neg fun hi => he ⟨ev, now, by rw [hi]⟩
      | _ => rfl
    rw [hnone, SortedMap.find?_empty, Option.toList_none, List.append_nil]
    exact h.congr (memory_other hr fun ev now ho => he ⟨ev, now, ho⟩)

/-- **Along a run.** -/
theorem recalls_run (h : s.sess = ∅) (sid : ℕ) (ha : isWeakAnchor a = true) (ops : List Op) :
    ((s.run ops).ctx sid).Recalls a (s.sightings sid a ops) := by
  induction ops using List.reverseRecOn with
  | nil =>
    refine Ctx.recalls_fresh ?_ _
    change (s.ctx sid).memory = _
    rw [ctx, h]
    rfl
  | append_singleton ops op ih =>
    rw [sightings_concat, run, List.foldl_append, List.foldl_cons, List.foldl_nil]
    exact recalls_stepWith ha ih op

/-- **A weak anchor is believed only when repeated.**  Since a stream's identity last started
over: what is established was seen twice in a row; an event establishes a value only when it
shows it and it was the last sighting; and an isolated value leaves the identity as if the line
did not show it. -/
theorem weak_anchor_repeated (h : s.sess = ∅) (ops : List Op) (sid : ℕ)
    (ha : isWeakAnchor a = true) :
    let c := (s.run ops).ctx sid
    let seen := s.sightings sid a ops
    (∀ v, c.ids.find? a = some v → [v, v] <:+: seen) ∧
      ∀ (ev : DsdEvent) (now : ℤ),
        let c' := ((s.run ops).step (.event sid ev now)).ctx sid
        let shown := c.shown (.ofEvent ev)
        (∀ v, c'.ids.find? a = some v → c.ids.find? a ≠ some v →
          shown.find? a = some v ∧ seen.getLast? = some v) ∧
        ∀ v, shown.find? a = some v → c.ids.find? a ≠ some v → seen.getLast? ≠ some v →
          let unshown := ({ c with family := c.readAs (.ofEvent ev) } : Ctx).absorb (shown.erase a)
          c'.ids = unshown.ids ∧ c'.site = unshown.site := by
  intro c seen
  have hr : c.Recalls a seen := recalls_run h sid ha ops
  refine ⟨hr.established, fun ev now => ?_⟩
  intro c' shown
  have hf : ({ c with family := c.readAs (.ofEvent ev) } : Ctx).Recalls a seen := hr.congr rfl
  obtain ⟨hi, hp⟩ :=
    Prod.ext_iff.1 (memory_event (L := (s.run ops).limits) (s.run ops) sid ev now) |>.imp_right
    Prod.ext_iff.1
  change c'.ids = _ at hi
  have hs : c'.site = _ := hp.2
  rw [hi, hs]
  exact ⟨fun v hv hn => hf.of_established ha hv hn,
    fun v hg hn hl => hf.absorb_isolated ha hg hn hl⟩

/-- A DMR stream that shows its colour code twice. -/
def colorCodeRun : List Op :=
  [.begin 1 (lit "dmr") 1000 [] 0, .event 1 { kind := lit "sync", colorCode := lit "1" } 2000,
   .event 1 { kind := lit "sync", colorCode := lit "1" } 2100]

theorem weak_anchor_repeated_colorCodeRun :
    [lit "1", lit "1"] <:+: sightings {} 1 (lit "cc") colorCodeRun ∧
      ((run {} colorCodeRun).ctx 1).ids.find? (lit "cc") = some (lit "1") := by
  have hcc : ((run {} colorCodeRun).ctx 1).ids.find? (lit "cc") = some (lit "1") := by
    decide +kernel
  exact ⟨(weak_anchor_repeated rfl colorCodeRun 1 (by decide +kernel)).1 _ hcc, hcc⟩

end AssocModel

end DsdServer
