import DsdServer.Server.Reader

/-!
# Dmr/PduCarry — the dumps in a decoder's output

A dump is a header line and the rows of hex after it, as many as there are.  Whatever ends it, a
line of another kind, the next header or the end of the output, its rows are decoded once, together:
`dump_decoded`.  How the bytes are wrapped into rows makes no difference.

A dump ends where the line after it is none of its rows, so it cannot be decoded before that line
has come; the carry is what is remembered until then.  The decoders are parameters: what is shown is
when they are called, and with which bytes.
-/

open Bytes

namespace DsdServer

namespace DmrPduTextCarry

/-! ## Headers, rows and marks

A line is a header with its slot, a row of hex in brackets, a mark of the network service, or
something else.  No line is two of these. -/

/-- A line that says that the next dump is MNIS. -/
def mnisLine (l : Bytes) : Bool := has l (lit "(MNIS)") || has l (lit "MNIS ARS")

variable {l h needle r : Bytes} {c : UInt8}

/-- A line that has a word has its letters. -/
theorem mem_of_has (hl : has l needle = true) (hc : c ∈ needle) : c ∈ l := by
  induction l with
  | nil =>
    rw [has, List.isEmpty_iff] at hl
    exact hl ▸ hc
  | cons b l ih =>
    rw [has, Bool.or_eq_true, List.isPrefixOf_iff_prefix] at hl
    rcases hl with hp | hl
    · exact hp.subset hc
    · exact List.mem_cons_of_mem _ (ih hl)

/-- What follows a word follows its letters. -/
theorem mem_of_after (hl : after needle l = some r) (hc : c ∈ needle) : c ∈ l := by
  induction l with
  | nil =>
    rw [after] at hl
    split_ifs at hl with hn
    exact hn ▸ hc
  | cons b l ih =>
    rw [after] at hl
    split_ifs at hl with hp
    · exact (List.isPrefixOf_iff_prefix.1 hp).subset hc
    · exact List.mem_cons_of_mem _ (ih hl)

/-- A row has hex digits and blanks only. -/
theorem row_mem (hl : extractHex l = some h) (hc : c ∈ l) : isSpace c = true ∨ isHex c = true := by
  rw [extractHex] at hl
  split_ifs at hl with hrow
  rw [Bool.and_eq_true, Bool.and_eq_true, List.all_eq_true] at hrow
  by_cases hs : isSpace c = true
  · exact Or.inl hs
  · exact Or.inr (hrow.1.1 c (List.mem_filter.2 ⟨hc, by simpa using hs⟩))

/-- **A header is no row.** -/
theorem row_of_header {s : ℕ} (hl : isHeader l = some s) : extractHex l = none := by
  by_contra hne
  obtain ⟨h, hh⟩ := Option.ne_none_iff_exists'.1 hne
  have hmem : ch 'S' ∈ l := by
    rw [isHeader] at hl
    split at hl
    · next hafter => exact mem_of_after hafter (by decide)
    · cases hl
  exact absurd (row_mem hh hmem) (by decide)

/-- A row says nothing of MNIS. -/
theorem mnisLine_row (hl : extractHex l = some h) : mnisLine l = false := by
  have hno : ∀ needle, ch 'M' ∈ needle → has l needle = false := fun needle hn =>
    Bool.eq_false_iff.2 fun hhas => absurd (row_mem hl (mem_of_has hhas hn)) (by decide)
  rw [mnisLine, hno _ (by decide), hno _ (by decide), Bool.or_false]

/-! ## One line

A header begins a dump and ends the one before; a row goes to the dump that is open; any other line
ends it.  At the end of a dump its rows are decoded together. -/

variable (dec : Decoders)

/-- What a dump gives: a message on the header's slot, when its hex decodes to some text. -/
def message (slot : ℕ) (mnis : Bool) (hex : Bytes) : Option DsdEvent :=
  let text := if mnis && (lit "1F10").isPrefixOf hex then
    dec.decodeMotoArs hex else dec.decodeDmrPduText hex
  if text = [] then none
  else some
    { kind := lit "message"
      slot := if slot = 1 then lit "1" else if slot = 2 then lit "2" else []
      message := text
      rawLine := lit "DMR short-data PDU (dsd-fme -Z): " ++ text }

/-- What finishing gives. -/
def dumped (s : DmrPduTextCarry) (mnis : Bool) : Option DsdEvent :=
  if s.capturing ∧ s.hex ≠ [] then message dec s.slot mnis s.hex else none

variable {dec} {s : DmrPduTextCarry}

/-- What the end of a dump gives, and what it leaves. -/
theorem finish_eq : s.finish dec =
    (if s.capturing then { s with capturing := false, hex := [], mnis := false } else s,
      s.dumped dec s.mnis) := by
  rw [finish, dumped]
  cases hc : s.capturing with
  | false => simp
  | true =>
    by_cases hh : s.hex = []
    · simp [hh]
    · simp only [Bool.not_true, Bool.false_eq_true, if_false, if_true, hh, message, true_and, ne_eq,
        not_false_eq_true]
      split_ifs <;> rfl

/-- The mark is noted first. -/
theorem marked_eq (l : Bytes) :
    (if has l (lit "(MNIS)") || has l (lit "MNIS ARS") then { s with mnis := true } else s) =
      { s with mnis := s.mnis || mnisLine l } := by
  rw [mnisLine]
  split_ifs with h
  · rw [h, Bool.or_true]
  · rw [Bool.eq_false_iff.2 h, Bool.or_false]

/-- **One line**: a header ends what was open and opens its own dump, a row joins the open dump, and
any other line ends it. -/
theorem feed_eq (l : Bytes) : s.feed dec l =
    ((isHeader l).elim
      ((extractHex l).elim
        ({ s with
            capturing := false
            hex := if s.capturing then [] else s.hex
            mnis := (s.mnis || mnisLine l) && !s.capturing }, s.dumped dec (s.mnis || mnisLine l))
        fun h => ({ s with
            mnis := s.mnis || mnisLine l
            hex := if s.capturing then s.hex ++ h else s.hex }, none))
      fun slot => ({
          capturing := true
          slot := slot
          hex := []
          mnis := (s.mnis || mnisLine l) && !s.capturing },
            s.dumped dec (s.mnis || mnisLine l))) := by
  rw [feed]
  dsimp only
  rw [marked_eq, finish_eq]
  obtain ⟨capturing, slot, hex, mnis⟩ := s
  cases hh : isHeader l with
  | some slot => cases capturing <;> simp [dumped]
  | none =>
    cases hx : extractHex l with
    | none => cases capturing <;> simp [dumped]
    | some h => cases capturing <;> simp

/-! ## Dumps in the lines

A dump is told by the lines alone: a header, the rows right after it, and the line that ends it.  At
each line at most one dump ends. -/

/-- The lines end in a header and the rows after it. -/
def Open (p : List Bytes) (slot : ℕ) (hexes : List Bytes) : Prop :=
  ∃ before header rows, p = before ++ header :: rows ∧ isHeader header = some slot ∧
    rows.map extractHex = hexes.map some

/-- Line `j`, or the end of the output, ends a header and all the rows after it. -/
def EndsAt (ls : List Bytes) (j slot : ℕ) (hexes : List Bytes) : Prop :=
  Open (ls.take j) slot hexes ∧ ∀ l ∈ ls[j]?, extractHex l = none

/-- By line `j` an MNIS line has come, and no header with its rows has ended since. -/
def MnisAt (ls : List Bytes) (j : ℕ) : Prop :=
  ∃ k ≤ j, (∃ l ∈ ls[k]?, mnisLine l = true) ∧
    ∀ e, k ≤ e → e < j → ¬∃ slot hexes, EndsAt ls e slot hexes

/-- Before the first line no dump is open. -/
theorem not_open_nil {slot : ℕ} {hexes : List Bytes} : ¬Open [] slot hexes := by
  rintro ⟨before, header, rows, hp, -⟩
  exact absurd hp.symm (by simp)

/-- Of a line more: it is the header itself, or a row. -/
theorem open_concat {p : List Bytes} {slot : ℕ} {hexes : List Bytes} :
    Open (p ++ [l]) slot hexes ↔ (isHeader l = some slot ∧ hexes = []) ∨
      ∃ hs h, hexes = hs ++ [h] ∧ extractHex l = some h ∧ Open p slot hs := by
  constructor
  · rintro ⟨before, header, rows, hp, hhead, hrows⟩
    rcases List.eq_nil_or_concat' rows with rfl | ⟨rows, l', rfl⟩
    · obtain ⟨rfl, hl⟩ := List.append_inj' hp rfl
      obtain rfl := List.singleton_inj.1 hl
      exact Or.inl ⟨hhead, List.map_eq_nil_iff.1 hrows.symm⟩
    · rw [← List.cons_append, ← List.append_assoc] at hp
      obtain ⟨rfl, hl⟩ := List.append_inj' hp rfl
      obtain rfl := List.singleton_inj.1 hl
      rcases List.eq_nil_or_concat' hexes with rfl | ⟨hs, h, rfl⟩
      · simp at hrows
      · rw [List.map_append, List.map_append, List.map_singleton, List.map_singleton] at hrows
        obtain ⟨hrows, hlast⟩ := List.append_inj' hrows rfl
        exact Or.inr ⟨hs, h, rfl, List.singleton_inj.1 hlast, before, header, rows, rfl,
          hhead, hrows⟩
  · rintro (⟨hhead, rfl⟩ | ⟨hs, h, rfl, hl, before, header, rows, rfl, hhead, hrows⟩)
    · exact ⟨p, l, [], rfl, hhead, rfl⟩
    · refine ⟨before, header, rows ++ [l], by simp, hhead, ?_⟩
      rw [List.map_append, List.map_append, hrows, List.map_singleton, List.map_singleton, hl]

/-- Dumps that ended are not changed by more lines. -/
theorem endsAt_concat {p : List Bytes} {j slot : ℕ} {hexes : List Bytes} (hj : j < p.length) :
    EndsAt (p ++ [l]) j slot hexes ↔ EndsAt p j slot hexes := by
  rw [EndsAt, EndsAt, List.take_append_of_le_length hj.le, List.getElem?_append_left hj]

/-- A dump ends at a line that is no row. -/
theorem endsAt_length {p : List Bytes} {slot : ℕ} {hexes : List Bytes} :
    EndsAt (p ++ [l]) p.length slot hexes ↔ Open p slot hexes ∧ extractHex l = none := by
  rw [EndsAt, List.take_left, List.getElem?_append_right le_rfl, Nat.sub_self,
    List.getElem?_cons_zero]
  simp

/-- What a mark is after a line more. -/
theorem mnis_concat {p : List Bytes} :
    (∃ k < p.length + 1, (∃ l' ∈ (p ++ [l])[k]?, mnisLine l' = true) ∧
      ∀ e, k ≤ e → e < p.length + 1 → ¬∃ slot hexes, EndsAt (p ++ [l]) e slot hexes) ↔
    ((∃ k < p.length, (∃ l' ∈ p[k]?, mnisLine l' = true) ∧
      ∀ e, k ≤ e → e < p.length → ¬∃ slot hexes, EndsAt p e slot hexes) ∨ mnisLine l = true) ∧
      ¬((∃ slot hexes, Open p slot hexes) ∧ extractHex l = none) := by
  have hend : (∃ slot hexes, EndsAt (p ++ [l]) p.length slot hexes) ↔
      (∃ slot hexes, Open p slot hexes) ∧ extractHex l = none := by
    simp only [endsAt_length, exists_and_right]
  constructor
  · rintro ⟨k, hk, hmark, hno⟩
    refine ⟨?_, fun h => hno p.length (by omega) (by omega) (hend.2 h)⟩
    rcases Nat.lt_succ_iff_lt_or_eq.1 hk with hk | rfl
    · rw [List.getElem?_append_left hk] at hmark
      refine Or.inl ⟨k, hk, hmark, fun e hke he => ?_⟩
      have h := hno e hke (by omega)
      simpa only [endsAt_concat he] using h
    · rw [List.getElem?_append_right le_rfl, Nat.sub_self, List.getElem?_cons_zero] at hmark
      exact Or.inr (by simpa using hmark)
  · rintro ⟨⟨k, hk, hmark, hno⟩ | hmark, hlast⟩
    · refine ⟨k, by omega, by rwa [List.getElem?_append_left hk], fun e hke he => ?_⟩
      rcases Nat.lt_succ_iff_lt_or_eq.1 he with he | rfl
      · simpa only [endsAt_concat he] using hno e hke he
      · rwa [hend]
    · refine ⟨p.length, by omega, ?_, fun e hke he => ?_⟩
      · rw [List.getElem?_append_right le_rfl, Nat.sub_self, List.getElem?_cons_zero]
        simpa using hmark
      · obtain rfl : e = p.length := by omega
        rwa [hend]

/-! ## The carry's memory

The memory is the rows of the dump that is open, its slot, and whether a mark was seen.  It is shown
to be what the lines so far say. -/

/-- The carry after some lines. -/
def afterLines (dec : Decoders) (ls : List Bytes) : DmrPduTextCarry :=
  ls.foldl (fun s l => (s.feed dec l).1) {}

/-- **What the carry remembers** of the lines: the open header's slot and its rows' nibbles, and a
mark that no dump has used. -/
structure Remembers (p : List Bytes) (s : DmrPduTextCarry) : Prop where
  capturing : s.capturing = true ↔ ∃ slot hexes, Open p slot hexes
  dump : ∀ slot hexes, Open p slot hexes → s.slot = slot ∧ s.hex = hexes.flatten
  mnis : s.mnis = true ↔ ∃ k < p.length, (∃ l ∈ p[k]?, mnisLine l = true) ∧
    ∀ e, k ≤ e → e < p.length → ¬∃ slot hexes, EndsAt p e slot hexes

/-- **What is remembered after one more line.** -/
theorem Remembers.feed {p : List Bytes} (hs : Remembers p s) (l : Bytes) :
    Remembers (p ++ [l]) (s.feed dec l).1 := by
  rw [feed_eq]
  cases hhead : isHeader l with
  | some slot =>
    have hrow := row_of_header hhead
    have hopen : ∀ slot' hexes, Open (p ++ [l]) slot' hexes ↔ slot = slot' ∧ hexes = [] := by
      intro slot' hexes
      rw [open_concat, hhead, hrow]
      simp
    refine ⟨by simp [hopen], fun slot' hexes h => ?_, ?_⟩
    · obtain ⟨rfl, rfl⟩ := (hopen _ _).1 h
      exact ⟨rfl, rfl⟩
    · rw [List.length_append, List.length_singleton, mnis_concat, ← hs.mnis, ← hs.capturing, hrow]
      simp
  | none =>
    cases hrow : extractHex l with
    | some h =>
      have hopen : ∀ slot hexes, Open (p ++ [l]) slot hexes ↔ ∃ hs, hexes = hs ++ [h] ∧
          Open p slot hs := by
        intro slot hexes
        rw [open_concat, hhead, hrow]
        simp
      refine ⟨?_, fun slot hexes hop => ?_, ?_⟩
      · simp only [Option.elim_none, Option.elim_some, hs.capturing, hopen]
        constructor
        · rintro ⟨slot, hexes, ho⟩
          exact ⟨slot, _, hexes, rfl, ho⟩
        · rintro ⟨slot, _, hexes, _, ho⟩
          exact ⟨slot, hexes, ho⟩
      · obtain ⟨hs', rfl, ho⟩ := (hopen _ _).1 hop
        obtain ⟨hslot, hhex⟩ := hs.dump _ _ ho
        have hcap := hs.capturing.2 ⟨_, _, ho⟩
        simp [hslot, hhex, hcap]
      · rw [List.length_append, List.length_singleton, mnis_concat, ← hs.mnis, ← hs.capturing, hrow]
        simp
    | none =>
      have hopen : ∀ slot hexes, ¬Open (p ++ [l]) slot hexes := by
        intro slot hexes
        rw [open_concat, hhead, hrow]
        simp
      refine ⟨by simp [hopen], fun slot hexes hop => absurd hop (hopen _ _), ?_⟩
      rw [List.length_append, List.length_singleton, mnis_concat, ← hs.mnis, ← hs.capturing, hrow]
      simp

/-- **What is remembered after all lines.** -/
theorem remembers (dec : Decoders) (ls : List Bytes) : Remembers ls (afterLines dec ls) := by
  induction ls using List.reverseRecOn with
  | nil =>
    refine ⟨by simp [afterLines, not_open_nil], fun slot hexes h => absurd h not_open_nil, ?_⟩
    simp [afterLines]
  | append_singleton p l ih =>
    rw [afterLines, List.foldl_append]
    exact ih.feed l

/-! ## What the lines give

There is one message at each place where a dump ends, made of its rows, and none elsewhere. -/

/-- What each line gives, and last the end of the output. -/
def messages (dec : Decoders) : DmrPduTextCarry → List Bytes → List (Option DsdEvent)
  | s, [] => [(s.finish dec).2]
  | s, l :: ls => (s.feed dec l).2 :: messages dec (s.feed dec l).1 ls

/-- There is an answer for each line, and one for the end. -/
theorem messages_length (dec : Decoders) (ls : List Bytes) : ∀ s : DmrPduTextCarry,
    (messages dec s ls).length = ls.length + 1 := by
  induction ls with
  | nil => exact fun _ => rfl
  | cons l ls ih => exact fun s => congrArg (· + 1) (ih _)

/-- What a line gives, or the end of the output. -/
def given (dec : Decoders) (s : DmrPduTextCarry) (l : Option Bytes) : Option DsdEvent :=
  l.elim (s.finish dec).2 fun l => (s.feed dec l).2

/-- A line's message is that of the carry after the lines before it. -/
theorem messages_at (dec : Decoders) (ls : List Bytes) :
    ∀ (s : DmrPduTextCarry) (j : ℕ), j ≤ ls.length →
    (messages dec s ls)[j]? =
      some (given dec ((ls.take j).foldl (fun s l => (s.feed dec l).1) s) ls[j]?) := by
  induction ls with
  | nil =>
    intro s j hj
    obtain rfl := Nat.le_zero.1 hj
    rfl
  | cons l ls ih =>
    intro s j hj
    cases j with
    | zero => rfl
    | succ j => exact ih _ j (Nat.le_of_succ_le_succ hj)

/-- Where a mark stands before a line. -/
theorem mnisAt_iff {ls : List Bytes} {j : ℕ} (hj : j ≤ ls.length) : MnisAt ls j ↔
    (∃ k < (ls.take j).length, (∃ l ∈ (ls.take j)[k]?, mnisLine l = true) ∧
      ∀ e, k ≤ e → e < (ls.take j).length → ¬∃ slot hexes, EndsAt (ls.take j) e slot hexes) ∨
    ∃ l ∈ ls[j]?, mnisLine l = true := by
  have hlen : (ls.take j).length = j := List.length_take_of_le hj
  have hget : ∀ e, e < j → (ls.take j)[e]? = ls[e]? := fun e he => List.getElem?_take_of_lt he
  have hends : ∀ e, e < j → ∀ slot hexes, EndsAt (ls.take j) e slot hexes ↔
      EndsAt ls e slot hexes := by
    intro e he slot hexes
    rw [EndsAt, EndsAt, List.take_take, min_eq_left he.le, hget e he]
  rw [hlen, MnisAt]
  constructor
  · rintro ⟨k, hk, hmark, hno⟩
    rcases Nat.lt_or_eq_of_le hk with hk | rfl
    · refine Or.inl ⟨k, hk, by rwa [hget k hk], fun e hke he => ?_⟩
      simpa only [hends e he] using hno e hke he
    · exact Or.inr hmark
  · rintro (⟨k, hk, hmark, hno⟩ | hmark)
    · refine ⟨k, hk.le, by rwa [← hget k hk], fun e hke he => ?_⟩
      simpa only [hends e he] using hno e hke he
    · exact ⟨j, le_rfl, hmark, fun e hke he => absurd hke (not_le.2 he)⟩

/-- The mark at a line, from what the carry remembers and the line itself. -/
theorem mark_iff (dec : Decoders) {ls : List Bytes} {j : ℕ} (hj : j ≤ ls.length) :
    ((afterLines dec (ls.take j)).mnis || (ls[j]?).elim false mnisLine) = true ↔ MnisAt ls j := by
  rw [mnisAt_iff hj, Bool.or_eq_true, (remembers dec (ls.take j)).mnis]
  cases ls[j]? <;> simp

/-- The dump that a line, or the end, completes is what the carry holds. -/
theorem messages_eq {ls : List Bytes} {j : ℕ} (hj : j ≤ ls.length) : (messages dec {} ls)[j]? = some
    (if ∃ l ∈ ls[j]?, extractHex l ≠ none then none
    else (afterLines dec (ls.take j)).dumped dec
      ((afterLines dec (ls.take j)).mnis || (ls[j]?).elim false mnisLine)) := by
  rw [messages_at dec ls {} j hj]
  change some (given dec (afterLines dec (ls.take j)) ls[j]?) = _
  rw [given]
  cases ls[j]? with
  | none => simp [finish_eq]
  | some l =>
    rw [Option.elim_some, feed_eq]
    cases hhead : isHeader l with
    | some slot => simp [row_of_header hhead]
    | none => cases hrow : extractHex l <;> simp [hrow]

/-- **Each dump is decoded once**, where it ends, whole, by the decoder that its mark asks for. -/
theorem dump_decoded {ls : List Bytes} {j slot : ℕ} {hexes : List Bytes} (hj : j ≤ ls.length)
    (hend : EndsAt ls j slot hexes) (hne : hexes ≠ []) :
    ∃ mnis : Bool, (mnis = true ↔ MnisAt ls j) ∧
      (messages dec {} ls)[j]? = some (message dec slot mnis hexes.flatten) := by
  have hs := remembers dec (ls.take j)
  obtain ⟨hslot, hhex⟩ := hs.dump _ _ hend.1
  refine ⟨_, mark_iff dec hj, ?_⟩
  have hrow : ¬∃ l ∈ ls[j]?, extractHex l ≠ none := by
    rintro ⟨l, hl, hne⟩
    exact hne (hend.2 l hl)
  have hflat : hexes.flatten ≠ [] := by
    obtain ⟨before, header, rows, -, -, hrows⟩ := hend.1
    rcases hexes with _ | ⟨h, hexes⟩
    · exact absurd rfl hne
    · rcases rows with _ | ⟨r, rows⟩
      · exact absurd hrows (List.cons_ne_nil _ _).symm
      · have hr : extractHex r = some h := (List.cons.inj hrows).1
        intro hflat
        obtain rfl : h = [] := List.append_eq_nil_iff.1 hflat |>.1
        rw [extractHex] at hr
        split_ifs at hr with hcond
        have hup : upper (r.filter fun c => !isSpace c) = [] := Option.some.inj hr
        rw [upper, List.map_eq_nil_iff] at hup
        rw [hup] at hcond
        exact absurd hcond (by decide)
  rw [messages_eq hj, if_neg hrow, dumped, if_pos ⟨hs.capturing.2 ⟨_, _, hend.1⟩, by rwa [hhex]⟩,
    hslot, hhex]

/-- **No other line gives a message.** -/
theorem no_dump {ls : List Bytes} {j : ℕ} (hj : j ≤ ls.length)
    (hno : ¬∃ slot hexes, EndsAt ls j slot hexes ∧ hexes ≠ []) :
    (messages dec {} ls)[j]? = some none := by
  have hs := remembers dec (ls.take j)
  rw [messages_eq hj]
  split_ifs with hrow
  · rfl
  · rw [dumped, if_neg]
    rintro ⟨hcap, hhex⟩
    obtain ⟨slot, hexes, hop⟩ := hs.capturing.1 hcap
    refine hno ⟨slot, hexes, ⟨hop, fun l hl => by_contra fun hne => hrow ⟨l, hl, hne⟩⟩, ?_⟩
    rintro rfl
    exact hhex (hs.dump _ _ hop).2

/-! ## Rows wrapped otherwise

As rows are put together before they are decoded, it does not matter where they were broken. -/

/-- Rows join the open dump, and say nothing else. -/
theorem foldl_rows {rows hexes : List Bytes} :
    ∀ {s : DmrPduTextCarry}, rows.map extractHex = hexes.map some →
    rows.foldl (fun s l => (s.feed dec l).1) s =
      { s with hex := if s.capturing then s.hex ++ hexes.flatten else s.hex } := by
  induction rows generalizing hexes with
  | nil =>
    intro s h
    obtain rfl := List.map_eq_nil_iff.1 h.symm
    simp
  | cons l rows ih =>
    intro s h
    rcases hexes with _ | ⟨h', hexes⟩
    · exact absurd h (List.cons_ne_nil _ _)
    · rw [List.map_cons, List.map_cons, List.cons.injEq] at h
      have hhead : isHeader l = none := by
        by_contra hne
        obtain ⟨slot, hslot⟩ := Option.ne_none_iff_exists'.1 hne
        rw [row_of_header hslot] at h
        exact absurd h.1 (Option.some_ne_none _).symm
      rw [List.foldl_cons, ih h.2, feed_eq, hhead, h.1, mnisLine_row h.1]
      cases hc : s.capturing <;> simp

/-- Rows give no message, and add their hex. -/
theorem messages_rows {rows hexes : List Bytes} (rest : List Bytes) : ∀ {s : DmrPduTextCarry},
    rows.map extractHex = hexes.map some → (messages dec s (rows ++ rest)).reduceOption =
      (messages dec (rows.foldl (fun s l => (s.feed dec l).1) s) rest).reduceOption := by
  induction rows generalizing hexes with
  | nil => exact fun _ => rfl
  | cons l rows ih =>
    intro s h
    rcases hexes with _ | ⟨h', hexes⟩
    · exact absurd h (List.cons_ne_nil _ _)
    · rw [List.map_cons, List.map_cons, List.cons.injEq] at h
      have hmsg : (s.feed dec l).2 = none := by
        rw [feed_eq, h.1]
        cases hhead : isHeader l with
        | none => rfl
        | some slot => rw [row_of_header hhead] at h; exact absurd h.1 (Option.some_ne_none _).symm
      rw [List.cons_append, messages, hmsg, List.reduceOption_cons_of_none, ih h.2, List.foldl_cons]

/-- **How a dump's bytes are wrapped** into rows makes no difference to the messages. -/
theorem messages_rewrapped {rows rows' hexes hexes' : List Bytes} (before rest : List Bytes)
    (h : rows.map extractHex = hexes.map some) (h' : rows'.map extractHex = hexes'.map some)
    (hflat : hexes.flatten = hexes'.flatten) :
    (messages dec {} (before ++ (rows ++ rest))).reduceOption =
      (messages dec {} (before ++ (rows' ++ rest))).reduceOption := by
  have hgo : ∀ (before : List Bytes) (s : DmrPduTextCarry),
      (messages dec s (before ++ (rows ++ rest))).reduceOption =
        (messages dec s (before ++ (rows' ++ rest))).reduceOption := by
    intro before
    induction before with
    | nil => exact fun s => by rw [List.nil_append, List.nil_append, messages_rows rest h,
        messages_rows rest h', foldl_rows h, foldl_rows h', hflat]
    | cons l before ih =>
      intro s
      rw [List.cons_append, List.cons_append, messages, messages]
      cases (s.feed dec l).2 with
      | none => rw [List.reduceOption_cons_of_none, List.reduceOption_cons_of_none, ih]
      | some ev => rw [List.reduceOption_cons_of_some, List.reduceOption_cons_of_some, ih]
  exact hgo before {}

/-- **The dumps of an output** are decoded one by one, each whole, and nothing else gives a
message. -/
theorem dumps_reassembled (dec : Decoders) (ls : List Bytes) :
    (messages dec {} ls).length = ls.length + 1 ∧
      (∀ j ≤ ls.length,
        (∀ slot hexes, EndsAt ls j slot hexes → hexes ≠ [] →
          ∃ mnis : Bool, (mnis = true ↔ MnisAt ls j) ∧
          (messages dec {} ls)[j]? = some (message dec slot mnis hexes.flatten)) ∧
        ((¬∃ slot hexes, EndsAt ls j slot hexes ∧ hexes ≠ []) →
          (messages dec {} ls)[j]? = some none)) ∧
      ∀ before rows rows' rest hexes hexes' : List Bytes, ls = before ++ (rows ++ rest) →
        rows.map extractHex = hexes.map some → rows'.map extractHex = hexes'.map some →
        hexes.flatten = hexes'.flatten →
        (messages dec {} ls).reduceOption =
          (messages dec {} (before ++ (rows' ++ rest))).reduceOption := by
  refine ⟨messages_length dec ls {}, fun j hj => ⟨fun _ _ => dump_decoded hj, no_dump hj⟩, ?_⟩
  rintro before rows rows' rest hexes hexes' rfl h h' hflat
  exact messages_rewrapped before rest h h' hflat

/-- A dump of one row, that an ordinary line ends. -/
def oneDump : List Bytes :=
  [lit "Slot 1 - Multi Block PDU Message", lit "7465 7374", lit "Sync: +DMR"]

/-- Decoders that take the hex itself for the text. -/
def verbatim : Decoders := ⟨fun l => { rawLine := l }, id, id⟩

theorem oneDump_reassembled :
    (∃ mnis : Bool, (mnis = true ↔ MnisAt oneDump 2) ∧
      (messages verbatim {} oneDump)[2]? = some (message verbatim 1 mnis (lit "74657374"))) ∧
    (messages verbatim {} oneDump).reduceOption =
      (messages verbatim {} [lit "Slot 1 - Multi Block PDU Message", lit "74 65", lit "73 74",
        lit "Sync: +DMR"]).reduceOption :=
  ⟨((dumps_reassembled verbatim oneDump).2.1 2 (by decide)).1 1 [lit "74657374"]
      ⟨⟨[], _, [_], rfl, by decide, by decide⟩, by decide⟩ (by decide),
    (dumps_reassembled verbatim oneDump).2.2 [lit "Slot 1 - Multi Block PDU Message"]
    [lit "7465 7374"]
      [lit "74 65", lit "73 74"] [lit "Sync: +DMR"] [lit "74657374"]
      [lit "7465", lit "7374"] rfl (by decide)
      (by decide) (by decide)⟩

end DmrPduTextCarry

end DsdServer
