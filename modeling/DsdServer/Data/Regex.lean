import DsdServer.Data.Bytes

/-!
# Data/Regex — regular expressions, matched by backtracking

A pattern is tried at every position of a text, from the left, and at each of them its ways to match
are tried in order: the first branch of an alternative before the second, one more round of a
repetition before none — or after, if the repetition is a lazy one.  The first way that goes through
is the match, and its groups are what it captured.

`run` lists the ways of a pattern, in order.  Patterns are written as the standard library reads
them (`compile`): a class stands for one byte, `.` for any but a line's end, and a backslash for a
class or a boundary, or takes the meaning from what follows.

What a group captured it took byte by byte: `mem_capture` says of a pattern's groups what its
classes say of a byte.
-/

open Bytes

/-- **A pattern**, over bytes. -/
inductive Regex
  | empty
  /-- one byte of a class -/
  | one (p : UInt8 → Bool)
  | seq (r s : Regex)
  /-- the first, or else the second -/
  | alt (r s : Regex)
  /-- any number of rounds: as many as can be, or as few -/
  | star (greedy : Bool) (r : Regex)
  | group (i : ℕ) (r : Regex)
  | wordBoundary
  | atEnd
  /-- not before what the pattern matches -/
  | notAhead (r : Regex)

namespace Regex

/-! ## Matching -/

/-- A byte of a word. -/
def isWord (b : UInt8) : Bool := isAlnum b || b = ch '_'

def isSpace (b : UInt8) : Bool := b = 0x20 || (0x09 ≤ b && b ≤ 0x0d)

/-- **How far a match has come**: what is behind it, last byte first, what is ahead, and the groups,
the latest first. -/
structure State where
  before : Bytes
  after : Bytes
  groups : List (ℕ × Bytes) := []
  deriving DecidableEq

/-- Is one side a word's and the other not? -/
def State.atBoundary (st : State) : Bool :=
  (st.before.head?.any isWord) != (st.after.head?.any isWord)

/-- Rounds of a repetition, at most `n` of them; one that takes nothing does not count. -/
def rounds (step : State → List State) (greedy : Bool) : ℕ → State → List State
  | 0, st => [st]
  | n + 1, st =>
    let more := ((step st).filter fun st' => st'.after.length < st.after.length).flatMap
      (rounds step greedy n)
    if greedy then more ++ [st] else st :: more

/-- **The ways a pattern matches** from where a match has come to, in the order they are tried
in. -/
def run : Regex → State → List State
  | .empty, st => [st]
  | .one p, st =>
    match st.after with
    | [] => []
    | c :: t => if p c then [{ st with before := c :: st.before, after := t }] else []
  | .seq r s, st => (run r st).flatMap (run s)
  | .alt r s, st => run r st ++ run s st
  | .star greedy r, st => rounds (run r) greedy st.after.length st
  | .group i r, st => (run r st).map fun st' =>
      { st' with groups := (i, st.after.take (st.after.length - st'.after.length)) :: st'.groups }
  | .wordBoundary, st => if st.atBoundary then [st] else []
  | .atEnd, st => if st.after = [] then [st] else []
  | .notAhead r, st => if (run r st).isEmpty then [st] else []

/-- The first match that starts after `before`, or later: what is before it, and its groups. -/
def searchFrom (r : Regex) (before : Bytes) : Bytes → Option (Bytes × List (ℕ × Bytes))
  | [] => (run r ⟨before, [], []⟩).head?.map fun st => (before.reverse, st.groups)
  | c :: t =>
    match run r ⟨before, c :: t, []⟩ with
    | st :: _ => some (before.reverse, st.groups)
    | [] => searchFrom r (c :: before) t

/-- **The leftmost match** in a text: what is before it, and its groups. -/
def search (r : Regex) (s : Bytes) : Option (Bytes × List (ℕ × Bytes)) := searchFrom r [] s

/-- Is there a match? -/
def hits (r : Regex) (s : Bytes) : Bool := (search r s).isSome

/-- A group of the match; nothing where there is none, and empty if the match went without it. -/
def capture (r : Regex) (i : ℕ) (s : Bytes) : Option Bytes :=
  (search r s).map fun m => (m.2.lookup i).getD []

/-! ## Reading a pattern -/

/-- A class, either case of whose letters will do. -/
def folded (icase : Bool) (p : UInt8 → Bool) (b : UInt8) : Bool :=
  if icase then
    p b || (isUpper b && p (b + 32)) || (isLower b && p (b - 32))
  else p b

/-- What a backslash and a letter stand for. -/
def escaped (icase : Bool) (b : UInt8) : UInt8 → Bool :=
  if b = ch 'd' then isDigit
  else if b = ch 'D' then fun c => !isDigit c
  else if b = ch 's' then isSpace
  else if b = ch 'S' then fun c => !isSpace c
  else if b = ch 'w' then isWord
  else if b = ch 'W' then fun c => !isWord c
  else folded icase (· = b)

/-- The members of a class, up to its bracket. -/
def members (icase : Bool) : ℕ → (UInt8 → Bool) → Bytes → Option ((UInt8 → Bool) × Bytes)
  | 0, _, _ => none
  | fuel + 1, p, s =>
    match s with
    | [] => none
    | c :: t =>
      if c = ch ']' then some (p, t)
      else if c = ch '\\' then
        match t with
        | [] => none
        | e :: t => members icase fuel (fun b => p b || escaped icase e b) t
      else
        match t with
        | d :: hi :: u =>
          if d = ch '-' ∧ hi ≠ ch ']' then
            members icase fuel (fun b => p b || folded icase (fun b => c ≤ b && b ≤ hi) b) u
          else members icase fuel (fun b => p b || folded icase (· = c) b) t
        | _ => members icase fuel (fun b => p b || folded icase (· = c) b) t

/-- Once, or not at all. -/
def opt (greedy : Bool) (r : Regex) : Regex := if greedy then .alt r .empty else .alt .empty r

/-- Up to `n` times. -/
def upTo (greedy : Bool) (r : Regex) : ℕ → Regex
  | 0 => .empty
  | n + 1 => opt greedy (.seq r (upTo greedy r n))

/-- From `m` to `n` times. -/
def times (greedy : Bool) (r : Regex) : ℕ → ℕ → Regex
  | 0, n => upTo greedy r n
  | m + 1, n => .seq r (times greedy r m (n - 1))

/-- A number, and what follows it. -/
def number (s : Bytes) : ℕ × Bytes :=
  ((s.takeWhile isDigit).foldl (fun n b => n * 10 + (b.toNat - 48)) 0,
    s.dropWhile isDigit)

/-- A repetition's mark is lazy with a question mark behind. -/
def lazyMark (s : Bytes) : Bool × Bytes :=
  match s with
  | c :: t => if c = ch '?' then (false, t) else (true, s)
  | [] => (true, [])

/-- An atom, with the repetition that is marked behind it. -/
def repeated (r : Regex) (s : Bytes) : Regex × Bytes :=
  match s with
  | [] => (r, [])
  | c :: t =>
    if c = ch '*' then (.star (lazyMark t).1 r, (lazyMark t).2)
    else if c = ch '+' then (.seq r (.star (lazyMark t).1 r), (lazyMark t).2)
    else if c = ch '?' then (opt (lazyMark t).1 r, (lazyMark t).2)
    else if c = ch '{' then
      let m := number t
      match m.2 with
      | d :: u =>
        if d = ch ',' then
          let n := number u
          (times (lazyMark n.2.tail).1 r m.1 n.1, (lazyMark n.2.tail).2)
        else (times (lazyMark u).1 r m.1 m.1, (lazyMark u).2)
      | [] => (r, s)
    else (r, s)

/-- An alternative after others. -/
def joined : Option Regex → Regex → Regex
  | none, r => r
  | some d, r => .alt d r

/-- What was read up to a group's bracket, without it. -/
def closed : Regex × ℕ × Bytes → Option (Regex × ℕ × Bytes)
  | (r, n, c :: t) => if c = ch ')' then some (r, n, t) else none
  | _ => none

/-- An atom that is one byte of a pattern, or two with a backslash. -/
def byteAtom (icase : Bool) (c : UInt8) (t : Bytes) : Option (Regex × Bytes) :=
  if c = ch '[' then
    match t with
    | d :: u =>
      if d = ch '^' then (members icase t.length (fun _ => false) u).map fun m =>
        (.one fun b => !m.1 b, m.2)
      else (members icase (t.length + 1) (fun _ => false) t).map fun m => (.one m.1, m.2)
    | [] => none
  else if c = ch '\\' then
    match t with
    | e :: u => some (if e = ch 'b' then .wordBoundary else .one (escaped icase e), u)
    | [] => none
  else if c = ch '.' then some (.one fun b => b ≠ 0x0a && b ≠ 0x0d, t)
  else if c = ch '$' then some (.atEnd, t)
  else some (.one (folded icase (· = c)), t)

/-- The alternatives from here to a bracket or the end, after those that are done and the atoms of
one; the number of the next group goes along. -/
def read (icase : Bool) : ℕ → Option Regex → Regex → ℕ → Bytes → Option (Regex × ℕ × Bytes)
  | 0, _, _, _, _ => none
  | fuel + 1, done, cur, n, s =>
    match s with
    | [] => some (joined done cur, n, [])
    | c :: t =>
      if c = ch ')' then some (joined done cur, n, s)
      else if c = ch '|' then read icase fuel (some (joined done cur)) .empty n t
      else
        let atom : Option (Regex × ℕ × Bytes) :=
          if c = ch '(' then
            if (lit "?:").isPrefixOf t then (read icase fuel none .empty n (t.drop 2)).bind closed
            else if (lit "?!").isPrefixOf t then
              ((read icase fuel none .empty n (t.drop 2)).bind closed).map fun r =>
                (.notAhead r.1, r.2)
            else ((read icase fuel none .empty (n + 1) t).bind closed).map fun r =>
              (.group n r.1, r.2)
          else (byteAtom icase c t).map fun r => (r.1, n, r.2)
        atom.bind fun a =>
          let more := repeated a.1 a.2.2
          read icase fuel done (.seq cur more.1) a.2.1 more.2

/-- **A pattern, read**; one that is not well formed matches nothing. -/
def compile (icase : Bool) (s : String) : Regex :=
  let s := s.toUTF8.data.toList
  match read icase (s.length + 1) none .empty 1 s with
  | some (r, _, []) => r
  | _ => .one fun _ => false

/-! ## What groups capture

A way through a pattern takes bytes of its classes, one after the other.  So a pattern all of whose
classes are part of `P`, where a group is, captures bytes of `P` alone: which can be seen from the
pattern. -/

/-- Are all bytes that a pattern takes of a class? -/
def takes (P : UInt8 → Bool) : Regex → Bool
  | .one p => (List.range 256).all fun n => !p (UInt8.ofNat n) || P (UInt8.ofNat n)
  | .seq r s => takes P r && takes P s
  | .alt r s => takes P r && takes P s
  | .star _ r => takes P r
  | .group _ r => takes P r
  | .empty | .wordBoundary | .atEnd | .notAhead _ => true

/-- Are all bytes that its groups take? -/
def groupsTake (P : UInt8 → Bool) : Regex → Bool
  | .seq r s => groupsTake P r && groupsTake P s
  | .alt r s => groupsTake P r && groupsTake P s
  | .star _ r => groupsTake P r
  | .group _ r => takes P r && groupsTake P r
  | .empty | .one _ | .wordBoundary | .atEnd | .notAhead _ => true

section

variable {P : UInt8 → Bool} {r : Regex} {st st' : State}

/-- What each round does, all do. -/
theorem mem_rounds {Q : State → State → Prop} {step : State → List State} (hrefl : ∀ st, Q st st)
    (hstep : ∀ st st' st'', st' ∈ step st → Q st' st'' → Q st st'') (greedy : Bool) :
    ∀ (n : ℕ) {st st' : State},
      st' ∈ rounds step greedy n st → Q st st' := by
  intro n
  induction n with
  | zero =>
    intro st st' h
    rw [List.mem_singleton.1 h]
    exact hrefl st
  | succ n ih =>
    intro st st' h
    have hmore : st' ∈ ((step st).filter fun st' => st'.after.length < st.after.length).flatMap
        (rounds step greedy n) ∨ st' = st := by
      rw [rounds] at h
      cases greedy with
      | true => exact (List.mem_append.1 h).imp_right List.mem_singleton.1
      | false => exact (List.mem_cons.1 h).symm
    rcases hmore with hm | rfl
    · obtain ⟨st₁, h₁, h₂⟩ := List.mem_flatMap.1 hm
      exact hstep st st₁ st' (List.mem_of_mem_filter h₁) (ih h₂)
    · exact hrefl _

/-- A class that is part of `P` takes bytes of `P`. -/
theorem takes_one {p : UInt8 → Bool} (h : takes P (.one p) = true) {b : UInt8} (hb : p b = true) :
    P b = true := by
  have := List.all_eq_true.1 h b.toNat (List.mem_range.2 b.toNat_lt)
  rw [UInt8.ofNat_toNat, hb] at this
  exact this

/-- **A way through a pattern takes bytes of its classes.** -/
theorem taken_of_mem_run (h : takes P r = true) : ∀ {st st' : State}, st' ∈ run r st →
    ∃ w, st.after = w ++ st'.after ∧ ∀ b ∈ w, P b = true := by
  induction r with
  | empty =>
    intro st st' hm
    rw [List.mem_singleton.1 hm]
    exact ⟨[], rfl, by simp⟩
  | one p =>
    intro st st' hm
    rw [run] at hm
    rcases ha : st.after with _ | ⟨c, t⟩
    · rw [ha] at hm
      exact absurd hm List.not_mem_nil
    · rw [ha] at hm
      dsimp only at hm
      split_ifs at hm with hc
      · rw [List.mem_singleton.1 hm]
        refine ⟨[c], rfl, fun b hb => ?_⟩
        rw [List.mem_singleton.1 hb]
        exact takes_one h hc
      · exact absurd hm List.not_mem_nil
  | seq r s ihr ihs =>
    intro st st' hm
    obtain ⟨hr, hs⟩ := Bool.and_eq_true_iff.1 h
    obtain ⟨st₁, h₁, h₂⟩ := List.mem_flatMap.1 hm
    obtain ⟨w, hw, hP⟩ := ihr hr h₁
    obtain ⟨w', hw', hP'⟩ := ihs hs h₂
    refine ⟨w ++ w', by rw [hw, hw', List.append_assoc], fun b hb => ?_⟩
    exact (List.mem_append.1 hb).elim (hP b) (hP' b)
  | alt r s ihr ihs =>
    intro st st' hm
    obtain ⟨hr, hs⟩ := Bool.and_eq_true_iff.1 h
    exact (List.mem_append.1 hm).elim (fun hm => ihr hr hm) fun hm => ihs hs hm
  | star greedy r ih =>
    intro st st' hm
    refine mem_rounds (Q := fun st st' => ∃ w, st.after = w ++ st'.after ∧ ∀ b ∈ w, P b = true)
      (fun st => ⟨[], rfl, by simp⟩) ?_ greedy _ hm
    rintro st st₁ st' h₁ ⟨w', hw', hP'⟩
    obtain ⟨w, hw, hP⟩ := ih h h₁
    refine ⟨w ++ w', by rw [hw, hw', List.append_assoc], fun b hb => ?_⟩
    exact (List.mem_append.1 hb).elim (hP b) (hP' b)
  | group i r ih =>
    intro st st' hm
    obtain ⟨st₁, h₁, rfl⟩ := List.mem_map.1 hm
    obtain ⟨w, hw, hP⟩ := ih h h₁
    exact ⟨w, hw, hP⟩
  | wordBoundary =>
    intro st st' hm
    rw [run] at hm
    split_ifs at hm
    · rw [List.mem_singleton.1 hm]
      exact ⟨[], rfl, by simp⟩
    · exact absurd hm List.not_mem_nil
  | atEnd =>
    intro st st' hm
    rw [run] at hm
    split_ifs at hm
    · rw [List.mem_singleton.1 hm]
      exact ⟨[], rfl, by simp⟩
    · exact absurd hm List.not_mem_nil
  | notAhead r =>
    intro st st' hm
    rw [run] at hm
    split_ifs at hm
    · rw [List.mem_singleton.1 hm]
      exact ⟨[], rfl, by simp⟩
    · exact absurd hm List.not_mem_nil

/-- Groups of bytes of a class. -/
def GroupsOf (P : UInt8 → Bool) (l : List (ℕ × Bytes)) : Prop := ∀ g ∈ l, ∀ b ∈ g.2, P b = true

/-- **…and so do its groups.** -/
theorem groupsOf_of_mem_run (h : groupsTake P r = true) : ∀ {st st' : State}, st' ∈ run r st →
    GroupsOf P st.groups → GroupsOf P st'.groups := by
  induction r with
  | empty =>
    intro st st' hm hst
    rwa [List.mem_singleton.1 hm]
  | one p =>
    intro st st' hm hst
    rw [run] at hm
    rcases ha : st.after with _ | ⟨c, t⟩
    · rw [ha] at hm
      exact absurd hm List.not_mem_nil
    · rw [ha] at hm
      dsimp only at hm
      split_ifs at hm
      · rw [List.mem_singleton.1 hm]
        exact hst
      · exact absurd hm List.not_mem_nil
  | seq r s ihr ihs =>
    intro st st' hm hst
    obtain ⟨hr, hs⟩ := Bool.and_eq_true_iff.1 h
    obtain ⟨st₁, h₁, h₂⟩ := List.mem_flatMap.1 hm
    exact ihs hs h₂ (ihr hr h₁ hst)
  | alt r s ihr ihs =>
    intro st st' hm hst
    obtain ⟨hr, hs⟩ := Bool.and_eq_true_iff.1 h
    exact (List.mem_append.1 hm).elim (fun hm => ihr hr hm hst) fun hm => ihs hs hm hst
  | star greedy r ih =>
    intro st st' hm hst
    refine mem_rounds (Q := fun st st' => GroupsOf P st.groups → GroupsOf P st'.groups)
      (fun _ h => h) ?_ greedy _
      hm hst
    exact fun st st₁ st' h₁ h₂ hst => h₂ (ih h h₁ hst)
  | group i r ih =>
    intro st st' hm hst
    obtain ⟨hr, hg⟩ := Bool.and_eq_true_iff.1 h
    obtain ⟨st₁, h₁, rfl⟩ := List.mem_map.1 hm
    intro g hgm
    rcases List.mem_cons.1 hgm with rfl | hgm
    · obtain ⟨w, hw, hP⟩ := taken_of_mem_run hr h₁
      have htake : st.after.take (st.after.length - st₁.after.length) = w := by
        rw [hw, List.length_append, Nat.add_sub_cancel, List.take_left]
      intro b hb
      exact hP b (htake ▸ hb)
    · exact ih hg h₁ hst g hgm
  | wordBoundary =>
    intro st st' hm hst
    rw [run] at hm
    split_ifs at hm
    · rwa [List.mem_singleton.1 hm]
    · exact absurd hm List.not_mem_nil
  | atEnd =>
    intro st st' hm hst
    rw [run] at hm
    split_ifs at hm
    · rwa [List.mem_singleton.1 hm]
    · exact absurd hm List.not_mem_nil
  | notAhead r =>
    intro st st' hm hst
    rw [run] at hm
    split_ifs at hm
    · rwa [List.mem_singleton.1 hm]
    · exact absurd hm List.not_mem_nil

/-- **So do the groups of a match**, wherever it is found. -/
theorem groupsOf_searchFrom (h : groupsTake P r = true) (t : Bytes) :
    ∀ {before : Bytes} {m : Bytes × List (ℕ × Bytes)},
    searchFrom r before t = some m → GroupsOf P m.2 := by
  induction t with
  | nil =>
    intro before m hm
    obtain ⟨st, hst, rfl⟩ := Option.map_eq_some_iff.1 hm
    exact groupsOf_of_mem_run h (List.mem_of_head? hst) (by simp [GroupsOf])
  | cons c t ih =>
    intro before m hm
    rw [searchFrom] at hm
    rcases hr : run r ⟨before, c :: t, []⟩ with _ | ⟨st, rest⟩
    · rw [hr] at hm
      exact ih hm
    · rw [hr] at hm
      rw [← Option.some.inj hm]
      exact groupsOf_of_mem_run h (hr ▸ List.mem_cons_self : st ∈ run r ⟨before, c :: t, []⟩)
        (by simp [GroupsOf])

/-- **A capture is of the bytes its group takes.** -/
theorem mem_capture (h : groupsTake P r = true) {i : ℕ} {s v : Bytes}
    (hv : r.capture i s = some v) :
    ∀ b ∈ v, P b = true := by
  obtain ⟨m, hm, rfl⟩ := Option.map_eq_some_iff.1 hv
  have hgroups := groupsOf_searchFrom h s hm
  intro b hb
  rcases hl : m.2.lookup i with _ | w
  · rw [hl] at hb
    exact absurd hb List.not_mem_nil
  · rw [hl] at hb
    obtain ⟨l₁, l₂, hsplit, -⟩ := List.lookup_eq_some_iff.1 hl
    exact hgroups (i, w) (by rw [hsplit]; simp) b hb

end

example :
    (compile true "\\bTEXT:\\s*(\\S.*?)\\s*$").capture 1 (lit "DSTAR text: F1 ZOO ") =
      some (lit "F1 ZOO") := by
  decide +kernel

end Regex
