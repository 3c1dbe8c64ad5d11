import DsdServer.Data.Bytes

/-!
# Data/Path — walking a path

A path is walked component by component: an empty one and a dot stay, two dots go up, any other goes
down.  Links aside, that is the file a path names; and a path of plain components does not leave the
folder it starts in.
-/

namespace Bytes

/-! ## The pieces of a string

A string with a separator in it is its pieces, one more than there are separators, and the string is
the pieces with the separators between them. -/

/-- There is always a piece, if only an empty one. -/
theorem split_ne_nil (sep : UInt8) (s : Bytes) : split sep s ≠ [] := by
  induction s with
  | nil => exact List.cons_ne_nil _ _
  | cons b s ih =>
    rw [split]
    split_ifs
    · exact List.cons_ne_nil _ _
    · split <;> exact List.cons_ne_nil _ _

/-- A separator ends a piece and begins the next. -/
theorem split_append_sep (sep : UInt8) (s t : Bytes) :
    split sep (s ++ sep :: t) = split sep s ++ split sep t := by
  induction s with
  | nil => exact if_pos rfl
  | cons b s ih =>
    rw [List.cons_append, split, split, ih]
    by_cases hb : b = sep
    · rw [if_pos hb, if_pos hb, List.cons_append]
    · rw [if_neg hb, if_neg hb]
      rcases hs : split sep s with _ | ⟨p, ps⟩
      · exact absurd hs (split_ne_nil sep s)
      · rfl

/-- Without the separator there is one piece. -/
theorem split_of_not_mem {sep : UInt8} {s : Bytes} (h : sep ∉ s) : split sep s = [s] := by
  induction s with
  | nil => rfl
  | cons b s ih =>
    rw [List.mem_cons, not_or] at h
    rw [split, if_neg (Ne.symm h.1), ih h.2]

/-- The pieces, with the separator between them, are the string. -/
theorem intercalate_split (sep : UInt8) (s : Bytes) : [sep].intercalate (split sep s) = s := by
  induction s with
  | nil => rfl
  | cons b s ih =>
    rw [split]
    rcases hs : split sep s with _ | ⟨p, ps⟩
    · exact absurd hs (split_ne_nil sep s)
    rw [hs] at ih
    split_ifs with hb
    · rw [List.intercalate_cons_cons, ih, hb]
      rfl
    · conv_rhs => rw [← ih]
      cases ps with
      | nil => rfl
      | cons q ps => rw [List.intercalate_cons_cons, List.intercalate_cons_cons]; rfl

end Bytes

namespace Path

open Bytes

/-! ## Walking

The walk keeps the components it has come through, so that two dots can leave the last one.  Where a
path begins with a slash it starts at the root, and else in a folder that is given. -/

/-- A component more. -/
def enter (at' : List Bytes) (seg : Bytes) : List Bytes :=
  if seg = [] ∨ seg = lit "." then at' else if seg = lit ".." then at'.dropLast else at' ++ [seg]

/-- **The file a path names**, as the way to it from the root. -/
def walk (cwd : List Bytes) (p : Bytes) : List Bytes :=
  (split (ch '/') p).foldl enter (if p.head? = some (ch '/') then [] else cwd)

/-- A path in a folder; an absolute one stays as it is. -/
def join (dir rel : Bytes) : Bytes :=
  if rel.head? = some (ch '/') then rel
  else if dir = [] ∨ dir.getLast? = some (ch '/') then dir ++ rel
  else dir ++ lit "/" ++ rel

/-- A component that goes down: neither empty, nor hidden. -/
def Plain (seg : Bytes) : Prop := seg ≠ [] ∧ seg.head? ≠ some (ch '.')

/-- A plain component goes down by one. -/
theorem enter_plain {seg : Bytes} (h : Plain seg) (at' : List Bytes) :
    enter at' seg = at' ++ [seg] := by
  have h₁ : seg ≠ lit "." := fun he => h.2 (by rw [he]; rfl)
  have h₂ : seg ≠ lit ".." := fun he => h.2 (by rw [he]; rfl)
  rw [enter, if_neg (not_or.2 ⟨h.1, h₁⟩), if_neg h₂]

/-- Plain components are all that the walk adds. -/
theorem foldl_enter_plain {segs : List Bytes} (h : ∀ seg ∈ segs, Plain seg) :
    ∀ at', segs.foldl enter at' = at' ++ segs := by
  induction segs with
  | nil => exact fun at' => (List.append_nil at').symm
  | cons seg segs ih =>
    intro at'
    rw [List.foldl_cons, enter_plain (h seg List.mem_cons_self),
      ih fun s hs => h s (List.mem_cons_of_mem seg hs), List.append_assoc, List.singleton_append]

variable (cwd : List Bytes)

theorem walk_nil : walk cwd [] = cwd := rfl

/-- Below a folder, plain components stay below it. -/
theorem walk_append {dir rel : Bytes} (h : ∀ seg ∈ split (ch '/') rel, Plain seg) :
    walk cwd (dir ++ lit "/" ++ rel) = walk cwd (dir ++ lit "/") ++ split (ch '/') rel := by
  have hcons : dir ++ lit "/" ++ rel = dir ++ ch '/' :: rel := List.append_assoc ..
  have hslash : dir ++ lit "/" = dir ++ ch '/' :: [] := rfl
  have hhead : (dir ++ ch '/' :: rel).head? = (dir ++ ch '/' :: []).head? := by cases dir <;> rfl
  rw [hcons, hslash, walk, walk, hhead, split_append_sep, split_append_sep, List.foldl_append,
    List.foldl_append, foldl_enter_plain h]
  rfl

theorem walk_slash {dir : Bytes} (h : dir ≠ []) : walk cwd (dir ++ lit "/") = walk cwd dir := by
  obtain ⟨b, dir, rfl⟩ := List.exists_cons_of_ne_nil h
  have hslash : (b :: dir) ++ lit "/" = (b :: dir) ++ ch '/' :: [] := rfl
  rw [hslash, walk, split_append_sep, List.foldl_append]
  rfl

/-- **A path of plain components stays in its folder.** -/
theorem walk_join {dir rel : Bytes} (h : ∀ seg ∈ split (ch '/') rel, Plain seg) :
    walk cwd (join dir rel) = walk cwd dir ++ split (ch '/') rel := by
  -- its first component is not empty
  have hrel : rel.head? ≠ some (ch '/') := by
    intro he
    obtain ⟨t, rfl⟩ := List.head?_eq_some_iff.1 he
    refine (h [] ?_).1 rfl
    rw [split, if_pos rfl]
    exact List.mem_cons_self
  rw [join, if_neg hrel]
  by_cases hdir : dir = []
  · rw [if_pos (Or.inl hdir), hdir, List.nil_append, walk_nil, walk, if_neg hrel,
      foldl_enter_plain h]
  by_cases hlast : dir.getLast? = some (ch '/')
  · obtain ⟨d, rfl⟩ := List.getLast?_eq_some_iff.1 hlast
    rw [if_pos (Or.inr hlast)]
    exact walk_append cwd h
  · rw [if_neg (not_or.2 ⟨hdir, hlast⟩), walk_append cwd h, walk_slash cwd hdir]

end Path
