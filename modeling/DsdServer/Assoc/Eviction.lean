import DsdServer.Assoc.AudioStore
import DsdServer.Data.Ledger

/-!
# Assoc/Eviction — what the audio store keeps, and what its limits delete

Over every sequence of requests the tracked total is the size of the indexed files, a file being
written is never deleted for space, and the names handed to the model are those of the deleted
files, in order: `store_accounted`.

The deletion walks the index from its oldest entry and stops at the first that is within both limits
(`sweep_spec`).  The index is in the order of creation, not of last write, so a young entry near its
front shields an overdue one behind it: `age_limit_kept` says exactly when none stays.

Requests can fail, and a failed one may have done part of its work.  Therefore the books are stated
for every request with every outcome, and what is not promised after a failure is left out of them:
after a request to enable that fails, the index may be over the limit.
-/

open Bytes

namespace DsdServer.CallAudioStore

variable {s : CallAudioStore} {now : ℤ}

/-! ## The deletion

The index is walked from its front while the total is over the cap or the entry is too old.  Files
that are being written are passed over.  Where the walk ends, the rest of the index is left as it
is, whatever is in it. -/

/-- The files of a list that are not being written. -/
def finished (s : CallAudioStore) (l : List AudioEntry) : List AudioEntry :=
  l.filter fun e => !s.opened.contains e.name

/-- The size of some files together. -/
def bytesOf (l : List AudioEntry) : ℕ := (l.map AudioEntry.bytes).sum

/-- Last written longer ago than the age limit. -/
def Stale (s : CallAudioStore) (now : ℤ) (e : AudioEntry) : Prop :=
  0 < s.maxAge ∧ s.maxAge < now - e.mtime

instance decidableStale (s : CallAudioStore) (now : ℤ) (e : AudioEntry) :
    Decidable (s.Stale now e) :=
  inferInstanceAs (Decidable (_ ∧ _))

@[simp] theorem bytesOf_nil : bytesOf [] = 0 := rfl

@[simp] theorem bytesOf_cons (e : AudioEntry) (l : List AudioEntry) :
    bytesOf (e :: l) = e.bytes + bytesOf l := by simp [bytesOf]

@[simp] theorem bytesOf_append (l m : List AudioEntry) :
    bytesOf (l ++ m) = bytesOf l + bytesOf m := by
  simp [bytesOf]

@[simp] theorem finished_nil : s.finished [] = [] := rfl

@[simp] theorem finished_append (l m : List AudioEntry) :
    s.finished (l ++ m) = s.finished l ++ s.finished m := List.filter_append ..

/-- A stretch `p` of the index the deletion passes: at every entry of it the total, less what went
before, is over the cap, or the entry is stale. -/
def Passed (s : CallAudioStore) (now : ℤ) (total : ℕ) (p : List AudioEntry) : Prop :=
  ∀ a x b, p = a ++ x :: b → s.cap < total - bytesOf (s.finished a) ∨ s.Stale now x

/-- One entry more that the deletion passes. -/
theorem Passed.cons {total : ℕ} {e : AudioEntry} {p : List AudioEntry}
    (he : s.cap < total ∨ s.Stale now e) (hp : s.Passed now (total - bytesOf (s.finished [e])) p) :
    s.Passed now total (e :: p) := by
  intro a x b h
  rcases a with _ | ⟨e', a⟩
  · obtain ⟨rfl, -⟩ := List.cons.inj h
    simpa using he
  · rw [List.cons_append, List.cons.injEq] at h
    obtain ⟨rfl, rfl⟩ := h
    have := hp a x b rfl
    rwa [Nat.sub_sub, ← bytesOf_append, ← finished_append] at this

/-- The deletion looks at the oldest entry first. -/
theorem sweep_cons (s : CallAudioStore) (now : ℤ) (e : AudioEntry) (l : List AudioEntry)
    (total : ℕ) :
    s.sweep now (e :: l) total =
      if s.cap < total ∨ s.Stale now e then
        if s.opened.contains e.name then
          (e :: (s.sweep now l total).1, (s.sweep now l total).2)
        else
          ((s.sweep now l (total - e.bytes)).1, (s.sweep now l (total - e.bytes)).2.1,
            e.name :: (s.sweep now l (total - e.bytes)).2.2)
      else (e :: l, total, []) := rfl

/-- **The deletion**: it passes a stretch `p` of the index, deleting the finished files there, and
stops at the end or at an entry within both limits. -/
theorem sweep_spec (s : CallAudioStore) (now : ℤ) (l : List AudioEntry) (total : ℕ) :
    ∃ p q, l = p ++ q ∧ s.Passed now total p ∧
      s.sweep now l total =
        (p.filter (fun e => s.opened.contains e.name) ++ q, total - bytesOf (s.finished p),
          (s.finished p).map AudioEntry.name) ∧
      ∀ e r, q = e :: r → total - bytesOf (s.finished p) ≤ s.cap ∧ ¬s.Stale now e := by
  induction l generalizing total with
  | nil => exact ⟨[], [], rfl, fun a x b h => by simp at h, rfl, fun e r h => by simp at h⟩
  | cons e l ih =>
    rw [sweep_cons]
    by_cases he : s.cap < total ∨ s.Stale now e
    · rw [if_pos he]
      by_cases ho : s.opened.contains e.name
      · obtain ⟨p, q, rfl, hp, hs, hq⟩ := ih total
        have hf : s.finished [e] = [] := by simp [finished, ho]
        have hfp : s.finished (e :: p) = s.finished p := by simp [finished, ho]
        refine ⟨e :: p, q, rfl, Passed.cons he (by rw [hf]; exact hp), ?_, by rw [hfp]; exact hq⟩
        rw [if_pos ho, hs, hfp]
        simp [ho]
      · obtain ⟨p, q, rfl, hp, hs, hq⟩ := ih (total - e.bytes)
        have hf : s.finished [e] = [e] := by simp [finished, ho]
        have hfp : s.finished (e :: p) = e :: s.finished p := by simp [finished, ho]
        refine ⟨e :: p, q, rfl, Passed.cons he (by rw [hf]; simpa using hp), ?_, ?_⟩
        · rw [if_neg ho, hs, hfp]
          simp [ho, Nat.sub_sub]
        · rw [hfp, bytesOf_cons, ← Nat.sub_sub]
          exact hq
    · rw [if_neg he]
      rw [not_or, Nat.not_lt] at he
      refine ⟨[], e :: l, rfl, fun a x b h => by simp at h, by simp, fun e' r h => ?_⟩
      obtain ⟨rfl, -⟩ := List.cons.inj h
      simpa using he

/-- What a deletion leaves and deletes. -/
theorem enforce_spec (s : CallAudioStore) (now : ℤ) :
    ∃ p q, s.index = p ++ q ∧ s.Passed now s.total p ∧
      (s.enforce now).index = p.filter (fun e => s.opened.contains e.name) ++ q ∧
      (s.enforce now).total = s.total - bytesOf (s.finished p) ∧
      (s.enforce now).evicted = s.evicted ++ (s.finished p).map AudioEntry.name ∧
      ∀ e r, q = e :: r → (s.enforce now).total ≤ s.cap ∧ ¬s.Stale now e := by
  obtain ⟨p, q, hl, hp, hs, hq⟩ := s.sweep_spec now s.index s.total
  refine ⟨p, q, hl, hp, ?_⟩
  rw [enforce, hs]
  exact ⟨rfl, rfl, rfl, hq⟩

@[simp] theorem opened_enforce (s : CallAudioStore) (now : ℤ) : (s.enforce now).opened = s.opened :=
  rfl

@[simp] theorem cap_enforce (s : CallAudioStore) (now : ℤ) : (s.enforce now).cap = s.cap := rfl

@[simp] theorem maxAge_enforce (s : CallAudioStore) (now : ℤ) : (s.enforce now).maxAge = s.maxAge :=
  rfl

@[simp] theorem on_enforce (s : CallAudioStore) (now : ℤ) : (s.enforce now).on = s.on := rfl

/-! ## A block in a file

A block makes its file longer and younger.  The index keeps its order, in which the file stands
where it was created. -/

/-- The store with a block in an open file, before any deletion. -/
def written (s : CallAudioStore) (name : Bytes) (pcm : List Sample) (now : ℤ) : CallAudioStore :=
  { s with
    disk := s.disk.modify name (· ++ pcm)
    opened := s.opened.modify name (· + pcm.length)
    total := s.total + 2 * pcm.length
    index :=
      touchEntry name (fun e => { e with bytes := e.bytes + 2 * pcm.length, mtime := now })
        s.index }

/-- A block for an open file is written, and then the limits are applied if the total calls for it.
-/
theorem append_eq (s : CallAudioStore) (name : Bytes) (pcm : List Sample) (now : ℤ) :
    s.append name pcm now =
      if name ∈ s.opened ∧ pcm ≠ [] then
        if s.cap < (s.written name pcm now).total then (s.written name pcm now).enforce now
        else s.written name pcm now
      else s := by
  by_cases h : name ∈ s.opened ∧ pcm ≠ []
  · have ho : s.opened.contains name = true := SortedMap.contains_iff.2 h.1
    rw [if_pos h, append, if_neg (by simp [ho, h.2])]
    rfl
  · rw [if_neg h, append, if_pos]
    rw [Bool.or_eq_true, Bool.not_eq_true', ← Bool.not_eq_true, SortedMap.contains_iff,
      List.isEmpty_iff]
    tauto

/-- Writing leaves the files that are open. -/
@[simp] theorem mem_opened_written {name n : Bytes} {pcm : List Sample} :
    n ∈ (s.written name pcm now).opened ↔ n ∈ s.opened := SortedMap.mem_modify

/-- A change of one entry leaves the names. -/
theorem names_touchEntry {name : Bytes} {g : AudioEntry → AudioEntry}
    (hg : ∀ e, (g e).name = e.name) (l : List AudioEntry) :
    (touchEntry name g l).map AudioEntry.name = l.map AudioEntry.name := by
  induction l with
  | nil => rfl
  | cons e l ih =>
    rw [touchEntry]
    split_ifs
    · simp [hg]
    · simp [ih]

/-- Writing leaves the names of the index. -/
@[simp] theorem index_written (s : CallAudioStore) (name : Bytes) (pcm : List Sample) (now : ℤ) :
    (s.written name pcm now).index.map AudioEntry.name = s.index.map AudioEntry.name :=
  names_touchEntry (g := fun e => { e with bytes := e.bytes + 2 * pcm.length, mtime := now })
    (fun _ => rfl) s.index

/-- A file that grows makes the index larger by as much. -/
theorem bytesOf_touchEntry {name : Bytes} {g : AudioEntry → AudioEntry} {n : ℕ}
    (hg : ∀ e, (g e).bytes = e.bytes + n) {l : List AudioEntry}
    (h : name ∈ l.map AudioEntry.name) : bytesOf (touchEntry name g l) = bytesOf l + n := by
  induction l with
  | nil => simp at h
  | cons e l ih =>
    rw [touchEntry]
    by_cases he : e.name = name
    · rw [if_pos he, bytesOf_cons, bytesOf_cons, hg]
      omega
    · have hl : name ∈ l.map AudioEntry.name := by
        rw [List.map_cons, List.mem_cons] at h
        exact h.resolve_left (Ne.symm he)
      rw [if_neg he, bytesOf_cons, bytesOf_cons, ih hl]
      omega

/-- A file that is not being written is not touched. -/
theorem mem_touchEntry_iff {name : Bytes} {g : AudioEntry → AudioEntry}
    (hg : ∀ e, (g e).name = e.name) {e : AudioEntry} (he : e.name ≠ name) (l : List AudioEntry) :
    e ∈ touchEntry name g l ↔ e ∈ l := by
  induction l with
  | nil => rfl
  | cons x l ih =>
    rw [touchEntry]
    by_cases hx : x.name = name
    · have h₁ : e ≠ x := fun h => he (h ▸ hx)
      have h₂ : e ≠ g x := fun h => he ((congrArg AudioEntry.name h).trans ((hg x).trans hx))
      rw [if_pos hx, List.mem_cons, List.mem_cons]
      simp only [h₁, h₂]
    · rw [if_neg hx, List.mem_cons, List.mem_cons, ih]

/-! ## Sequences of requests

The model asks the store for these things and no others.  A sequence is orderly when the store is
not turned on while it is on, and no file is opened under a name that is in the index. -/

/-- A folder as the store lists it: the files of its own naming, each once, oldest first. -/
structure Folder where
  files : List AudioEntry
  valid : ∀ e ∈ files, validName e.name
  once : (files.map AudioEntry.name).Nodup
  sorted : files.Pairwise (·.mtime ≤ ·.mtime)

/-- The requests to the store.  `enable` has no folder when it cannot be made, and nothing
changes. -/
inductive Op
  | enable (folder : Option Folder) (cap : ℕ) (maxAge now : ℤ)
  | disable
  | openFile (name : Bytes) (creatable : Bool) (now : ℤ)
  | append (name : Bytes) (pcm : List Sample) (now : ℤ)
  | finish (name : Bytes)
  | discard (name : Bytes)
  | removeAll
  | takeEvicted

/-- The names of the files deleted since they were last taken. -/
def takeEvicted (s : CallAudioStore) : List Bytes × CallAudioStore :=
  (s.evicted, { s with evicted := [] })

/-- What one request does. -/
def step (s : CallAudioStore) : Op → CallAudioStore
  | .enable none _ _ _ => s
  | .enable (some d) cap maxAge now => s.enable d.files cap maxAge now
  | .disable => s.disable
  | .openFile name creatable now => (s.openFile name creatable now).getD s
  | .append name pcm now => s.append name pcm now
  | .finish name => s.finish name
  | .discard name => s.discard name
  | .removeAll => s.removeAll
  | .takeEvicted => s.takeEvicted.2

/-- What a sequence of requests comes to. -/
def run (s : CallAudioStore) (ops : List Op) : CallAudioStore := ops.foldl step s

/-- Along a sequence of requests, `P` holds of every one. -/
def Throughout (P : CallAudioStore → Op → Prop) : CallAudioStore → List Op → Prop
  | _, [] => True
  | s, op :: ops => P s op ∧ Throughout P (s.step op) ops

/-- The store is turned on when it is off, and a file opened under a name the index does not
have. -/
def Orderly (s : CallAudioStore) : Op → Prop
  | .enable _ _ _ _ => s.on = false
  | .openFile name _ _ => name ∉ s.index.map AudioEntry.name
  | _ => True

instance decidableOrderly (s : CallAudioStore) : ∀ op, Decidable (s.Orderly op)
  | .enable _ _ _ _ => inferInstanceAs (Decidable (_ = _))
  | .openFile _ _ _ => inferInstanceAs (Decidable (¬_))
  | .disable | .append _ _ _ | .finish _ | .discard _ | .removeAll | .takeEvicted => isTrue trivial

instance decidableThroughout (P : CallAudioStore → Op → Prop) [∀ s op, Decidable (P s op)] :
    ∀ (s : CallAudioStore) (ops : List Op), Decidable (Throughout P s ops)
  | _, [] => isTrue trivial
  | s, op :: ops =>
    have := decidableThroughout P (s.step op) ops
    inferInstanceAs (Decidable (_ ∧ _))

/-- The requests after which the limits are met: turning the store on, and a block of at least one
sample for an open file. -/
def Limits (s : CallAudioStore) : Op → Prop
  | .enable folder _ _ _ => folder.isSome
  | .append name pcm _ => name ∈ s.opened ∧ pcm ≠ []
  | _ => False

/-- The index a request's deletion works on, by name. -/
def offered (s : CallAudioStore) : Op → List Bytes
  | .enable (some d) _ _ _ => d.files.map AudioEntry.name
  | .append _ _ _ => s.index.map AudioEntry.name
  | _ => []

/-- The files a request's deletion removes from the index. -/
def removed (s : CallAudioStore) (op : Op) : List Bytes :=
  (s.offered op).filter fun n => n ∉ (s.step op).index.map AudioEntry.name

/-- The files deleted along a sequence of requests since their names were last taken. -/
def removals : CallAudioStore → List Op → List Bytes → List Bytes
  | _, [], gone => gone
  | s, .takeEvicted :: ops, _ => removals (s.step .takeEvicted) ops []
  | s, op :: ops, gone => removals (s.step op) ops (gone ++ s.removed op)

/-! ## The books

The total is kept as a number beside the index and never counted again, so every request has to
change it by exactly what it changes in the index. -/

/-- The index has every name once, the total is its size, and the files being written are in it. -/
structure Accounted (s : CallAudioStore) : Prop where
  once : (s.index.map AudioEntry.name).Nodup
  total : s.total = bytesOf s.index
  indexed : ∀ n ∈ s.opened, n ∈ s.index.map AudioEntry.name
  off : s.on = false → ∀ n, n ∉ s.opened

/-- Open and finished files together are all files. -/
theorem bytesOf_finished (s : CallAudioStore) (l : List AudioEntry) :
    bytesOf (l.filter fun e => s.opened.contains e.name) + bytesOf (s.finished l) = bytesOf l := by
  induction l with
  | nil => rfl
  | cons e l ih =>
    rw [finished] at ih ⊢
    rcases ho : s.opened.contains e.name with _ | _
    · rw [List.filter_cons_of_neg (by simp [ho]), List.filter_cons_of_pos (by simp [ho]),
        bytesOf_cons, bytesOf_cons]
      omega
    · rw [List.filter_cons_of_pos (by simp [ho]), List.filter_cons_of_neg (by simp [ho]),
        bytesOf_cons, bytesOf_cons]
      omega

/-- **Deleting keeps the books**: what goes from the index goes from the total. -/
theorem Accounted.enforce (h : s.Accounted) (now : ℤ) : (s.enforce now).Accounted := by
  obtain ⟨p, q, hl, -, hi, ht, -, -⟩ := s.enforce_spec now
  refine ⟨?_, ?_, fun n hn => ?_, h.off⟩
  · have hsub : (p.filter (fun e => s.opened.contains e.name) ++ q).Sublist s.index :=
      hl ▸ List.filter_sublist.append_right q
    rw [hi]
    exact h.once.sublist (hsub.map _)
  · have := s.bytesOf_finished p
    rw [ht, hi, h.total, hl, bytesOf_append, bytesOf_append]
    omega
  · have hm := h.indexed n hn
    rw [hl, List.map_append, List.mem_append] at hm
    rw [hi, List.map_append, List.mem_append]
    refine hm.imp (fun hm => ?_) id
    obtain ⟨e, he, rfl⟩ := List.mem_map.1 hm
    exact List.mem_map_of_mem (List.mem_filter.2 ⟨he, SortedMap.contains_iff.2 hn⟩)

/-- What a deletion reports is what it takes from the index. -/
theorem Accounted.evicted_enforce (h : s.Accounted) (now : ℤ) :
    (s.enforce now).evicted = s.evicted ++
      (s.index.map AudioEntry.name).filter
        (fun n => n ∉ (s.enforce now).index.map AudioEntry.name) := by
  obtain ⟨p, q, hl, -, hi, -, he, -⟩ := s.enforce_spec now
  have hnd := h.once
  rw [hl, List.map_append, List.nodup_append] at hnd
  have hp : p.filter (fun e => decide (e.name ∉ (s.enforce now).index.map AudioEntry.name)) =
      s.finished p := by
    refine List.filter_congr fun e hep => ?_
    have hm : e.name ∈ (s.enforce now).index.map AudioEntry.name ↔
        s.opened.contains e.name = true := by
      rw [hi, List.map_append, List.mem_append]
      refine ⟨fun hm => ?_, fun ho => Or.inl (List.mem_map_of_mem (List.mem_filter.2 ⟨hep, ho⟩))⟩
      rcases hm with hm | hm
      · obtain ⟨e', he', hn⟩ := List.mem_map.1 hm
        exact hn ▸ (List.mem_filter.1 he').2
      · exact absurd rfl (hnd.2.2 _ (List.mem_map_of_mem hep) _ hm)
    rw [Bool.eq_iff_iff, decide_eq_true_iff, hm, Bool.not_eq_true', Bool.not_eq_true]
  have hq :
      q.filter (fun e => decide (e.name ∉ (s.enforce now).index.map AudioEntry.name)) = [] := by
    refine List.filter_eq_nil_iff.2 fun e heq => ?_
    rw [hi, List.map_append, decide_eq_true_iff, not_not]
    exact List.mem_append_right _ (List.mem_map_of_mem heq)
  rw [he, hl, List.filter_map, List.filter_append]
  refine congrArg _ (congrArg _ ?_)
  exact ((congrArg₂ (· ++ ·) hp hq).trans (List.append_nil _)).symm

/-- A deletion stops within the cap, or leaves only files being written. -/
theorem capped_enforce (s : CallAudioStore) (now : ℤ) :
    (s.enforce now).total ≤ s.cap ∨ ∀ e ∈ (s.enforce now).index, e.name ∈ s.opened := by
  obtain ⟨p, q, -, -, hi, -, -, hq⟩ := s.enforce_spec now
  rcases q with _ | ⟨e, r⟩
  · refine Or.inr fun e he => ?_
    rw [hi, List.append_nil] at he
    exact SortedMap.contains_iff.1 (List.mem_filter.1 he).2
  · exact Or.inl (hq e r rfl).1

/-- Turning the store on takes stock of the folder. -/
theorem Accounted.enable (h : s.Accounted) (hoff : s.on = false) (d : Folder) (cap : ℕ)
    (maxAge now : ℤ) : (s.enable d.files cap maxAge now).Accounted :=
  Accounted.enforce
    (s := { s with
      on := true
      cap := cap
      maxAge := maxAge
      index := d.files
      total := bytesOf d.files })
    ⟨d.once, rfl, fun n hn => absurd hn (h.off hoff n), fun _ n hn => absurd hn (h.off hoff n)⟩ now

/-- Turning the store off leaves the index. -/
theorem Accounted.disable (h : s.Accounted) : s.disable.Accounted :=
  ⟨h.once, h.total, fun n hn => absurd hn (SortedMap.not_mem_empty n),
    fun _ n hn => absurd hn (SortedMap.not_mem_empty n)⟩

/-- When a file is opened, and what that changes. -/
theorem openFile_eq_some {name : Bytes} {creatable : Bool} {t : CallAudioStore}
    (h : s.openFile name creatable now = some t) :
    s.on = true ∧ validName name = true ∧ name ∉ s.opened ∧
      t = { s with
            opened := s.opened.insert name 0
            index := s.index ++ [⟨name, 44, now⟩]
            total := s.total + 44
            disk := s.disk.insert name [] } := by
  rw [openFile] at h
  split_ifs at h with hc
  rw [Bool.or_eq_true, Bool.or_eq_true, Bool.or_eq_true, not_or, not_or, not_or,
    SortedMap.contains_iff] at hc
  exact ⟨by simpa using hc.1.1.1, by simpa using hc.1.1.2, hc.1.2, (Option.some.inj h).symm⟩

/-- A new file begins with its header. -/
theorem Accounted.openFile (h : s.Accounted) {name : Bytes}
    (hn : name ∉ s.index.map AudioEntry.name) {creatable : Bool} {t : CallAudioStore}
    (ht : s.openFile name creatable now = some t) :
    t.Accounted := by
  obtain ⟨hon, -, -, rfl⟩ := openFile_eq_some ht
  refine ⟨?_, ?_, fun n hm => ?_, fun hoff => ?_⟩
  · rw [List.map_append, List.nodup_append]
    refine ⟨h.once, List.nodup_singleton _, fun a ha b hb hab => hn ?_⟩
    obtain rfl := List.mem_singleton.1 hb
    exact hab ▸ ha
  · rw [bytesOf_append, ← h.total]
    rfl
  · rw [List.map_append, List.mem_append]
    rcases SortedMap.mem_insert.1 hm with rfl | hm
    · exact Or.inr (List.mem_singleton.2 rfl)
    · exact Or.inl (h.indexed n hm)
  · rw [show s.on = false from hoff] at hon
    cases hon

/-- A block that is written is counted. -/
theorem Accounted.written (h : s.Accounted) {name : Bytes} (ho : name ∈ s.opened)
    (pcm : List Sample) (now : ℤ) : (s.written name pcm now).Accounted := by
  refine ⟨?_, ?_, fun n hn => ?_, fun hoff n hn => h.off hoff n (mem_opened_written.1 hn)⟩
  · rw [index_written]
    exact h.once
  · exact (congrArg (· + _) h.total).trans
      (bytesOf_touchEntry (fun _ => rfl) (h.indexed name ho)).symm
  · rw [index_written]
    exact h.indexed n (mem_opened_written.1 hn)

/-- A block, with the deletion that may follow. -/
theorem Accounted.append (h : s.Accounted) (name : Bytes) (pcm : List Sample) (now : ℤ) :
    (s.append name pcm now).Accounted := by
  rw [append_eq]
  split_ifs with hw
  · exact (h.written hw.1 pcm now).enforce now
  · exact h.written hw.1 pcm now
  · exact h

/-- A file that is finished stays in the index. -/
theorem Accounted.finish (h : s.Accounted) (name : Bytes) : (s.finish name).Accounted :=
  ⟨h.once, h.total, fun n hn => h.indexed n (SortedMap.mem_erase.1 hn).2,
    fun hoff n hn => h.off hoff n (SortedMap.mem_erase.1 hn).2⟩

/-- A file that is discarded goes from index and total. -/
theorem Accounted.discard (h : s.Accounted) (name : Bytes) : (s.discard name).Accounted := by
  have hf := h.finish name
  obtain ⟨o, ho⟩ : ∃ o, s.index.find? (·.name = name) = o := ⟨_, rfl⟩
  rw [CallAudioStore.discard]
  simp only [ho]
  rcases o with _ | e
  · exact hf
  obtain ⟨he, p, q, hl, hp⟩ := List.find?_eq_some_iff_append.1 ho
  obtain rfl : e.name = name := by simpa using he
  have hne : ∀ x ∈ p, x.name ≠ e.name := fun x hx => by simpa using hp x hx
  have hi : s.index.eraseP (·.name = e.name) = p ++ q := by
    rw [hl]
    exact KeyedList.eraseP_split hne
  refine ⟨?_, ?_, fun n hn => ?_, hf.off⟩
  · rw [hi]
    exact h.once.sublist ((hl ▸ (List.sublist_cons_self e q).append_left p).map _)
  · have ht : s.total = bytesOf p + (e.bytes + bytesOf q) := by
      rw [h.total, hl, bytesOf_append, bytesOf_cons]
    rw [hi, bytesOf_append]
    change s.total - e.bytes = _
    omega
  · obtain ⟨hn', hn⟩ := SortedMap.mem_erase.1 hn
    have hm := h.indexed n hn
    rw [hl, List.map_append, List.map_cons, List.mem_append, List.mem_cons] at hm
    rw [hi, List.map_append, List.mem_append]
    tauto

theorem foldl_sub (l : List AudioEntry) (t : ℕ) :
    l.foldl (fun t e => t - e.bytes) t = t - bytesOf l := by
  induction l generalizing t with
  | nil => rfl
  | cons e l ih => rw [List.foldl_cons, ih, bytesOf_cons, Nat.sub_sub]

/-- Removing everything leaves the open files. -/
theorem Accounted.removeAll (h : s.Accounted) : s.removeAll.Accounted := by
  refine ⟨h.once.sublist (List.filter_sublist.map _), ?_, fun n hn => ?_, h.off⟩
  · have := s.bytesOf_finished s.index
    refine (foldl_sub _ _).trans ?_
    rw [h.total]
    exact Nat.sub_eq_of_eq_add this.symm
  · obtain ⟨e, he, rfl⟩ := List.mem_map.1 (h.indexed n hn)
    exact List.mem_map_of_mem (List.mem_filter.2 ⟨he, SortedMap.contains_iff.2 hn⟩)

/-- **Every request keeps the books.** -/
theorem Accounted.step (h : s.Accounted) {op : Op} (ho : s.Orderly op) : (s.step op).Accounted := by
  cases op with
  | enable folder cap maxAge now =>
    rcases folder with _ | d
    · exact h
    · exact h.enable ho d cap maxAge now
  | disable => exact h.disable
  | openFile name creatable now =>
    rcases ht : s.openFile name creatable now with _ | t
    · rw [CallAudioStore.step, ht]
      exact h
    · rw [CallAudioStore.step, ht]
      exact h.openFile ho ht
  | append name pcm now => exact h.append name pcm now
  | finish name => exact h.finish name
  | discard name => exact h.discard name
  | removeAll => exact h.removeAll
  | takeEvicted => exact ⟨h.once, h.total, h.indexed, h.off⟩

/-- A request that keeps the names it was offered removes none. -/
theorem removed_eq_nil {op : Op}
    (h : ∀ n ∈ s.offered op, n ∈ (s.step op).index.map AudioEntry.name) :
    s.removed op = [] := List.filter_eq_nil_iff.2 fun n hn => by simpa using h n hn

/-- A request reports the files its deletion takes from the index. -/
theorem Accounted.evicted_step (h : s.Accounted) {op : Op} (ho : s.Orderly op)
    (ht : op ≠ .takeEvicted) : (s.step op).evicted = s.evicted ++ s.removed op := by
  cases op with
  | enable folder cap maxAge now =>
    rcases folder with _ | d
    · exact (List.append_nil _).symm
    · refine Accounted.evicted_enforce
        (s := { s with on := true, cap := cap, maxAge := maxAge, index := d.files
                       total := bytesOf d.files })
        ⟨d.once, rfl, fun n hn => absurd hn (h.off ho n), fun _ n hn => absurd hn (h.off ho n)⟩ now
  | disable => exact (List.append_nil _).symm
  | openFile name creatable now =>
    rcases hs : s.openFile name creatable now with _ | t
    · rw [CallAudioStore.step, hs]
      exact (List.append_nil _).symm
    · obtain ⟨-, -, -, rfl⟩ := openFile_eq_some hs
      rw [CallAudioStore.step, hs]
      exact (List.append_nil _).symm
  | append name pcm now =>
    have hs : s.step (.append name pcm now) = _ := append_eq s name pcm now
    split_ifs at hs with hw hc
    · have hev := (h.written hw.1 pcm now).evicted_enforce now
      rw [index_written] at hev
      rw [removed, hs]
      exact hev
    · rw [removed_eq_nil fun n hn => by rw [hs, index_written]; exact hn, hs, List.append_nil]
      rfl
    · rw [removed_eq_nil fun n hn => by rw [hs]; exact hn, hs, List.append_nil]
  | finish name => exact (List.append_nil _).symm
  | discard name =>
    refine Eq.trans ?_ (List.append_nil _).symm
    rw [CallAudioStore.step, CallAudioStore.discard]
    split <;> rfl
  | removeAll => exact (List.append_nil _).symm
  | takeEvicted => exact absurd rfl ht

/-- The names taken are those of the files deleted since the last time, in the order of deletion. -/
theorem Accounted.evicted_run {ops : List Op} : ∀ {s : CallAudioStore}, s.Accounted →
    Throughout Orderly s ops → (s.run ops).evicted = removals s ops s.evicted := by
  induction ops with
  | nil => exact fun _ _ => rfl
  | cons op ops ih =>
    intro s h ho
    rw [run, List.foldl_cons]
    refine (ih (h.step ho.1) ho.2).trans ?_
    by_cases ht : op = .takeEvicted
    · subst ht
      rfl
    · rw [h.evicted_step ho.1 ht, removals]
      exact ht

/-! ### The accounting along every sequence

Each request is sound by itself, as long as the books were in order before it.  The names handed to
the model are put together over the whole sequence. -/

/-- After a request the total is the size of the index; when the request applies the limits, the
total is within the cap or only files being written are left; and the files it deletes are distinct,
and none is being written. -/
structure Sound (s : CallAudioStore) (op : Op) : Prop where
  total : (s.step op).total = bytesOf (s.step op).index
  capped : s.Limits op →
    (s.step op).total ≤ (s.step op).cap ∨ ∀ e ∈ (s.step op).index, e.name ∈ (s.step op).opened
  spared : ∀ n ∈ s.removed op, n ∉ s.opened ∧ n ∉ (s.step op).opened
  once : (s.removed op).Nodup

/-- After a request that applies the limits, the total is within the cap, or only open files are
left. -/
theorem capped_step {op : Op} (hl : s.Limits op) :
    (s.step op).total ≤ (s.step op).cap ∨ ∀ e ∈ (s.step op).index, e.name ∈ (s.step op).opened := by
  cases op with
  | enable folder cap maxAge now =>
    rcases folder with _ | d
    · cases hl
    · exact capped_enforce { s with on := true, cap := cap, maxAge := maxAge, index := d.files
                                    total := bytesOf d.files } now
  | append name pcm now =>
    have hs : s.step (.append name pcm now) = _ := append_eq s name pcm now
    rw [if_pos (show name ∈ s.opened ∧ pcm ≠ [] from hl)] at hs
    split_ifs at hs with hc
    · rw [hs]
      exact capped_enforce _ now
    · rw [hs]
      exact Or.inl (Nat.not_lt.1 hc)
  | disable => exact hl.elim
  | openFile name creatable now => exact hl.elim
  | finish name => exact hl.elim
  | discard name => exact hl.elim
  | removeAll => exact hl.elim
  | takeEvicted => exact hl.elim

/-- A block leaves the files that are open. -/
theorem mem_opened_append (s : CallAudioStore) (name : Bytes) (pcm : List Sample) (now : ℤ)
    (n : Bytes) :
    n ∈ (s.append name pcm now).opened ↔ n ∈ s.opened := by
  have hw : n ∈ (s.written name pcm now).opened ↔ n ∈ s.opened := mem_opened_written
  rw [append_eq]
  split_ifs
  · exact hw
  · exact hw
  · rfl

/-- **A file that is being written is not removed.** -/
theorem Accounted.spared (h : s.Accounted) {op : Op} (ho : s.Orderly op) {n : Bytes}
    (hn : n ∈ s.removed op) : n ∉ s.opened ∧ n ∉ (s.step op).opened := by
  obtain ⟨hm, hgone⟩ := List.mem_filter.1 hn
  have hstep : n ∉ (s.step op).opened := fun hopen =>
    (of_decide_eq_true hgone) ((h.step ho).indexed n hopen)
  refine ⟨fun hopen => ?_, hstep⟩
  cases op with
  | enable folder cap maxAge now => exact h.off ho n hopen
  | append name pcm now => exact hstep ((s.mem_opened_append name pcm now n).2 hopen)
  | disable => cases hm
  | openFile name creatable now => cases hm
  | finish name => cases hm
  | discard name => cases hm
  | removeAll => cases hm
  | takeEvicted => cases hm

theorem Accounted.nodup_removed (h : s.Accounted) (op : Op) : (s.removed op).Nodup := by
  refine List.Nodup.filter _ ?_
  cases op with
  | enable folder cap maxAge now =>
    rcases folder with _ | d
    · exact List.nodup_nil
    · exact d.once
  | append name pcm now => exact h.once
  | disable => exact List.nodup_nil
  | openFile name creatable now => exact List.nodup_nil
  | finish name => exact List.nodup_nil
  | discard name => exact List.nodup_nil
  | removeAll => exact List.nodup_nil
  | takeEvicted => exact List.nodup_nil

/-- A store with its books in order does every request as it should. -/
theorem Accounted.sound (h : s.Accounted) {op : Op} (ho : s.Orderly op) : s.Sound op :=
  ⟨(h.step ho).total, capped_step, fun _ hn => h.spared ho hn, h.nodup_removed op⟩

/-- Every request along a sequence is done as it should be. -/
theorem Accounted.throughout {ops : List Op} : ∀ {s : CallAudioStore}, s.Accounted →
    Throughout Orderly s ops → Throughout Sound s ops := by
  induction ops with
  | nil => exact fun _ _ => trivial
  | cons op ops ih => exact fun h ho => ⟨h.sound ho.1, ih (h.step ho.1) ho.2⟩

/-- A store that was never turned on has nothing to account for. -/
theorem accounted_blank : ({} : CallAudioStore).Accounted :=
  ⟨List.nodup_nil, rfl, fun n hn => absurd hn (SortedMap.not_mem_empty n),
    fun _ n hn => absurd hn (SortedMap.not_mem_empty n)⟩

/-- **The store's accounting, over every sequence of requests**: the total is the size of the index,
the limits hold whenever they are applied, a file being written is never deleted for space, and the
names taken are exactly those of the files deleted since they were last taken. -/
theorem store_accounted (ops : List Op) (h : Throughout Orderly {} ops) :
    Throughout Sound {} ops ∧ (run {} ops).takeEvicted.1 = removals {} ops [] :=
  ⟨accounted_blank.throughout h, accounted_blank.evicted_run h⟩

/-- A folder without files. -/
def noFiles : Folder :=
  ⟨[], fun _ he => absurd he List.not_mem_nil, List.nodup_nil, List.Pairwise.nil⟩

/-- Two calls past the cap, the first over. -/
def pastCap : List Op :=
  [.enable (some noFiles) 50 0 0, .openFile (lit "call_1_a.wav") true 1,
    .openFile (lit "call_2_a.wav") true 2, .finish (lit "call_1_a.wav")]

theorem store_accounted_pastCap :
    Throughout Sound {} (pastCap ++ [.append (lit "call_2_a.wav") [⟨5, false⟩] 3, .takeEvicted]) ∧
      (run {} (pastCap ++ [.append (lit "call_2_a.wav") [⟨5, false⟩] 3])).takeEvicted.1 =
        removals {} (pastCap ++ [.append (lit "call_2_a.wav") [⟨5, false⟩] 3]) [] :=
  ⟨(store_accounted (pastCap ++ [.append (lit "call_2_a.wav") [⟨5, false⟩] 3, .takeEvicted])
      (by decide +kernel)).1,
    (store_accounted (pastCap ++ [.append (lit "call_2_a.wav") [⟨5, false⟩] 3])
      (by decide +kernel)).2⟩

/-- A block without samples does not apply the limits. -/
theorem empty_block_over_cap :
    Throughout Orderly {} pastCap ∧ lit "call_2_a.wav" ∈ (run {} pastCap).opened ∧
      ¬(((run {} pastCap).append (lit "call_2_a.wav") [] 3).total ≤
          ((run {} pastCap).append (lit "call_2_a.wav") [] 3).cap ∨
        ∀ e ∈ ((run {} pastCap).append (lit "call_2_a.wav") [] 3).index,
          e.name ∈ ((run {} pastCap).append (lit "call_2_a.wav") [] 3).opened) := by decide +kernel

/-! ## The age limit

The deletion goes on as long as it has a reason at each entry.  An overdue file is reached if the
entries before it are overdue too, or the total stays over the cap that far; the condition says just
this. -/

/-- No finished file of the index was last written longer ago than the age limit. -/
def NoneOverdue (s : CallAudioStore) (now : ℤ) : Prop :=
  ∀ e ∈ s.index, e.name ∉ s.opened → now - e.mtime ≤ s.maxAge

/-- The size limit carries a deletion to every overdue file: at each file before it that is within
the age limit, the total less the finished files before that one is over the cap. -/
def Reaches (s : CallAudioStore) (now : ℤ) : Prop :=
  ∀ a x b e c, s.index = a ++ x :: b ++ e :: c → e.name ∉ s.opened → s.maxAge < now - e.mtime →
    now - x.mtime ≤ s.maxAge → s.cap < s.total - bytesOf (s.finished a)

/-- A deletion leaves no overdue file exactly when it gets to all of them. -/
theorem noneOverdue_enforce (hpos : 0 < s.maxAge) :
    (s.enforce now).NoneOverdue now ↔ s.Reaches now := by
  obtain ⟨p, q, hl, hp, hi, ht, -, hq⟩ := s.enforce_spec now
  have hfin : ∀ {e : AudioEntry}, e ∈ (s.enforce now).index → e.name ∉ s.opened → e ∈ q := by
    intro e he ho
    rw [hi, List.mem_append] at he
    exact he.resolve_left fun h => ho (SortedMap.contains_iff.1 (List.mem_filter.1 h).2)
  have hmem : ∀ {e : AudioEntry}, e ∈ q → e ∈ (s.enforce now).index := fun he => by
    rw [hi]
    exact List.mem_append_right _ he
  constructor
  · intro h a x b e c hsplit ho hlate hyoung
    rw [hl] at hsplit
    rcases List.append_eq_append_iff.1 hsplit.symm with ⟨p', rfl, -⟩ | ⟨c', -, rfl⟩
    · rw [List.append_assoc] at hp
      refine (hp a x (b ++ p') rfl).resolve_right fun hs => ?_
      exact absurd hs.2 (not_lt.2 hyoung)
    · -- the file is past the stretch deleted, and so was kept
      have hkept := h e (hmem (List.mem_append_right _ List.mem_cons_self)) ho
      exact absurd hlate (not_lt.2 hkept)
  · intro h e he ho
    by_contra hlate
    rw [not_le] at hlate
    rcases q with _ | ⟨x, r⟩
    · exact absurd (hfin he ho) List.not_mem_nil
    obtain ⟨hcap, hyoung⟩ := hq x r rfl
    rcases List.mem_cons.1 (hfin he ho) with rfl | hr
    · exact hyoung ⟨hpos, hlate⟩
    · obtain ⟨u, v, rfl⟩ := List.append_of_mem hr
      have hx : now - x.mtime ≤ s.maxAge := not_lt.1 fun hx => hyoung ⟨hpos, hx⟩
      have hover := h p x u e v (by rw [hl, List.append_assoc, List.cons_append]) ho hlate hx
      rw [ht] at hcap
      omega

/-- Oldest first, the files are deleted up to the last overdue one. -/
theorem reaches_of_sorted (h : s.index.Pairwise (·.mtime ≤ ·.mtime)) : s.Reaches now := by
  intro a x b e c hl _ hlate hyoung
  rw [hl, List.append_assoc, List.cons_append] at h
  have hxe : x.mtime ≤ e.mtime := by
    have := (List.pairwise_append.1 h).2.1
    exact List.rel_of_pairwise_cons this (List.mem_append_right _ List.mem_cons_self)
  omega

/-- A block written makes no file overdue that was not. -/
theorem noneOverdue_written (name : Bytes) (ho : name ∈ s.opened) (pcm : List Sample) :
    (s.written name pcm now).NoneOverdue now ↔ s.NoneOverdue now := by
  have hmem : ∀ {e : AudioEntry}, e.name ∉ s.opened →
      (e ∈ (s.written name pcm now).index ↔ e ∈ s.index) := fun {e} he =>
    mem_touchEntry_iff
      (g := fun e => { e with bytes := e.bytes + 2 * pcm.length, mtime := now }) (fun _ => rfl)
      (fun h => he (h ▸ ho)) s.index
  constructor
  · intro h e he hn
    exact h e ((hmem hn).2 he) fun hn' => hn (mem_opened_written.1 hn')
  · intro h e he hn
    have hn' : e.name ∉ s.opened := fun h => hn (mem_opened_written.2 h)
    exact h e ((hmem hn').1 he) hn'

/-! ### Along every sequence

The age limit is looked at when the store is turned on, and when a block is written that takes the
total over the cap.  A request that does not look at it keeps it if nothing was overdue. -/

/-- After turning the store on, and after a block for an open file, no finished file is overdue. -/
def AgeKept (s : CallAudioStore) : Op → Prop
  | .enable (some d) cap maxAge now => (s.step (.enable (some d) cap maxAge now)).NoneOverdue now
  | .append name pcm now => name ∈ s.opened → (s.append name pcm now).NoneOverdue now
  | _ => True

/-- When a block for an open file comes, no finished file is overdue, or it puts the total over the
cap and the size limit carries the deletion to all that are. -/
def Timely (s : CallAudioStore) : Op → Prop
  | .append name pcm now => name ∈ s.opened → s.NoneOverdue now ∨
      pcm ≠ [] ∧ s.cap < s.total + 2 * pcm.length ∧ (s.written name pcm now).Reaches now
  | _ => True

/-- The age limit asked for is positive. -/
def Aging : Op → Prop
  | .enable _ _ maxAge _ => 0 < maxAge
  | _ => True

/-- While the store is on, or writes a file, it has an age limit. -/
def Aged (s : CallAudioStore) : Prop := (s.on = true ∨ ∃ n, n ∈ s.opened) → 0 < s.maxAge

/-- When the age limit is kept after a block: it was before, or the deletion reaches all that is
overdue. -/
theorem ageKept_append (hpos : 0 < s.maxAge) {name : Bytes} (ho : name ∈ s.opened)
    (pcm : List Sample) (now : ℤ) : (s.append name pcm now).NoneOverdue now ↔ s.NoneOverdue now ∨
      pcm ≠ [] ∧ s.cap < s.total + 2 * pcm.length ∧ (s.written name pcm now).Reaches now := by
  have hw : (s.written name pcm now).NoneOverdue now ↔ s.NoneOverdue now :=
    s.noneOverdue_written name ho pcm
  rw [append_eq]
  by_cases hp : pcm = []
  · rw [if_neg (fun h => h.2 hp)]
    exact ⟨Or.inl, fun h => h.resolve_right fun h => h.1 hp⟩
  rw [if_pos ⟨ho, hp⟩]
  by_cases hc : s.cap < (s.written name pcm now).total
  · rw [if_pos hc, noneOverdue_enforce (s := s.written name pcm now) hpos]
    refine ⟨fun h => Or.inr ⟨hp, hc, h⟩, fun h => h.elim (fun h => ?_) fun h => h.2.2⟩
    -- with nothing overdue there is nothing to get to
    intro a x b e c hl hn hlate _
    have hkept := hw.2 h e (by rw [hl]; simp) hn
    exact absurd hlate (not_lt.2 hkept)
  · rw [if_neg hc, hw]
    exact ⟨Or.inl, fun h => h.resolve_right fun h => hc h.2.1⟩

/-- **When one request keeps the age limit.** -/
theorem Aged.ageKept_iff (h : s.Aged) {op : Op} (ha : Aging op) : s.AgeKept op ↔ s.Timely op := by
  cases op with
  | enable folder cap maxAge now =>
    rcases folder with _ | d
    · exact Iff.rfl
    · refine iff_of_true ?_ trivial
      exact (noneOverdue_enforce
        (s := { s with on := true, cap := cap, maxAge := maxAge, index := d.files
                       total := bytesOf d.files }) ha).2 (reaches_of_sorted d.sorted)
  | append name pcm now =>
    refine forall_congr' fun ho => ?_
    exact ageKept_append (h (Or.inr ⟨name, ho⟩)) ho pcm now
  | disable => exact Iff.rfl
  | openFile name creatable now => exact Iff.rfl
  | finish name => exact Iff.rfl
  | discard name => exact Iff.rfl
  | removeAll => exact Iff.rfl
  | takeEvicted => exact Iff.rfl

/-- A store that was never turned on needs no age limit. -/
theorem aged_blank : ({} : CallAudioStore).Aged := by
  rintro (h | ⟨n, h⟩)
  · cases h
  · exact absurd h (SortedMap.not_mem_empty n)

/-- A store that is on only if it was, with the age limit it had. -/
theorem Aged.imp (h : s.Aged) {t : CallAudioStore} (hage : t.maxAge = s.maxAge)
    (hon : t.on = true → s.on = true) (ho : ∀ n ∈ t.opened, s.on = true ∨ n ∈ s.opened) :
    t.Aged := by
  rintro (hn | ⟨n, hn⟩)
  · exact hage ▸ h (Or.inl (hon hn))
  · exact hage ▸ h ((ho n hn).imp id fun hn => ⟨n, hn⟩)

/-- Every request with an age limit leaves one. -/
theorem Aged.step (h : s.Aged) {op : Op} (ha : Aging op) : (s.step op).Aged := by
  cases op with
  | enable folder cap maxAge now =>
    rcases folder with _ | d
    · exact h
    · exact fun _ => ha
  | disable =>
    exact h.imp rfl (fun hn => by cases hn) fun n hn => absurd hn (SortedMap.not_mem_empty n)
  | openFile name creatable now =>
    rcases hs : s.openFile name creatable now with _ | t
    · rw [CallAudioStore.step, hs]
      exact h
    · obtain ⟨hon, -, -, rfl⟩ := openFile_eq_some hs
      rw [CallAudioStore.step, hs]
      exact h.imp rfl id fun n _ => Or.inl hon
  | append name pcm now =>
    refine h.imp ?_ (fun hn => ?_) fun n hn => Or.inr ((s.mem_opened_append name pcm now n).1 hn)
    · rw [CallAudioStore.step, append_eq]
      split_ifs <;> rfl
    · rw [CallAudioStore.step, append_eq] at hn
      split_ifs at hn <;> exact hn
  | finish name => exact h.imp rfl id fun n hn => Or.inr (SortedMap.mem_erase.1 hn).2
  | discard name =>
    have hd : s.discard name = s.finish name ∨ ∃ e : AudioEntry, s.discard name =
        { s.finish name with
          total := s.total - e.bytes
          index := s.index.eraseP (·.name = name)
          disk := s.disk.erase name } := by
      rw [CallAudioStore.discard]
      split
      · exact Or.inl rfl
      · exact Or.inr ⟨_, rfl⟩
    rw [CallAudioStore.step]
    rcases hd with hd | ⟨e, hd⟩
    · rw [hd]
      exact h.imp rfl id fun n hn => Or.inr (SortedMap.mem_erase.1 hn).2
    · rw [hd]
      exact h.imp rfl id fun n hn => Or.inr (SortedMap.mem_erase.1 hn).2
  | removeAll => exact h.imp rfl id fun n hn => Or.inr hn
  | takeEvicted => exact h.imp rfl id fun n hn => Or.inr hn

/-- **When the age limit is kept along a sequence of requests.** -/
theorem Aged.throughout {ops : List Op} : ∀ {s : CallAudioStore}, s.Aged → (∀ op ∈ ops, Aging op) →
    (Throughout AgeKept s ops ↔ Throughout Timely s ops) := by
  induction ops with
  | nil => exact fun _ _ => Iff.rfl
  | cons op ops ih =>
    intro s h ha
    have hop := ha op List.mem_cons_self
    exact and_congr (h.ageKept_iff hop)
      (ih (h.step hop) fun o ho => ha o (List.mem_cons_of_mem op ho))

/-- A finished file that is overdue, and a block for the one being written, well within the cap. -/
def shielded : List Op :=
  [.enable (some noFiles) 1000 10 0, .openFile (lit "call_1_a.wav") true 1,
    .finish (lit "call_1_a.wav"), .openFile (lit "call_2_a.wav") true 100]

/-- The size is not over the cap, so no limit is applied. -/
theorem overdue_file_kept :
    (∀ op ∈ shielded, Aging op) ∧ lit "call_2_a.wav" ∈ (run {} shielded).opened ∧
      ¬((run {} shielded).append (lit "call_2_a.wav") [⟨5, false⟩] 100).NoneOverdue 100 := by
  refine ⟨fun op hop => ?_, by decide +kernel, fun h => ?_⟩
  · fin_cases hop <;> simp [Aging]
  · exact absurd (h ⟨lit "call_1_a.wav", 44, 1⟩ (by decide +kernel) (by decide +kernel))
      (by decide +kernel)

/-- **The age limit, over every sequence of requests**: with a positive limit, turning the store on
and every block for an open file leave no overdue finished file, exactly when at every such block
none was overdue, or the size limit carries the deletion to all that were. -/
theorem age_limit_kept (ops : List Op) (h : ∀ op ∈ ops, Aging op) :
    Throughout AgeKept {} ops ↔ Throughout Timely {} ops := aged_blank.throughout h

/-- The block puts the total over the cap, and the overdue file is the oldest. -/
def carried : List Op :=
  [.enable (some noFiles) 80 10 0, .openFile (lit "call_1_a.wav") true 1,
    .finish (lit "call_1_a.wav"), .openFile (lit "call_2_a.wav") true 100,
    .append (lit "call_2_a.wav") [⟨5, false⟩] 100]

theorem age_limit_kept_carried : Throughout AgeKept {} carried :=
  (age_limit_kept carried fun op hop => by fin_cases hop <;> simp [Aging]).2
    ⟨trivial, trivial, trivial, trivial, fun _ => Or.inr
      ⟨List.cons_ne_nil _ _, by decide +kernel, reaches_of_sorted (by decide +kernel)⟩, trivial⟩

end DsdServer.CallAudioStore
