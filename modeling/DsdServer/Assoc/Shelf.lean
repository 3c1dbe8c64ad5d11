import DsdServer.Assoc.Cores
import DsdServer.Merge.Uploads

/-!
# Assoc/Shelf — the recordings and the files

A call's record names its file and counts its samples, the file is in the store, and only its name
ties them together.  `Shelf` says that they agree.  Recordings that end, go to a twin or are new
keep it (`Moves`, `Shelf.moves`), a recording that is written keeps it (`Shelf.write`), files that
the limits delete keep it until they are noted (`Shelf.sweep`, `Shelf.noted`); so every edit of a
family's calls does (`Edit.shelf`).

The agreement is about lists of recordings and files, without the calls they belong to: a recording
is a name and a count.  So one lemma covers whatever moves recordings about, and the operations on
calls only have to say how they move them.
-/

open Bytes

namespace DsdServer

/-- What a family's records say of their recordings. -/
def Family.tapes (F : Family) : List (ℕ × Recording) := F.calls.map fun k => (k.id, k.sound)

/-- A record without a file counts no samples, unless its recording was refused. -/
def Recording.Clean (r : Recording) : Prop := r.audio = [] → r.noAudio = false → r.audioSamples = 0

/-- The name of a file made for the call with an id. -/
def Names (j : ℕ) (m : Bytes) : Prop :=
  ∃ t inst, m = CallAudioStore.makeName t inst j ∧ CallAudioStore.validName m = true

/-- **The recordings of all families agree with the files**, but for the files that are gone; no
file is of two calls, and each was made for a call no other live call can be taken for. -/
structure Shelf (n : ℕ) (gone : List Bytes) (R : Bytes → List (ℕ × Recording))
    (disk : SortedMap Bytes (List Sample)) : Prop where
  stored : ∀ f, ∀ x ∈ R f, x.2.audio ≠ [] → x.2.audio ∉ gone →
    ∃ l, disk.find? x.2.audio = some l ∧ l.length = x.2.audioSamples
  alone : ∀ f, ∀ x ∈ R f, x.2.audio ≠ [] → ∀ g, ∀ y ∈ R g, y.2.audio = x.2.audio → g = f ∧ y.1 = x.1
  owned : ∀ f, ∀ x ∈ R f, x.2.audio ≠ [] →
    ∃ j ≤ n, Names j x.2.audio ∧ ∀ g, ∀ y ∈ R g, y.1 = j → g = f ∧ y.1 = x.1
  apart : ∀ f, ∀ x ∈ R f, ∀ g, ∀ y ∈ R g, y.1 = x.1 → g = f
  below : ∀ f, ∀ x ∈ R f, x.1 ≤ n
  clean : ∀ f, ∀ x ∈ R f, x.2.Clean

/-- **The recordings of a family move**: each file stays with its call or goes where `q` sends its
call, no call comes back, and only files that are no longer named are touched. -/
structure Moves (n n' : ℕ) (T T' : List (ℕ × Recording))
    (disk disk' : SortedMap Bytes (List Sample)) (q : ℕ → ℕ) : Prop where
  source : ∀ x' ∈ T', x'.2.audio ≠ [] → ∃ x ∈ T, x.2.audio = x'.2.audio ∧
    x.2.audioSamples = x'.2.audioSamples ∧ x'.1 = q x.1
  ids : ∀ y ∈ T', ((∃ x ∈ T, x.1 = y.1) ∧ q y.1 = y.1) ∨ n < y.1 ∧ y.1 ≤ n'
  clean : ∀ y ∈ T', y.2.Clean
  le : n ≤ n'
  disk : ∀ m, m ≠ [] → disk'.find? m = disk.find? m ∨
    ∃ x ∈ T, x.2.audio = m ∧ ∀ y ∈ T', y.1 = q x.1 → y.2.audio ≠ m

/-! ## The names of the files

The name of a file has the time, the instance and the id of its call in it, with the id last before
the dot.  Two files of one instance have one name only if they are of one call. -/

/-- A digit is none of the other bytes in a name. -/
theorem digits_ne {c b : UInt8} {m : ℕ} (hc : c ∈ dec m) (hb : b.toNat < 48 ∨ 57 < b.toNat) :
    c ≠ b := by
  have h := mjson.isDigit_dec hc
  rintro rfl
  omega

/-- The stem of a file's name: up to the dot. -/
def stem (t : ℤ) (inst : Bytes) (j : ℕ) : Bytes :=
  let inst := (inst.filter isAlnum).take 8
  lit "call_" ++ decInt t ++ lit "_" ++ (if inst = [] then lit "x" else inst) ++ lit "_" ++ dec j

/-- The stem of a name has no dot in it. -/
theorem dot_not_mem_stem (t : ℤ) (inst : Bytes) (j : ℕ) : ch '.' ∉ stem t inst j := by
  have hlit : ch '.' ∉ lit "call_" ∧ ch '.' ∉ lit "_" ∧ ch '.' ∉ lit "x" := by decide
  have hdec : ∀ m, ch '.' ∉ dec m := fun m h => digits_ne h (Or.inl (by decide)) rfl
  have hint : ch '.' ∉ decInt t := by
    rw [decInt]
    split_ifs
    · exact fun h => (List.mem_cons.1 h).elim (by decide) (hdec _)
    · exact hdec _
  have hinst : ch '.' ∉ (inst.filter isAlnum).take 8 := fun h =>
    absurd (List.of_mem_filter (List.mem_of_mem_take h)) (by decide)
  rw [stem]
  simp only [List.mem_append, not_or]
  refine ⟨⟨⟨⟨⟨hlit.1, hint⟩, hlit.2.1⟩, ?_⟩, hlit.2.1⟩, hdec j⟩
  split_ifs
  · exact hlit.2.2
  · exact hinst

/-- A file's name that keeps its suffix was not cut. -/
theorem Names.eq_stem {j : ℕ} {m : Bytes} (h : Names j m) :
    ∃ t inst, m = stem t inst j ++ lit ".wav" := by
  obtain ⟨t, inst, hm, hv⟩ := h
  have hm' : m = (stem t inst j ++ lit ".wav").take 95 := hm
  refine ⟨t, inst, ?_⟩
  by_cases hlen : (stem t inst j ++ lit ".wav").length ≤ 95
  · rw [hm', List.take_of_length_le hlen]
  · simp only [CallAudioStore.validName, Bool.and_eq_true, List.isSuffixOf_iff_suffix] at hv
    obtain ⟨q, hq⟩ := hv.1.1.2
    have h95 : m.length = 95 := by rw [hm', List.length_take]; omega
    have hq91 : q.length = 91 := by
      have := congrArg List.length hq
      rw [List.length_append, h95] at this
      exact Nat.add_right_cancel (m := 4) this
    have hlong : 91 < (stem t inst j).length := by
      rw [List.length_append] at hlen
      exact Nat.lt_of_not_le fun h => hlen (Nat.add_le_add_right h 4)
    have h₁ : m[91]? = some (ch '.') := by
      rw [← hq, List.getElem?_append_right (by omega), hq91]
      rfl
    have h₂ : m[91]? = some (stem t inst j)[91] := by
      rw [hm', List.getElem?_take_of_lt (by omega), List.getElem?_append_left hlong,
        List.getElem?_eq_getElem hlong]
    have hdot : ch '.' = (stem t inst j)[91] := Option.some.inj (h₁.symm.trans h₂)
    exact absurd (hdot ▸ List.getElem_mem hlong) (dot_not_mem_stem t inst j)

/-- The digits a name's stem ends in. -/
theorem takeWhile_stem (t : ℤ) (inst : Bytes) (j : ℕ) :
    (stem t inst j).reverse.takeWhile (mjson.isDigitOf 10) = (dec j).reverse := by
  have hdec : ∀ c ∈ (dec j).reverse, mjson.isDigitOf 10 c = true := fun c hc =>
    mjson.isDigitOf_ten (mjson.isDigit_dec (List.mem_reverse.1 hc))
  rw [stem, List.reverse_append, List.takeWhile_append_of_pos hdec, List.reverse_append]
  exact List.append_nil _

/-- **A file's name says which call it was made for.** -/
theorem Names.inj {i j : ℕ} {m : Bytes} (h : Names i m) (h' : Names j m) : i = j := by
  obtain ⟨t, inst, hm⟩ := h.eq_stem
  obtain ⟨t', inst', hm'⟩ := h'.eq_stem
  have hs : stem t inst i = stem t' inst' j := List.append_cancel_right (hm.symm.trans hm')
  refine dec_injective (List.reverse_injective ?_)
  rw [← takeWhile_stem t inst i, hs, takeWhile_stem]

namespace Shelf

variable {n n' : ℕ} {gone : List Bytes} {R R' : Bytes → List (ℕ × Recording)}
  {disk disk' : SortedMap Bytes (List Sample)} {f : Bytes}

/-- **Recordings that move keep agreeing with the files.** -/
theorem moves (h : Shelf n gone R disk) {q : ℕ → ℕ} (hm : Moves n n' (R f) (R' f) disk disk' q)
    (hR : ∀ g, g ≠ f → R' g = R g) : Shelf n' gone R' disk' := by
  have hsource : ∀ g, ∀ x' ∈ R' g, x'.2.audio ≠ [] → ∃ x ∈ R g, x.2.audio = x'.2.audio ∧
      x.2.audioSamples = x'.2.audioSamples ∧ x'.1 = (if g = f then q x.1 else x.1) :=
        fun g x' hx hne => by
    by_cases hg : g = f
    · subst hg
      simpa only [if_true] using hm.source x' hx hne
    · exact ⟨x', hR g hg ▸ hx, rfl, rfl, (if_neg hg).symm⟩
  have hids : ∀ g, ∀ y ∈ R' g, ((∃ x ∈ R g, x.1 = y.1) ∧ (if g = f then q y.1 else y.1) = y.1) ∨
      (g = f ∧ n < y.1 ∧ y.1 ≤ n') := fun g y hy => by
    by_cases hg : g = f
    · subst hg
      simpa only [if_true, true_and] using hm.ids y hy
    · exact Or.inl ⟨⟨y, hR g hg ▸ hy, rfl⟩, if_neg hg⟩
  refine ⟨fun g x' hx hne hgone => ?_, fun g x' hx hne g' y' hy he => ?_, fun g x' hx hne => ?_,
    fun g x' hx g' y' hy he => ?_, fun g x' hx => ?_, fun g x' hx => ?_⟩
  · obtain ⟨x, hx₁, ha, hs, hi⟩ := hsource g x' hx hne
    obtain ⟨l, hl, hlen⟩ := h.stored g x hx₁ (ha ▸ hne) (ha ▸ hgone)
    rcases hm.disk _ hne with hd | ⟨z, hz, hza, hout⟩
    · exact ⟨l, by rw [hd, ← ha, hl], hlen.trans hs⟩
    · obtain ⟨hf, hid⟩ := h.alone g x hx₁ (ha ▸ hne) f z hz (hza.trans ha.symm)
      subst hf
      rw [if_pos rfl, ← hid] at hi
      exact absurd rfl (hout x' hx hi)
  · obtain ⟨x, hx₁, ha, -, hi⟩ := hsource g x' hx hne
    obtain ⟨y, hy₁, ha', -, hi'⟩ := hsource g' y' hy (he ▸ hne)
    obtain ⟨hg, hid⟩ := h.alone g x hx₁ (ha ▸ hne) g' y hy₁ (ha'.trans (he.trans ha.symm))
    subst hg
    exact ⟨rfl, by rw [hi', hi, hid]⟩
  · obtain ⟨x, hx₁, ha, -, hi⟩ := hsource g x' hx hne
    obtain ⟨j, hj, hname, hown⟩ := h.owned g x hx₁ (ha ▸ hne)
    refine ⟨j, hj.trans hm.le, ha ▸ hname, fun g' y' hy he => ?_⟩
    rcases hids g' y' hy with ⟨⟨y, hy₁, hyid⟩, hfix⟩ | ⟨-, hlt, -⟩
    · obtain ⟨hg, hid⟩ := hown g' y hy₁ (hyid.trans he)
      subst hg
      refine ⟨rfl, ?_⟩
      rw [hi, ← hid, hyid, hfix]
    · exact absurd hlt (by omega)
  · rcases hids g x' hx with ⟨⟨x, hx₁, hxid⟩, -⟩ | ⟨hf, hlt, -⟩
    · rcases hids g' y' hy with ⟨⟨y, hy₁, hyid⟩, -⟩ | ⟨-, hlt, -⟩
      · exact h.apart g x hx₁ g' y hy₁ (by omega)
      · have := h.below g x hx₁
        omega
    · rcases hids g' y' hy with ⟨⟨y, hy₁, hyid⟩, -⟩ | ⟨hf', -, -⟩
      · have := h.below g' y hy₁
        omega
      · exact hf'.trans hf.symm
  · rcases hids g x' hx with ⟨⟨x, hx₁, hxid⟩, -⟩ | ⟨-, -, hle⟩
    · exact hxid ▸ (h.below g x hx₁).trans hm.le
    · exact hle
  · by_cases hg : g = f
    · subst hg
      exact hm.clean x' hx
    · exact h.clean g x' (hR g hg ▸ hx)

/-- No call has a recording. -/
theorem empty (hR : ∀ f, R f = []) : Shelf n gone R disk := by
  have hno : ∀ f, ∀ x ∈ R f, False := fun f x hx => by
    rw [hR f] at hx
    exact List.not_mem_nil hx
  exact ⟨fun f x hx => (hno f x hx).elim, fun f x hx => (hno f x hx).elim,
    fun f x hx => (hno f x hx).elim, fun f x hx => (hno f x hx).elim,
    fun f x hx => (hno f x hx).elim, fun f x hx => (hno f x hx).elim⟩

/-- Files go that are noted as gone. -/
theorem sweep (h : Shelf n gone R disk) {gone' : List Bytes} (hg : ∀ m ∈ gone, m ∈ gone')
    (hd : ∀ m, m ∉ gone' → disk'.find? m = disk.find? m) : Shelf n gone' R disk' :=
  ⟨fun f x hx hne hm => by
    rw [hd _ hm]
    exact h.stored f x hx hne fun hm' => hm (hg _ hm'), h.alone, h.owned, h.apart, h.below, h.clean⟩

/-- **One call's recording is written**: its file changes, and no other names it. -/
theorem retape (h : Shelf n gone R disk) {id j : ℕ} {name : Bytes} (hne : name ≠ [])
    (hother : ∀ g, ∀ y ∈ R g, y.2.audio = name → g = f ∧ y.1 = id)
    (howner : j ≤ n ∧ Names j name ∧ ∀ g, ∀ y ∈ R g, y.1 = j → g = f ∧ y.1 = id)
    (hid : ∀ g, ∀ x' ∈ R' g, ∃ x ∈ R g, x.1 = x'.1)
    (hR : ∀ g, ∀ x' ∈ R' g, (x' ∈ R g ∧ ¬(g = f ∧ x'.1 = id)) ∨
      (g = f ∧ x'.1 = id ∧ x'.2.audio = name ∧
        (name ∉ gone → ∃ l, disk'.find? name = some l ∧ l.length = x'.2.audioSamples)))
    (hd : ∀ m, m ≠ name → disk'.find? m = disk.find? m) : Shelf n gone R' disk' := by
  refine ⟨fun g x hx hn hgone => ?_, fun g x hx hn g' y hy he => ?_, fun g x hx hn => ?_,
    fun g x' hx g' y' hy he => ?_, fun g x' hx => ?_, fun g x hx => ?_⟩
  · rcases hR g x hx with ⟨hx₁, hout⟩ | ⟨-, -, ha, hstored⟩
    · rw [hd _ fun ha => hout (hother g x hx₁ ha)]
      exact h.stored g x hx₁ hn hgone
    · rw [ha]
      exact hstored (ha ▸ hgone)
  · rcases hR g x hx with ⟨hx₁, hout⟩ | ⟨hg, hi, ha, -⟩
    · rcases hR g' y hy with ⟨hy₁, -⟩ | ⟨-, -, ha', -⟩
      · exact h.alone g x hx₁ hn g' y hy₁ he
      · exact absurd (hother g x hx₁ (he.symm.trans ha')) hout
    · rcases hR g' y hy with ⟨hy₁, hout'⟩ | ⟨hg', hi', -, -⟩
      · exact absurd (hother g' y hy₁ (he.trans ha)) hout'
      · exact ⟨hg'.trans hg.symm, hi'.trans hi.symm⟩
  · rcases hR g x hx with ⟨hx₁, -⟩ | ⟨hg, hi, ha, -⟩
    · obtain ⟨i, hi, hname, hown⟩ := h.owned g x hx₁ hn
      refine ⟨i, hi, hname, fun g' y hy he => ?_⟩
      obtain ⟨y₁, hy₁, hyid⟩ := hid g' y hy
      exact hyid ▸ hown g' y₁ hy₁ (hyid.trans he)
    · refine ⟨j, howner.1, ha ▸ howner.2.1, fun g' y hy he => ?_⟩
      obtain ⟨y₁, hy₁, hyid⟩ := hid g' y hy
      obtain ⟨hg', hi'⟩ := howner.2.2 g' y₁ hy₁ (hyid.trans he)
      exact ⟨hg'.trans hg.symm, hyid.symm.trans (hi'.trans hi.symm)⟩
  · obtain ⟨x, hx₁, hxid⟩ := hid g x' hx
    obtain ⟨y, hy₁, hyid⟩ := hid g' y' hy
    exact h.apart g x hx₁ g' y hy₁ (hyid.trans (he.trans hxid.symm))
  · obtain ⟨x, hx₁, hxid⟩ := hid g x' hx
    exact hxid ▸ h.below g x hx₁
  · rcases hR g x hx with ⟨hx₁, -⟩ | ⟨-, -, ha, -⟩
    · exact h.clean g x hx₁
    · exact fun he => absurd (ha.symm.trans he) hne

end Shelf

/-! ## What the store does to the files

A file is on disk from the moment it is opened until it is deleted.  Nothing but a block changes
what is in it. -/

namespace CallAudioStore

variable (st : CallAudioStore) (name : Bytes) (now : ℤ)

/-- A file that is not deleted is still there. -/
theorem find?_eraseAll {m : Bytes} :
    ∀ {gone : List Bytes} (d : SortedMap Bytes (List Sample)), m ∉ gone →
    (gone.foldl (fun d n => d.erase n) d).find? m = d.find? m := fun {gone} => by
  induction gone with
  | nil => exact fun _ _ => rfl
  | cons a gone ih =>
    intro d hm
    rw [List.foldl_cons, ih _ fun h => hm (List.mem_cons_of_mem a h)]
    exact SortedMap.find?_erase_ne _ fun h => hm (h ▸ List.mem_cons_self)

/-- The files that the limits delete are noted, the others stay, and none is closed. -/
theorem enforce_files :
    (∀ m ∈ st.evicted, m ∈ (st.enforce now).evicted) ∧
      (∀ m, m ∉ (st.enforce now).evicted → (st.enforce now).disk.find? m = st.disk.find? m) ∧
      (st.enforce now).opened = st.opened := by
  obtain ⟨kept, total, gone, hsweep⟩ : ∃ kept total gone,
      st.sweep now st.index st.total = (kept, total, gone) :=
    ⟨_, _, _, rfl⟩
  rw [enforce, hsweep]
  refine ⟨fun m hm => List.mem_append_left _ hm, fun m hm => ?_, rfl⟩
  exact find?_eraseAll st.disk fun h => hm (List.mem_append_right _ h)

/-- A block for an open file is stored in it. -/
theorem append_files (pcm : List Sample) (ho : st.opened.contains name = true) :
    (∀ m ∈ st.evicted, m ∈ (st.append name pcm now).evicted) ∧
      (∀ m, m ∉ (st.append name pcm now).evicted →
        (st.append name pcm now).disk.find? m = (st.disk.modify name (· ++ pcm)).find? m) ∧
      (st.append name pcm now).opened.contains name = true := by
  by_cases hp : pcm = []
  · subst hp
    have happ : st.append name [] now = st := by
      rw [append, if_pos (by rw [List.isEmpty_nil, Bool.or_true])]
    rw [happ]
    refine ⟨fun _ h => h, fun m _ => ?_, ho⟩
    rw [SortedMap.find?_modify]
    split_ifs
    · cases st.disk.find? m with
      | none => rfl
      | some l => exact congrArg some (List.append_nil l).symm
    · rfl
  · have hopen : (st.opened.modify name (· + pcm.length)).contains name = true :=
      SortedMap.contains_iff.2 (SortedMap.mem_modify.2 (SortedMap.contains_iff.1 ho))
    have hif : ¬(!st.opened.contains name || pcm.isEmpty) = true := by
      rw [ho, List.isEmpty_eq_false_iff.2 hp]
      exact Bool.false_ne_true
    rw [append, if_neg hif]
    dsimp only
    split_ifs
    · obtain ⟨h₁, h₂, h₃⟩ := enforce_files
        { st with
          disk := st.disk.modify name (· ++ pcm)
          opened := st.opened.modify name (· + pcm.length)
          total := st.total + 2 * pcm.length
          index :=
            touchEntry name (fun e => { e with bytes := e.bytes + 2 * pcm.length, mtime := now })
            st.index } now
      exact ⟨h₁, h₂, by rw [h₃]; exact hopen⟩
    · exact ⟨fun _ h => h, fun _ _ => rfl, hopen⟩

/-- A created file is new, empty and open. -/
theorem openFile_files {creatable : Bool} {st' : CallAudioStore}
    (h : st.openFile name creatable now = some st') :
    validName name = true ∧ st'.disk = st.disk.insert name [] ∧ st'.evicted = st.evicted ∧
      st'.opened.contains name = true := by
  rw [openFile] at h
  split_ifs at h with hno
  · obtain rfl := Option.some.inj h
    simp only [Bool.or_eq_true, Bool.not_eq_true', not_or, Bool.not_eq_false] at hno
    exact ⟨hno.1.1.2, rfl, rfl, SortedMap.contains_iff.2 (SortedMap.mem_insert.2 (Or.inl rfl))⟩

end CallAudioStore

/-! ## Writing a recording

A block is written into the file of one call and counted in its record, in the same step.  The
agreement is broken nowhere in between. -/

/-- A family's recordings, one call's changed. -/
def retaped (T : List (ℕ × Recording)) (id : ℕ) (g : Recording → Recording) :
    List (ℕ × Recording) :=
  T.map fun x => if x.1 = id then (x.1, g x.2) else x

/-- Where a recording comes from, after one was changed. -/
theorem of_mem_retaped {T : List (ℕ × Recording)} {id : ℕ} {g : Recording → Recording}
    {x' : ℕ × Recording} (hx : x' ∈ retaped T id g) :
    (x' ∈ T ∧ x'.1 ≠ id) ∨ ∃ x ∈ T, x.1 = id ∧ x' = (id, g x.2) := by
  obtain ⟨x, hx₁, rfl⟩ := List.mem_map.1 hx
  split_ifs with h
  · exact Or.inr ⟨x, hx₁, h, Prod.ext h rfl⟩
  · exact Or.inl ⟨hx₁, h⟩

theorem mem_retaped {T : List (ℕ × Recording)} {x : ℕ × Recording} (hx : x ∈ T)
    (g : Recording → Recording) :
    (x.1, g x.2) ∈ retaped T x.1 g := List.mem_map.2 ⟨x, hx, if_pos rfl⟩

/-- **One call's recording is written**, in one family. -/
theorem Shelf.write {n : ℕ} {gone : List Bytes} {R : Bytes → List (ℕ × Recording)}
    {disk disk' : SortedMap Bytes (List Sample)} {f : Bytes} (h : Shelf n gone R disk) {id j : ℕ}
    {name : Bytes} (hne : name ≠ []) {g : Recording → Recording}
    (hother : ∀ g, ∀ y ∈ R g, y.2.audio = name → g = f ∧ y.1 = id)
    (howner : j ≤ n ∧ Names j name ∧ ∀ g, ∀ y ∈ R g, y.1 = j → g = f ∧ y.1 = id)
    (hg : ∀ x ∈ R f, x.1 = id → (g x.2).audio = name ∧
      (name ∉ gone → ∃ l, disk'.find? name = some l ∧ l.length = (g x.2).audioSamples))
    (hd : ∀ m, m ≠ name → disk'.find? m = disk.find? m) :
    Shelf n gone (Function.update R f (retaped (R f) id g)) disk' := by
  refine h.retape (f := f) (j := j) hne hother howner (fun e x' hx => ?_) (fun e x' hx => ?_) hd
  · rw [Function.update_apply] at hx
    split_ifs at hx with he
    · subst he
      rcases of_mem_retaped hx with ⟨hx₁, -⟩ | ⟨x, hx₁, hi, rfl⟩
      · exact ⟨x', hx₁, rfl⟩
      · exact ⟨x, hx₁, hi⟩
    · exact ⟨x', hx, rfl⟩
  · rw [Function.update_apply] at hx
    split_ifs at hx with he
    · subst he
      rcases of_mem_retaped hx with ⟨hx₁, hi⟩ | ⟨x, hx₁, hi, rfl⟩
      · exact Or.inl ⟨hx₁, fun h => hi h.2⟩
      · exact Or.inr ⟨rfl, rfl, hg x hx₁ hi⟩
    · exact Or.inl ⟨hx, fun h => he h.1⟩

/-- A mark on a recording moves nothing. -/
theorem Moves.mark {n id : ℕ} {T : List (ℕ × Recording)} {disk : SortedMap Bytes (List Sample)}
    {g : Recording → Recording}
    (hg : ∀ r, (g r).audio = r.audio ∧ (g r).audioSamples = r.audioSamples ∧
      (r.noAudio = true → (g r).noAudio = true))
    (hc : ∀ x ∈ T, x.2.Clean) :
    Moves n n T (retaped T id g) disk disk fun i => i := by
  refine ⟨fun x' hx hne => ?_, fun y hy => ?_, fun y hy => ?_, le_rfl, fun _ _ => Or.inl rfl⟩
  · rcases of_mem_retaped hx with ⟨hx₁, -⟩ | ⟨x, hx₁, hi, rfl⟩
    · exact ⟨x', hx₁, rfl, rfl, rfl⟩
    · exact ⟨x, hx₁, (hg x.2).1.symm, (hg x.2).2.1.symm, hi.symm⟩
  · rcases of_mem_retaped hy with ⟨hy₁, -⟩ | ⟨x, hx₁, hi, rfl⟩
    · exact Or.inl ⟨⟨y, hy₁, rfl⟩, rfl⟩
    · exact Or.inl ⟨⟨x, hx₁, hi⟩, rfl⟩
  · rcases of_mem_retaped hy with ⟨hy₁, -⟩ | ⟨x, hx₁, -, rfl⟩
    · exact hc y hy₁
    · intro ha hn
      refine (hg x.2).2.1.trans (hc x hx₁ ((hg x.2).1.symm.trans ha) ?_)
      exact Bool.eq_false_iff.2 fun ht => by
        rw [(hg x.2).2.2 ht] at hn
        exact Bool.noConfusion hn

/-- A deleted file that no record names is noted. -/
theorem Shelf.noted {n : ℕ} {m : Bytes} {gone : List Bytes} {R : Bytes → List (ℕ × Recording)}
    {disk : SortedMap Bytes (List Sample)} (h : Shelf n (m :: gone) R disk)
    (hno : ∀ f, ∀ x ∈ R f, x.2.audio ≠ [] → x.2.audio ≠ m) : Shelf n gone R disk :=
  ⟨fun f x hx hne hg => h.stored f x hx hne fun hm =>
    (List.mem_cons.1 hm).elim (hno f x hx hne) hg, h.alone, h.owned, h.apart, h.below, h.clean⟩

/-! ## What an edit does to the recordings

Most edits leave the recordings alone.  Ending a call may give its recording up, and joining two
calls keeps one recording of the two; both discard a file that no record names any more. -/

/-- What a record says of its recording is seen by steady readings. -/
theorem steady_tape : Steady fun k : Call => (k.id, k.sound) := fun _ _ hc _ hs =>
  Prod.ext (congrArg Core.id hc) hs

/-- Discarding a file leaves the others. -/
theorem CallAudioStore.find?_discard (st : CallAudioStore) (a m : Bytes) :
    (st.discard a).disk.find? m = st.disk.find? m ∨ m = a := by
  rw [discard]
  dsimp only
  split
  · exact Or.inl rfl
  · by_cases h : m = a
    · exact Or.inr h
    · exact Or.inl (SortedMap.find?_erase_ne _ h)

/-- A file that is discarded is not evicted. -/
theorem CallAudioStore.evicted_discard (st : CallAudioStore) (a : Bytes) :
    (st.discard a).evicted = st.evicted := by
  rw [discard]
  dsimp only
  split <;> rfl

/-- A call that takes over the recording of its twin counts as before, or as the twin did. -/
theorem Recording.clean_take {twin dup : Recording} (h : twin.Clean) : (twin.take dup).Clean := by
  rw [Recording.take]
  split_ifs with hd
  · exact h
  · exact fun he => absurd he fun he => hd (Or.inl he)

namespace Moves

variable {n : ℕ} {T T' : List (ℕ × Recording)} {disk disk' : SortedMap Bytes (List Sample)}

/-- Recordings stay where they are, or end. -/
theorem sub (hT : ∀ x' ∈ T', x' ∈ T ∨ x'.2.audio = [] ∧ x'.2.Clean ∧ ∃ x ∈ T, x.1 = x'.1)
    (hc : ∀ x ∈ T, x.2.Clean)
    (hd : ∀ m, m ≠ [] → disk'.find? m = disk.find? m ∨
      ∃ x ∈ T, x.2.audio = m ∧ ∀ y ∈ T', y.1 = x.1 → y.2.audio ≠ m) :
    Moves n n T T' disk disk' fun i => i := by
  refine ⟨fun x' hx hne => ?_, fun y hy => ?_, fun y hy => ?_, le_rfl, hd⟩
  · rcases hT x' hx with hx₁ | ⟨he, -⟩
    · exact ⟨x', hx₁, rfl, rfl, rfl⟩
    · exact absurd he hne
  · rcases hT y hy with hy₁ | ⟨-, -, hy₁⟩
    · exact Or.inl ⟨⟨y, hy₁, rfl⟩, rfl⟩
    · exact Or.inl ⟨hy₁, rfl⟩
  · rcases hT y hy with hy₁ | ⟨-, hcl, -⟩
    · exact hc y hy₁
    · exact hcl

/-- No recording changes. -/
theorem of_eq (hT : T' = T) (hd : ∀ m, disk'.find? m = disk.find? m) (hc : ∀ x ∈ T, x.2.Clean) :
    Moves n n T T' disk disk' fun i => i :=
  sub (fun _ hx => Or.inl (hT ▸ hx)) hc fun m _ => Or.inl (hd m)

end Moves

namespace Family

variable {F : Family} {id : ℕ}

/-- The recording of a call that is there. -/
theorem mem_tapes {k : Call} (hk : k ∈ F.calls) : (k.id, k.sound) ∈ F.tapes :=
  List.mem_map_of_mem hk

/-- An entry of a changed family is of another call, or of a changed one. -/
theorem of_mem_tapes_modifyCall {g : Call → Call} (hg : ∀ k, (g k).id = k.id) {x : ℕ × Recording}
    (hx : x ∈ (F.modifyCall id g).tapes) :
    (x ∈ F.tapes ∧ x.1 ≠ id) ∨ ∃ k ∈ F.calls, k.id = id ∧ x = (id, (g k).sound) := by
  rw [tapes, modifyCall, List.map_map] at hx
  obtain ⟨k, hk, rfl⟩ := List.mem_map.1 hx
  rw [Function.comp_apply]
  split_ifs with h
  · exact Or.inr ⟨k, hk, h, Prod.ext ((hg k).trans h) rfl⟩
  · exact Or.inl ⟨mem_tapes hk, h⟩

end Family

namespace FamilyState

variable (L : Limits) (w : FamilyState) (id : ℕ)

/-- Marking a call to be kept leaves recordings and files. -/
theorem tapes_setKeep (on : Bool) (now : ℤ) :
    (w.setKeep id on now).fam.tapes = w.fam.tapes ∧ (w.setKeep id on now).store = w.store := by
  rw [setKeep]
  split
  · exact ⟨rfl, rfl⟩
  · split_ifs
    · exact ⟨rfl, rfl⟩
    · exact ⟨Family.map_modifyCall fun _ _ _ => rfl, rfl⟩

/-- **A call's audio is deleted with its file, or stays with it.** -/
theorem moves_settleSound (n : ℕ) (hc : ∀ x ∈ w.fam.tapes, x.2.Clean) :
    Moves n n w.fam.tapes (w.settleSound id).fam.tapes w.store.disk (w.settleSound id).store.disk
        (fun i => i) ∧ (w.settleSound id).store.evicted = w.store.evicted := by
  rw [settleSound]
  split
  · exact ⟨.of_eq rfl (fun _ => rfl) hc, rfl⟩
  next k hk =>
  split_ifs
  · exact ⟨.of_eq rfl (fun _ => rfl) hc, rfl⟩
  · obtain ⟨hkc, hki⟩ := Family.findCall_some hk
    obtain ⟨ht, hs⟩ := tapes_setKeep { w with
      store := w.store.discard k.sound.audio
      fam := w.fam.modifyCall id Call.dropSound } id false k.lastMs
    rw [ht, hs]
    have hcases : ∀ x ∈ (w.fam.modifyCall id Call.dropSound).tapes, (x ∈ w.fam.tapes ∧ x.1 ≠ id) ∨
        ∃ k ∈ w.fam.calls, k.id = id ∧ x = (id, k.dropSound.sound) := fun x hx =>
      Family.of_mem_tapes_modifyCall (g := Call.dropSound) (fun _ => rfl) hx
    refine ⟨.sub (fun x hx => ?_) hc fun m hm => ?_, CallAudioStore.evicted_discard ..⟩
    · rcases hcases x hx with ⟨hx₁, -⟩ | ⟨k', hk', hi, rfl⟩
      · exact Or.inl hx₁
      · exact Or.inr ⟨rfl, fun _ _ => rfl, _, Family.mem_tapes hk', hi⟩
    · refine (CallAudioStore.find?_discard w.store k.sound.audio m).imp_right fun he => ?_
      refine ⟨_, Family.mem_tapes hkc, he.symm, fun y hy hi => ?_⟩
      rcases hcases y hy with ⟨-, hne⟩ | ⟨k', -, -, rfl⟩
      · exact absurd (hi.trans hki) hne
      · exact Ne.symm hm
  · exact ⟨.of_eq rfl (fun _ => rfl) hc, rfl⟩

/-- **A call that ends keeps its recording or loses it, with the file.** -/
theorem moves_closeCall (n : ℕ) (hc : ∀ x ∈ w.fam.tapes, x.2.Clean) :
    Moves n n w.fam.tapes (w.closeCall L id).fam.tapes w.store.disk (w.closeCall L id).store.disk
        (fun i => i) ∧ (w.closeCall L id).store.evicted = w.store.evicted := by
  rw [closeCall]
  split
  · exact ⟨.of_eq rfl (fun _ => rfl) hc, rfl⟩
  split_ifs
  · have hshut : (w.shut id).fam.tapes = w.fam.tapes := Family.map_modifyCall fun _ _ _ => rfl
    obtain ⟨hm, he⟩ := moves_settleSound (w.shut id) id n (by rwa [hshut])
    rw [hshut] at hm
    have ht : (((w.shut id).settleSound id).onFam fun F =>
        (F.countUnsourced L id).tallyClosed id).fam.tapes =
        ((w.shut id).settleSound id).fam.tapes := by
      change
        (((w.shut id).settleSound id).fam.countUnsourced L id |>.tallyClosed id).calls.map _ = _
      rw [Family.calls_tallyClosed, Family.map_countUnsourced steady_tape]
      rfl
    rw [ht]
    exact ⟨hm, he⟩
  · exact ⟨.of_eq rfl (fun _ => rfl) hc, rfl⟩

end FamilyState

namespace Shelf

variable {n n' : ℕ} {gone : List Bytes} {R : Bytes → List (ℕ × Recording)}
  {disk disk' : SortedMap Bytes (List Sample)} {f : Bytes} {T' : List (ℕ × Recording)}

/-- The recordings of one family move. -/
theorem update (h : Shelf n gone R disk) {q : ℕ → ℕ} (hm : Moves n n' (R f) T' disk disk' q) :
    Shelf n' gone (Function.update R f T') disk' :=
  h.moves (f := f) (q := q) (by rwa [Function.update_self]) fun _ hg => Function.update_of_ne hg _ _

end Shelf

/-- **A duplicate's file goes to its twin, or is deleted.** -/
theorem Shelf.joined (L : Limits) {n : ℕ} {gone : List Bytes} {R : Bytes → List (ℕ × Recording)}
    {f : Bytes} {w : FamilyState} {dup twin : Call} (hs : Spot (w, n))
    (h : Shelf n gone R w.store.disk) (hR : R f = w.fam.tapes)
    (hd : w.fam.findCall dup.id = some dup) (ht : w.fam.findCall twin.id = some twin)
    (hne : twin.id ≠ dup.id) :
    Shelf n gone (Function.update R f (w.adopt L dup twin).fam.tapes)
      (w.adopt L dup twin).store.disk ∧
      (w.adopt L dup twin).store.evicted = w.store.evicted := by
  have hdup : (dup.id, dup.sound) ∈ w.fam.tapes := Family.mem_tapes (Family.findCall_some hd).1
  have htwin : (twin.id, twin.sound) ∈ w.fam.tapes := Family.mem_tapes (Family.findCall_some ht).1
  have hc : ∀ z ∈ w.fam.tapes, z.2.Clean := hR ▸ h.clean f
  set F₁ := w.fam.modifyCall twin.id fun t => t.join dup
  have hids : F₁.callIds.Nodup := by
    rw [Family.callIds_modifyCall (g := fun t => t.join dup) fun _ => rfl]
    exact hs.kept.ids
  -- an entry is another call's, or the twin's with what it takes
  have hcases : ∀ x ∈ (w.adopt L dup twin).fam.tapes, x.1 ≠ dup.id ∧
      ((x ∈ w.fam.tapes ∧ x.1 ≠ twin.id) ∨ x = (twin.id, twin.sound.take dup.sound)) := by
    intro x hx
    have hx' : x ∈ (F₁.forget dup.id).tapes := by
      rw [fam_adopt, Family.tapes, Family.map_noteEncCounts steady_tape] at hx
      exact hx
    obtain ⟨k, hk, rfl⟩ := List.mem_map.1 hx'
    obtain ⟨hk₁, hkne⟩ := (Family.mem_calls_forget hids).1 hk
    refine ⟨hkne, (Family.of_mem_tapes_modifyCall (g := fun t => t.join dup) (fun _ => rfl)
      (Family.mem_tapes hk₁)).imp_right ?_⟩
    rintro ⟨t, htm, hti, he⟩
    have hf := hs.kept.findCall_of_mem htm
    rw [hti, ht] at hf
    obtain rfl := Option.some.inj hf
    exact he
  have hstore : ((w.adopt L dup twin).store = w.store ∧
      (dup.sound.audio = [] ∨ twin.sound.audio = [])) ∨
      ((w.adopt L dup twin).store = w.store.discard dup.sound.audio ∧
        ¬(dup.sound.audio = [] ∨ twin.sound.audio = [])) := by
    rw [FamilyState.adopt]
    split_ifs with hif
    · exact Or.inl ⟨rfl, hif⟩
    · exact Or.inr ⟨rfl, hif⟩
  refine ⟨h.update (q := fun i => if i = dup.id then twin.id else i) ?_, ?_⟩
  · rw [hR]
    refine ⟨fun x hx hna => ?_, fun x hx => ?_, fun x hx => ?_, le_rfl, fun m hm => ?_⟩
    · obtain ⟨hxd, ⟨hx₁, -⟩ | rfl⟩ := hcases x hx
      · exact ⟨x, hx₁, rfl, rfl, (if_neg hxd).symm⟩
      · rw [Recording.take] at hna ⊢
        split_ifs at hna ⊢ with hif
        · exact ⟨_, htwin, rfl, rfl, (if_neg hne).symm⟩
        · exact ⟨_, hdup, rfl, rfl, (if_pos rfl).symm⟩
    · obtain ⟨hxd, ⟨hx₁, -⟩ | rfl⟩ := hcases x hx
      · exact Or.inl ⟨⟨x, hx₁, rfl⟩, if_neg hxd⟩
      · exact Or.inl ⟨⟨_, htwin, rfl⟩, if_neg hne⟩
    · obtain ⟨-, ⟨hx₁, -⟩ | rfl⟩ := hcases x hx
      · exact hc x hx₁
      · exact Recording.clean_take (hc _ htwin)
    · obtain ⟨hst, -⟩ | ⟨hst, hif⟩ := hstore
      · exact Or.inl (by rw [hst])
      · rw [hst]
        refine (CallAudioStore.find?_discard w.store dup.sound.audio m).imp_right fun he => ?_
        refine ⟨_, hdup, he.symm, fun y hy hi => ?_⟩
        rw [if_pos rfl] at hi
        obtain ⟨-, ⟨-, hyne⟩ | rfl⟩ := hcases y hy
        · exact absurd hi hyne
        · intro ha
          have htake : (twin.sound.take dup.sound).audio = twin.sound.audio := by
            rw [Recording.take, if_pos (Or.inr fun h => hif (Or.inr h))]
          obtain ⟨-, hid⟩ := h.alone f _ (hR.symm ▸ hdup) (fun h => hif (Or.inl h)) f _
            (hR.symm ▸ htwin)
            (htake.symm.trans (ha.trans he))
          exact hne hid
  · obtain ⟨hst, -⟩ | ⟨hst, -⟩ := hstore
    · rw [hst]
    · rw [hst, CallAudioStore.evicted_discard]

variable {L : Limits} {net : Bytes} {gone : List Bytes} {R : Bytes →
  List (ℕ × Recording)} {f : Bytes}

/-- **Every edit keeps the recordings and the files in agreement.** -/
theorem Edit.shelf {x y : FamilyState × ℕ} (e : Edit L net x y) (hs : Spot x)
    (h : Shelf x.2 gone R x.1.store.disk) (hR : R f = x.1.fam.tapes) :
    Shelf y.2 gone (Function.update R f y.1.fam.tapes) y.1.store.disk ∧
      y.1.store.evicted = x.1.store.evicted := by
  have hc : ∀ z ∈ x.1.fam.tapes, z.2.Clean := hR ▸ h.clean f
  have hsame : ∀ {T' : List (ℕ × Recording)}, T' = x.1.fam.tapes →
      Shelf x.2 gone (Function.update R f T') x.1.store.disk := fun hT =>
    h.update (q := fun i => i) (by rw [hR]; exact .of_eq hT (fun _ => rfl) hc)
  cases e with
  | @amend w n id k g hk hg hgs =>
    refine ⟨hsame (Family.map_modifyCall fun k' hk' hi => ?_), rfl⟩
    have hf := hs.kept.findCall_of_mem hk'
    rw [hi, hk] at hf
    obtain rfl := Option.some.inj hf
    exact Prod.ext hg.id hgs.1
  | touch => exact ⟨hsame rfl, rfl⟩
  | fix => exact ⟨hsame rfl, rfl⟩
  | key id => exact ⟨hsame (Family.map_noteEncCounts steady_tape _ id), rfl⟩
  | @priv w n id k hk ho now => exact ⟨hsame (Family.map_setPrivate steady_tape _ id), rfl⟩
  | @count w n id k hk ho hcd hsrc ht now =>
    exact ⟨hsame (Family.map_countCall steady_tape _ id), rfl⟩
  | @close w n id =>
    obtain ⟨hm, he⟩ := FamilyState.moves_closeCall L w id n hc
    exact ⟨h.update (by rwa [hR]), he⟩
  | @drop w n id hd =>
    refine ⟨h.update (q := fun i => i) ?_, rfl⟩
    rw [hR]
    exact .sub (fun z hz => Or.inl (((Family.calls_forget_sublist w.fam id).map _).subset hz)) hc
      fun _ _ => Or.inl rfl
  | @join w n dup twin hd ht hne ho hcd he => exact h.joined L hs hR hd ht hne
  | @push w n k hid hn hcd hkn ho hks hkp =>
    refine ⟨h.update (q := fun i => i) ?_, rfl⟩
    rw [hR]
    have hmem : ∀ z ∈ (w.onFam fun F => { F with calls := F.calls ++ [k] }).fam.tapes,
        z ∈ w.fam.tapes ∨ z = (n + 1, {}) := fun z hz => by
      rw [Family.tapes, show (w.onFam fun F => { F with calls := F.calls ++ [k] }).fam.calls =
        w.fam.calls ++ [k] from rfl, List.map_append, List.mem_append, List.map_singleton,
        List.mem_singleton, hid, hks] at hz
      exact hz
    refine ⟨fun z hz hna => ?_, fun z hz => ?_, fun z hz => ?_, Nat.le_succ n,
      fun _ _ => Or.inl rfl⟩
    · rcases hmem z hz with hz | rfl
      · exact ⟨z, hz, rfl, rfl, rfl⟩
      · exact absurd rfl hna
    · rcases hmem z hz with hz | rfl
      · exact Or.inl ⟨⟨z, hz, rfl⟩, rfl⟩
      · exact Or.inr ⟨Nat.lt_succ_self n, le_rfl⟩
    · rcases hmem z hz with hz | rfl
      · exact hc z hz
      · exact fun _ _ => rfl
  | quality => exact ⟨hsame rfl, rfl⟩

/-- **What a stretch of call handling keeps.** -/
theorem shelf_edits {x y : FamilyState × ℕ} (he : Relation.ReflTransGen (Edit L net) x y)
    (hs : Spot x) (h : Shelf x.2 gone R x.1.store.disk) (hR : R f = x.1.fam.tapes) :
    Shelf y.2 gone (Function.update R f y.1.fam.tapes) y.1.store.disk ∧
      y.1.store.evicted = x.1.store.evicted := by
  induction he with
  | refl =>
    rw [← hR, Function.update_eq_self]
    exact ⟨h, rfl⟩
  | @tail y z he e ih =>
    obtain ⟨h₁, h₂⟩ := e.shelf (f := f) (hs.edits he) ih.1 (Function.update_self ..)
    rw [Function.update_idem] at h₁
    exact ⟨h₁, h₂.trans ih.2⟩

end DsdServer
