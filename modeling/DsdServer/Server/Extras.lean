import DsdServer.Assoc.Text
import DsdServer.Data.Ledger
import DsdServer.Data.Path

/-!
# Server/Extras — the fields of an event, written and read

    extracted ──addToken──▸ "rpt1=GB7AA B; radio_text=hi"
              ──parseExtra──▸ rpt1 ↦ GB7AA B, radio_text ↦ hi

A decoder writes what it extracted from a line as `key=value` tokens in one field of its event, and
the explorer reads them back: the pieces between semicolons, each cut at its first equals sign, the
last one of a key to stand.  Values go in as they came.  One with a semicolon in it ends its own
token there, and what follows is read as tokens that nobody extracted (`madeUp`).

`find?_parseExtra` says what is read of a field with one such value in it, and `honest_iff` from
that when every other key is read as it was written.
-/

open Bytes

namespace DsdServer

/-! ## Tokens, written and read

A token is written as its key, an equals sign and its value, with a semicolon and a blank before all
but the first.  Nothing is escaped.  The reader cuts at semicolons, then at the first equals sign,
and trims blanks. -/

/-- A token as it is written. -/
def keyText (e : Bytes × Bytes) : Bytes := e.1 ++ ch '=' :: e.2

/-- One more token. -/
def addToken (extra : Bytes) (e : Bytes × Bytes) : Bytes :=
  (if extra = [] then [] else extra ++ lit "; ") ++ keyText e

/-- The extra field of a list of tokens. -/
def joined (ps : List (Bytes × Bytes)) : Bytes := ps.foldl addToken []

/-- What the tokens say: a repeated key has its last value. -/
def written (ps : List (Bytes × Bytes)) : SortedMap Bytes Bytes :=
  ps.foldl (fun m e => m.insert e.1 e.2) ∅

/-- A piece of an extra field, read. -/
def assign (m : SortedMap Bytes Bytes) (tok : Bytes) : SortedMap Bytes Bytes :=
  match cut (ch '=') (trim (ch ' ') tok) with
  | some (k, v) => if k = [] then m else m.insert k v
  | none => m

/-- The pieces of a string, read. -/
def assignAll (m : SortedMap Bytes Bytes) (s : Bytes) : SortedMap Bytes Bytes :=
  (split (ch ';') s).foldl assign m

section

variable {m m' : SortedMap Bytes Bytes} {k k' v s : Bytes}

/-- A blank in front of a token does not count. -/
theorem assign_space (m : SortedMap Bytes Bytes) (s : Bytes) :
    assign m (ch ' ' :: s) = assign m s := by
  have h : trim (ch ' ') (ch ' ' :: s) = trim (ch ' ') s := by
    rw [trim, List.dropWhile_cons_of_pos (by simp), trim]
  rw [assign, h, assign]

theorem assignAll_space (m : SortedMap Bytes Bytes) (s : Bytes) :
    assignAll m (ch ' ' :: s) = assignAll m s := by
  rw [assignAll, assignAll, split, if_neg (by decide)]
  rcases hs : split (ch ';') s with _ | ⟨p, ps⟩
  · exact absurd hs (split_ne_nil _ s)
  · dsimp only
    rw [List.foldl_cons, List.foldl_cons, assign_space]

/-- **A token that is added is read after the others.** -/
theorem assignAll_addToken (m : SortedMap Bytes Bytes) (extra : Bytes) (e : Bytes × Bytes) :
    assignAll m (addToken extra e) = assignAll (assignAll m extra) (keyText e) := by
  rw [addToken]
  split_ifs with h
  · subst h
    rfl
  · have hsep : extra ++ lit "; " ++ keyText e = extra ++ ch ';' :: ch ' ' :: keyText e := by
      rw [List.append_assoc]
      rfl
    rw [hsep, assignAll, split_append_sep, List.foldl_append]
    exact assignAll_space _ (keyText e)

/-- What is written token by token is read token by token. -/
theorem parseExtra_joined (ps : List (Bytes × Bytes)) :
    parseExtra (joined ps) = ps.foldl (fun m e => assignAll m (keyText e)) ∅ := by
  have h : ∀ (ps : List (Bytes × Bytes)) (extra : Bytes), assignAll ∅ (ps.foldl addToken extra) =
      ps.foldl (fun m e => assignAll m (keyText e)) (assignAll ∅ extra) := by
    intro ps
    induction ps with
    | nil => exact fun _ => rfl
    | cons e ps ih =>
      intro extra
      rw [List.foldl_cons, ih, List.foldl_cons, assignAll_addToken]
  exact h ps []

/-! ## Tokens read as they were written

A value without a semicolon, and without blanks at its ends, is read as it was written; so are all
tokens, if all their values are like this.  Of two tokens with one key, the later is read. -/

/-- A key the decoders use. -/
def KeyForm (k : Bytes) : Prop :=
  k ≠ [] ∧ ch ';' ∉ k ∧ ch '=' ∉ k ∧ k.head? ≠ some (ch ' ')

instance decidableKeyForm (k : Bytes) : Decidable (KeyForm k) :=
  inferInstanceAs (Decidable (_ ∧ _ ∧ _ ∧ _))

/-- A value without a separator in it, or a blank at its end. -/
def Tame (v : Bytes) : Prop := ch ';' ∉ v ∧ v.getLast? ≠ some (ch ' ')

instance decidableTame (v : Bytes) : Decidable (Tame v) := inferInstanceAs (Decidable (_ ∧ _))

/-- A token that is read as it was written. -/
def Plain (e : Bytes × Bytes) : Prop := KeyForm e.1 ∧ Tame e.2

/-- Without blanks in front, only those at the end are trimmed. -/
theorem trim_token (hk : KeyForm k) (v : Bytes) :
    ∃ v', trim (ch ' ') (k ++ ch '=' :: v) = k ++ ch '=' :: v' ∧
      (v.getLast? ≠ some (ch ' ') → v' = v) := by
  have hfront : (k ++ ch '=' :: v).dropWhile (· == ch ' ') = k ++ ch '=' :: v := by
    rcases k with _ | ⟨b, k⟩
    · exact absurd rfl hk.1
    · have hb : b ≠ ch ' ' := fun h => hk.2.2.2 (congrArg some h)
      exact List.dropWhile_cons_of_neg (by simpa using hb)
  refine ⟨(v.reverse.dropWhile (· == ch ' ')).reverse, ?_, fun hv => ?_⟩
  · rw [trim, hfront, List.reverse_append, List.reverse_cons, List.append_assoc,
      List.dropWhile_append]
    have hstop : ∀ r : Bytes, (([ch '='] : Bytes) ++ r).dropWhile (· == ch ' ') = [ch '='] ++ r :=
      fun r => List.dropWhile_cons_of_neg (by decide)
    split_ifs with he
    · rw [List.isEmpty_iff.1 he, hstop]
      simp
    · simp
  · rcases hr : v.reverse with _ | ⟨b, r⟩
    · rw [List.reverse_eq_nil_iff.1 hr]
      rfl
    · have hb : b ≠ ch ' ' := by
        intro h
        refine hv ?_
        rw [← List.reverse_reverse v, hr, h]
        simp
      rw [List.dropWhile_cons_of_neg (by simpa using hb), ← hr, List.reverse_reverse]

/-- A token's own piece sets its key. -/
theorem assign_token (hk : KeyForm k) (m : SortedMap Bytes Bytes) (v : Bytes) :
    ∃ v', assign m (k ++ ch '=' :: v) = m.insert k v' ∧ (v.getLast? ≠ some (ch ' ') → v' = v) := by
  obtain ⟨v', ht, hv⟩ := trim_token hk v
  refine ⟨v', ?_, hv⟩
  rw [assign, ht, cut_of_not_mem hk.2.2.1]
  exact if_neg hk.1

/-- **A plain token sets its key** to its value. -/
theorem assignAll_plain {e : Bytes × Bytes} (h : Plain e) (m : SortedMap Bytes Bytes) :
    assignAll m (keyText e) = m.insert e.1 e.2 := by
  have hsep : ch ';' ∉ keyText e := by
    rw [keyText, List.mem_append, List.mem_cons]
    rintro (hm | hm | hm)
    · exact h.1.2.1 hm
    · exact absurd hm (by decide)
    · exact h.2.1 hm
  obtain ⟨v', ha, hv⟩ := assign_token h.1 m e.2
  rw [assignAll, split_of_not_mem hsep, List.foldl_cons, List.foldl_nil, keyText, ha, hv h.2.2]

/-- Plain tokens are read as they were written. -/
theorem foldl_assignAll_plain {ps : List (Bytes × Bytes)} (h : ∀ e ∈ ps, Plain e)
    (m : SortedMap Bytes Bytes) :
    ps.foldl (fun m e => assignAll m (keyText e)) m = ps.foldl (fun m e => m.insert e.1 e.2) m := by
  induction ps generalizing m with
  | nil => rfl
  | cons e ps ih =>
    rw [List.foldl_cons, List.foldl_cons, assignAll_plain (h e List.mem_cons_self)]
    exact ih (fun e he => h e (List.mem_cons_of_mem _ he)) _

/-! ### What is read is tame

A piece between separators has none in it, and its blanks are trimmed: so a value that is not tame
is never read. -/

theorem sep_not_mem_split {sep : UInt8} {s p : Bytes} (h : p ∈ split sep s) : sep ∉ p := by
  induction s generalizing p with
  | nil => rw [List.mem_singleton.1 h]; exact List.not_mem_nil
  | cons b s ih =>
    rw [split] at h
    split_ifs at h with hb
    · rcases List.mem_cons.1 h with rfl | h
      · exact List.not_mem_nil
      · exact ih h
    · rcases hs : split sep s with _ | ⟨q, qs⟩
      · exact absurd hs (split_ne_nil sep s)
      · rw [hs] at h ih
        rcases List.mem_cons.1 h with rfl | h
        · rw [List.mem_cons, not_or]
          exact ⟨Ne.symm hb, ih List.mem_cons_self⟩
        · exact ih (List.mem_cons_of_mem _ h)

/-- The two halves and the separator are the text. -/
theorem append_of_cut {sep : UInt8} {s : Bytes} (h : cut sep s = some (k, v)) :
    s = k ++ sep :: v := by
  induction s generalizing k with
  | nil => cases h
  | cons b s ih =>
    rw [cut] at h
    split_ifs at h with hb
    · cases h
      rw [hb, List.nil_append]
    · obtain ⟨⟨k₁, v₁⟩, hc, he⟩ := Option.map_eq_some_iff.1 h
      cases he
      rw [List.cons_append, ← ih hc]

theorem mem_of_mem_trim {b c : UInt8} (h : c ∈ trim b s) : c ∈ s := by
  rw [trim, List.mem_reverse] at h
  have h := (List.dropWhile_sublist _).subset h
  exact (List.dropWhile_sublist _).subset (List.mem_reverse.1 h)

/-- A trimmed text does not end in what was trimmed. -/
theorem getLast?_trim (b : UInt8) (s : Bytes) : (trim b s).getLast? ≠ some b := by
  intro h
  rw [trim, List.getLast?_reverse] at h
  have hne := List.head?_dropWhile_not (· == b) (s.dropWhile (· == b)).reverse
  rw [h] at hne
  simp at hne

/-- A piece sets a key to a tame value. -/
theorem tame_assign (hm : m.All Tame) {p : Bytes} (hp : ch ';' ∉ p) : (assign m p).All Tame := by
  rw [assign]
  rcases hc : cut (ch '=') (trim (ch ' ') p) with _ | ⟨k, v⟩
  · exact hm
  · have hkv := append_of_cut hc
    dsimp only
    split_ifs
    · exact hm
    · refine hm.insert k ⟨fun hv => hp (mem_of_mem_trim (b := ch ' ') ?_), fun hv => ?_⟩
      · rw [hkv]
        exact List.mem_append_right _ (List.mem_cons_of_mem _ hv)
      · refine getLast?_trim (ch ' ') p ?_
        rw [hkv, List.getLast?_append, List.getLast?_cons, hv]
        rfl

/-- **What is read is tame.** -/
theorem tame_parseExtra (s : Bytes) : (parseExtra s).All Tame := by
  have h : ∀ (l : List Bytes) (m : SortedMap Bytes Bytes), (∀ p ∈ l, ch ';' ∉ p) → m.All Tame →
      (l.foldl assign m).All Tame := by
    intro l
    induction l with
    | nil => exact fun _ _ hm => hm
    | cons p l ih =>
      intro m hl hm
      exact ih _ (fun q hq => hl q (List.mem_cons_of_mem p hq))
        (tame_assign hm (hl p List.mem_cons_self))
  exact h _ ∅ (fun p hp => sep_not_mem_split hp) SortedMap.all_empty

/-! ## What a text makes up

A value with a semicolon in it is read as a shorter value, and what follows the semicolon as further
tokens, if there is an equals sign in it.  These are the fields a text makes up. -/

/-- **The tokens a text makes up**: its pieces after the first separator, read. -/
def madeUp (t : Bytes) : SortedMap Bytes Bytes := (split (ch ';') t).tail.foldl assign ∅

theorem madeUp_of_tame {t : Bytes} (h : Tame t) : madeUp t = ∅ := by
  rw [madeUp, split_of_not_mem h.1]
  rfl

/-- Where a text stands as a value, its first piece is the value and the others follow. -/
theorem split_token (hk : ch ';' ∉ k) (t : Bytes) : ∃ t₀, split (ch ';') (k ++ ch '=' :: t) =
    (k ++ ch '=' :: t₀) :: (split (ch ';') t).tail := by
  induction k with
  | nil =>
    rcases hs : split (ch ';') t with _ | ⟨t₀, ts⟩
    · exact absurd hs (split_ne_nil _ t)
    · refine ⟨t₀, ?_⟩
      rw [List.nil_append, split, if_neg (by decide), hs]
      rfl
  | cons b k ih =>
    rw [List.mem_cons, not_or] at hk
    obtain ⟨t₀, hs⟩ := ih hk.2
    refine ⟨t₀, ?_⟩
    rw [List.cons_append, split, if_neg (Ne.symm hk.1), hs]
    rfl

/-- A piece is read over what was there. -/
theorem find?_assign (m : SortedMap Bytes Bytes) (p k : Bytes) :
    (assign m p).find? k = ((assign ∅ p).find? k).or (m.find? k) := by
  rw [assign, assign]
  rcases cut (ch '=') (trim (ch ' ') p) with _ | ⟨k', v⟩
  · rfl
  · dsimp only
    split_ifs
    · rfl
    · rw [SortedMap.find?_insert, SortedMap.find?_insert]
      split_ifs <;> rfl

/-- A later assignment to a key overrides what was there. -/
theorem find?_foldl_assign (l : List Bytes) (m : SortedMap Bytes Bytes) (k : Bytes) :
    (l.foldl assign m).find? k = ((l.foldl assign ∅).find? k).or (m.find? k) := by
  induction l generalizing m with
  | nil => rfl
  | cons p l ih =>
    rw [List.foldl_cons, List.foldl_cons, ih, ih (assign ∅ p), find?_assign m p, Option.or_assoc]

/-- **A text's token changes no other key but those it makes up.** -/
theorem find?_assignAll_text (hk : KeyForm k) (t : Bytes) (m : SortedMap Bytes Bytes)
    (hk' : k' ≠ k) :
    (assignAll m (keyText (k, t))).find? k' = ((madeUp t).find? k').or (m.find? k') := by
  obtain ⟨t₀, hs⟩ := split_token hk.2.1 t
  obtain ⟨v', ha, -⟩ := assign_token hk m t₀
  rw [assignAll, keyText, hs, List.foldl_cons, ha, find?_foldl_assign,
    SortedMap.find?_insert_ne m v' hk', madeUp]

/-- Later tokens are written over earlier ones. -/
theorem find?_foldl_insert (ps : List (Bytes × Bytes)) (m : SortedMap Bytes Bytes) (k : Bytes) :
    (ps.foldl (fun m e => m.insert e.1 e.2) m).find? k = ((written ps).find? k).or (m.find? k) := by
  induction ps generalizing m with
  | nil => rfl
  | cons e ps ih =>
    rw [List.foldl_cons, written, List.foldl_cons, ih, ih (SortedMap.insert ∅ e.1 e.2),
      SortedMap.find?_insert, SortedMap.find?_insert, Option.or_assoc]
    split_ifs <;> rfl

/-- A key that no token has is not read. -/
theorem find?_written_none {ps : List (Bytes × Bytes)} (h : ∀ e ∈ ps, e.1 ≠ k) :
    (written ps).find? k = none := by
  induction ps with
  | nil => rfl
  | cons e ps ih =>
    rw [written, List.foldl_cons, find?_foldl_insert,
      ih fun e he => h e (List.mem_cons_of_mem _ he),
      SortedMap.find?_insert_ne _ _ (h e List.mem_cons_self).symm]
    rfl

/-- A token leaves the other keys. -/
theorem find?_written_split (ps qs : List (Bytes × Bytes)) (t : Bytes) (hk' : k' ≠ k) :
    (written (ps ++ (k, t) :: qs)).find? k' = ((written qs).find? k').or
      ((written ps).find? k') := by
  rw [written, List.foldl_append, List.foldl_cons, find?_foldl_insert,
    SortedMap.find?_insert_ne _ _ hk', written, written]

/-- **What is read of a field with one text in it**: the tokens after it, else what it makes up,
else the tokens before. -/
theorem find?_parseExtra {ps qs : List (Bytes × Bytes)} (hps : ∀ e ∈ ps, Plain e)
    (hqs : ∀ e ∈ qs, Plain e) (hk : KeyForm k) (t : Bytes) (hk' : k' ≠ k) :
    (parseExtra (joined (ps ++ (k, t) :: qs))).find? k' =
      ((written qs).find? k').or (((madeUp t).find? k').or ((written ps).find? k')) := by
  rw [parseExtra_joined, List.foldl_append, List.foldl_cons, foldl_assignAll_plain hps,
    foldl_assignAll_plain hqs,
    find?_foldl_insert, find?_assignAll_text hk t _ hk', written, written]

/-! ## Fields read as they were written

In an extra field with texts among its tokens, what a text makes up of another key is harmless when
a later token overwrites it, or when an earlier one said the same.  So the condition is one on texts
and keys, and needs no run of the reader. -/

/-- **The tokens a decoder writes**: those with a text from the air as a value, each at most once,
among plain ones. -/
structure Fields (texts : List Bytes) (ps : List (Bytes × Bytes)) : Prop where
  keys : ∀ e ∈ ps, KeyForm e.1
  once : ((ps.filter fun e => e.1 ∈ texts).map Prod.fst).Nodup
  plain : ∀ e ∈ ps, e.1 ∉ texts → Plain e

/-- The explorer reads every key but one as it was written, and no other. -/
def Honest (ps : List (Bytes × Bytes)) (kt : Bytes) : Prop :=
  ∀ k, k ≠ kt → (parseExtra (joined ps)).find? k = (written ps).find? k

/-- No value under another key holds a separator or ends in a blank. -/
def Clear (ps : List (Bytes × Bytes)) (kt : Bytes) : Prop := ∀ e ∈ ps, e.1 ≠ kt → Tame e.2

/-- What the text under a key makes up of other keys is overwritten by a later token, or said by an
earlier one already. -/
def Unforging (ps : List (Bytes × Bytes)) (kt : Bytes) : Prop :=
  ∀ pre t post, ps = pre ++ (kt, t) :: post → ∀ k v, k ≠ kt → (madeUp t).find? k = some v →
    k ∈ written post ∨ (written pre).find? k = some v

namespace Fields

variable {texts : List Bytes} {ps pre post : List (Bytes × Bytes)} {t : Bytes}

/-- The texts, under keys of their own, stand among plain tokens. -/
theorem of_parts {mid : List (Bytes × Bytes)} (hplain : ∀ e ∈ pre ++ post, Plain e ∧ e.1 ∉ texts)
    (hmid : (mid.map Prod.fst).Sublist texts) (hnd : texts.Nodup) (hform : ∀ k ∈ texts, KeyForm k) :
    Fields texts (pre ++ mid ++ post) := by
  have hmem : ∀ e ∈ mid, e.1 ∈ texts := fun e he => hmid.subset (List.mem_map_of_mem he)
  have hout : ∀ e ∈ pre ++ mid ++ post, e ∈ pre ++ post ∨ e ∈ mid := by
    intro e he
    simp only [List.mem_append] at he ⊢
    tauto
  refine ⟨fun e he => ?_, ?_, fun e he hk => ?_⟩
  · exact (hout e he).elim (fun h => (hplain e h).1.1) fun h => hform e.1 (hmem e h)
  · have hnone : ∀ l : List (Bytes × Bytes), (∀ e ∈ l, e ∈ pre ++ post) →
        l.filter (fun e => e.1 ∈ texts) = [] :=
      fun l hl => List.filter_eq_nil_iff.2 fun e he => by simpa using (hplain e (hl e he)).2
    have hall : mid.filter (fun e => e.1 ∈ texts) = mid :=
      List.filter_eq_self.2 fun e he => by simpa using hmem e he
    rw [List.filter_append, List.filter_append, hnone pre fun e => List.mem_append_left _,
      hnone post fun e => List.mem_append_right _, hall, List.append_nil, List.nil_append]
    exact hnd.sublist hmid
  · exact (hout e he).elim (fun h => (hplain e h).1) fun h => absurd (hmem e h) hk

/-- A text's key stands once. -/
theorem ne_of_split (h : Fields texts (pre ++ (k, t) :: post)) (hk : k ∈ texts) :
    ∀ e ∈ pre ++ post, e.1 ≠ k := by
  have hn := h.once
  rw [List.filter_append, List.filter_cons_of_pos (by simpa using hk), List.map_append,
    List.map_cons, List.nodup_append_comm, List.cons_append, List.nodup_cons, List.mem_append] at hn
  intro e he hek
  refine hn.1 ?_
  have hmem : ∀ l : List (Bytes × Bytes), e ∈ l →
      k ∈ (l.filter fun e => e.1 ∈ texts).map Prod.fst :=
    fun l hl => List.mem_map.2 ⟨e, List.mem_filter.2 ⟨hl, by simpa [hek] using hk⟩, hek⟩
  exact (List.mem_append.1 he).symm.imp (hmem post) (hmem pre)

/-- Around a text that is not tame, all is plain. -/
theorem plain_of_split (h : Fields texts (pre ++ (k, t) :: post)) (ht : ¬Tame t)
    (hc : Clear (pre ++ (k, t) :: post) k) : ∀ e ∈ pre ++ post, Plain e := by
  have hself : (k, t) ∈ pre ++ (k, t) :: post := List.mem_append_right _ List.mem_cons_self
  have hk : k ∈ texts := by
    by_contra hk
    exact ht (h.plain _ hself hk).2
  intro e he
  have hmem : e ∈ pre ++ (k, t) :: post :=
    List.mem_append.2 ((List.mem_append.1 he).imp_right (List.mem_cons_of_mem _))
  exact ⟨h.keys e hmem, hc e hmem (h.ne_of_split hk e he)⟩

/-- What is read around it. -/
theorem find?_parseExtra_split (h : Fields texts (pre ++ (k, t) :: post)) (ht : ¬Tame t)
    (hc : Clear (pre ++ (k, t) :: post) k) (hk' : k' ≠ k) :
    (parseExtra (joined (pre ++ (k, t) :: post))).find? k' =
      ((written post).find? k').or (((madeUp t).find? k').or ((written pre).find? k')) :=
  have hplain := h.plain_of_split ht hc
  find?_parseExtra (fun e he => hplain e (List.mem_append_left _ he))
    (fun e he => hplain e (List.mem_append_right _ he))
    (h.keys (k, t) (List.mem_append_right _ List.mem_cons_self)) t hk'

/-- A text that is not tame is not read. -/
theorem clear_of_honest (h : Fields texts ps) (hh : Honest ps k) : Clear ps k := by
  intro e he hne
  by_cases hk : e.1 ∈ texts
  · obtain ⟨pre, post, rfl⟩ := List.append_of_mem he
    have hlater : (written post).find? e.1 = none :=
      find?_written_none fun e' he' => h.ne_of_split (t := e.2) hk e' (List.mem_append_right _ he')
    have hw : (written (pre ++ e :: post)).find? e.1 = some e.2 := by
      rw [written, List.foldl_append, List.foldl_cons, find?_foldl_insert, hlater,
        SortedMap.find?_insert_self]
      rfl
    exact tame_parseExtra _ e.1 e.2 ((hh e.1 hne).trans hw)
  · exact (h.plain e he hk).2

/-- **When every other key is read as it was written**: when no other value holds a separator, and
what the text makes up shows nowhere. -/
theorem honest_iff (h : Fields texts ps) (kt : Bytes) :
    Honest ps kt ↔ Clear ps kt ∧ Unforging ps kt := by
  constructor
  · intro hh
    have hc := h.clear_of_honest hh
    refine ⟨hc, ?_⟩
    rintro pre t post rfl k v hk hv
    have ht : ¬Tame t := by
      intro ht
      rw [madeUp_of_tame ht] at hv
      cases hv
    have hread := hh k hk
    rw [h.find?_parseExtra_split ht hc hk, find?_written_split _ _ t hk, hv] at hread
    rcases hpost : (written post).find? k with _ | w
    · rw [hpost, Option.none_or, Option.none_or] at hread
      exact Or.inr hread.symm
    · exact Or.inl (SortedMap.mem_of_find? hpost)
  · rintro ⟨hc, hu⟩ k hk
    by_cases hall : ∀ e ∈ ps, e.1 = kt → Tame e.2
    · have hplain : ∀ e ∈ ps, Plain e := fun e he =>
        ⟨h.keys e he, if hek : e.1 = kt then hall e he hek else hc e he hek⟩
      rw [parseExtra_joined, foldl_assignAll_plain hplain, written]
    · push Not at hall
      obtain ⟨⟨_, t⟩, he, rfl, ht⟩ := hall
      obtain ⟨pre, post, rfl⟩ := List.append_of_mem he
      rw [h.find?_parseExtra_split ht hc hk, find?_written_split _ _ t hk]
      rcases hm : (madeUp t).find? k with _ | v
      · rfl
      · rcases hu pre t post rfl k v hk hm with hlater | hearlier
        · obtain ⟨w, hw⟩ := SortedMap.mem_iff_find?.1 hlater
          rw [hw]
          rfl
        · rw [hearlier]
          rfl

end Fields

end

end DsdServer
