import DsdServer.Data.Path
import DsdServer.Server.KeyForms
import DsdServer.Server.KeyList
import DsdServer.Server.Requests

/-!
# Server/Query — the requests that remove keys

The explorer asks for the removal of a key with a path and a query string, in which it escapes the
network's name.  The server takes the string apart, reads the escapes back and removes what is filed
under the name.

* `queryParam_params` — **every parameter is read back**, however its bytes are escaped.
* `serveRemove_url` — **the key that is named goes, and no other**.
-/

open Bytes

namespace DsdServer

/-! ## Reading a query string

The query is cut at the separators, and the first parameter of a name counts.  Escapes of two hex
digits are undone, and a plus is a blank; what is no escape stands for itself. -/

/-- The byte that two hexadecimal digits spell. -/
def hexByte : Bytes → Option UInt8
  | a :: b :: _ =>
    if isXdigit a ∧
      isXdigit b then some (UInt8.ofNat (16 * mjson.digitVal a + mjson.digitVal b)) else none
  | _ => none

/-- Reads a value; the first `skip` bytes are an escape's. -/
def urlDecodeFrom : ℕ → Bytes → Bytes
  | _, [] => []
  | skip + 1, _ :: s => urlDecodeFrom skip s
  | 0, c :: s =>
    if c = ch '+' then ch ' ' :: urlDecodeFrom 0 s
    else
      match if c = ch '%' then hexByte s else none with
      | some b => b :: urlDecodeFrom 2 s
      | none => c :: urlDecodeFrom 0 s

/-- **A value with its escapes read**; what is no escape stays as it is. -/
def urlDecode (s : Bytes) : Bytes := urlDecodeFrom 0 s

/-- A parameter's name, and what stands after it. -/
def paramOf (kv : Bytes) : Bytes × Bytes := (cut (ch '=') kv).getD (kv, [])

/-- **The value of a parameter**, the first of its name; empty if there is none. -/
def queryParam (query key : Bytes) : Bytes :=
  match (split (ch '&') query).find? fun kv => (paramOf kv).1 = key with
  | some kv => urlDecode (paramOf kv).2
  | none => []

/-! ## Writing one

A browser may escape more than it has to.  So a spelling of a value is a relation: each byte as it
is, where it may be, or escaped in either case, and a blank also as a plus. -/

/-- What may stand for a string: a byte for itself, a plus sign for a blank, an escape for any
byte. -/
inductive Spells : Bytes → Bytes → Prop
  | nil : Spells [] []
  | plain {c : UInt8} {s v : Bytes} (hc : c ≠ ch '+' ∧ c ≠ ch '%') (h : Spells s v) :
    Spells (c :: s) (c :: v)
  | blank {s v : Bytes} (h : Spells s v) : Spells (ch '+' :: s) (ch ' ' :: v)
  | escape {a b : UInt8} {s v : Bytes} (ha : isXdigit a = true) (hb : isXdigit b = true)
    (h : Spells s v) :
    Spells (ch '%' :: a :: b :: s) (UInt8.ofNat (16 * mjson.digitVal a + mjson.digitVal b) :: v)

/-- A value, and how it is written. -/
structure Written where
  raw : Bytes
  value : Bytes
  raw_free : ch '&' ∉ raw
  spells : Spells raw value

/-- A parameter of a query string. -/
structure Param extends Written where
  name : Bytes
  name_free : ch '&' ∉ name ∧ ch '=' ∉ name

/-- A parameter as it is written. -/
def Param.text (p : Param) : Bytes := p.name ++ ch '=' :: p.raw

def queryText (ps : List Param) : Bytes := [ch '&'].intercalate (ps.map Param.text)

/-- What the page does not escape. -/
def isUnreserved (c : UInt8) : Bool := isAlnum c || (lit "-_.!~*'()").contains c

/-- A byte as the page escapes it. -/
def escaped (c : UInt8) : Bytes :=
  if isUnreserved c then [c]
  else [ch '%', hexDigitUpper (c.toNat / 16), hexDigitUpper (c.toNat % 16)]

/-- **A value as the page writes it.** -/
def encodeURIComponent (s : Bytes) : Bytes := s.flatMap escaped

/-! ## What is written is read

Every spelling of a value is read as the value.  Names are not unescaped by the reader, so they are
written plainly. -/

/-- **A value is read back**, whichever way it is written. -/
theorem Spells.urlDecode_eq {s v : Bytes} (h : Spells s v) : urlDecode s = v := by
  rw [urlDecode]
  induction h with
  | nil => rfl
  | plain hc _ ih =>
    rw [urlDecodeFrom, if_neg hc.1, if_neg hc.2]
    exact congrArg _ ih
  | blank _ ih =>
    rw [urlDecodeFrom, if_pos rfl]
    exact congrArg _ ih
  | escape ha hb _ ih =>
    rw [urlDecodeFrom, if_neg (by decide), if_pos rfl, hexByte, if_pos ⟨ha, hb⟩]
    exact congrArg _ ih

/-- A byte that is escaped is spelled. -/
theorem spells_escaped {s v : Bytes} (c : UInt8) (h : Spells s v) :
    Spells (escaped c ++ s) (c :: v) := by
  rw [escaped]
  by_cases hc : isUnreserved c = true
  · rw [if_pos hc]
    refine Spells.plain ⟨?_, ?_⟩ h
    · rintro rfl
      exact absurd hc (by decide)
    · rintro rfl
      exact absurd hc (by decide)
  · have hdigit : ∀ k : Fin 16, isXdigit (hexDigitUpper k) = true ∧
        mjson.digitVal (hexDigitUpper k) = k := by decide
    have hhi := hdigit ⟨c.toNat / 16, by have := c.toNat_lt; omega⟩
    have hlo := hdigit ⟨c.toNat % 16, by omega⟩
    have he := Spells.escape hhi.1 hlo.1 h
    rw [hhi.2, hlo.2, Nat.div_add_mod, UInt8.ofNat_toNat] at he
    rw [if_neg hc]
    exact he

/-- **The page's way of escaping is a spelling.** -/
theorem spells_encodeURIComponent (v : Bytes) : Spells (encodeURIComponent v) v := by
  induction v with
  | nil => exact Spells.nil
  | cons c v ih => exact spells_escaped c ih

/-- An escape does not end a parameter. -/
theorem not_mem_encodeURIComponent (v : Bytes) : ch '&' ∉ encodeURIComponent v := by
  rw [encodeURIComponent, List.mem_flatMap]
  rintro ⟨c, -, hc⟩
  rw [escaped] at hc
  split_ifs at hc with hu
  · rw [List.mem_singleton] at hc
    rw [← hc] at hu
    exact absurd hu (by decide)
  · have hdigit : ∀ k : Fin 16, hexDigitUpper k ≠ ch '&' := by decide
    simp only [List.mem_cons, List.not_mem_nil, or_false] at hc
    rcases hc with hc | hc | hc
    · exact absurd hc (by decide)
    · exact hdigit ⟨c.toNat / 16, by have := c.toNat_lt; omega⟩ hc.symm
    · exact hdigit ⟨c.toNat % 16, by omega⟩ hc.symm

/-- What was joined is cut apart again. -/
theorem split_intercalate {sep : UInt8} : ∀ {ps : List Bytes}, ps ≠ [] → (∀ p ∈ ps, sep ∉ p) →
    split sep ([sep].intercalate ps) = ps
  | [], h, _ => absurd rfl h
  | [p], _, hp => by
    rw [List.intercalate_singleton, split_of_not_mem (hp p List.mem_cons_self)]
  | p :: q :: ps, _, hp => by
    have ih := split_intercalate (List.cons_ne_nil q ps) fun x hx =>
      hp x (List.mem_cons_of_mem p hx)
    rw [List.intercalate_cons_cons, List.append_assoc, List.singleton_append, split_append_sep,
      split_of_not_mem (hp p List.mem_cons_self), ih, List.singleton_append]

namespace Param

/-- A parameter is read as it was written, still escaped. -/
theorem paramOf_text (p : Param) : paramOf p.text = (p.name, p.raw) := by
  rw [paramOf, text, cut_of_not_mem p.name_free.2]
  rfl

/-- No parameter has the separator in it. -/
theorem not_mem_text (p : Param) : ch '&' ∉ p.text := by
  rw [text, List.mem_append, List.mem_cons]
  rintro (h | h | h)
  · exact p.name_free.1 h
  · exact absurd h (by decide)
  · exact p.raw_free h

end Param

namespace Written

/-- What the page writes. -/
def encoded (value : Bytes) : Written where
  raw := encodeURIComponent value
  value := value
  raw_free := not_mem_encodeURIComponent value
  spells := spells_encodeURIComponent value

/-- A written value as a parameter. -/
def named (w : Written) (name : Bytes) (h : ch '&' ∉ name ∧ ch '=' ∉ name) : Param where
  toWritten := w
  name := name
  name_free := h

end Written

/-- The value of a parameter is the first one's of its name. -/
theorem queryParam_queryText (ps : List Param) (key : Bytes) :
    queryParam (queryText ps) key =
      ((ps.find? fun p => p.name = key).map fun p => p.value).getD [] := by
  rcases ps with _ | ⟨p, ps⟩
  · rw [queryParam, queryText]
    by_cases hk : ([] : Bytes) = key
    · subst hk
      rfl
    · simp [split, paramOf, cut, hk]
  · have hfree : ∀ t ∈ (p :: ps).map Param.text, ch '&' ∉ t := by
      intro t ht
      obtain ⟨p, -, rfl⟩ := List.mem_map.1 ht
      exact p.not_mem_text
    rw [queryParam, queryText, split_intercalate (by simp) hfree, List.find?_map]
    have hname : ((fun kv => decide ((paramOf kv).1 = key)) ∘ Param.text) = fun p : Param =>
        decide (p.name = key) := by
      funext p
      rw [Function.comp_apply, p.paramOf_text]
    rw [hname]
    cases (p :: ps).find? fun p => decide (p.name = key) with
    | none => rfl
    | some p =>
      change urlDecode (paramOf p.text).2 = p.value
      rw [p.paramOf_text, p.spells.urlDecode_eq]

/-- **Every parameter is read back**: the value of the first of its name, however its bytes are
escaped, and the empty string for one that is not there; and the page's own way of escaping is one
of them, for every value. -/
theorem queryParam_params :
    (∀ (ps : List Param) (key : Bytes),
      queryParam (queryText ps) key =
        ((ps.find? fun p => p.name = key).map fun p => p.value).getD []) ∧
    ∀ v : Bytes, Spells (encodeURIComponent v) v ∧ ch '&' ∉ encodeURIComponent v :=
  ⟨queryParam_queryText, fun v => ⟨spells_encodeURIComponent v, not_mem_encodeURIComponent v⟩⟩

example : queryParam (lit "net=cc%3A1%40440425000&fam=dmr+x") (lit "fam") = lit "dmr x" := by decide

/-! ## Removing a key

A removal that finds nothing is refused, and then the store stays as it is.  So the status of the
answer says whether there was something to remove. -/

/-- A family; DMR if none is named. -/
def orDmr (fam : Bytes) : Bytes := if fam = [] then lit "dmr" else fam

/-- **The requests that remove keys**, by their path; another path is another handler's. -/
def serveRemove (st : KeyStore) (target : Bytes) : Option (Response × KeyStore) :=
  let path := ((cut (ch '?') target).getD (target, [])).1
  let query := ((cut (ch '?') target).getD (target, [])).2
  if path = lit "/net/keys/remove" then
    some <| answer st <| st.removeKey (queryParam query (lit "fam")) (queryParam query (lit "net"))
      (queryParam query (lit "kid"))
  else if path = lit "/net/bp/remove" then
    some <| answer st <| st.removeBp (orDmr (queryParam query (lit "fam")))
      (queryParam query (lit "net"))
  else if netKeyRoute path (lit "remove") ≠ [] then
    some <| answer st <| st.removeNetKey (netKeyRoute path (lit "remove"))
      (orDmr (queryParam query (lit "fam")))
      (queryParam query (lit "net"))
  else none

/-- A removal that is asked for; the browser may write the values as it likes. -/
inductive Removal
  | key (fam net kid : Written)
  | bp (fam net : Written)
  | netKey (kind : {k : NetKeyKind // k ∈ netKeyKinds}) (fam net : Written)

/-- What a key is filed under. -/
inductive KeyName
  | key (fam net id : Bytes)
  | bp (fam net : Bytes)
  | netKey (kind fam net : Bytes)
  deriving DecidableEq

/-- What is filed under a name. -/
def KeyStore.filed (st : KeyStore) : KeyName → Option (KeyEntry ⊕ ℤ ⊕ Bytes)
  | .key fam net id => (((st.keys.getD fam ∅).getD net ∅).find? id).map Sum.inl
  | .bp fam net => ((st.bp.getD fam ∅).find? net).map fun n => Sum.inr (Sum.inl n)
  | .netKey kind fam net => ((st.netKeysOf kind fam).find? net).map fun v => Sum.inr (Sum.inr v)

namespace Removal

/-- The address that is fetched. -/
def url : Removal → Bytes
  | key fam net kid => lit "/net/keys/remove" ++ ch '?' :: queryText
      [fam.named (lit "fam") (by decide), net.named (lit "net") (by decide),
        kid.named (lit "kid") (by decide)]
  | bp fam net => lit "/net/bp/remove" ++ ch '?' :: queryText
      [fam.named (lit "fam") (by decide), net.named (lit "net") (by decide)]
  | netKey kind fam net => lit "/net/" ++ kind.1.id ++ lit "/remove" ++ ch '?' :: queryText
      [fam.named (lit "fam") (by decide), net.named (lit "net") (by decide)]

example : url (bp (.encoded (lit "dmr")) (.encoded (lit "cc:1@440425000"))) =
    lit "/net/bp/remove?fam=dmr&net=cc%3A1%40440425000" := by decide

/-- What it is about. -/
def name : Removal → KeyName
  | key fam net kid => .key fam.value net.value (keyNormId kid.value)
  | bp fam net => .bp (orDmr fam.value) net.value
  | netKey kind fam net => .netKey kind.1.id (orDmr fam.value) net.value

/-- What the server is to do. -/
def apply (st : KeyStore) : Removal → Option KeyStore
  | key fam net kid => st.removeKey fam.value net.value kid.value
  | bp fam net => st.removeBp (orDmr fam.value) net.value
  | netKey kind fam net => st.removeNetKey kind.1.id (orDmr fam.value) net.value

end Removal

/-- The paths of the per-network keys are none of the others. -/
theorem path_netKey : ∀ k ∈ netKeyKinds, ch '?' ∉ lit "/net/" ++ k.id ++ lit "/remove" ∧
    lit "/net/" ++ k.id ++ lit "/remove" ≠ lit "/net/keys/remove" ∧
    lit "/net/" ++ k.id ++ lit "/remove" ≠ lit "/net/bp/remove" ∧
    netKeyRoute (lit "/net/" ++ k.id ++ lit "/remove") (lit "remove") = k.id ∧
      k.id ≠ [] := by decide

/-- **What is asked for reaches the keyring**: the names are those the page has. -/
theorem serveRemove_eq (st : KeyStore) (r : Removal) :
    serveRemove st r.url = some (answer st (r.apply st)) := by
  rw [serveRemove]
  cases r with
  | key fam net kid =>
    rw [Removal.url, cut_of_not_mem (by decide)]
    dsimp only [Option.getD_some]
    rw [if_pos rfl, queryParam_queryText, queryParam_queryText, queryParam_queryText]
    rfl
  | bp fam net =>
    rw [Removal.url, cut_of_not_mem (by decide)]
    dsimp only [Option.getD_some]
    rw [if_neg (by decide), if_pos rfl, queryParam_queryText, queryParam_queryText]
    rfl
  | netKey kind fam net =>
    obtain ⟨hq, hkeys, hbp, hroute, hid⟩ := path_netKey kind.1 kind.2
    rw [Removal.url, cut_of_not_mem hq]
    dsimp only [Option.getD_some]
    rw [if_neg hkeys, if_neg hbp, if_pos fun h => hid (hroute.symm.trans h), hroute,
      queryParam_queryText, queryParam_queryText]
    rfl

/-- **A key that is in the ring is removed**, and no other is. -/
theorem keyringRemove_eq (r : KeyRing) (fam net kid : Bytes) : keyringRemove r fam net kid =
    if keyNormId kid ∈ (r.getD fam ∅).getD net ∅ then
      some (r.replace fam
        ((r.getD fam ∅).replace net (((r.getD fam ∅).getD net ∅).erase (keyNormId kid))))
    else none := by
  rw [keyringRemove]
  cases hf : r.find? fam with
  | none =>
    rw [SortedMap.getD_of_not_mem (SortedMap.find?_eq_none_iff.1 hf)]
    exact (if_neg (SortedMap.not_mem_empty _)).symm
  | some f =>
    rw [SortedMap.getD_of_find? hf]
    dsimp only
    cases hn : f.find? net with
    | none =>
      rw [SortedMap.getD_of_not_mem (SortedMap.find?_eq_none_iff.1 hn)]
      exact (if_neg (SortedMap.not_mem_empty _)).symm
    | some n =>
      rw [SortedMap.getD_of_find? hn]
      exact ite_not ..

/-- The same for a Basic Privacy number. -/
theorem removeBp_eq (st : KeyStore) (fam net : Bytes) : st.removeBp fam net =
    if net ∈ st.bp.getD fam ∅ then
      some
        { st with
          bp := st.bp.replace fam ((st.bp.getD fam ∅).erase net)
          version := st.version + 1 }
    else none := by
  rw [KeyStore.removeBp]
  cases hf : st.bp.find? fam with
  | none =>
    rw [SortedMap.getD_of_not_mem (SortedMap.find?_eq_none_iff.1 hf)]
    exact (if_neg (SortedMap.not_mem_empty _)).symm
  | some f =>
    rw [SortedMap.getD_of_find? hf]
    exact ite_not ..

/-- What an inner map has, when one entry of it goes. -/
theorem find?_replace_erase {V : Type} (m : SortedMap Bytes (SortedMap Bytes V))
    (fam net f n : Bytes) :
    ((m.replace fam ((m.getD fam ∅).erase net)).getD f ∅).find? n =
      if f = fam ∧ n = net then none else (m.getD f ∅).find? n := by
  rw [SortedMap.getD_replace]
  by_cases hf : f = fam
  · rw [if_pos hf, SortedMap.find?_erase, hf]
    by_cases hn : n = net <;> simp [hn]
  · rw [if_neg hf, if_neg fun h => hf h.1]

theorem isSome_of_mem {V : Type} {m : SortedMap Bytes V} {k : Bytes} (h : k ∈ m) :
    (m.find? k).isSome :=
  SortedMap.contains_iff.2 h

/-- **A removal that is carried out** takes what is filed under its name, and nothing else. -/
theorem filed_apply {st st' : KeyStore} {r : Removal} (h : r.apply st = some st') :
    (st.filed r.name).isSome ∧ ∀ n, st'.filed n = if n = r.name then none else st.filed n := by
  cases r with
  | key fam net kid =>
    rw [Removal.apply, KeyStore.removeKey, keyringRemove_eq] at h
    split_ifs at h with hin
    swap
    · cases h
    rw [Option.map_some, Option.some.injEq] at h
    subst h
    refine ⟨by simpa [KeyStore.filed, Removal.name] using isSome_of_mem hin, fun n => ?_⟩
    cases n with
    | key f m i =>
      simp only [KeyStore.filed, Removal.name, KeyName.key.injEq, SortedMap.getD_replace]
      by_cases hf : f = fam.value
      · by_cases hm : m = net.value
        · by_cases hi : i = keyNormId kid.value <;>
            simp [hf, hm, hi, SortedMap.getD_replace, SortedMap.find?_erase]
        · simp [hf, hm, SortedMap.getD_replace]
      · simp [hf]
    | bp f m => simp [KeyStore.filed, Removal.name]
    | netKey k f m => simp [KeyStore.filed, Removal.name, KeyStore.netKeysOf]
  | bp fam net =>
    rw [Removal.apply, removeBp_eq] at h
    split_ifs at h with hin
    rw [Option.some.injEq] at h
    subst h
    refine ⟨by simpa [KeyStore.filed, Removal.name] using isSome_of_mem hin, fun n => ?_⟩
    cases n with
    | key f m i => simp [KeyStore.filed, Removal.name]
    | bp f m =>
      simp only [KeyStore.filed, Removal.name, KeyName.bp.injEq, find?_replace_erase]
      split_ifs <;> rfl
    | netKey k f m => simp [KeyStore.filed, Removal.name, KeyStore.netKeysOf]
  | netKey kind fam net =>
    rw [Removal.apply, KeyStore.removeNetKey] at h
    split_ifs at h with hin
    rw [Option.some.injEq] at h
    subst h
    obtain ⟨hkeys, hbp⟩ := st.keys_eraseNetKey kind.1.id (orDmr fam.value) net.value
    refine ⟨by simpa [KeyStore.filed, Removal.name] using isSome_of_mem hin, fun n => ?_⟩
    cases n with
    | key f m i => simp [KeyStore.filed, Removal.name, hkeys]
    | bp f m => simp [KeyStore.filed, Removal.name, hbp]
    | netKey k f m =>
      have he := st.netKeysOf_eraseNetKey kind.1.id (orDmr fam.value) net.value k f
      simp only [KeyStore.filed, Removal.name, KeyName.netKey.injEq]
      change
        (((st.eraseNetKey kind.1.id (orDmr fam.value) net.value).netKeysOf k f).find? m).map _ = _
      rw [he]
      by_cases hk : k = kind.1.id ∧ f = orDmr fam.value
      · obtain ⟨rfl, rfl⟩ := hk
        by_cases hm : m = net.value <;> simp [hm, SortedMap.find?_erase]
      · rw [if_neg hk, if_neg fun hc => hk ⟨hc.1, hc.2.1⟩]

/-- A removal that is refused is of something that is not filed. -/
theorem filed_of_apply {st : KeyStore} {r : Removal} (h : r.apply st = none) :
    st.filed r.name = none := by
  cases r with
  | key fam net kid =>
    rw [Removal.apply, KeyStore.removeKey, keyringRemove_eq] at h
    split_ifs at h with hin
    · cases h
    · simpa [KeyStore.filed, Removal.name] using SortedMap.find?_eq_none_iff.2 hin
  | bp fam net =>
    rw [Removal.apply, removeBp_eq] at h
    split_ifs at h with hin
    simpa [KeyStore.filed, Removal.name] using SortedMap.find?_eq_none_iff.2 hin
  | netKey kind fam net =>
    rw [Removal.apply, KeyStore.removeNetKey] at h
    split_ifs at h with hin
    simpa [KeyStore.filed, Removal.name] using SortedMap.find?_eq_none_iff.2 hin

/-- **The key that is named goes, and no other**: the request is answered as one that is carried out
exactly when there is such a key, and then nothing is filed under its name and everything else is
filed as before. -/
theorem serveRemove_url (st : KeyStore) (r : Removal) :
    ∃ res st', serveRemove st r.url = some (res, st') ∧
    (res.status = 200 ↔ (st.filed r.name).isSome) ∧ (res.status ≠ 200 → st' = st) ∧
      ∀ n, st'.filed n = if n = r.name then none else st.filed n := by
  refine ⟨_, _, serveRemove_eq st r, ?_⟩
  cases h : r.apply st with
  | none =>
    have hnone := filed_of_apply h
    refine ⟨by simp [hnone], fun _ => rfl, fun n => ?_⟩
    change st.filed n = _
    split_ifs with hn
    · rw [hn, hnone]
    · rfl
  | some st' =>
    obtain ⟨hsome, hall⟩ := filed_apply h
    exact ⟨by simp [hsome], fun hne => absurd rfl hne, hall⟩

end DsdServer
