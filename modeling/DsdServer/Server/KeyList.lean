import DsdServer.Data.Path
import DsdServer.Server.KeyForms

/-!
# Server/KeyList — the key list a decoder is handed

The list has a line for each key id, and the decoder reads it from top to bottom: a later line for
an id takes the place of an earlier one.  A fallback key is listed first, for every id of two
digits, and the keyring's keys after it.  The ring may hold an id on several networks, and the first
is listed.

* `KeyRing.Normal.run` — whatever is entered, removed and loaded, ids and keys are in normal form.
* `key_list_read` — **reading the list gives each id the ring's key, or else the fallback key.**

The reader keeps the last line for a number and the writer lists an id once, so what is read is
found in two steps: among the rows of the ring, where there is at most one for each number, and else
among those of the fallback key.
-/

open Bytes

namespace DsdServer

/-! ## Writing

A key longer than sixteen digits takes several columns.  An id that comes up twice, in two networks
of the family, is listed once. -/

/-- A key in columns of 16 digits. -/
def keyColumns (v : Bytes) : Bytes :=
  (List.range ((v.length + 15) / 16)).flatMap fun i => ch ',' :: (v.drop (16 * i)).take 16

/-- One line of the list. -/
def keyRow (id v : Bytes) : Bytes := id ++ keyColumns v ++ [10]

/-- The line the list begins with. -/
def csvHeader : Bytes := lit "KEY ID,KEY" ++ [10]

/-- A key is listed unless its id is. -/
def emitKey (a : SortedSet Bytes × Bytes) (ik : Bytes × KeyEntry) : SortedSet Bytes × Bytes :=
  if ik.1 ∈ a.1 then a else (a.1.add ik.1, a.2 ++ keyRow ik.1 ik.2.value)

/-- **The keyring's keys** for a protocol, or for all of them. -/
def keyringCsvFamily (r : KeyRing) (fam : Bytes) : Bytes :=
  ((r.entries.filter fun fk => fam = [] || fk.1 = fam).foldl (fun a fk =>
    fk.2.entries.foldl (fun a nk => nk.2.entries.foldl emitKey a) a) (∅, csvHeader)).2

/-- A digit in upper-case hexadecimal. -/
def hexDigitUpper (n : ℕ) : UInt8 :=
  if n < 10 then ch '0' + UInt8.ofNat n else ch 'A' + UInt8.ofNat (n - 10)

/-- The two digits of a key id below 256. -/
def shortId (k : ℕ) : Bytes := [hexDigitUpper (k / 16), hexDigitUpper (k % 16)]

/-- **The list for a stream**: the fallback key for every id of two digits, then the keyring's. -/
def keysCsvStream (r : KeyRing) (fam ep : Bytes) : Bytes :=
  let csv := keyringCsvFamily r fam
  if ep = [] then csv
  else
    let fill :=
      (List.range 256).foldl (fun fill k => fill ++ (shortId k ++ ch ',' :: ep ++ [10])) csvHeader
    fill ++ csv.drop (if csvHeader.isPrefixOf csv then csvHeader.length else 0)

/-! ## Reading -/

/-- A key id as a number. -/
def hexNumber (s : Bytes) : ℕ := s.foldl (fun n c => 16 * n + mjson.digitVal c) 0

/-- A line of the list: the id's key, all its columns together. -/
def readKeyLine (m : SortedMap ℕ Bytes) (line : Bytes) : SortedMap ℕ Bytes :=
  match split (ch ',') line with
  | id :: cols => m.insert (hexNumber id) cols.flatten
  | [] => m

/-- **The list, read from top to bottom**; its first line names the columns. -/
def readKeyList (csv : Bytes) : SortedMap ℕ Bytes :=
  ((split 10 csv).tail.filter (· ≠ [])).foldl readKeyLine ∅

/-! ## Key ids as numbers

The decoder reads an id as a hexadecimal number, so two ids that differ in zeros in front are one.
The normal form leaves one spelling for each number. -/

theorem digitVal_lt {c : UInt8} (h : UpperHex c) : mjson.digitVal c < 16 := by
  have := h.1
  rwa [isXdigit, decide_eq_true_iff] at this

/-- Upper-case hex digits of one value are one digit. -/
theorem digitVal_injective {c d : UInt8} (hc : UpperHex c) (hd : UpperHex d)
    (h : mjson.digitVal c = mjson.digitVal d) : c = d := by
  have hval : ∀ c : UInt8, UpperHex c →
      c = if mjson.digitVal c < 10 then UInt8.ofNat (48 + mjson.digitVal c)
        else UInt8.ofNat (55 + mjson.digitVal c) := fun c =>
    forall_byte (P := fun c => UpperHex c → c = if mjson.digitVal c < 10
      then UInt8.ofNat (48 + mjson.digitVal c) else UInt8.ofNat (55 + mjson.digitVal c))
      (by decide +kernel) c
  rw [hval c hc, hval d hd, h]

theorem hexNumber_append (s : Bytes) (c : UInt8) :
    hexNumber (s ++ [c]) = 16 * hexNumber s + mjson.digitVal c := by
  rw [hexNumber, List.foldl_append]
  rfl

/-- As many digits spell a number once. -/
theorem hexNumber_injective_of_length {s t : Bytes} (hs : UpperHexes s) (ht : UpperHexes t)
    (hlen : s.length = t.length) (h : hexNumber s = hexNumber t) : s = t := by
  induction s using List.reverseRecOn generalizing t with
  | nil => exact (List.length_eq_zero_iff.1 hlen.symm).symm
  | append_singleton s c ih =>
    rcases List.eq_nil_or_concat t with rfl | ⟨t, d, rfl⟩
    · simp at hlen
    rw [List.concat_eq_append] at ht hlen h ⊢
    have hc := hs c (by simp)
    have hd := ht d (by simp)
    rw [hexNumber_append, hexNumber_append] at h
    have h₁ := digitVal_lt hc
    have h₂ := digitVal_lt hd
    have hst := ih (fun c hc => hs c (List.mem_append_left _ hc))
      (fun c hc => ht c (List.mem_append_left _ hc)) (by simpa using hlen) (by omega)
    rw [hst, digitVal_injective hc hd (by omega)]

/-- Zeros in front make no difference. -/
theorem hexNumber_zeros (n : ℕ) (s : Bytes) :
    hexNumber (List.replicate n (ch '0') ++ s) = hexNumber s := by
  rw [hexNumber, List.foldl_append]
  refine congrArg (fun a => s.foldl _ a) ?_
  induction n with
  | zero => rfl
  | succ n ih =>
    rw [List.replicate_succ, List.foldl_cons]
    exact ih

/-- A key id in normal form. -/
def NormalId (id : Bytes) : Prop := keyNormId id = id ∧ id ≠ []

/-- A normal id is hex digits, with no more zeros in front than make up two digits. -/
theorem NormalId.form {id : Bytes} (h : NormalId id) :
    UpperHexes id ∧ id = padded 2 (id.dropWhile (· = ch '0')) := by
  have hne : keyNormId id ≠ [] := h.1.symm ▸ h.2
  have hcond : ¬(unmarked id = [] ∨ (!(unmarked id).all isXdigit) = true) :=
    fun hc => hne (if_pos hc)
  have hid : keyNormId id = padded 2 ((upper (unmarked id)).dropWhile (· = ch '0')) := if_neg hcond
  rw [not_or, Bool.not_eq_true, Bool.not_eq_false'] at hcond
  have hup : UpperHexes id := by
    rw [← h.1, hid]
    exact upperHexes_padded (fun c hc => upperHexes_upper hcond.2 c (List.dropWhile_subset _ hc)) 2
  refine ⟨hup, ?_⟩
  rw [hup.unmarked_eq, hup.upper_eq] at hid
  exact h.1.symm.trans hid

/-- **Ids in normal form are the same as text and as numbers.** -/
theorem NormalId.injective {s t : Bytes} (hs : NormalId s) (ht : NormalId t)
    (h : hexNumber s = hexNumber t) : s = t := by
  obtain ⟨hus, hps⟩ := hs.form
  obtain ⟨hut, hpt⟩ := ht.form
  have hzero : UpperHex (ch '0') := by decide
  have hpad : ∀ {s : Bytes}, UpperHexes s → ∀ n, UpperHexes (List.replicate n (ch '0') ++ s) := by
    intro s hs n c hc
    rcases List.mem_append.1 hc with hc | hc
    · exact List.eq_of_mem_replicate hc ▸ hzero
    · exact hs c hc
  have heq : List.replicate t.length (ch '0') ++ s = List.replicate s.length (ch '0') ++ t := by
    refine hexNumber_injective_of_length (hpad hus _) (hpad hut _) ?_ ?_
    · simp [Nat.add_comm]
    · rw [hexNumber_zeros, hexNumber_zeros, h]
  have hdrop : ∀ (n : ℕ) (s : Bytes), (List.replicate n (ch '0') ++ s).dropWhile (· = ch '0') =
      s.dropWhile (· = ch '0') := fun n s =>
    List.dropWhile_append_of_pos fun c hc => decide_eq_true (List.eq_of_mem_replicate hc)
  rw [hps, hpt, ← hdrop t.length s, heq, hdrop]

/-! ## A line, written and read

Neither an id nor a column has a comma or a line break in it, so cutting a line at its commas gives
the columns back. -/

/-- A hex digit is no separator of the list. -/
theorem UpperHex.not_sep {c : UInt8} (h : UpperHex c) : c ≠ ch ',' ∧ c ≠ 10 := by
  revert h
  exact forall_byte (P := fun c => UpperHex c → c ≠ ch ',' ∧ c ≠ 10) (by decide +kernel) c

/-- Hex digits have no separator among them. -/
theorem UpperHexes.not_mem {s : Bytes} (h : UpperHexes s) : ch ',' ∉ s ∧ (10 : UInt8) ∉ s :=
  ⟨fun hm => (h _ hm).not_sep.1 rfl, fun hm => (h _ hm).not_sep.2 rfl⟩

/-- Put together, the columns of a value are the value. -/
theorem flatten_columns (v : Bytes) (m : ℕ) :
    ((List.range m).map fun i => (v.drop (16 * i)).take 16).flatten = v.take (16 * m) := by
  induction m with
  | zero => rfl
  | succ m ih =>
    rw [List.range_succ, List.map_append, List.flatten_append, ih, Nat.mul_succ, List.take_add]
    simp

/-- A line is cut into its id and its columns. -/
theorem split_columns {id : Bytes} {sep : UInt8} (hid : sep ∉ id) {cols : List Bytes}
    (hc : ∀ c ∈ cols, sep ∉ c) : split sep (id ++ cols.flatMap fun c => sep :: c) = id :: cols := by
  induction cols generalizing id with
  | nil => rw [List.flatMap_nil, List.append_nil, split_of_not_mem hid]
  | cons c cols ih =>
    rw [List.flatMap_cons, List.cons_append, split_append_sep, split_of_not_mem hid,
      ih (hc c List.mem_cons_self) fun c' hc' => hc c' (List.mem_cons_of_mem c hc')]
    rfl

/-- A line is read as its columns together. -/
theorem readKeyLine_columns {id : Bytes} (hid : UpperHexes id) {cols : List Bytes}
    (hc : ∀ c ∈ cols, UpperHexes c) (m : SortedMap ℕ Bytes) :
    readKeyLine m (id ++ cols.flatMap fun c => ch ',' :: c) = m.insert
      (hexNumber id) cols.flatten := by
  rw [readKeyLine, split_columns hid.not_mem.1 fun c h => (hc c h).not_mem.1]

/-- The columns of hex digits are hex digits. -/
theorem UpperHexes.of_columns {v : Bytes} (hv : UpperHexes v) {m : ℕ} {c : Bytes}
    (hc : c ∈ (List.range m).map fun i => (v.drop (16 * i)).take 16) : UpperHexes c := by
  obtain ⟨i, -, rfl⟩ := List.mem_map.1 hc
  exact fun x hx => hv x (List.mem_of_mem_drop (List.mem_of_mem_take hx))

/-- The columns of a value, sixteen digits each, with a comma before each. -/
theorem keyColumns_eq (v : Bytes) : keyColumns v = ((List.range ((v.length + 15) / 16)).map fun i =>
    (v.drop (16 * i)).take 16).flatMap fun c => ch ',' :: c := by
  rw [List.flatMap_map]
  rfl

/-- A key's line is read as the key. -/
theorem readKeyLine_row {id v : Bytes} (hid : UpperHexes id) (hv : UpperHexes v)
    (m : SortedMap ℕ Bytes) :
    readKeyLine m (id ++ keyColumns v) = m.insert (hexNumber id) v := by
  have hflat := flatten_columns v ((v.length + 15) / 16)
  rw [List.take_of_length_le (by omega)] at hflat
  rw [keyColumns_eq, readKeyLine_columns hid fun c hc => hv.of_columns hc, hflat]

/-- Lines, each ended. -/
def unlines (rows : List Bytes) : Bytes := rows.flatMap (· ++ [10])

/-- A line of the list, without its end. -/
def IsRow (line : Bytes) : Prop := line ≠ [] ∧ (10 : UInt8) ∉ line

/-- **A list is read line by line.** -/
theorem readKeyList_unlines {rows : List Bytes} (h : ∀ l ∈ rows, IsRow l) :
    readKeyList (csvHeader ++ unlines rows) = rows.foldl readKeyLine ∅ := by
  have hsplit : ∀ {rows : List Bytes}, (∀ l ∈ rows, IsRow l) →
      split 10 (unlines rows) = rows ++ [[]] := by
    intro rows
    induction rows with
    | nil => exact fun _ => rfl
    | cons l rows ih =>
      intro h
      have hl : unlines (l :: rows) = l ++ 10 :: unlines rows := by
        rw [unlines, List.flatMap_cons, List.append_assoc]
        rfl
      rw [hl, split_append_sep, split_of_not_mem (h l List.mem_cons_self).2,
        ih fun l' hl' => h l' (List.mem_cons_of_mem l hl')]
      rfl
  have hhead : csvHeader ++ unlines rows = lit "KEY ID,KEY" ++ 10 :: unlines rows := by
    rw [csvHeader, List.append_assoc]
    rfl
  have hfilter : rows.filter (· ≠ []) = rows :=
    List.filter_eq_self.2 fun l hl => decide_eq_true (h l hl).1
  rw [readKeyList, hhead, split_append_sep, split_of_not_mem (by decide +kernel),
    List.singleton_append, List.tail_cons, hsplit h, List.filter_append, hfilter]
  exact congrArg (·.foldl readKeyLine ∅) (List.append_nil rows)

/-! ## The ring in normal form -/

/-- A key of the ring in normal form. -/
def NormalKey (id : Bytes) (e : KeyEntry) : Prop :=
  NormalId id ∧ keyNormValue e.value = e.value ∧ e.value ≠ []

/-- **A ring in normal form**, without an empty map in it. -/
def KeyRing.Normal (r : KeyRing) : Prop :=
  SortedMap.Each (fun _ => SortedMap.Full fun _ => SortedMap.Full NormalKey) r

/-- The value of a normal key is of hex digits. -/
theorem NormalKey.value {id : Bytes} {e : KeyEntry} (h : NormalKey id e) : UpperHexes e.value := by
  have hne : keyNormValue e.value ≠ [] := h.2.1.symm ▸ h.2.2
  have hcond : ¬(strip e.value = [] ∨ (!(strip e.value).all isXdigit) = true ∨
      (strip e.value).length % 2 ≠ 0 ∨ 64 < (strip e.value).length) := fun hc => hne (if_pos hc)
  have hv : keyNormValue e.value = upper (strip e.value) := if_neg hcond
  rw [not_or, not_or, Bool.not_eq_true, Bool.not_eq_false'] at hcond
  rw [← h.2.1, hv]
  exact upperHexes_upper hcond.2.1

/-- A request that changes the keys, or a keys file taken in. -/
inductive KeyInput
  | op (op : KeyOp)
  | load (text : Bytes)

/-- The keys after one more input; a file that is not an object leaves them. -/
def KeyStore.input (st : KeyStore) : KeyInput → KeyStore
  | .op op => st.step op
  | .load text => (useKeysFile st text).getD st

namespace KeyRing.Normal

theorem empty : KeyRing.Normal ∅ := SortedMap.each_empty

theorem put {r : KeyRing} (h : r.Normal) (fam net : Bytes) {id : Bytes} {e : KeyEntry}
    (he : NormalKey id e) :
    KeyRing.Normal (DsdServer.put r fam net (((r.getD fam ∅).getD net ∅).insert id e)) := by
  have hf := SortedMap.Each.getD_full (Q := fun _ _ => SortedMap.Full NormalKey) h fam
  have hn := hf.getD_full (Q := fun _ => NormalKey) net
  exact each_put h (hn.full_insert he)

theorem step {st : KeyStore} (h : st.keys.Normal) (op : KeyOp) : (st.step op).keys.Normal := by
  have hforced : ∀ (l : List NetKeyKind) (st : KeyStore) (fam net : Bytes),
      (l.foldl (fun st o => st.eraseNetKey o.id fam net) st).keys = st.keys := by
    intro l
    induction l with
    | nil => exact fun _ _ _ => rfl
    | cons o l ih =>
      intro st fam net
      rw [List.foldl_cons, ih, (KeyStore.keys_eraseNetKey st o.id fam net).1]
  cases op with
  | setKey fam net kid alg value now =>
    rw [KeyStore.step, KeyStore.setKey, keyringSet]
    split_ifs with h₁ h₂
    · exact h
    · exact h
    · rw [not_or] at h₂
      exact h.put fam net ⟨⟨keyNormId_fixed kid, h₂.1⟩, keyNormValue_fixed value, h₂.2⟩
  | removeKey fam net kid =>
    rw [KeyStore.step, KeyStore.removeKey, keyringRemove]
    rcases hf : st.keys.find? fam with _ | f
    · exact h
    dsimp only
    rcases hn : f.find? net with _ | n
    · exact h
    dsimp only
    split_ifs
    · have hfull := (h fam f hf).each
      have hkeys : (n.erase (keyNormId kid)).Each NormalKey := (hfull net n hn).each.erase _
      exact SortedMap.Each.replace (Q := fun _ _ => SortedMap.Full NormalKey) h
        (hfull.replace (Q := fun _ => NormalKey) hkeys)
    · exact h
  | setBp fam net number =>
    rw [KeyStore.step, KeyStore.setBp]
    split_ifs <;> exact h
  | removeBp fam net =>
    rw [KeyStore.step, KeyStore.removeBp]
    rcases st.bp.find? fam with _ | f
    · exact h
    · dsimp only
      split_ifs <;> exact h
  | setNetKey kind fam net value =>
    rw [KeyStore.step, KeyStore.setNetKey]
    rcases netKeyKind kind with _ | k
    · exact h
    · dsimp only
      split_ifs
      · exact h
      · have hk : (st.dropForced kind fam net).keys = st.keys := hforced _ st fam net
        change (st.dropForced kind fam net).keys.Normal
        rw [hk]
        exact h
      · exact h
  | removeNetKey kind fam net =>
    rw [KeyStore.step, KeyStore.removeNetKey]
    split_ifs
    · change (st.eraseNetKey kind fam net).keys.Normal
      rw [(KeyStore.keys_eraseNetKey st kind fam net).1]
      exact h
    · exact h

theorem keyringParse (root : mjson.V) : (keyringParse root).Normal := by
  have hread : ∀ (fam net : Bytes) (r : KeyRing) (ik : Bytes × mjson.V), r.Normal →
      (readKey fam net r ik).Normal := by
    intro fam net r ik h
    rw [readKey]
    split
    · dsimp only
      split_ifs with hc
      · exact h
      · rw [not_or] at hc
        exact h.put fam net ⟨⟨keyNormId_fixed _, hc.1⟩, keyNormValue_fixed _, hc.2⟩
    · exact h
  refine List.foldlRecOn _ _ empty fun r hr fk _ => ?_
  refine List.foldlRecOn _ _ hr fun r hr nk _ => ?_
  exact List.foldlRecOn _ _ hr fun r hr ik _ => hread fk.1 nk.1 r ik hr

theorem input {st : KeyStore} (h : st.keys.Normal) (i : KeyInput) : (st.input i).keys.Normal := by
  rcases i with op | text
  · exact h.step op
  · rw [KeyStore.input, useKeysFile]
    split
    · exact h
    · split_ifs
      · exact h
      · exact .keyringParse _

/-- **Whatever is entered, removed and loaded**, the ring is in normal form. -/
theorem run {is : List KeyInput} : ∀ {st : KeyStore}, st.keys.Normal →
    (is.foldl KeyStore.input st).keys.Normal := by
  induction is with
  | nil => exact fun h => h
  | cons i is ih => exact fun h => ih (h.input i)

end KeyRing.Normal

/-! ## The fallback keys in normal form -/

/-- The networks' keys of each kind are in normal form. -/
def KeyStore.FormedSecrets (st : KeyStore) : Prop :=
  st.netKeys.Each fun kind => SortedMap.Full fun _ => SortedMap.Full fun _ => NormalSecret kind

namespace KeyStore.FormedSecrets

variable {st : KeyStore}

/-- The forced keys that go leave the rest in form. -/
theorem dropForced (h : st.FormedSecrets) (kind fam net : Bytes) :
    (st.dropForced kind fam net).FormedSecrets :=
  List.foldlRecOn _ _ h fun _ h o _ => each_eraseNetKey h o.id fam net

theorem step (h : st.FormedSecrets) (op : KeyOp) : (st.step op).FormedSecrets := by
  cases op with
  | setKey fam net kid alg value now =>
    rw [KeyStore.step, KeyStore.setKey]
    rcases keyringSet st.keys fam net kid alg value now with _ | r
    · exact h
    · exact h
  | removeKey fam net kid =>
    rw [KeyStore.step, KeyStore.removeKey]
    rcases keyringRemove st.keys fam net kid with _ | r
    · exact h
    · exact h
  | setBp fam net number =>
    rw [KeyStore.step, KeyStore.setBp]
    split_ifs <;> exact h
  | removeBp fam net =>
    rw [KeyStore.step, KeyStore.removeBp]
    rcases st.bp.find? fam with _ | f
    · exact h
    · dsimp only
      split_ifs <;> exact h
  | setNetKey kind fam net value =>
    rw [KeyStore.step, KeyStore.setNetKey]
    obtain ⟨o, hk⟩ : ∃ o, netKeyKind kind = o := ⟨_, rfl⟩
    rw [hk]
    rcases o with _ | k
    · exact h
    have hput : ∀ {st : KeyStore}, st.FormedSecrets → netKeyNorm k value ≠ [] → ({ st with
        netKeys :=
          st.netKeys.insert kind (put (st.netKeys.getD kind ∅) fam net (netKeyNorm k value))
        version := st.version + 1 } : KeyStore).FormedSecrets := by
      intro st h hv
      have hm := SortedMap.Each.getD_full
        (Q := fun kind _ => SortedMap.Full fun _ => NormalSecret kind) h kind
      have hf := hm.getD_full (Q := fun _ _ => NormalSecret kind) fam
      exact SortedMap.Each.insert h
        (hm.full_insert (hf.full_insert ⟨k, hk, netKeyNorm_fixed k value, hv⟩))
    dsimp only
    split_ifs with h₁ h₂
    · exact h
    · rw [not_or, not_or] at h₁
      exact hput (h.dropForced kind fam net) h₁.2.2
    · rw [not_or, not_or] at h₁
      exact hput h h₁.2.2
  | removeNetKey kind fam net =>
    rw [KeyStore.step, KeyStore.removeNetKey]
    split_ifs
    · exact each_eraseNetKey h kind fam net
    · exact h

/-- What is read from a file is in form. -/
theorem netSecretsParse {kind : Bytes} {k : NetKeyKind} (hk : netKeyKind kind = some k)
    (v : Option mjson.V) :
    (netSecretsParse v k).Each fun _ => SortedMap.Full fun _ => NormalSecret kind := by
  refine List.foldlRecOn _ _ SortedMap.each_empty fun m hm fk _ => ?_
  refine List.foldlRecOn _ _ hm fun m hm nk _ => ?_
  rw [readSecret]
  split
  · rename_i s _
    split_ifs with hv
    · exact hm
    · exact each_put hm ⟨k, hk, netKeyNorm_fixed k s, hv⟩
  · exact hm

/-- What is entered or loaded keeps it. -/
theorem input (h : st.FormedSecrets) (i : KeyInput) : (st.input i).FormedSecrets := by
  rcases i with op | text
  · exact h.step op
  · rw [KeyStore.input, useKeysFile]
    split
    · exact h
    · split_ifs
      · exact h
      · refine List.foldlRecOn _ _ SortedMap.each_empty fun m hm k hk => ?_
        dsimp only
        split_ifs with he
        · exact hm
        · have hkind : ∀ k ∈ netKeyKinds, netKeyKind k.id = some k := by decide
          exact SortedMap.Each.insert hm ⟨fun h => he (SortedMap.isEmpty_eq_true_iff.2 h),
            netSecretsParse (hkind k hk) _⟩

/-- **So the fallback keys are in form**, after whatever was entered. -/
theorem run {is : List KeyInput} : ∀ {st : KeyStore}, st.FormedSecrets →
    (is.foldl KeyStore.input st).FormedSecrets := by
  induction is with
  | nil => exact fun h => h
  | cons i is ih => exact fun h => ih (h.input i)

/-- A network's key of a kind has digits only. -/
theorem upperHexes (h : st.FormedSecrets) (kind fam net : Bytes) :
    UpperHexes ((st.netKeysOf kind fam).getD net []) := by
  have hm := SortedMap.Each.getD_full
    (Q := fun kind _ => SortedMap.Full fun _ => NormalSecret kind) h kind
  have hf := hm.getD_full (Q := fun _ _ => NormalSecret kind) fam
  by_cases hin : net ∈ st.netKeysOf kind fam
  · obtain ⟨v, hv⟩ := SortedMap.mem_iff_find?.1 hin
    obtain ⟨k, -, hnorm, hne⟩ := hf net v hv
    rw [SortedMap.getD_of_find? hv, ← hnorm]
    rw [← hnorm, netKeyNorm] at hne
    rw [netKeyNorm]
    split_ifs at hne ⊢
    · exact (hexKeyNorm_form hne).1
    · exact (hexKeyNorm_form hne).1
  · rw [SortedMap.getD_of_not_mem hin]
    exact fun _ hc => absurd hc List.not_mem_nil

end KeyStore.FormedSecrets

/-! ## The ring's key for an id -/

/-- The networks of a protocol, or of all, in order. -/
def selected (r : KeyRing) (fam : Bytes) : List (SortedMap Bytes KeyEntry) :=
  (r.entries.filter fun fk => fam = [] || fk.1 = fam).flatMap fun fk => fk.2.entries.map Prod.snd

/-- A network's key for an id. -/
def netKeyFor (n : ℕ) (net : SortedMap Bytes KeyEntry) : Option Bytes :=
  (net.entries.find? fun ik => hexNumber ik.1 = n).map fun ik => ik.2.value

/-- **The ring's key for an id**: that of the first network that has one. -/
def ringKey (r : KeyRing) (fam : Bytes) (n : ℕ) : Option Bytes :=
  (selected r fam).findSome? (netKeyFor n)

/-- The keys of the selected networks, in the order they are listed. -/
def listedKeys (r : KeyRing) (fam : Bytes) : List (Bytes × KeyEntry) :=
  (selected r fam).flatMap SortedMap.entries

/-- The key for a number is the first listed whose id has that number. -/
theorem ringKey_eq (r : KeyRing) (fam : Bytes) (n : ℕ) : ringKey r fam n =
    ((listedKeys r fam).find? fun ik => hexNumber ik.1 = n).map fun ik => ik.2.value := by
  rw [ringKey, listedKeys]
  induction selected r fam with
  | nil => rfl
  | cons net l ih =>
    rw [List.findSome?_cons, List.flatMap_cons, List.find?_append, netKeyFor, ih]
    generalize net.entries.find? (fun ik => hexNumber ik.1 = n) = o
    rcases o with _ | ik <;> rfl

theorem normal_listedKeys {r : KeyRing} (h : r.Normal) {fam : Bytes} {ik : Bytes × KeyEntry}
    (hk : ik ∈ listedKeys r fam) : NormalKey ik.1 ik.2 := by
  obtain ⟨net, hnet, hik⟩ := List.mem_flatMap.1 hk
  obtain ⟨fk, hfk, hnk⟩ := List.mem_flatMap.1 hnet
  obtain ⟨nk, hmem, rfl⟩ := List.mem_map.1 hnk
  have hF := h fk.1 fk.2 (SortedMap.find?_eq_some_iff.2 (List.mem_filter.1 hfk).1)
  have hN := hF.each nk.1 nk.2 (SortedMap.find?_eq_some_iff.2 hmem)
  exact hN.each ik.1 ik.2 (SortedMap.find?_eq_some_iff.2 hik)

/-! ## Reading what is written -/

/-- A key's line is listed unless its id is. -/
def emitRow (a : SortedSet Bytes × List Bytes) (ik : Bytes × KeyEntry) :
    SortedSet Bytes × List Bytes :=
  if ik.1 ∈ a.1 then a else (a.1.add ik.1, a.2 ++ [ik.1 ++ keyColumns ik.2.value])

/-- The lines of the keyring's keys. -/
def ringRows (r : KeyRing) (fam : Bytes) : List Bytes :=
  ((listedKeys r fam).foldl emitRow (∅, [])).2

theorem unlines_append (l m : List Bytes) : unlines (l ++ m) = unlines l ++ unlines m :=
  List.flatMap_append

/-- The list of a family is its header and its rows. -/
theorem keyringCsvFamily_eq (r : KeyRing) (fam : Bytes) :
    keyringCsvFamily r fam = csvHeader ++ unlines (ringRows r fam) := by
  have hemit : ∀ (E : List (Bytes × KeyEntry)) (seen : SortedSet Bytes) (rows : List Bytes),
      E.foldl emitKey (seen, csvHeader ++ unlines rows) =
        ((E.foldl emitRow (seen, rows)).1,
          csvHeader ++ unlines (E.foldl emitRow (seen, rows)).2) := by
    intro E
    induction E with
    | nil => exact fun _ _ => rfl
    | cons ik E ih =>
      intro seen rows
      rw [List.foldl_cons, List.foldl_cons, emitKey, emitRow]
      dsimp only
      split_ifs
      · exact ih seen rows
      · rw [← ih, unlines_append, ← List.append_assoc]
        refine congrArg (fun s =>
          E.foldl emitKey (seen.add ik.1, csvHeader ++ unlines rows ++ s)) ?_
        rw [unlines, List.flatMap_singleton]
        rfl
  have hflat : (r.entries.filter fun fk => fam = [] || fk.1 = fam).foldl (fun a fk =>
      fk.2.entries.foldl (fun a nk => nk.2.entries.foldl emitKey a) a) (∅, csvHeader) =
        (listedKeys r fam).foldl emitKey (∅, csvHeader) := by
    rw [listedKeys, selected, List.foldl_flatMap, List.foldl_flatMap]
    refine congrArg (fun f => List.foldl f _ _) (funext fun a => funext fun fk => ?_)
    rw [List.foldl_map]
  have h := hemit (listedKeys r fam) ∅ []
  rw [unlines, List.flatMap_nil, List.append_nil] at h
  rw [keyringCsvFamily, hflat, h]
  rfl

/-- **The keyring's lines, read over a list**: each id has its first key, or what it had. -/
theorem find?_foldl_ringRows {E : List (Bytes × KeyEntry)} (h : ∀ ik ∈ E, NormalKey ik.1 ik.2)
    (m : SortedMap ℕ Bytes) (n : ℕ) : ((E.foldl emitRow (∅, [])).2.foldl readKeyLine m).find? n =
      ((E.find? fun ik => hexNumber ik.1 = n).map fun ik => ik.2.value).or (m.find? n) := by
  have hseen : ∀ (E : List (Bytes × KeyEntry)) (id : Bytes),
      id ∈ (E.foldl emitRow (∅, [])).1 ↔ ∃ ik ∈ E, ik.1 = id := by
    intro E id
    induction E using List.reverseRecOn with
    | nil => simp
    | append_singleton E ik ih =>
      rw [List.foldl_append, List.foldl_cons, List.foldl_nil, emitRow]
      split_ifs with hm
      · rw [ih]
        constructor
        · rintro ⟨ik', hik', rfl⟩
          exact ⟨ik', List.mem_append_left _ hik', rfl⟩
        · rintro ⟨ik', hik', rfl⟩
          rcases List.mem_append.1 hik' with hik' | hik'
          · exact ⟨ik', hik', rfl⟩
          · obtain rfl := List.mem_singleton.1 hik'
            exact ih.1 hm
      · rw [SortedSet.mem_add, ih]
        constructor
        · rintro (rfl | ⟨ik', hik', rfl⟩)
          · exact ⟨ik, by simp, rfl⟩
          · exact ⟨ik', List.mem_append_left _ hik', rfl⟩
        · rintro ⟨ik', hik', rfl⟩
          rcases List.mem_append.1 hik' with hik' | hik'
          · exact Or.inr ⟨ik', hik', rfl⟩
          · exact Or.inl (congrArg Prod.fst (List.mem_singleton.1 hik'))
  induction E using List.reverseRecOn with
  | nil => rfl
  | append_singleton E ik ih =>
    have hE := ih fun ik' hik' => h ik' (List.mem_append_left _ hik')
    have hik := h ik (by simp)
    have hfirst : ∀ ik' ∈ E, hexNumber ik'.1 = hexNumber ik.1 → ik'.1 = ik.1 := fun ik' hik' heq =>
      (h ik' (List.mem_append_left _ hik')).1.injective hik.1 heq
    rw [List.foldl_append, List.foldl_cons, List.foldl_nil, emitRow, List.find?_append]
    split_ifs with hm
    · -- the id is listed already, so its number is found among the earlier ones
      obtain ⟨ik', hik', heq⟩ := (hseen E ik.1).1 hm
      rw [hE]
      by_cases hn : hexNumber ik.1 = n
      · obtain ⟨x, hx⟩ : ∃ x, E.find? (fun ik => hexNumber ik.1 = n) = some x :=
          Option.isSome_iff_exists.1 (List.find?_isSome.2 ⟨ik', hik', decide_eq_true (heq ▸ hn)⟩)
        rw [hx]
        rfl
      · have hlast : [ik].find? (fun ik => hexNumber ik.1 = n) = none :=
          List.find?_cons_of_neg (by simpa using hn)
        rw [hlast, Option.or_none]
    · rw [List.foldl_append, List.foldl_cons, List.foldl_nil,
        readKeyLine_row hik.1.form.1 hik.value, SortedMap.find?_insert, hE]
      split_ifs with hn
      · have hnone : E.find? (fun ik => hexNumber ik.1 = n) = none := by
          refine List.find?_eq_none.2 fun ik' hik' hk => hm ((hseen E ik.1).2 ⟨ik', hik', ?_⟩)
          exact hfirst ik' hik' ((of_decide_eq_true hk).trans hn)
        have hlast : [ik].find? (fun ik => hexNumber ik.1 = n) = some ik :=
          List.find?_cons_of_pos (decide_eq_true hn.symm)
        rw [hnone, hlast]
        rfl
      · have hlast : [ik].find? (fun ik => hexNumber ik.1 = n) = none :=
          List.find?_cons_of_neg (by simpa using Ne.symm hn)
        rw [hlast, Option.or_none]

/-- An id and what follows it, without a line break, is a row. -/
theorem isRow_of {id row : Bytes} (hid : NormalId id) (hrow : (10 : UInt8) ∉ row) :
    IsRow (id ++ row) := by
  refine ⟨fun h => hid.2 (List.append_eq_nil_iff.1 h).1, fun h => ?_⟩
  rcases List.mem_append.1 h with h | h
  · exact hid.form.1.not_mem.2 h
  · exact hrow h

theorem isRow_ringRows {E : List (Bytes × KeyEntry)} (h : ∀ ik ∈ E, NormalKey ik.1 ik.2) :
    ∀ l ∈ (E.foldl emitRow (∅, [])).2, IsRow l := by
  have hnil : ∀ l ∈ ((∅, []) : SortedSet Bytes × List Bytes).2, IsRow l := fun _ hl =>
    absurd hl List.not_mem_nil
  refine List.foldlRecOn (motive := fun a => ∀ l ∈ a.2, IsRow l) E emitRow hnil fun a ha
    ik hik => ?_
  rw [emitRow]
  split_ifs
  · exact ha
  · intro l hl
    rcases List.mem_append.1 hl with hl | hl
    · exact ha l hl
    · rw [List.mem_singleton.1 hl]
      refine isRow_of (h ik hik).1 fun hm => ?_
      rw [keyColumns_eq] at hm
      obtain ⟨c, hc, hm⟩ := List.mem_flatMap.1 hm
      rcases List.mem_cons.1 hm with hm | hm
      · exact absurd hm (by decide)
      · exact ((h ik hik).value.of_columns hc).not_mem.2 hm

/-! ## The fallback key

The rows of the fallback key come first.  So a key of the ring, which comes later in the list,
overrides it for its id. -/

/-- The lines of a fallback key. -/
def fillRows (ep : Bytes) : List Bytes := (List.range 256).map fun k => shortId k ++ ch ',' :: ep

/-- The 256 short ids are normal, and each has its own number. -/
theorem shortId_form : ∀ k ∈ List.range 256, NormalId (shortId k) ∧ hexNumber (shortId k) = k := by
  unfold NormalId
  decide +kernel

/-- The rows of a fallback key are rows. -/
theorem isRow_fillRows {ep : Bytes} (h : UpperHexes ep) : ∀ l ∈ fillRows ep, IsRow l := by
  intro l hl
  obtain ⟨k, hk, rfl⟩ := List.mem_map.1 hl
  refine isRow_of (shortId_form k hk).1 fun hm => ?_
  rcases List.mem_cons.1 hm with hm | hm
  · exact absurd hm (by decide)
  · exact h.not_mem.2 hm

/-- They give the fallback key to each of the 256 short ids, and to no other. -/
theorem find?_foldl_fillRows {ep : Bytes} (h : UpperHexes ep) (n : ℕ) :
    ((fillRows ep).foldl readKeyLine ∅).find? n = if n < 256 then some ep else none := by
  have hm : ∀ m ≤ 256,
      (((List.range m).map fun k => shortId k ++ ch ',' :: ep).foldl readKeyLine ∅).find? n =
      if n < m then some ep else none := by
    intro m hm
    induction m with
    | zero => rfl
    | succ m ih =>
      obtain ⟨hid, hnum⟩ := shortId_form m (List.mem_range.2 hm)
      have hline : ∀ t, readKeyLine t (shortId m ++ ch ',' :: ep) = t.insert m ep := by
        intro t
        have hcols : ∀ c ∈ [ep], UpperHexes c := fun c hc => List.mem_singleton.1 hc ▸ h
        have hread := readKeyLine_columns hid.form.1 hcols t
        rw [hnum] at hread
        simpa using hread
      rw [List.range_succ, List.map_append, List.foldl_append, List.map_singleton, List.foldl_cons,
        List.foldl_nil, hline, SortedMap.find?_insert, ih (Nat.le_of_succ_le hm)]
      split_ifs <;> first | rfl | omega
  exact hm 256 le_rfl

/-- The list of a stream is its header, the rows of the fallback key if it has one, and those of the
ring. -/
theorem keysCsvStream_eq (r : KeyRing) (fam ep : Bytes) : keysCsvStream r fam ep =
    csvHeader ++ unlines ((if ep = [] then [] else fillRows ep) ++ ringRows r fam) := by
  have hfill : ∀ (l : List ℕ) (a : Bytes),
      l.foldl (fun fill k => fill ++ (shortId k ++ ch ',' :: ep ++ [10])) a =
        a ++ unlines (l.map fun k => shortId k ++ ch ',' :: ep) := by
    intro l
    induction l with
    | nil => exact fun a => (List.append_nil a).symm
    | cons k l ih =>
      intro a
      rw [List.foldl_cons, ih, List.append_assoc]
      rfl
  have hprefix : csvHeader.isPrefixOf (csvHeader ++ unlines (ringRows r fam)) = true :=
    List.isPrefixOf_iff_prefix.2 (List.prefix_append _ _)
  rw [keysCsvStream, keyringCsvFamily_eq]
  dsimp only
  split_ifs
  · rfl
  · rw [hfill, List.drop_left, unlines_append, List.append_assoc]
    rfl

/-- **The list, read**: each id has the key of the first selected network that holds it, or else,
being of two digits, the fallback key.  A network holds an id once: no two of the ring are one
number. -/
theorem key_list_read (is : List KeyInput) (fam kind fam' net : Bytes) (n : ℕ) :
    let st := is.foldl KeyStore.input {}
    let ep := (st.netKeysOf kind fam').getD net []
    (readKeyList (keysCsvStream st.keys fam ep)).find? n =
        (ringKey st.keys fam n).or (if n < 256 ∧ ep ≠ [] then some ep else none) ∧
      ∀ ik ∈ listedKeys st.keys fam, ∀ ik' ∈ listedKeys st.keys fam,
        hexNumber ik.1 = hexNumber ik'.1 → ik.1 = ik'.1 := by
  intro st ep
  have hring : st.keys.Normal := KeyRing.Normal.run KeyRing.Normal.empty
  have hkeys : ∀ ik ∈ listedKeys st.keys fam, NormalKey ik.1 ik.2 :=
    fun ik hik => normal_listedKeys hring hik
  have hformed : st.FormedSecrets := KeyStore.FormedSecrets.run SortedMap.each_empty
  have hep : UpperHexes ep := hformed.upperHexes kind fam' net
  refine ⟨?_, fun ik hik ik' hik' h => (hkeys ik hik).1.injective (hkeys ik' hik').1 h⟩
  have hrows : ∀ l ∈ (if ep = [] then [] else fillRows ep) ++ ringRows st.keys fam, IsRow l := by
    intro l hl
    rcases List.mem_append.1 hl with hl | hl
    · split_ifs at hl
      · exact absurd hl List.not_mem_nil
      · exact isRow_fillRows hep l hl
    · exact isRow_ringRows hkeys l hl
  rw [keysCsvStream_eq, readKeyList_unlines hrows, List.foldl_append, ringRows,
    find?_foldl_ringRows hkeys, ringKey_eq]
  refine congrArg _ ?_
  split_ifs with h₁ h₂ h₃
  · exact absurd h₁ h₂.2
  · rfl
  · rw [find?_foldl_fillRows hep, if_pos h₃.1]
  · rw [find?_foldl_fillRows hep, if_neg fun hn => h₃ ⟨hn, h₁⟩]

end DsdServer
