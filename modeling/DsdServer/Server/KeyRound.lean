import DsdServer.Server.KeyForms

/-!
# Server/KeyRound — the keys file restores the keys

The text of the file is that of a JSON value, and the reader puts the entries of that value back one
by one: each is in normal form, so it is put back as it was.

* `keyFile_roundTrip` — **the file restores what was held**, whatever was set and removed; and no
  network has two forced keys.
-/

open Bytes

namespace DsdServer

open mjson assocjson

/-! ## The value of the file

The texts that the writer puts together are those of a tree of objects.  So what is known of JSON in
general (a text that is written is parsed into the value it was written from) applies to the file.
-/

/-- A key of the ring, as a JSON value. -/
def entryTree (e : KeyEntry) : V :=
  .obj [(lit "alg", .str e.alg), (lit "key", .str e.value), (lit "added", .num (.finite e.added))]

/-- A Basic Privacy number, as a JSON value. -/
def bpTree (n : ℤ) : V := .num (.finite n)

/-- **The value the file is the text of.** -/
def keysTree (st : KeyStore) : V :=
  .obj
    ((lit "keys", tree (tree (tree entryTree)) st.keys) :: (lit "bp", tree (tree bpTree) st.bp) ::
    netKeyKinds.map fun k => (k.id, tree (tree V.str) (st.netKeys.getD k.id ∅)))

/-- The value of a key is written as the key is. -/
theorem render_entryTree (e : KeyEntry) : render (entryTree e) = entryJson e := by
  have h₁ : lit "\"alg\":" = q (lit "alg") ++ lit ":" := by decide
  have h₂ : lit ",\"key\":" = ch ',' :: (q (lit "key") ++ lit ":") := by decide
  have h₃ : lit ",\"added\":" = ch ',' :: (q (lit "added") ++ lit ":") := by decide
  rw [entryTree, render_obj, entryJson, h₁, h₂, h₃]
  simp only [List.map_cons, List.map_nil, memberOf, member, render, number_intCast, commas,
    List.flatMap_cons, List.flatMap_nil, List.append_nil, List.append_assoc, List.cons_append]

/-- **The file is the text of its value**, and a line break. -/
theorem saveKeys_eq (st : KeyStore) : saveKeys st = render (keysTree st) ++ [10] := by
  have hstr : ∀ s, render (.str s) = q s := fun s => by rw [render]
  have hbp : ∀ n, render (bpTree n) = decInt n := fun n => by rw [bpTree, render, number_intCast]
  have hkinds : ∀ k ∈ netKeyKinds, lit ",\"" ++ k.id ++
      lit "\":" = ch ',' :: (q k.id ++ lit ":") := by
    decide
  have h₁ : lit "\"keys\":" = q (lit "keys") ++ lit ":" := by decide
  have h₂ : lit ",\"bp\":" = ch ',' :: (q (lit "bp") ++ lit ":") := by decide
  have hnet : netKeysJson st =
      ((netKeyKinds.map fun k => (k.id, tree (tree V.str) (st.netKeys.getD k.id ∅))).map
        memberOf).flatMap
        fun y => ch ',' :: y := by
    rw [netKeysJson, List.map_map, List.flatMap_map]
    refine List.flatMap_congr fun k hk => ?_
    rw [Function.comp_apply, memberOf, member, render_tree (render_tree hstr), hkinds k hk,
      netSecretsJson]
    rfl
  rw [saveKeys, keysTree, render_obj, keyringJson, bpJson, hnet, h₁, h₂,
    ← render_tree (render_tree (render_tree render_entryTree)), ← render_tree (render_tree hbp)]
  simp only [List.map_cons, memberOf, member, commas, List.flatMap_cons, List.append_assoc,
    List.cons_append]
  rfl

/-- The value of a store in normal form is not nested too deep, and its numbers are exact. -/
theorem KeyStore.Normal.fits_keysTree {st : KeyStore} (h : st.Normal) : Fits 0 (keysTree st) := by
  rw [keysTree, Fits, FitsMembers, FitsMembers, fitsMembers_iff]
  refine ⟨by decide, ?_, ?_, ?_⟩
  · refine fits_tree (by decide) h.keys fun _ f hf => fits_tree (by decide) hf.each fun _ n hn =>
      fits_tree (by decide) hn.each fun id e he => ?_
    rw [entryTree, Fits, fitsMembers_iff]
    refine ⟨by decide, fun kv hkv => ?_⟩
    simp only [List.mem_cons, List.not_mem_nil, or_false] at hkv
    rcases hkv with rfl | rfl | rfl
    · rw [Fits]
      decide
    · rw [Fits]
      decide
    · rw [Fits]
      exact ⟨by decide, e.added, he.added, rfl⟩
  · refine fits_tree (by decide) h.bp fun _ f hf => fits_tree (by decide) hf.each fun _ n hn => ?_
    rw [bpTree, Fits]
    refine ⟨by decide, n, ?_, rfl⟩
    rw [abs_lt]
    omega
  · intro kv hkv
    obtain ⟨k, -, rfl⟩ := List.mem_map.1 hkv
    have hm :=
      h.netKeys.getD_full (Q := fun kind _ => SortedMap.Full fun _ => NormalSecret kind) k.id
    refine fits_tree (by decide) hm fun _ f hf => fits_tree (by decide) hf.each fun _ v _ => ?_
    rw [Fits]
    decide

/-! ## Reading it back

Entries come back in the order of their names, each into a map that has the earlier ones: the maps
are rebuilt entry by entry. -/

/-- A key that was written is put into the ring as it was. -/
theorem readKey_entryTree {fam net id : Bytes} {e : KeyEntry} (he : e.Normal id) (r : KeyRing) :
    readKey fam net r (id, entryTree e) = r.update fam ∅ fun f => f.update net ∅ fun n =>
      n.insert id e := by
  have hstep : readKey fam net r (id, entryTree e) =
      if keyNormId id = [] ∨ keyNormValue e.value = [] then r
      else put r fam net (((r.getD fam ∅).getD net ∅).insert (keyNormId id)
        ⟨keyNormId e.alg, keyNormValue e.value, (Double.finite e.added).toI64⟩) := rfl
  rw [hstep, toI64_intCast he.added, he.id.1, he.value.1, he.alg,
    if_neg (not_or.2 ⟨he.id.2, he.value.2⟩)]
  rfl

/-- **The keyring is read back.** -/
theorem keyringParse_keysTree {st : KeyStore} (h : st.Normal) :
    keyringParse (keysTree st) = st.keys := by
  have hroot : memberAt (keysTree st) (lit "keys") = some (tree (tree (tree entryTree)) st.keys) :=
    rfl
  rw [keyringParse, hroot, Option.getD_some, foldl_members_tree]
  -- a network's keys are one change of its protocol's map
  have hnet : ∀ (r : KeyRing) (fam net : Bytes) (n : SortedMap Bytes KeyEntry),
      n.Full KeyEntry.Normal →
      (tree entryTree n).members.foldl (readKey fam net) r =
        r.update fam ∅ fun f =>
        n.entries.foldl (fun f e => f.update net ∅ fun n => n.insert e.1 e.2) f := by
    intro r fam net n hn
    rw [foldl_members_tree, ← SortedMap.foldl_update fam ∅ _ (SortedMap.entries_ne_nil hn.entry)]
    exact List.foldl_ext _ _ _ fun r e he =>
      readKey_entryTree (hn.each e.1 e.2 (SortedMap.find?_eq_some_iff.2 he)) r
  have hfam : ∀ (r : KeyRing) (e : Bytes × SortedMap Bytes (SortedMap Bytes KeyEntry)),
      e ∈ st.keys.entries →
      (tree (tree entryTree) e.2).members.foldl
      (fun r nk => nk.2.members.foldl (readKey e.1 nk.1) r) r =
        e.2.entries.foldl (fun r nk => r.update e.1 ∅ fun f =>
          nk.2.entries.foldl (fun f ik => f.update nk.1 ∅ fun n => n.insert ik.1 ik.2) f) r := by
    intro r e he
    have hf := h.keys e.1 e.2 (SortedMap.find?_eq_some_iff.2 he)
    rw [foldl_members_tree]
    exact List.foldl_ext _ _ _ fun r nk hnk =>
      hnet r e.1 nk.1 nk.2 (hf.each nk.1 nk.2 (SortedMap.find?_eq_some_iff.2 hnk))
  rw [List.foldl_ext _ _ _ hfam]
  refine SortedMap.foldl_nested (l := fun f => f.entries)
    (g := fun _ f nk => nk.2.entries.foldl
      (fun f ik => f.update nk.1 ∅ fun n => n.insert ik.1 ik.2) f)
    (fun fam f hf => SortedMap.entries_ne_nil (h.keys fam f hf).entry) fun fam f hf => ?_
  refine SortedMap.foldl_nested (l := fun n => n.entries) (g := fun _ n ik => n.insert ik.1 ik.2)
    (fun net n hn => SortedMap.entries_ne_nil
      ((h.keys fam f hf).each net n hn).entry) fun net n hn => ?_
  exact SortedMap.foldl_rebuild fun r k v _ _ => rfl

/-- A map of maps is read back by steps that put its entries in. -/
theorem foldl_put {W : Type} {m : SortedMap Bytes (SortedMap Bytes W)} {P : Bytes → W → Prop}
    (hm : m.Each fun _ => SortedMap.Full P) {f : W → V}
    {step : Bytes → SortedMap Bytes (SortedMap Bytes W) → Bytes × V →
      SortedMap Bytes (SortedMap Bytes W)}
    (hstep : ∀ r fam net v, P net v → step fam r (net, f v) = put r fam net v) :
    (tree (tree f) m).members.foldl (fun r fk => fk.2.members.foldl (step fk.1) r) ∅ = m := by
  rw [foldl_members_tree]
  have hfam : ∀ (r : SortedMap Bytes (SortedMap Bytes W)) (e : Bytes × SortedMap Bytes W),
      e ∈ m.entries →
      (tree f e.2).members.foldl (step e.1) r =
        e.2.entries.foldl (fun r nk => r.update e.1 ∅ fun n => n.insert nk.1 nk.2) r := by
    intro r e he
    have hf := hm e.1 e.2 (SortedMap.find?_eq_some_iff.2 he)
    rw [foldl_members_tree]
    exact List.foldl_ext _ _ _ fun r nk hnk =>
      hstep r e.1 nk.1 nk.2 (hf.each nk.1 nk.2 (SortedMap.find?_eq_some_iff.2 hnk))
  rw [List.foldl_ext _ _ _ hfam]
  exact SortedMap.foldl_nested (l := fun n => n.entries) (g := fun _ n nk => n.insert nk.1 nk.2)
    (fun fam f hf => SortedMap.entries_ne_nil (hm fam f hf).entry)
    fun fam f hf => SortedMap.foldl_rebuild fun r k v _ _ => rfl

/-- The Basic Privacy numbers are read as they were. -/
theorem bpParse_keysTree {st : KeyStore} (h : st.Normal) : bpParse (keysTree st) = st.bp := by
  have hroot : memberAt (keysTree st) (lit "bp") = some (tree (tree bpTree) st.bp) := rfl
  rw [bpParse, hroot, Option.getD_some]
  refine foldl_put h.bp fun r fam net n hn => ?_
  have hi : (Double.finite n).toI64 = n := toI64_intCast (by rw [abs_lt]; omega)
  rw [bpTree, readBp]
  dsimp only
  rw [hi, if_pos hn]

/-- **The keys of a kind are read back.** -/
theorem netSecretsParse_keysTree {st : KeyStore} (h : st.Normal) {k : NetKeyKind}
    (hk : k ∈ netKeyKinds) :
    netSecretsParse (memberAt (keysTree st) k.id) k = st.netKeys.getD k.id ∅ := by
  have hroot : memberAt (keysTree st) k.id = some (tree (tree V.str) (st.netKeys.getD k.id ∅)) := by
    simp only [netKeyKinds, List.mem_cons, List.not_mem_nil, or_false] at hk
    rcases hk with rfl | rfl | rfl | rfl | rfl | rfl | rfl <;> rfl
  have hm := h.netKeys.getD_full (Q := fun kind _ => SortedMap.Full fun _ => NormalSecret kind) k.id
  rw [netSecretsParse, hroot, Option.getD_some]
  refine foldl_put hm fun r fam net v hv => ?_
  obtain ⟨k', hk', hv⟩ := hv
  have hids : ∀ a ∈ netKeyKinds, netKeyKind a.id = some a := by decide
  obtain rfl : k = k' := Option.some.inj ((hids k hk).symm.trans hk')
  rw [readSecret]
  dsimp only
  rw [hv.1, if_neg hv.2]

/-- A kind's keys are put in, if there are any. -/
def KeyStore.keepKind (st : KeyStore) (m : SortedMap Bytes NetSecrets) (k : NetKeyKind) :
    SortedMap Bytes NetSecrets :=
  if (st.netKeys.getD k.id ∅).isEmpty then m else m.insert k.id (st.netKeys.getD k.id ∅)

/-- **Every kind's keys are put back**, and no kind has none. -/
theorem foldl_kinds {st : KeyStore} (h : st.Normal) :
    netKeyKinds.foldl st.keepKind ∅ = st.netKeys := by
  refine SortedMap.ext_find? fun x => ?_
  rcases hx : st.netKeys.find? x with _ | m
  · -- a kind that is not held is never put in
    have hfold : ∀ (l : List NetKeyKind) (r : SortedMap Bytes NetSecrets), r.find? x = none →
        (l.foldl st.keepKind r).find? x = none := fun l => by
      induction l with
      | nil => exact fun _ hr => hr
      | cons k l ih =>
        intro r hr
        refine ih _ ?_
        rw [KeyStore.keepKind]
        split_ifs with he
        · exact hr
        · rw [SortedMap.find?_insert_ne _ _ fun hxk => he ?_]
          · exact hr
          · rw [SortedMap.getD, ← hxk, hx]
            rfl
    exact hfold netKeyKinds ∅ (SortedMap.find?_empty x)
  · -- one that is held is put in at its turn, and not changed by the others
    have hm := h.netKeys x m hx
    obtain ⟨fam, f, -, hf⟩ := hm.exists_entry
    obtain ⟨net, v, -, k₀, hk₀, -⟩ := hf.exists_entry
    obtain ⟨hkm, rfl⟩ := KeyStore.netKeyKind_id hk₀
    have hd : st.netKeys.getD k₀.id ∅ = m := SortedMap.getD_of_find? hx ∅
    have hne : (st.netKeys.getD k₀.id ∅).isEmpty ≠ true := fun he =>
      hm.entry (hd ▸ SortedMap.isEmpty_eq_true_iff.1 he)
    have hfold : ∀ (l : List NetKeyKind) (r : SortedMap Bytes NetSecrets),
        k₀ ∈ l ∨ r.find? k₀.id = some m →
        (l.foldl st.keepKind r).find? k₀.id = some m := fun l => by
      induction l with
      | nil => exact fun _ hr => hr.resolve_left List.not_mem_nil
      | cons k l ih =>
        intro r hr
        refine ih _ (or_iff_not_imp_left.2 fun hl => ?_)
        rw [KeyStore.keepKind]
        by_cases hk : k.id = k₀.id
        · rw [hk, if_neg hne, hd]
          exact SortedMap.find?_insert_self r k₀.id m
        · have hr' : r.find? k₀.id = some m := hr.resolve_left fun hc => by
            rcases List.mem_cons.1 hc with rfl | hc
            · exact hk rfl
            · exact hl hc
          split_ifs
          · exact hr'
          · rwa [SortedMap.find?_insert_ne _ _ (Ne.symm hk)]
    exact hfold netKeyKinds ∅ (Or.inl hkm)

theorem netKeys_read {st : KeyStore} (h : st.Normal) :
    netKeyKinds.foldl (fun m k =>
      let s := netSecretsParse (memberAt (keysTree st) k.id) k
      if s.isEmpty then m else m.insert k.id s) ∅ = st.netKeys := by
  rw [← foldl_kinds h]
  refine List.foldl_ext _ _ _ fun r k hk => ?_
  rw [netSecretsParse_keysTree h hk]
  rfl

/-! ## The round trip -/

/-- **A server that reads the file has the keys of the one that wrote it.** -/
theorem useKeysFile_saveKeys {st : KeyStore} (h : st.Normal) (fresh : KeyStore) :
    useKeysFile fresh (saveKeys st) =
      some { fresh with keys := st.keys, bp := st.bp, netKeys := st.netKeys } := by
  have hparse : parse (saveKeys st) = .ok (keysTree st) := by
    rw [saveKeys_eq]
    exact parse_render h.fits_keysTree (Or.inr rfl)
  have hobj : (keysTree st).isObj = true := rfl
  rw [useKeysFile, hparse]
  dsimp only
  rw [hobj, if_neg (by decide), keyringParse_keysTree h, bpParse_keysTree h, netKeys_read h]

/-- **The keys file restores what was held**, whatever keys were set and removed, at times a file
keeps; and no network has two forced keys. -/
theorem keyFile_roundTrip {ops : List KeyOp} (ht : ∀ op ∈ ops, op.Timely) :
    (∃ restored, useKeysFile {} (saveKeys (KeyStore.run {} ops)) = some restored ∧
      restored.keys = (KeyStore.run {} ops).keys ∧ restored.bp = (KeyStore.run {} ops).bp ∧
      restored.netKeys = (KeyStore.run {} ops).netKeys) ∧
    (KeyStore.run {} ops).OneForced := by
  have h : (KeyStore.run {} ops).Normal := KeyStore.Normal.empty.run ht
  exact ⟨⟨_, useKeysFile_saveKeys h {}, rfl, rfl, rfl⟩, h.forced⟩

/-- Keys of each sort, some replaced and removed again. -/
def someKeys : List KeyOp :=
  [.setKey (lit "p25") (lit "a\"b") (lit "0x0309") (lit "84") (lit "00 aa") 7,
    .setBp (lit "dmr") (lit "cc:1@440425000") 9,
    .setNetKey (lit "tytbp") (lit "dmr") (lit "n") (lit "1f"),
    .setNetKey (lit "rtap") (lit "dmr") (lit "n") (lit "2"),
    .setKey (lit "p25") (lit "b") (lit "1") [] (lit "11") 8,
    .removeKey (lit "p25") (lit "b") (lit "01")]

theorem keyFile_roundTrip_someKeys :
    (∃ restored, useKeysFile {} (saveKeys (KeyStore.run {} someKeys)) = some restored ∧
      restored.keys = (KeyStore.run {} someKeys).keys ∧
        restored.bp = (KeyStore.run {} someKeys).bp ∧
      restored.netKeys = (KeyStore.run {} someKeys).netKeys) ∧
    (KeyStore.run {} someKeys).OneForced := by
  refine keyFile_roundTrip fun op hop => ?_
  simp only [someKeys, List.mem_cons, List.not_mem_nil, or_false] at hop
  rcases hop with rfl | rfl | rfl | rfl | rfl | rfl
  · exact (by decide : |(7 : ℤ)| < 2 ^ 53)
  · trivial
  · trivial
  · trivial
  · exact (by decide : |(8 : ℤ)| < 2 ^ 53)
  · trivial

end DsdServer
