import DsdServer.Merge.Conversions

/-!
# Merge/Casts — an import over any conversion

The readers of an import with the conversion from a double left open.  What they read depends on the
listed conversions only, so where these are in range `reading_of_inRange` — **no import relies on
what a conversion out of range gives**.

The readers are the same as those of the import, with the conversion as a parameter.  So it can be
said that two conversions which agree on the listed numbers read the same, without saying what
either gives elsewhere.
-/

open Bytes

namespace DsdServer

open mjson

/-! ## Readers

Each reader is the one of the import, with the conversion as an argument.  A conversion out of range
is undefined in the language the source is written in, so any function may stand for it. -/

/-- What the readers convert to: a conversion out of range gives what the hardware makes of it. -/
def Conversion.standard (c : Conversion) : ℤ :=
  match c.target with
  | .i64 => c.value.toI64
  | .u64 => c.value.toU64
  | .u32 => match c.value with
    | .finite q => Double.trunc q % 2 ^ 32
    | _ => 0

section With

variable (cast : Conversion → ℤ)

/-- A counter, as the reader converts it. -/
def uWith (v : V) (k : String) : ℕ :=
  if (v.numOf k).isPos then (cast ⟨.u64, v.numOf k⟩).toNat else 0

/-- A signed number, as the reader converts it. -/
def i64With (v : V) (k : String) : ℤ := cast ⟨.i64, v.numOf k⟩

def countmapWith (o : Option V) : SortedMap Bytes ℕ :=
  (o.getD .null).members.foldl (fun m kv => match kv.2 with
    | .num n => if n.isPos then m.insert kv.1 (m.getD kv.1 0 + (cast ⟨.u64, n⟩).toNat) else m
    | _ => m) ∅

/-- A set of frequencies; only what is positive is taken. -/
def freqsetWith (a : Option V) : SortedSet ℤ :=
  (a.getD .null).elements.foldl (fun s e => match e with
    | .num n => if n.isPos then SortedSet.add s (cast ⟨.i64, n⟩) else s
    | _ => s) ∅

/-- A track; a fix that is no pair of time and position is skipped. -/
def trackWith (a : Option V) : List (ℤ × Bytes) :=
  (a.getD .null).elements.foldl (fun tr e => match e with
    | .arr [.num t, .str pos] => trackAdd tr (cast ⟨.i64, t⟩) pos
    | _ => tr) []

def networkWith (e : V) : DsNetwork :=
  { readNetwork e with
    freqs := freqsetWith cast (e.get "freqs")
    sessions := uWith cast e "sessions"
    calls := uWith cast e "calls"
    first := i64With cast e "first"
    last := i64With cast e "last"
    keys := countmapWith cast (e.get "keys") }

def talkgroupWith (e : V) : DsTalkgroup :=
  { readTalkgroup e with
    radios := countmapWith cast (e.get "radios")
    calls := uWith cast e "calls"
    emerg := uWith cast e "emerg"
    enc := uWith cast e "enc"
    first := i64With cast e "first"
    last := i64With cast e "last"
    keys := countmapWith cast (e.get "keys") }

def radioWith (e : V) : DsRadio :=
  { readRadio e with
    tgs := countmapWith cast (e.get "tgs")
    peers := countmapWith cast (e.get "peers")
    keys := countmapWith cast (e.get "keys")
    calls := uWith cast e "calls"
    first := i64With cast e "first"
    last := i64With cast e "last"
    posT := i64With cast e "pos_t"
    track := trackWith cast (e.get "track") }

def callWith (e : V) : DsCall :=
  { readCall e with
    id := uWith cast e "id"
    session := uWith cast e "session"
    streams := max 1 (uWith cast e "streams")
    start := i64With cast e "start"
    last := i64With cast e "last"
    freq := i64With cast e "freq"
    audioMs := uWith cast e "audio_ms"
    quality :=
      { (readCall e).quality with qframes := (cast ⟨.u32, .finite (uWith cast e "qn")⟩).toNat } }

/-- A source: a span of time of a server run. -/
def sourceWith (e : V) : DsSource :=
  { readSource e with
    since := i64With cast e "since"
    through := i64With cast e "through" }

/-- A family, read into one that is there. -/
def familyWith (df : DsFamily) (F : V) : DsFamily where
  networks := readTable (networkWith cast) DsNetwork.key df.networks (F.get "networks")
  tgs := readTable (talkgroupWith cast) DsTalkgroup.id df.tgs (F.get "talkgroups")
  radios := readTable (radioWith cast) DsRadio.id df.radios (F.get "radios")
  calls := df.calls ++ ((F.get "calls").getD .null).elements.map (callWith cast)

/-- The families of a file. -/
def familiesWith (fams : List (Bytes × V)) : SortedMap Bytes DsFamily :=
  fams.foldl
    (fun m fk => if fk.2.isObj then m.insert fk.1 (familyWith cast (m.getD fk.1 {}) fk.2) else m) ∅

/-- The time of the export. -/
def exportedWith (root : V) : ℤ :=
  if i64With cast root "exported" ≠ 0 then i64With cast root "exported" else i64With cast root "now"

end With

/-! ## What they read

If the argument agrees with the standard conversion on all that a reader converts, what is read
agrees.  The lists of conversions are put together as the readers are. -/

section Agree

variable {cast : Conversion → ℤ}

/-- A counter is the standard one where its conversion is. -/
theorem uWith_eq {v : V} {k : String} (h : ∀ c ∈ uConv v k, cast c = c.standard) :
    uWith cast v k = v.u k := by
  rw [uWith, V.u]
  split_ifs with hpos
  · rw [uConv, countConv, if_pos hpos] at h
    rw [h _ List.mem_cons_self]
    exact Int.toNat_natCast _
  · rfl

/-- A signed number is the standard one where its conversion is. -/
theorem i64With_eq {v : V} {k : String} (h : ∀ c ∈ i64Conv v k, cast c = c.standard) :
    i64With cast v k = v.i64 k := h _ List.mem_cons_self

/-- A table of counts reads the conversions of its values. -/
theorem countmapWith_eq {o : Option V} (h : ∀ c ∈ countmapConv o, cast c = c.standard) :
    countmapWith cast o = countmap o := by
  refine List.foldl_ext _ _ _ fun m kv hkv => ?_
  rw [countmapConv, List.forall_mem_flatMap] at h
  have hc := h kv hkv
  obtain ⟨k, x⟩ := kv
  cases x with
  | num n =>
    dsimp only [countConv] at hc ⊢
    split_ifs at hc ⊢ with hpos
    · rw [hc _ List.mem_cons_self]
      rfl
    · rfl
  | _ => rfl

/-- A set of frequencies reads the conversions of its members. -/
theorem freqsetWith_eq {a : Option V} (h : ∀ c ∈ freqsetConv a, cast c = c.standard) :
    freqsetWith cast a = freqset a := by
  refine List.foldl_ext _ _ _ fun s e he => ?_
  rw [freqsetConv, List.forall_mem_flatMap] at h
  have hc := h e he
  cases e with
  | num n =>
    dsimp only at hc ⊢
    split_ifs at hc ⊢ with hpos
    · rw [hc _ List.mem_cons_self]
      rfl
    · rfl
  | _ => rfl

/-- A track reads the conversions of its times. -/
theorem trackWith_eq {a : Option V} (h : ∀ c ∈ trackConv a, cast c = c.standard) :
    trackWith cast a = readTrack a := by
  refine List.foldl_ext _ _ _ fun tr e he => ?_
  rw [trackConv, List.forall_mem_flatMap] at h
  cases e with
  | arr l =>
    rcases l with _ | ⟨x, _ | ⟨y, _ | ⟨z, l⟩⟩⟩
    · rfl
    · cases x <;> rfl
    · -- a time and a position, or two of something else
      cases x <;> cases y <;> first
        | rfl
        | exact congrArg (trackAdd tr · _) (h _ he _ List.mem_cons_self)
    · cases x <;> cases y <;> rfl
  | _ => rfl

/-- A network reads the conversions of its numbers. -/
theorem networkWith_eq {e : V} (h : ∀ c ∈ networkConv e, cast c = c.standard) :
    networkWith cast e = readNetwork e := by
  simp only [networkConv, List.forall_mem_append] at h
  obtain ⟨hfreqs, hsessions, hcalls, hfirst, hlast, hkeys⟩ := h
  rw [networkWith, freqsetWith_eq hfreqs, uWith_eq hsessions, uWith_eq hcalls, i64With_eq hfirst,
    i64With_eq hlast, countmapWith_eq hkeys]
  rfl

/-- A talkgroup reads the conversions of its numbers. -/
theorem talkgroupWith_eq {e : V} (h : ∀ c ∈ talkgroupConv e, cast c = c.standard) :
    talkgroupWith cast e = readTalkgroup e := by
  simp only [talkgroupConv, List.forall_mem_append] at h
  obtain ⟨hradios, hcalls, hemerg, henc, hkeys, hfirst, hlast⟩ := h
  rw [talkgroupWith, countmapWith_eq hradios, uWith_eq hcalls, uWith_eq hemerg, uWith_eq henc,
    countmapWith_eq hkeys, i64With_eq hfirst, i64With_eq hlast]
  rfl

/-- A radio reads the conversions of its numbers. -/
theorem radioWith_eq {e : V} (h : ∀ c ∈ radioConv e, cast c = c.standard) :
    radioWith cast e = readRadio e := by
  simp only [radioConv, List.forall_mem_append] at h
  obtain ⟨htgs, hpeers, hkeys, hcalls, hfirst, hlast, hpos, htrack⟩ := h
  rw [radioWith, countmapWith_eq htgs, countmapWith_eq hpeers, countmapWith_eq hkeys,
    uWith_eq hcalls, i64With_eq hfirst, i64With_eq hlast, i64With_eq hpos, trackWith_eq htrack]
  rfl

/-- A call reads the conversions of its numbers. -/
theorem callWith_eq {e : V} (h : ∀ c ∈ callConv e, cast c = c.standard) :
    callWith cast e = readCall e := by
  simp only [callConv, List.forall_mem_append, List.forall_mem_singleton] at h
  obtain ⟨hid, hsession, hstreams, haudio, hqn, hframes, hstart, hlast, hfreq⟩ := h
  have hnarrow : (Conversion.standard ⟨.u32, .finite (e.u "qn")⟩).toNat = e.u "qn" % 2 ^ 32 := by
    change (Double.trunc (e.u "qn") % 2 ^ 32).toNat = _
    rw [← Int.cast_natCast, Double.trunc_intCast]
    omega
  rw [callWith, uWith_eq hid, uWith_eq hsession, uWith_eq hstreams, uWith_eq haudio, uWith_eq hqn,
    hframes, hnarrow, i64With_eq hstart, i64With_eq hlast, i64With_eq hfreq]
  rfl

/-- A source reads the conversions of its two times. -/
theorem sourceWith_eq {e : V} (h : ∀ c ∈ sourceConv e, cast c = c.standard) :
    sourceWith cast e = readSource e := by
  rw [sourceConv, List.forall_mem_append] at h
  rw [sourceWith, i64With_eq h.1, i64With_eq h.2]
  rfl

/-- A list of records is read the same when its records are. -/
theorem readTable_congr {D : Type} {read read' : V → D} {idOf : D → Bytes} {id : String}
    {conv : V → List Conversion} (hid : ∀ e, idOf (read e) = e.strOf id)
    (hid' : ∀ e, idOf (read' e) = e.strOf id)
    (heq : ∀ e, (∀ c ∈ conv e, cast c = c.standard) → read e = read' e) {a : Option V}
    (h : ∀ c ∈ tableConv conv id a, cast c = c.standard) (m : SortedMap Bytes D) :
    readTable read idOf m a = readTable read' idOf m a := by
  refine List.foldl_ext _ _ _ fun m e he => ?_
  rw [tableConv, List.forall_mem_flatMap] at h
  have hc := h e he
  rw [hid, hid']
  split_ifs at hc ⊢
  · rfl
  · rw [heq e hc]

/-- **A family reads the conversions of all its records.** -/
theorem familyWith_eq {F : V} (h : ∀ c ∈ familyConv F, cast c = c.standard) (df : DsFamily) :
    familyWith cast df F = readFamily df F := by
  simp only [familyConv, List.forall_mem_append] at h
  obtain ⟨hnetworks, htgs, hradios, hcalls⟩ := h
  rw [List.forall_mem_flatMap] at hcalls
  have hmap := List.map_congr_left fun e he => callWith_eq (hcalls e he)
  rw [familyWith, readFamily, hmap,
    readTable_congr (fun _ => rfl) (fun _ => rfl) (fun _ => networkWith_eq) hnetworks,
    readTable_congr (fun _ => rfl) (fun _ => rfl) (fun _ => talkgroupWith_eq) htgs,
    readTable_congr (fun _ => rfl) (fun _ => rfl) (fun _ => radioWith_eq) hradios]

/-- **What is read depends on the listed conversions only.** -/
theorem reading_eq {root : V} (h : ∀ c ∈ conversions root, cast c = c.standard) :
    familiesWith cast ((root.get "families").getD .null).members = fileFamilies root ∧
      exportedWith cast root = fileExported root ∧
      ((root.get "sources").getD .null).elements.map (sourceWith cast) =
        ((root.get "sources").getD .null).elements.map readSource := by
  simp only [conversions, List.forall_mem_append] at h
  obtain ⟨hexported, hnow, hfamilies, hsources⟩ := h
  rw [List.forall_mem_flatMap] at hfamilies hsources
  refine ⟨?_, ?_, List.map_congr_left fun e he => sourceWith_eq (hsources e he)⟩
  · refine List.foldl_ext _ _ _ fun m fk hfk => ?_
    have hF := hfamilies fk hfk
    split_ifs at hF ⊢
    · rw [familyWith_eq hF]
    · rfl
  · rw [exportedWith, fileExported, i64With_eq hexported]
    split_ifs at hnow ⊢ with hzero
    · rfl
    · exact i64With_eq hnow

/-- In range a conversion cuts the fraction off, and no more. -/
theorem Conversion.InRange.standard {c : Conversion} (h : c.InRange) {q : ℚ}
    (hq : c.value = .finite q) :
    c.standard = Double.trunc q := by
  obtain ⟨q', hq', h⟩ := h
  obtain rfl := Double.finite.inj (hq'.symm.trans hq)
  obtain ⟨t, v⟩ := c
  obtain rfl : v = .finite q' := hq
  cases t with
  | i64 => exact if_pos h
  | u64 =>
    change ((if Double.trunc q' < 2 ^ 64 then (Double.trunc q').toNat else 0 : ℕ) : ℤ) = _
    rw [if_pos h.2]
    exact Int.toNat_of_nonneg h.1
  | u32 => exact Int.emod_eq_of_lt h.1 h.2

/-- **No import of numbers in range relies on a conversion out of range**: whatever those give, it
reads the same. -/
theorem reading_of_inRange {root : V} (hrange : ∀ c ∈ conversions root, c.InRange)
    (hcast : ∀ c q, c.InRange → c.value = .finite q → cast c = Double.trunc q) :
    familiesWith cast ((root.get "families").getD .null).members = fileFamilies root ∧
      exportedWith cast root = fileExported root ∧
      ((root.get "sources").getD .null).elements.map (sourceWith cast) =
        ((root.get "sources").getD .null).elements.map readSource := by
  refine reading_eq fun c hc => ?_
  obtain ⟨q, hq, -⟩ := id (hrange c hc)
  rw [hcast c q (hrange c hc) hq, (hrange c hc).standard hq]

end Agree

end DsdServer
