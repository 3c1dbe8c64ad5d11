import DsdServer.Assoc.Handling

/-!
# Assoc/Invariants — what the call handling keeps of a family

Every edit keeps the network table's keys and the references into it, and — with no limit in force —
the balance of the counters; and so does a whole stretch of call handling.
-/

open Bytes Ledger

namespace DsdServer

namespace Family

variable {F : Family} {L : Limits} {id : ℕ} {now : ℤ} {n : Bytes} {k : Call}

/-! ## The network table's keys

Calls change what a network counts, never which networks there are.  Each operation on calls is
followed once, and an edit is one of them. -/

/-- Counting a key makes no network, and drops none. -/
theorem mem_networks_noteKey : n ∈ (F.noteKey L k).networks ↔ n ∈ F.networks := by
  rw [noteKey]
  split_ifs <;> exact SortedMap.mem_modify

/-- Counting the key of a call makes no network. -/
theorem mem_networks_noteEncCounts : n ∈ (F.noteEncCounts L id).networks ↔ n ∈ F.networks := by
  rw [noteEncCounts]
  split
  · exact Iff.rfl
  · split_ifs
    · exact mem_networks_noteKey (F := F.modifyCall id Call.markNoted)
    · exact Iff.rfl

theorem networks_countEnds : (F.countEnds L k now).networks = F.networks := by
  simp only [countEnds, countSource, countTarget]
  split_ifs <;> rfl

theorem mem_networks_countCall : n ∈ (F.countCall L id now).networks ↔ n ∈ F.networks := by
  rw [countCall]
  split
  · exact Iff.rfl
  · next k _ =>
    have h : ((F.modifyCall id Call.markCounted).countEnds L k now).networks = F.networks :=
      networks_countEnds
    refine mem_networks_noteEncCounts.trans ?_
    exact SortedMap.mem_modify.trans (by rw [h])

theorem networks_uncountTarget : (F.uncountTarget L k).networks = F.networks := by
  rw [uncountTarget]
  split
  · split_ifs <;> rfl
  · rfl

theorem networks_setPrivate : (F.setPrivate L id now).networks = F.networks := by
  rw [setPrivate]
  split
  · rfl
  · next k _ =>
    split_ifs
    · rfl
    · exact networks_uncountTarget (F := F.modifyCall id Call.markPrivate)
    · rfl

theorem mem_networks_countUnsourced : n ∈ (F.countUnsourced L id).networks ↔ n ∈ F.networks := by
  rw [countUnsourced]
  split
  · exact Iff.rfl
  · split_ifs
    · exact mem_networks_countCall
    · exact Iff.rfl

theorem networks_tallyClosed : (F.tallyClosed id).networks = F.networks := by
  rw [tallyClosed]
  split
  · rfl
  · split_ifs <;> rfl

end Family

variable {L : Limits} {net : Bytes} {x y : FamilyState × ℕ}

/-- Ending a call makes no network, and drops none. -/
theorem mem_networks_closeCall (w : FamilyState) (id : ℕ) (n : Bytes) :
    n ∈ (w.closeCall L id).fam.networks ↔ n ∈ w.fam.networks := by
  by_cases ho : ∃ k, w.fam.findCall id = some k ∧ k.isOpen
  · obtain ⟨k, hk, ho⟩ := ho
    obtain ⟨g, -, hfam⟩ := w.fam_closeCall L id hk ho
    rw [hfam, Family.networks_tallyClosed]
    exact Family.mem_networks_countUnsourced (F := w.fam.modifyCall id g)
  · rw [w.closeCall_of_closed L id fun k hk => Bool.eq_false_iff.2 fun h' => ho ⟨k, hk, h'⟩]

/-- **An edit keeps the network table's keys.** -/
theorem Edit.networks (e : Edit L net x y) (n : Bytes) :
    n ∈ y.1.fam.networks ↔ n ∈ x.1.fam.networks := by
  cases e with
  | key id => exact Family.mem_networks_noteEncCounts
  | priv hk ho now => exact iff_of_eq (congrArg (n ∈ ·) Family.networks_setPrivate)
  | count hk ho hc hs ht now => exact Family.mem_networks_countCall
  | @close w m id => exact mem_networks_closeCall w id n
  | @join w m dup twin hd ht hne ho hc he =>
    change n ∈ (w.adopt L dup twin).fam.networks ↔ _
    rw [fam_adopt]
    exact Family.mem_networks_noteEncCounts
  | amend | touch | fix | drop | push | quality => exact Iff.rfl

/-! ## The references

References come from the network of the stream that edits, which is in the table.  An edit brings in
no other. -/

variable {P : Bytes → Prop}

/-- A call that ends names the network it named. -/
theorem Family.Within.closeCall {w : FamilyState} (h : w.fam.Within P) (id : ℕ) :
    (w.closeCall L id).fam.Within P := by
  by_cases ho : ∃ k, w.fam.findCall id = some k ∧ k.isOpen
  · obtain ⟨k, hk, ho⟩ := ho
    obtain ⟨g, hg, hfam⟩ := w.fam_closeCall L id hk ho
    rw [hfam]
    refine ((h.modifyCall' id fun k => ?_).countUnsourced id).tallyClosed id
    obtain ⟨q, s, b, hgk⟩ := hg k
    rw [hgk]
    rfl
  · rw [w.closeCall_of_closed L id fun k hk => Bool.eq_false_iff.2 fun h' => ho ⟨k, hk, h'⟩]
    exact h

/-- **An edit keeps the references**: only the network its stream is on is new. -/
theorem Edit.within (e : Edit L net x y) (hs : Spot x) (h : x.1.fam.Within P) (hn : P net) :
    y.1.fam.Within P := by
  cases e with
  | @amend w m id k g hk hg _ =>
    refine h.modifyCall fun o ho hid => ?_
    obtain rfl : o = k := by
      have := hs.kept.findCall_of_mem ho
      rw [hid] at this
      exact Option.some.inj (this.symm.trans hk)
    rcases hg.net with he | ⟨-, he⟩
    · exact he ▸ h.calls o ho
    · exact he ▸ hn
  | touch hi aka now => exact h.touchRadio hn _ aka
  | fix i pos now => exact h.onRadio i (g := fun r => r.fix pos now) fun _ hR => hR
  | key id => exact h.noteEncCounts id
  | priv hk ho now => exact h.setPrivate _
  | count hk ho hc hs ht now => exact h.countCall _
  | close id => exact h.closeCall id
  | @drop w m id hd => exact h.sublist (Family.calls_forget_sublist w.fam id)
  | @join w m dup twin hd ht hne ho hc he =>
    change (w.adopt L dup twin).fam.Within P
    rw [fam_adopt]
    have h₁ := h.modifyCall' twin.id (g := fun t => t.join dup) fun _ => rfl
    exact (h₁.sublist (Family.calls_forget_sublist _ _)).noteEncCounts _
  | @push w m k hid hnet hc hkn ho hsd hkp =>
    refine h.onCalls fun o ho => ?_
    rcases List.mem_append.1 ho with ho | ho
    · exact h.calls o ho
    · rw [List.mem_singleton.1 ho, hnet]
      exact hn
  | quality q => exact h

/-! ## The balance

Balance is kept step by step because an edit posts what the record it changes then says.  Forgetting
a call is no exception: with no limit in force no call is forgotten, and a duplicate that goes was
not counted. -/

/-- **A call that ends keeps the balance**: what it still has to post is posted, to accounts that
are there. -/
theorem Family.Balanced.closeCall {w : FamilyState} (hb : w.fam.Balanced) (h : w.fam.Kept)
    (hn : ∀ k ∈ w.fam.calls, k.net ∈ w.fam.networks) (id : ℕ) :
    (w.closeCall .unlimited id).fam.Balanced := by
  by_cases ho : ∃ k, w.fam.findCall id = some k ∧ k.isOpen
  · obtain ⟨k, hk, ho⟩ := ho
    obtain ⟨g, hg, hfam⟩ := w.fam_closeCall .unlimited id hk ho
    obtain ⟨q, s, b, hgk⟩ := hg k
    rw [hfam]
    exact hb.close h hk (hn k (Family.findCall_some hk).1) ho hgk
  · rw [w.closeCall_of_closed _ id fun k hk => Bool.eq_false_iff.2 fun h' => ho ⟨k, hk, h'⟩]
    exact hb

/-- A record that posts nothing is dropped. -/
theorem Family.Balanced.forget {F : Family} (hb : F.Balanced) (h : F.Kept) {id : ℕ} {k : Call}
    (hk : F.findCall id = some k) (hc : k.counted = false) : (F.forget id).Balanced := by
  obtain ⟨p, q, ha⟩ := h.around hk
  rw [Family.Balanced, ha.calls] at hb
  rw [Family.Balanced, ha.forget]
  exact Ledger.Balanced.remove hb (Call.postings_of_uncounted hc)

/-- **With no limit in force, an edit keeps the balance.** -/
theorem Edit.balanced (e : Edit .unlimited net x y) (hs : Spot x)
    (hn : ∀ k ∈ x.1.fam.calls, k.net ∈ x.1.fam.networks) (hb : x.1.fam.Balanced) :
    y.1.fam.Balanced := by
  cases e with
  | amend hk hg _ => exact hb.amend hs.kept hk hg
  | touch hi aka now => exact hb.congr (Family.value_touchRadio ..) rfl
  | fix i pos now =>
    exact hb.congr (Family.value_onRadio fun R => by funext c; cases c <;> rfl) rfl
  | key id => exact hb.noteEncCounts hs.kept id
  | priv hk ho now => exact hb.setPrivate hs.kept hk ho
  | count hk ho hc hsrc ht now =>
    exact hb.countCall hs.kept hk (hn _ (Family.findCall_some hk).1) hc ht ho
  | close id => exact hb.closeCall hs.kept hn id
  | drop id hd => exact absurd rfl hd
  | @join w m dup twin hd ht hne ho hc he =>
    change (w.adopt .unlimited dup twin).fam.Balanced
    rw [fam_adopt]
    have hg : Call.Amends [] twin (twin.join dup) := Call.amends_join ho []
    have h₁ := hs.kept.amend (g := fun t => t.join dup) ht hg
    have hb₁ := hb.amend hs.kept (g := fun t => t.join dup) ht hg
    have hd' : (w.fam.modifyCall twin.id fun t => t.join dup).findCall dup.id = some dup := by
      rw [Family.findCall_modifyCall (g := fun t => t.join dup) fun _ => rfl, hd, Option.map_some,
        if_neg (Ne.symm hne)]
    exact (hb₁.forget h₁ hd' hc).noteEncCounts (h₁.forget dup.id) _
  | push hid hnet hc hkn ho hsd hkp => exact hb.append (Call.postings_of_uncounted hc)
  | quality q => exact hb

/-! ## A stretch of call handling

Rooted references are needed for the balance, as a count for a network that is not in the table
would be lost.  So the two are carried together along a sequence of edits. -/

/-- A stream's network is in the table, and so is every network the records name. -/
theorem Edit.rooted (e : Edit L net x y) (hs : Spot x) (h : x.1.fam.Rooted)
    (hn : net ∈ x.1.fam.networks) : y.1.fam.Rooted ∧ net ∈ y.1.fam.networks :=
  ⟨(e.within hs h hn).imp fun n hm => (e.networks n).2 hm, (e.networks net).2 hn⟩

/-- A sequence of edits keeps the references rooted, and the network of its stream in the table. -/
theorem edits_rooted (he : Relation.ReflTransGen (Edit L net) x y) (hs : Spot x)
    (h : x.1.fam.Rooted) (hn : net ∈ x.1.fam.networks) :
    y.1.fam.Rooted ∧ net ∈ y.1.fam.networks := by
  induction he with
  | refl => exact ⟨h, hn⟩
  | tail he e ih => exact e.rooted (hs.edits he) ih.1 ih.2

/-- **A sequence of edits keeps the counters balanced.** -/
theorem edits_balanced (he : Relation.ReflTransGen (Edit .unlimited net) x y) (hs : Spot x)
    (h : x.1.fam.Rooted) (hn : net ∈ x.1.fam.networks) (hb : x.1.fam.Balanced) :
    y.1.fam.Balanced := by
  induction he with
  | refl => exact hb
  | tail he e ih => exact e.balanced (hs.edits he) (edits_rooted he hs h hn).1.calls ih

end DsdServer
