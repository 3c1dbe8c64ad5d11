import DsdServer.Assoc.Records

/-!
# Assoc/References — the network keys a family's records hold

A call names the network it was recorded on; talkgroups and radios keep sets of them.  `Within P`
says that all of these satisfy `P`; every operation on a call keeps it, and keeps the network
table's keys.

The property is a parameter, so that one lemma for each operation serves two purposes: with
membership in the table it says that no reference dangles, and with being another network than a
given one that the given one may be dropped.
-/

open Bytes

namespace DsdServer

/-- The set's members satisfy `P`. -/
def SetWithin (P : Bytes → Prop) (s : SortedSet Bytes) : Prop := ∀ n ∈ s, P n

/-- **Every network key held by a call, a talkgroup or a radio satisfies `P`.** -/
structure Family.Within (P : Bytes → Prop) (F : Family) : Prop where
  calls : ∀ k ∈ F.calls, P k.net
  tgs : F.tgs.All fun t => SetWithin P t.networks
  radios : F.radios.All fun r => SetWithin P r.networks

/-- **Every network key held names an entry of the network table.** -/
def Family.Rooted (F : Family) : Prop := F.Within (· ∈ F.networks)

section

variable {P : Bytes → Prop} {F F' : Family} {L : Limits} {id : ℕ} {k : Call} {net : Bytes} {now : ℤ}

/-- A set without members is within anything. -/
theorem setWithin_empty : SetWithin P ∅ := fun _ h => absurd h (SortedMap.not_mem_empty _)

/-- A network that satisfies `P` may be added. -/
theorem SetWithin.addNet {s : SortedSet Bytes} (h : SetWithin P s) (hn : P net) :
    SetWithin P (addNet s net) := by
  rw [DsdServer.addNet]
  split_ifs
  · exact h
  · exact fun n hm => (SortedSet.mem_add.1 hm).elim (fun e => e ▸ hn) (h n)

/-- A table with an entry on demand. -/
theorem all_ensure {V : Type*} {Q : V → Prop} {m : SortedMap Bytes V} (h : m.All Q)
    {lim : Option ℕ} {lastMs : V → ℤ} (i : Bytes) {fresh : V} (hf : Q fresh) :
    (ensure lim lastMs m i fresh).All Q := by
  have hev : (evictOldest lastMs m).All Q := by
    rw [evictOldest]
    split
    · exact h
    · exact h.erase _
  rw [DsdServer.ensure]
  split_ifs
  · exact h
  · exact hev.insert i hf
  · exact h.insert i hf

namespace Family

/-- A weaker property holds of the same keys. -/
theorem Within.imp (h : F.Within P) {Q : Bytes → Prop} (hpq : ∀ n, P n → Q n) : F.Within Q :=
  ⟨fun k hk => hpq _ (h.calls k hk), h.tgs.imp fun _ ht n hn => hpq n (ht n hn),
    h.radios.imp fun _ hr n hn => hpq n (hr n hn)⟩

/-- Only the calls are other ones. -/
theorem Within.onCalls (h : F.Within P) {l : List Call} (hl : ∀ k ∈ l, P k.net) :
    Within P { F with calls := l } := ⟨hl, h.tgs, h.radios⟩

theorem Within.sublist (h : F.Within P) {l : List Call} (hl : l.Sublist F.calls) :
    Within P { F with calls := l } := h.onCalls fun k hk => h.calls k (hl.subset hk)

/-- A record may be changed, if the network it then names satisfies `P`. -/
theorem Within.modifyCall (h : F.Within P) {g : Call → Call}
    (hg : ∀ k ∈ F.calls, k.id = id → P (g k).net) : (F.modifyCall id g).Within P :=
  h.onCalls fun k hk => by
    obtain ⟨o, ho, rfl⟩ := List.mem_map.1 hk
    split_ifs with hid
    · exact hg o ho hid
    · exact h.calls o ho

/-- A change of a record that keeps its network. -/
theorem Within.modifyCall' (h : F.Within P) (id : ℕ) {g : Call → Call}
    (hg : ∀ k, (g k).net = k.net) :
    (F.modifyCall id g).Within P :=
  h.modifyCall fun k hk _ => by
    rw [hg]
    exact h.calls k hk

/-- A radio may be changed, if its set of networks stays within. -/
theorem Within.onRadio (h : F.Within P) (i : Bytes) {g : Radio → Radio}
    (hg : ∀ R : Radio, SetWithin P R.networks → SetWithin P (g R).networks) :
    (F.onRadio i g).Within P :=
  ⟨h.calls, h.tgs, h.radios.modify i hg⟩

/-- A talkgroup may be changed, if its set of networks stays within. -/
theorem Within.onTg (h : F.Within P) (i : Bytes) {g : Talkgroup → Talkgroup}
    (hg : ∀ T : Talkgroup, SetWithin P T.networks → SetWithin P (g T).networks) :
    (F.onTg i g).Within P :=
  ⟨h.calls, h.tgs.modify i hg, h.radios⟩

/-- What a network counts is not a reference. -/
theorem Within.onNetwork (h : F.Within P) (i : Bytes) (g : Network → Network) :
    (F.onNetwork i g).Within P := ⟨h.calls, h.tgs, h.radios⟩

/-- A radio that is new is on no network yet. -/
theorem Within.ensureRadio (h : F.Within P) (i : Bytes) : (F.ensureRadio L i now).Within P :=
  ⟨h.calls, h.tgs, all_ensure h.radios i setWithin_empty⟩

/-- A talkgroup that is new is on no network yet. -/
theorem Within.ensureTg (h : F.Within P) (i : Bytes) : (F.ensureTg L i now).Within P :=
  ⟨h.calls, all_ensure h.tgs i setWithin_empty, h.radios⟩

/-- A radio is heard on a network that satisfies `P`. -/
theorem Within.touchRadio (h : F.Within P) (hn : P net) (i aka : Bytes) :
    (F.touchRadio L i net aka now).Within P :=
  (h.ensureRadio i).onRadio i fun _ hR => hR.addNet hn

/-- A note on the service of a call leaves its network. -/
theorem Within.noteService (h : F.Within P) (x : SortedMap Bytes Bytes) :
    (F.noteService id x now).Within P := by
  have h₁ : (F.noteSvc id x).Within P := by
    rw [noteSvc]
    split
    · exact h.modifyCall' id fun k => by rw [Call.serve]; split_ifs <;> rfl
    · exact h
  rw [Family.noteService, notePos]
  rcases (F.noteSvc id x).findCall id with _ | k
  · exact h₁
  · dsimp only
    split_ifs
    · exact h₁
    · have h₂ := h₁.modifyCall' id (g := fun k => k.place (x.getD (lit "gps") []))
        fun _ => rfl
      exact h₂.onRadio k.src (g := fun r => r.fix (x.getD (lit "gps") []) now) fun _ hR => hR

/-- Counting a key brings in no network. -/
theorem Within.noteKey (h : F.Within P) (k : Call) : (F.noteKey L k).Within P := by
  have h₁ := h.onNetwork k.net fun n => n.noteKey L (encKey k.alg k.kid)
  have h₂ := h₁.onTg k.tgt (g := fun t => t.noteKey L (encKey k.alg k.kid)) fun _ hT => hT
  rw [Family.noteKey]
  split_ifs
  · exact h₁.onRadio k.src (g := fun r => r.noteKey L (encKey k.alg k.kid)) fun _ hR => hR
  · exact h₂.onRadio k.src (g := fun r => r.noteKey L (encKey k.alg k.kid)) fun _ hR => hR

theorem Within.noteEncCounts (h : F.Within P) (id : ℕ) : (F.noteEncCounts L id).Within P := by
  rw [Family.noteEncCounts]
  split
  · exact h
  · next k _ =>
    split_ifs
    · exact (h.modifyCall' id (g := Call.markNoted) fun _ => rfl).noteKey k
    · exact h

theorem Within.countSource (h : F.Within P) (hn : P k.net) : (F.countSource L k now).Within P := by
  rw [Family.countSource]
  split_ifs
  · exact h
  · exact (h.ensureRadio k.src).onRadio k.src fun _ hR => hR.addNet hn

/-- Radios that reach each other are on the network of the call. -/
theorem Within.linkPeers (h : F.Within P) (hn : P k.net) : (F.linkPeers L k now).Within P :=
  ((h.onRadio k.src (g := fun r => r.bumpPeer L k.tgt) fun _ hR => hR).ensureRadio k.tgt).onRadio
    k.tgt (g := fun p => p.reach L k.src k.net now) fun _ hR => hR.addNet hn

/-- The target of a call is on the network of the call. -/
theorem Within.countTarget (h : F.Within P) (hn : P k.net) : (F.countTarget L k now).Within P := by
  have hT : ∀ T : Talkgroup, SetWithin P T.networks → SetWithin P (T.countCall L k now).networks :=
    fun _ hT => hT.addNet hn
  rw [Family.countTarget]
  split_ifs
  · exact (h.ensureTg k.tgt).onTg k.tgt hT
  · exact ((h.onRadio k.src (g := fun r => r.bumpTg L k.tgt) fun _ hR => hR).ensureTg k.tgt).onTg
      k.tgt hT

/-- Both ends of a call are on its network. -/
theorem Within.countEnds (h : F.Within P) (hn : P k.net) : (F.countEnds L k now).Within P := by
  rw [Family.countEnds]
  split_ifs
  · exact h.countSource hn
  · exact (h.countSource hn).linkPeers hn
  · exact (h.countSource hn).countTarget hn

/-- **Counting a call** puts its ends on its own network, which is within. -/
theorem Within.countCall (h : F.Within P) (id : ℕ) : (F.countCall L id now).Within P := by
  rw [Family.countCall]
  rcases hk : F.findCall id with _ | k
  · exact h
  · have h₁ := h.modifyCall' id (g := Call.markCounted) fun _ => rfl
    exact ((h₁.countEnds (h.calls k (findCall_some hk).1)).onNetwork _ _).noteEncCounts id

/-- A call that turns out to be encrypted stays on its network. -/
theorem encrypt_net (k : Call) (x : SortedMap Bytes Bytes) : (k.encrypt x).net = k.net := by
  rw [Call.encrypt]
  dsimp only
  split
  · rfl
  · split_ifs
    · rfl
    · split <;> rfl

theorem Within.noteEncrypted (h : F.Within P) (x : SortedMap Bytes Bytes) :
    (F.noteEncrypted L id x).Within P :=
  (h.modifyCall' id fun k => encrypt_net k x).noteEncCounts id

/-- Taking a call back removes no reference, and brings in none. -/
theorem Within.uncountTarget (h : F.Within P) (k : Call) : (F.uncountTarget L k).Within P := by
  have h₁ := (h.onRadio k.src (g := fun r => r.bumpTg L k.tgt (-1)) fun _ hR => hR).onTg k.tgt
    (g := fun t => t.uncountCall L k) fun _ hT => hT
  rw [Family.uncountTarget]
  split
  · split_ifs
    · exact ⟨h₁.calls, h₁.tgs.erase _, h₁.radios⟩
    · exact h₁
  · exact h₁

/-- A call that turns out to be private counts its other end on the same network. -/
theorem Within.setPrivate (h : F.Within P) (id : ℕ) : (F.setPrivate L id now).Within P := by
  rw [Family.setPrivate]
  rcases hk : F.findCall id with _ | k
  · exact h
  have h₁ := h.modifyCall' id (g := Call.markPrivate) fun _ => rfl
  dsimp only
  split_ifs
  · exact h
  · exact (h₁.uncountTarget k).linkPeers (h.calls k (findCall_some hk).1)
  · exact h₁

theorem Within.countUnsourced (h : F.Within P) (id : ℕ) : (F.countUnsourced L id).Within P := by
  rw [Family.countUnsourced]
  split
  · exact h
  · split_ifs
    · exact h.countCall id
    · exact h

/-- The marks of a closed call are not references. -/
theorem Within.tallyClosed (h : F.Within P) (id : ℕ) : (F.tallyClosed id).Within P := by
  rw [Family.tallyClosed]
  split
  · exact h
  · next k _ =>
    split_ifs
    · exact h
    · exact h.onTg k.tgt (g := fun t => t.tally k) fun _ hT => hT

end Family

end

end DsdServer
