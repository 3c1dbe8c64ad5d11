import DsdServer.Assoc.Identity
import DsdServer.Merge.Apply
import DsdServer.Merge.XmlText

/-!
# Merge/Graphml — the association graph as GraphML

Each network, talkgroup and radio of a dataset becomes a node, under an id of its protocol, its kind
and its own id, and an edge says who talked where.  The ids are joined by a separator that each of
them may hold, and escaped, which takes some different bytes to one; `graphml_identifies_iff` says
for which datasets **the node ids still tell the nodes apart**.

An id is read back as long as the escaping can be undone, and it can be undone for all names without
the bytes it replaces.  The condition is therefore a relation between two names of one protocol and
kind: to be different and to be escaped alike.
-/

open Bytes

namespace DsdServer

open FlatMap

/-! ## The document

A document is nodes and edges with data under keys; how they are put in tags is a matter of the
writer below. -/

/-- The value of an attribute, as it is written. -/
inductive Datum
  | text (b : Bytes)
  | num (n : ℕ)

/-- A node of the document. -/
structure GraphNode where
  id : Bytes
  data : List (Bytes × Datum)

/-- An edge of the document. -/
structure GraphEdge where
  id : Bytes
  source : Bytes
  target : Bytes
  etype : Bytes
  weight : ℕ
  /-- only where there are any -/
  ecalls : Option ℕ

/-- **The nodes and the edges of the document**, each in the order it has them. -/
structure Graph where
  nodes : List GraphNode
  edges : List GraphEdge

/-! ## Entities and their ids

An id is the protocol, a letter for the kind, and the entity's own id, with colons between them.  A
protocol is a name from a file, so it may hold a colon as well. -/

/-- The kinds of entities. -/
inductive Kind
  | network
  | talkgroup
  | radio
deriving DecidableEq

/-- The letter of a kind in an id. -/
def Kind.letter : Kind → UInt8
  | .network => ch 'n'
  | .talkgroup => ch 't'
  | .radio => ch 'r'

/-- A network, talkgroup or radio of a protocol. -/
structure Entity where
  fam : Bytes
  kind : Kind
  id : Bytes
deriving DecidableEq

/-- The id of an entity, before it is escaped. -/
def nid (e : Entity) : Bytes := e.fam ++ ch ':' :: e.kind.letter :: ch ':' :: e.id

/-! ## Writing it

Each kind of entity has its own data, under the keys of the format.  Texts are escaped, and so are
the ids, once they are put together. -/

/-- The Gregorian date of a day, counted from the first one of 1970. -/
def civil (days : ℤ) : ℤ × ℤ × ℤ :=
  let z := days + 719468
  let doe := z % 146097
  let yoe := (doe - doe / 1460 + doe / 36524 - doe / 146096) / 365
  let doy := doe - (365 * yoe + yoe / 4 - yoe / 100)
  let mp := (5 * doy + 2) / 153
  let m := if mp < 10 then mp + 3 else mp - 9
  (yoe + z / 146097 * 400 + (if m ≤ 2 then 1 else 0), m, doy - (153 * mp + 2) / 5 + 1)

/-- A number of two digits, as in a date. -/
def twoDigits (i : ℤ) : Bytes := (if i < 10 then lit "0" else []) ++ decInt i

/-- A time in UTC, to the second. -/
def iso (ms : ℤ) : Bytes :=
  if ms = 0 then []
  else
    let t := ms.tdiv 1000
    let day := civil (t / 86400)
    let sec := t % 86400
    decInt day.1 ++ lit "-" ++ twoDigits day.2.1 ++ lit "-" ++ twoDigits day.2.2 ++ lit "T" ++
      twoDigits (sec / 3600) ++ lit ":" ++ twoDigits (sec / 60 % 60) ++ lit ":" ++
      twoDigits (sec % 60) ++ lit "Z"

example : iso 1709210096789 = lit "2024-02-29T12:34:56Z" := by decide +kernel

/-- Texts after one another, each apart from what is there. -/
def separated (sep : Bytes) (l : List Bytes) : Bytes :=
  l.foldl (fun out x => out ++ (if out = [] then [] else sep) ++ x) []

def dt (k : String) (v : Bytes) : Bytes × Datum := (lit k, .text (xesc v))

/-- A number under a key. -/
def dn (k : String) (n : ℕ) : Bytes × Datum := (lit k, .num n)

/-- The labels of networks; a key stands for one that is not there. -/
def DsFamily.netlabels (F : DsFamily) (s : SortedSet Bytes) : Bytes :=
  separated (lit "; ") (s.keys.map fun k => ((F.networks.find? k).map DsNetwork.label).getD k)

/-- The node of a network. -/
def networkNode (fam : Bytes) (n : DsNetwork) : GraphNode :=
  let freqs := separated (lit "; ") (n.freqs.keys.map freqText)
  { id := xesc (nid ⟨fam, .network, n.key⟩)
    data :=
      [dt "type" (lit "network"), dt "protocol" fam, dt "label" n.label, dn "calls" n.calls,
        dt "confidence" n.confidence,
        dt "identifiers" (separated (lit "; ") (n.ids.entries.map fun i => i.1 ++ lit "=" ++ i.2)),
        dt "sites" (separated (lit "; ") n.sites.keys)] ++
      (if freqs = [] then [] else [dt "frequencies" freqs]) ++
      [dt "first_seen" (iso n.first), dt "last_seen" (iso n.last)] }

/-- The node of a talkgroup. -/
def talkgroupNode (fam : Bytes) (F : DsFamily) (t : DsTalkgroup) : GraphNode where
  id := xesc (nid ⟨fam, .talkgroup, t.id⟩)
  data :=
    [dt "type" (lit "talkgroup"), dt "protocol" fam, dt "label" (lit "TG " ++ t.id),
      dn "calls" t.calls, dn "radios" t.radios.size, dn "emergencies" t.emerg, dn "encrypted" t.enc,
      dt "networks" (F.netlabels t.networks), dt "first_seen" (iso t.first),
      dt "last_seen" (iso t.last)]

/-- The node of a radio. -/
def radioNode (fam : Bytes) (F : DsFamily) (r : DsRadio) : GraphNode :=
  let al := separated (lit " / ") r.aliases
  { id := xesc (nid ⟨fam, .radio, r.id⟩)
    data :=
      [dt "type" (lit "radio"), dt "protocol" fam,
        dt "label" (if al = [] then r.id else r.id ++ lit " (" ++ al ++ lit ")"),
        dn "calls" r.calls,
        dt "aliases" al, dn "talkgroups" r.tgs.size, dt "networks" (F.netlabels r.networks),
        dt "first_seen" (iso r.first), dt "last_seen" (iso r.last)] }

/-- Two entities, and what is between them. -/
structure Link where
  source : Entity
  target : Entity
  etype : Bytes
  calls : ℕ

/-- The links of a radio: to talkgroups, to the peers after it, and to its networks. -/
def DsRadio.links (fam : Bytes) (F : DsFamily) (r : DsRadio) : List Link :=
  ((r.tgs.entries.filter fun t => t.1 ∈ F.tgs).map fun t =>
    ⟨⟨fam, .radio, r.id⟩, ⟨fam, .talkgroup, t.1⟩, lit "talkgroup", t.2⟩) ++
  ((r.peers.entries.filter fun p => r.id < p.1 ∧ p.1 ∈ F.radios).map fun p =>
    ⟨⟨fam, .radio, r.id⟩, ⟨fam, .radio, p.1⟩, lit "private", p.2⟩) ++
  (r.networks.keys.filter (· ∈ F.networks)).map fun k =>
    ⟨⟨fam, .radio, r.id⟩, ⟨fam, .network, k⟩, lit "member", 0⟩

/-- Who talked where, in one protocol. -/
def DsFamily.links (fam : Bytes) (F : DsFamily) : List Link :=
  (F.radios.entries.flatMap fun kv => kv.2.links fam F) ++
  F.tgs.entries.flatMap fun kv => (kv.2.networks.keys.filter (· ∈ F.networks)).map fun k =>
    ⟨⟨fam, .talkgroup, kv.1⟩, ⟨fam, .network, k⟩, lit "member", 0⟩

/-- The nodes of one protocol. -/
def DsFamily.nodes (fam : Bytes) (F : DsFamily) : List GraphNode :=
  F.networks.entries.map (fun kv => networkNode fam kv.2) ++
  F.tgs.entries.map (fun kv => talkgroupNode fam F kv.2) ++
  F.radios.entries.map fun kv => radioNode fam F kv.2

/-- The `i`th edge. -/
def edge (i : ℕ) (l : Link) : GraphEdge where
  id := lit "e" ++ dec (i + 1)
  source := xesc (nid l.source)
  target := xesc (nid l.target)
  etype := xesc l.etype
  weight := if l.calls = 0 then 1 else l.calls
  ecalls := if l.calls = 0 then none else some l.calls

/-- The data with its merge rules applied: the format cannot show rules. -/
def shown (d : Dataset) : Dataset := if d.merges.isEmpty then d else applyMerges d

/-- **A dataset as GraphML.** -/
def graphml (d : Dataset) : Graph where
  nodes := (shown d).fams.entries.flatMap fun fk => fk.2.nodes fk.1
  edges := ((shown d).fams.entries.flatMap fun fk => fk.2.links fk.1).mapIdx edge

/-! ## What the ids are for

A reader of the document knows nodes by their ids, so two nodes with one id are one node to him.
The document identifies its nodes when that does not happen. -/

/-- **The map keys are the entities' ids.** -/
structure DsFamily.Keyed (F : DsFamily) : Prop where
  networks : ∀ k n, F.networks.find? k = some n → n.key = k
  tgs : ∀ i t, F.tgs.find? i = some t → t.id = i
  radios : ∀ i r, F.radios.find? i = some r → r.id = i

/-- Every record is under its own key. -/
def Dataset.Keyed (d : Dataset) : Prop := ∀ fam F, d.fams.find? fam = some F → F.Keyed

theorem Dataset.keyed_iff {d : Dataset} : d.Keyed ↔ ∀ fk ∈ d.fams.entries,
    (∀ kv ∈ fk.2.networks.entries, kv.2.key = kv.1) ∧ (∀ kv ∈ fk.2.tgs.entries, kv.2.id = kv.1) ∧
      ∀ kv ∈ fk.2.radios.entries, kv.2.id = kv.1 := by
  constructor
  · intro h fk hfk
    have hF := h fk.1 fk.2 (SortedMap.find?_eq_some_iff.2 hfk)
    exact ⟨fun kv hkv => hF.networks _ _ (SortedMap.find?_eq_some_iff.2 hkv),
      fun kv hkv => hF.tgs _ _ (SortedMap.find?_eq_some_iff.2 hkv),
      fun kv hkv => hF.radios _ _ (SortedMap.find?_eq_some_iff.2 hkv)⟩
  · intro h fam F hF
    obtain ⟨hnets, htgs, hradios⟩ := h (fam, F) (SortedMap.find?_eq_some_iff.1 hF)
    exact ⟨fun k n hn => hnets (k, n) (SortedMap.find?_eq_some_iff.1 hn),
      fun i t ht => htgs (i, t) (SortedMap.find?_eq_some_iff.1 ht),
      fun i r hr => hradios (i, r) (SortedMap.find?_eq_some_iff.1 hr)⟩

instance (d : Dataset) : Decidable d.Keyed := decidable_of_iff' _ Dataset.keyed_iff

/-- The entities of a dataset; a network goes by its root. -/
def Dataset.Has (d : Dataset) (e : Entity) : Prop :=
  ∃ F, d.fams.find? e.fam = some F ∧
    match e.kind with
    | .network => ∃ k ∈ F.networks, root (rulesOf d.merges e.fam) k = e.id
    | .talkgroup => e.id ∈ F.tgs
    | .radio => e.id ∈ F.radios

/-- **Two entities that are related**, and how. -/
inductive Dataset.Relates (d : Dataset) : Entity → Entity → Bytes → Prop
  | talkgroup {fam i t : Bytes} {F : DsFamily} {r : DsRadio} : d.fams.find? fam = some F →
      F.radios.find? i = some r → t ∈ r.tgs →
      d.Relates ⟨fam, .radio, i⟩ ⟨fam, .talkgroup, t⟩ (lit "talkgroup")
  | peer {fam i p : Bytes} {F : DsFamily} {r : DsRadio} : d.fams.find? fam = some F →
      F.radios.find? i = some r → p ∈ r.peers →
      d.Relates ⟨fam, .radio, i⟩ ⟨fam, .radio, p⟩ (lit "private")
  | radio {fam i k : Bytes} {F : DsFamily} {r : DsRadio} : d.fams.find? fam = some F →
      F.radios.find? i = some r → k ∈ r.networks →
      d.Relates ⟨fam, .radio, i⟩ ⟨fam, .network, root (rulesOf d.merges fam) k⟩ (lit "member")
  | member {fam i k : Bytes} {F : DsFamily} {t : DsTalkgroup} : d.fams.find? fam = some F →
      F.tgs.find? i = some t → k ∈ t.networks →
      d.Relates ⟨fam, .talkgroup, i⟩ ⟨fam, .network, root (rulesOf d.merges fam) k⟩ (lit "member")

/-- The node of an entity. -/
def DsFamily.node (F : DsFamily) (e : Entity) : Option GraphNode :=
  match e.kind with
  | .network => (F.networks.find? e.id).map (networkNode e.fam)
  | .talkgroup => (F.tgs.find? e.id).map (talkgroupNode e.fam F)
  | .radio => (F.radios.find? e.id).map (radioNode e.fam F)

/-- The node an entity should have. -/
def Dataset.node (d : Dataset) (e : Entity) : Option GraphNode :=
  ((shown d).fams.find? e.fam).bind fun F => F.node e

/-- **A document that identifies what it shows**: no id is that of two nodes, and an edge is between
the nodes of two entities that are related as it says. -/
structure Dataset.Identified (d : Dataset) (g : Graph) : Prop where
  distinct : (g.nodes.map GraphNode.id).Nodup
  ends : ∀ e ∈ g.edges, ∃ a b, d.Relates a b e.etype ∧
    (∃ n ∈ g.nodes, d.node a = some n ∧ n.id = e.source) ∧ ∃ n ∈ g.nodes, d.node b = some n ∧
    n.id = e.target

/-- **Two entities whose ids are written alike**: of one kind, or the protocol of one is named like
that of the other with the kind of this, and maybe the start of its id, after it. -/
def Entity.Clash (a b : Entity) : Prop :=
  (a.kind = b.kind ∧ xesc a.fam = xesc b.fam ∧ xesc a.id = xesc b.id) ∨
  (xesc b.fam = xesc a.fam ++ [ch ':', a.kind.letter] ∧
    xesc a.id = b.kind.letter :: ch ':' :: xesc b.id) ∨
  ∃ v, xesc b.fam = xesc a.fam ++ ch ':' :: a.kind.letter :: ch ':' :: v ∧
    xesc a.id = v ++ ch ':' :: b.kind.letter :: ch ':' :: xesc b.id

/-! ## Ids

Escaping takes the ids apart no further: it works byte by byte, but for sequences, and leaves the
separators and the letters. -/

theorem Kind.letter_inj {a b : Kind} : a.letter = b.letter ↔ a = b := by
  cases a <;> cases b <;> decide

theorem Kind.letter_ne (k : Kind) : k.letter ≠ ch ':' := by
  cases k <;> decide

theorem Kind.escAscii_letter (k : Kind) : escAscii k.letter = [k.letter] := by
  cases k <;> decide

theorem Kind.letter_lt (k : Kind) : k.letter.toNat < 0x80 := by
  cases k <;> decide

/-- **An id is escaped piece by piece.** -/
theorem xesc_nid (e : Entity) :
    xesc (nid e) = xesc e.fam ++ ch ':' :: e.kind.letter :: ch ':' :: xesc e.id := by
  have hcolon : ∀ s, xesc (ch ':' :: s) = ch ':' :: xesc s := xesc_ascii (by decide)
  have hletter : ∀ s, xesc (e.kind.letter :: s) = e.kind.letter :: xesc s := fun s => by
    rw [xesc_ascii e.kind.letter_lt, e.kind.escAscii_letter]
    rfl
  rw [nid, xesc_append (by decide), hcolon, hletter, hcolon]

/-- What a kind and an id can go on with, when they start with the rest of a protocol. -/
theorem rest_eq_iff {a b : Kind} {s t w : Bytes} :
    ch ':' :: a.letter :: ch ':' :: s = w ++ ch ':' :: b.letter :: ch ':' :: t ↔
      (w = [] ∧ a = b ∧ s = t) ∨ (w = [ch ':', a.letter] ∧ s = b.letter :: ch ':' :: t) ∨
        ∃ v, w = ch ':' :: a.letter :: ch ':' :: v ∧
          s = v ++ ch ':' :: b.letter :: ch ':' :: t := by
  constructor
  · intro h
    rcases w with _ | ⟨x, _ | ⟨y, _ | ⟨z, v⟩⟩⟩ <;>
      simp only [List.nil_append, List.cons_append, List.cons.injEq, true_and] at h
    · exact Or.inl ⟨rfl, Kind.letter_inj.1 h.1, h.2⟩
    · exact absurd h.2.1 a.letter_ne
    · obtain ⟨rfl, rfl, h⟩ := h
      exact Or.inr (Or.inl ⟨rfl, h⟩)
    · obtain ⟨rfl, rfl, rfl, h⟩ := h
      exact Or.inr (Or.inr ⟨v, rfl, h⟩)
  · rintro (⟨rfl, rfl, rfl⟩ | ⟨rfl, rfl⟩ | ⟨v, rfl, rfl⟩) <;> rfl

/-- **When two entities have one id**: one protocol's name goes on where the other's stops. -/
theorem clash_iff {a b : Entity} : a.Clash b ↔ ∃ w, xesc b.fam = xesc a.fam ++ w ∧
    ch ':' :: a.kind.letter :: ch ':' :: xesc a.id = w ++ ch ':' :: b.kind.letter :: ch ':' ::
      xesc b.id := by
  constructor
  · rintro (⟨hk, hf, hi⟩ | ⟨hf, hi⟩ | ⟨v, hf, hi⟩)
    · exact ⟨[], by rw [hf, List.append_nil], rest_eq_iff.2 (Or.inl ⟨rfl, hk, hi⟩)⟩
    · exact ⟨_, hf, rest_eq_iff.2 (Or.inr (Or.inl ⟨rfl, hi⟩))⟩
    · exact ⟨_, hf, rest_eq_iff.2 (Or.inr (Or.inr ⟨v, rfl, hi⟩))⟩
  · rintro ⟨w, hf, h⟩
    rcases rest_eq_iff.1 h with ⟨rfl, hk, hi⟩ | ⟨rfl, hi⟩ | ⟨v, rfl, hi⟩
    · exact Or.inl ⟨hk, by rw [hf, List.append_nil], hi⟩
    · exact Or.inr (Or.inl ⟨hf, hi⟩)
    · exact Or.inr (Or.inr ⟨v, hf, hi⟩)

/-- **Two ids are written alike when their entities clash**, one way or the other. -/
theorem xesc_nid_eq_iff {a b : Entity} : xesc (nid a) = xesc (nid b) ↔ a.Clash b ∨ b.Clash a := by
  rw [xesc_nid, xesc_nid, List.append_eq_append_iff, clash_iff, clash_iff]

/-! ## The data that is shown

The graph shows the data with the rules applied, if there are any.  Its entities are then those of
the data, with groups of networks in place of networks. -/

/-- Without rules every network is its own. -/
theorem root_empty (k : Bytes) : root (∅ : SortedMap Bytes Bytes) k = k :=
  root_of_not_mem (SortedMap.not_mem_empty k)

namespace DsFamily

variable {R : SortedMap Bytes Bytes} {F : DsFamily} {fam : Bytes}

/-- A protocol's data under its rules, when there are any. -/
def underRules (R : SortedMap Bytes Bytes) (F : DsFamily) : DsFamily :=
  if R = ∅ then F else F.applied R

/-- The rules leave records under their own keys. -/
theorem Keyed.underRules (h : F.Keyed) : (F.underRules R).Keyed := by
  rw [DsFamily.underRules]
  split_ifs
  · exact h
  · constructor
    · intro k n hn
      refine SortedMap.all_gathered (Q := fun k (n : DsNetwork) => n.key = k) ?_ ?_ k n hn
      · exact fun _ _ => rfl
      · exact fun _ _ _ hv => hv
    · intro i t ht
      rw [applied, SortedMap.find?_mapVal, Option.map_eq_some_iff] at ht
      obtain ⟨t', ht', rfl⟩ := ht
      exact h.tgs i t' ht'
    · intro i r hr
      rw [applied, SortedMap.find?_mapVal, Option.map_eq_some_iff] at hr
      obtain ⟨r', hr', rfl⟩ := hr
      exact h.radios i r' hr'

/-- The networks that are shown are the roots. -/
theorem mem_networks_underRules {k : Bytes} :
    k ∈ (F.underRules R).networks ↔ ∃ j ∈ F.networks, root R j = k := by
  rw [underRules]
  split_ifs with h
  · simp [h, root_empty]
  · exact SortedMap.mem_gathered

/-- The talkgroups that are shown are those there are. -/
theorem mem_tgs_underRules {i : Bytes} : i ∈ (F.underRules R).tgs ↔ i ∈ F.tgs := by
  rw [underRules]
  split_ifs
  · rfl
  · exact SortedMap.mem_mapVal

/-- The radios that are shown are those there are. -/
theorem mem_radios_underRules {i : Bytes} : i ∈ (F.underRules R).radios ↔ i ∈ F.radios := by
  rw [underRules]
  split_ifs
  · rfl
  · exact SortedMap.mem_mapVal

/-- A talkgroup under the rules is in the roots of its networks. -/
theorem tg_of_underRules {i : Bytes} {t' : DsTalkgroup}
    (h : (F.underRules R).tgs.find? i = some t') :
    ∃ t, F.tgs.find? i = some t ∧ ∀ k ∈ t'.networks, ∃ j ∈ t.networks, root R j = k := by
  rw [underRules] at h
  split_ifs at h with hR
  · exact ⟨t', h, fun k hk => ⟨k, hk, by rw [hR, root_empty]⟩⟩
  · rw [applied, SortedMap.find?_mapVal, Option.map_eq_some_iff] at h
    obtain ⟨t, ht, rfl⟩ := h
    exact ⟨t, ht, fun k => mem_fixNetworks.1⟩

/-- A radio under the rules is in the roots of its networks, and has the talkgroups and peers it
had. -/
theorem radio_of_underRules {i : Bytes} {r' : DsRadio}
    (h : (F.underRules R).radios.find? i = some r') :
    ∃ r, F.radios.find? i = some r ∧ r'.tgs = r.tgs ∧ r'.peers = r.peers ∧
      ∀ k ∈ r'.networks, ∃ j ∈ r.networks, root R j = k := by
  rw [underRules] at h
  split_ifs at h with hR
  · exact ⟨r', h, rfl, rfl, fun k hk => ⟨k, hk, by rw [hR, root_empty]⟩⟩
  · rw [applied, SortedMap.find?_mapVal, Option.map_eq_some_iff] at h
    obtain ⟨r, hr, rfl⟩ := h
    exact ⟨r, hr, rfl, rfl, fun k => mem_fixNetworks.1⟩

/-! ## Entities

The nodes are listed protocol by protocol, so where an entity's node stands is known, and that it is
the only one. -/

/-- The entities of a protocol, in the order of their nodes. -/
def entities (fam : Bytes) (F : DsFamily) : List Entity :=
  F.networks.keys.map (fun k => ⟨fam, .network, k⟩) ++
    F.tgs.keys.map (fun i => ⟨fam, .talkgroup, i⟩) ++
    F.radios.keys.map fun i => ⟨fam, .radio, i⟩

theorem mem_entities {e : Entity} : e ∈ F.entities fam ↔ e.fam = fam ∧
    match e.kind with
    | .network => e.id ∈ F.networks
    | .talkgroup => e.id ∈ F.tgs
    | .radio => e.id ∈ F.radios := by
  obtain ⟨f, k, i⟩ := e
  cases k <;> simp [entities, eq_comm (a := fam), and_comm] <;> exact fun _ => Iff.rfl

theorem nodup_entities (fam : Bytes) (F : DsFamily) : (F.entities fam).Nodup := by
  have hinj : ∀ k, Function.Injective fun i => (⟨fam, k, i⟩ : Entity) :=
    fun k i j h => (Entity.mk.inj h).2.2
  rw [entities, List.nodup_append, List.nodup_append]
  refine ⟨⟨F.networks.nodup_keys.map (hinj _), F.tgs.nodup_keys.map (hinj _), ?_⟩,
    F.radios.nodup_keys.map (hinj _), ?_⟩
  · intro a ha b hb hab
    obtain ⟨_, _, rfl⟩ := List.mem_map.1 ha
    obtain ⟨_, _, rfl⟩ := List.mem_map.1 hb
    exact Kind.noConfusion (Entity.mk.inj hab).2.1
  · intro a ha b hb hab
    obtain ⟨_, _, rfl⟩ := List.mem_map.1 hb
    rcases List.mem_append.1 ha with ha | ha
    · obtain ⟨_, _, rfl⟩ := List.mem_map.1 ha
      exact Kind.noConfusion (Entity.mk.inj hab).2.1
    · obtain ⟨_, _, rfl⟩ := List.mem_map.1 ha
      exact Kind.noConfusion (Entity.mk.inj hab).2.1

/-- **The nodes have the ids of the entities.** -/
theorem Keyed.ids_nodes (h : F.Keyed) :
    (F.nodes fam).map GraphNode.id = (F.entities fam).map fun e => xesc (nid e) := by
  have hnets : F.networks.entries.map (fun kv => xesc (nid ⟨fam, .network, kv.2.key⟩)) =
      F.networks.entries.map fun kv => xesc (nid ⟨fam, .network, kv.1⟩) :=
    List.map_congr_left fun kv hkv => by rw [h.networks _ _ (SortedMap.find?_eq_some_iff.2 hkv)]
  have htgs : F.tgs.entries.map (fun kv => xesc (nid ⟨fam, .talkgroup, kv.2.id⟩)) =
      F.tgs.entries.map fun kv => xesc (nid ⟨fam, .talkgroup, kv.1⟩) :=
    List.map_congr_left fun kv hkv => by rw [h.tgs _ _ (SortedMap.find?_eq_some_iff.2 hkv)]
  have hradios : F.radios.entries.map (fun kv => xesc (nid ⟨fam, .radio, kv.2.id⟩)) =
      F.radios.entries.map fun kv => xesc (nid ⟨fam, .radio, kv.1⟩) :=
    List.map_congr_left fun kv hkv => by rw [h.radios _ _ (SortedMap.find?_eq_some_iff.2 hkv)]
  simp only [nodes, entities, SortedMap.keys, List.map_append, List.map_map]
  exact congrArg₂ _ (congrArg₂ _ hnets htgs) hradios

/-- An entity has a node, under its id. -/
theorem Keyed.exists_node (h : F.Keyed) {e : Entity} (he : e ∈ F.entities fam) :
    ∃ n ∈ F.nodes fam, F.node e = some n ∧ n.id = xesc (nid e) := by
  obtain ⟨rfl, hmem⟩ := mem_entities.1 he
  obtain ⟨f, k, i⟩ := e
  cases k with
  | network =>
    obtain ⟨n, hn⟩ := SortedMap.mem_iff_find?.1 hmem
    refine ⟨networkNode f n, ?_, congrArg (Option.map _) hn, by rw [← h.networks i n hn]; rfl⟩
    exact List.mem_append_left _ (List.mem_append_left _
      (List.mem_map.2 ⟨(i, n), SortedMap.find?_eq_some_iff.1 hn, rfl⟩))
  | talkgroup =>
    obtain ⟨t, ht⟩ := SortedMap.mem_iff_find?.1 hmem
    refine ⟨talkgroupNode f F t, ?_, congrArg (Option.map _) ht, by rw [← h.tgs i t ht]; rfl⟩
    exact List.mem_append_left _ (List.mem_append_right _
      (List.mem_map.2 ⟨(i, t), SortedMap.find?_eq_some_iff.1 ht, rfl⟩))
  | radio =>
    obtain ⟨r, hr⟩ := SortedMap.mem_iff_find?.1 hmem
    refine ⟨radioNode f F r, ?_, congrArg (Option.map _) hr, by rw [← h.radios i r hr]; rfl⟩
    exact List.mem_append_right _ (List.mem_map.2 ⟨(i, r), SortedMap.find?_eq_some_iff.1 hr, rfl⟩)

/-- **The links of a protocol are between its entities.** -/
theorem Keyed.mem_entities_of_links (h : F.Keyed) {l : Link} (hl : l ∈ F.links fam) :
    l.source ∈ F.entities fam ∧ l.target ∈ F.entities fam := by
  rw [links, List.mem_append, List.mem_flatMap, List.mem_flatMap] at hl
  rcases hl with ⟨kv, hkv, hl⟩ | ⟨kv, hkv, hl⟩
  · have hr := SortedMap.find?_eq_some_iff.2 hkv
    have hsource : ⟨fam, .radio, kv.2.id⟩ ∈ F.entities fam := by
      rw [h.radios _ _ hr]
      exact mem_entities.2 ⟨rfl, SortedMap.mem_of_find? hr⟩
    rw [DsRadio.links, List.mem_append, List.mem_append, List.mem_map, List.mem_map,
      List.mem_map] at hl
    rcases hl with (⟨t, ht, rfl⟩ | ⟨p, hp, rfl⟩) | ⟨k, hk, rfl⟩
    · exact ⟨hsource, mem_entities.2 ⟨rfl, of_decide_eq_true (List.mem_filter.1 ht).2⟩⟩
    · exact ⟨hsource, mem_entities.2 ⟨rfl, (of_decide_eq_true (List.mem_filter.1 hp).2).2⟩⟩
    · exact ⟨hsource, mem_entities.2 ⟨rfl, of_decide_eq_true (List.mem_filter.1 hk).2⟩⟩
  · obtain ⟨k, hk, rfl⟩ := List.mem_map.1 hl
    exact ⟨mem_entities.2 ⟨rfl, SortedMap.mem_of_find? (SortedMap.find?_eq_some_iff.2 hkv)⟩,
      mem_entities.2 ⟨rfl, of_decide_eq_true (List.mem_filter.1 hk).2⟩⟩

end DsFamily

/-- A protocol's data as it is shown. -/
theorem find?_shown (d : Dataset) (fam : Bytes) :
    (shown d).fams.find? fam = (d.fams.find? fam).map
      (DsFamily.underRules (rulesOf d.merges fam)) := by
  by_cases h : d.merges.isEmpty = true
  · have hrules : rulesOf d.merges fam = ∅ := by rw [SortedMap.isEmpty_eq_true_iff.1 h]; rfl
    rw [shown, if_pos h, hrules]
    exact Option.map_id'.symm
  · rw [shown, if_neg h, find?_applyMerges]
    rfl

/-- What is shown has its records under their own keys. -/
theorem Dataset.Keyed.keyed_shown {d : Dataset} (h : d.Keyed) : (shown d).Keyed := by
  intro fam F' hF'
  rw [find?_shown, Option.map_eq_some_iff] at hF'
  obtain ⟨F, hF, rfl⟩ := hF'
  exact (h fam F hF).underRules

namespace Dataset

variable {d : Dataset}

/-- The entities that are shown, in the order of their nodes. -/
def entities (d : Dataset) : List Entity :=
  (shown d).fams.entries.flatMap fun fk => fk.2.entities fk.1

theorem mem_entities {e : Entity} : e ∈ d.entities ↔ d.Has e := by
  rw [entities, List.mem_flatMap]
  constructor
  · rintro ⟨⟨fam, F'⟩, hF', he⟩
    rw [← SortedMap.find?_eq_some_iff, find?_shown, Option.map_eq_some_iff] at hF'
    obtain ⟨F, hF, rfl⟩ := hF'
    obtain ⟨rfl, he⟩ := DsFamily.mem_entities.1 he
    refine ⟨F, hF, ?_⟩
    obtain ⟨fam, k, i⟩ := e
    cases k with
    | network => exact DsFamily.mem_networks_underRules.1 he
    | talkgroup => exact DsFamily.mem_tgs_underRules.1 he
    | radio => exact DsFamily.mem_radios_underRules.1 he
  · rintro ⟨F, hF, he⟩
    refine ⟨(e.fam, F.underRules (rulesOf d.merges e.fam)), ?_, DsFamily.mem_entities.2 ⟨rfl, ?_⟩⟩
    · rw [← SortedMap.find?_eq_some_iff, find?_shown, hF]
      rfl
    · obtain ⟨fam, k, i⟩ := e
      cases k with
      | network => exact DsFamily.mem_networks_underRules.2 he
      | talkgroup => exact DsFamily.mem_tgs_underRules.2 he
      | radio => exact DsFamily.mem_radios_underRules.2 he

theorem nodup_entities (d : Dataset) : d.entities.Nodup := by
  rw [entities, List.nodup_flatMap]
  refine ⟨fun fk _ => fk.2.nodup_entities fk.1, ?_⟩
  refine (List.pairwise_map.1 (shown d).fams.nodup_keys).imp fun hne e he he' => hne ?_
  exact (DsFamily.mem_entities.1 he).1.symm.trans (DsFamily.mem_entities.1 he').1

/-- **The nodes of the document have the ids of the entities.** -/
theorem Keyed.ids_graphml (h : d.Keyed) :
    (graphml d).nodes.map GraphNode.id = d.entities.map fun e => xesc (nid e) := by
  rw [graphml, entities, List.map_flatMap, List.map_flatMap]
  refine List.flatMap_congr fun fk hfk => ?_
  exact (h.keyed_shown fk.1 fk.2 (SortedMap.find?_eq_some_iff.2 hfk)).ids_nodes

/-- **Every entity has its node.** -/
theorem Keyed.exists_node (h : d.Keyed) {e : Entity} (he : e ∈ d.entities) :
    ∃ n ∈ (graphml d).nodes, d.node e = some n ∧ n.id = xesc (nid e) := by
  obtain ⟨fk, hfk, he⟩ := List.mem_flatMap.1 he
  have hF := SortedMap.find?_eq_some_iff.2 hfk
  obtain ⟨n, hn, hnode, hid⟩ := (h.keyed_shown fk.1 fk.2 hF).exists_node he
  refine ⟨n, List.mem_flatMap.2 ⟨fk, hfk, hn⟩, ?_, hid⟩
  rw [node, (DsFamily.mem_entities.1 he).1, hF]
  exact hnode

/-- **What is linked is related.** -/
theorem Keyed.relates_of_links (h : d.Keyed) {fam : Bytes} {F : DsFamily}
    (hF : d.fams.find? fam = some F) {l : Link}
    (hl : l ∈ (F.underRules (rulesOf d.merges fam)).links fam) :
    d.Relates l.source l.target (xesc l.etype) := by
  have hkeyed := (h fam F hF).underRules (R := rulesOf d.merges fam)
  rw [DsFamily.links, List.mem_append, List.mem_flatMap, List.mem_flatMap] at hl
  rcases hl with ⟨⟨i, r'⟩, hkv, hl⟩ | ⟨⟨i, t'⟩, hkv, hl⟩
  · have hr' := SortedMap.find?_eq_some_iff.2 hkv
    obtain ⟨r, hr, htgs, hpeers, hnets⟩ := DsFamily.radio_of_underRules hr'
    rw [DsRadio.links, hkeyed.radios i r' hr', htgs, hpeers, List.mem_append, List.mem_append,
      List.mem_map, List.mem_map, List.mem_map] at hl
    rcases hl with (⟨t, ht, rfl⟩ | ⟨p, hp, rfl⟩) | ⟨k, hk, rfl⟩
    · exact .talkgroup hF hr (List.mem_map_of_mem (List.mem_filter.1 ht).1)
    · exact .peer hF hr (List.mem_map_of_mem (List.mem_filter.1 hp).1)
    · obtain ⟨j, hj, rfl⟩ := hnets k (List.mem_filter.1 hk).1
      exact .radio hF hr hj
  · obtain ⟨t, ht, hnets⟩ := DsFamily.tg_of_underRules (SortedMap.find?_eq_some_iff.2 hkv)
    obtain ⟨k, hk, rfl⟩ := List.mem_map.1 hl
    obtain ⟨j, hj, rfl⟩ := hnets k (List.mem_filter.1 hk).1
    exact .member hF ht hj

/-- **Every edge has its ends among the nodes**, and they are those of the entities it relates. -/
theorem Keyed.ends_graphml (h : d.Keyed) : ∀ e ∈ (graphml d).edges, ∃ a b, d.Relates a b e.etype ∧
    (∃ n ∈ (graphml d).nodes, d.node a = some n ∧ n.id = e.source) ∧
      ∃ n ∈ (graphml d).nodes, d.node b = some n ∧ n.id = e.target := by
  intro e he
  rw [graphml, List.mem_mapIdx] at he
  obtain ⟨i, hi, rfl⟩ := he
  obtain ⟨⟨fam, F'⟩, hfk, hl⟩ := List.mem_flatMap.1 (List.getElem_mem hi)
  have hF' := SortedMap.find?_eq_some_iff.2 hfk
  obtain ⟨hsource, htarget⟩ := (h.keyed_shown fam F' hF').mem_entities_of_links hl
  rw [find?_shown, Option.map_eq_some_iff] at hF'
  obtain ⟨F, hF, rfl⟩ := hF'
  exact ⟨_, _, h.relates_of_links hF hl, h.exists_node (List.mem_flatMap.2 ⟨_, hfk, hsource⟩),
    h.exists_node (List.mem_flatMap.2 ⟨_, hfk, htarget⟩)⟩

end Dataset

/-- **The node ids identify what the document shows just when no two entities clash.** -/
theorem graphml_identifies_iff (d : Dataset) (hkeyed : d.Keyed) :
    d.Identified (graphml d) ↔ ∀ a b, d.Has a → d.Has b → a ≠ b → ¬ a.Clash b := by
  have hids : ((graphml d).nodes.map GraphNode.id).Nodup ↔
      ∀ a ∈ d.entities, ∀ b ∈ d.entities, xesc (nid a) = xesc (nid b) → a = b := by
    rw [hkeyed.ids_graphml]
    exact List.nodup_map_iff_inj_on d.nodup_entities
  constructor
  · intro h a b ha hb hne hclash
    exact hne (hids.1 h.distinct a (Dataset.mem_entities.2 ha) b (Dataset.mem_entities.2 hb)
      (xesc_nid_eq_iff.2 (Or.inl hclash)))
  · intro h
    refine ⟨hids.2 fun a ha b hb heq => ?_, hkeyed.ends_graphml⟩
    rw [Dataset.mem_entities] at ha hb
    by_contra hne
    rcases xesc_nid_eq_iff.1 heq with hclash | hclash
    · exact h a b ha hb hne hclash
    · exact h b a hb ha (Ne.symm hne) hclash

/-- Two radios of one protocol with the same separators in their ids. -/
def crossed : Dataset :=
  { fams := SortedMap.insert ∅ (lit "p25")
      { tgs := SortedMap.insert ∅ (lit "1") { id := lit "1" }
        radios :=
          (SortedMap.insert ∅ (lit "a:r:b")
            { id := lit "a:r:b", tgs := SortedMap.insert ∅ (lit "1") 3 }).insert
              (lit "b") { id := lit "b", peers := SortedMap.insert ∅ (lit "c") 1 } } }

theorem graphml_identifies_iff_crossed :
    crossed.Keyed ∧ ∀ a b, crossed.Has a → crossed.Has b → a ≠ b → ¬ a.Clash b := by
  have hkeyed : crossed.Keyed := by decide +kernel
  exact ⟨hkeyed, (graphml_identifies_iff crossed hkeyed).1 ⟨by decide +kernel, hkeyed.ends_graphml⟩⟩

/-- Two radios whose ids are no UTF-8. -/
def latinRadios : Dataset :=
  { fams := SortedMap.insert ∅ (lit "p25")
      { radios := (SortedMap.insert ∅ [0xfe] { id := [0xfe] }).insert [0xff] { id := [0xff] } } }

theorem graphml_latinRadios : latinRadios.Keyed ∧ ¬ latinRadios.Identified (graphml latinRadios) :=
  ⟨by decide +kernel, fun h => absurd h.distinct (by decide +kernel)⟩

end DsdServer
