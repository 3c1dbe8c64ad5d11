import DsdServer.Json.Tree
import DsdServer.Server.Keys

/-!
# Server/KeyFile — the file of the keys

The keyring, the Basic Privacy numbers and the per-network keys are written to one file after every
change, and read from it when the server starts.  What is read is normalised once more: the normal
forms are fixed by that, so nothing is lost.
-/

open Bytes

namespace DsdServer

/-! ## Removing -/

/-- Remove a key; nothing when there is none. -/
def keyringRemove (r : KeyRing) (fam net kid : Bytes) : Option KeyRing :=
  let id := keyNormId kid
  match r.find? fam with
  | none => none
  | some f =>
    match f.find? net with
    | none => none
    | some n => if id ∉ n then none else some (r.replace fam (f.replace net (n.erase id)))

namespace KeyStore

/-- Remove a key of the keyring. -/
def removeKey (st : KeyStore) (fam net kid : Bytes) : Option KeyStore :=
  (keyringRemove st.keys fam net kid).map fun r => { st with keys := r, version := st.version + 1 }

/-- Remove a Basic Privacy key number. -/
def removeBp (st : KeyStore) (fam net : Bytes) : Option KeyStore :=
  match st.bp.find? fam with
  | none => none
  | some f =>
    if net ∉ f then none
    else some { st with bp := st.bp.replace fam (f.erase net), version := st.version + 1 }

/-- The networks' keys of a kind, in a protocol. -/
def netKeysOf (st : KeyStore) (kind fam : Bytes) : SortedMap Bytes Bytes :=
  (st.netKeys.getD kind ∅).getD fam ∅

/-- Remove a per-network key. -/
def removeNetKey (st : KeyStore) (kind fam net : Bytes) : Option KeyStore :=
  if net ∉ st.netKeysOf kind fam then none
  else some { st.eraseNetKey kind fam net with version := st.version + 1 }

end KeyStore

/-- **What may be done to the keys.** -/
inductive KeyOp
  | setKey (fam net kid alg value : Bytes) (now : ℤ)
  | removeKey (fam net kid : Bytes)
  | setBp (fam net : Bytes) (number : ℤ)
  | removeBp (fam net : Bytes)
  | setNetKey (kind fam net value : Bytes)
  | removeNetKey (kind fam net : Bytes)

namespace KeyStore

/-- What an operation makes of the keys; one that is refused leaves them. -/
def step (st : KeyStore) : KeyOp → KeyStore
  | .setKey fam net kid alg value now => (st.setKey fam net kid alg value now).getD st
  | .removeKey fam net kid => (st.removeKey fam net kid).getD st
  | .setBp fam net number => (st.setBp fam net number).getD st
  | .removeBp fam net => (st.removeBp fam net).getD st
  | .setNetKey kind fam net value => (st.setNetKey kind fam net value).getD st
  | .removeNetKey kind fam net => (st.removeNetKey kind fam net).getD st

/-- The store after a list of operations; one that is refused leaves it as it was. -/
def run (st : KeyStore) (ops : List KeyOp) : KeyStore := ops.foldl step st

end KeyStore

/-! ## Writing

Each store is an object of objects: by family, by network and, in the ring, by key id.  The
per-network keys have their kind on top. -/

section Write

open assocjson

/-- A key of the ring, as it is written. -/
def entryJson (e : KeyEntry) : Bytes :=
  braces (lit "\"alg\":" ++ q e.alg ++ lit ",\"key\":" ++ q e.value ++ lit ",\"added\":" ++
    decInt e.added)

/-- The whole ring with its values. -/
def keyringJson (r : KeyRing) : Bytes := objectOf (objectOf (objectOf entryJson)) r

/-- The Basic Privacy numbers, as they are written. -/
def bpJson (bp : SortedMap Bytes (SortedMap Bytes ℤ)) : Bytes := objectOf (objectOf decInt) bp

/-- The keys of one kind, as they are written. -/
def netSecretsJson (m : NetSecrets) : Bytes := objectOf (objectOf q) m

/-- The per-network keys, as they are written. -/
def netKeysJson (st : KeyStore) : Bytes :=
  netKeyKinds.flatMap fun k => lit ",\"" ++ k.id ++ lit "\":" ++
    netSecretsJson (st.netKeys.getD k.id ∅)

/-- **The text of the keys file.** -/
def saveKeys (st : KeyStore) : Bytes :=
  braces (lit "\"keys\":" ++ keyringJson st.keys ++ lit ",\"bp\":" ++ bpJson st.bp ++
    netKeysJson st) ++
    lit "\n"

end Write

/-! ## Reading

Entries are put in one by one, and only what the stores could hold: a file that was edited by hand,
or is of another version, makes no invalid key. -/

section Read

open mjson

/-- The value of a member of an object. -/
def memberAt (v : V) (k : Bytes) : Option V :=
  match v with
  | .obj o => (o.find? fun kv => kv.1 = k).map Prod.snd
  | _ => none

/-- One key of the file; what does not normalise is left out. -/
def readKey (fam net : Bytes) (r : KeyRing) (ik : Bytes × V) : KeyRing :=
  match ik.2 with
  | .obj _ =>
    let id := keyNormId ik.1
    let val := keyNormValue (ik.2.strOf "key")
    if id = [] ∨ val = [] then r
    else put r fam net (((r.getD fam ∅).getD net ∅).insert id
      ⟨keyNormId (ik.2.strOf "alg"), val, ik.2.i64 "added"⟩)
  | _ => r

/-- The ring of a keys file. -/
def keyringParse (root : V) : KeyRing :=
  ((memberAt root (lit "keys")).getD .null).members.foldl (fun r fk =>
    fk.2.members.foldl (fun r nk => nk.2.members.foldl (readKey fk.1 nk.1) r) r) ∅

/-- One Basic Privacy number of the file. -/
def readBp (fam : Bytes) (m : SortedMap Bytes (SortedMap Bytes ℤ)) (nk : Bytes × V) :
    SortedMap Bytes (SortedMap Bytes ℤ) :=
  match nk.2 with
  | .num n => if 1 ≤ n.toI64 ∧ n.toI64 ≤ 255 then put m fam nk.1 n.toI64 else m
  | _ => m

/-- The Basic Privacy numbers of a file that are from 1 to 255. -/
def bpParse (root : V) : SortedMap Bytes (SortedMap Bytes ℤ) :=
  ((memberAt root (lit "bp")).getD .null).members.foldl
    (fun m fk => fk.2.members.foldl (readBp fk.1) m) ∅

/-- One per-network key of the file. -/
def readSecret (k : NetKeyKind) (fam : Bytes) (m : NetSecrets) (nk : Bytes × V) : NetSecrets :=
  match nk.2 with
  | .str s => if netKeyNorm k s = [] then m else put m fam nk.1 (netKeyNorm k s)
  | _ => m

/-- The per-network keys of a kind. -/
def netSecretsParse (v : Option V) (k : NetKeyKind) : NetSecrets :=
  (v.getD .null).members.foldl (fun m fk => fk.2.members.foldl (readSecret k fk.1) m) ∅

/-- **The keys of a file** take the place of those held; nothing when the file is not an object. -/
def useKeysFile (st : KeyStore) (text : Bytes) : Option KeyStore :=
  match parse text with
  | .error _ => none
  | .ok root =>
    if !root.isObj then none
    else some
      { st with
        keys := keyringParse root
        bp := bpParse root
        netKeys := netKeyKinds.foldl (fun m k =>
          let s := netSecretsParse (memberAt root k.id) k
          if s.isEmpty then m else m.insert k.id s) ∅ }

end Read

end DsdServer
