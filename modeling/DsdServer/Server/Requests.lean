import DsdServer.Json.Flat
import DsdServer.Server.Keys

/-!
# Server/Requests — the requests that set keys

A request to set a key carries a flat object.  What the keyring refuses is answered with an error
status.  The body is read without a handler for what the reader throws, here or above.

* `servePost_throws` — a body that is not well formed is never answered.
* `answered_iff` — **a request is answered as it should be exactly when its body is well formed**.
-/

open Bytes

namespace DsdServer

/-- An HTTP response. -/
structure Response where
  status : ℕ
  body : Bytes
  deriving DecidableEq

namespace Double

/-- A 32-bit integer; the value a conversion out of range gives is the hardware's. -/
def toI32 : Double → ℤ
  | .finite q => if -2 ^ 31 ≤ trunc q ∧ trunc q < 2 ^ 31 then trunc q else -2 ^ 31
  | _ => -2 ^ 31

end Double

/-- The kind of per-network key a path names; empty when it names none. -/
def netKeyRoute (target action : Bytes) : Bytes :=
  let pre := lit "/net/"
  let suf := ch '/' :: action
  if target.length ≤ pre.length + suf.length ∨ !pre.isPrefixOf target ∨
    !suf.isSuffixOf target then []
  else
    let kind := (target.drop pre.length).take (target.length - pre.length - suf.length)
    if (netKeyKind kind).isSome then kind else []

/-- An object's protocol; DMR when it names none. -/
def famOrDmr (o : json.FlatObject) : Bytes :=
  if json.getString o "fam" [] = [] then lit "dmr" else json.getString o "fam" []

/-- The answer to a request to set something. -/
def answer (st : KeyStore) : Option KeyStore → Response × KeyStore
  | some st' => (⟨200, lit "\x7b\"ok\":true\x7d"⟩, st')
  | none => (⟨400, lit "\x7b\"ok\":false\x7d"⟩, st)

/-- **The requests that set keys**, by their path; another path is another handler's. -/
def servePost (st : KeyStore) (target body : Bytes) (now : ℤ) :
    Option (Except Thrown (Response × KeyStore)) :=
  if target = lit "/net/keys/set" then
    some <| (json.parseFlatObject body).map fun o =>
      answer st (st.setKey (json.getString o "fam" []) (json.getString o "net" [])
        (json.getString o "kid" []) (json.getString o "alg" []) (json.getString o "key" []) now)
  else if target = lit "/net/bp/set" then
    some <| (json.parseFlatObject body).map fun o =>
      answer st (st.setBp (famOrDmr o) (json.getString o "net" [])
        (json.getNumber o "key" (.finite 0)).toI32)
  else if netKeyRoute target (lit "set") ≠ [] then
    some <| (json.parseFlatObject body).map fun o =>
      answer st (st.setNetKey (netKeyRoute target (lit "set")) (famOrDmr o)
        (json.getString o "net" [])
        (json.getString o "key" []))
  else none

/-! ## What an answer should be

A request with a value that the store does not take is to be answered with an error status.  Nothing
is said of how: so a request that gets no answer at all fails the property. -/

/-- A path that sets keys. -/
def SetRoute (target : Bytes) : Prop :=
  target = lit "/net/keys/set" ∨ target = lit "/net/bp/set" ∨ netKeyRoute target (lit "set") ≠ []

/-- The values a path accepts. -/
def Acceptable (target : Bytes) (o : json.FlatObject) : Prop :=
  json.getString o "net" [] ≠ [] ∧
    if target = lit "/net/keys/set" then
      json.getString o "fam" [] ≠ [] ∧ Hex (unmarked (json.getString o "kid" [])) ∧
        KeyValue (json.getString o "key" [])
    else if target = lit "/net/bp/set" then
      1 ≤ (json.getNumber o "key" (.finite 0)).toI32 ∧
        (json.getNumber o "key" (.finite 0)).toI32 ≤ 255
    else ∃ k, netKeyKind (netKeyRoute target (lit "set")) = some k ∧
      NetKeyValue k (json.getString o "key" [])

/-- **Answered as it should be**: there is a response, and one to a request that is not acceptable
has an error status and leaves the keys as they are. -/
def Answered (st : KeyStore) (target body : Bytes) (now : ℤ) : Prop :=
  ∃ res st', servePost st target body now = some (.ok (res, st')) ∧
    ((¬ ∃ o, json.parseFlatObject body = .ok o ∧ Acceptable target o) → 400 ≤ res.status ∧ st' = st)

theorem famOrDmr_ne_nil (o : json.FlatObject) : famOrDmr o ≠ [] := by
  unfold famOrDmr
  split_ifs with h
  · decide
  · exact h

namespace KeyStore

/-- **A key is set** exactly when all its parts are well formed. -/
theorem setKey_isSome {st : KeyStore} {fam net kid alg value : Bytes} {now : ℤ} :
    (st.setKey fam net kid alg value now).isSome ↔
      net ≠ [] ∧ fam ≠ [] ∧ Hex (unmarked kid) ∧ KeyValue value := by
  simp only [setKey, keyringSet, Option.isSome_map]
  split_ifs with h1 h2
  · simp only [Option.isSome_none, Bool.false_eq_true, false_iff]
    rintro ⟨hn, hf, -⟩
    exact h1.elim hf hn
  · simp only [Option.isSome_none, Bool.false_eq_true, false_iff]
    rintro ⟨-, -, hk, hv⟩
    exact h2.elim (fun h => keyNormId_eq_nil.1 h hk) fun h => keyNormValue_eq_nil.1 h hv
  · rw [not_or] at h1 h2
    simp only [Option.isSome_some, true_iff]
    exact ⟨h1.2, h1.1, not_not.1 (mt keyNormId_eq_nil.2 h2.1),
      not_not.1 (mt keyNormValue_eq_nil.2 h2.2)⟩

/-- The same for a Basic Privacy number. -/
theorem setBp_isSome {st : KeyStore} {fam net : Bytes} {number : ℤ} :
    (st.setBp fam net number).isSome ↔ fam ≠ [] ∧ net ≠ [] ∧ 1 ≤ number ∧ number ≤ 255 := by
  unfold setBp
  split_ifs with h
  · simp only [Option.isSome_none, Bool.false_eq_true, false_iff]
    rintro ⟨h1, h2, h3, h4⟩
    rcases h with h | h | h | h
    · exact h1 h
    · exact h2 h
    · omega
    · omega
  · simp only [not_or, not_lt] at h
    simpa using h

theorem setNetKey_isSome {st : KeyStore} {kind fam net value : Bytes} :
    (st.setNetKey kind fam net value).isSome ↔
      fam ≠ [] ∧ net ≠ [] ∧ ∃ k, netKeyKind kind = some k ∧ NetKeyValue k value := by
  unfold setNetKey
  split
  · next h => simp [h]
  · next k h =>
    simp only [h, Option.some.injEq, exists_eq_left']
    split_ifs with hv
    · simp only [Option.isSome_none, Bool.false_eq_true, false_iff]
      rintro ⟨h1, h2, h3⟩
      rcases hv with hv | hv | hv
      · exact h1 hv
      · exact h2 hv
      · exact netKeyNorm_eq_nil.1 hv h3
    all_goals
      simp only [not_or] at hv
      simp only [Option.isSome_some, true_iff]
      exact ⟨hv.1, hv.2.1, not_not.1 (mt netKeyNorm_eq_nil.2 hv.2.2)⟩

end KeyStore

/-- What is not set is answered with an error and nothing else. -/
theorem answer_of_not_isSome {st : KeyStore} {r : Option KeyStore} (h : ¬ r.isSome) :
    400 ≤ (answer st r).1.status ∧ (answer st r).2 = st := by
  rw [Option.not_isSome_iff_eq_none] at h
  subst h
  exact ⟨Nat.le_refl 400, rfl⟩

/-- **The handler's one shape**: it reads the body and answers by whether the object is
acceptable. -/
theorem servePost_eq (st : KeyStore) {target : Bytes} (body : Bytes) (now : ℤ)
    (h : SetRoute target) :
    ∃ set : json.FlatObject → Option KeyStore,
      servePost st target body now =
        some ((json.parseFlatObject body).map fun o => answer st (set o)) ∧
      ∀ o, (set o).isSome ↔ Acceptable target o := by
  unfold servePost Acceptable
  split_ifs with h1 h2 h3
  · exact ⟨_, rfl, fun o => KeyStore.setKey_isSome⟩
  · refine ⟨_, rfl, fun o => KeyStore.setBp_isSome.trans ?_⟩
    simp [famOrDmr_ne_nil]
  · refine ⟨_, rfl, fun o => KeyStore.setNetKey_isSome.trans ?_⟩
    simp [famOrDmr_ne_nil]
  · exact absurd h (by simp [SetRoute, h1, h2, not_not.1 h3])

/-- **A request is answered as it should be exactly when its body is well formed.** -/
theorem answered_iff {st : KeyStore} {target body : Bytes} {now : ℤ} (h : SetRoute target) :
    Answered st target body now ↔ json.WellFormed body := by
  obtain ⟨set, hs, ha⟩ := servePost_eq st body now h
  rw [← json.parseFlatObject_ok_iff]
  unfold Answered
  rw [hs]
  cases hp : json.parseFlatObject body with
  | error e => simp [Except.map]
  | ok o =>
    refine iff_of_true ⟨_, _, rfl, fun hn => ?_⟩ ⟨o, rfl⟩
    refine answer_of_not_isSome fun hset => hn ⟨o, rfl, (ha o).1 hset⟩

theorem answered_iff_keys :
    Answered {} (lit "/net/keys/set") (lit "\x7b\x7d") 0 ↔ json.WellFormed (lit "\x7b\x7d") :=
  answered_iff (.inl rfl)

/-- **An empty body is never answered**: what its reader throws leaves the handler. -/
theorem not_answered_empty : servePost {} (lit "/net/keys/set") [] 0 =
      some (.error (.runtimeError (lit "json: expected '\x7b'"))) ∧
    ¬ ∀ st target body now, SetRoute target → Answered st target body now := by
  refine ⟨rfl, fun h => ?_⟩
  obtain ⟨res, st', hs, -⟩ := h {} (lit "/net/keys/set") [] 0 (.inl rfl)
  cases hs

end DsdServer
