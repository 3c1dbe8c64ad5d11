import Mathlib.Data.Finset.Card
import DsdServer.Server.Stats

/-!
# Server/StatsRuns — what the registry says of a run

`decode_time` — **the decode time shown for a protocol is the number of pipelines that ran it,
summed up over time**, through restarts, protocol changes and clients that leave while decoding.
`accounted` — every request, start, session and client that left is counted once, and the bounded
lists hold the newest.

Both are invariants of a run, though of different kinds.  The decode time is an amount that every
report leaves as it is and that only time makes grow.  The counts are compared with a plain account
of what was reported, which is kept beside the registry.
-/

open Bytes

namespace DsdServer

namespace ServerStats

variable {s : ServerStats} {t : Moment} {p : Bytes} {id : ℕ}

/-! ## Decode time

The time shown for a protocol is what is banked and what its running pipelines have run so far.
Every report leaves this sum as it is at its own moment; between two reports it grows by the number
of pipelines that run.  So it is an integral, and a run is summed up piece by piece. -/

/-- The time a row's pipeline has run a protocol so far. -/
def runTime (p : Bytes) (now : ℤ) (r : SessionRow) : ℤ :=
  if r.active ∧ r.protocol = p then now - r.activeSince else 0

/-- The pipelines that run a protocol. -/
def running (s : ServerStats) (p : Bytes) : ℕ := s.rows.countP fun r => r.active ∧ r.protocol = p

/-- A protocol's decode time: what is banked, and what runs. -/
def decodeTime (s : ServerStats) (p : Bytes) (now : ℤ) : ℤ :=
  (s.usage.getD p {}).decode + s.sessions.total (runTime p now)

/-- They are counted over the sessions. -/
theorem running_eq (s : ServerStats) (p : Bytes) :
    (s.running p : ℤ) = s.sessions.total fun r => if r.active ∧ r.protocol = p then 1 else 0 := by
  rw [running, rows, SortedMap.total]
  induction s.sessions.entries with
  | nil => rfl
  | cons e l ih =>
    rw [List.map_cons, List.map_cons, List.sum_cons, List.countP_cons, ← ih]
    push_cast
    simp only [decide_eq_true_eq]
    exact add_comm _ _

/-- **As time goes on, what runs adds up.** -/
theorem decodeTime_later (s : ServerStats) (p : Bytes) (since now : ℤ) :
    s.decodeTime p now = s.decodeTime p since + s.running p * (now - since) := by
  rw [decodeTime, decodeTime, running_eq, ← SortedMap.total_mul_right, add_assoc,
    ← SortedMap.total_add]
  congr 1
  refine SortedMap.total_congr fun _ r _ => ?_
  rw [runTime, runTime]
  split_ifs
  · ring
  · ring

/-- Changing a usage adds to the decode time of its own protocol only. -/
theorem decode_onUsage (s : ServerStats) (q : Bytes) (g : ProtocolUsage → ProtocolUsage) (d : ℤ)
    (hg : ∀ u, (g u).decode = u.decode + d) (p : Bytes) :
    ((s.onUsage q g).usage.getD p {}).decode = (s.usage.getD p {}).decode + if p = q then
      d else 0 := by
  rw [onUsage, SortedMap.getD_insert]
  split_ifs with h
  · rw [hg, h]
  · rw [add_zero]

/-- **What runs is banked**, for its own protocol. -/
theorem decode_closeActive (s : ServerStats) (t : Moment) (row : SessionRow) (ha : row.active)
    (p : Bytes) :
    ((s.closeActive t row).usage.getD p {}).decode = (s.usage.getD p {}).decode +
      runTime p t.mono row := by
  rw [closeActive, decode_onUsage s row.protocol (bank t row) _ (fun _ => rfl), runTime]
  exact congrArg _ (if_congr ⟨fun h => ⟨ha, h.symm⟩, fun h => h.2.symm⟩ rfl rfl)

/-- Rows changed elsewhere than in what runs. -/
theorem total_onRow (s : ServerStats) (id : ℕ) {g : SessionRow → SessionRow} {now : ℤ}
    (hg : ∀ r, runTime p now (g r) = runTime p now r) :
    (s.onRow id g).sessions.total (runTime p now) = s.sessions.total (runTime p now) :=
  SortedMap.total_modify _ hg _ _

/-- The pipeline the old row had is banked, and the new row has run nothing yet. -/
theorem decodeTime_bank {s s' : ServerStats} {old : SessionRow} (row : SessionRow)
    (hold : s.sessions.find? id = some old)
    (hu : (s'.usage.getD p {}).decode = (s.usage.getD p {}).decode + runTime p t.mono old)
    (hs : s'.sessions = s.sessions.insert id row) (hrow : runTime p t.mono row = 0) :
    s'.decodeTime p t.mono = s.decodeTime p t.mono := by
  rw [decodeTime, decodeTime, hu, hs, SortedMap.total_insert, hrow, SortedMap.total_of_find? _ hold]
  ring

theorem runTime_of_idle {r : SessionRow} {now : ℤ} (h : r.active = false) : runTime p now r = 0 :=
  if_neg fun hr => Bool.false_ne_true (h.symm.trans hr.1)

/-- What was banked when a pipeline is put down, or not. -/
theorem decode_banked (s : ServerStats) (t : Moment) (old : SessionRow) (p : Bytes) :
    ((if old.active then s.closeActive t old else s).usage.getD p {}).decode =
      (s.usage.getD p {}).decode + runTime p t.mono old := by
  split_ifs with ha
  · exact decode_closeActive s t old ha p
  · rw [runTime_of_idle (by simpa using ha), add_zero]

theorem sessions_banked (s : ServerStats) (t : Moment) (old : SessionRow) :
    (if old.active then s.closeActive t old else s).sessions = s.sessions := by
  split_ifs <;> rfl

/-- Turning a pipeline to a protocol leaves all decode times as they are at that moment. -/
theorem decodeTime_setProtocol (hp : p ≠ [] ∧ p ≠ lit "-") (id : ℕ) (protocol chain : Bytes)
    (active : Bool) :
    (s.setProtocol t id protocol chain active).decodeTime p t.mono = s.decodeTime p t.mono := by
  rw [setProtocol]
  rcases hold : s.sessions.find? id with _ | old
  · rfl
  · obtain ⟨row, hrow⟩ : ∃ row, turned old protocol chain active = row := ⟨_, rfl⟩
    have hactive : row.active = active := hrow ▸ rfl
    have hdecode := decode_banked s t old p
    have hsessions := sessions_banked s t old
    dsimp only
    rw [hrow]
    generalize (if old.active then s.closeActive t old else s) = b at hdecode hsessions ⊢
    by_cases h : (active && named row) = true
    · rw [if_pos h]
      refine decodeTime_bank _ hold ?_ (by rw [← hsessions]; rfl) ?_
      · refine Eq.trans ?_ hdecode
        exact (decode_onUsage b row.protocol (comeUp row chain) 0 (fun u => (add_zero _).symm)
          p).trans (by rw [ite_self, add_zero])
      · rw [runTime, sub_self, ite_self]
    · rw [if_neg h]
      refine decodeTime_bank _ hold hdecode (by rw [← hsessions]; rfl) ?_
      rw [Bool.and_eq_true, not_and, named] at h
      rw [runTime]
      split_ifs with hr
      · have := h (hactive ▸ hr.1)
        rw [hr.2] at this
        simp [hp] at this
      · rfl

theorem decodeTime_setPipelineActive (id : ℕ) :
    (s.setPipelineActive t id false).decodeTime p t.mono = s.decodeTime p t.mono := by
  rw [setPipelineActive]
  rcases hold : s.sessions.find? id with _ | old
  · rfl
  · have hbank : (old.active && !false) = old.active := by simp
    dsimp only
    rw [hbank]
    refine decodeTime_bank { old with active := false } hold (decode_banked s t old p) ?_
      (runTime_of_idle rfl)
    rw [onRow, sessions_banked, SortedMap.modify_eq_insert hold]

theorem decodeTime_removeSession (id : ℕ) :
    (s.removeSession t id).decodeTime p t.mono = s.decodeTime p t.mono := by
  rw [removeSession]
  dsimp only
  rcases hold : s.sessions.find? id with _ | old
  · rfl
  · dsimp only
    rw [decodeTime, decodeTime, SortedMap.total_of_find? _ hold, ← add_assoc]
    refine congrArg₂ (· + ·) (decode_banked _ t old p) ?_
    split_ifs <;> rfl

theorem decodeTime_noteRequest (t' : Moment) (id : ℕ) (protocol chain : Bytes) (now : ℤ) :
    (s.noteRequest t' id protocol chain).decodeTime p now = s.decodeTime p now := by
  rw [noteRequest]
  split_ifs
  · rfl
  · refine congrArg₂ (· + ·) ?_ (total_onRow s id fun _ => rfl)
    refine (decode_onUsage _ protocol (request t' protocol chain) 0
      (fun u => (add_zero _).symm) p).trans ?_
    rw [ite_self, add_zero]
    rfl

theorem decodeTime_addSession (h : s.lastId + 1 ∉ s.sessions) (remote : Bytes) (now : ℤ) :
    (s.addSession t remote).1.decodeTime p now = s.decodeTime p now := by
  refine congrArg (_ + ·) ?_
  refine (SortedMap.total_insert _ _ _ _).trans ?_
  rw [runTime_of_idle rfl, zero_add, SortedMap.erase_of_not_mem h]

/-- The clients report pipelines that stop; one that starts comes with its protocol. -/
def Report.Usual : Report → Prop
  | .pipeline _ active => active = false
  | _ => True

instance (r : Report) : Decidable r.Usual := by
  cases r <;> unfold Report.Usual <;> infer_instance

/-- **A report moves no decode time**: what is banked no longer runs. -/
theorem decodeTime_step (hp : p ≠ [] ∧ p ≠ lit "-") (hid : s.lastId + 1 ∉ s.sessions) {r : Report}
    (hr : r.Usual) :
    (s.step t r).decodeTime p t.mono = s.decodeTime p t.mono := by
  cases r with
  | log id text =>
    change (s.addLog t id text).decodeTime p t.mono = _
    rw [addLog]
    split_ifs <;> rfl
  | clearLog => rfl
  | iqControl id on => cases on <;> rfl
  | keyReload id on => cases on <;> rfl
  | iqLogging on => rfl
  | connect remote => exact decodeTime_addSession hid remote t.mono
  | data id => exact congrArg (_ + ·) (total_onRow s id fun _ => rfl)
  | bytesIn n => rfl
  | bytesOut n => rfl
  | request id protocol chain => exact decodeTime_noteRequest t id protocol chain t.mono
  | protocol id protocol chain active => exact decodeTime_setProtocol hp id protocol chain active
  | freq id hz => exact congrArg (_ + ·) (total_onRow s id fun _ => rfl)
  | pipeline id active =>
    obtain rfl : active = false := hr
    exact decodeTime_setPipelineActive id
  | disconnect id => exact decodeTime_removeSession id
  | assoc op => rfl

/-- **The pipelines that run a protocol, over time**: from `since` through a run, until `now`. -/
def runTimes (p : Bytes) (now : ℤ) : ServerStats → ℤ → List (Moment × Report) → ℤ
  | s, since, [] => s.running p * (now - since)
  | s, since, (t, r) :: l => s.running p * (t.mono - since) + runTimes p now (s.step t r) t.mono l

/-! ## What was reported

What the registry should say is put down beside it, in the plainest form: lists of requests, of
starts, of ended sessions and of frames.  The invariant is that its figures are those of the lists.
-/

/-- What a run reported so far. -/
structure Past where
  requested : List Bytes := []
  /-- pipelines that came up: whose, and which protocol -/
  started : List (ℕ × Bytes) := []
  ended : List FinishedRow := []
  /-- since the log was cleared -/
  frames : List LogEntry := []

/-- The pipeline that comes up. -/
def startOf (s : ServerStats) (id : ℕ) (protocol chain : Bytes) (active : Bool) :
    List (ℕ × Bytes) :=
  match s.sessions.find? id with
  | none => []
  | some old =>
    let row := turned old protocol chain active
    if active && named row then [(id, row.protocol)] else []

def Past.note (P : Past) (s : ServerStats) (t : Moment) : Report → Past
  | .request _ protocol _ => if protocol = [] then
    P else { P with requested := P.requested ++ [protocol] }
  | .protocol id protocol chain active =>
    { P with started := P.started ++ s.startOf id protocol chain active }
  | .disconnect id => { P with ended := P.ended ++ (s.sessions.find? id).toList.map (finished t) }
  | .log id text => { P with frames := P.frames ++ [s.logEntry t id text] }
  | .clearLog => { P with frames := [] }
  | _ => P

/-- What a run reported, together with what was reported before. -/
def past : ServerStats → Past → List (Moment × Report) → Past
  | _, P, [] => P
  | s, P, (t, r) :: l => past (s.step t r) (P.note s t r) l

/-- The sessions that ran a protocol. -/
def Past.users (P : Past) (p : Bytes) : Finset (ℕ × Bytes) :=
  P.started.toFinset.filter fun e => e.2 = p

/-- **The registry agrees with what was reported.** -/
structure Accounts (s : ServerStats) (P : Past) : Prop where
  keyed : ∀ p u, s.usage.find? p = some u → u.protocol = p
  idle : ∀ p, (s.usage.getD p {}).activeNow = 0
  requests : ∀ p, (s.usage.getD p {}).requests = P.requested.count p
  starts : ∀ p, (s.usage.getD p {}).starts = (P.started.map Prod.snd).count p
  sessions : ∀ p, (s.usage.getD p {}).sessions = (P.users p).card
  used : ∀ id row, s.sessions.find? id = some row →
    id ≤ s.lastId ∧ ∀ p, p ∈ row.protocolsUsed ↔ (id, p) ∈ P.started
  ids : ∀ e ∈ P.started, e.1 ≤ s.lastId
  total : s.totalSessions = s.sessions.size + P.ended.length
  history : s.history = P.ended.rtake s.historyLimit
  log : s.log = P.frames.rtake s.logLimit

namespace Accounts

variable {P : Past}

/-- A session is not there before it connects. -/
theorem fresh (h : s.Accounts P) : s.lastId + 1 ∉ s.sessions := fun hm => by
  obtain ⟨row, hrow⟩ := SortedMap.mem_iff_find?.1 hm
  have := (h.used _ _ hrow).1
  omega

/-- A protocol's usage is its own, or blank. -/
theorem protocol_eq (h : s.Accounts P) (p : Bytes) :
    (s.usage.getD p {}).protocol = p ∨ s.usage.getD p {} = {} := by
  rw [SortedMap.getD]
  rcases hu : s.usage.find? p with _ | u
  · exact Or.inr rfl
  · exact Or.inl (h.keyed p u hu)

/-- A blank usage gets the protocol that it is opened for. -/
theorem own_protocol {u : ProtocolUsage} {p : Bytes} (h : u.protocol = p ∨ u = {}) :
    (if u.protocol = [] then p else u.protocol) = p := by
  rcases h with h | rfl
  · rw [h, ite_self]
  · rfl

/-- Usages stay under their own protocols. -/
theorem keyed_onUsage (h : s.Accounts P) {q : Bytes} {g : ProtocolUsage → ProtocolUsage}
    (hg : (g (s.usage.getD q {})).protocol = q) :
    ∀ p u, (s.onUsage q g).usage.find? p = some u → u.protocol = p := fun p u hu => by
  rw [onUsage, SortedMap.find?_insert] at hu
  split_ifs at hu with hp
  · rw [← Option.some.inj hu, hg, hp]
  · exact h.keyed p u hu

/-- A figure of the usage that a change of one protocol leaves. -/
theorem figure_onUsage {α : Type*} (f : ProtocolUsage → α) {q : Bytes}
    (g : ProtocolUsage → ProtocolUsage) (hg : ∀ u, f (g u) = f u) (p : Bytes) :
    f ((s.onUsage q g).usage.getD p {}) = f (s.usage.getD p {}) := by
  rw [onUsage, SortedMap.getD_insert]
  split_ifs with hp
  · rw [hg, hp]
  · rfl

theorem closeActive (h : s.Accounts P) (t : Moment) (row : SessionRow) :
    (s.closeActive t row).Accounts P :=
  { h with
    keyed := h.keyed_onUsage (g := bank t row) (own_protocol (h.protocol_eq row.protocol))
    idle := fun p => (figure_onUsage (·.activeNow) (bank t row) (fun _ => rfl) p).trans (h.idle p)
    requests := fun p =>
      (figure_onUsage (·.requests) (bank t row) (fun _ => rfl) p).trans (h.requests p)
    starts := fun p => (figure_onUsage (·.starts) (bank t row) (fun _ => rfl) p).trans (h.starts p)
    sessions := fun p =>
      (figure_onUsage (·.sessions) (bank t row) (fun _ => rfl) p).trans (h.sessions p) }

theorem banked (h : s.Accounts P) (t : Moment) (b : Bool) (row : SessionRow) :
    (if b then s.closeActive t row else s).Accounts P := by
  split_ifs
  · exact h.closeActive t row
  · exact h

/-- A change of a row reports nothing. -/
theorem onRow (h : s.Accounts P) (id : ℕ) {g : SessionRow → SessionRow}
    (hg : ∀ r, (g r).protocolsUsed = r.protocolsUsed) : (s.onRow id g).Accounts P :=
  { h with
    used := fun id' row' hrow => by
      rw [ServerStats.onRow, SortedMap.find?_modify] at hrow
      split_ifs at hrow with hid
      · obtain ⟨row, hf, rfl⟩ := Option.map_eq_some_iff.1 hrow
        rw [hg]
        exact h.used id' row hf
      · exact h.used id' row' hrow
    total := by
      rw [ServerStats.onRow, SortedMap.modify, SortedMap.size_mapVal]
      exact h.total }

/-- A row put in the place of another of the same pipelines. -/
theorem putRow (h : s.Accounts P) {old row : SessionRow} (hold : s.sessions.find? id = some old)
    (hrow : row.protocolsUsed = old.protocolsUsed) :
    (s.putRow id row).Accounts P := by
  have := h.onRow id (g := fun r => { r with
    id := row.id, remote := row.remote, protocol := row.protocol, chain := row.chain,
    active := row.active
    connected := row.connected, connectedMono := row.connectedMono, protocolsRequested :=
      row.protocolsRequested
    activeSince := row.activeSince, lastDataMono := row.lastDataMono, gotData := row.gotData
    freqHz := row.freqHz }) fun _ => rfl
  rw [ServerStats.onRow, SortedMap.modify_eq_insert hold, ← hrow] at this
  exact this

/-- A frame is reported, and is in the log. -/
theorem addLog (h : s.Accounts P) (t : Moment) (id : ℕ) (text : Bytes) :
    (s.addLog t id text).Accounts { P with frames := P.frames ++ [s.logEntry t id text] } := by
  rw [ServerStats.addLog]
  split_ifs with h0
  · exact { h with log := by rw [h.log, h0, List.rtake_zero, List.rtake_zero] }
  · refine { h with log := ?_ }
    change Recent.trim s.logLimit (s.log ++ [_]) = _
    rw [h.log, Recent.trim_rtake_append]

/-- **A new session** is one more of all. -/
theorem addSession (h : s.Accounts P) (t : Moment) (remote : Bytes) :
    (s.addSession t remote).1.Accounts P :=
  { h with
    used := fun id row hrow => by
      change (s.sessions.insert _ _).find? id = some row at hrow
      change id ≤ s.lastId + 1 ∧ _
      rw [SortedMap.find?_insert] at hrow
      split_ifs at hrow with hid
      · refine ⟨hid.le, fun p => ?_⟩
        rw [← Option.some.inj hrow]
        refine iff_of_false List.not_mem_nil fun hm => ?_
        have := h.ids _ hm
        dsimp only at this
        omega
      · have := h.used id row hrow
        exact ⟨this.1.trans (Nat.le_succ _), this.2⟩
    ids := fun e he => (h.ids e he).trans (Nat.le_succ _)
    total := by
      change s.totalSessions + 1 = SortedMap.size (s.sessions.insert _ _) + _
      rw [SortedMap.size_insert, SortedMap.erase_of_not_mem h.fresh, h.total]
      omega }

/-- **A request** is counted for its protocol. -/
theorem noteRequest (h : s.Accounts P) (t : Moment) (id : ℕ) (protocol chain : Bytes) :
    (s.noteRequest t id protocol chain).Accounts
      (if protocol = [] then P else { P with requested := P.requested ++ [protocol] }) := by
  rw [ServerStats.noteRequest]
  split_ifs with hp
  · exact h
  · have h' := h.onRow id
      (g := fun row => { row with protocolsRequested := noted row.protocolsRequested protocol })
      fun _ => rfl
    refine
      { h' with
        keyed := h'.keyed_onUsage ?_
        idle := fun p =>
        (figure_onUsage (·.activeNow) (request t protocol chain) (fun _ => rfl) p).trans (h'.idle p)
        requests := ?_
        starts := fun p =>
        (figure_onUsage (·.starts) (request t protocol chain) (fun _ => rfl) p).trans (h'.starts p)
        sessions := fun p =>
          (figure_onUsage (·.sessions) (request t protocol chain) (fun _ => rfl) p).trans
          (h'.sessions p) }
    · rcases h'.protocol_eq protocol with hq | hq
      · rw [request]
        dsimp only
        split_ifs
        · rfl
        · exact hq
      · rw [hq]
        rfl
    · intro p
      change ProtocolUsage.requests (SortedMap.getD (SortedMap.insert _ _ _) p {}) =
        (P.requested ++ [protocol]).count p
      rw [SortedMap.getD_insert, List.count_append, List.count_singleton, ← h.requests]
      by_cases hq : p = protocol
      · subst hq
        rw [if_pos rfl, if_pos (beq_self_eq_true _)]
        rfl
      · rw [if_neg hq, if_neg (by simpa using Ne.symm hq), add_zero]
        rfl

/-- One more start: its session is one of those that ran the protocol. -/
theorem users_append (P : Past) (e : ℕ × Bytes) (p : Bytes) :
    Past.users { P with started := P.started ++ [e] } p = if e.2 = p then
      insert e (P.users p) else P.users p := by
  rw [Past.users, List.toFinset_append, Finset.filter_union, List.toFinset_cons, List.toFinset_nil,
    LawfulSingleton.insert_empty_eq, Finset.filter_singleton]
  split_ifs
  · rw [Finset.union_comm]
    rfl
  · rw [Finset.union_empty]
    rfl

/-- **A pipeline that comes up** is a start of its protocol, and a session more if it is the
session's first. -/
theorem start (h : s.Accounts P) {old row : SessionRow} (hold : s.sessions.find? id = some old)
    (hrow : row.protocolsUsed = old.protocolsUsed) (chain : Bytes) (t : Moment) :
    Accounts
      ((s.onUsage row.protocol (comeUp row chain)).putRow id
        { row with protocolsUsed := noted row.protocolsUsed row.protocol, activeSince := t.mono })
      { P with started := P.started ++ [(id, row.protocol)] } := by
  have hused := h.used id old hold
  have hmem : (id, row.protocol) ∈ P.users row.protocol ↔ row.protocol ∈ row.protocolsUsed := by
    rw [hrow, hused.2, Past.users, Finset.mem_filter, List.mem_toFinset]
    exact and_iff_left rfl
  refine
    { h with
      keyed := h.keyed_onUsage (g := comeUp row chain) ?_
      idle := ?_
      requests := ?_
      starts := ?_
      sessions := ?_
      used := ?_
      ids := ?_
      total := ?_ }
  · exact own_protocol (h.protocol_eq row.protocol)
  · exact fun p =>
      (figure_onUsage (·.activeNow) (comeUp row chain) (fun _ => rfl) p).trans (h.idle p)
  · exact fun p => (figure_onUsage (·.requests) (comeUp row chain) (fun _ => rfl) p).trans
      (h.requests p)
  · intro p
    change ProtocolUsage.starts (SortedMap.getD (SortedMap.insert _ _ _) p {}) = _
    rw [SortedMap.getD_insert, List.map_append, List.count_append, ← h.starts, List.map_singleton,
      List.count_singleton]
    by_cases hp : p = row.protocol
    · rw [if_pos hp, if_pos (by simp [hp]), hp]
      rfl
    · rw [if_neg hp, if_neg (by simpa using Ne.symm hp), add_zero]
  · intro p
    change ProtocolUsage.sessions (SortedMap.getD (SortedMap.insert _ _ _) p {}) = _
    rw [SortedMap.getD_insert, users_append]
    by_cases hp : p = row.protocol
    · subst hp
      rw [if_pos rfl, if_pos rfl]
      change (if _ then _ else _) = _
      by_cases hin : row.protocol ∈ row.protocolsUsed
      · rw [if_pos hin, Finset.insert_eq_of_mem (hmem.2 hin), h.sessions]
      · rw [if_neg hin, Finset.card_insert_of_notMem (fun hm => hin (hmem.1 hm)), h.sessions]
    · rw [if_neg hp, if_neg (Ne.symm hp), h.sessions]
  · intro id' row' hrow'
    change (s.sessions.insert id _).find? id' = some row' at hrow'
    rw [SortedMap.find?_insert] at hrow'
    split_ifs at hrow' with hid
    · rw [← Option.some.inj hrow', hid]
      refine ⟨hused.1, fun p => ?_⟩
      rw [List.mem_append, List.mem_singleton, Prod.mk.injEq, ← hused.2, ← hrow]
      change p ∈ noted row.protocolsUsed row.protocol ↔ _
      rw [noted]
      split_ifs with hin
      · exact ⟨Or.inl, fun hp => hp.elim (fun hp => hp) fun hp => hp.2 ▸ hin⟩
      · rw [List.mem_append, List.mem_singleton]
        exact or_congr Iff.rfl (and_iff_right rfl).symm
    · refine ⟨(h.used id' row' hrow').1, fun p => ?_⟩
      rw [(h.used id' row' hrow').2, List.mem_append, List.mem_singleton, Prod.mk.injEq]
      exact (or_iff_left fun he => hid he.1).symm
  · intro e he
    rcases List.mem_append.1 he with he | he
    · exact h.ids e he
    · rw [List.mem_singleton.1 he]
      exact hused.1
  · change s.totalSessions = SortedMap.size (s.sessions.insert _ _) + _
    rw [SortedMap.size_insert_of_mem (SortedMap.mem_of_find? hold)]
    exact h.total

/-- **A start** is counted for its protocol. -/
theorem setProtocol (h : s.Accounts P) (t : Moment) (id : ℕ) (protocol chain : Bytes)
    (active : Bool) :
    (s.setProtocol t id protocol chain active).Accounts
      { P with started := P.started ++ s.startOf id protocol chain active } := by
  rw [ServerStats.setProtocol, startOf]
  rcases hold : s.sessions.find? id with _ | old
  · dsimp only
    rw [List.append_nil]
    exact h
  · obtain ⟨row, hrow⟩ : ∃ row, turned old protocol chain active = row := ⟨_, rfl⟩
    have hused : row.protocolsUsed = old.protocolsUsed := hrow ▸ rfl
    have hb := h.banked t old.active old
    have hold' : (if old.active then s.closeActive t old else s).sessions.find? id = some old := by
      rw [sessions_banked, hold]
    dsimp only
    rw [hrow]
    generalize (if old.active then s.closeActive t old else s) = b at hb hold' ⊢
    by_cases ha : (active && named row) = true
    · rw [if_pos ha, if_pos ha]
      exact hb.start hold' hused chain t
    · rw [if_neg ha, if_neg ha, List.append_nil]
      exact hb.putRow hold' hused

/-- A pipeline that ends reports nothing. -/
theorem setPipelineActive (h : s.Accounts P) (t : Moment) (id : ℕ) (active : Bool) :
    (s.setPipelineActive t id active).Accounts P := by
  rw [ServerStats.setPipelineActive]
  rcases s.sessions.find? id with _ | row
  · exact h
  · exact (h.banked t _ row).onRow id fun _ => rfl

/-- **A session that ends** goes into the history. -/
theorem removeSession (h : s.Accounts P) (t : Moment) (id : ℕ) :
    (s.removeSession t id).Accounts
      { P with ended := P.ended ++ (s.sessions.find? id).toList.map (finished t) } := by
  have h₁ : Accounts { s with assoc := s.assoc.step (.remove id t.wall) } P := { h with }
  rw [ServerStats.removeSession]
  dsimp only
  rcases hold : s.sessions.find? id with _ | row
  · dsimp only
    rw [Option.toList_none, List.map_nil, List.append_nil]
    exact h₁
  · have hb := h₁.banked t row.active row
    obtain ⟨b, hbs⟩ : ∃ b, (if row.active then
      ServerStats.closeActive { s with assoc := s.assoc.step (.remove id t.wall) } t row
        else { s with assoc := s.assoc.step (.remove id t.wall) }) = b := ⟨_, rfl⟩
    have hsess : b.sessions = s.sessions := by rw [← hbs, sessions_banked]
    rw [hbs] at hb
    dsimp only
    rw [hbs, Option.toList_some, List.map_singleton]
    refine { hb with used := ?_, total := ?_, history := ?_ }
    · intro id' row' hrow'
      rw [SortedMap.find?_erase] at hrow'
      split_ifs at hrow' with hid
      exact hb.used id' row' hrow'
    · change b.totalSessions = SortedMap.size (b.sessions.erase id) +
        (P.ended ++ [finished t row]).length
      have := SortedMap.size_of_mem
        (SortedMap.mem_of_find? (hsess ▸ hold : b.sessions.find? id = some row))
      have := hb.total
      rw [List.length_append, List.length_singleton]
      omega
    · change Recent.trim b.historyLimit (b.history ++ [_]) = _
      rw [hb.history, Recent.trim_rtake_append]

/-- **A report is entered in the accounts.** -/
theorem step (h : s.Accounts P) (t : Moment) (r : Report) :
    (s.step t r).Accounts (P.note s t r) := by
  cases r with
  | log id text => exact h.addLog t id text
  | clearLog => exact { h with log := (List.rtake_nil _).symm }
  | iqControl id on => cases on <;> exact { h with }
  | keyReload id on => cases on <;> exact { h with }
  | iqLogging on => exact { h with }
  | connect remote => exact h.addSession t remote
  | data id => exact h.onRow id fun _ => rfl
  | bytesIn n => exact { h with }
  | bytesOut n => exact { h with }
  | request id protocol chain => exact h.noteRequest t id protocol chain
  | protocol id protocol chain active => exact h.setProtocol t id protocol chain active
  | freq id hz => exact h.onRow id fun _ => rfl
  | pipeline id active => exact h.setPipelineActive t id active
  | disconnect id => exact h.removeSession t id
  | assoc op => exact { h with }

/-- A run is entered in the accounts. -/
theorem run : ∀ (l : List (Moment × Report)) {s : ServerStats} {P : Past}, s.Accounts P →
    (s.run l).Accounts (past s P l)
  | [], _, _, h => h
  | tr :: l, _, _, h => run l (h.step tr.1 tr.2)

end Accounts

/-- The registry of a server that starts. -/
def opened (historyLimit logLimit : ℕ) (started : Moment) : ServerStats :=
  { historyLimit := historyLimit, logLimit := logLimit, started := started }

/-- At the start nothing was reported. -/
theorem accounts_opened (historyLimit logLimit : ℕ) (started : Moment) :
    (opened historyLimit logLimit started).Accounts {} where
  keyed := fun _ u h => nomatch (show none = some u from h)
  idle := fun _ => rfl
  requests := fun _ => rfl
  starts := fun _ => rfl
  sessions := fun _ => rfl
  used := fun _ row h => nomatch (show none = some row from h)
  ids := fun _ he => absurd he List.not_mem_nil
  total := rfl
  history := (List.rtake_nil _).symm
  log := (List.rtake_nil _).symm

/-! ## What the status page shows

The page adds what runs to what is banked.  It counts each running pipeline once, under its
protocol.
-/

theorem decode_foldl_addRunning (p : Bytes) (now : ℤ) :
    ∀ (l : List SessionRow) (usage : SortedMap Bytes ProtocolUsage),
    ((l.foldl (addRunning now) usage).getD p {}).decode =
      (usage.getD p {}).decode + (l.map (runTime p now)).sum := by
  intro l
  induction l with
  | nil => exact fun _ => (add_zero _).symm
  | cons r l ih =>
    intro usage
    rw [List.foldl_cons, ih, List.map_cons, List.sum_cons, ← add_assoc]
    congr 1
    rw [addRunning]
    by_cases ha : r.active = true
    · rw [if_pos ha]
      dsimp only
      rw [SortedMap.getD_insert, runTime]
      by_cases hp : p = r.protocol
      · rw [if_pos hp, if_pos (show r.active ∧ r.protocol = p from ⟨ha, hp.symm⟩), hp]
      · rw [if_neg hp, if_neg fun hr => hp hr.2.symm, add_zero]
    · rw [if_neg ha, runTime, if_neg fun hr => ha hr.1, add_zero]

/-- The decode time shown is what is banked and what runs. -/
theorem decode_usageNow (s : ServerStats) (p : Bytes) (now : ℤ) :
    ((s.usageNow now).getD p {}).decode = s.decodeTime p now := by
  rw [usageNow, decode_foldl_addRunning, rows, List.map_map]
  rfl

/-- A pipeline that runs changes no figure of the requests, the starts or the sessions. -/
theorem figure_foldl_addRunning {α : Type*} {f : ProtocolUsage → α}
    (hf : ∀ (u : ProtocolUsage) protocol activeNow decode,
      f { u with protocol := protocol, activeNow := activeNow, decode := decode } = f u)
    (p : Bytes) (now : ℤ) :
    ∀ (l : List SessionRow) (usage : SortedMap Bytes ProtocolUsage),
      f ((l.foldl (addRunning now) usage).getD p {}) = f (usage.getD p {}) := by
  intro l
  induction l with
  | nil => exact fun _ => rfl
  | cons r l ih =>
    intro usage
    rw [List.foldl_cons, ih, addRunning]
    by_cases ha : r.active = true
    · rw [if_pos ha]
      dsimp only
      rw [SortedMap.getD_insert]
      by_cases hp : p = r.protocol
      · rw [if_pos hp, hp]
        exact hf _ _ _ _
      · rw [if_neg hp]
    · rw [if_neg ha]

theorem activeNow_foldl_addRunning (p : Bytes) (now : ℤ) : ∀ (l : List SessionRow)
    (usage : SortedMap Bytes ProtocolUsage),
    ((l.foldl (addRunning now) usage).getD p {}).activeNow =
      (usage.getD p {}).activeNow + l.countP fun r => r.active ∧ r.protocol = p := by
  intro l
  induction l with
  | nil => exact fun _ => rfl
  | cons r l ih =>
    intro usage
    rw [List.foldl_cons, ih, List.countP_cons, addRunning]
    by_cases ha : r.active = true
    · rw [if_pos ha]
      dsimp only
      rw [SortedMap.getD_insert]
      by_cases hp : p = r.protocol
      · have hr : decide (r.active = true ∧ r.protocol = p) = true := decide_eq_true ⟨ha, hp.symm⟩
        rw [if_pos hp, if_pos hr, hp]
        dsimp only
        omega
      · rw [if_neg hp, if_neg (by simp [ha, Ne.symm hp])]
        omega
    · rw [if_neg ha, if_neg (by simp [ha])]
      omega

/-- Usages stay under their own protocols. -/
theorem keyed_foldl_addRunning (now : ℤ) :
    ∀ (l : List SessionRow) (usage : SortedMap Bytes ProtocolUsage),
    (∀ p u, usage.find? p = some u → u.protocol = p) →
      ∀ p u, (l.foldl (addRunning now) usage).find? p = some u → u.protocol = p := by
  intro l
  induction l with
  | nil => exact fun _ h => h
  | cons r l ih =>
    intro usage h
    refine ih _ ?_
    rw [addRunning]
    by_cases ha : r.active = true
    · rw [if_pos ha]
      intro p u hu
      dsimp only at hu
      rw [SortedMap.find?_insert] at hu
      by_cases hp : p = r.protocol
      · rw [if_pos hp] at hu
        rw [← Option.some.inj hu, hp, SortedMap.getD]
        refine Accounts.own_protocol ?_
        rcases hf : usage.find? r.protocol with _ | v
        · exact Or.inr rfl
        · exact Or.inl (h _ v hf)
      · rw [if_neg hp] at hu
        exact h p u hu
    · rw [if_neg ha]
      exact h

/-- A protocol listed is one of the usages as they are now. -/
theorem mem_protocols {now : ℤ} {u : ProtocolUsage} {P : Past} (h : s.Accounts P)
    (hu : u ∈ (s.snapshot now).protocols) :
    u = (s.usageNow now).getD u.protocol {} := by
  rw [snapshot, List.mem_mergeSort, List.mem_map] at hu
  obtain ⟨⟨p, u⟩, hpu, rfl⟩ := hu
  have hf := SortedMap.find?_eq_some_iff.2 hpu
  have hp : u.protocol = p := keyed_foldl_addRunning now s.rows s.usage h.keyed p u hf
  rw [hp, SortedMap.getD_of_find? hf]

/-! ## Which protocols it shows

A protocol is listed under its own name, so the usages as they are now, which are kept by protocol,
list it once.  Everything asked for or started has left a figure there, and what runs is added on
the spot: none of these can be missing.  Conversely a usage is only ever opened by a request, a
start, or the end of a run, so a protocol with a proper name that is listed was asked for or
started. -/

/-- The protocols that the page lists. -/
def Snapshot.names (n : Snapshot) : List Bytes := n.protocols.map (·.protocol)

/-- Each usage as it is now is listed, under the name it is kept by. -/
theorem names_perm {P : Past} (h : s.Accounts P) (now : ℤ) :
    (s.snapshot now).names.Perm (s.usageNow now).keys := by
  have hkeys : ((s.usageNow now).entries.map Prod.snd).map (·.protocol) =
      (s.usageNow now).keys := by
    rw [List.map_map]
    refine List.map_congr_left fun e he => ?_
    exact keyed_foldl_addRunning now s.rows s.usage h.keyed e.1 e.2
      (SortedMap.find?_eq_some_iff.2 he)
  rw [← hkeys]
  exact (List.mergeSort_perm _ _).map _

/-- **No protocol is listed twice.** -/
theorem nodup_names {P : Past} (h : s.Accounts P) (now : ℤ) : (s.snapshot now).names.Nodup :=
  (names_perm h now).nodup_iff.2 (SortedMap.nodup_keys _)

theorem mem_foldl_addRunning (p : Bytes) (now : ℤ) :
    ∀ (l : List SessionRow) (usage : SortedMap Bytes ProtocolUsage),
    p ∈ l.foldl (addRunning now) usage ↔ p ∈ usage ∨ 0 < l.countP fun r => r.active ∧
      r.protocol = p := by
  intro l
  induction l with
  | nil => exact fun usage => (or_iff_left (Nat.lt_irrefl 0)).symm
  | cons r l ih =>
    intro usage
    rw [List.foldl_cons, ih, addRunning]
    by_cases ha : r.active = true
    · rw [if_pos ha]
      dsimp only
      rw [SortedMap.mem_insert, List.countP_cons]
      by_cases hp : p = r.protocol
      · rw [if_pos (decide_eq_true ⟨ha, hp.symm⟩)]
        exact iff_of_true (Or.inl (Or.inl hp)) (Or.inr (Nat.succ_pos _))
      · rw [if_neg (by simp [ha, Ne.symm hp]), or_iff_right hp, Nat.add_zero]
    · rw [if_neg ha, List.countP_cons, if_neg (by simp [ha]), Nat.add_zero]

/-- A protocol is listed if it has a usage, or runs. -/
theorem mem_names {P : Past} (h : s.Accounts P) (now : ℤ) :
    p ∈ (s.snapshot now).names ↔ p ∈ s.usage ∨ 0 < s.running p := by
  rw [(names_perm h now).mem_iff]
  exact mem_foldl_addRunning p now s.rows s.usage

/-- The protocols asked for or started in a run so far. -/
def Past.Named (P : Past) (p : Bytes) : Prop := p ∈ P.requested ∨ p ∈ P.started.map Prod.snd

/-- What was asked for or started has a usage, which counts it. -/
theorem Accounts.mem_usage {P : Past} (h : s.Accounts P) (hp : P.Named p) : p ∈ s.usage := by
  by_contra hn
  have hblank : s.usage.getD p {} = {} := SortedMap.getD_of_not_mem hn _
  rcases hp with hp | hp
  · have := h.requests p
    rw [hblank] at this
    exact (List.count_pos_iff.2 hp).ne this
  · have := h.starts p
    rw [hblank] at this
    exact (List.count_pos_iff.2 hp).ne this

/-- **Nothing else has a usage**, or runs. -/
structure Reported (s : ServerStats) (P : Past) : Prop where
  usage : ∀ p ∈ s.usage, p ≠ [] → p ≠ lit "-" → P.Named p
  rows : ∀ id row, s.sessions.find? id = some row → row.active = true → row.protocol ≠ [] →
    row.protocol ≠ lit "-" → P.Named row.protocol

namespace Reported

variable {P P' : Past}

/-- More that was reported does no harm. -/
theorem mono (h : s.Reported P) (hP : ∀ p, P.Named p → P'.Named p) : s.Reported P' where
  usage p hp h₁ h₂ := hP p (h.usage p hp h₁ h₂)
  rows id row hrow ha h₁ h₂ := hP _ (h.rows id row hrow ha h₁ h₂)

/-- The end of a run opens the usage of what ran. -/
theorem banked (h : s.Reported P) (t : Moment) {b : Bool} {row : SessionRow}
    (hrow : s.sessions.find? id = some row) (hb : b = true → row.active = true) :
    (if b then s.closeActive t row else s).Reported P := by
  split_ifs with hb'
  · refine { h with usage := fun p hp h₁ h₂ => ?_ }
    rcases SortedMap.mem_insert.1 hp with rfl | hp
    · exact h.rows id row hrow (hb hb') h₁ h₂
    · exact h.usage p hp h₁ h₂
  · exact h

/-- A row put in another's place. -/
theorem putRow (h : s.Reported P) (id : ℕ) {row : SessionRow}
    (hrow : row.active = true → row.protocol ≠ [] → row.protocol ≠ lit "-" → P.Named row.protocol) :
    (s.putRow id row).Reported P :=
  { h with
    rows := fun id' row' hrow' ha h₁ h₂ => by
      rw [ServerStats.putRow, SortedMap.find?_insert] at hrow'
      split_ifs at hrow'
      · rw [← Option.some.inj hrow'] at ha h₁ h₂ ⊢
        exact hrow ha h₁ h₂
      · exact h.rows id' row' hrow' ha h₁ h₂ }

/-- A row that runs no more than before. -/
theorem onRow (h : s.Reported P) (id : ℕ) {g : SessionRow → SessionRow}
    (hg : ∀ r, (g r).protocol = r.protocol ∧ ((g r).active = true → r.active = true)) :
    (s.onRow id g).Reported P :=
  { h with
    rows := fun id' row' hrow' ha h₁ h₂ => by
      rw [ServerStats.onRow, SortedMap.find?_modify] at hrow'
      split_ifs at hrow'
      · obtain ⟨row, hf, rfl⟩ := Option.map_eq_some_iff.1 hrow'
        rw [(hg row).1] at h₁ h₂ ⊢
        exact h.rows id' row hf ((hg row).2 ha) h₁ h₂
      · exact h.rows id' row' hrow' ha h₁ h₂ }

theorem setProtocol (h : s.Reported P) (t : Moment) (id : ℕ) (protocol chain : Bytes)
    (active : Bool) :
    (s.setProtocol t id protocol chain active).Reported
      { P with started := P.started ++ s.startOf id protocol chain active } := by
  rw [ServerStats.setProtocol, startOf]
  rcases hold : s.sessions.find? id with _ | old
  · exact h.mono fun p => Or.imp_right fun hp => by rwa [List.append_nil]
  · obtain ⟨row, hrow⟩ : ∃ row, turned old protocol chain active = row := ⟨_, rfl⟩
    have hactive : row.active = active := hrow ▸ rfl
    have hb := h.banked t hold fun ha : old.active = true => ha
    dsimp only
    rw [hrow]
    generalize (if old.active then s.closeActive t old else s) = b at hb ⊢
    by_cases ha : (active && named row) = true
    · rw [if_pos ha, if_pos ha]
      have hstarted : row.protocol ∈ (P.started ++ [(id, row.protocol)]).map Prod.snd :=
        List.mem_map.2 ⟨_, List.mem_append_right _ List.mem_cons_self, rfl⟩
      have hmono : b.Reported { P with started := P.started ++ [(id, row.protocol)] } :=
        hb.mono fun p =>
        Or.imp_right fun hp => by
          rw [List.map_append]
          exact List.mem_append_left _ hp
      have husage : (b.onUsage row.protocol (comeUp row chain)).Reported
          { P with started := P.started ++ [(id, row.protocol)] } :=
        { hmono with
          usage := fun p hp h₁ h₂ => by
            rcases SortedMap.mem_insert.1 hp with rfl | hp
            · exact Or.inr hstarted
            · exact hmono.usage p hp h₁ h₂ }
      exact husage.putRow id fun _ _ _ => Or.inr hstarted
    · rw [if_neg ha, if_neg ha, List.append_nil]
      refine hb.putRow id fun hon h₁ h₂ => absurd ?_ ha
      rw [named, ← hactive, hon]
      simp [h₁, h₂]

theorem noteRequest (h : s.Reported P) (t : Moment) (id : ℕ) (protocol chain : Bytes) :
    (s.noteRequest t id protocol chain).Reported
      (if protocol = [] then P else { P with requested := P.requested ++ [protocol] }) := by
  rw [ServerStats.noteRequest]
  split_ifs with hp
  · exact h
  · have hsame := h.onRow id
      (g := fun row => { row with protocolsRequested := noted row.protocolsRequested protocol })
      fun _ => ⟨rfl, fun ha => ha⟩
    have hrow : (s.onRow id fun row =>
        { row with protocolsRequested := noted row.protocolsRequested protocol }).Reported
          { P with requested := P.requested ++ [protocol] } :=
      hsame.mono fun p => Or.imp_left fun hp => List.mem_append_left _ hp
    refine { hrow with usage := fun p hp h₁ h₂ => ?_ }
    rcases SortedMap.mem_insert.1 hp with rfl | hp
    · exact Or.inl (List.mem_append_right _ List.mem_cons_self)
    · exact hrow.usage p hp h₁ h₂

theorem setPipelineActive (h : s.Reported P) (t : Moment) (id : ℕ) :
    (s.setPipelineActive t id false).Reported P := by
  rw [ServerStats.setPipelineActive]
  rcases hold : s.sessions.find? id with _ | row
  · exact h
  · dsimp only
    refine (h.banked t hold fun hb => ?_).onRow id fun r =>
      ⟨rfl, fun ha => absurd ha Bool.false_ne_true⟩
    exact (Bool.and_eq_true_iff.1 hb).1

theorem removeSession (h : s.Reported P) (t : Moment) (id : ℕ) :
    (s.removeSession t id).Reported P := by
  have h₁ : Reported { s with assoc := s.assoc.step (.remove id t.wall) } P := { h with }
  rw [ServerStats.removeSession]
  dsimp only
  rcases hold : s.sessions.find? id with _ | row
  · exact h₁
  · have hb := h₁.banked t (b := row.active) hold fun ha => ha
    obtain ⟨b, hbs⟩ : ∃ b, (if row.active then
      ServerStats.closeActive { s with assoc := s.assoc.step (.remove id t.wall) } t row
        else { s with assoc := s.assoc.step (.remove id t.wall) }) = b := ⟨_, rfl⟩
    rw [hbs] at hb
    dsimp only
    rw [hbs]
    refine { hb with rows := fun id' row' hrow' => ?_ }
    rw [SortedMap.find?_erase] at hrow'
    split_ifs at hrow'
    exact hb.rows id' row' hrow'

/-- **A report opens a usage only for what it names.** -/
theorem step (h : s.Reported P) (t : Moment) {r : Report} (hr : r.Usual) :
    (s.step t r).Reported (P.note s t r) := by
  cases r with
  | log id text =>
    change (s.addLog t id text).Reported _
    rw [addLog]
    split_ifs <;> exact { h with }
  | clearLog => exact { h with }
  | iqControl id on => cases on <;> exact { h with }
  | keyReload id on => cases on <;> exact { h with }
  | iqLogging on => exact { h with }
  | connect remote =>
    let row : SessionRow :=
      { id := s.lastId + 1, remote := remote, connected := t.wall, connectedMono := t.mono,
        lastDataMono := t.mono }
    have hrow : (s.putRow (s.lastId + 1) row).Reported P :=
      h.putRow (s.lastId + 1) fun ha => absurd ha Bool.false_ne_true
    exact { hrow with }
  | data id => exact h.onRow id fun _ => ⟨rfl, fun ha => ha⟩
  | bytesIn n => exact { h with }
  | bytesOut n => exact { h with }
  | request id protocol chain => exact h.noteRequest t id protocol chain
  | protocol id protocol chain active => exact h.setProtocol t id protocol chain active
  | freq id hz => exact h.onRow id fun _ => ⟨rfl, fun ha => ha⟩
  | pipeline id active =>
    obtain rfl : active = false := hr
    exact h.setPipelineActive t id
  | disconnect id =>
    exact (h.removeSession t id).mono fun _ hp => hp
  | assoc op => exact { h with }

/-- **…and so it is in a run.** -/
theorem run : ∀ (l : List (Moment × Report)) {s : ServerStats} {P : Past}, s.Reported P →
    (∀ tr ∈ l, tr.2.Usual) → (s.run l).Reported (past s P l)
  | [], _, _, h, _ => h
  | tr :: l, _, _, h, hl =>
    run l (h.step tr.1 (hl tr List.mem_cons_self)) fun x hx => hl x (List.mem_cons_of_mem _ hx)

/-- What runs was started. -/
theorem of_running (h : s.Reported P) (h₁ : p ≠ []) (h₂ : p ≠ lit "-") (hp : 0 < s.running p) :
    P.Named p := by
  obtain ⟨row, hrow, hr⟩ := List.countP_pos_iff.1 hp
  obtain ⟨ha, rfl⟩ := of_decide_eq_true hr
  obtain ⟨⟨id, row⟩, he, rfl⟩ := List.mem_map.1 hrow
  exact h.rows id row (SortedMap.find?_eq_some_iff.2 he) ha h₁ h₂

end Reported

/-- At the start no protocol has a usage. -/
theorem reported_opened (historyLimit logLimit : ℕ) (started : Moment) :
    (opened historyLimit logLimit started).Reported {} where
  usage p hp := absurd hp (List.not_mem_nil (a := p))
  rows _ row hrow := nomatch (show none = some row from hrow)

/-- **Decode time, for any protocol**: what the usages as they are now say is what its pipelines
ran, summed up over time, and how many run. -/
theorem usageNow_run (historyLimit logLimit : ℕ) (started : Moment) {l : List (Moment × Report)}
    (hl : ∀ tr ∈ l, tr.2.Usual) (now : ℤ) (h₁ : p ≠ []) (h₂ : p ≠ lit "-") :
    let s := opened historyLimit logLimit started
    (((s.run l).usageNow now).getD p {}).decode = runTimes p now s started.mono l ∧
      (((s.run l).usageNow now).getD p {}).activeNow = (s.run l).running p := by
  intro s
  have hacc := accounts_opened historyLimit logLimit started
  have hrun : ∀ (l : List (Moment × Report)) (s : ServerStats) (P : Past) (since : ℤ),
      s.Accounts P →
      (∀ tr ∈ l, tr.2.Usual) → (s.run l).decodeTime p now =
        s.decodeTime p since + runTimes p now s since l := by
    intro l
    induction l with
    | nil => exact fun s P since _ _ => decodeTime_later s p since now
    | cons tr l ih =>
      intro s P since h hl
      rw [run, List.foldl_cons, ← run,
        ih _ _ tr.1.mono (h.step tr.1 tr.2) fun x hx => hl x (List.mem_cons_of_mem _ hx),
        decodeTime_step ⟨h₁, h₂⟩ h.fresh (hl tr List.mem_cons_self),
        decodeTime_later s p since, runTimes, add_assoc]
  constructor
  · calc (((s.run l).usageNow now).getD p {}).decode = (s.run l).decodeTime p now :=
      decode_usageNow ..
      _ = s.decodeTime p started.mono + runTimes p now s started.mono l :=
        hrun l s {} started.mono hacc hl
      _ = runTimes p now s started.mono l := zero_add _
  · rw [usageNow, activeNow_foldl_addRunning, (hacc.run l).idle]
    exact zero_add _

/-- **Decode time**: in every run of a server a protocol is listed exactly if it was asked for or
started, and once; the time shown for it is what its pipelines ran, summed up over time, the
pipelines shown are those that run, and what is not listed neither runs nor ran. -/
theorem decode_time (historyLimit logLimit : ℕ) (started : Moment) {l : List (Moment × Report)}
    (hl : ∀ tr ∈ l, tr.2.Usual) (now : ℤ) :
    let s := opened historyLimit logLimit started
    let shown := (s.run l).snapshot now
    shown.names.Nodup ∧ ∀ p, p ≠ [] → p ≠ lit "-" →
      (p ∈ shown.names ↔ (past s {} l).Named p) ∧
      (∀ u ∈ shown.protocols, u.protocol = p →
        u.decode = runTimes p now s started.mono l ∧ u.activeNow = (s.run l).running p) ∧
      (p ∉ shown.names → runTimes p now s started.mono l = 0 ∧ (s.run l).running p = 0) := by
  intro s shown
  have hacc : (s.run l).Accounts (past s {} l) :=
    (accounts_opened historyLimit logLimit started).run l
  have hrep : (s.run l).Reported (past s {} l) :=
    (reported_opened historyLimit logLimit started).run l hl
  refine ⟨nodup_names hacc now, fun p h₁ h₂ => ?_⟩
  obtain ⟨hdecode, hactive⟩ := usageNow_run historyLimit logLimit started hl now h₁ h₂
  refine ⟨?_, ?_, fun hn => ?_⟩
  · rw [mem_names hacc now]
    constructor
    · rintro (hp | hp)
      · exact hrep.usage p hp h₁ h₂
      · exact hrep.of_running h₁ h₂ hp
    · exact fun hp => Or.inl (hacc.mem_usage hp)
  · rintro u hu rfl
    have hu' := mem_protocols hacc hu
    exact ⟨(congrArg _ hu').trans hdecode, (congrArg _ hu').trans hactive⟩
  · have hblank : ((s.run l).usageNow now).getD p {} = {} :=
      SortedMap.getD_of_not_mem (fun hp => hn ((names_perm hacc now).mem_iff.2 hp)) _
    rw [hblank] at hdecode hactive
    exact ⟨hdecode.symm, hactive.symm⟩

/-- A client that decodes, changes its protocol and leaves. -/
def spell : List (Moment × Report) :=
  [(⟨0, 0⟩, .connect (lit "a")), (⟨1, 10⟩, .protocol 1 (lit "dmr") (lit "fm") true),
    (⟨2, 25⟩, .protocol 1 (lit "p25") (lit "fm") true), (⟨3, 30⟩, .disconnect 1)]

theorem decode_time_spell :
    runTimes (lit "dmr") 40 (opened 50 300 ⟨0, 0⟩) 0 spell = 15 ∧
      let s := opened 50 300 ⟨0, 0⟩
      let shown := (s.run spell).snapshot 40
      shown.names.Nodup ∧ ∀ p, p ≠ [] → p ≠ lit "-" →
        (p ∈ shown.names ↔ (past s {} spell).Named p) ∧
        (∀ u ∈ shown.protocols, u.protocol = p →
          u.decode = runTimes p 40 s 0 spell ∧ u.activeNow = (s.run spell).running p) ∧
        (p ∉ shown.names → runTimes p 40 s 0 spell = 0 ∧ (s.run spell).running p = 0) :=
  ⟨by decide, decode_time 50 300 ⟨0, 0⟩ (by decide) 40⟩

/-- How much the registry keeps. -/
def limits (s : ServerStats) : ℕ × ℕ := (s.historyLimit, s.logLimit)

theorem limits_step (s : ServerStats) (t : Moment) (r : Report) :
    (s.step t r).limits = s.limits := by
  cases r with
  | log id text =>
    change (s.addLog t id text).limits = _
    rw [addLog]
    split_ifs <;> rfl
  | iqControl id on => cases on <;> rfl
  | keyReload id on => cases on <;> rfl
  | request id protocol chain =>
    change (s.noteRequest t id protocol chain).limits = _
    rw [noteRequest]
    split_ifs <;> rfl
  | protocol id protocol chain active =>
    change (s.setProtocol t id protocol chain active).limits = _
    rw [setProtocol]
    split
    · rfl
    · dsimp only
      split_ifs <;> rfl
  | pipeline id active =>
    change (s.setPipelineActive t id active).limits = _
    rw [setPipelineActive]
    split
    · rfl
    · dsimp only
      split_ifs <;> rfl
  | disconnect id =>
    change (s.removeSession t id).limits = _
    rw [removeSession]
    dsimp only
    split
    · rfl
    · split_ifs <;> rfl
  | _ => rfl

theorem limits_run : ∀ (l : List (Moment × Report)) (s : ServerStats), (s.run l).limits = s.limits
  | [], _ => rfl
  | tr :: l, s => (limits_run l (s.step tr.1 tr.2)).trans (limits_step s tr.1 tr.2)

end ServerStats

end DsdServer
