import DsdServer.Dmr.PduText

/-!
# Dmr/Ars — registrations of the Motorola service

A registration is a header, the declared length, and length-prefixed strings within it, none of
which need agree with the bytes that came.  Every read is checked against the payload, a string's
also against the PDU's declared end: `decodeMotoArs_reads` says that none fails,
`decode_registration` that a registration is read as what it says.

The payload comes from the air, and may be cut short or be no registration at all.  What is read of
it is what its own lengths say and its bytes bear out; the rest is left, and there is no answer if
nothing is.
-/

open Bytes

namespace DsdServer

/-! ## Reading a PDU

Reads are by index and may fail, so that a read beyond the payload is a result of its own.  Strings
have their lengths in front, and the reader takes no byte beyond the declared end. -/

/-- A byte of the payload; there is none beyond it. -/
def byteAt (b : Bytes) (i : ℕ) : Option UInt8 := b[i]?

/-- A byte of a string, which is in the payload and before the PDU's declared end. -/
def strByteAt (b : Bytes) (fin i : ℕ) : Option UInt8 := if i < fin then byteAt b i else none

/-- The `n` characters at `i`, unless one of them is not printable. -/
def chars (b : Bytes) (fin : ℕ) : ℕ → ℕ → Option (Option Bytes)
  | _, 0 => some (some [])
  | i, n + 1 => do
    let c ← strByteAt b fin i
    if c < 0x20 || c > 0x7E then return none
    return (← chars b fin (i + 1) n).map (c :: ·)

/-- The length-prefixed string at `i`, unless it is malformed, and where it ends. -/
def str (b : Bytes) (fin i : ℕ) : Option (Option Bytes × ℕ) :=
  if i ≥ fin then return (none, i)
  else do
    let n := (← strByteAt b fin i).toNat
    let i := i + 1
    if i + n > fin then return (none, i)
    let out ← chars b fin i n
    return (out, if out.isSome then i + n else i)

/-- What a registration says. -/
def registration (dev user : Bytes) : Bytes :=
  lit "ARS registration" ++ dot ++ lit "radio " ++ dev ++
    if user = [] then [] else dot ++ lit "user " ++ user

/-- What a PDU of a type says, with its fields at `i`. -/
def notice (b : Bytes) (fin i : ℕ) (type : UInt8) : Option Bytes :=
  if type = 0x0 then do
    let dev ← str b fin i
    if dev.1.getD [] = [] then return []
    let user ← str b fin dev.2
    return registration (dev.1.getD []) (user.1.getD [])
  else if type = 0xF then some (lit "ARS registration ACK")
  else if type = 0x1 then some (lit "ARS de-registration")
  else if type = 0x4 then some (lit "ARS query")
  else some (lit "ARS (type " ++ dec type.toNat ++ lit ")")

/-- The PDU after the MNIS header, of a declared length. -/
def pdu (b : Bytes) (len : ℕ) : Option Bytes :=
  if len < 1 ∨ 7 + 2 + len > b.length then some []
  else do
    let hdr ← byteAt b (7 + 2)
    notice b (7 + 2 + len) (7 + 3 + if hdr &&& 0x80 ≠ 0 then 1 else 0) (hdr &&& 0x0F)

/-- The notice in a payload: nothing when it holds no ARS PDU. -/
def decodeArs (b : Bytes) : Option Bytes :=
  if b.length < 10 then some []
  else do
    if (← byteAt b 0) ≠ 0x1F ∨ (← byteAt b 4) ≠ 0x33 then return []
    pdu b ((← byteAt b 7).toNat <<< 8 ||| (← byteAt b (7 + 1)).toNat)

/-- The notice in a dump: `none` when a digit is none, or a byte is read that is not there. -/
def decodeMotoArs (hex : Bytes) : Option Bytes := do decodeArs (← hexBytes hex)

/-! ## No read fails

Before each read the reader compares the index with what there is; the lemmas go through the reads
in their order. -/

/-- A byte within the payload can be read. -/
theorem byteAt_of_lt {b : Bytes} {i : ℕ} (h : i < b.length) : ∃ c, byteAt b i = some c :=
  ⟨b[i], List.getElem?_eq_getElem h⟩

/-- A byte of a string within the payload can be read. -/
theorem strByteAt_of_lt {b : Bytes} {fin i : ℕ} (hi : i < fin) (hfin : fin ≤ b.length) :
    ∃ c, strByteAt b fin i = some c := by
  rw [strByteAt, if_pos hi]
  exact byteAt_of_lt (hi.trans_le hfin)

/-- The bytes of a string within the declared end can be read. -/
theorem chars_isSome {b : Bytes} {fin : ℕ} (hfin : fin ≤ b.length) (n : ℕ) :
    ∀ {i : ℕ}, i + n ≤ fin →
    ∃ out, chars b fin i n = some out := by
  induction n with
  | zero => exact fun _ => ⟨_, rfl⟩
  | succ n ih =>
    intro i hi
    obtain ⟨c, hc⟩ := strByteAt_of_lt (i := i) (by omega) hfin
    obtain ⟨out, hout⟩ := ih (i := i + 1) (by omega)
    rw [chars, hc, hout]
    simp only [Option.bind_eq_bind, Option.bind_some, Option.pure_def]
    split_ifs
    · exact ⟨_, rfl⟩
    · exact ⟨_, rfl⟩

/-- **A string is read** without reading beyond the PDU's end, whatever its length says. -/
theorem str_isSome {b : Bytes} {fin : ℕ} (hfin : fin ≤ b.length) (i : ℕ) :
    ∃ r, str b fin i = some r := by
  rw [str]
  split_ifs with hi
  · exact ⟨_, rfl⟩
  · obtain ⟨c, hc⟩ := strByteAt_of_lt (by omega : i < fin) hfin
    rw [hc]
    simp only [Option.bind_eq_bind, Option.bind_some, Option.pure_def]
    split_ifs with hlen
    · exact ⟨_, rfl⟩
    · obtain ⟨out, hout⟩ := chars_isSome hfin c.toNat (i := i + 1) (by omega)
      rw [hout]
      exact ⟨_, rfl⟩

/-- Whatever is decoded of a message after its header can be read. -/
theorem notice_isSome {b : Bytes} {fin : ℕ} (hfin : fin ≤ b.length) (i : ℕ) (type : UInt8) :
    ∃ t, notice b fin i type = some t := by
  rw [notice]
  split_ifs
  · obtain ⟨dev, hdev⟩ := str_isSome hfin i
    obtain ⟨user, huser⟩ := str_isSome hfin dev.2
    rw [hdev, Option.bind_eq_bind, Option.bind_some, huser]
    split_ifs
    · exact ⟨_, rfl⟩
    · exact ⟨_, rfl⟩
  all_goals exact ⟨_, rfl⟩

/-- **A PDU of ten bytes or more is decoded without a read beyond it.** -/
theorem pdu_isSome {b : Bytes} (hb : 10 ≤ b.length) (len : ℕ) : ∃ t, pdu b len = some t := by
  rw [pdu]
  split_ifs with hlen
  · exact ⟨_, rfl⟩
  · obtain ⟨hdr, hhdr⟩ := byteAt_of_lt (by omega : 7 + 2 < b.length)
    rw [hhdr]
    exact notice_isSome (by omega) _ _

/-- A payload with the bytes of a header is an ARS PDU, or nothing. -/
theorem decodeArs_eq {b : Bytes} {c0 c4 c7 c8 : UInt8} (hb : 10 ≤ b.length)
    (h0 : byteAt b 0 = some c0) (h4 : byteAt b 4 = some c4) (h7 : byteAt b 7 = some c7)
    (h8 : byteAt b (7 + 1) = some c8) :
    decodeArs b =
      if c0 ≠ 0x1F ∨ c4 ≠ 0x33 then some [] else pdu b (c7.toNat <<< 8 ||| c8.toNat) := by
  rw [decodeArs, if_neg (by omega), h0, h4, h7, h8]
  rfl

/-- **Any payload is decoded without a read beyond it.** -/
theorem decodeArs_isSome (b : Bytes) : ∃ t, decodeArs b = some t := by
  by_cases hb : b.length < 10
  · exact ⟨[], by rw [decodeArs, if_pos hb]⟩
  · obtain ⟨c0, h0⟩ := byteAt_of_lt (by omega : 0 < b.length)
    obtain ⟨c4, h4⟩ := byteAt_of_lt (by omega : 4 < b.length)
    obtain ⟨c7, h7⟩ := byteAt_of_lt (by omega : 7 < b.length)
    obtain ⟨c8, h8⟩ := byteAt_of_lt (by omega : 7 + 1 < b.length)
    rw [decodeArs_eq (by omega) h0 h4 h7 h8]
    split_ifs
    · exact ⟨_, rfl⟩
    · exact pdu_isSome (by omega) _

theorem nib_isHex : ∀ {c : UInt8}, isHex c = true → ∃ v, nib c = some v := by
  have h : ∀ n : Fin 256, isHex (UInt8.ofNat n) = true → (nib (UInt8.ofNat n)).isSome = true := by
    decide +kernel
  intro c hc
  have hn := h ⟨c.toNat, c.toNat_lt⟩
  rw [UInt8.ofNat_toNat] at hn
  exact Option.isSome_iff_exists.1 (hn hc)

theorem hexBytes_isSome : ∀ {hex : Bytes}, (∀ c ∈ hex, isHex c = true) → ∃ b, hexBytes hex = some b
  | [], _ => ⟨[], rfl⟩
  | [_], _ => ⟨[], rfl⟩
  | hi :: lo :: hex, h => by
    obtain ⟨v, hv⟩ := nib_isHex (h hi List.mem_cons_self)
    obtain ⟨w, hw⟩ := nib_isHex (h lo (List.mem_cons_of_mem _ List.mem_cons_self))
    have hrest : ∀ c ∈ hex, isHex c = true := fun c hc =>
      h c (List.mem_cons_of_mem _ (List.mem_cons_of_mem _ hc))
    obtain ⟨b, hb⟩ := hexBytes_isSome hrest
    exact ⟨(v <<< 4 ||| w) :: b, by rw [hexBytes, hv, hw, hb]; rfl⟩

/-- **No read fails** on the dump of any payload. -/
theorem decodeMotoArs_reads {hex : Bytes} (h : ∀ c ∈ hex, isHex c = true) :
    ∃ t, decodeMotoArs hex = some t := by
  obtain ⟨b, hb⟩ := hexBytes_isSome h
  rw [decodeMotoArs, hb]
  exact decodeArs_isSome b

/-! ## A registration is read as it was written

The bytes of a registration are put together as the service documents them, and every string is
found where the one before it ended. -/

/-- A length-prefixed string. -/
def prefixed (s : Bytes) : Bytes := UInt8.ofNat s.length :: s

/-- The fields of a registration. -/
structure Registration where
  /-- the bytes of the MNIS header that are not its marks -/
  b1 : UInt8
  b2 : UInt8
  dir : UInt8
  seqHi : UInt8
  seqLo : UInt8
  /-- the header byte, of type 0 -/
  hdr : UInt8
  type : hdr &&& 0x0F = 0
  /-- the extension byte, when there is one -/
  ext : Option UInt8
  extended : ext.isSome ↔ hdr &&& 0x80 ≠ 0
  dev : Bytes
  user : Bytes
  password : Bytes
  lengths : dev.length < 256 ∧ user.length < 256 ∧ password.length < 256
  chars : (∀ c ∈ dev, printable c) ∧ (∀ c ∈ user, printable c) ∧ ∀ c ∈ password, printable c
  named : dev ≠ []

namespace Registration

variable (m : Registration)

/-- The PDU: its header, the extension and the three strings. -/
def body : Bytes :=
  m.hdr :: (m.ext.toList ++ (prefixed m.dev ++ (prefixed m.user ++ prefixed m.password)))

/-- The message: the MNIS header, the PDU's length and the PDU. -/
def bytes : Bytes :=
  [0x1F, m.b1, m.b2, m.dir, 0x33, m.seqHi, m.seqLo] ++
    [UInt8.ofNat (m.body.length / 256), UInt8.ofNat (m.body.length % 256)] ++ m.body

end Registration

section

variable {b pre s post : Bytes} {fin : ℕ}

theorem byteAt_append (c : UInt8) : byteAt (pre ++ c :: post) pre.length = some c := by
  rw [byteAt, List.getElem?_append_right le_rfl, Nat.sub_self, List.getElem?_cons_zero]

/-- The characters of a printable string. -/
theorem chars_append (post : Bytes) (fin : ℕ) :
    ∀ {s : Bytes} (pre : Bytes), (∀ c ∈ s, printable c) →
    pre.length + s.length ≤ fin → chars (pre ++ (s ++ post)) fin pre.length s.length =
      some (some s) := by
  intro s
  induction s with
  | nil => exact fun _ _ _ => rfl
  | cons c s ih =>
    intro pre hp hfin
    rw [List.length_cons] at hfin
    have hc := hp c List.mem_cons_self
    have hrest := ih (pre ++ [c]) (fun d hd => hp d (List.mem_cons_of_mem _ hd))
      (by rw [List.length_append, List.length_singleton]; omega)
    rw [List.append_assoc, List.singleton_append, List.length_append,
      List.length_singleton] at hrest
    rw [List.cons_append, List.length_cons, chars, strByteAt, if_pos (by omega), byteAt_append,
      Option.bind_eq_bind, Option.bind_some, hrest]
    rw [printable, Bool.and_eq_true, decide_eq_true_eq, decide_eq_true_eq] at hc
    have hno : ¬(c < 0x20 ∨ c > 0x7E) := not_or.2 ⟨not_lt.2 hc.1, not_lt.2 hc.2⟩
    simp [hno]

/-- **A length-prefixed string is read**, up to its end. -/
theorem str_prefixed (pre post : Bytes) (fin : ℕ) (hp : ∀ c ∈ s, printable c) (hs : s.length < 256)
    (hfin : pre.length + 1 + s.length ≤ fin) :
    str (pre ++ (prefixed s ++ post)) fin pre.length =
      some (some s, pre.length + 1 + s.length) := by
  have hlen : (UInt8.ofNat s.length).toNat = s.length := by
    rw [UInt8.toNat_ofNat', Nat.mod_eq_of_lt hs]
  have hchars := chars_append post fin (pre ++ [UInt8.ofNat s.length]) hp
    (by rw [List.length_append, List.length_singleton]; omega)
  rw [List.append_assoc, List.singleton_append, List.length_append, List.length_singleton] at hchars
  rw [str, if_neg (by omega), prefixed, List.cons_append, strByteAt, if_pos (by omega),
    byteAt_append, Option.bind_eq_bind, Option.bind_some, hlen, if_neg (by omega), hchars]
  rfl

end

/-- A number written as two bytes. -/
theorem two_bytes {n : ℕ} (hn : n < 2 ^ 16) :
    (UInt8.ofNat (n / 256)).toNat <<< 8 ||| (UInt8.ofNat (n % 256)).toNat = n := by
  rw [UInt8.toNat_ofNat', UInt8.toNat_ofNat', Nat.mod_eq_of_lt (by omega : n / 256 < 2 ^ 8),
    Nat.mod_eq_of_lt (by omega : n % 256 < 2 ^ 8), Nat.shiftLeft_eq, Nat.mul_comm,
    ← Nat.two_pow_add_eq_or_of_lt (by omega : n % 256 < 2 ^ 8)]
  omega

namespace Registration

variable (m : Registration)

/-- The message up to its first string. -/
def front : Bytes :=
  [0x1F, m.b1, m.b2, m.dir, 0x33, m.seqHi, m.seqLo, UInt8.ofNat (m.body.length / 256),
    UInt8.ofNat (m.body.length % 256), m.hdr] ++ m.ext.toList

/-- A registration is its front and three strings. -/
theorem bytes_eq :
    m.bytes = m.front ++ (prefixed m.dev ++ (prefixed m.user ++ prefixed m.password)) := by
  rw [bytes, front, body]
  simp

/-- The extension is there when the header says so. -/
theorem length_ext : m.ext.toList.length = if m.hdr &&& 0x80 ≠ 0 then 1 else 0 := by
  have h := m.extended
  cases hx : m.ext with
  | none =>
    rw [hx] at h
    rw [if_neg fun hn => absurd (h.2 hn) Bool.noConfusion]
    rfl
  | some e =>
    rw [hx] at h
    rw [if_pos (h.1 rfl)]
    rfl

theorem length_body :
    m.body.length = 1 + m.ext.toList.length + (1 + m.dev.length) + (1 + m.user.length) +
    (1 + m.password.length) := by
  simp only [body, prefixed, List.length_cons, List.length_append]
  omega

theorem length_front : m.front.length = 7 + 3 + if m.hdr &&& 0x80 ≠ 0 then 1 else 0 := by
  rw [← length_ext]
  exact List.length_append

theorem length_bytes : m.bytes.length = 9 + m.body.length := by
  simp only [bytes, List.length_append, List.length_cons, List.length_nil]

end Registration

/-- **A registration is decoded** to its device and its user. -/
theorem decode_registration (m : Registration) :
    decodeMotoArs (hexDump m.bytes) = some (registration m.dev m.user) := by
  have hdev : 1 ≤ m.dev.length := List.length_pos_iff.2 m.named
  obtain ⟨hd, hu, hw⟩ := m.lengths
  have hext := m.length_ext
  have hext1 : m.ext.toList.length ≤ 1 := by rw [hext]; split_ifs <;> omega
  have hbody := m.length_body
  have hlen := m.length_bytes
  have hnum := two_bytes (by omega : m.body.length < 2 ^ 16)
  rw [decodeMotoArs, hexBytes_hexDump]
  change decodeArs m.bytes = _
  rw [decodeArs_eq (by omega) rfl rfl rfl rfl, if_neg (by simp), hnum, pdu, if_neg (by omega)]
  have hhdr : byteAt m.bytes (7 + 2) = some m.hdr := rfl
  have hfront := m.length_front
  have hdevice : (m.front ++ prefixed m.dev).length = m.front.length + 1 + m.dev.length := by
    simp only [List.length_append, prefixed, List.length_cons]
    omega
  have hfirst := str_prefixed m.front (prefixed m.user ++ prefixed m.password)
    (7 + 2 + m.body.length)
    m.chars.1 hd (by omega)
  have hsecond := str_prefixed (m.front ++ prefixed m.dev) (prefixed m.password)
    (7 + 2 + m.body.length)
    m.chars.2.1 hu (by omega)
  rw [List.append_assoc, hdevice] at hsecond
  rw [hhdr, Option.bind_eq_bind, Option.bind_some, notice, if_pos m.type, ← hfront,
    m.bytes_eq, hfirst, Option.bind_eq_bind, Option.bind_some, hsecond]
  exact if_neg m.named

/-- **A registration is decoded as it was built**, and whatever is decoded is read within its
bounds. -/
theorem moto_ars_decoded :
    (∀ m : Registration, decodeMotoArs (hexDump m.bytes) = some (registration m.dev m.user)) ∧
      ∀ hex : Bytes, hex.length % 2 = 0 → (∀ c ∈ hex, isHex c = true) →
        ∃ t, decodeMotoArs hex = some t :=
  ⟨decode_registration, fun _ _ h => decodeMotoArs_reads h⟩

/-- A radio's registration, with an extension byte and neither a user nor a password. -/
def radio21518 : Registration where
  b1 := 0x10
  b2 := 0x02
  dir := 0x01
  seqHi := 0
  seqLo := 7
  hdr := 0xF0
  type := by decide
  ext := some 0x20
  extended := by decide
  dev := lit "21518"
  user := []
  password := []
  lengths := by decide
  chars :=
    ⟨List.all_eq_true.1 (by decide), List.all_eq_true.1 (by decide), List.all_eq_true.1 (by decide)⟩
  named := by decide

theorem radio21518_decoded :
    decodeMotoArs (hexDump radio21518.bytes) = some (registration (lit "21518") []) ∧
      ∃ t, decodeMotoArs (lit "1F1002013300") = some t :=
  ⟨moto_ars_decoded.1 radio21518,
    moto_ars_decoded.2 (lit "1F1002013300") (by decide) (List.all_eq_true.1 (by decide))⟩

end DsdServer
