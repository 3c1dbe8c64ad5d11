import DsdServer.Assoc.Text
import DsdServer.Server.Keys

/-!
# Server/Hints — what a client says about its signal

The protocol a client names selects the signal chain; its key type names the scheme of a decryption
key.  Both are forgiving about case and separators.
-/

open Bytes

namespace DsdServer

/-- ASCII lower case. -/
def lower (s : Bytes) : Bytes := s.map fun b => if isUpper b then b + 32 else b

/-- A name without case and separators. -/
def squeeze (s : Bytes) : Bytes :=
  (lower s).filter fun c => !(c = ch ' ' || c = ch '_' || c = ch '-')

/-- What the client says the signal is. -/
inductive ProtocolHint
  | default | dmr | nxdn48 | nxdn96 | p25p1 | p25p2 | dpmr | dstar | ysf | auto | tetra | tetrakit
  | proVoice | edacs | edacsEsk | edacsEa | edacsEaEsk | x2tdma
  | pagerAuto | pocsag | pocsag512 | pocsag1200 | pocsag2400 | flex
  deriving DecidableEq

open ProtocolHint in
/-- The names of the protocols. -/
def protocolNames : List (String × ProtocolHint) :=
  [("dmr", dmr), ("nxdn48", nxdn48), ("nxdn", nxdn48), ("idas", nxdn48), ("nxdn96", nxdn96),
    ("p25p2", p25p2), ("p25phase2", p25p2), ("p25", p25p1), ("p25p1", p25p1), ("p25phase1", p25p1),
    ("dpmr", dpmr), ("dstar", dstar), ("ysf", ysf), ("fusion", ysf), ("systemfusion", ysf),
    ("c4fm", ysf), ("tetra", tetra), ("tetraosmo", tetra), ("osmotetra", tetra),
    ("tetrakit", tetrakit), ("provoice", proVoice), ("pv", proVoice), ("edacsesk", edacsEsk),
    ("edacsstdesk", edacsEsk), ("edacsnetesk", edacsEsk), ("edacseaesk", edacsEaEsk),
    ("edacsea", edacsEa), ("edacs", edacs), ("edacsstd", edacs), ("edacsnet", edacs),
    ("x2tdma", x2tdma), ("x2", x2tdma), ("x2t", x2tdma), ("pagerauto", pagerAuto),
    ("pager", pagerAuto), ("paging", pagerAuto), ("pocsag", pocsag), ("pocsag512", pocsag512),
    ("pocsag1200", pocsag1200), ("pocsag2400", pocsag2400), ("flex", flex), ("flexnext", flex)]

/-- **The protocol a client names**; DMR when it names none, and automatic when the name is
unknown. -/
def parseProtocolHint (s : Bytes) : ProtocolHint :=
  let k := squeeze s
  if k = [] then .default
  else match protocolNames.find? fun p => k = lit p.1 with
    | some p => p.2
    | none => .auto

namespace ProtocolHint

/-- Does a TETRA decoder take it? -/
def isTetra (h : ProtocolHint) : Bool := h ∈ [tetra, tetrakit]

/-- Is it a paging protocol? -/
def isPager (h : ProtocolHint) : Bool :=
  h ∈ [pagerAuto, pocsag, pocsag512, pocsag1200, pocsag2400, flex]

/-- The label of what a session decodes. -/
def label : ProtocolHint → Bytes
  | dmr => lit "dmr"
  | nxdn48 => lit "nxdn48"
  | nxdn96 => lit "nxdn96"
  | p25p1 => lit "p25p1"
  | p25p2 => lit "p25p2"
  | dpmr => lit "dpmr"
  | dstar => lit "dstar"
  | ysf => lit "ysf"
  | tetra => lit "tetra"
  | tetrakit => lit "tetrakit"
  | proVoice => lit "provoice"
  | edacs => lit "edacs"
  | edacsEsk => lit "edacs_esk"
  | edacsEa => lit "edacs_ea"
  | edacsEaEsk => lit "edacs_ea_esk"
  | x2tdma => lit "x2tdma"
  | pagerAuto => lit "pager-auto"
  | pocsag => lit "pocsag"
  | pocsag512 => lit "pocsag512"
  | pocsag1200 => lit "pocsag1200"
  | pocsag2400 => lit "pocsag2400"
  | flex => lit "flex"
  | auto => lit "auto"
  | default => lit "dmr"

end ProtocolHint

/-- The scheme of a decryption key. -/
inductive KeyType
  | none | bp | rc4 | des | aes | hytera | scrambler
  deriving DecidableEq

open KeyType in
/-- The names of the key types. -/
def keyTypeNames : List (String × KeyType) :=
  [("bp", bp), ("basicprivacy", bp), ("dmrbp", bp), ("rc4", rc4), ("des", des), ("aes", aes),
    ("aes128", aes), ("aes256", aes), ("hytera", hytera), ("hyterabp", hytera),
    ("scrambler", scrambler), ("nxdnscrambler", scrambler), ("dpmrscrambler", scrambler),
    ("ehr", scrambler)]

/-- The scheme a client names; none when it is unknown. -/
def parseKeyType (s : Bytes) : KeyType :=
  match keyTypeNames.find? fun p => squeeze s = lit p.1 with
  | some p => p.2
  | none => .none

/-- Hexadecimal digits and blanks, at least one digit. -/
def keyValueIsValid (v : Bytes) : Bool :=
  v.all (fun c => isXdigit c || c = ch ' ') && v.any isXdigit

/-- A mode of the paging decoder. -/
def pocsagModeIsKnown (mode : Bytes) : Bool :=
  lower mode ∈ [[], lit "auto", lit "alpha", lit "numeric", lit "skyper"]

end DsdServer
