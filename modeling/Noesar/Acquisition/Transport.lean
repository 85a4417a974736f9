import Noesar.Lib.Utf8
import Noesar.Lib.Number
import Noesar.Lib.Run

namespace Noesar.Acquisition

open Lib Lib.Framing

inductive TransportRefusal
  | noSource
  | schemeNotAllowed
  | redirectLimit
  | redirectWithoutLocation
  | httpStatus
  | noBody
  | sizeCapExceeded
  | digestMismatch
  | stalled
  | cancelled
  | transportError
  deriving DecidableEq

/-- The URLs of the platform, its digest, and its numbers as texts and from texts. -/
structure Web where
  Url : Type
  parse : String → Option Url
  join : String → Url → Option Url
  href : Url → String
  protocol : Url → String
  hostname : Url → String
  sha256 : Bytes → Bytes
  number : String → Number
  shown : ℚ → String

def Web.Reparses (web : Web) : Prop := ∀ url, web.parse (web.href url) = some url

def hex64 (digest : String) : Bool :=
  digest.length = 64 && digest.toList.all fun c ↦ c.isDigit || ('a' ≤ c.toLower && c.toLower ≤ 'f')

def unbracketed (host : List Char) : List Char :=
  let host := if host.head? = some '[' then host.tail else host
  if host.getLast? = some ']' then host.dropLast else host

def fewDigits (cs : List Char) : Bool := 1 ≤ cs.length && cs.length ≤ 3 && cs.all Char.isDigit

def isLoopback (hostname : String) : Bool :=
  let host := unbracketed (hostname.toList.map Char.toLower)
  host = "localhost".toList || host = "::1".toList || host = "0:0:0:0:0:0:0:1".toList ||
    match host.splitOn '.' with
    | [a, b, c, d] => a = "127".toList && fewDigits b && fewDigits c && fewDigits d
    | _ => false

inductive Source (web : Web)
  | allowed (url : web.Url)
  | refused (kind : TransportRefusal) (reason : String)

def checkSource (web : Web) (source : Option String) : Source web :=
  match source.filter (· ≠ "") with
  | none => .refused .noSource "the descriptor declares no source to fetch the artefact from"
  | some source =>
    match web.parse source with
    | none => .refused .noSource s!"\"{source}\" is not a URL this installation can fetch"
    | some url =>
      if web.protocol url = "https:" then .allowed url
      else if web.protocol url = "http:" ∧ isLoopback (web.hostname url) then .allowed url
      else if web.protocol url = "http:" then
        .refused .schemeNotAllowed
          "plain http is accepted only towards a mirror on this machine; anything else must be https"
      else
        .refused .schemeNotAllowed
          s!"\"{web.protocol url}\" is not a transport this installation will fetch a model over"

/-- What is thrown: an error of the transport itself, or any other by its message. -/
inductive Failure
  | transport (kind : TransportRefusal) (reason : String)
  | other (message : String)

def Failure.message : Failure → String
  | .transport _ reason => reason
  | .other message => message

inductive Extra
  | none
  | status (status : ℕ)
  | totalBytes (n : ℚ)
  | receivedBytes (n : ℕ)
  | digests (digest expected : String) (receivedBytes : ℕ)

inductive FetchResult
  | ok (digest : String) (bytes : ℕ) (source : String)
  | refused (kind : TransportRefusal) (reason : String) (extra : Extra)

structure Response where
  status : ℕ
  ok : Bool
  location : Option String
  contentLength : Option String
  body : Bool

/-- What the caller gives, with the digest that is to be compared and with what its sink throws when it is closed or
aborted. -/
structure FetchOptions where
  source : Option String
  expectedSha256 : Option String
  maxBytes : Number
  maxRedirects : ℕ
  stallTimeoutMs : Number
  closeThrows : Option String
  abortThrows : Option String

def positive : Number → Option ℚ
  | .finite x => if 0 < x.val then some x.val else none
  | _ => none

def FetchOptions.cap (o : FetchOptions) : Option ℚ := positive o.maxBytes

inductive Phase (web : Web)
  | fetching (current : web.Url)
  | reading (current : web.Url) (totalBytes : Option ℚ)
  | writing (current : web.Url) (totalBytes : Option ℚ)
  | returned (result : FetchResult)
  | threw (message : String)

/-- A transfer on its way: what it waits for, the sources it has fetched from, and what has come to its hash and its
sink. -/
structure Transfer (web : Web) where
  phase : Phase web
  fetched : List String
  hop : ℕ
  started : Bool
  received : ℕ
  hashed : Bytes
  written : Bytes
  aborted : Bool
  closed : Bool

/-- What the transfer waited for, and whether its signal is aborted by then. -/
inductive TransferEvent
  | answered (response : Response) (aborted : Bool)
  | unreachable (message : String) (aborted : Bool)
  | chunk (value : Bytes) (aborted : Bool)
  | finished
  | unreadable (failure : Failure) (aborted : Bool)
  | stalled (aborted : Bool)
  | accepted (progress : Option Failure) (aborted : Bool)
  | unwritable (failure : Failure) (aborted : Bool)

section

variable (web : Web) (o : FetchOptions)

namespace Transfer

variable {web} (t : Transfer web)

def finish (result : FetchResult) : Transfer web := { t with phase := .returned result }

def refuse (kind : TransportRefusal) (reason : String) (extra : Extra) : Transfer web :=
  t.finish (.refused kind reason extra)

def abort (result : FetchResult) : Transfer web :=
  match o.abortThrows with
  | some message => { t with aborted := true, phase := .threw message }
  | none => { t with aborted := true, phase := .returned result }

def fetchFrom (current : web.Url) (aborted : Bool) : Transfer web :=
  if aborted then t.refuse .cancelled "the acquisition was cancelled before the first byte" .none
  else { t with phase := .fetching current, fetched := t.fetched ++ [web.href current] }

def readFrom (current : web.Url) (totalBytes : Option ℚ) (aborted : Bool) : Transfer web :=
  if aborted then t.abort o (.refused .cancelled "the acquisition was cancelled" .none)
  else { t with phase := .reading current totalBytes }

def redirect (current : web.Url) (response : Response) (aborted : Bool) : Transfer web :=
  if o.maxRedirects ≤ t.hop then
    t.refuse .redirectLimit s!"the source redirected more than {o.maxRedirects} times" .none
  else match response.location.filter (· ≠ "") with
  | none =>
    t.refuse .redirectWithoutLocation s!"the source answered {response.status} without a location to follow" .none
  | some location =>
    match web.join location current with
    | none =>
      if aborted then t.refuse .cancelled "the acquisition was cancelled" .none
      else t.refuse .transportError "the source could not be reached: Invalid URL" .none
    | some next =>
      match checkSource web (some (web.href next)) with
      | .refused kind reason =>
        t.refuse kind s!"a redirect led somewhere this installation will not fetch from: {reason}" .none
      | .allowed next => { t with hop := t.hop + 1 }.fetchFrom next aborted

def declaredLength (response : Response) : Option ℚ :=
  match response.contentLength.map web.number with
  | some (.finite x) => if 0 ≤ x.val then some x.val else none
  | _ => none

def begin (current : web.Url) (response : Response) (aborted : Bool) : Transfer web :=
  if response.ok = false then
    t.refuse .httpStatus s!"the source answered {response.status}" (.status response.status)
  else if response.body = false then t.refuse .noBody "the source answered without a body to read" .none
  else
    let totalBytes := @declaredLength web response
    match o.cap, totalBytes with
    | some cap, some total =>
      if cap < total then
        let reason := "the artefact declares " ++ web.shown total ++ " bytes, over the " ++ web.shown cap ++
          "-byte ceiling of this grant"
        t.refuse .sizeCapExceeded reason (.totalBytes total)
      else { t with started := true }.readFrom o current totalBytes aborted
    | _, _ => { t with started := true }.readFrom o current totalBytes aborted

def caught (failure : Failure) (aborted : Bool) : Transfer web :=
  t.abort o <|
    if aborted then .refused .cancelled "the acquisition was cancelled" .none
    else match failure with
    | .transport kind reason => .refused kind reason (.receivedBytes t.received)
    | .other message => .refused .transportError s!"the download failed: {message}" (.receivedBytes t.received)

def take (current : web.Url) (totalBytes : Option ℚ) (value : Bytes) (aborted : Bool) : Transfer web :=
  if value = [] then t.readFrom o current totalBytes aborted
  else
    let t := { t with received := t.received + value.length }
    match o.cap with
    | some cap =>
      if cap < t.received then
        let reason := "the artefact exceeded the " ++ web.shown cap ++ "-byte ceiling of this grant"
        t.abort o (.refused .sizeCapExceeded reason (.receivedBytes t.received))
      else { t with hashed := t.hashed ++ value, written := t.written ++ value, phase := .writing current totalBytes }
    | none => { t with hashed := t.hashed ++ value, written := t.written ++ value, phase := .writing current totalBytes }

/-- What `fetchArtefact` makes of a result of the stream. -/
def compare (digest : String) (bytes : ℕ) (source : String) : FetchResult :=
  match o.expectedSha256 with
  | none => .ok digest bytes source
  | some expected =>
    if digest ≠ expected.toLower then
      .refused .digestMismatch
        "the artefact does not match the digest the publisher declared, so it will not be made startable"
        (.digests digest expected.toLower bytes)
    else .ok digest bytes source

def close (current : web.Url) : Transfer web :=
  match o.closeThrows with
  | some message => { t with closed := true, phase := .threw message }
  | none =>
    { t with
      closed := true
      phase := .returned (compare o (hex (web.sha256 t.hashed)) t.received (web.href current)) }

def onEvent (e : TransferEvent) : Transfer web :=
  match t.phase, e with
  | .fetching current, .answered response aborted =>
    if 300 ≤ response.status ∧ response.status < 400 then t.redirect o current response aborted
    else t.begin o current response aborted
  | .fetching _, .unreachable message aborted =>
    if aborted then t.refuse .cancelled "the acquisition was cancelled" .none
    else t.refuse .transportError s!"the source could not be reached: {message}" .none
  | .reading current totalBytes, .chunk value aborted => t.take o current totalBytes value aborted
  | .reading current _, .finished => t.close o current
  | .reading _ _, .unreadable failure aborted => t.caught o failure aborted
  | .reading _ _, .stalled aborted =>
    match positive o.stallTimeoutMs with
    | some ms => t.caught o (.transport .stalled ("no byte arrived for " ++ web.shown ms ++ " ms")) aborted
    | none => t
  | .writing current totalBytes, .accepted progress aborted =>
    match progress with
    | none => t.readFrom o current totalBytes aborted
    | some failure => t.caught o failure aborted
  | .writing _ _, .unwritable failure aborted => t.caught o failure aborted
  | _, _ => t

end Transfer

def idle (phase : Phase web) : Transfer web := ⟨phase, [], 0, false, 0, [], [], false, false⟩

def streamToSink (aborted : Bool) : Transfer web :=
  match checkSource web o.source with
  | .refused kind reason => idle web (.returned (.refused kind reason .none))
  | .allowed url => (idle web (.fetching url)).fetchFrom url aborted

def FetchOptions.artefact (expectedSha256 : String) : FetchOptions := { o with expectedSha256 := some expectedSha256 }

def fetchArtefact (expectedSha256 : String) (aborted : Bool) : Transfer web :=
  if hex64 expectedSha256 = false then idle web (.threw "a 64-character sha256 the publisher declared is required")
  else streamToSink web (o.artefact expectedSha256) aborted

def FetchOptions.document (maxBytes : Option Number) : FetchOptions :=
  { o with
    expectedSha256 := none
    maxBytes := maxBytes.getD (.ofRat (512 * 1024))
    closeThrows := none
    abortThrows := none }

def fetchDocument (maxBytes : Option Number) (aborted : Bool) : Transfer web :=
  streamToSink web (o.document maxBytes) aborted

def documentText (t : Transfer web) : String := String.ofList (Utf8.decode t.written)

end

end Noesar.Acquisition
