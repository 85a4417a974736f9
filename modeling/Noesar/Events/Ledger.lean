import Noesar.Capability.Rust
import Noesar.Lib.Causes
import Noesar.Lib.Run

namespace Noesar.Events

open Lib Lib.Framing Lib.Causes Capability

structure EventDraft where
  id : String
  correlationId : String
  causationId : Option String
  actor : String
  action : String
  payload : String
  recordedAtUnix : ℤ
  deriving DecidableEq

structure Event extends EventDraft where
  previousDigest : String
  digest : String
  deriving DecidableEq

def genesis : String := "GENESIS"

inductive EventError
  | danglingCausation (id causationId : String)
  | crossCorrelation (id causationId : String)
  | duplicateId (id : String)
  | secondRoot (correlationId : String)
  | causeInTheFuture (id causationId : String)
  | chainBroken (position : ℕ) (reason : String)
  | invalid (field reason : String)
  | journalCorrupt (line lines : ℕ) (message : String)
  deriving DecidableEq, Repr

def EventError.reason : EventError → String
  | danglingCausation id causationId => s!"event `{id}` is caused by `{causationId}`, which does not exist"
  | crossCorrelation id causationId => s!"event `{id}` is caused by `{causationId}` from another correlation"
  | duplicateId id => s!"event `{id}` already exists"
  | secondRoot correlationId => s!"correlation `{correlationId}` already has a root event"
  | causeInTheFuture id causationId => s!"event `{id}` is recorded before its cause `{causationId}`"
  | chainBroken position reason => s!"the digest chain is broken at position {position}: {reason}"
  | invalid _ reason => reason
  | journalCorrupt line lines message =>
    s!"the event journal is unreadable at line {line} of {lines}, which is not the tail: {message}"

/-- What the ledger of the control plane and the ledger of the Rust crate do not share:
the texts without content, whether an empty text is the name of a cause, and the text of
a time; and the hash of the platform. -/
structure Dialect where
  sha256 : Bytes → Vector UInt8 32
  isBlank : String → Bool
  namesCause : String → Bool
  timeText : ℤ → String

def js (host : Host) : Dialect where
  sha256 := host.sha256
  isBlank text := text.toList.all isWhiteSpace
  namesCause text := text ≠ ""
  timeText time := host.numberToString (.ofRat time)

def rust (host : Host) : Dialect where
  sha256 := host.sha256
  isBlank text := text.toList.all Rust.isWhitespace
  namesCause _ := true
  timeText time := toString time

namespace Dialect

variable (d : Dialect)

def cause (draft : EventDraft) : Option String := draft.causationId.filter d.namesCause

def digestOf (draft : EventDraft) (previousDigest : String) : String :=
  hex (d.sha256 (feedAll [previousDigest, draft.id, draft.correlationId, draft.causationId.getD "", draft.actor,
    draft.action, draft.payload, d.timeText draft.recordedAtUnix])).toList

end Dialect

/-- The events in the order of their recording, and the position of each id. -/
structure EventLedger where
  events : List Event
  index : InsertionMap String ℕ
  indexed : ∀ id position, index.get id = some position ↔ (events[position]?).map (fun e : Event ↦ e.id) = some id

namespace EventLedger

def empty : EventLedger := ⟨[], .empty, by simp⟩

def get (ledger : EventLedger) (id : String) : Option Event := (ledger.index.get id).bind (ledger.events[·]?)

theorem indexed_push (ledger : EventLedger) (event : Event) (hfresh : ledger.index.has event.id = false) :
    ∀ id position, (ledger.index.set event.id ledger.events.length).get id = some position ↔
      ((ledger.events ++ [event])[position]?).map (fun e : Event ↦ e.id) = some id := by
  intro id position
  have hnone : ∀ p : ℕ, (ledger.events[p]?).map (fun e : Event ↦ e.id) ≠ some event.id := by
    intro p hp
    have hget := (ledger.indexed event.id p).mpr hp
    rw [InsertionMap.has, hget] at hfresh
    cases hfresh
  have hlast : ∀ p, p ≠ ledger.events.length → (ledger.events ++ [event])[p]? = ledger.events[p]? := by
    intro p hp
    rw [List.getElem?_append]
    split
    · rfl
    · rw [List.getElem?_eq_none (by simp; omega), List.getElem?_eq_none (by omega)]
  rw [InsertionMap.get_set]
  split
  next hid =>
    subst hid
    constructor
    · intro h
      cases h
      simp
    · intro h
      by_cases hp : position = ledger.events.length
      · rw [hp]
      · rw [hlast position hp] at h
        exact absurd h (hnone position)
  next hid =>
    rw [ledger.indexed]
    by_cases hp : position = ledger.events.length
    · subst hp
      simp [hid]
    · rw [hlast position hp]

def push (ledger : EventLedger) (event : Event) (hfresh : ledger.index.has event.id = false) : EventLedger where
  events := ledger.events ++ [event]
  index := ledger.index.set event.id ledger.events.length
  indexed := indexed_push ledger event hfresh

variable (d : Dialect)

def objection (ledger : EventLedger) (draft : EventDraft) : Option EventError :=
  match d.cause draft with
  | some causationId => match ledger.get causationId with
    | none => some (.danglingCausation draft.id causationId)
    | some cause =>
      if cause.correlationId ≠ draft.correlationId then some (.crossCorrelation draft.id causationId)
      else if draft.recordedAtUnix < cause.recordedAtUnix then some (.causeInTheFuture draft.id causationId)
      else none
  | none =>
    if ledger.events.any fun event ↦ event.correlationId = draft.correlationId && (d.cause event.toEventDraft).isNone then
      some (.secondRoot draft.correlationId)
    else none

def previousDigest (events : List Event) : String := (events.getLast?.map Event.digest).getD genesis

def append (ledger : EventLedger) (draft : EventDraft) : Except EventError Event × EventLedger :=
  if d.isBlank draft.id || d.isBlank draft.correlationId then
    (.error (.invalid "EventDraft" "an event needs an id and the run it belongs to"), ledger)
  else if d.isBlank draft.action then
    (.error (.invalid "EventDraft.action" "an event that does not say what happened records nothing"), ledger)
  else if h : ledger.index.has draft.id = true then (.error (.duplicateId draft.id), ledger)
  else match ledger.objection d draft with
    | some refusal => (.error refusal, ledger)
    | none =>
      let event : Event := ⟨draft, previousDigest ledger.events, d.digestOf draft (previousDigest ledger.events)⟩
      (.ok event, ledger.push event (Bool.eq_false_of_not_eq_true h))

def checkFrom (previous : String) (position : ℕ) : List Event → Option (ℕ × String)
  | [] => none
  | event :: events =>
    if event.previousDigest ≠ previous then
      some (position, "the recorded previous digest is not the digest of the event before")
    else if d.digestOf event.toEventDraft previous ≠ event.digest then
      some (position, "the event does not hash to the digest it carries")
    else checkFrom event.digest (position + 1) events

/-- Where `verify` reports the chain broken, if anywhere. -/
def verify (ledger : EventLedger) : Option (ℕ × String) := checkFrom d genesis 0 ledger.events

def restoreAll (ledger : EventLedger) : List Event → Except EventError EventLedger
  | [] => .ok ledger
  | record :: records =>
    if h : ledger.index.has record.id = true then .error (.duplicateId record.id)
    else restoreAll (ledger.push record (Bool.eq_false_of_not_eq_true h)) records

def restore (records : List Event) : Except EventError EventLedger :=
  match restoreAll .empty records with
  | .error e => .error e
  | .ok ledger => match ledger.verify d with
    | some (position, reason) => .error (.chainBroken position reason)
    | none => .ok ledger

/-- The records of the lines of a journal, and the number of a last line that was written
only in part. A line that does not parse comes with the message of the parser. -/
def readLines (lines : ℕ) : ℕ → List (Except String Event) → Except EventError (List Event × Option ℕ)
  | _, [] => .ok ([], none)
  | position, [.error _] => .ok ([], some (position + 1))
  | position, .error message :: _ => .error (.journalCorrupt (position + 1) lines message)
  | position, .ok record :: rest => (readLines lines (position + 1) rest).map fun (records, torn) ↦ (record :: records, torn)

/-- A ledger read from a journal, with the line that was dropped and the journal as it is left. -/
structure Loaded where
  ledger : EventLedger
  recovered : Option ℕ
  journal : List (Except String Event)

def loadFrom (lines : List (Except String Event)) : Except EventError Loaded :=
  match readLines lines.length 0 lines with
  | .error e => .error e
  | .ok (records, torn) => match restore d records with
    | .error e => .error e
    | .ok ledger => .ok ⟨ledger, torn, if torn.isSome then records.map .ok else lines⟩

/-- A walk of so many steps at most, backwards over the causes; what it passes, the oldest first. -/
def causalChain (ledger : EventLedger) (fuel : ℕ) (id : String) : Option (List Event) :=
  (walk ledger.get (fun event ↦ d.cause event.toEventDraft) fuel (ledger.get id)).map List.reverse

def recorded (drafts : List EventDraft) : EventLedger :=
  Run.after (fun ledger draft ↦ (append d ledger draft).2) .empty drafts

end EventLedger

end Noesar.Events
