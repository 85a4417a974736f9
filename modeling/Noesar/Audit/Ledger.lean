import Noesar.Lib.JsonOrder
import Noesar.Lib.JsonDistinct
import Noesar.Lib.JsonTorn
import Noesar.Lib.Utf8

namespace Noesar.Audit

open Lib Lib.Framing Lib.Json Lib.Utf16
open InsertionMap (lookup)

variable {ν : Type}

/-- What the ledger takes from its platform: the hash, and how a number is written and read. -/
structure Host (ν : Type) where
  sha256 : Bytes → Vector UInt8 32
  write : ν → List Char
  read : List Char → Option ν

abbrev Value (ν : Type) := Json Units ν

abbrev Members (ν : Type) := List (Units × Value ν)

def name (s : String) : Units := Utf16.encode s.toList

def arrayIndex (us : Units) : Option ℕ :=
  if us.all (fun u ↦ 0x30 ≤ u.toNat && u.toNat ≤ 0x39) && us ≠ [] && (us = [0x30] || us.head? ≠ some 0x30) then
    some (us.foldl (fun n u ↦ n * 10 + (u.toNat - 0x30)) 0) |>.filter (· < 2 ^ 32 - 1)
  else none

/-- The place of a key among those of its object: array indices come first, in their order, and all others after them,
as they were added. -/
def place (us : Units) : List ℕ := [(arrayIndex us).getD (2 ^ 32)]

def assign (target source : Members ν) : Members ν :=
  sortKeys place (source.foldl (fun members m ↦ InsertionMap.put m.1 m.2 members) target)

def without (key : Units) (members : Members ν) : Members ν := members.filter fun m ↦ m.1 ≠ key

namespace Host

variable (host : Host ν)

def writer : Json.Writer Units ν := ⟨id, host.write⟩

def reader : Reader Units ν := ⟨some, host.read, none⟩

def stringify (v : Value ν) : List Char := print host.writer v

def parse (cs : List Char) : Option (Value ν) := (Json.parse host.reader cs).map (norm place id)

def digest (members : Members ν) : Units :=
  name (hex (host.sha256 (Utf8.encode (host.stringify (.object members)))).toList)

end Host

def genesis : Units := name "GENESIS"

/-- A ledger that is open: the file, where there is one, and the hash of its last record. -/
structure AuditLedger (ν : Type) where
  file : Option Bytes
  lastHash : Value ν

/-- `records.at(-1)?.hash ?? 'GENESIS'` -/
def lastHash (records : List (Value ν)) : Value ν :=
  match records.getLast? with
  | some (.object members) =>
    match lookup (name "hash") members with
    | none | some .null => .string genesis
    | some hash => hash
  | _ => .string genesis

namespace Host

variable (host : Host ν)

def readAll : Option Bytes → Option (List (Value ν))
  | none => some []
  | some file => (((Utf8.decode file).splitOnP (· == '\n')).filter fun cs ↦ cs ≠ []).mapM host.parse

def construct (file : Option Bytes) : Option (AuditLedger ν) :=
  (host.readAll file).map fun records ↦ ⟨file, lastHash records⟩

def unsigned (ledger : AuditLedger ν) (id timestamp : Units) (event : Members ν) : Members ν :=
  assign [(name "id", .string id), (name "timestamp", .string timestamp), (name "previousHash", ledger.lastHash)] event

def append (ledger : AuditLedger ν) (id timestamp : Units) (event : Members ν) : AuditLedger ν :=
  let unsigned := unsigned ledger id timestamp event
  let hash := host.digest unsigned
  let record := assign unsigned [(name "hash", .string hash)]
  { file := some (ledger.file.getD [] ++ Utf8.encode (host.stringify (.object record) ++ ['\n']))
    lastHash := .string hash }

def holds (key : Units) (text : Units) (members : Members ν) : Bool :=
  match lookup key members with
  | some (.string s) => s = text
  | _ => false

/-- The loop over the records. To take a member out of `null` throws; the members of what is no object are not those of
a record. -/
def verifyFrom (previous : Units) : List (Value ν) → Option Bool
  | [] => some true
  | .null :: _ => none
  | .object members :: records =>
    let unsigned := without (name "hash") members
    if !holds (name "previousHash") previous unsigned then some false
    else if !holds (name "hash") (host.digest unsigned) members then some false
    else verifyFrom (host.digest unsigned) records
  | _ :: _ => some false

/-- `verify`, where the file can be read. -/
def verify (file : Option Bytes) : Option Bool := (host.readAll file).bind (host.verifyFrom genesis)

end Host

inductive Command (ν : Type)
  | append (id timestamp : Units) (event : Members ν)
  | restart

def Host.perform (host : Host ν) (ledger : AuditLedger ν) : Command ν → Option (AuditLedger ν)
  | .append id timestamp event => some (host.append ledger id timestamp event)
  | .restart => host.construct ledger.file

def Host.run (host : Host ν) (commands : List (Command ν)) : Option (AuditLedger ν) :=
  commands.foldlM host.perform ⟨none, .string genesis⟩

/-- The members of an object that JSON can hold, in the order of the language. -/
structure Plain (members : Members ν) : Prop where
  distinct : (Json.object members).Distinct
  placed : members.Pairwise fun a b ↦ place a.1 ≤ place b.1
  values : ∀ m ∈ members, norm place id m.2 = m.2

structure JsonEvent (event : Members ν) : Prop where
  plain : Plain event
  hash : name "hash" ∉ event.map Prod.fst
  previousHash : name "previousHash" ∉ event.map Prod.fst

def Command.JsonEvent : Command ν → Prop
  | .append _ _ event => Audit.JsonEvent event
  | .restart => True

end Noesar.Audit
