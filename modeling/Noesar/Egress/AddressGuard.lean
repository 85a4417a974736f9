import Noesar.Acquisition.Transport
import Noesar.Lib.IpAddress
import Noesar.Updates.Version

namespace Noesar.Egress

open Lib

/-- `toLowerCase`. Beyond the letters of ASCII only the Kelvin sign becomes a character of an address. -/
def lower (c : Char) : Char := if c = '\u212a' then 'k' else c.toLower

/-- `String(address).trim().toLowerCase()` -/
def normalise (address : List Char) : List Char := (Updates.trim address).map lower

theorem normalise_length (address : List Char) : (normalise address).length ≤ address.length := by
  rw [normalise, List.length_map, Updates.trim, List.length_reverse]
  calc (List.dropWhile Capability.isWhiteSpace (List.dropWhile Capability.isWhiteSpace address).reverse).length
    _ ≤ (List.dropWhile Capability.isWhiteSpace address).reverse.length := (List.dropWhile_sublist _).length_le
    _ = (List.dropWhile Capability.isWhiteSpace address).length := List.length_reverse
    _ ≤ address.length := (List.dropWhile_sublist _).length_le

def isIP (value : List Char) : ℕ :=
  match IpAddress.parse value with
  | some (.v4 _ _ _ _) => 4
  | some (.v6 _) => 6
  | none => 0

def metadataAddresses : List (List Char) :=
  ["169.254.169.254".toList, "100.100.100.200".toList, "fd00:ec2::254".toList]

/-- `Number` of a row of digits; `none` is `NaN`. -/
def number (part : List Char) : Option ℕ :=
  if part.all Char.isDigit then some (IpAddress.numeral 10 (part.map fun c ↦ c.toNat - 48)) else none

/-- What `/^::ffff:(\d+\.\d+\.\d+\.\d+)$/` captures. -/
def mapped : List Char → Option (List Char)
  | ':' :: ':' :: 'f' :: 'f' :: 'f' :: 'f' :: ':' :: rest =>
    let parts := rest.splitOn '.'
    if parts.length = 4 ∧ ∀ part ∈ parts, part ≠ [] ∧ part.all Char.isDigit = true then some rest else none
  | _ => none

theorem mapped_eq_some {value inner : List Char} (h : mapped value = some inner) :
    value = ':' :: ':' :: 'f' :: 'f' :: 'f' :: 'f' :: ':' :: inner ∧ (inner.splitOn '.').length = 4 ∧
      ∀ part ∈ inner.splitOn '.', part ≠ [] ∧ part.all Char.isDigit = true := by
  unfold mapped at h
  split at h
  next rest =>
    dsimp only at h
    split at h
    next hparts =>
      cases h
      exact ⟨rfl, hparts⟩
    next => cases h
  next => cases h

def internalParts (a b : ℕ) : Bool :=
  a = 0 || a = 10 || a = 127 || (a = 100 && 64 ≤ b && b ≤ 127) || (a = 169 && b = 254) || (a = 172 && 16 ≤ b && b ≤ 31) ||
    (a = 192 && b = 0) || (a = 192 && b = 168) || (a = 198 && (b = 18 || b = 19)) || 224 ≤ a

/-- `/^f[cd]/` -/
def uniqueLocal : List Char → Bool
  | 'f' :: c :: _ => c ∈ ['c', 'd']
  | _ => false

/-- `/^fe[89ab]/` -/
def linkLocal : List Char → Bool
  | 'f' :: 'e' :: c :: _ => c ∈ ['8', '9', 'a', 'b']
  | _ => false

/-- `/^ff/` -/
def multicast : List Char → Bool
  | 'f' :: 'f' :: _ => true
  | _ => false

def isInternalAddress (address : List Char) : Bool :=
  let value := normalise address
  let family := isIP value
  if family = 0 then true
  else if value ∈ metadataAddresses then true
  else if family = 4 then
    match (value.splitOn '.').mapM number with
    | some [a, b, _, _] => internalParts a b
    | _ => true
  else
    match h : mapped value with
    | some inner => isInternalAddress inner
    | none => value = "::".toList || value = "::1".toList || uniqueLocal value || linkLocal value || multicast value
termination_by address.length
decreasing_by
  have hvalue := congrArg List.length (mapped_eq_some h).1
  have hlength : value.length ≤ address.length := normalise_length address
  simp only [List.length_cons] at hvalue
  omega

structure Answer where
  address : List Char
  family : ℕ

inductive Refusal
  | blocked (hostname address : List Char)
  | unresolved (hostname message : List Char)

def resolvePublicAddresses (lookup : List Char → Except (List Char) (List Answer)) (hostname : List Char) :
    Except Refusal (List Answer) :=
  let host := Acquisition.unbracketed (normalise hostname)
  if host = [] then .error (.blocked "(empty)".toList "(nothing)".toList)
  else if isIP host ≠ 0 then
    if isInternalAddress host then .error (.blocked host host) else .ok [⟨host, isIP host⟩]
  else
    match lookup host with
    | .error message => .error (.unresolved host message)
    | .ok [] => .error (.blocked host "(no addresses)".toList)
    | .ok addresses =>
      match addresses.find? fun answer ↦ isInternalAddress answer.address with
      | some answer => .error (.blocked host answer.address)
      | none => .ok addresses

/-- The answers of the lookup that is handed to the socket: all of them where it asks for all. -/
def pinnedLookup (addresses : List Answer) (all : Bool) : List Answer := if all then addresses else addresses.take 1

/-- The host name of a URL: in brackets or without, and in lower case. -/
structure Hostname where
  text : List Char
  normal : normalise text = text
  brackets : (∃ inner, text = '[' :: (inner ++ [']'])) ∨ text.head? ≠ some '[' ∧ text.getLast? ≠ some ']'

def Hostname.host (hostname : Hostname) : List Char :=
  if hostname.text.head? = some '[' then hostname.text.tail.dropLast else hostname.text

def guardedFetch (lookup : List Char → Except (List Char) (List Answer)) (all : Bool) (hostname : Hostname) :
    Except Refusal (List (List Char)) := do
  let addresses ← resolvePublicAddresses lookup hostname.text
  if isIP hostname.host ≠ 0 then pure [hostname.host] else pure ((pinnedLookup addresses all).map Answer.address)

end Noesar.Egress
