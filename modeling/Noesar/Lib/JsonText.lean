import Noesar.Lib.Json
import Noesar.Lib.Framing

namespace Noesar.Lib.Json

open Utf16 Framing

variable {σ ν τ μ : Type}

def isSpace (c : Char) : Bool := c = ' ' || c = '\t' || c = '\n' || c = '\r'

def isNumeral (c : Char) : Bool := c.isDigit || c = '-' || c = '+' || c = '.' || c = 'e' || c = 'E'

def Numeric (cs : List Char) : Prop := ∃ c ds, cs = c :: ds ∧ (c = '-' ∨ c.isDigit = true) ∧ ∀ d ∈ ds, isNumeral d = true

def hex4 (n : ℕ) : List Char :=
  [hexDigit (n / 4096 % 16), hexDigit (n / 256 % 16), hexDigit (n / 16 % 16), hexDigit (n % 16)]

def escape (c : Char) : List Char :=
  if c = '"' then ['\\', '"']
  else if c = '\\' then ['\\', '\\']
  else if c = '\x08' then ['\\', 'b']
  else if c = '\t' then ['\\', 't']
  else if c = '\n' then ['\\', 'n']
  else if c = '\x0c' then ['\\', 'f']
  else if c = '\r' then ['\\', 'r']
  else if c.toNat < 0x20 then '\\' :: 'u' :: hex4 c.toNat
  else [c]

def escapePoint : Point → List Char
  | .inl c => escape c
  | .inr u => '\\' :: 'u' :: hex4 u.toNat

/-- A string in quotes. What cannot stand as it is, halves of characters among it, is escaped. -/
def quote (us : Units) : List Char := '"' :: (points us).flatMap escapePoint ++ ['"']

/-- How the strings and the numbers of a value are written. -/
structure Writer (σ ν : Type) where
  string : σ → Units
  number : ν → List Char

def joined : List (List Char) → List Char
  | [] => []
  | [t] => t
  | t :: u :: ts => t ++ ',' :: joined (u :: ts)

def print (w : Writer σ ν) : Json σ ν → List Char :=
  fold ⟨"null".toList, fun b ↦ (if b then "true" else "false").toList, w.number, fun s ↦ quote (w.string s),
    fun items ↦ '[' :: joined items ++ [']'],
    fun members ↦ '{' :: joined (members.map fun m ↦ quote (w.string m.1) ++ ':' :: m.2) ++ ['}']⟩

/-- What the strings and the numbers of a text are read as, and how deep it may be nested. -/
structure Reader (σ ν : Type) where
  string : Units → Option σ
  number : List Char → Option ν
  limit : Option ℕ

/-- An array or an object around the value that is being read. -/
inductive Frame (σ ν : Type)
  | items (items : List (Json σ ν))
  | member (members : List (σ × Json σ ν)) (key : σ)

/-- What is being read: a string is the key after some members, or a value. -/
inductive Mode (σ ν : Type)
  | value
  | key (members : List (σ × Json σ ν))
  | colon (members : List (σ × Json σ ν)) (key : σ)
  | text (place : Option (List (σ × Json σ ν))) (us : Units)
  | escaped (place : Option (List (σ × Json σ ν))) (us : Units)
  | hex (place : Option (List (σ × Json σ ν))) (us : Units) (digits : List ℕ)
  | word (left : List Char) (v : Json σ ν)
  | numeral (cs : List Char)
  | after (v : Json σ ν)

abbrev State (σ ν : Type) := Mode σ ν × List (Frame σ ν)

def unhex (c : Char) : Option ℕ :=
  if c.isDigit then some (c.toNat - '0'.toNat)
  else if 'a' ≤ c ∧ c ≤ 'f' then some (c.toNat - 'a'.toNat + 10)
  else if 'A' ≤ c ∧ c ≤ 'F' then some (c.toNat - 'A'.toNat + 10)
  else none

def unescape (c : Char) : Option UInt16 :=
  if c = '"' then some 0x22
  else if c = '\\' then some 0x5C
  else if c = '/' then some 0x2F
  else if c = 'b' then some 0x08
  else if c = 'f' then some 0x0C
  else if c = 'n' then some 0x0A
  else if c = 'r' then some 0x0D
  else if c = 't' then some 0x09
  else none

section

variable [DecidableEq σ] (r : Reader σ ν)

def put (members : List (σ × Json σ ν)) (key : σ) (v : Json σ ν) : List (σ × Json σ ν) :=
  if key ∈ members.map Prod.fst then members.map fun m ↦ if m.1 = key then (key, v) else m
  else members ++ [(key, v)]

def Reader.allows (stack : List (Frame σ ν)) : Bool :=
  match r.limit with
  | none => true
  | some limit => stack.length < limit

def begin (stack : List (Frame σ ν)) (c : Char) : Option (State σ ν) :=
  if c = '"' then some (.text none [], stack)
  else if c = '[' then if r.allows stack then some (.value, .items [] :: stack) else none
  else if c = '{' then if r.allows stack then some (.key [], stack) else none
  else if c = 't' then some (.word ['r', 'u', 'e'] (.bool true), stack)
  else if c = 'f' then some (.word ['a', 'l', 's', 'e'] (.bool false), stack)
  else if c = 'n' then some (.word ['u', 'l', 'l'] .null, stack)
  else if c = '-' || c.isDigit then some (.numeral [c], stack)
  else none

def closed : List (Frame σ ν) → Option (State σ ν)
  | .items [] :: stack => some (.after (.array []), stack)
  | _ => none

def quoted (place : Option (List (σ × Json σ ν))) (s : σ) : Mode σ ν :=
  match place with
  | none => .after (.string s)
  | some members => .colon members s

def proceed (v : Json σ ν) (stack : List (Frame σ ν)) (c : Char) : Option (State σ ν) :=
  if isSpace c then some (.after v, stack)
  else match stack with
    | [] => none
    | .items items :: stack =>
      if c = ',' then some (.value, .items (items ++ [v]) :: stack)
      else if c = ']' then some (.after (.array (items ++ [v])), stack)
      else none
    | .member members key :: stack =>
      if c = ',' then some (.key (put members key v), stack)
      else if c = '}' then some (.after (.object (put members key v)), stack)
      else none

def step : State σ ν → Char → Option (State σ ν)
  | (.value, stack), c =>
    if isSpace c then some (.value, stack)
    else if c = ']' then closed stack
    else begin r stack c
  | (.key members, stack), c =>
    if isSpace c then some (.key members, stack)
    else if c = '"' then some (.text (some members) [], stack)
    else if c = '}' ∧ members.isEmpty then some (.after (.object []), stack)
    else none
  | (.colon members key, stack), c =>
    if isSpace c then some (.colon members key, stack)
    else if c = ':' then some (.value, .member members key :: stack)
    else none
  | (.text place us, stack), c =>
    if c = '"' then (r.string us).map fun s ↦ (quoted place s, stack)
    else if c = '\\' then some (.escaped place us, stack)
    else if c.toNat < 0x20 then none
    else some (.text place (us ++ units c), stack)
  | (.escaped place us, stack), c =>
    if c = 'u' then some (.hex place us [], stack)
    else (unescape c).map fun u ↦ (.text place (us ++ [u]), stack)
  | (.hex place us digits, stack), c => (unhex c).map fun d ↦
    match digits with
    | [x, y, z] => (.text place (us ++ [UInt16.ofNat (x * 4096 + y * 256 + z * 16 + d)]), stack)
    | digits => (.hex place us (digits ++ [d]), stack)
  | (.word left v, stack), c =>
    match left with
    | [] => none
    | [x] => if c = x then some (.after v, stack) else none
    | x :: left => if c = x then some (.word left v, stack) else none
  | (.numeral cs, stack), c =>
    if isNumeral c then some (.numeral (cs ++ [c]), stack)
    else (r.number cs).bind fun n ↦ proceed (.number n) stack c
  | (.after v, stack), c => proceed v stack c

def run (s : State σ ν) (cs : List Char) : Option (State σ ν) := cs.foldlM (step r) s

def finish : State σ ν → Option (Json σ ν)
  | (.after v, []) => some v
  | (.numeral cs, []) => (r.number cs).map .number
  | _ => none

def parse (cs : List Char) : Option (Json σ ν) := (run r (.value, []) cs).bind (finish r)

end

end Noesar.Lib.Json
