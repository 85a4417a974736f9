import Mathlib
import Noesar.Lib.Json
import Noesar.Lib.Number

namespace Noesar.Lib

abbrev JsonValue := Json String Number

/-- How the platform writes a number, and what number a text is. -/
structure Numerals where
  text : Number → String
  value : String → Number

namespace JsonValue

variable (ns : Numerals)

/-- What a value adds to the text of the array it stands in. An object is shown by its class, and
not at all where a member hides the method that shows it. -/
def shown : JsonValue → Except String String :=
  Json.fold {
    null := .ok ""
    bool b := .ok (if b then "true" else "false")
    number n := .ok (ns.text n)
    string s := .ok s
    array items := (items.mapM id).map (",".intercalate ·)
    object members :=
      if members.any (·.1 = "toString") then .error "Cannot convert object to primitive value"
      else .ok "[object Object]" }

/-- `String(value)` -/
def asString : JsonValue → Except String String
  | .null => .ok "null"
  | v => shown ns v

/-- `Number(value)` -/
def asNumber : JsonValue → Except String Number
  | .null => .ok .zero
  | .bool b => .ok (if b then .ofRat 1 else .zero)
  | .number n => .ok n
  | v => (shown ns v).map ns.value

/-- `Boolean(value)` -/
def truthy : JsonValue → Bool
  | .null => false
  | .bool b => b
  | .number n => n ≠ .zero && n ≠ .nan
  | .string s => s ≠ ""
  | .array _ => true
  | .object _ => true

/-- `value.name` on anything but `null`, for a name that no prototype has. -/
def member (name : String) : JsonValue → Option JsonValue
  | .object members => members.lookup name
  | _ => none

/-- `value ?? other` leaves `other` where this is `none`. -/
def given : Option JsonValue → Option JsonValue
  | some .null => none
  | v => v

end JsonValue

namespace Number

def trunc (q : ℚ) : ℤ := if 0 ≤ q then ⌊q⌋ else ⌈q⌉

end Number

end Noesar.Lib
