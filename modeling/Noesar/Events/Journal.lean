import Noesar.Events.Restored
import Noesar.Lib.JsonTorn
import Noesar.Lib.Utf8

namespace Noesar.Events

open Lib Lib.Framing Lib.Causes Lib.Json Capability

/-- The platform's own JSON, as far as the journal uses it: the text of a time and what it is
read as, and the message for a text that is no JSON. -/
structure JsonHost where
  stringify : ℤ → List Char
  parse : List Char → Option ℤ
  syntaxError : List Char → String
  numeral : ∀ t, Numeric (stringify t)
  inverted : ∀ t, parse (stringify t) = some t

def Event.members (e : Event) : List (String × Json String ℤ) :=
  [("id", .string e.id), ("correlationId", .string e.correlationId),
    ("causationId", match e.causationId with | none => .null | some causationId => .string causationId),
    ("actor", .string e.actor), ("action", .string e.action), ("payload", .string e.payload),
    ("recordedAtUnix", .number e.recordedAtUnix), ("previousDigest", .string e.previousDigest),
    ("digest", .string e.digest)]

def textOf : Json String ℤ → Option String
  | .string s => some s
  | _ => none

def nullableOf : Json String ℤ → Option (Option String)
  | .null => some none
  | .string s => some (some s)
  | _ => none

def timeOf : Json String ℤ → Option ℤ
  | .number t => some t
  | _ => none

def Event.ofRecord (v : Json String ℤ) : Option Event := do
  let .object members := v | none
  let member (name : String) := (members.find? fun m ↦ m.1 = name).map Prod.snd
  let id ← (member "id").bind textOf
  let correlationId ← (member "correlationId").bind textOf
  let causationId ← (member "causationId").bind nullableOf
  let actor ← (member "actor").bind textOf
  let action ← (member "action").bind textOf
  let payload ← (member "payload").bind textOf
  let recordedAtUnix ← (member "recordedAtUnix").bind timeOf
  let previousDigest ← (member "previousDigest").bind textOf
  let digest ← (member "digest").bind textOf
  return ⟨⟨id, correlationId, causationId, actor, action, payload, recordedAtUnix⟩, previousDigest, digest⟩

theorem Event.ofRecord_members (e : Event) : ofRecord (.object e.members) = some e := by
  obtain ⟨⟨id, correlationId, causationId, actor, action, payload, recordedAtUnix⟩, previousDigest, digest⟩ := e
  cases causationId <;> rfl

namespace JsonHost

variable (json : JsonHost)

def writer : Json.Writer String ℤ := ⟨fun s ↦ Utf16.encode s.toList, json.stringify⟩

def reader : Reader String ℤ := ⟨fun us ↦ (Utf16.decode us).map String.ofList, json.parse, none⟩

/-- `JSON.stringify(event)` -/
def text (e : Event) : List Char := print json.writer (.object e.members)

def line (e : Event) : Bytes := Utf8.encode (json.text e ++ ['\n'])

def readLine (cs : List Char) : Except String Event :=
  match Json.parse json.reader cs with
  | none => .error (json.syntaxError cs)
  | some v => match Event.ofRecord v with
    | none => .error (json.syntaxError cs)
    | some e => .ok e

def lines (journal : Bytes) : List (Except String Event) :=
  (((Utf8.decode journal).splitOnP (· == '\n')).filter fun cs ↦ !cs.all isWhiteSpace).map json.readLine

/-- A ledger read from a journal, with the line that was dropped and the journal as it is left. -/
structure Opened where
  ledger : EventLedger
  recovered : Option ℕ
  journal : Option Bytes

def loadFrom (d : Dialect) : Option Bytes → Except EventError Opened
  | none => .ok ⟨.empty, none, none⟩
  | some journal => (EventLedger.loadFrom d (json.lines journal)).map fun loaded ↦
    ⟨loaded.ledger, loaded.recovered,
      some (if loaded.recovered.isSome then loaded.ledger.events.flatMap json.line else journal)⟩

theorem understands : Understands json.writer json.reader id id fun _ ↦ True where
  string s := by
    change (Utf16.decode (Utf16.encode s.toList)).map String.ofList = some s
    rw [Utf16.decode_encode, Option.map_some, String.ofList_toList]
  number t _ := json.inverted t
  numeral t _ := json.numeral t

theorem members_distinct (e : Event) : ((object e.members).map id id).Distinct := by
  have hnames : (e.members.map Prod.fst).Nodup := by
    change ["id", "correlationId", "causationId", "actor", "action", "payload", "recordedAtUnix", "previousDigest",
      "digest"].Nodup
    decide
  rw [map_id, distinct_object]
  refine ⟨hnames, ?_⟩
  cases h : e.causationId <;> simp [Event.members, h]

theorem members_numbers (e : Event) {P : ℤ → Prop} (h : ∀ t, P t) : (object e.members).EachNumber P :=
  eachNumber_of_forall h _

theorem printable_text {e : Event} {c : Char} (h : c ∈ json.text e) : 0x20 ≤ c.toNat :=
  printable_print (members_numbers e json.numeral) h

theorem readLine_text (e : Event) : json.readLine (json.text e) = .ok e := by
  have hparse : Json.parse json.reader (json.text e) = some (.object e.members) := by
    rw [text, parse_print json.understands _ (members_distinct e) (members_numbers e fun _ ↦ trivial)
      (fun _ h ↦ by cases h), map_id]
  rw [readLine, hparse]
  dsimp only
  rw [Event.ofRecord_members]

theorem text_head (e : Event) : ∃ cs, json.text e = '{' :: cs := ⟨_, print_object _ _⟩

theorem brace_mem_front {e : Event} {front back : List Char} (hsplit : json.text e = front ++ back)
    (hfront : front ≠ []) : '{' ∈ front := by
  obtain ⟨cs, hcs⟩ := json.text_head e
  cases front with
  | nil => exact absurd rfl hfront
  | cons =>
    rw [hcs, List.cons_append, List.cons.injEq] at hsplit
    exact List.mem_cons.mpr (.inl hsplit.1)

theorem lines_of_front {journal : Bytes} {cs : List Char} (hdecode : Utf8.decode journal = cs)
    (hprintable : ∀ c ∈ cs, 0x20 ≤ c.toNat) (hhead : '{' ∈ cs) : json.lines journal = [json.readLine cs] := by
  have hone : cs.splitOnP (· == '\n') = [cs] := by
    apply List.splitOnP_eq_singleton
    intro c hc
    rw [beq_eq_false_iff_ne]
    rintro rfl
    exact absurd (hprintable _ hc) (by decide)
  have hblank : cs.all isWhiteSpace = false := by
    rw [List.all_eq_false]
    exact ⟨'{', hhead, by decide⟩
  rw [lines, hdecode, hone]
  simp [hblank]

def AtLine (journal : Bytes) : Prop := journal = [] ∨ journal.getLast? = some Utf8.newline

variable {json} in
theorem lines_append {journal : Bytes} (h : AtLine journal) (rest : Bytes) :
    json.lines (journal ++ rest) = json.lines journal ++ json.lines rest := by
  rcases h with rfl | h
  · rfl
  · obtain ⟨before, rfl⟩ := List.getLast?_eq_some_iff.mp h
    obtain ⟨cs, hcs⟩ := Utf8.decode_newline before
    have hsplit (ds : List Char) : (cs ++ '\n' :: ds).splitOnP (· == '\n') =
        cs.splitOnP (· == '\n') ++ ds.splitOnP (· == '\n') := List.splitOnP_append_cons _ _ rfl
    rw [List.append_assoc, List.singleton_append]
    simp only [lines, hcs, hsplit, List.filter_append, List.map_append]
    rw [show Utf8.decode [] = [] from rfl]
    simp

theorem line_eq (e : Event) : json.line e = Utf8.encode (json.text e) ++ [Utf8.newline] := by
  rw [line, Utf8.encode, List.flatMap_append]
  rfl

theorem decode_encode (cs : List Char) : Utf8.decode (Utf8.encode cs) = cs := by
  have h := Utf8.decode_encode_append cs []
  rw [List.append_nil] at h
  rw [h]
  exact List.append_nil _

theorem lines_text (e : Event) : json.lines (Utf8.encode (json.text e)) = [.ok e] := by
  obtain ⟨cs, hcs⟩ := json.text_head e
  rw [json.lines_of_front (decode_encode _) (fun c ↦ json.printable_text) (by simp [hcs]), readLine_text]

theorem lines_line (e : Event) : json.lines (json.line e) = [.ok e] := by
  have htext := json.lines_text e
  have hsplit : (json.text e ++ ['\n']).splitOnP (· == '\n') = (json.text e).splitOnP (· == '\n') ++ [[]] :=
    List.splitOnP_append_cons _ _ rfl
  rw [lines, decode_encode] at htext
  rw [lines, line, decode_encode, hsplit, List.filter_append, List.map_append, htext]
  rfl

theorem lines_torn {e : Event} {k : ℕ} (hpos : 0 < k) (hlt : k < (Utf8.encode (json.text e)).length) :
    ∃ message, json.lines ((Utf8.encode (json.text e)).take k) = [.error message] := by
  have hlength : ((Utf8.encode (json.text e)).take k).length = k := List.length_take_of_le hlt.le
  have hnone {cs : List Char} (h : Json.parse json.reader cs = none) : json.readLine cs = .error (json.syntaxError cs) := by
    rw [readLine, h]
  obtain ⟨front, back, hsplit, htake⟩ := Utf8.take_encode (json.text e) k
  have hprintable : ∀ c ∈ front, 0x20 ≤ c.toNat := by
    intro c hc
    have hmem : c ∈ json.text e := by
      rw [hsplit]
      exact List.mem_append_left _ hc
    exact json.printable_text hmem
  rcases htake with htake | ⟨c, left, torn, missing, rfl, hchar, htorn, hmissing, htake⟩
  · have hfront : front ≠ [] := by
      rintro rfl
      rw [htake] at hlength
      simp only [Utf8.encode, List.flatMap_nil, List.length_nil] at hlength
      omega
    have hback : back ≠ [] := by
      rintro rfl
      rw [List.append_nil] at hsplit
      rw [htake, ← hsplit] at hlength
      omega
    have htext := parse_torn json.understands (members_distinct e) (members_numbers e fun _ ↦ trivial) rfl hsplit hback
    rw [htake, json.lines_of_front (decode_encode front) hprintable (json.brace_mem_front hsplit hfront), hnone htext]
    exact ⟨_, rfl⟩
  · -- the last character is cut, and a replacement stands in its place
    obtain ⟨hreplaced, houtside⟩ := Utf8.decode_torn hchar htorn hmissing
    have hdecode : Utf8.decode ((Utf8.encode (json.text e)).take k) = front ++ [Utf8.replacement] := by
      rw [htake, Utf8.decode_encode_append, hreplaced]
    have hfront : front ≠ [] := by
      rintro rfl
      obtain ⟨cs, hcs⟩ := json.text_head e
      rw [hcs, List.nil_append, List.cons.injEq] at hsplit
      rw [← hsplit.1] at houtside
      exact absurd houtside (by decide)
    have hreplacement : ∀ d ∈ front ++ [Utf8.replacement], 0x20 ≤ d.toNat := by
      intro d hd
      rcases List.mem_append.mp hd with hd | hd
      · exact hprintable d hd
      · cases List.mem_singleton.mp hd
        decide
    have htext := parse_torn_inside json.understands (members_distinct e) (members_numbers e fun _ ↦ trivial) rfl hsplit
      houtside (d := Utf8.replacement) (by decide)
    have hhead := List.mem_append_left [Utf8.replacement] (json.brace_mem_front hsplit hfront)
    rw [json.lines_of_front hdecode hreplacement hhead, hnone htext]
    exact ⟨_, rfl⟩

end JsonHost

end Noesar.Events
