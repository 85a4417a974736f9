import Noesar.Events.Journal
import Noesar.Lib.Numeral

namespace Noesar.Events

open Lib Lib.Framing Lib.Causes Lib.Json Capability EventLedger

namespace EventLedger

variable {d : Dialect} {ledger : EventLedger} {records : List Event}

theorem restoreAll_of_fresh (h : Built Fresh (ledger.events ++ records)) :
    ∃ ledger', restoreAll ledger records = .ok ledger' ∧ ledger'.events = ledger.events ++ records := by
  induction records generalizing ledger with
  | nil => exact ⟨ledger, rfl, by simp⟩
  | cons record records ih =>
    have hfresh : ledger.index.has record.id = false := has_false_iff.mpr (h ledger.events record records rfl)
    have hpush : (ledger.push record hfresh).events = ledger.events ++ [record] := rfl
    obtain ⟨ledger', hrest, hevents⟩ := @ih (ledger.push record hfresh) (by rw [hpush]; simpa using h)
    refine ⟨ledger', ?_, ?_⟩
    · rw [restoreAll, dif_neg (by simp [hfresh])]
      exact hrest
    · rw [hevents, hpush, List.append_assoc]
      rfl

variable (d) in
/-- What a restore checks of its records: each has an id of its own and hashes to its digest. -/
structure Verified (records : List Event) : Prop where
  fresh : Built Fresh records
  chained : Built (Chained d) records

theorem Verified.nil : Verified d [] := ⟨built_nil, built_nil⟩

theorem Verified.snoc (h : Verified d ledger.events) {draft : EventDraft} {e : Event}
    (hok : (append d ledger draft).1 = .ok e) : Verified d (ledger.events ++ [e]) := by
  obtain ⟨-, -, hfresh, hchained⟩ := append_ok_iff.mp hok
  exact ⟨built_snoc.mpr ⟨h.fresh, hfresh⟩, built_snoc.mpr ⟨h.chained, hchained⟩⟩

theorem restore_of_verified (h : Verified d records) : ∃ ledger, restore d records = .ok ledger ∧ ledger.events = records := by
  obtain ⟨ledger, hall, hevents⟩ := @restoreAll_of_fresh .empty records h.fresh
  have hevents : ledger.events = records := hevents
  have hvalid : ledger.verify d = none := by
    rw [verify_none_iff, hevents]
    exact h.chained
  refine ⟨ledger, ?_, hevents⟩
  rw [restore, hall]
  dsimp only
  rw [hvalid]

theorem verified_of_restore (h : restore d records = .ok ledger) : Verified d records := by
  obtain ⟨rfl, hvalid⟩ := restore_ok h
  exact ⟨(nodup_map_iff _).mp (ids_nodup ledger), verify_none_iff.mp hvalid⟩

theorem readLines_whole (lines position : ℕ) (records : List Event) :
    readLines lines position (records.map .ok) = .ok (records, none) := by
  induction records generalizing position with
  | nil => rfl
  | cons record records ih =>
    rw [List.map_cons, readLines, ih]
    rfl

theorem readLines_torn (lines position : ℕ) (records : List Event) (message : String) :
    readLines lines position (records.map .ok ++ [.error message]) =
      .ok (records, some (position + records.length + 1)) := by
  induction records generalizing position with
  | nil => rfl
  | cons record records ih =>
    rw [List.map_cons, List.cons_append, readLines, ih, List.length_cons]
    have hposition : position + 1 + records.length + 1 = position + (records.length + 1) + 1 := by omega
    rw [hposition]
    rfl

end EventLedger

namespace JsonHost

variable {json : JsonHost} {d : Dialect} {journal : Bytes} {records : List Event}

theorem loadFrom_whole (hverified : Verified d records) (hlines : json.lines journal = records.map .ok) :
    ∃ ledger, json.loadFrom d (some journal) = .ok ⟨ledger, none, some journal⟩ ∧ ledger.events = records := by
  obtain ⟨ledger, hrestore, hevents⟩ := restore_of_verified hverified
  refine ⟨ledger, ?_, hevents⟩
  rw [loadFrom, hlines, EventLedger.loadFrom, readLines_whole]
  dsimp only
  rw [hrestore]
  rfl

theorem loadFrom_lines {journal : Option Bytes} (hverified : Verified d records)
    (hlines : json.lines (journal.getD []) = records.map .ok) :
    ∃ ledger, json.loadFrom d journal = .ok ⟨ledger, none, journal⟩ ∧ ledger.events = records := by
  cases journal with
  | none =>
    have hnone : records = [] := List.map_eq_nil_iff.mp hlines.symm
    exact ⟨.empty, rfl, hnone.symm⟩
  | some => exact loadFrom_whole hverified hlines

theorem loadFrom_torn (hverified : Verified d records) {message : String}
    (hlines : json.lines journal = records.map .ok ++ [.error message]) :
    ∃ ledger, json.loadFrom d (some journal) =
      .ok ⟨ledger, some (records.length + 1), some (records.flatMap json.line)⟩ ∧ ledger.events = records := by
  obtain ⟨ledger, hrestore, hevents⟩ := restore_of_verified hverified
  refine ⟨ledger, ?_, hevents⟩
  rw [loadFrom, hlines, EventLedger.loadFrom, readLines_torn]
  dsimp only
  rw [hrestore, Nat.zero_add]
  simp [Except.map, hevents]

theorem atLine_append {bytes : Bytes} (e : Event) : AtLine (bytes ++ json.line e) := by
  right
  rw [line_eq, ← List.append_assoc, List.getLast?_append]
  rfl

theorem lines_written (records : List Event) : json.lines (records.flatMap json.line) = records.map .ok := by
  induction records with
  | nil => rfl
  | cons record records ih =>
    have hline : AtLine (json.line record) := @atLine_append json [] record
    rw [List.flatMap_cons, lines_append hline, lines_line, ih]
    rfl

end JsonHost

/-- A journal over its life: what the process that keeps it has in memory, unless it was
refused the journal; the file; and the events whose text was written to its end. -/
structure Life where
  memory : Except EventError EventLedger
  journal : Option Bytes
  complete : List Event

/-- A process appends, or is killed when so many bytes of the text of an event are written and
is started again, or is only started again. -/
inductive Move
  | append (draft : EventDraft)
  | crash (draft : EventDraft) (written : ℕ)
  | reload

namespace Life

def begun : Life := ⟨.ok .empty, none, []⟩

def bytes (s : Life) : Bytes := s.journal.getD []

section

variable (json : JsonHost) (d : Dialect)

def restart (s : Life) : Life :=
  match json.loadFrom d s.journal with
  | .error refusal => { s with memory := .error refusal }
  | .ok opened => { s with memory := .ok opened.ledger, journal := opened.journal }

def step (s : Life) (m : Move) : Life :=
  match s.memory with
  | .error _ => s
  | .ok ledger => match m with
    | .append draft => match EventLedger.append d ledger draft with
      | (.error _, _) => s
      | (.ok e, ledger) => ⟨.ok ledger, some (s.bytes ++ json.line e), s.complete ++ [e]⟩
    | .crash draft written => match EventLedger.append d ledger draft with
      | (.error _, _) => restart json d s
      | (.ok e, _) =>
        restart json d ⟨s.memory, some (s.bytes ++ (Utf8.encode (json.text e)).take written),
          if (Utf8.encode (json.text e)).length ≤ written then s.complete ++ [e] else s.complete⟩
    | .reload => restart json d s

def written : Move → Option EventDraft
  | .append draft => some draft
  | .crash draft written => if 0 < written then some draft else none
  | .reload => none

def StartsLine (s : Life) (m : Move) : Prop :=
  ∀ ledger draft e, s.memory = .ok ledger → written m = some draft → (EventLedger.append d ledger draft).1 = .ok e →
    JsonHost.AtLine s.bytes

/-- The process has in memory what is complete, and the journal reads as that. -/
structure Sound (s : Life) : Prop where
  memory : ∃ ledger, s.memory = .ok ledger ∧ ledger.events = s.complete
  verified : Verified d s.complete
  lines : json.lines s.bytes = s.complete.map .ok

variable {json d} {s : Life}

theorem restart_eq {opened : JsonHost.Opened} (h : json.loadFrom d s.journal = .ok opened) :
    restart json d s = { s with memory := .ok opened.ledger, journal := opened.journal } := by
  rw [restart, h]

theorem restart_of_whole (hverified : Verified d s.complete) (hlines : json.lines s.bytes = s.complete.map .ok) :
    Sound json d (restart json d s) := by
  obtain ⟨ledger, hload, hevents⟩ := JsonHost.loadFrom_lines hverified hlines
  rw [restart_eq hload]
  exact ⟨⟨ledger, rfl, hevents⟩, hverified, hlines⟩

theorem restart_of_torn {journal : Bytes} {memory : Except EventError EventLedger} {complete : List Event}
    (hverified : Verified d complete) {message : String}
    (hlines : json.lines journal = complete.map .ok ++ [.error message]) :
    Sound json d (restart json d ⟨memory, some journal, complete⟩) := by
  obtain ⟨ledger, hload, hevents⟩ := JsonHost.loadFrom_torn hverified hlines
  rw [restart_eq hload]
  exact ⟨⟨ledger, rfl, hevents⟩, hverified, JsonHost.lines_written complete⟩

theorem Sound.begun : Sound json d begun := ⟨⟨.empty, rfl, rfl⟩, .nil, rfl⟩

theorem Sound.restart (h : Sound json d s) : Sound json d (restart json d s) := restart_of_whole h.verified h.lines

theorem Sound.snoc (h : Sound json d s) {ledger : EventLedger} (hevents : ledger.events = s.complete)
    {draft : EventDraft} {e : Event} (hok : (EventLedger.append d ledger draft).1 = .ok e) :
    Verified d (s.complete ++ [e]) := by
  have hverified := h.verified
  rw [← hevents] at hverified ⊢
  exact hverified.snoc hok

theorem Sound.crash (h : Sound json d s) {e : Event} (hverified : Verified d (s.complete ++ [e])) {k : ℕ}
    (hat : k = 0 ∨ JsonHost.AtLine s.bytes) : Sound json d
      (Life.restart json d ⟨s.memory, some (s.bytes ++ (Utf8.encode (json.text e)).take k),
        if (Utf8.encode (json.text e)).length ≤ k then s.complete ++ [e] else s.complete⟩) := by
  have hlines : json.lines (s.bytes ++ (Utf8.encode (json.text e)).take k) =
      s.complete.map .ok ++ json.lines ((Utf8.encode (json.text e)).take k) := by
    rcases hat with rfl | hat
    · rw [List.take_zero, List.append_nil, h.lines]
      exact (List.append_nil _).symm
    · rw [JsonHost.lines_append hat, h.lines]
  by_cases hlength : (Utf8.encode (json.text e)).length ≤ k
  · rw [if_pos hlength]
    apply restart_of_whole hverified
    change json.lines (s.bytes ++ (Utf8.encode (json.text e)).take k) = _
    rw [hlines, List.take_of_length_le hlength, JsonHost.lines_text, List.map_append]
    rfl
  · rw [if_neg hlength]
    rcases Nat.eq_zero_or_pos k with rfl | hpos
    · refine @restart_of_whole json d ⟨_, _, _⟩ h.verified ?_
      change json.lines (s.bytes ++ (Utf8.encode (json.text e)).take 0) = _
      rw [hlines, List.take_zero]
      exact List.append_nil _
    · obtain ⟨message, htorn⟩ := json.lines_torn hpos (not_le.mp hlength)
      rw [htorn] at hlines
      exact restart_of_torn h.verified hlines

theorem Sound.step (h : Sound json d s) {m : Move} (hline : StartsLine d s m) : Sound json d (step json d s m) := by
  obtain ⟨ledger, hmemory, hevents⟩ := h.memory
  rw [Life.step, hmemory]
  dsimp only
  cases m with
  | reload => exact h.restart
  | append draft =>
    dsimp only
    split
    · exact h
    next e ledger' happend =>
      have hok : (EventLedger.append d ledger draft).1 = .ok e := by rw [happend]
      have hledger := append_events hok
      rw [happend, hevents] at hledger
      refine ⟨⟨ledger', rfl, hledger⟩, h.snoc hevents hok, ?_⟩
      change json.lines (s.bytes ++ json.line e) = _
      rw [JsonHost.lines_append (hline ledger draft e hmemory rfl hok), h.lines, JsonHost.lines_line, List.map_append]
      rfl
  | crash draft k =>
    dsimp only
    split
    · exact h.restart
    next e ledger' happend =>
      have hok : (EventLedger.append d ledger draft).1 = .ok e := by rw [happend]
      rw [← hmemory]
      refine h.crash (h.snoc hevents hok) ?_
      rcases Nat.eq_zero_or_pos k with hzero | hpos
      · exact .inl hzero
      · exact .inr (hline ledger draft e hmemory (if_pos hpos) hok)

end

end Life

/-- Over every life of a journal in which whatever is written starts a line, no load is refused,
and what is loaded is what was written to its end. -/
theorem journal_recovers (json : JsonHost) (host : Host) {moves : List Move}
    (h : Run.Along (Life.step json (js host)) (Life.StartsLine (js host)) Life.begun moves) :
    ∃ ledger opened, (Run.after (Life.step json (js host)) Life.begun moves).memory = .ok ledger ∧
      ledger.events = (Run.after (Life.step json (js host)) Life.begun moves).complete ∧
      json.loadFrom (js host) (Run.after (Life.step json (js host)) Life.begun moves).journal = .ok opened ∧
      opened.ledger.events = (Run.after (Life.step json (js host)) Life.begun moves).complete := by
  have hsound := h.invariant (fun s m hs hm ↦ Life.Sound.step hs hm) Life.Sound.begun
  obtain ⟨ledger, hmemory, hevents⟩ := hsound.memory
  obtain ⟨loaded, hload, hloaded⟩ := JsonHost.loadFrom_lines hsound.verified hsound.lines
  exact ⟨ledger, _, hmemory, hevents, hload, hloaded⟩

section Sample

def readInteger : List Char → Option ℤ
  | '-' :: cs => some (-Nat.ofDigitChars 10 cs 0)
  | cs => some (Nat.ofDigitChars 10 cs 0)

theorem readInteger_toString (t : ℤ) : readInteger (toString t).toList = some t := by
  obtain ⟨n, rfl | rfl⟩ := t.eq_nat_or_neg
  · rw [Decimal.toString_natCast, readInteger, Nat.ofDigitChars_ten_toDigits]
    intro cs hcs
    have hmem : '-' ∈ Nat.toDigits 10 n := by simp [hcs]
    cases Decimal.isDigit_of_mem hmem
  · rcases Nat.eq_zero_or_pos n with rfl | hpos
    · rfl
    · rw [Decimal.toString_neg hpos, readInteger, Nat.ofDigitChars_ten_toDigits]

/-- A platform that writes times in digits, as all platforms do while they are not too large. -/
def JsonHost.sample : JsonHost where
  stringify t := (toString t).toList
  parse := readInteger
  syntaxError _ := "Unexpected end of JSON input"
  numeral := Decimal.numeric_toString
  inverted := readInteger_toString

def firstDraft : EventDraft := ⟨"e1", "run-1", none, "actor", "started", "é", 1⟩

def secondDraft : EventDraft := ⟨"e2", "run-1", some "e1", "actor", "ended", "", 2⟩

end Sample

theorem journal_recovers_torn :
    ∃ ledger opened, (Run.after (Life.step .sample (js .sample)) Life.begun
        [.append firstDraft, .crash secondDraft 5, .append secondDraft]).memory = .ok ledger ∧
      ledger.events = (Run.after (Life.step .sample (js .sample)) Life.begun
        [.append firstDraft, .crash secondDraft 5, .append secondDraft]).complete ∧
      JsonHost.sample.loadFrom (js .sample) (Run.after (Life.step .sample (js .sample)) Life.begun
        [.append firstDraft, .crash secondDraft 5, .append secondDraft]).journal = .ok opened ∧
      opened.ledger.events = (Run.after (Life.step .sample (js .sample)) Life.begun
        [.append firstDraft, .crash secondDraft 5, .append secondDraft]).complete := by
  have hfirst : (Life.step .sample (js .sample) Life.begun (.append firstDraft)).bytes.getLast? =
      some Utf8.newline := by decide +kernel
  have htorn : (Life.step .sample (js .sample) (Life.step .sample (js .sample) Life.begun (.append firstDraft))
      (.crash secondDraft 5)).bytes.getLast? = some Utf8.newline := by decide +kernel
  apply journal_recovers
  refine ⟨?_, ?_, ?_, trivial⟩
  · exact fun _ _ _ _ _ _ ↦ .inl rfl
  · exact fun _ _ _ _ _ _ ↦ .inr hfirst
  · exact fun _ _ _ _ _ _ ↦ .inr htorn

theorem complete_text_lost :
    ((Run.after (Life.step .sample (js .sample)) Life.begun
        [.crash firstDraft 1000, .append secondDraft, .reload]).complete.map fun e ↦ e.id) = ["e1", "e2"] ∧
      (Run.after (Life.step .sample (js .sample)) Life.begun
        [.crash firstDraft 1000, .append secondDraft, .reload]).memory.toOption.map (fun ledger ↦ ledger.events) = some [] := by
  decide +kernel

end Noesar.Events
